import Xml.Entity.Basic

/-!
# Reading declarations

The declarations of a DTD subset. Entities are collected, everything else is passed over, and a
malformed entity declaration is reported while reading goes on behind it.

## Termination

`skipDeclaration`, `subsetEnd?` and `readDeclarations` go on with a proper suffix of their text.
-/

namespace Xml

open Text

/-- What can be wrong with an entity declaration. -/
inductive DeclarationProblem where
  | spaceMissing
  | nameMissing
  | publicIdMissing (name : String)
  | systemIdMissing (name : String)
  | valueMissing (name : String)
  deriving DecidableEq, Repr

def DeclarationProblem.message : DeclarationProblem → String
  | .spaceMissing => "Space required after '<!ENTITY'"
  | .nameMissing => "xmlParseEntityDecl: no name"
  | .publicIdMissing name => "Public identifier of entity '" ++ name ++ "' missing"
  | .systemIdMissing name => "System identifier of entity '" ++ name ++ "' missing"
  | .valueMissing name => "Entity value required for '" ++ name ++ "'"

structure EntityDeclaration where
  name : String
  value : EntityValue
  isParameter : Bool
  deriving Repr

namespace Declarations

/-- The system identifier of an external entity and what follows it. -/
def readSystemId (name : String) (publicId : Option String) (text : List Char) :
    Except DeclarationProblem EntityValue × List Char :=
  match readLiteral text with
  | (none, rest) => (.error (.systemIdMissing name), rest)
  | (some id, rest) =>
    let rest := skipBlanks rest
    match after? "NDATA".toList rest with
    | some _ => (.ok .unparsed, rest)
    | none => (.ok (.external publicId (String.ofList id)), rest)

theorem readSystemId_suffix (name : String) (publicId : Option String) (text : List Char) :
    (readSystemId name publicId text).2 <:+ text := by
  have hl := readLiteral_suffix text
  simp only [readSystemId]
  split
  · next h => rw [h] at hl; exact hl
  · next h =>
    rw [h] at hl
    split <;> exact (skipBlanks_suffix _).trans hl

/-- The value of an entity: a literal, or the identifiers of an external entity. An opening quote
that nothing closes is passed before the identifiers are looked for. -/
def readEntityValue (name : String) (text : List Char) :
    Except DeclarationProblem EntityValue × List Char :=
  match readLiteral text with
  | (some literal, rest) => (.ok (.internal (String.ofList (expandCharRefs literal))), rest)
  | (none, rest) =>
    match after? "SYSTEM".toList rest with
    | some tail => readSystemId name none (skipBlanks tail)
    | none =>
      match after? "PUBLIC".toList rest with
      | some tail =>
        match readLiteral (skipBlanks tail) with
        | (some id, tail) => readSystemId name (some (String.ofList id)) (skipBlanks tail)
        | (none, tail) => (.error (.publicIdMissing name), tail)
      | none => (.error (.valueMissing name), rest)

theorem readEntityValue_suffix (name : String) (text : List Char) :
    (readEntityValue name text).2 <:+ text := by
  have hl := readLiteral_suffix text
  simp only [readEntityValue]
  split
  · next h => rw [h] at hl; exact hl
  · next rest h =>
    rw [h] at hl
    split
    · next ha =>
      exact (readSystemId_suffix _ _ _).trans
        ((skipBlanks_suffix _).trans ((after?_suffix ha).trans hl))
    · split
      · next tail ha =>
        have hp := readLiteral_suffix (skipBlanks tail)
        have hs := (skipBlanks_suffix tail).trans ((after?_suffix ha).trans hl)
        split
        · next hq =>
          rw [hq] at hp
          exact (readSystemId_suffix _ _ _).trans ((skipBlanks_suffix _).trans (hp.trans hs))
        · next hq => rw [hq] at hp; exact hp.trans hs
      · exact hl

/-- Whether a `%` marks a parameter entity, and the place its name is looked for. -/
def readParameterMark : List Char → Bool × List Char
  | '%' :: rest => (true, skipBlanks rest)
  | rest => (false, rest)

theorem readParameterMark_suffix (text : List Char) : (readParameterMark text).2 <:+ text := by
  unfold readParameterMark
  split
  · exact (skipBlanks_suffix _).trans (List.suffix_cons _ _)
  · exact List.suffix_refl _

/-- One entity declaration, read from behind its keyword, and the place reading goes on from. -/
def readEntity (text : List Char) : Except DeclarationProblem EntityDeclaration × List Char :=
  if startsBlank text then
    let (isParameter, rest) := readParameterMark (skipBlanks text)
    match readName? rest with
    | none => (.error .nameMissing, rest)
    | some (name, rest) =>
      let (value, rest) := readEntityValue (String.ofList name) (skipBlanks rest)
      (value.map fun value => ⟨String.ofList name, value, isParameter⟩, rest)
  else (.error .spaceMissing, text)

theorem readEntity_suffix (text : List Char) : (readEntity text).2 <:+ text := by
  have hs := (readParameterMark_suffix (skipBlanks text)).trans (skipBlanks_suffix text)
  simp only [readEntity]
  split
  · split
    · exact hs
    · next hn =>
      exact (readEntityValue_suffix _ _).trans
        ((skipBlanks_suffix _).trans ((readName?_suffix hn).trans hs))
  · exact List.suffix_refl _

/-- The rest behind the `>` that ends a declaration. Literals are passed whole; one that nothing
closes runs to the end of the text. -/
def skipDeclaration : List Char → List Char
  | [] => []
  | c :: rest =>
    if c == '>' then rest
    else if c == '"' || c == '\'' then
      match h : breakOn [c] rest with
      | some (_, tail) =>
        have := (breakOn_suffix h).length_le
        skipDeclaration tail
      | none => []
    else skipDeclaration rest
termination_by text => text.length
decreasing_by all_goals (simp only [List.length_cons]; omega)

theorem skipDeclaration_suffix (text : List Char) : skipDeclaration text <:+ text := by
  fun_induction skipDeclaration text with
  | case1 => exact List.suffix_refl _
  | case2 => exact List.suffix_cons _ _
  | case3 c rest _ _ before tail hb _ ih =>
    exact ih.trans ((breakOn_suffix hb).trans (List.suffix_cons _ _))
  | case4 => exact List.nil_suffix
  | case5 _ _ _ _ ih => exact ih.trans (List.suffix_cons _ _)

theorem skipDeclaration_cons_suffix (c : Char) (rest : List Char) :
    skipDeclaration (c :: rest) <:+ rest := by
  rw [skipDeclaration]
  split
  · exact List.suffix_refl _
  · split
    · split
      · next hb => exact (skipDeclaration_suffix _).trans (breakOn_suffix hb)
      · exact List.nil_suffix
    · exact skipDeclaration_suffix _

/-- The rest behind the `]` that ends an internal subset. Comments, processing instructions and
literals are passed whole. -/
def subsetEnd? : List Char → Option (List Char)
  | [] => none
  | c :: rest =>
    if c == ']' then some rest
    else if c == '"' || c == '\'' then
      match h : breakOn [c] rest with
      | some (_, tail) =>
        have := (breakOn_suffix h).length_le
        subsetEnd? tail
      | none => none
    else
      match hc : after? "<!--".toList (c :: rest) with
      | some inside =>
        match h : breakOn "-->".toList inside with
        | some (_, tail) =>
          have hlen : (c :: rest).length = 4 + inside.length := by
            rw [after?_eq hc, List.length_append]; rfl
          have := (breakOn_suffix h).length_le
          subsetEnd? tail
        | none => none
      | none =>
        match hp : after? "<?".toList (c :: rest) with
        | some inside =>
          match h : breakOn "?>".toList inside with
          | some (_, tail) =>
            have hlen : (c :: rest).length = 2 + inside.length := by
              rw [after?_eq hp, List.length_append]; rfl
            have := (breakOn_suffix h).length_le
            subsetEnd? tail
          | none => none
        | none => subsetEnd? rest
termination_by text => text.length
decreasing_by all_goals (simp only [List.length_cons] at *; omega)

theorem subsetEnd?_suffix {text rest : List Char} (h : subsetEnd? text = some rest) :
    rest <:+ text := by
  fun_induction subsetEnd? text with
  | case1 => cases h
  | case2 => cases h; exact List.suffix_cons _ _
  | case3 c tail _ _ before after hb _ ih =>
    exact (ih h).trans ((breakOn_suffix hb).trans (List.suffix_cons _ _))
  | case4 => cases h
  | case5 c tail _ _ inside hc before after hb _ _ ih =>
    exact (ih h).trans ((breakOn_suffix hb).trans (after?_suffix hc))
  | case6 => cases h
  | case7 c tail _ _ _ inside hp before after hb _ _ ih =>
    exact (ih h).trans ((breakOn_suffix hb).trans (after?_suffix hp))
  | case8 => cases h
  | case9 c tail _ _ _ _ ih => exact (ih h).trans (List.suffix_cons _ _)

/-- The internal subset the text begins with and the rest behind its `]`. -/
def splitSubset? (text : List Char) : Option (List Char × List Char) :=
  (subsetEnd? text).map fun rest => (text.take (text.length - rest.length - 1), rest)

theorem splitSubset?_suffix {text subset rest : List Char}
    (h : splitSubset? text = some (subset, rest)) : rest <:+ text := by
  obtain ⟨r, hr, he⟩ := Option.map_eq_some_iff.mp h
  cases he
  exact subsetEnd?_suffix hr

/-- The declarations read so far. -/
structure Reading where
  table : EntityTable
  /-- Latest first. -/
  problems : List DeclarationProblem := []

/-- Takes in one entity declaration, or what is wrong with it. -/
def Reading.add (r : Reading) : Except DeclarationProblem EntityDeclaration → Reading
  | .ok d => { r with table := r.table.declare d.name d.value d.isParameter }
  | .error p => { r with problems := p :: r.problems }

/-- Reads all declarations of a text. A comment or processing instruction that nothing closes ends
the reading. -/
def readFrom (r : Reading) : List Char → Reading
  | [] => r
  | c :: rest =>
    match hc : after? "<!--".toList (c :: rest) with
    | some inside =>
      match h : breakOn "-->".toList inside with
      | some (_, tail) =>
        have hlen : (c :: rest).length = 4 + inside.length := by
          rw [after?_eq hc, List.length_append]; rfl
        have := (breakOn_suffix h).length_le
        readFrom r tail
      | none => r
    | none =>
      match after? "<?".toList (c :: rest) with
      | some _ =>
        match h : breakOn "?>".toList (c :: rest) with
        | some (before, tail) =>
          have hlen : (c :: rest).length = before.length + 2 + tail.length := by
            rw [breakOn_eq h]; simp; omega
          readFrom r tail
        | none => r
      | none =>
        match he : after? "<!ENTITY".toList (c :: rest) with
        | some inside =>
          have hlen : (c :: rest).length = 8 + inside.length := by
            rw [after?_eq he, List.length_append]; rfl
          have := (readEntity_suffix inside).length_le
          have := (skipDeclaration_suffix (readEntity inside).2).length_le
          readFrom (r.add (readEntity inside).1) (skipDeclaration (readEntity inside).2)
        | none =>
          match after? "<!".toList (c :: rest) with
          | some _ =>
            have := (skipDeclaration_cons_suffix c rest).length_le
            readFrom r (skipDeclaration (c :: rest))
          | none => readFrom r rest
termination_by text => text.length
decreasing_by all_goals (simp only [List.length_cons] at *; omega)

end Declarations

/-- Adds the entities that a subset declares to a table, and lists what is wrong with it. -/
def readDeclarations (text : List Char) (table : EntityTable) :
    EntityTable × List DeclarationProblem :=
  let r := Declarations.readFrom { table } text
  (r.table, r.problems.reverse)

end Xml
