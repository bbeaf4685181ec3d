import Xml.Proofs.Bounds.Declarations
import Xml.Scan.Markup
import Xml.Scan.Tag

/-!
# Routines for markup

Tags, references, comments, sections, instructions and declarations, each from behind the characters
that open it. A piece that is not as it should be gives a problem; a routine then stands anywhere,
since nothing is read behind the problem (`Finds`).
-/

namespace Xml.Bounds

open Text Routine List Declarations

variable {m : Type → Type}

/-! ## Routines -/

def piece (mark : String) (problem : Problem) : Routine m (Except Problem (List Char)) := do
  match ← query (.upTo mark) with
  | some inside => return .ok inside
  | none => return .error problem

def endTag : Routine m (Except Problem String) := do
  match ← query .name with
  | none => return .error .endTagWithoutName
  | some name =>
    let _ ← query .blanks
    if ← query (.passes '>') then return .ok (String.ofList name)
    else return .error (.unfinishedEndTag (String.ofList name))

def instruction : Routine m (Except Problem (String × List Char)) := do
  match ← query .name with
  | none => return .error .instructionWithoutTarget
  | some target =>
    if asciiLower target == "xml".toList then return .error .misplacedXmlDeclaration
    else
      let spaced ← query .blanks
      match ← query (.upTo "?>") with
      | none => return .error (.unfinishedInstruction (String.ofList target))
      | some data =>
        if !data.isEmpty && !spaced then return .error (.instructionSpace (String.ofList target))
        else return .ok (String.ofList target, data)

/-- The public and system identifiers of a document type. -/
def externalId : Routine m (Except Problem (Option String × Option String)) := do
  if ← query (.starts "SYSTEM") then
    let _ ← query .blanks
    match ← query .quoted with
    | some system => return .ok (none, some (String.ofList system))
    | none => return .error .systemIdMissing
  else if ← query (.starts "PUBLIC") then
    let _ ← query .blanks
    match ← query .quoted with
    | some publicId =>
      let _ ← query .blanks
      match ← query .quoted with
      | some system => return .ok (some (String.ofList publicId), some (String.ofList system))
      | none => return .error .systemIdMissing
    | none => return .error .publicIdMissing
  else return .ok (none, none)

/-- Cuts out the subset that ends at the `]` which was found in the rest of the text. -/
def readSubset (c : Cursor) : Checked (Option (List Char) × Cursor) := do
  match ← subsetEnd (← sliceFrom c.text c.position) with
  | none => return (none, c)
  | some size =>
    let subset ← slice c.text c.position (c.position + size)
    return (some subset.toList, c.setPosition (c.position + size + 1))

theorem readSubset_cursorAt {text : String} {rest : List Char} (h : rest <:+ text.toList) :
    readSubset (cursorAt text rest) = some (Prod.map id (cursorAt text)
      ((splitSubset? rest).elim (none, rest) fun found =>
        (some found.1, found.2))) := by
  simp only [readSubset, cursorAt, sliceFrom_offset h, Option.bind_eq_bind, Option.bind_some,
    subsetEnd_eq, String.toList_ofList]
  cases hend : subsetEnd? rest with
  | none =>
    rw [splitSubset?, hend]
    rfl
  | some tail =>
    obtain ⟨subset, hrest, hs⟩ := subsetEnd?_eq_some hend
    have hsplit : splitSubset? rest = some (subset, tail) :=
      splitSubset?_eq_some_iff.mpr ⟨hrest, hs⟩
    have hsize : offset (String.ofList rest) (']' :: tail) = byteSize subset := by
      rw [offset, utf8ByteSize_ofList, hrest, byteSize_append, Nat.add_sub_cancel]
    have hnext : offset text (']' :: tail) + 1 = offset text tail :=
      offset_cons (suffix_of_eq h hrest)
    simp only [Option.map_some, hsize, offset_of_eq h hrest, slice_of_eq h hrest, hnext, hsplit,
      Option.bind_some, Option.elim_some, String.toList_ofList]
    rfl

@[simps]
def Query.subset : Query (Option (List Char)) where
  run := readSubset
  read rest :=
    (splitSubset? rest).elim (none, rest) fun found => (some found.1, found.2)
  read_suffix rest := by
    cases h : splitSubset? rest with
    | none => exact suffix_rfl
    | some found => exact splitSubset?_suffix h
  run_cursorAt := readSubset_cursorAt

def internalSubset : Routine m (Except Problem (Option (List Char))) := do
  if ← query (.passes '[') then
    match ← query .subset with
    | some subset =>
      let _ ← query .blanks
      return .ok (some subset)
    | none => return .error .unfinishedSubset
  else return .ok none

/-- The document type declaration behind its keyword. -/
def doctype : Routine m (Except Problem Doctype) := do
  if ← query .blanks then
    match ← query .name with
    | none => return .error .doctypeWithoutName
    | some name =>
      let _ ← query .blanks
      match ← externalId with
      | .error problem => return .error problem
      | .ok (publicId, systemId) =>
        let _ ← query .blanks
        match ← internalSubset with
        | .error problem => return .error problem
        | .ok subset =>
          if ← query (.passes '>') then
            return .ok ⟨String.ofList name, publicId, systemId, subset.map String.ofList⟩
          else return .error .unfinishedDoctype
  else return .error .doctypeSpace

/-- What a `&` stands for. -/
def reference : Routine m Scan.Reference := do
  if ← query (.passes '#') then
    match ← query (.upTo ";") with
    | some body => return .char (charRef? body)
    | none => return .char none
  else
    let name? ← lookAhead do
      match ← query .name with
      | none => return none
      | some name => return if ← query (.passes ';') then some name else none
    match name? with
    | some name =>
      let _ ← query .name
      let _ ← query (.passes ';')
      return .entity name
    | none => return .plain

def rawAttribute : Routine m (Except Problem (String × List Char)) := do
  match ← query .name with
  | none => return .error .badAttribute
  | some name =>
    let _ ← query .blanks
    if ← query (.passes '=') then
      let _ ← query .blanks
      match ← query .quoted with
      | some raw => return .ok (String.ofList name, raw)
      | none => return .error .attributeNotQuoted
    else return .error (.attributeWithoutValue (String.ofList name))

/-- The attributes of a start tag and the tag's end. -/
def attributes : Nat → Routine m (List Scan.RawAttribute × Scan.TagEnd)
  | 0 => given none
  | rounds + 1 => do
    let spaced ← query .blanks
    let place ← query .here
    if ← query .atEnd then return ([], .unfinished)
    else if ← query (.passes '>') then return ([], .opened (← query .here))
    else if ← query (.starts "/>") then return ([], .closed (← query .here))
    else if (← query .seesName) && spaced then
      match ← rawAttribute with
      | .error problem => return ([], .broken problem place)
      | .ok (name, raw) =>
        let (more, tagEnd) ← attributes rounds
        return (⟨place, name, raw⟩ :: more, tagEnd)
    else return ([], .broken .badAttribute place)

def pseudoAttributes : Nat → Scan.XmlDeclaration → Routine m (Option Scan.XmlDeclaration)
  | 0, _ => given none
  | rounds + 1, d => do
    let _ ← query .blanks
    if ← query .atEnd then return some d
    else
      match ← rawAttribute with
      | .error _ => return none
      | .ok (key, value) =>
        match d.set? key (String.ofList value) with
        | none => return none
        | some d => pseudoAttributes rounds d

/-! ## What they find -/

/-- A routine finds a piece, or what is wrong with it. -/
inductive Finds [Monad m] {α ε : Type} :
    OptionT m (Except ε α × List Char) → Except ε (α × List Char) → Prop where
  | ok (a : α) (tail : List Char) : Finds (pure (.ok a, tail)) (.ok (a, tail))
  | error (e : ε) (tail : List Char) : Finds (pure (.error e, tail)) (.error e)

attribute [simp] Finds.ok Finds.error

variable [Monad m]

section Finds

variable {α ε : Type} {read : OptionT m (Except ε α × List Char)}
  {result : Except ε (α × List Char)}

@[simp] theorem finds_pair (found : α × List Char) :
    Finds (pure (.ok found.1, found.2) : OptionT m _) (.ok found : Except ε _) := .ok ..

theorem Finds.eq_ok {a : α} {tail : List Char} (h : Finds read result)
    (hr : result = .ok (a, tail)) : read = pure (.ok a, tail) := by
  cases h <;> cases hr
  rfl

theorem Finds.eq_error {e : ε} (h : Finds read result) (hr : result = .error e) :
    ∃ tail, read = pure (.error e, tail) := by
  cases h <;> cases hr
  exact ⟨_, rfl⟩

end Finds

theorem readQuoted?_eq_some_iff_readLiteral {text value rest : List Char} :
    readQuoted? text = some (value, rest) ↔ readLiteral text = (some value, rest) := by
  fun_cases readQuoted? text <;> simp_all

theorem readQuoted?_eq_none_iff {text : List Char} :
    readQuoted? text = none ↔ (readLiteral text).1 = none := by
  fun_cases readQuoted? text <;> simp_all

variable [LawfulMonad m] (text : List Char)

theorem finds_piece (mark : String) (problem : Problem) :
    Finds ((piece mark problem : Routine m _).read text) (Scan.readUpTo mark problem text) := by
  fun_cases Scan.readUpTo mark problem text <;> simp_all [piece, takeUpTo]

theorem finds_endTag : Finds ((endTag : Routine m _).read text) (Scan.readEndTag text) := by
  fun_cases Scan.readEndTag text with
  | case1 hn => simp [endTag, takeName, hn]
  | case2 name rest hn tail hs => simp [endTag, takeName, hn, hs]
  | case3 name rest hn hne => simp [endTag, takeName, hn, takeChar_of_ne hne]

theorem finds_instruction :
    Finds ((instruction : Routine m _).read text) (Scan.readInstruction text) := by
  fun_cases Scan.readInstruction text <;> simp_all [instruction, takeName, takeUpTo]
  split <;> simp_all

theorem finds_externalId :
    Finds ((externalId : Routine m _).read text) (Scan.readExternalId text) := by
  fun_cases Scan.readExternalId text with
  | case1 rest hs system tail hq =>
    simp [externalId, hs, readQuoted?_eq_some_iff_readLiteral.mp hq, -String.reduceToList]
  | case2 rest hs hq =>
    simp [externalId, hs, readQuoted?_eq_none_iff.mp hq, -String.reduceToList]
  | case3 hs rest hp publicId tail hq system tail' hq' =>
    simp [externalId, hs, hp, readQuoted?_eq_some_iff_readLiteral.mp hq,
      readQuoted?_eq_some_iff_readLiteral.mp hq', -String.reduceToList]
  | case4 hs rest hp publicId tail hq hq' =>
    simp [externalId, hs, hp, readQuoted?_eq_some_iff_readLiteral.mp hq,
      readQuoted?_eq_none_iff.mp hq', -String.reduceToList]
  | case5 hs rest hp hq =>
    simp [externalId, hs, hp, readQuoted?_eq_none_iff.mp hq, -String.reduceToList]
  | case6 hs hp => simp [externalId, hs, hp, -String.reduceToList]

theorem finds_internalSubset :
    Finds ((internalSubset : Routine m _).read text) (Scan.readSubset text) := by
  fun_cases Scan.readSubset text <;> simp_all [internalSubset, takeChar_of_ne]

theorem finds_doctype : Finds ((doctype : Routine m _).read text) (Scan.readDoctype text) := by
  fun_cases Scan.readDoctype text with
  | case1 hs hn => simp [doctype, takeName, hs, hn]
  | case2 hs name rest hn problem he =>
    obtain ⟨tail, hid⟩ := (finds_externalId (m := m) _).eq_error he
    simp [doctype, takeName, hs, hn, hid]
  | case3 hs name rest hn publicId systemId rest' he problem hsub =>
    have hid := (finds_externalId (m := m) _).eq_ok he
    obtain ⟨tail, hsubset⟩ := (finds_internalSubset (m := m) _).eq_error hsub
    simp [doctype, takeName, hs, hn, hid, hsubset]
  | case4 hs name rest hn publicId systemId rest' he subset rest'' hsub =>
    have hid := (finds_externalId (m := m) _).eq_ok he
    have hsubset := (finds_internalSubset (m := m) _).eq_ok hsub
    simp [doctype, takeName, hs, hn, hid, hsubset]
  | case5 hs name rest hn publicId systemId rest' he subset rest'' hsub hne =>
    have hid := (finds_externalId (m := m) _).eq_ok he
    have hsubset := (finds_internalSubset (m := m) _).eq_ok hsub
    simp [doctype, takeName, hs, hn, hid, hsubset, takeChar_of_ne hne]
  | case6 hs => simp [doctype, hs]

theorem read_reference : (reference : Routine m _).read text = pure (Scan.readReference text) := by
  fun_cases Scan.readReference text with
  | case1 inside body rest hb => simp_all [reference, takeUpTo]
  | case2 inside hb => simp_all [reference, takeUpTo]
  | case3 _ name rest hn hne => simp_all [reference, takeName, takeChar_of_ne]
  | case4 _ hne hnone =>
    cases hn : readName? text with
    | none => simp [reference, takeName, takeChar_of_ne hne, hn]
    | some found =>
      have hend : ∀ tail, found.2 = ';' :: tail → False := fun tail htail =>
        hnone found.1 tail (htail ▸ hn)
      simp [reference, takeName, takeChar_of_ne hne, hn, takeChar_of_ne hend]
      split <;> simp_all

theorem finds_rawAttribute : Finds ((rawAttribute : Routine m _).read text)
    ((Scan.readAttribute text).map fun found => ((found.1, found.2.1), found.2.2)) := by
  fun_cases Scan.readAttribute text with
  | case1 hn => simp [rawAttribute, takeName, hn, Except.map]
  | case2 name rest hn tail hs raw tail' hq =>
    simp [rawAttribute, takeName, hn, hs, readQuoted?_eq_some_iff_readLiteral.mp hq, Except.map]
  | case3 name rest hn tail hs hq =>
    simp [rawAttribute, takeName, hn, hs, readQuoted?_eq_none_iff.mp hq, Except.map]
  | case4 name rest hn hne => simp [rawAttribute, takeName, hn, takeChar_of_ne hne, Except.map]

variable {text}

def behindTag? : Scan.TagEnd → Option (List Char)
  | .opened rest | .closed rest => some rest
  | .unfinished | .broken _ _ => none

theorem after?_closing {c : Char} {rest : List Char}
    (h : ∀ more, c = '/' → rest = '>' :: more → False) : after? "/>".toList (c :: rest) = none := by
  refine Option.eq_none_iff_forall_ne_some.mpr fun tail ha => ?_
  obtain ⟨rfl, rfl⟩ := List.cons.inj (after?_eq ha)
  exact h tail rfl rfl

theorem read_attributes {rounds : Nat} (hr : text.length < rounds) :
    ∃ tail, (attributes rounds : Routine m _).read text = pure (Scan.readAttributes text, tail) ∧
      ∀ rest, behindTag? (Scan.readAttributes text).2 = some rest → tail = rest := by
  obtain ⟨rounds, rfl⟩ := Nat.exists_eq_add_one_of_ne_zero (Nat.ne_zero_of_lt hr)
  fun_induction Scan.readAttributes text generalizing rounds with
  | case1 text hs => exact ⟨[], by simp [attributes, hs], by simp [behindTag?]⟩
  | case2 text rest hs => exact ⟨rest, by simp [attributes, hs], by simp [behindTag?]⟩
  | case3 text rest hs =>
    exact ⟨rest, by simp [attributes, hs, after?, takeChar_of_ne], by simp [behindTag?]⟩
  | case4 text c rest hopened hclosed hs hname problem hattribute =>
    obtain ⟨tail, hread⟩ :=
      (finds_rawAttribute (m := m) _).eq_error (congrArg (Except.map _) hattribute)
    refine ⟨tail, ?_, by simp [behindTag?]⟩
    simp [attributes, takeChar, hs, beq_false_of_ne hopened, after?_closing hclosed, hname, hread,
      -Bool.and_eq_true, -String.reduceToList]
  | case5 text c rest hopened hclosed hs hname name raw tail hattribute hlt _ _ more tagEnd hmore
      ih =>
    have hread := (finds_rawAttribute (m := m) _).eq_ok (congrArg (Except.map _) hattribute)
    obtain ⟨rounds, rfl⟩ := Nat.exists_eq_add_one_of_ne_zero (by omega : rounds ≠ 0)
    obtain ⟨last, hlast, hend⟩ := ih rounds (by omega)
    rw [hmore] at hlast hend
    refine ⟨last, ?_, hend⟩
    rw [attributes]
    simp [takeChar, hs, beq_false_of_ne hopened, after?_closing hclosed, hname, hread, hlast,
      -Bool.and_eq_true, -String.reduceToList]
  | case6 text c rest hopened hclosed hs hname =>
    refine ⟨c :: rest, ?_, by simp [behindTag?]⟩
    simp [attributes, takeChar, hs, beq_false_of_ne hopened, after?_closing hclosed, hname,
      -Bool.and_eq_true, -String.reduceToList]

theorem readPseudoAttribute?_eq (text : List Char) :
    Scan.readPseudoAttribute? text = (Scan.readAttribute text).toOption.map fun found =>
      (found.1, String.ofList found.2.1, found.2.2) := by
  fun_cases Scan.readAttribute text <;> simp_all [Scan.readPseudoAttribute?, Except.toOption]

theorem read_rawAttribute (text : List Char) : ∃ problem tail,
    (rawAttribute : Routine m _).read text = pure ((Scan.readPseudoAttribute? text).elim
      (.error problem, tail) fun found => (.ok (found.1, found.2.1.toList), found.2.2)) := by
  rw [readPseudoAttribute?_eq]
  cases ha : Scan.readAttribute text with
  | error problem =>
    obtain ⟨tail, hread⟩ :=
      (finds_rawAttribute (m := m) text).eq_error (congrArg (Except.map _) ha)
    exact ⟨problem, tail, by simp [hread, Except.toOption]⟩
  | ok found =>
    have hread := (finds_rawAttribute (m := m) text).eq_ok (congrArg (Except.map _) ha)
    exact ⟨.badAttribute, text, by simp [hread, Except.toOption]⟩

theorem read_pseudoAttributes {rounds : Nat} (hr : text.length < rounds) (d : Scan.XmlDeclaration) :
    ∃ tail, (pseudoAttributes rounds d : Routine m _).read text =
      pure (Scan.readPseudoAttributes? d text, tail) := by
  obtain ⟨rounds, rfl⟩ := Nat.exists_eq_add_one_of_ne_zero (Nat.ne_zero_of_lt hr)
  fun_induction Scan.readPseudoAttributes? d text generalizing rounds with
  | case1 d text hs => exact ⟨[], by simp [pseudoAttributes, hs]⟩
  | case2 d text c rest hs hnone =>
    obtain ⟨problem, tail, hread⟩ := read_rawAttribute (m := m) (c :: rest)
    exact ⟨tail, by simp [pseudoAttributes, hs, hread, hnone]⟩
  | case3 d text c rest hs key value tail hsome hset =>
    obtain ⟨_, _, hread⟩ := read_rawAttribute (m := m) (c :: rest)
    exact ⟨tail, by simp [pseudoAttributes, hs, hread, hsome, hset]⟩
  | case4 d text c rest hs key value tail hsome e hset hlt hle _ ih =>
    have hlength := congrArg length hs
    obtain ⟨_, _, hread⟩ := read_rawAttribute (m := m) (c :: rest)
    obtain ⟨rounds, rfl⟩ := Nat.exists_eq_add_one_of_ne_zero (by omega : rounds ≠ 0)
    obtain ⟨last, hlast⟩ := ih rounds (by omega)
    refine ⟨last, ?_⟩
    rw [pseudoAttributes]
    simp [hs, hread, hsome, hset, hlast]

end Xml.Bounds
