import Xml.Proofs.Bounds.Markup
import Xml.Proofs.Scan.Calls
import Xml.Scan.Document

/-!
# Checked scanning

The scan of a document as a routine. Its effects are those of the scan itself; only where the text
is looked at does it ask. A part that has effects and stays at its place does what the scan does
there (`Does`); a part that moves leaves the rest that the scan leaves (`Leaves`).
-/

namespace Xml.Bounds

open Text Routine List
open Scan (Env State ScanM RawAttribute maxEntityDepth report fail failAt placeOf tell)

variable {α β : Type} (env : Env) (depth : Nat)

/-! ## Effects -/

/-- A routine has an effect and stays where it is. -/
def Does (r : Routine ScanM α) (effect : ScanM α) : Prop :=
  ∀ rest, r.read rest = (fun a => (a, rest)) <$> OptionT.lift effect

theorem does_pure (a : α) : Does (pure a) (pure a) := fun rest => by simp

theorem does_perform (effect : ScanM α) : Does (perform effect) effect := fun rest => by simp

theorem Does.bind {r : Routine ScanM α} {effect : ScanM α} {f : α → Routine ScanM β}
    {g : α → ScanM β} (h : Does r effect) (hf : ∀ a, Does (f a) (g a)) :
    Does (r >>= f) (effect >>= g) := by
  intro rest
  rw [read_bind, h rest, OptionT.lift_bind, map_bind, bind_map_left]
  exact bind_congr fun a => hf a rest

theorem Does.next {effect : ScanM α} {f : α → Routine ScanM β} {g : α → ScanM β}
    (hf : ∀ a, Does (f a) (g a)) : Does (perform effect >>= f) (effect >>= g) :=
  (does_perform effect).bind hf

theorem Does.given {result : Checked α} {a : α} (h : result = some a) {f : α → Routine ScanM β}
    {effect : ScanM β} (hf : Does (f a) effect) : Does (given result >>= f) effect := by
  intro rest
  rw [h, read_bind, read_given_some, pure_bind]
  exact hf rest

theorem Does.when {c : Prop} [Decidable c] {effect : ScanM Unit} {f : Unit → Routine ScanM α}
    {g : Unit → ScanM α} (hf : ∀ u, Does (f u) (g u)) :
    Does (if c then perform effect >>= f else f ()) (if c then effect >>= g else g ()) := by
  split
  · exact .next hf
  · exact hf ()

theorem does_inText {text : List Char} {r : Routine ScanM α} {effect : ScanM α}
    (h : Prod.fst <$> r.read text = OptionT.lift effect) : Does (inText text r) effect := by
  intro rest
  rw [read_inText, ← h, Functor.map_map]

/-! ## Values of attributes -/

/-- Adds characters, with white space normalized. -/
def pushNormalized (out : String) (text : List Char) : String :=
  text.foldl (fun out c => out.push (normalizeBlank c)) out

/-- Whether a text is a name from its beginning to its end. -/
def wholeName (text : List Char) : Checked Bool :=
  alone (do
    match ← query .name with
    | some _ => query .atEnd
    | none => return false) (String.ofList text)

@[simp] theorem wholeName_eq (text : List Char) : wholeName text = some (isName text) := by
  refine alone_of_read ?_
  fun_cases isName text <;> simp_all [takeName]

/-- After an effect only the results that it can have matter. -/
theorem lift_bind_congr {effect : ScanM α} {f g : α → OptionT ScanM β}
    (h : ∀ a s s', effect s = .ok a s' → f a = g a) :
    OptionT.lift effect >>= f = OptionT.lift effect >>= g := by
  refine OptionT.ext (funext fun s => ?_)
  rw [OptionT.run_bind_lift, OptionT.run_bind_lift]
  show EStateM.bind effect _ s = EStateM.bind effect _ s
  simp only [EStateM.bind]
  cases he : effect s with
  | error e s' => rfl
  | ok a s' => simp only [h a s s' he]

theorem lift_map (f : α → β) (effect : ScanM α) :
    OptionT.lift (f <$> effect) = f <$> OptionT.lift effect := by
  simp only [map_eq_pure_bind, OptionT.lift_bind, OptionT.lift_pure]

/-- What a `&` in a value adds, from behind it. -/
def valueReference (place : List Char) (expand : String → String → String → Routine ScanM String)
    (out : String) : Routine ScanM String := do
  match ← lookAhead (query (.upTo ";")) with
  | none => perform (do report env .badEntityRef place; return out.push '&')
  | some body =>
    match after? ['#'] body with
    | some digits =>
      let _ ← query (.upTo ";")
      match charRef? digits with
      | some c => return out.push c
      | none => perform (do report env .badCharRef place; return out)
    | none =>
      match predefined? body with
      | some c =>
        let _ ← query (.upTo ";")
        return out.push c
      | none =>
        if ← given (wholeName body) then
          let _ ← query (.upTo ";")
          match (← perform get).entities.get? (String.ofList body) with
          | some (.internal value) => expand (String.ofList body) value out
          | some _ => perform (do
              report env (.externalEntityInAttribute (String.ofList body)) place; return out)
          | none => perform (do
              report env (.undefinedEntity (String.ofList body)) place; return out)
        else perform (do report env .badEntityRef place; return out.push '&')

def valueLoop (place : List Char) (expand : String → String → String → Routine ScanM String) :
    Nat → String → Routine ScanM String
  | 0, _ => given none
  | rounds + 1, out => do
    match ← query (.upTo "&") with
    | none => return pushNormalized out (← query .here)
    | some before =>
      valueLoop place expand rounds (← valueReference env place expand (pushNormalized out before))

/-- Puts the value of an entity in place of a reference, with some levels left. -/
def expandValue (place : List Char) : Nat → String → String → String → Routine ScanM String
  | 0, _, _, _ => perform (do fail env .entityLoop (← get).anchor)
  | levels + 1, name, value, out => do
    perform (Scan.enterEntity env name value.utf8ByteSize)
    let out ← inText value.toList
      (valueLoop env place (expandValue place levels) (value.length + 1) out)
    perform Scan.leaveEntity
    return out

section Values

variable {env} {place : List Char} {expand : String → String → String → Routine ScanM String}
  {expand' : String → String → String → ScanM String}

theorem read_valueReference
    (h : ∀ name value out, Does (expand name value out) (expand' name value out)) (out : String)
    (after : List Char) :
    (valueReference env place expand out).read after =
      (fun found => (found.2, found.1)) <$>
        OptionT.lift (Scan.valueStep env place expand' '&' after out) := by
  fun_cases Scan.valueStep env place expand' '&' after out with
  | case5 _ body rest hb hchar hpredefined hname =>
    simp_all +zetaDelta [valueReference, takeUpTo, OptionT.lift_bind]
    refine bind_congr fun s => ?_
    split <;> simp_all [fun name value => h name value out rest, lift_map]
  | _ => simp_all [valueReference, takeUpTo, lift_map]

theorem attributeText_before {before : List Char} (h : '&' ∉ before) (rest : List Char)
    (out : String) :
    Scan.attributeText env place depth (before ++ rest) out =
      Scan.attributeText env place depth rest (pushNormalized out before) := by
  induction before generalizing out with
  | nil => rfl
  | cons c before ih =>
    rw [cons_append, Scan.attributeText_char (ne_of_not_mem_cons h).symm,
      ih (not_mem_of_not_mem_cons h)]
    rfl

theorem read_valueLoop {depth : Nat}
    (h : ∀ name value out,
      Does (expand name value out) (Scan.expandValueAt env place depth name value out))
    {rounds : Nat} {text : List Char} (hr : text.length < rounds) (out : String) :
    Prod.fst <$> (valueLoop env place expand rounds out).read text =
      OptionT.lift (Scan.attributeText env place depth text out) := by
  have hand : "&".toList = ['&'] := rfl
  induction rounds generalizing text out with
  | zero => cases hr
  | succ rounds ih =>
    simp only [valueLoop, read_query_bind, Query.upTo_read, takeUpTo, hand]
    cases hb : breakOn ['&'] text with
    | none =>
      have hplain : '&' ∉ text := fun hmem =>
        (breakOn_eq_none_iff (by decide)).mp hb ((singleton_infix_iff _ _).mpr hmem)
      rw [← append_nil text, attributeText_before depth hplain, Scan.attributeText, append_nil,
        OptionT.lift_pure]
      simp
    | some found =>
      obtain ⟨before, inside⟩ := found
      obtain ⟨rfl, hbefore⟩ := breakOn_singleton_iff.mp hb
      rw [attributeText_before depth hbefore, Scan.attributeText_cons, OptionT.lift_bind]
      simp only [Option.elim_some, read_bind, read_valueReference h, bind_map_left, map_bind]
      -- Only for a rest that the step can leave is it known that it is shorter.
      refine lift_bind_congr fun found s s' hfound => ?_
      have hle := (Scan.valueStep_suffix hfound).length_le
      rw [length_append, length_cons] at hr
      exact ih (by omega) found.2

end Values

theorem does_expandValue (place : List Char) {levels depth : Nat}
    (hd : depth + levels = maxEntityDepth) (name value out : String) :
    Does (expandValue env place levels name value out)
      (Scan.expandValueAt env place depth name value out) := by
  induction levels generalizing depth name value out with
  | zero =>
    rw [Scan.expandValueAt, if_neg (by omega)]
    exact does_perform _
  | succ levels ih =>
    rw [Scan.expandValueAt, if_pos (by omega)]
    have hvalue (out : String) : Does
        (inText value.toList
          (valueLoop env place (expandValue env place levels) (value.length + 1) out))
        (Scan.attributeText env place (depth + 1) value.toList out) := by
      refine does_inText (read_valueLoop (fun _ _ out => ih (by omega) _ _ out) ?_ out)
      rw [String.length_toList]
      exact Nat.lt_succ_self _
    exact Does.next fun _ => (hvalue out).bind fun _ =>
      Does.next fun _ => does_pure _

def attributeValue (raw : RawAttribute) : Routine ScanM String := do
  let place ← perform (placeOf depth raw.place)
  perform (Scan.checkChars env .attributeValue raw.raw place)
  if raw.raw.contains '<' then
    perform (report env .lessThanInAttribute place)
  if raw.raw.contains '&' || needsNormalization raw.raw then
    if depth = 0 then
      perform (modify fun s => { s with anchor := place })
    inText raw.raw
      (valueLoop env place (expandValue env place maxEntityDepth) (raw.raw.length + 1) "")
  else return String.ofList raw.raw

def attributeValues (tag : List Char) (kept : List Attribute) :
    List RawAttribute → Routine ScanM (List Attribute)
  | [] => return kept.reverse
  | raw :: rest => do
    let value ← attributeValue env depth raw
    if kept.any (·.name == raw.name) then
      perform (report env (.attributeRedefined raw.name) (← perform (placeOf depth tag)))
      attributeValues tag kept rest
    else attributeValues tag (⟨raw.name, value⟩ :: kept) rest

theorem does_attributeValue (raw : RawAttribute) :
    Does (attributeValue env depth raw) (Scan.attributeValue env depth raw) := by
  refine Does.next fun place => Does.next fun _ => ?_
  have hvalue : Does
      (inText raw.raw
        (valueLoop env place (expandValue env place maxEntityDepth) (raw.raw.length + 1) ""))
      (Scan.attributeText env place 0 raw.raw "") :=
    does_inText (read_valueLoop (does_expandValue env place (Nat.zero_add _))
      (Nat.lt_succ_self _) "")
  refine Does.when fun _ => ?_
  split
  · exact Does.when fun _ => hvalue
  · exact does_pure _

theorem does_attributeValues (tag : List Char) (kept : List Attribute) (raws : List RawAttribute) :
    Does (attributeValues env depth tag kept raws)
      (Scan.attributeValues env depth tag kept raws) := by
  induction raws generalizing kept with
  | nil => exact does_pure _
  | cons raw raws ih =>
    refine (does_attributeValue env depth raw).bind fun value => ?_
    split
    · exact Does.next fun _ => Does.next fun _ => ih _
    · exact ih _

/-! ## Tags -/

/-- Reads the values of a start tag's attributes, where the tag may stand. -/
def openTag (rest : List Char) (raws : List RawAttribute) : Routine ScanM (List Attribute) := do
  let s ← perform get
  if s.opened.isEmpty && s.seenRoot then
    perform (fail env .contentAfterRoot (s.place depth rest))
  attributeValues env depth rest [] raws

def takeStartTag (rest : List Char) (name : String) (raws : List RawAttribute) (isEmpty : Bool) :
    Routine ScanM Unit := do
  let attributes ← openTag env depth rest raws
  perform (modify fun s => { s with seenRoot := true })
  perform (tell (.startElement name attributes))
  if isEmpty then
    perform (tell (.endElement name))
  else
    perform (modify fun s => { s with opened := name :: s.opened })

/-- A start tag, from behind its `<`. -/
def startTag (rest : List Char) : Routine ScanM Unit := do
  match ← query .name with
  | none => perform (failAt env depth .badElementName rest)
  | some name =>
    let name := String.ofList name
    match ← attributes ((← query .here).length + 1) with
    | (raws, .opened _) => takeStartTag env depth rest name raws false
    | (raws, .closed _) => takeStartTag env depth rest name raws true
    | (raws, .unfinished) =>
      let _ ← openTag env depth rest raws
      perform (failAt env depth (.unfinishedStartTag name) rest)
    | (raws, .broken problem place) =>
      let _ ← openTag env depth rest raws
      perform (failAt env depth problem place)

/-- A routine has an effect and leaves a rest of the text. -/
def Leaves (r : Routine ScanM Unit) (text : List Char) (effect : ScanM (List Char)) : Prop :=
  r.read text = (fun tail => ((), tail)) <$> OptionT.lift effect

theorem Does.leaves {r : Routine ScanM Unit} {effect : ScanM Unit} (h : Does r effect)
    (tail : List Char) : Leaves r tail (Scan.returning tail effect) := by
  rw [Leaves, h tail, Scan.returning, OptionT.lift_bind, map_bind]
  simp [OptionT.lift_pure]

theorem map_lift_failAt {problem : Problem} {rest : List Char} (f : α → β) :
    f <$> OptionT.lift (failAt env depth problem rest : ScanM α) =
      OptionT.lift (failAt env depth problem rest) := rfl

theorem map_lift_fail {problem : Problem} {place : List Char} (f : α → β) :
    f <$> OptionT.lift (fail env problem place : ScanM α) =
      OptionT.lift (fail env problem place) := rfl

/-- After a fatal problem there is no rest. -/
theorem Does.leaves_failAt {r : Routine ScanM α} {before : ScanM α} (h : Does r before)
    (problem : Problem) (rest text : List Char) :
    Leaves (r >>= fun _ => perform (failAt env depth problem rest)) text
      (before >>= fun _ => failAt env depth problem rest) := by
  simp only [Leaves, read_bind, h text, read_perform, bind_map_left, map_lift_failAt,
    OptionT.lift_bind, map_bind]

theorem does_openTag (rest : List Char) (raws : List RawAttribute) :
    Does (openTag env depth rest raws) (Scan.openTag env depth rest raws) :=
  Does.next fun _ =>
    Does.when fun _ => does_attributeValues env depth rest [] raws

theorem does_takeStartTag (rest : List Char) (name : String) (raws : List RawAttribute)
    (isEmpty : Bool) :
    Does (takeStartTag env depth rest name raws isEmpty)
      (Scan.takeStartTag env depth rest name raws isEmpty) := by
  refine (does_openTag env depth rest raws).bind fun _ => Does.next fun _ =>
    Does.next fun _ => ?_
  split
  · exact does_perform _
  · exact does_perform _

theorem leaves_startTag (rest after : List Char) :
    Leaves (startTag env depth rest) after (Scan.startTag env depth rest after) := by
  simp only [Leaves, startTag, Scan.startTag, read_query_bind, Query.name_read, takeName]
  cases readName? after with
  | none => simp [map_lift_failAt]
  | some found =>
    obtain ⟨tail, hread, htail⟩ := read_attributes (m := ScanM) (Nat.lt_succ_self found.2.length)
    simp only [Option.elim_some, read_bind, read_query, Query.here_read, pure_bind, hread]
    cases hattributes : Scan.readAttributes found.2 with
    | mk raws tagEnd =>
      rw [hattributes] at htail
      cases tagEnd with
      | opened rest' =>
        obtain rfl := htail rest' rfl
        exact (does_takeStartTag env depth rest _ raws false).leaves tail
      | closed rest' =>
        obtain rfl := htail rest' rfl
        exact (does_takeStartTag env depth rest _ raws true).leaves tail
      | unfinished => exact (does_openTag env depth rest raws).leaves_failAt ..
      | broken problem place => exact (does_openTag env depth rest raws).leaves_failAt ..

/-! ## References -/

variable (expand : String → String → Routine ScanM Unit)

def loadEntity (name systemId : String) : Routine ScanM String :=
  if env.options.loadExternal then do
    match ← given (readExternal env systemId) with
    | .ok text => return String.ofList (← given (stripTextDeclaration text))
    | .error reason =>
      perform (tell (.warning (.entityUnreadable systemId reason)))
      return ""
  else do
    perform (tell (.warning (.entityNotLoaded name)))
    return ""

/-- Puts replacement text in place of a reference, or tells the reference as it is. -/
def useEntity (name replacement : String) (rest : List Char) : Routine ScanM Unit :=
  if env.options.substituteEntities then do
    if depth = 0 then
      perform (modify fun s => { s with anchor := rest })
    expand name replacement
  else do
    perform Scan.flush
    let text ← given (decodePredefined replacement.toList)
    perform (tell (.entityReference name (some (String.ofList text))))

def takeEntity (name : String) (rest : List Char) : Routine ScanM Unit := do
  let s ← perform get
  let place := s.place depth rest
  match s.entities.get? name with
  | none =>
    perform (report env (.undefinedEntity name) place)
    perform Scan.flush
    perform (tell (.entityReference name none))
  | some .unparsed => perform (report env (.unparsedEntity name) place)
  | some (.internal text) => useEntity env depth expand name text rest
  | some (.external _ systemId) =>
    useEntity env depth expand name (← loadEntity env name systemId) rest

def takeReference (rest : List Char) (reference : Scan.Reference) : Routine ScanM Unit := do
  let place ← perform (placeOf depth rest)
  perform (Scan.requireOpen env place)
  match reference with
  | .char (some c) => perform (Scan.addChar c)
  | .char none => perform (report env .badCharRef place)
  | .plain =>
    perform (report env .badEntityRef place)
    perform (Scan.addChar '&')
  | .entity name =>
    match predefined? name with
    | some c => perform (Scan.addChar c)
    | none => takeEntity env depth expand (String.ofList name) rest

theorem does_loadEntity (name systemId : String) :
    Does (loadEntity env name systemId) (Scan.loadEntity env name systemId) := by
  rw [loadEntity, Scan.loadEntity]
  split
  · refine .given (readExternal_eq env systemId) ?_
    cases env.readExternal systemId with
    | ok text => exact Does.given (stripTextDeclaration_eq text) (does_pure _)
    | error reason => exact Does.next fun _ => does_pure _
  · exact Does.next fun _ => does_pure _

section References

variable {expand} {expand' : String → String → ScanM Unit}
  (h : ∀ name text, Does (expand name text) (expand' name text))
include h

theorem does_useEntity (name replacement : String) (rest : List Char) :
    Does (useEntity env depth expand name replacement rest)
      (Scan.useEntity env depth expand' name replacement rest) := by
  rw [useEntity, Scan.useEntity]
  split
  · exact Does.when fun _ => h name replacement
  · exact Does.next fun _ =>
      Does.given (decodePredefined_eq replacement.toList) (does_perform _)

theorem does_takeEntity (name : String) (rest : List Char) :
    Does (takeEntity env depth expand name rest) (Scan.takeEntity env depth expand' name rest) := by
  refine Does.next fun s => ?_
  dsimp only
  cases s.entities.get? name with
  | none => exact Does.next fun _ => Does.next fun _ => does_perform _
  | some value =>
    cases value with
    | unparsed => exact does_perform _
    | internal text => exact does_useEntity env depth h name text rest
    | external _ systemId =>
      exact (does_loadEntity env name systemId).bind fun text =>
        does_useEntity env depth h name text rest

theorem does_takeReference (rest : List Char) (reference : Scan.Reference) :
    Does (takeReference env depth expand rest reference)
      (Scan.takeReference env depth expand' rest reference) := by
  refine Does.next fun place => Does.next fun _ => ?_
  cases reference with
  | char c =>
    cases c with
    | none => exact does_perform _
    | some c => exact does_perform _
  | plain => exact Does.next fun _ => does_perform _
  | entity name =>
    dsimp only
    cases predefined? name with
    | some c => exact does_perform _
    | none => exact does_takeEntity env depth h (String.ofList name) rest

end References

/-! ## Document types -/

/-- Declares the entities of a subset and tells what is wrong with it. -/
def declareAll (subset : List Char) (event : DeclarationProblem → Event) : Routine ScanM Unit := do
  let s ← perform get
  let (table, problems) ← given (readDeclarations (String.ofList subset) s.entities)
  perform (set { s with entities := table })
  perform (problems.forM fun problem => tell (event problem))

/-- Reads the external subset, if files may be read. -/
def loadSubset (systemId : String) : Routine ScanM Unit :=
  if env.options.loadExternal then do
    match ← given (readExternal env systemId) with
    | .ok text =>
      declareAll (← given (stripTextDeclaration text)) fun problem =>
        .warning (.declaration problem)
    | .error reason => perform (tell (.warning (.subsetUnreadable systemId reason)))
  else perform (tell (.warning (.subsetNotLoaded systemId)))

def takeDoctype (rest : List Char) (doctype : Doctype) : Routine ScanM Unit := do
  perform (Scan.requireProlog env depth rest)
  let place ← perform (placeOf depth rest)
  perform (modify fun s => { s with seenDoctype := true })
  match doctype.subset with
  | some subset =>
    declareAll subset.toList fun problem => .error (env.errorAt (.declaration problem) place)
  | none => pure ()
  match doctype.systemId with
  | some systemId => loadSubset env systemId
  | none => pure ()
  perform (tell (.doctype doctype))

theorem does_declareAll (subset : List Char) (event : DeclarationProblem → Event) :
    Does (declareAll subset event) (Scan.declareAll subset event) := by
  refine Does.next fun s => ?_
  refine .given (readDeclarations_eq _ _) ?_
  rw [String.toList_ofList]
  exact Does.next fun _ => does_perform _

theorem does_loadSubset (systemId : String) :
    Does (loadSubset env systemId) (Scan.loadSubset env systemId) := by
  rw [loadSubset, Scan.loadSubset]
  split
  · refine .given (readExternal_eq env systemId) ?_
    cases env.readExternal systemId with
    | ok text => exact Does.given (stripTextDeclaration_eq text) (does_declareAll _ _)
    | error reason => exact does_perform _
  · exact does_perform _

theorem does_takeDoctype (rest : List Char) (doctype : Doctype) :
    Does (takeDoctype env depth rest doctype) (Scan.takeDoctype env depth rest doctype) := by
  refine Does.next fun _ => Does.next fun place =>
    Does.next fun _ => ?_
  have hlast : Does (perform (tell (.doctype doctype))) (tell (.doctype doctype)) :=
    does_perform _
  cases doctype.subset with
  | none =>
    cases doctype.systemId with
    | none => exact hlast
    | some systemId => exact (does_loadSubset env systemId).bind fun _ => hlast
  | some subset =>
    refine (does_declareAll _ _).bind fun _ => ?_
    cases doctype.systemId with
    | none => exact hlast
    | some systemId => exact (does_loadSubset env systemId).bind fun _ => hlast

/-! ## Content -/

/-- Goes on behind a piece that could be read; otherwise the scan ends, after `check`. -/
def afterPiece (rest : List Char) (piece : Routine ScanM (Except Problem α))
    (check : ScanM Unit) (effect : α → Routine ScanM Unit) : Routine ScanM Unit := do
  match ← piece with
  | .ok found => effect found
  | .error problem =>
    perform check
    perform (failAt env depth problem rest)

def markup : Routine ScanM Unit := do
  let rest ← query .here
  if ← query (.starts "</") then
    afterPiece env depth rest endTag (pure ()) fun name =>
      perform (Scan.takeEndTag env depth rest name)
  else if ← query (.starts "<!--") then
    afterPiece env depth rest (piece "-->" .unfinishedComment) (pure ()) fun text =>
      perform (Scan.takeComment env depth rest text)
  else if ← query (.starts "<![CDATA[") then
    afterPiece env depth rest (piece "]]>" .unfinishedCData)
      (do Scan.requireOpen env (← placeOf depth rest)) fun text =>
        perform (Scan.takeCData env depth rest text)
  else if ← query (.starts "<!DOCTYPE") then
    afterPiece env depth rest doctype (Scan.requireProlog env depth rest)
      (takeDoctype env depth rest)
  else if ← query (.starts "<?") then
    afterPiece env depth rest instruction (pure ()) fun found =>
      perform (Scan.takeInstruction found.1 found.2)
  else
    let _ ← query (.passes '<')
    if ← query .seesName then startTag env depth rest
    else perform (failAt env depth .badElementName rest)

def step : Routine ScanM Unit := do
  let rest ← query .here
  if ← query (.sees '<') then
    perform Scan.flush
    markup env depth
  else if ← query (.passes '&') then takeReference env depth expand rest (← reference)
  else perform (Scan.takeText env depth rest (← query .text))

def content : Nat → Routine ScanM Unit
  | 0 => given none
  | rounds + 1 => do
    if ← query .atEnd then return ()
    else
      step env depth expand
      content rounds

/-- Scans the replacement text of an entity, with some levels left. -/
def expandEntity : Nat → String → String → Routine ScanM Unit
  | 0, _, _ => perform (do fail env .entityLoop (← get).anchor)
  | levels + 1, name, replacement => do
    perform (Scan.enterEntity env name replacement.utf8ByteSize)
    let s ← perform get
    perform (set { s with entityBase := s.opened.length })
    inText replacement.toList
      (content env (maxEntityDepth - levels) (expandEntity levels) (replacement.length + 1))
    let s' ← perform get
    if s'.opened.length != s'.entityBase then
      perform (fail env (.unbalancedEntity name) s'.anchor)
    perform (modify fun t => { t with entityBase := s.entityBase })
    perform Scan.leaveEntity

theorem leaves_afterPiece {piece : Routine ScanM (Except Problem α)} {inside : List Char}
    {found : Except Problem (α × List Char)} (h : Finds (piece.read inside) found)
    {effect : α → Routine ScanM Unit} {effect' : α → ScanM Unit}
    (he : ∀ a, Does (effect a) (effect' a)) (rest : List Char) (check : ScanM Unit) :
    Leaves (afterPiece env depth rest piece check effect) inside
      (Scan.afterPiece env depth rest found check effect') := by
  rw [Leaves, afterPiece, read_bind]
  generalize piece.read inside = read at h ⊢
  cases h with
  | ok a tail =>
    rw [pure_bind]
    exact (he a).leaves tail
  | error problem tail =>
    rw [pure_bind]
    exact (does_perform check).leaves_failAt ..

section Opened

variable {mark opened : String} {after inside : List Char}

theorem Leaves.ask {q : Query α} {f : α → Routine ScanM Unit} {a : α} {effect : ScanM (List Char)}
    (hq : q.read after = (a, inside)) (h : Leaves (f a) inside effect) :
    Leaves (query q >>= f) after effect := by
  rw [Leaves, read_query_bind, hq]
  exact h

theorem starts_mark (h : after? mark.toList after = some inside)
    (ho : opened.toList = '<' :: mark.toList := by simp) :
    (Query.starts opened).read ('<' :: after) = (true, inside) := by
  simp_all [after?]

theorem no_mark (h : after? mark.toList after = none)
    (ho : opened.toList = '<' :: mark.toList := by simp) :
    (Query.starts opened).read ('<' :: after) = (false, '<' :: after) := by
  simp_all [after?]

end Opened

theorem leaves_markup (after : List Char) :
    Leaves (markup env depth) ('<' :: after) (Scan.markup env depth after) := by
  refine .ask rfl ?_
  fun_cases Scan.markup env depth after with
  | case1 rest inside h =>
    have hpiece := leaves_afterPiece env depth (finds_endTag inside)
      (fun name => does_perform (Scan.takeEndTag env depth rest name)) rest (pure ())
    exact .ask (starts_mark h) hpiece
  | case2 rest hend inside h =>
    have hpiece := leaves_afterPiece env depth (finds_piece inside "-->" .unfinishedComment)
      (fun text => does_perform (Scan.takeComment env depth rest text)) rest (pure ())
    exact .ask (no_mark hend) (.ask (starts_mark h) hpiece)
  | case3 rest hend hcomment inside h =>
    have hpiece := leaves_afterPiece env depth (finds_piece inside "]]>" .unfinishedCData)
      (fun text => does_perform (Scan.takeCData env depth rest text)) rest
      (do Scan.requireOpen env (← placeOf depth rest))
    exact .ask (no_mark hend) (.ask (no_mark hcomment) (.ask (starts_mark h) hpiece))
  | case4 rest hend hcomment hcdata inside h =>
    have hpiece := leaves_afterPiece env depth (finds_doctype inside)
      (does_takeDoctype env depth rest) rest (Scan.requireProlog env depth rest)
    exact .ask (no_mark hend) (.ask (no_mark hcomment) (.ask (no_mark hcdata)
      (.ask (starts_mark h) hpiece)))
  | case5 rest hend hcomment hcdata hdoctype inside h =>
    have hpiece := leaves_afterPiece env depth (finds_instruction inside)
      (fun found => does_perform (Scan.takeInstruction found.1 found.2)) rest (pure ())
    exact .ask (no_mark hend) (.ask (no_mark hcomment) (.ask (no_mark hcdata)
      (.ask (no_mark hdoctype) (.ask (starts_mark h) hpiece))))
  | case6 rest hend hcomment hcdata hdoctype hinstruction hname =>
    have htag := leaves_startTag env depth rest after
    refine .ask (no_mark hend) (.ask (no_mark hcomment) (.ask (no_mark hcdata)
      (.ask (no_mark hdoctype) (.ask (no_mark hinstruction) ?_))))
    simpa [Leaves, hname] using htag
  | case7 rest hend hcomment hcdata hdoctype hinstruction hname =>
    refine .ask (no_mark hend) (.ask (no_mark hcomment) (.ask (no_mark hcdata)
      (.ask (no_mark hdoctype) (.ask (no_mark hinstruction) ?_))))
    simp [Leaves, hname, map_lift_failAt, rest]

variable {expand}

theorem leaves_step {expand' : String → String → ScanM Unit}
    (h : ∀ name text, Does (expand name text) (expand' name text)) (c : Char) (after : List Char) :
    Leaves (step env depth expand) (c :: after) (Scan.step env depth expand' c after) := by
  fun_cases Scan.step env depth expand' c after with
  | case1 hc =>
    have hmarkup := leaves_markup env depth after
    simp_all [Leaves, step, OptionT.lift_bind]
  | case2 hlt hand reference tail href =>
    have htake := (does_takeReference env depth h (c :: after) reference).leaves tail
    simp_all [Leaves, step, read_reference]
  | case3 hlt hand =>
    have htake := (does_perform (Scan.takeText env depth (c :: after)
      (c :: after.takeWhile isText))).leaves (after.dropWhile isText)
    have htext : isText c = true := by simp_all [isText]
    simp_all [Leaves, step, takeChar_of_ne]
    rfl

theorem lift_content_nil :
    OptionT.lift (m := ScanM) (Scan.content env depth []) = pure () :=
  congrArg (OptionT.lift (m := ScanM)) (funext (Scan.content_nil env depth))

theorem lift_content_cons (c : Char) (after : List Char) :
    OptionT.lift (m := ScanM) (Scan.content env depth (c :: after)) =
      (do
        let rest ← OptionT.lift (Scan.step env depth (Scan.expandAt env depth) c after)
        OptionT.lift (Scan.content env depth rest)) := by
  have hcons : Scan.content env depth (c :: after) =
      EStateM.bind (Scan.step env depth (Scan.expandAt env depth) c after)
        (Scan.content env depth) := by
    funext s
    rw [Scan.content_cons]
    simp only [EStateM.bind]
    cases Scan.step env depth (Scan.expandAt env depth) c after s <;> rfl
  exact (congrArg (OptionT.lift (m := ScanM)) hcons).trans (OptionT.lift_bind _ _)

variable {env depth} in
theorem read_content
    (h : ∀ name text, Does (expand name text) (Scan.expandAt env depth name text)) {rounds : Nat}
    {text : List Char} (hr : text.length < rounds) :
    (content env depth expand rounds).read text =
      (fun _ => ((), [])) <$> OptionT.lift (Scan.content env depth text : ScanM Unit) := by
  induction rounds generalizing text with
  | zero => cases hr
  | succ rounds ih =>
    simp only [content, read_query_bind, Query.atEnd_read]
    cases text with
    | nil =>
      rw [lift_content_nil]
      simp
    | cons c after =>
      have hstep := leaves_step env depth h c after
      rw [Leaves] at hstep
      rw [lift_content_cons, map_bind]
      simp only [isEmpty_cons, Bool.false_eq_true, if_false, read_bind, hstep, bind_map_left]
      refine lift_bind_congr fun rest s s' hrest => ih ?_
      have hle := (Scan.step_suffix hrest).length_le
      rw [length_cons] at hr
      omega

theorem does_expandEntity {levels depth : Nat} (hd : depth + levels = maxEntityDepth)
    (name replacement : String) :
    Does (expandEntity env levels name replacement) (Scan.expandAt env depth name replacement) := by
  induction levels generalizing depth name replacement with
  | zero =>
    rw [Scan.expandAt, if_neg (by omega)]
    exact does_perform _
  | succ levels ih =>
    rw [Scan.expandAt, if_pos (by omega)]
    have hdepth : maxEntityDepth - levels = depth + 1 := by omega
    have hcontent : Does (inText replacement.toList (content env (maxEntityDepth - levels)
        (expandEntity env levels) (replacement.length + 1)))
        (Scan.content env (depth + 1) replacement.toList) := by
      refine does_inText ?_
      have hrounds : replacement.toList.length < replacement.length + 1 :=
        String.length_toList ▸ Nat.lt_succ_self _
      rw [hdepth, read_content (fun name text => ih (by omega) name text) hrounds]
      simp
    exact Does.next fun _ => Does.next fun _ => Does.next fun _ =>
      hcontent.bind fun _ => Does.next fun _ =>
        Does.when fun _ => Does.next fun _ => does_perform _

/-! ## Documents -/

def takeXmlDeclaration : Routine ScanM Unit := do
  match ← query (.upTo "?>") with
  | none => perform (fail env .badXmlDeclaration env.text)
  | some front =>
    let body ← given (sliceFrom (String.ofList front) 5)
    match ← inText body.toList (pseudoAttributes (front.length + 1) {}) with
    | none => perform (fail env .badXmlDeclaration env.text)
    | some d =>
      match d.version with
      | none => perform (fail env .versionMissing env.text)
      | some version =>
        let standalone ← perform (Scan.standaloneValue d.standalone)
        perform (tell (.xmlDeclaration version d.encoding standalone))

def documentContent : Routine ScanM Unit := do
  content env 0 (expandEntity env maxEntityDepth) ((← query .here).length + 1)
  perform Scan.flush
  perform (Scan.checkEnd env)

def document : Routine ScanM Unit := do
  if ← lookAhead (do if ← query (.starts "<?xml") then query .blanks else return false) then
    takeXmlDeclaration env
    documentContent env
  else documentContent env

def scanText (text : String) (options : ParseOptions) (files : Files) : Checked Scan.Outcome :=
  match (document ⟨text.toList, options, files⟩).run ⟨text, 0⟩ { events := #[.startDocument] } with
  | .ok none _ => none
  | .ok (some _) s => some ⟨(s.events.push .endDocument).toList, none⟩
  | .error e s => some ⟨(s.events.push (.error e)).toList, some e⟩

theorem leaves_takeXmlDeclaration (inside : List Char) :
    Leaves (takeXmlDeclaration env) ("<?xml".toList ++ inside)
      (Scan.takeXmlDeclaration env inside) := by
  simp only [Leaves, takeXmlDeclaration, Scan.takeXmlDeclaration, Scan.readXmlDeclaration,
    read_query_bind, Query.upTo_read, takeUpTo, breakOn_opening]
  cases breakOn "?>".toList inside with
  | none => simp [map_lift_fail]
  | some found =>
    have hslice : sliceFrom (String.ofList ("<?xml".toList ++ found.1)) 5 =
        some (String.ofList found.1) := by
      have hsuffix : found.1 <:+ (String.ofList ("<?xml".toList ++ found.1)).toList := by
        rw [String.toList_ofList]
        exact suffix_append _ _
      have hcut := sliceFrom_offset hsuffix
      rwa [offset, utf8ByteSize_ofList, byteSize_append, Nat.add_sub_cancel] at hcut
    have hrounds : found.1.length < ("<?xml".toList ++ found.1).length + 1 := by
      rw [length_append]
      omega
    obtain ⟨tail, htail⟩ := read_pseudoAttributes (m := ScanM) hrounds {}
    simp only [Option.map_some, Option.elim_some, hslice, read_bind, read_given_some, pure_bind,
      String.toList_ofList, read_inText, htail, map_pure]
    cases Scan.readPseudoAttributes? {} found.1 with
    | none => simp [map_lift_fail]
    | some d =>
      dsimp only
      cases d.version with
      | none => simp [map_lift_fail]
      | some version => simp [OptionT.lift_bind, lift_map]

theorem read_documentContent (rest : List Char) :
    (documentContent env).read rest = (fun _ => ((), [])) <$> OptionT.lift (do
      Scan.content env 0 rest
      Scan.flush
      Scan.checkEnd env) := by
  have hcontent := read_content (does_expandEntity env (Nat.zero_add maxEntityDepth))
    (Nat.lt_succ_self rest.length)
  obtain ⟨effect, heffect⟩ : ∃ effect : ScanM Unit, effect = Scan.content env 0 rest := ⟨_, rfl⟩
  rw [← heffect] at hcontent ⊢
  simp only [documentContent, read_bind, read_query, Query.here_read, pure_bind, hcontent,
    bind_map_left, read_perform, OptionT.lift_bind, map_bind]

theorem read_document :
    (document env).read env.text = (fun _ => ((), [])) <$> OptionT.lift (Scan.document env) := by
  fun_cases Scan.xmlDeclaration? env.text with
  | case1 inside ha hs =>
    have hopen := leaves_takeXmlDeclaration env inside
    rw [Leaves, ← after?_eq ha] at hopen
    have hdocument : Scan.document env = (do
        let rest ← Scan.takeXmlDeclaration env inside
        Scan.content env 0 rest
        Scan.flush
        Scan.checkEnd env) := by
      simp_all [Scan.document, Scan.xmlDeclaration?]
    rw [hdocument, OptionT.lift_bind, map_bind]
    simp_all [document, read_documentContent]
  | case2 inside ha hs =>
    simp_all [document, Scan.document, Scan.xmlDeclaration?, read_documentContent]
  | case3 ha => simp_all [document, Scan.document, Scan.xmlDeclaration?, read_documentContent]

theorem map_lift_apply (f : α → β) (effect : ScanM α) (s : State) :
    (f <$> OptionT.lift effect : OptionT ScanM β) s =
      EStateM.map (fun a => some (f a)) effect s := by
  show (f <$> OptionT.lift effect : OptionT ScanM β).run s = ((fun a => some (f a)) <$> effect) s
  rw [OptionT.run_map, OptionT.run_lift]
  simp

theorem scanText_eq (text : String) (options : ParseOptions) (files : Files) :
    scanText text options files = some (Xml.scanText text.toList options files) := by
  rw [scanText, ← cursorAt_toList, run_cursorAt _ suffix_rfl, read_document, Functor.map_map,
    map_lift_apply, Xml.scanText, Scan.run, EStateM.map]
  cases Scan.document ⟨text.toList, options, files⟩ { events := #[.startDocument] } <;> rfl

end Xml.Bounds
