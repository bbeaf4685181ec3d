import Xml.Scan.Attribute
import Xml.Scan.Markup

/-!
# Content

A scan takes one piece of content after the other: a stretch of text, a reference, or a piece of
markup. Each piece is read without state first; then its effect on the state follows.

The replacement text of an entity is scanned in place of a reference to it. What a step does at
such a reference is a parameter, `expand`, which the loop `content` closes with itself one level
deeper.

## Termination

Every step leaves a suffix of what follows its first character (`step_suffix`), so the text gets
shorter; a level deeper fewer levels are left.
-/

namespace Xml.Scan

open Text

/-- Has an effect and goes on with `rest`. -/
def returning (rest : List Char) (effect : ScanM Unit) : ScanM (List Char) := do
  effect
  return rest

variable {depth : Nat} {env : Env} {rest : List Char} {s' s : State}

theorem returning_ok {r : List Char} {effect : ScanM Unit}
    (h : returning rest effect s = .ok r s') : r = rest := by
  simp only [returning, bind, EStateM.bind] at h
  split at h
  · cases h; rfl
  · cases h

theorem failAt_ne_ok {α : Type} {problem : Problem} {a : α} :
    failAt env depth problem rest s ≠ .ok a s' := by
  intro h
  cases h

/-- Whatever comes before a fatal problem, the whole does not succeed. -/
theorem bind_failAt_ne_ok {α β : Type} {problem : Problem} {before : ScanM α} {b : β} :
    (before >>= fun _ => failAt env depth problem rest) s ≠ .ok b s' := by
  intro h
  simp only [bind, EStateM.bind] at h
  split at h
  · exact absurd h failAt_ne_ok
  · cases h

def requireOpen (env : Env) (place : List Char) : ScanM Unit := do
  let s ← get
  if s.opened.isEmpty then
    fail env s.outsideRoot place

/-- Takes in a stretch of text. Outside the root element only white space may stand. -/
def takeText (env : Env) (depth : Nat) (rest text : List Char) : ScanM Unit := do
  let s ← get
  let place := s.place depth rest
  if s.opened.isEmpty then
    unless allBlank text do
      fail env s.outsideRoot place
  else
    checkChars env .content text place
    if contains "]]>".toList text then
      report env .cdataEndInContent place
    addText (String.ofList text)

/-- The replacement text of an external entity; empty when it is not loaded. -/
def loadEntity (env : Env) (name systemId : String) : ScanM String :=
  if env.options.loadExternal then
    match env.readExternal systemId with
    | .ok text => pure (String.ofList (stripTextDeclaration text))
    | .error reason => do
      tell (.warning (.entityUnreadable systemId reason))
      return ""
  else do
    tell (.warning (.entityNotLoaded name))
    return ""

/-- Puts replacement text in place of a reference, or tells the reference as it is. -/
def useEntity (env : Env) (depth : Nat) (expand : String → String → ScanM Unit)
    (name replacement : String) (rest : List Char) : ScanM Unit :=
  if env.options.substituteEntities then do
    if depth = 0 then
      modify fun s => { s with anchor := rest }
    expand name replacement
  else do
    flush
    tell (.entityReference name (some (String.ofList (decodePredefined replacement.toList))))

def takeEntity (env : Env) (depth : Nat) (expand : String → String → ScanM Unit)
    (name : String) (rest : List Char) : ScanM Unit := do
  let s ← get
  let place := s.place depth rest
  match s.entities.get? name with
  | none =>
    report env (.undefinedEntity name) place
    flush
    tell (.entityReference name none)
  | some .unparsed => report env (.unparsedEntity name) place
  | some (.internal text) => useEntity env depth expand name text rest
  | some (.external _ systemId) =>
    useEntity env depth expand name (← loadEntity env name systemId) rest

def takeReference (env : Env) (depth : Nat) (expand : String → String → ScanM Unit)
    (rest : List Char) (reference : Reference) : ScanM Unit := do
  let place ← placeOf depth rest
  requireOpen env place
  match reference with
  | .char (some c) => addChar c
  | .char none => report env .badCharRef place
  | .plain =>
    report env .badEntityRef place
    addChar '&'
  | .entity name =>
    match predefined? name with
    | some c => addChar c
    | none => takeEntity env depth expand (String.ofList name) rest

/-- Takes in an end tag. Inside an entity only elements begun there can be ended. -/
def takeEndTag (env : Env) (depth : Nat) (rest : List Char) (name : String) : ScanM Unit := do
  let s ← get
  let place := s.place depth rest
  let base := if depth = 0 then 0 else s.entityBase
  match s.opened with
  | [] => fail env (.unexpectedEndTag name) place
  | top :: others =>
    if s.opened.length ≤ base then
      fail env (.unexpectedEndTag name) place
    if top != name then
      fail env (.tagMismatch top name) place
    set { s with opened := others }
    tell (.endElement name)

def takeComment (env : Env) (depth : Nat) (rest text : List Char) : ScanM Unit := do
  let place ← placeOf depth rest
  checkChars env .comment text place
  if contains "--".toList text || text.getLast? == some '-' then
    report env .doubleHyphen place
  tell (.comment (String.ofList text))

def takeCData (env : Env) (depth : Nat) (rest text : List Char) : ScanM Unit := do
  let place ← placeOf depth rest
  requireOpen env place
  checkChars env .cdata text place
  tell .startCData
  unless text.isEmpty do
    tell (.characters (String.ofList text))
  tell .endCData

def takeInstruction (target : String) (data : List Char) : ScanM Unit :=
  tell (.instruction target (if data.isEmpty then none else some (String.ofList data)))

/-- Ends the scan where a document type declaration cannot stand. -/
def requireProlog (env : Env) (depth : Nat) (rest : List Char) : ScanM Unit := do
  let s ← get
  if depth != 0 || s.seenRoot || s.seenDoctype then
    fail env .misplacedDoctype (s.place depth rest)

/-- Declares the entities of a subset and tells what is wrong with it. -/
def declareAll (subset : List Char) (event : DeclarationProblem → Event) : ScanM Unit := do
  let s ← get
  let (table, problems) := readDeclarations subset s.entities
  set { s with entities := table }
  problems.forM fun problem => tell (event problem)

/-- Reads the external subset, if files may be read. -/
def loadSubset (env : Env) (systemId : String) : ScanM Unit :=
  if env.options.loadExternal then
    match env.readExternal systemId with
    | .ok text =>
      declareAll (stripTextDeclaration text) fun problem => .warning (.declaration problem)
    | .error reason => tell (.warning (.subsetUnreadable systemId reason))
  else tell (.warning (.subsetNotLoaded systemId))

def takeDoctype (env : Env) (depth : Nat) (rest : List Char) (doctype : Doctype) : ScanM Unit := do
  requireProlog env depth rest
  let place ← placeOf depth rest
  modify fun s => { s with seenDoctype := true }
  match doctype.subset with
  | some subset =>
    declareAll subset.toList fun problem => .error (env.errorAt (.declaration problem) place)
  | none => pure ()
  match doctype.systemId with
  | some systemId => loadSubset env systemId
  | none => pure ()
  tell (.doctype doctype)

/-- Reads the values of a start tag's attributes, where the tag may stand. -/
def openTag (env : Env) (depth : Nat) (rest : List Char) (raws : List RawAttribute) :
    ScanM (List Attribute) := do
  let s ← get
  if s.opened.isEmpty && s.seenRoot then
    fail env .contentAfterRoot (s.place depth rest)
  attributeValues env depth rest [] raws

/-- Takes in a start tag; with `isEmpty` the element ends at once. -/
def takeStartTag (env : Env) (depth : Nat) (rest : List Char) (name : String)
    (raws : List RawAttribute) (isEmpty : Bool) : ScanM Unit := do
  let attributes ← openTag env depth rest raws
  modify fun s => { s with seenRoot := true }
  tell (.startElement name attributes)
  if isEmpty then
    tell (.endElement name)
  else
    modify fun s => { s with opened := name :: s.opened }

/-- A start tag, from behind its `<`. -/
def startTag (env : Env) (depth : Nat) (rest after : List Char) : ScanM (List Char) :=
  match readName? after with
  | none => failAt env depth .badElementName rest
  | some (name, inside) =>
    let name := String.ofList name
    match readAttributes inside with
    | (raws, .opened tail) => returning tail (takeStartTag env depth rest name raws false)
    | (raws, .closed tail) => returning tail (takeStartTag env depth rest name raws true)
    | (raws, .unfinished) => do
      let _ ← openTag env depth rest raws
      failAt env depth (.unfinishedStartTag name) rest
    | (raws, .broken problem place) => do
      let _ ← openTag env depth rest raws
      failAt env depth problem place

/-- Goes on behind a piece that could be read; otherwise the scan ends at `rest`, after `check`. -/
def afterPiece {α : Type} (env : Env) (depth : Nat) (rest : List Char)
    (piece : Except Problem (α × List Char)) (check : ScanM Unit) (effect : α → ScanM Unit) :
    ScanM (List Char) :=
  match piece with
  | .ok (found, tail) => returning tail (effect found)
  | .error problem => do
    check
    failAt env depth problem rest

/-- A piece of markup: `after` is what follows its `<`. -/
def markup (env : Env) (depth : Nat) (after : List Char) : ScanM (List Char) :=
  let rest := '<' :: after
  match after? "/".toList after with
  | some inside =>
    afterPiece env depth rest (readEndTag inside) (pure ()) (takeEndTag env depth rest)
  | none =>
    match after? "!--".toList after with
    | some inside =>
      afterPiece env depth rest (readComment inside) (pure ()) (takeComment env depth rest)
    | none =>
      match after? "![CDATA[".toList after with
      | some inside =>
        afterPiece env depth rest (readCData inside)
          (do requireOpen env (← placeOf depth rest)) (takeCData env depth rest)
      | none =>
        match after? "!DOCTYPE".toList after with
        | some inside =>
          afterPiece env depth rest (readDoctype inside) (requireProlog env depth rest)
            (takeDoctype env depth rest)
        | none =>
          match after? "?".toList after with
          | some inside =>
            afterPiece env depth rest (readInstruction inside) (pure ())
              fun (target, data) => takeInstruction target data
          | none =>
            if after.head?.any startsName then startTag env depth rest after
            else failAt env depth .badElementName rest

/-- The next piece of content, which begins with `c`. -/
def step (env : Env) (depth : Nat) (expand : String → String → ScanM Unit) (c : Char)
    (after : List Char) : ScanM (List Char) :=
  if c == '<' then do
    flush
    markup env depth after
  else if c == '&' then
    let (reference, tail) := readReference after
    returning tail (takeReference env depth expand (c :: after) reference)
  else
    let isText := fun c => c != '<' && c != '&'
    returning (after.dropWhile isText)
      (takeText env depth (c :: after) (c :: after.takeWhile isText))

theorem afterPiece_ok {α : Type} {r : List Char} {piece : Except Problem (α × List Char)}
    {check : ScanM Unit} {effect : α → ScanM Unit}
    (h : afterPiece env depth rest piece check effect s = .ok r s') :
    ∃ found, piece = .ok (found, r) := by
  cases piece with
  | ok piece =>
    obtain ⟨found, tail⟩ := piece
    exact ⟨found, by rw [returning_ok h]⟩
  | error problem => exact absurd h bind_failAt_ne_ok

theorem startTag_suffix {after r : List Char} (h : startTag env depth rest after s = .ok r s') :
    r <:+ after := by
  cases hn : readName? after with
  | none =>
    simp only [startTag, hn] at h
    exact absurd h failAt_ne_ok
  | some found =>
    obtain ⟨name, inside⟩ := found
    have hw := readAttributes_within inside
    have hs := readName?_suffix hn
    obtain ⟨⟨raws, tagEnd⟩, hr⟩ : ∃ found, readAttributes inside = found := ⟨_, rfl⟩
    rw [hr] at hw
    simp only [startTag, hn, hr] at h
    cases tagEnd with
    | opened tail => rw [returning_ok h]; exact hw.trans hs
    | closed tail => rw [returning_ok h]; exact hw.trans hs
    | unfinished => exact absurd h bind_failAt_ne_ok
    | broken problem place => exact absurd h bind_failAt_ne_ok

theorem markup_suffix {after r : List Char} (h : markup env depth after s = .ok r s') :
    r <:+ after := by
  unfold markup at h
  cases h1 : after? "/".toList after with
  | some inside =>
    simp only [h1] at h
    obtain ⟨_, hp⟩ := afterPiece_ok h
    exact (readEndTag_suffix hp).trans (after?_suffix h1)
  | none =>
  simp only [h1] at h
  cases h2 : after? "!--".toList after with
  | some inside =>
    simp only [h2] at h
    obtain ⟨_, hp⟩ := afterPiece_ok h
    exact (readUpTo_suffix hp).trans (after?_suffix h2)
  | none =>
  simp only [h2] at h
  cases h3 : after? "![CDATA[".toList after with
  | some inside =>
    simp only [h3] at h
    obtain ⟨_, hp⟩ := afterPiece_ok h
    exact (readUpTo_suffix hp).trans (after?_suffix h3)
  | none =>
  simp only [h3] at h
  cases h4 : after? "!DOCTYPE".toList after with
  | some inside =>
    simp only [h4] at h
    obtain ⟨_, hp⟩ := afterPiece_ok h
    exact (readDoctype_suffix hp).trans (after?_suffix h4)
  | none =>
  simp only [h4] at h
  cases h5 : after? "?".toList after with
  | some inside =>
    simp only [h5] at h
    obtain ⟨_, hp⟩ := afterPiece_ok h
    exact (readInstruction_suffix hp).trans (after?_suffix h5)
  | none =>
  simp only [h5] at h
  by_cases h6 : after.head?.any startsName
  · rw [if_pos h6] at h
    exact startTag_suffix h
  · rw [if_neg h6] at h
    exact absurd h failAt_ne_ok

/-- A step never leaves the text, and passes at least the character it begins with. -/
theorem step_suffix {expand : String → String → ScanM Unit} {c : Char} {after r : List Char}
    (h : step env depth expand c after s = .ok r s') : r <:+ after := by
  simp only [step] at h
  split at h
  · simp only [bind, EStateM.bind] at h
    split at h
    · exact markup_suffix h
    · cases h
  · split at h
    · rw [returning_ok h]; exact readReference_suffix after
    · rw [returning_ok h]; exact List.dropWhile_suffix _

/-- Scans the replacement text of an entity with `inside`. The text has to close every element it
opens. -/
def withEntity (env : Env) (name replacement : String) (inside : List Char → ScanM Unit) :
    ScanM Unit := do
  enterEntity env name replacement.utf8ByteSize
  let s ← get
  set { s with entityBase := s.opened.length }
  inside replacement.toList
  let s' ← get
  if s'.opened.length != s'.entityBase then
    fail env (.unbalancedEntity name) s'.anchor
  modify fun t => { t with entityBase := s.entityBase }
  leaveEntity

/-- Scans a text as content. `depth` counts the entities around it. -/
def content (env : Env) (depth : Nat) (text : List Char) (s : State) :
    EStateM.Result ParseError State Unit :=
  match text with
  | [] => .ok () s
  | c :: after =>
    let expand := fun name replacement =>
      if _h : depth < maxEntityDepth then
        withEntity env name replacement fun inner => content env (depth + 1) inner
      else do fail env .entityLoop (← get).anchor
    match h : step env depth expand c after s with
    | .ok rest s' =>
      have := (step_suffix h).length_le
      content env depth rest s'
    | .error e s' => .error e s'
termination_by (maxEntityDepth - depth, text.length)
decreasing_by
  · apply Prod.Lex.left; omega
  · apply Prod.Lex.right; simp only [List.length_cons]; omega

end Xml.Scan
