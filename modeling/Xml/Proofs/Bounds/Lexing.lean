import Xml.Proofs.Bounds.Lines
import Xml.Proofs.Bounds.Scanning
import Xml.Proofs.XPath.Lexing

/-!
# Checked lexing, and all accesses

Tokens of an expression are read by characters, each from a slice of what is left. With them all
routines over a text are accounted for (`accesses_in_text`).
-/

namespace Xml.Bounds

open Text Routine List
open XPath (Token Tokens Fault)

variable {m : Type → Type}

/-! ## Tokens -/

theorem isAscii_of_isBlank (c : Char) (h : isBlank c = true) : IsAscii c := by
  simp only [isBlank, Bool.or_eq_true, beq_iff_eq] at h
  rcases h with ((rfl | rfl) | rfl) | rfl <;> decide

theorem isAscii_of_isDigit (c : Char) (h : c.isDigit = true) : IsAscii c := by
  simp only [Char.isDigit, Bool.and_eq_true, decide_eq_true_eq] at h
  exact Nat.lt_of_le_of_lt (UInt32.le_iff_toNat_le.mp h.2) (by decide)

/-- Passes ASCII characters, one byte for each. -/
def span (p : Char → Bool) (hp : ∀ c, p c = true → IsAscii c) : Routine m (List Char) :=
  query (.span p (fun _ => 1) fun c hc => (hp c hc).utf8Size.symm)

/-- Passes one byte for a character that is looked at in a slice. -/
def accepts (a : Char) : Routine m Bool := do
  let _ ← query .here
  query (.passes a)

/-- What one character gives, or both if the second one follows. -/
def oneOrTwo (first second : Char) (one two : Except Fault Token) :
    Routine m (Except Fault Token) := do
  let _ ← accepts first
  return if ← accepts second then two else one

/-- Cuts out digits with the point and the digits behind them. -/
def readNumeral (c : Cursor) : Checked (List Char × Cursor) := do
  let digits := passWhile Char.isDigit (fun _ => 1) c.text (c.text.utf8ByteSize + 1)
  let stop ← digits c.position
  let point := (← sliceFrom c.text stop).toList.head?.any (· == '.')
  let stop ← if point then digits (stop + 1) else pure stop
  let numeral ← slice c.text c.position stop
  return (numeral.toList, c.setPosition stop)

def takeNumeral (rest : List Char) : List Char × List Char :=
  match rest.dropWhile Char.isDigit with
  | '.' :: tail =>
    (rest.takeWhile Char.isDigit ++ '.' :: tail.takeWhile Char.isDigit, tail.dropWhile Char.isDigit)
  | tail => (rest.takeWhile Char.isDigit, tail)

theorem takeNumeral_append (rest : List Char) :
    rest = (takeNumeral rest).1 ++ (takeNumeral rest).2 := by
  have hsplit := (takeWhile_append_dropWhile (p := Char.isDigit) (l := rest)).symm
  fun_cases takeNumeral rest with
  | case1 tail hpoint => rwa [append_assoc, cons_append, takeWhile_append_dropWhile, ← hpoint]
  | case2 => exact hsplit

theorem readNumeral_cursorAt {text : String} {rest : List Char} (h : rest <:+ text.toList) :
    readNumeral (cursorAt text rest) =
      some (Prod.map id (cursorAt text) (takeNumeral rest)) := by
  have hdigits {tail : List Char} (ht : tail <:+ text.toList) :
      passWhile Char.isDigit (fun _ => 1) text (text.utf8ByteSize + 1) (offset text tail) =
        some (offset text (tail.dropWhile Char.isDigit)) := by
    refine passWhile_offset (fun c hc => (isAscii_of_isDigit c hc).utf8Size.symm) ht ?_
    rw [← byteSize_toList]
    exact Nat.lt_succ_of_le (byteSize_le_of_suffix ht)
  have hbehind := (dropWhile_suffix Char.isDigit).trans h
  have heq := takeNumeral_append rest
  revert heq
  fun_cases takeNumeral rest with
  | case1 tail hpoint =>
    intro heq
    rw [hpoint] at hbehind
    have hnext : offset text ('.' :: tail) + 1 = offset text tail := offset_cons hbehind
    simp [readNumeral, cursorAt, Cursor.setPosition, hdigits h, hpoint, sliceFrom_offset hbehind,
      hnext, hdigits ((suffix_cons _ _).trans hbehind), slice_of_eq h heq]
  | case2 hne =>
    intro heq
    have hpoint : (rest.dropWhile Char.isDigit).head?.any (· == '.') = false := by
      cases hdrop : rest.dropWhile Char.isDigit with
      | nil => rfl
      | cons c tail => exact beq_false_of_ne fun hc => hne tail (hc ▸ hdrop)
    simp [readNumeral, cursorAt, Cursor.setPosition, hdigits h, sliceFrom_offset hbehind, hpoint,
      slice_of_eq h heq]

/-- A numeral, cut out as a whole. -/
@[simps]
def Query.numeral : Query (List Char) where
  run := readNumeral
  read := takeNumeral
  read_suffix rest := ⟨_, (takeNumeral_append rest).symm⟩
  run_cursorAt := readNumeral_cursorAt

def number : Routine m Token := do
  let numeral ← query .numeral
  return .number (Number.ofDigits false (numeral.takeWhile Char.isDigit)
    (numeral.dropWhile Char.isDigit).tail)

def quotedString : Routine m (Except Fault Token) := do
  match ← query .quoted with
  | some value => return .ok (.string (String.ofList value))
  | none => return .error .unterminatedString

/-- What a name without a prefix is, by what comes next. -/
def classify (name : String) : Routine m Token := do
  let _ ← span isBlank isAscii_of_isBlank
  if (after? "::".toList (← query .here)).isSome then return .axis name
  else if ← accepts '(' then
    match XPath.NodeType.ofName? name with
    | some type => return .nodeType type
    | none => return .function name
  else return .name name

/-- A name with a prefix, from the colon on, or a name without one. -/
def qualified (name : String) : Routine m Token := do
  match ← query .here with
  | ':' :: c :: _ =>
    if c == '*' then
      let _ ← accepts ':'
      let _ ← accepts '*'
      return .anyWithPrefix name
    else if XPath.startsName c then
      let _ ← accepts ':'
      return .qname name (String.ofList (← query (.span XPath.continuesName)))
    else lookAhead (classify name)
  | _ => lookAhead (classify name)

/-- A name, or an operator if an operand stands before it. -/
def nameToken (afterOperand : Bool) : Routine m Token := do
  let name := String.ofList (← query (.span XPath.continuesName))
  match afterOperand, XPath.operatorName? name with
  | true, some operator => return operator
  | _, _ => qualified name

/-- A token of several characters that begins with a given one. -/
def longer (afterOperand : Bool) (c : Char) : Routine m (Except Fault Token) :=
  match c with
  | '/' => oneOrTwo '/' '/' (.ok .slash) (.ok .doubleSlash)
  | '<' => oneOrTwo '<' '=' (.ok .lt) (.ok .ltEq)
  | '>' => oneOrTwo '>' '=' (.ok .gt) (.ok .gtEq)
  | '.' => do
    if (← query .here).tail.head?.any Char.isDigit then return .ok (← number)
    else oneOrTwo '.' '.' (.ok .dot) (.ok .doubleDot)
  | '!' => oneOrTwo '!' '=' (.error .bangWithoutEquals) (.ok .notEq)
  | ':' => oneOrTwo ':' ':' (.error .loneColon) (.ok .doubleColon)
  | '"' => quotedString
  | '\'' => quotedString
  | c =>
    if c.isDigit then return .ok (← number)
    else if XPath.startsName c then return .ok (← nameToken afterOperand)
    else return .error (.unexpectedChar c)

def token (afterOperand : Bool) (c : Char) : Routine m (Except Fault Token) :=
  match XPath.singleToken? afterOperand c with
  | some t => do
    let _ ← accepts c
    return .ok t
  | none => longer afterOperand c

def lexFrom : Nat → Bool → Routine m Tokens
  | 0, _ => given none
  | rounds + 1, afterOperand => do
    let _ ← span isBlank isAscii_of_isBlank
    match (← query .here).head? with
    | none => return ⟨[], none⟩
    | some c =>
      match ← token afterOperand c with
      | .error fault => return ⟨[], some fault⟩
      | .ok t =>
        let more ← lexFrom rounds t.endsOperand
        return ⟨t :: more.tokens, more.fault⟩

variable [Monad m]

@[simp] theorem read_span (p : Char → Bool) (hp : ∀ c, p c = true → IsAscii c) (text : List Char) :
    (span p hp : Routine m _).read text = pure (text.takeWhile p, text.dropWhile p) := by
  simp [span]

variable [LawfulMonad m]

@[simp] theorem read_accepts (a : Char) (text : List Char) :
    (accepts a : Routine m _).read text = pure (takeChar a text) := by
  simp [accepts]

theorem finds_oneOrTwo (first second : Char) (one two : Token) (hf : first.toNat < 0x80)
    (hs : second.toNat < 0x80) (rest : List Char) :
    Finds ((oneOrTwo first second (.ok one) (.ok two) : Routine m _).read (first :: rest))
      (.ok (XPath.oneOrTwo second one two rest)) := by
  fun_cases XPath.oneOrTwo second one two rest <;> simp_all [oneOrTwo, takeChar]

theorem read_number (text : List Char) :
    (number : Routine m _).read text = pure (XPath.lexNumber text) := by
  have hwhole : ∀ c ∈ text.takeWhile Char.isDigit, c.isDigit = true := fun _ => mem_takeWhile_imp
  fun_cases XPath.lexNumber text with
  | case1 whole tail hpoint =>
    simp [number, takeNumeral, hpoint, takeWhile_append_of_pos hwhole,
      dropWhile_append_of_pos hwhole, whole]
  | case2 whole hne =>
    have hnumeral : takeNumeral text = (whole, text.dropWhile Char.isDigit) := by
      fun_cases takeNumeral text with
      | case1 tail hpoint => exact (hne tail hpoint).elim
      | case2 => rfl
    simp [number, hnumeral, takeWhile_eq_self_iff.mpr hwhole, dropWhile_eq_nil_iff.mpr hwhole, whole]

theorem finds_quotedString {quote : Char} (hq : (quote == '"' || quote == '\'') = true)
    (rest : List Char) :
    Finds ((quotedString : Routine m _).read (quote :: rest)) (XPath.lexString quote rest) := by
  cases hb : breakOn [quote] rest with
  | some found =>
    obtain ⟨rfl, hout⟩ := breakOn_singleton_iff.mp hb
    have hread := XPath.lexString_append hout found.2
    simp_all [quotedString, readLiteral]
  | none =>
    have hout : quote ∉ rest := fun hmem =>
      (breakOn_eq_none_iff (cons_ne_nil _ _)).mp hb ((singleton_infix_iff _ _).mpr hmem)
    have hdrop : rest.dropWhile (· != quote) = [] := by
      simpa [dropWhile_eq_nil_iff] using fun c hc => ne_of_mem_of_not_mem hc hout
    rw [XPath.lexString, hdrop]
    simp [quotedString, readLiteral, hq, hb]

theorem read_classify (name : String) (rest : List Char) :
    ∃ tail, (classify name : Routine m _).read rest =
      pure (XPath.classifyName name rest, tail) := by
  fun_cases XPath.classifyName name rest with
  | case1 tail hs =>
    rw [skipBlanks] at hs
    exact ⟨_, by simp [classify, after?, hs]; rfl⟩
  | case2 tail hs type htype | case3 tail hs htype =>
    rw [skipBlanks] at hs
    exact ⟨_, by simp [classify, after?, hs, htype]; rfl⟩
  | case4 hcolons hparen =>
    have hnone : after? "::".toList (rest.dropWhile isBlank) = none :=
      Option.eq_none_iff_forall_ne_some.mpr fun tail h => hcolons tail (after?_eq h)
    have hname : takeChar '(' (rest.dropWhile isBlank) = (false, _) := takeChar_of_ne hparen
    exact ⟨_, by simp_all [classify]; rfl⟩

theorem read_qualified (name : String) (rest : List Char) :
    (qualified name : Routine m _).read rest = pure (XPath.lexQualified name rest) := by
  obtain ⟨tail, htail⟩ := read_classify (m := m) name rest
  fun_cases XPath.lexQualified name rest <;> simp_all [qualified]

theorem read_nameToken (afterOperand : Bool) (text : List Char) :
    (nameToken afterOperand : Routine m _).read text = pure (XPath.lexName afterOperand text) := by
  fun_cases XPath.lexName afterOperand text <;> simp_all +zetaDelta [nameToken, read_qualified]

theorem finds_longer (afterOperand : Bool) (c : Char) (rest : List Char) :
    Finds ((longer afterOperand c : Routine m _).read (c :: rest))
      (XPath.lexLonger afterOperand c rest) := by
  fun_cases XPath.lexLonger afterOperand c rest with
  | case1 | case2 | case3 => exact finds_oneOrTwo _ _ _ _ (by decide) (by decide) rest
  | case4 rest hdigit => simp [longer, hdigit, read_number, -head?_tail]
  | case5 rest hdigit =>
    have hone := finds_oneOrTwo (m := m) '.' '.' .dot .doubleDot (by decide) (by decide) rest
    simpa [longer, hdigit, -head?_tail] using hone
  | case6 after | case8 after => simp [longer, oneOrTwo]
  | case7 rest hne | case9 rest hne => simp [longer, oneOrTwo, takeChar_of_ne hne]
  | case10 | case11 => exact finds_quotedString rfl rest
  | case12 c rest _ _ _ _ _ _ _ _ hdigit => simp [longer, hdigit, read_number]
  | case13 c rest _ _ _ _ _ _ _ _ hdigit hname => simp [longer, hdigit, hname, read_nameToken]
  | case14 c rest _ _ _ _ _ _ _ _ hdigit hname => simp [longer, hdigit, hname]

theorem finds_token (afterOperand : Bool) (c : Char) (rest : List Char) :
    Finds ((token afterOperand c : Routine m _).read (c :: rest))
      (XPath.lexToken afterOperand c rest) := by
  rw [token, XPath.lexToken]
  cases h : XPath.singleToken? afterOperand c with
  | some t =>
    have hc : c.toNat < 0x80 := by
      unfold XPath.singleToken? at h
      split at h <;> first | decide | cases h
    simp [hc]
  | none => exact finds_longer afterOperand c rest

theorem read_lexFrom {rounds : Nat} {text : List Char} (hr : text.length < rounds)
    (afterOperand : Bool) :
    ∃ tail, (lexFrom rounds afterOperand : Routine m _).read text =
      pure (XPath.lexFrom afterOperand text, tail) := by
  obtain ⟨rounds, rfl⟩ := Nat.exists_eq_add_one_of_ne_zero (Nat.ne_zero_of_lt hr)
  fun_induction XPath.lexFrom afterOperand text generalizing rounds with
  | case1 afterOperand text hs =>
    rw [skipBlanks] at hs
    exact ⟨[], by simp [lexFrom, hs]⟩
  | case2 afterOperand text c rest hs fault hfault =>
    obtain ⟨tail, htail⟩ := (finds_token (m := m) afterOperand c rest).eq_error hfault
    exact ⟨tail, by simp_all [lexFrom, skipBlanks]⟩
  | case3 afterOperand text c rest hs t after htoken hlt more ih =>
    have hread := (finds_token (m := m) afterOperand c rest).eq_ok htoken
    obtain ⟨rounds, rfl⟩ := Nat.exists_eq_add_one_of_ne_zero (by omega : rounds ≠ 0)
    obtain ⟨last, hlast⟩ := ih rounds (by omega)
    rw [skipBlanks] at hs
    rw [lexFrom]
    exact ⟨last, by simp [hs, hread, hlast, more]⟩

def lex (text : String) : Checked Tokens :=
  (lexFrom (text.length + 1) false).alone text

theorem lex_eq (text : String) : lex text = some (XPath.lex text) := by
  obtain ⟨tail, htail⟩ := read_lexFrom (m := Id) (Nat.lt_succ_self text.toList.length) false
  rw [String.length_toList] at htail
  exact alone_of_read (by rw [htail]; rfl)

/-! ## All accesses -/

/-- **No cursor leaves the text.** Where a slice, a search or a test for a mark that is not in the
text gives nothing, the scan of a document, the search for the end of a subset, the reading of
declarations and of a declared encoding, the tokens of an expression and the position of a problem
still give what they give: nothing is ever missing. -/
theorem accesses_in_text (text : String) (options : ParseOptions) (files : Files)
    (table : EntityTable) (bytes : List UInt8) (offset : Nat) :
    scanText text options files = some (Xml.scanText text.toList options files) ∧
      subsetEnd text = some ((Declarations.subsetEnd? text.toList).map fun tail =>
        Bounds.offset text (']' :: tail)) ∧
      readDeclarations text table = some (Xml.readDeclarations text.toList table) ∧
      declared bytes = some (Encoding.declared? bytes) ∧
      lineColumn text offset = some (Position.ofOffset text.toList offset) ∧
      lex text = some (XPath.lex text) :=
  ⟨scanText_eq text options files, subsetEnd_eq text, readDeclarations_eq text table,
    declared_eq bytes, lineColumn_eq text offset, lex_eq text⟩

end Xml.Bounds
