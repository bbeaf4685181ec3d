import Xml.Proofs.Text.Readers
import Xml.Proofs.XPath.Writing

/-!
# Written tokens are read again

Whether a name is a name, an axis, a function or an operator depends on what stands around it, and so
does what an asterisk means. `Fits` says where a token has to stand to be read as itself; a list in
which each token fits is read as it was written (`lexFrom_of_spell`). In a written expression each
token fits (`Writable.readsBack`): operands come behind what is no operand, and a name is followed by a
parenthesis or by two colons only if it is a function, the kind of a node or an axis.
-/

namespace Xml.XPath

open Text List

variable {text : List Char} {c : Char} {rest : List Token}

variable {numeral : Float → List Char} {afterOperand : Bool} {tail : List Char}

/-! ## Names, numbers and strings -/

/-- What stands behind a token: nothing, or a blank first. -/
def Separated (tail : List Char) : Prop :=
  tail = [] ∨ ∃ rest, tail = ' ' :: rest

theorem Separated.stopsAt {p : Char → Bool} (h : Separated tail) (hp : p ' ' = false) :
    StopsAt p tail := by
  obtain rfl | ⟨rest, rfl⟩ := h
  · exact stopsAt_nil p
  · exact stopsAt_cons.mpr hp

theorem not_digit_of_startsName (h : startsName c = true) : c.isDigit = false := by
  by_contra hd
  rw [Bool.not_eq_false, Char.isDigit, Bool.and_eq_true, decide_eq_true_eq, decide_eq_true_eq] at hd
  have hlow : 48 ≤ c.toNat := UInt32.le_iff_toNat_le.mp hd.1
  have hhigh : c.toNat ≤ 57 := UInt32.le_iff_toNat_le.mp hd.2
  have hc : c = Char.ofNat c.toNat := (Char.ofNat_toNat c).symm
  have hnone : ∀ n, n ≤ 57 → 48 ≤ n → startsName (Char.ofNat n) = false := by decide
  rw [hc, hnone _ hhigh hlow] at h
  cases h

/-- The characters that are tokens or begin one, apart from names and numbers. -/
def marks : List Char :=
  ['@', '|', '+', '-', '=', '(', ')', '[', ']', ',', '$', '*', '/', '<', '>', '.', '!', ':', '"',
    '\'']

/-- Before any other character the lexer has a number or a name to read, if anything. -/
theorem lexToken_of_class {p : Char → Bool} (hc : p c = true) (hp : marks.any p = false)
    (rest : List Char) :
    lexToken afterOperand c rest =
      if c.isDigit then .ok (lexNumber (c :: rest))
      else if startsName c then .ok (lexName afterOperand (c :: rest))
      else .error (.unexpectedChar c) := by
  have hnone : singleToken? afterOperand c = none := by
    unfold singleToken?
    split
    case h_13 => rfl
    all_goals exact absurd hc (any_eq_false.mp hp _ (by simp [marks]))
  rw [lexToken, hnone]
  show lexLonger afterOperand c rest = _
  unfold lexLonger
  split
  case h_9 => rfl
  all_goals exact absurd hc (any_eq_false.mp hp _ (by simp [marks]))

/-- A character that begins a name begins nothing else. -/
theorem lexToken_of_startsName (h : startsName c = true) (rest : List Char) :
    lexToken afterOperand c rest = .ok (lexName afterOperand (c :: rest)) := by
  rw [lexToken_of_class h (by decide), not_digit_of_startsName h, h]
  rfl

theorem IsNCName.exists_cons {name : String} (h : IsNCName name) :
    ∃ c rest, name.toList = c :: rest ∧ startsName c = true := by
  obtain ⟨hstart, -⟩ := h
  cases hname : name.toList with
  | nil => simp [hname] at hstart
  | cons c rest => exact ⟨c, rest, rfl, by simpa [hname] using hstart⟩

theorem not_blank_of_class {p : Char → Bool} (hc : p c = true)
    (hp : [' ', '\t', '\n', '\r'].any p = false) : isBlank c = false := by
  by_contra hb
  rw [Bool.not_eq_false, isBlank] at hb
  simp only [Bool.or_eq_true, beq_iff_eq] at hb
  refine any_eq_false.mp hp c ?_ hc
  rcases hb with ((rfl | rfl) | rfl) | rfl <;> simp

theorem not_blank_of_startsName (h : startsName c = true) : isBlank c = false :=
  not_blank_of_class h (by decide)

/-- Where no operand stands before it, a name is taken off whole. -/
theorem lexName_append {name : String} (h : IsNCName name) (hs : Separated tail) :
    lexName false (name.toList ++ tail) = (classifyName name tail, tail) := by
  obtain ⟨htake, hdrop⟩ := takeWhile_append_of_stopsAt h.2 (hs.stopsAt (by decide))
  have hqualified : lexQualified name tail = (classifyName name tail, tail) := by
    obtain rfl | ⟨rest, rfl⟩ := hs <;> rfl
  simp only [lexName, htake, hdrop, String.ofList_toList, hqualified]

theorem lexName_operator {name : String} {operator : Token} (h : IsNCName name)
    (hop : operatorName? name = some operator) (hs : Separated tail) :
    lexName true (name.toList ++ tail) = (operator, tail) := by
  obtain ⟨htake, hdrop⟩ := takeWhile_append_of_stopsAt h.2 (hs.stopsAt (by decide))
  simp only [lexName, htake, hdrop, String.ofList_toList, hop]

theorem lexName_qname {nsPrefix localPart : String} (hp : IsNCName nsPrefix)
    (hl : IsNCName localPart) (hs : Separated tail) :
    lexName false (nsPrefix.toList ++ ':' :: localPart.toList ++ tail) =
      (.qname nsPrefix localPart, tail) := by
  obtain ⟨c, rest, hlocal, hc⟩ := hl.exists_cons
  have hstar : (c == '*') = false := by
    rw [beq_eq_false_iff_ne]
    rintro rfl
    exact absurd hc (by decide)
  have hcolon : StopsAt continuesName (':' :: localPart.toList ++ tail) :=
    stopsAt_cons.mpr (by decide)
  obtain ⟨htake, hdrop⟩ := takeWhile_append_of_stopsAt hp.2 hcolon
  obtain ⟨htake', hdrop'⟩ := takeWhile_append_of_stopsAt hl.2 (hs.stopsAt (by decide))
  have hqualified : lexQualified nsPrefix (':' :: localPart.toList ++ tail) =
      (.qname nsPrefix localPart, tail) := by
    rw [hlocal, cons_append] at htake' hdrop'
    rw [hlocal, cons_append, cons_append]
    simp only [lexQualified, hstar, hc, htake', hdrop', Bool.false_eq_true, if_false, if_true]
    rw [← hlocal, String.ofList_toList]
  rw [append_assoc]
  simp only [lexName, htake, hdrop, String.ofList_toList, hqualified]

theorem lexName_anyWithPrefix {nsPrefix : String} (hp : IsNCName nsPrefix) :
    lexName false (nsPrefix.toList ++ [':', '*'] ++ tail) = (.anyWithPrefix nsPrefix, tail) := by
  have hcolon : StopsAt continuesName (':' :: '*' :: tail) := stopsAt_cons.mpr (by decide)
  obtain ⟨htake, hdrop⟩ := takeWhile_append_of_stopsAt hp.2 hcolon
  rw [append_assoc]
  simp only [cons_append, nil_append, lexName, htake, hdrop, String.ofList_toList]
  rfl

/-- **A decimal is read whole**, as the number it stands for. -/
theorem lexNumber_append (h : IsDecimal text) (hs : Separated tail) :
    lexNumber (text ++ tail) = (.number (Number.readUnsigned false text), tail) := by
  obtain ⟨whole, fraction, hdigits, hne, htext⟩ := h
  rw [forall_mem_append] at hdigits
  have hstop : StopsAt Char.isDigit tail := hs.stopsAt (by decide)
  rcases htext with rfl | ⟨rfl, rfl⟩
  · have hpoint (rest : List Char) : StopsAt Char.isDigit ('.' :: rest) :=
      stopsAt_cons.mpr (by decide)
    obtain ⟨htake, hdrop⟩ := takeWhile_append_of_stopsAt hdigits.1 (hpoint (fraction ++ tail))
    obtain ⟨htake', hdrop'⟩ := takeWhile_append_of_stopsAt hdigits.1 (hpoint fraction)
    obtain ⟨hfrac, hrest⟩ := takeWhile_append_of_stopsAt hdigits.2 hstop
    have hall : fraction.all Char.isDigit = true := all_eq_true.mpr hdigits.2
    have hsome : (whole.isEmpty && fraction.isEmpty) = false := by
      simpa [List.isEmpty_iff] using hne
    have hread : Number.readUnsigned false (whole ++ '.' :: fraction) =
        Number.ofDigits false whole fraction := by
      simp only [Number.readUnsigned, htake', hdrop', hall, hsome, Bool.not_false, Bool.and_self,
        if_true]
    rw [hread, append_assoc, cons_append]
    simp only [lexNumber, htake, hdrop, hfrac, hrest]
  · obtain ⟨htake, hdrop⟩ := takeWhile_append_of_stopsAt hdigits.1 hstop
    obtain ⟨htake', hdrop'⟩ := takeWhile_append_of_stopsAt hdigits.1 (stopsAt_nil Char.isDigit)
    rw [append_nil] at hne htake' hdrop'
    have hsome : text.isEmpty = false := by simpa [List.isEmpty_iff] using hne
    have hread : Number.readUnsigned false text = Number.ofDigits false text [] := by
      simp only [Number.readUnsigned, htake', hdrop', hsome, Bool.false_eq_true, if_false]
    rw [hread]
    obtain rfl | ⟨rest, rfl⟩ := hs
    · simp only [lexNumber, htake, hdrop]
    · simp only [lexNumber, htake, hdrop]
      rfl

/-- **A quoted string is read whole.** -/
theorem lexString_append {q : Char} (hq : q ∉ text) (tail : List Char) :
    lexString q (text ++ [q] ++ tail) = .ok (.string (String.ofList text), tail) := by
  have hother : ∀ c ∈ text, (c != q) = true := fun c hc =>
    bne_iff_ne.mpr fun heq => hq (heq ▸ hc)
  have hstop : StopsAt (· != q) (q :: tail) := stopsAt_cons.mpr (by simp)
  obtain ⟨htake, hdrop⟩ := takeWhile_append_of_stopsAt hother hstop
  rw [append_assoc, singleton_append, lexString, htake, hdrop]

/-! ## A token in its place -/

/-- The token is read as itself, behind an operand or not, and in front of the next one. -/
def Fits (numeral : Float → List Char) (afterOperand : Bool) (next : Option Token) :
    Token → Prop
  | .star => afterOperand = false
  | .multiply | .and | .or | .mod | .div => afterOperand = true
  | .number value =>
    IsDecimal (numeral value) ∧ Number.readUnsigned false (numeral value) = value
  | .string text => Quotable text
  | .name text =>
    afterOperand = false ∧ IsNCName text ∧ next ≠ some .leftParen ∧ next ≠ some .doubleColon
  | .qname nsPrefix localPart =>
    afterOperand = false ∧ IsNCName nsPrefix ∧ IsNCName localPart
  | .anyWithPrefix nsPrefix => afterOperand = false ∧ IsNCName nsPrefix
  | .nodeType _ => afterOperand = false ∧ next = some .leftParen
  | .function name =>
    afterOperand = false ∧ IsNCName name ∧ NodeType.ofName? name = none ∧ next = some .leftParen
  | .axis name => afterOperand = false ∧ IsNCName name ∧ next = some .doubleColon
  | _ => True

/-- Each token fits behind the one before it. -/
def Readable (numeral : Float → List Char) (afterOperand : Bool) : List Token → Prop
  | [] => True
  | t :: ts => Fits numeral afterOperand ts.head? t ∧ Readable numeral t.endsOperand ts

/-- The token is what the text is read as when `tail` stands behind it. -/
def LexesTo (afterOperand : Bool) (text tail : List Char) (t : Token) : Prop :=
  ∃ c rest, text = c :: rest ∧ isBlank c = false ∧
    lexToken afterOperand c (rest ++ tail) = .ok (t, tail)

theorem lexesTo_of_name {name : String} {t : Token} (h : IsNCName name) (hp : name.toList <+: text)
    (hname : lexName afterOperand (text ++ tail) = (t, tail)) :
    LexesTo afterOperand text tail t := by
  obtain ⟨c, rest, hcons, hc⟩ := h.exists_cons
  obtain ⟨more, rfl⟩ := hp
  rw [hcons] at hname ⊢
  refine ⟨c, rest ++ more, rfl, not_blank_of_startsName hc, ?_⟩
  rw [lexToken_of_startsName hc]
  exact congrArg Except.ok hname

theorem lexesTo_bare {name : String} {t : Token} (h : IsNCName name) (hs : Separated tail)
    (hclass : classifyName name tail = t) : LexesTo false name.toList tail t := by
  refine lexesTo_of_name h prefix_rfl ?_
  rw [lexName_append h hs, hclass]

theorem lexesTo_operator {name : String} {operator : Token} (h : IsNCName name)
    (hop : operatorName? name = some operator) (hs : Separated tail) :
    LexesTo true name.toList tail operator :=
  lexesTo_of_name h prefix_rfl (lexName_operator h hop hs)

theorem nodeType_isNCName (type : NodeType) : IsNCName type.name := by
  cases type <;> decide

/-- The rest of a text behind a token. -/
def spellRest (numeral : Float → List Char) : List Token → List Char
  | [] => []
  | t :: ts => ' ' :: spell numeral (t :: ts)

theorem spell_cons (t : Token) (ts : List Token) :
    spell numeral (t :: ts) = t.spelling numeral ++ spellRest numeral ts := by
  cases ts with
  | nil => simp [spell, spellRest]
  | cons t' ts => simp [spell, spellRest, intercalate_cons_cons]

theorem spellRest_cons (t : Token) (ts : List Token) :
    spellRest numeral (t :: ts) = ' ' :: (t.spelling numeral ++ spellRest numeral ts) :=
  congrArg (' ' :: ·) (spell_cons t ts)

theorem separated_spellRest (ts : List Token) : Separated (spellRest numeral ts) := by
  cases ts with
  | nil => exact .inl rfl
  | cons t ts => exact .inr ⟨_, rfl⟩

theorem lexToken_of_isDigit (h : c.isDigit = true) (rest : List Char) :
    lexToken afterOperand c rest = .ok (lexNumber (c :: rest)) := by
  rw [lexToken_of_class h (by decide), h]
  rfl

/-- A decimal begins with a digit, or with a point that a digit follows. -/
theorem IsDecimal.exists_cons (h : IsDecimal text) :
    ∃ c rest, text = c :: rest ∧
      (c.isDigit = true ∨ c = '.' ∧ ∃ d more, rest = d :: more ∧ d.isDigit = true) := by
  obtain ⟨whole, fraction, hdigits, hne, htext⟩ := h
  cases whole with
  | cons c whole =>
    have hc : c.isDigit = true := hdigits c (by simp)
    obtain rfl | ⟨rfl, -⟩ := htext
    · exact ⟨c, whole ++ '.' :: fraction, rfl, .inl hc⟩
    · exact ⟨c, whole, rfl, .inl hc⟩
  | nil =>
    cases fraction with
    | nil => exact absurd rfl hne
    | cons d fraction =>
      obtain rfl | ⟨-, hnil⟩ := htext
      · exact ⟨'.', d :: fraction, rfl, .inr ⟨rfl, d, fraction, rfl, hdigits d (by simp)⟩⟩
      · cases hnil

theorem lexesTo_decimal (h : IsDecimal text) (hs : Separated tail) :
    LexesTo afterOperand text tail (.number (Number.readUnsigned false text)) := by
  have hnumber := lexNumber_append h hs
  obtain ⟨c, rest, rfl, hc | ⟨rfl, d, more, rfl, hd⟩⟩ := h.exists_cons
  · refine ⟨c, rest, rfl, not_blank_of_class hc (by decide), ?_⟩
    rw [lexToken_of_isDigit hc]
    exact congrArg Except.ok hnumber
  · refine ⟨'.', d :: more, rfl, rfl, ?_⟩
    have hpoint : lexToken afterOperand '.' (d :: more ++ tail) =
        .ok (lexNumber ('.' :: d :: more ++ tail)) := if_pos (by simpa using hd)
    rw [hpoint]
    exact congrArg Except.ok hnumber

theorem lexesTo_quote {text : String} (h : Quotable text) :
    LexesTo afterOperand (quote text.toList) tail (.string text) := by
  unfold quote
  split
  · next hin =>
    have hout : '\'' ∉ text.toList := h.resolve_left fun hn => hn hin
    refine ⟨'\'', text.toList ++ ['\''], rfl, rfl, ?_⟩
    have hread := lexString_append hout tail
    rwa [String.ofList_toList] at hread
  · next hout =>
    refine ⟨'"', text.toList ++ ['"'], rfl, rfl, ?_⟩
    have hread := lexString_append hout tail
    rwa [String.ofList_toList] at hread

/-- Only a parenthesis and two colons begin as they do. -/
theorem Fits.exists_cons {next : Option Token} {t : Token} (h : Fits numeral afterOperand next t) :
    ∃ c rest, t.spelling numeral = c :: rest ∧ isBlank c = false ∧
      (c = '(' → t = .leftParen) ∧ (c = ':' → t = .doubleColon) := by
  have hname {name : String} (hn : IsNCName name) (more : List Char) :
      ∃ c rest, name.toList ++ more = c :: rest ∧ isBlank c = false ∧
        (c = '(' → t = .leftParen) ∧ (c = ':' → t = .doubleColon) := by
    obtain ⟨c, rest, hcons, hc⟩ := hn.exists_cons
    refine ⟨c, rest ++ more, by rw [hcons]; rfl, not_blank_of_startsName hc, ?_, ?_⟩ <;>
      · rintro rfl
        exact absurd hc (by decide)
  have hbare {name : String} (hn : IsNCName name) := (append_nil name.toList) ▸ hname hn []
  cases t with
  | number value =>
    obtain ⟨c, rest, hcons, hc | ⟨rfl, -⟩⟩ := h.1.exists_cons
    · refine ⟨c, rest, hcons, not_blank_of_class hc (by decide), ?_, ?_⟩ <;>
        · rintro rfl
          exact absurd hc (by decide)
    · exact ⟨'.', rest, hcons, rfl, by simp, by simp⟩
  | string text =>
    rw [Token.spelling, quote]
    split <;> exact ⟨_, _, rfl, rfl, by simp, by simp⟩
  | name text => exact hbare h.2.1
  | function text => exact hbare h.2.1
  | axis text => exact hbare h.2.1
  | nodeType type => exact hbare (nodeType_isNCName type)
  | qname nsPrefix localPart => exact hname h.2.1 _
  | anyWithPrefix nsPrefix => exact hname h.2 _
  | and => exact hbare (show IsNCName "and" by decide)
  | or => exact hbare (show IsNCName "or" by decide)
  | mod => exact hbare (show IsNCName "mod" by decide)
  | div => exact hbare (show IsNCName "div" by decide)
  | _ => exact ⟨_, _, rfl, by decide, by simp, by simp⟩

/-! ## A name and what follows it -/

variable {t : Token} {ts : List Token} {name : String}

theorem classifyName_of_axis (name : String) (ts : List Token) :
    classifyName name (spellRest numeral (.doubleColon :: ts)) = .axis name := by
  rw [spellRest_cons]
  rfl

theorem classifyName_of_nodeType (type : NodeType) (ts : List Token) :
    classifyName type.name (spellRest numeral (.leftParen :: ts)) = .nodeType type := by
  rw [spellRest_cons]
  cases type <;> rfl

theorem classifyName_of_function (h : NodeType.ofName? name = none) (ts : List Token) :
    classifyName name (spellRest numeral (.leftParen :: ts)) = .function name := by
  have hskip : skipBlanks (spellRest numeral (.leftParen :: ts)) = '(' :: spellRest numeral ts := by
    rw [spellRest_cons]
    rfl
  rw [classifyName, hskip]
  simp only [h]

theorem skipBlanks_spell (h : Readable numeral afterOperand ts) :
    skipBlanks (spell numeral ts) = spell numeral ts := by
  cases ts with
  | nil => rfl
  | cons t ts =>
    obtain ⟨c, rest, hcons, hblank, -⟩ := h.1.exists_cons
    rw [spell_cons, hcons]
    exact dropWhile_cons_of_neg (Bool.not_eq_true _ ▸ hblank)

theorem skipBlanks_spellRest (h : Readable numeral afterOperand ts) :
    skipBlanks (spellRest numeral ts) = spell numeral ts := by
  cases ts with
  | nil => rfl
  | cons t ts => exact skipBlanks_spell h

theorem classifyName_of_name (h : Readable numeral afterOperand ts)
    (hp : ts.head? ≠ some .leftParen) (hc : ts.head? ≠ some .doubleColon) :
    classifyName name (spellRest numeral ts) = .name name := by
  cases ts with
  | nil => rfl
  | cons t ts =>
    obtain ⟨c, rest, hcons, hblank, hparen, hcolon⟩ := h.1.exists_cons
    rw [classifyName, skipBlanks_spellRest h, spell_cons, hcons]
    split
    · next heq => exact absurd (congrArg some (hcolon (List.cons.inj heq).1)) hc
    · next heq => exact absurd (congrArg some (hparen (List.cons.inj heq).1)) hp
    · rfl

/-- **A token that fits is read as itself.** -/
theorem Fits.lexesTo (h : Fits numeral afterOperand ts.head? t)
    (hts : Readable numeral t.endsOperand ts) :
    LexesTo afterOperand (t.spelling numeral) (spellRest numeral ts) t := by
  have hs : Separated (spellRest numeral ts) := separated_spellRest ts
  cases t with
  | number value =>
    obtain ⟨hdecimal, hread⟩ := h
    have hlexes : LexesTo afterOperand (numeral value) (spellRest numeral ts)
        (.number (Number.readUnsigned false (numeral value))) := lexesTo_decimal hdecimal hs
    rwa [hread] at hlexes
  | string text => exact lexesTo_quote h
  | name text =>
    obtain ⟨rfl, hn, hp, hc⟩ := h
    exact lexesTo_bare hn hs (classifyName_of_name hts hp hc)
  | function text =>
    obtain ⟨rfl, hn, htype, hnext⟩ := h
    obtain ⟨ts, rfl⟩ := head?_eq_some_iff.mp hnext
    exact lexesTo_bare hn hs (classifyName_of_function htype ts)
  | axis text =>
    obtain ⟨rfl, hn, hnext⟩ := h
    obtain ⟨ts, rfl⟩ := head?_eq_some_iff.mp hnext
    exact lexesTo_bare hn hs (classifyName_of_axis text ts)
  | nodeType type =>
    obtain ⟨rfl, hnext⟩ := h
    obtain ⟨ts, rfl⟩ := head?_eq_some_iff.mp hnext
    exact lexesTo_bare (nodeType_isNCName type) hs (classifyName_of_nodeType type ts)
  | qname nsPrefix localPart =>
    obtain ⟨rfl, hp, hl⟩ := h
    exact lexesTo_of_name hp (prefix_append _ _) (lexName_qname hp hl hs)
  | anyWithPrefix nsPrefix =>
    obtain ⟨rfl, hp⟩ := h
    exact lexesTo_of_name hp (prefix_append _ _) (lexName_anyWithPrefix hp)
  | and =>
    obtain rfl : afterOperand = true := h
    exact lexesTo_operator (show IsNCName "and" by decide) rfl hs
  | or =>
    obtain rfl : afterOperand = true := h
    exact lexesTo_operator (show IsNCName "or" by decide) rfl hs
  | mod =>
    obtain rfl : afterOperand = true := h
    exact lexesTo_operator (show IsNCName "mod" by decide) rfl hs
  | div =>
    obtain rfl : afterOperand = true := h
    exact lexesTo_operator (show IsNCName "div" by decide) rfl hs
  | star =>
    obtain rfl : afterOperand = false := h
    exact ⟨_, _, rfl, rfl, rfl⟩
  | multiply =>
    obtain rfl : afterOperand = true := h
    exact ⟨_, _, rfl, rfl, rfl⟩
  | _ =>
    -- Where a second character could follow the first, a blank does.
    obtain heq | ⟨rest, heq⟩ := hs <;> rw [heq] <;> exact ⟨_, _, rfl, rfl, rfl⟩

/-! ## All tokens -/

theorem lexFrom_of_nil (h : skipBlanks text = []) : lexFrom afterOperand text = ⟨[], none⟩ := by
  rw [lexFrom]
  split
  · rfl
  · next heq => cases h.symm.trans heq

theorem lexFrom_of_lexToken {rest after : List Char} (h : skipBlanks text = c :: rest)
    (ht : lexToken afterOperand c rest = .ok (t, after)) :
    lexFrom afterOperand text =
      ⟨t :: (lexFrom t.endsOperand after).tokens, (lexFrom t.endsOperand after).fault⟩ := by
  rw [lexFrom]
  split
  · next heq => cases h.symm.trans heq
  · next heq =>
    cases h.symm.trans heq
    split
    · next herr => cases ht.symm.trans herr
    · next hok => cases ht.symm.trans hok; rfl

/-- **Tokens that fit are read as they were written**, blanks before them or not. -/
theorem lexFrom_of_spell (h : Readable numeral afterOperand ts)
    (htext : skipBlanks text = spell numeral ts) : lexFrom afterOperand text = ⟨ts, none⟩ := by
  induction ts generalizing afterOperand text with
  | nil => exact lexFrom_of_nil htext
  | cons t ts ih =>
    obtain ⟨c, rest, hcons, -, hlex⟩ := h.1.lexesTo h.2
    rw [spell_cons, hcons] at htext
    rw [lexFrom_of_lexToken htext hlex, ih h.2 (skipBlanks_spellRest h.2)]

/-! ## The tokens of an expression -/

/-- What can stand behind an operand. -/
structure Continues (numeral : Float → List Char) (ts : List Token) : Prop where
  readable : Readable numeral true ts
  no_paren : ts.head? ≠ some .leftParen
  no_colon : ts.head? ≠ some .doubleColon

/-- The tokens are read again, between what is no operand and what can stand behind one. -/
def ReadsBack (numeral : Float → List Char) (ts : List Token) : Prop :=
  ∀ rest, Continues numeral rest → Readable numeral false (ts ++ rest)

theorem continues_nil : Continues numeral [] :=
  ⟨trivial, by simp, by simp⟩

theorem Continues.close (h : Continues numeral rest) (ht : t = .rightParen ∨ t = .rightBracket) :
    Continues numeral (t :: rest) := by
  obtain rfl | rfl := ht <;> exact ⟨⟨trivial, h.readable⟩, by simp, by simp⟩

theorem continues_operator (op : BinaryOp) (h : Readable numeral false ts) :
    Continues numeral (op.token :: ts) := by
  cases op <;> exact ⟨⟨by trivial, h⟩, by simp [BinaryOp.token], by simp [BinaryOp.token]⟩

theorem ReadsBack.enclose (h : ReadsBack numeral ts) (e : Expr) (level : Nat) :
    ReadsBack numeral (e.enclose level ts) := by
  intro rest hrest
  rw [Expr.enclose]
  split
  · have hinside := h (.rightParen :: rest) (hrest.close (.inl rfl))
    rw [parenthesized, cons_append, cons_append, append_assoc]
    exact ⟨trivial, hinside⟩
  · exact h rest hrest

theorem continues_predicates {predicates : List Expr}
    (h : ∀ e ∈ predicates, ReadsBack numeral e.tokens) (hrest : Continues numeral rest) :
    Continues numeral (predicateTokens predicates ++ rest) := by
  induction predicates with
  | nil => exact hrest
  | cons e predicates ih =>
    obtain ⟨hfirst, hothers⟩ := forall_mem_cons.mp h
    have hinside := hfirst _ ((ih hothers).close (.inr rfl))
    rw [predicateTokens, cons_append, cons_append, append_assoc, cons_append]
    exact ⟨⟨trivial, hinside⟩, by simp, by simp⟩

theorem NodeTest.Writable.readsBack {test : NodeTest} (h : test.Writable) :
    ReadsBack numeral test.tokens := by
  intro rest hrest
  have hclosed : Readable numeral true (.rightParen :: rest) := ⟨trivial, hrest.readable⟩
  cases test with
  | any => exact ⟨rfl, hrest.readable⟩
  | name localPart => exact ⟨⟨rfl, h, hrest.no_paren, hrest.no_colon⟩, hrest.readable⟩
  | qname qualifier localPart => exact ⟨⟨rfl, h⟩, hrest.readable⟩
  | anyIn qualifier => exact ⟨⟨rfl, h⟩, hrest.readable⟩
  | instruction target =>
    cases target with
    | none => exact ⟨⟨rfl, rfl⟩, trivial, hclosed⟩
    | some target => exact ⟨⟨rfl, rfl⟩, trivial, h, hclosed⟩
  | _ => exact ⟨⟨rfl, rfl⟩, trivial, hclosed⟩

theorem axis_isNCName (axis : Axis) : IsNCName axis.name := by
  cases axis <;> decide

theorem readsBack_step {test : NodeTest} {predicates : List Expr} (axis : Axis)
    (htest : test.Writable) (h : ∀ e ∈ predicates, ReadsBack numeral e.tokens) :
    ReadsBack numeral (stepTokens axis test predicates) := by
  intro rest hrest
  have hmore := htest.readsBack _ (continues_predicates h hrest)
  rw [stepTokens, cons_append, cons_append, cons_append, cons_append,
    append_assoc]
  exact ⟨⟨rfl, axis_isNCName axis, rfl⟩, trivial, hmore⟩

theorem continues_arguments {arguments : List Expr}
    (h : ∀ e ∈ arguments, ReadsBack numeral e.tokens) (hrest : Continues numeral rest) :
    Continues numeral (arguments.flatMap (fun e => .comma :: e.tokens) ++ .rightParen :: rest) := by
  induction arguments with
  | nil => exact hrest.close (.inl rfl)
  | cons e arguments ih =>
    obtain ⟨hfirst, hothers⟩ := forall_mem_cons.mp h
    have hinside := hfirst _ (ih hothers)
    rw [flatMap_cons, cons_append, cons_append, append_assoc]
    exact ⟨⟨trivial, hinside⟩, by simp, by simp⟩

theorem readable_arguments {arguments : List Expr} (h : ∀ e ∈ arguments, ReadsBack numeral e.tokens)
    (hrest : Continues numeral rest) :
    Readable numeral false (argumentTokens arguments ++ .rightParen :: rest) := by
  cases arguments with
  | nil => exact ⟨trivial, hrest.readable⟩
  | cons e arguments =>
    obtain ⟨hfirst, hothers⟩ := forall_mem_cons.mp h
    rw [argumentTokens_cons, append_assoc]
    exact hfirst _ (continues_arguments hothers hrest)

theorem IsFunctionName.isNCName (h : IsFunctionName name) :
    IsNCName name ∧ NodeType.ofName? name = none := by
  obtain ⟨count, function, hf⟩ := h
  have hlabel : ∀ {f : Function}, Function.ofName? name = some f → name = f.label := by
    intro f hname
    unfold Function.ofName? at hname
    split at hname <;> cases hname <;> rfl
  have hall (f : Function) : IsNCName f.label ∧ NodeType.ofName? f.label = none := by
    cases f <;> exact ⟨by decide, by decide⟩
  rw [Function.resolve] at hf
  split at hf
  · cases hf
  · split at hf
    · cases hf
    · next hname => rw [hlabel hname]; exact hall _

/-- **In a written expression every token fits.** -/
theorem Writable.readsBack {e : Expr} (h : Writable numeral e) : ReadsBack numeral e.tokens := by
  induction h with
  | root =>
    intro rest hrest
    exact ⟨trivial, trivial, trivial, hrest.readable⟩
  | number decimal reads =>
    intro rest hrest
    exact ⟨⟨decimal, reads⟩, hrest.readable⟩
  | string quotable =>
    intro rest hrest
    exact ⟨quotable, hrest.readable⟩
  | call known parts ih =>
    intro rest hrest
    have hinside := readable_arguments ih hrest
    rw [Expr.tokens, cons_append, cons_append, cons_append, cons_append,
      append_assoc]
    exact ⟨⟨rfl, known.isNCName.1, known.isNCName.2, rfl⟩, trivial, hinside⟩
  | @filter base predicate first second ihbase ihpredicate =>
    intro rest hrest
    have hinside := ihpredicate _ (hrest.close (.inr rfl))
    rw [Expr.tokens, append_assoc, append_assoc, cons_append]
    exact ihbase.enclose base 9 _ ⟨⟨trivial, hinside⟩, by simp, by simp⟩
  | @relative axis test predicates testing parts ih =>
    rw [Expr.tokens_path]
    exact readsBack_step axis testing ih
  | @path base axis test predicates first testing parts ihbase ih =>
    intro rest hrest
    have hstep := readsBack_step axis testing ih rest hrest
    rw [Expr.tokens_path, append_assoc]
    obtain ⟨-, hstart⟩ | ⟨-, hstart⟩ | hstart := base.pathStart_cases base.tokens
    · rw [hstart]
      exact hstep
    · rw [hstart]
      exact ⟨trivial, hstep⟩
    · rw [hstart, append_assoc]
      exact ihbase.enclose base 8 _ ⟨⟨trivial, hstep⟩, by simp, by simp⟩
  | @union left right first second ihleft ihright =>
    intro rest hrest
    have hright := ihright.enclose right 8 rest hrest
    rw [Expr.tokens, append_assoc]
    exact ihleft.enclose left 7 _ ⟨⟨trivial, hright⟩, by simp, by simp⟩
  | @negate operand first ih =>
    intro rest hrest
    exact ⟨trivial, ih.enclose operand 6 rest hrest⟩
  | @binary op left right first second ihleft ihright =>
    intro rest hrest
    have hright := ihright.enclose right (op.level + 1) rest hrest
    rw [Expr.tokens, append_assoc]
    exact ihleft.enclose left op.level _ (continues_operator op hright)

end Xml.XPath
