import Xml.Number.Read
import Xml.Text.Classes
import Xml.Text.Reading
import Xml.XPath.Fault

/-!
# From characters to tokens

An asterisk and the names `and`, `or`, `div` and `mod` are operators only after an operand, so that
they can also be names. All tokens of an expression are read at once; where the characters stop
making sense the tokens end with that fault.

Every token takes at least one character, which is why reading them ends.
-/

namespace Xml.XPath

open Text

def startsName (c : Char) : Bool :=
  isAlphabetic c || c == '_'

def continuesName (c : Char) : Bool :=
  isAlphabetic c || isNumeric c || c == '_' || c == '-' || c == '.'

abbrev Lexed := Except Fault (Token × List Char)

/-- One token or another, the second if a certain character follows. -/
def oneOrTwo (second : Char) (one two : Token) (rest : List Char) : Token × List Char :=
  match rest with
  | c :: after => if c == second then (two, after) else (one, rest)
  | [] => (one, rest)

def lexNumber (text : List Char) : Token × List Char :=
  let whole := text.takeWhile Char.isDigit
  match text.dropWhile Char.isDigit with
  | '.' :: rest =>
    (.number (Number.ofDigits false whole (rest.takeWhile Char.isDigit)),
      rest.dropWhile Char.isDigit)
  | rest => (.number (Number.ofDigits false whole []), rest)

/-- A string in quotes, from behind the first quote. -/
def lexString (quote : Char) (rest : List Char) : Lexed :=
  match rest.dropWhile (· != quote) with
  | _ :: after => .ok (.string (String.ofList (rest.takeWhile (· != quote))), after)
  | [] => .error .unterminatedString

/-- The operator a name stands for between two operands. -/
def operatorName? : String → Option Token
  | "and" => some .and
  | "or" => some .or
  | "mod" => some .mod
  | "div" => some .div
  | _ => none

/-- A name that is no operator and has no prefix: what it is follows from what comes next. -/
def classifyName (name : String) (rest : List Char) : Token :=
  match skipBlanks rest with
  | ':' :: ':' :: _ => .axis name
  | '(' :: _ =>
    match NodeType.ofName? name with
    | some type => .nodeType type
    | none => .function name
  | _ => .name name

/-- A name with a prefix, from the colon on, or a name without one. -/
def lexQualified (name : String) (rest : List Char) : Token × List Char :=
  match rest with
  | ':' :: c :: after =>
    if c == '*' then (.anyWithPrefix name, after)
    else if startsName c then
      (.qname name (String.ofList ((c :: after).takeWhile continuesName)),
        (c :: after).dropWhile continuesName)
    else (classifyName name rest, rest)
  | _ => (classifyName name rest, rest)

/-- A name, or an operator if an operand stands before it. -/
def lexName (afterOperand : Bool) (text : List Char) : Token × List Char :=
  let name := String.ofList (text.takeWhile continuesName)
  let rest := text.dropWhile continuesName
  match afterOperand, operatorName? name with
  | true, some operator => (operator, rest)
  | _, _ => lexQualified name rest

def singleToken? (afterOperand : Bool) : Char → Option Token
  | '@' => some .at
  | '|' => some .pipe
  | '+' => some .plus
  | '-' => some .minus
  | '=' => some .eq
  | '(' => some .leftParen
  | ')' => some .rightParen
  | '[' => some .leftBracket
  | ']' => some .rightBracket
  | ',' => some .comma
  | '$' => some .dollar
  | '*' => some (if afterOperand then .multiply else .star)
  | _ => none

/-- A token of several characters that begins with a given one. -/
def lexLonger (afterOperand : Bool) (c : Char) (rest : List Char) : Lexed :=
  match c with
  | '/' => .ok (oneOrTwo '/' .slash .doubleSlash rest)
  | '<' => .ok (oneOrTwo '=' .lt .ltEq rest)
  | '>' => .ok (oneOrTwo '=' .gt .gtEq rest)
  | '.' =>
    if rest.head?.any Char.isDigit then .ok (lexNumber ('.' :: rest))
    else .ok (oneOrTwo '.' .dot .doubleDot rest)
  | '!' =>
    match rest with
    | '=' :: after => .ok (.notEq, after)
    | _ => .error .bangWithoutEquals
  | ':' =>
    match rest with
    | ':' :: after => .ok (.doubleColon, after)
    | _ => .error .loneColon
  | '"' => lexString '"' rest
  | '\'' => lexString '\'' rest
  | c =>
    if c.isDigit then .ok (lexNumber (c :: rest))
    else if startsName c then .ok (lexName afterOperand (c :: rest))
    else .error (.unexpectedChar c)

def lexToken (afterOperand : Bool) (c : Char) (rest : List Char) : Lexed :=
  match singleToken? afterOperand c with
  | some t => .ok (t, rest)
  | none => lexLonger afterOperand c rest

theorem oneOrTwo_suffix (second : Char) (one two : Token) (rest : List Char) :
    (oneOrTwo second one two rest).2 <:+ rest := by
  unfold oneOrTwo
  split
  · split
    · exact List.suffix_cons ..
    · exact List.suffix_rfl
  · exact List.suffix_rfl

variable {rest after : List Char} {c : Char} {afterOperand : Bool} {t : Token}

theorem dropWhile_cons_suffix (p : Char → Bool) (rest : List Char) (h : p c = true) :
    (c :: rest).dropWhile p <:+ rest := by
  simp only [List.dropWhile_cons, h, if_true]
  exact List.dropWhile_suffix p

theorem lexNumber_suffix (h : c.isDigit = true ∨ (c = '.' ∧ rest.head?.any Char.isDigit = true)) :
    (lexNumber (c :: rest)).2 <:+ rest := by
  unfold lexNumber
  rcases h with h | ⟨rfl, _⟩
  · have hs : (c :: rest).dropWhile Char.isDigit <:+ rest := dropWhile_cons_suffix _ rest h
    split
    · rename_i after heq
      rw [heq] at hs
      exact ((List.dropWhile_suffix _).trans (List.suffix_cons ..)).trans hs
    · exact hs
  · have hd : ('.' :: rest).dropWhile Char.isDigit = '.' :: rest := by
      simp [Char.isDigit]
    rw [hd]
    exact List.dropWhile_suffix _

theorem lexString_suffix {quote : Char} (h : lexString quote rest = .ok (t, after)) :
    after <:+ rest := by
  unfold lexString at h
  split at h
  · rename_i heq
    simp only [Except.ok.injEq, Prod.mk.injEq] at h
    rw [← h.2]
    exact (List.suffix_cons ..).trans (heq ▸ List.dropWhile_suffix _)
  · simp at h

theorem lexQualified_suffix (name : String) (rest : List Char) :
    (lexQualified name rest).2 <:+ rest := by
  unfold lexQualified
  split
  · rename_i c after
    split
    · exact (List.suffix_cons ..).trans (List.suffix_cons ..)
    · split
      · exact (List.dropWhile_suffix _).trans (List.suffix_cons ..)
      · exact List.suffix_rfl
  · exact List.suffix_rfl

theorem continuesName_of_startsName (h : startsName c = true) : continuesName c = true := by
  unfold startsName at h
  unfold continuesName
  cases ha : isAlphabetic c <;> simp_all

theorem lexName_suffix (h : startsName c = true) :
    (lexName afterOperand (c :: rest)).2 <:+ rest := by
  have hs : (c :: rest).dropWhile continuesName <:+ rest :=
    dropWhile_cons_suffix _ rest (continuesName_of_startsName h)
  unfold lexName
  simp only
  split
  · exact hs
  · exact (lexQualified_suffix _ _).trans hs

theorem suffix_of_ok {result : Token × List Char} (h : (Except.ok result : Lexed) = .ok (t, after))
    (hs : result.2 <:+ rest) : after <:+ rest := by
  simp only [Except.ok.injEq] at h
  rw [h] at hs
  exact hs

theorem lexLonger_suffix (h : lexLonger afterOperand c rest = .ok (t, after)) : after <:+ rest := by
  unfold lexLonger at h
  split at h
  · exact suffix_of_ok h (oneOrTwo_suffix ..)
  · exact suffix_of_ok h (oneOrTwo_suffix ..)
  · exact suffix_of_ok h (oneOrTwo_suffix ..)
  · split at h
    · rename_i hd
      exact suffix_of_ok h (lexNumber_suffix (.inr ⟨rfl, hd⟩))
    · exact suffix_of_ok h (oneOrTwo_suffix ..)
  · split at h
    · exact suffix_of_ok h (List.suffix_cons ..)
    · cases h
  · split at h
    · exact suffix_of_ok h (List.suffix_cons ..)
    · cases h
  · exact lexString_suffix h
  · exact lexString_suffix h
  · split at h
    · rename_i hd
      exact suffix_of_ok h (lexNumber_suffix (.inl hd))
    · split at h
      · rename_i hn
        exact suffix_of_ok h (lexName_suffix hn)
      · cases h

theorem lexToken_suffix (h : lexToken afterOperand c rest = .ok (t, after)) : after <:+ rest := by
  unfold lexToken at h
  split at h
  · exact suffix_of_ok h List.suffix_rfl
  · exact lexLonger_suffix h

/-- The tokens of an expression, and the fault that ends them early. -/
structure Tokens where
  tokens : List Token
  fault : Option Fault

def lexFrom (afterOperand : Bool) (text : List Char) : Tokens :=
  match h : skipBlanks text with
  | [] => ⟨[], none⟩
  | c :: rest =>
    match h' : lexToken afterOperand c rest with
    | .error fault => ⟨[], some fault⟩
    | .ok (t, after) =>
      have : after.length < text.length := by
        have h1 := (lexToken_suffix h').length_le
        have h2 := (skipBlanks_suffix text).length_le
        rw [h] at h2
        simp only [List.length_cons] at h2
        omega
      let more := lexFrom t.endsOperand after
      ⟨t :: more.tokens, more.fault⟩
termination_by text.length

def lex (text : String) : Tokens :=
  lexFrom false text.toList

end Xml.XPath
