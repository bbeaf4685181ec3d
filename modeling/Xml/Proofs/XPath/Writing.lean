import Xml.XPath.Function
import Xml.XPath.Parser

/-!
# Writing expressions

An expression is written as tokens with one blank between them. Every step is written out as
`axis :: test [predicates]`, and parentheses stand only where the expression would be read as another
one without them. Where they are needed follows from `Expr.level`, how close an expression binds:
the levels of the operators, then 6 for a minus sign, 7 for a union, 8 for a path and 9 for all that
a predicate can be put behind.

`Writable` says which expressions have a text at all.
-/

namespace Xml.XPath

def Axis.name : Axis → String
  | .child => "child"
  | .descendant => "descendant"
  | .descendantOrSelf => "descendant-or-self"
  | .parent => "parent"
  | .ancestor => "ancestor"
  | .ancestorOrSelf => "ancestor-or-self"
  | .followingSibling => "following-sibling"
  | .precedingSibling => "preceding-sibling"
  | .following => "following"
  | .preceding => "preceding"
  | .self => "self"
  | .attribute => "attribute"
  | .namespace => "namespace"

namespace BinaryOp

def level : BinaryOp → Nat
  | .or => 0
  | .and => 1
  | .eq | .notEq => 2
  | .lt | .ltEq | .gt | .gtEq => 3
  | .add | .sub => 4
  | .mul | .div | .mod => 5

def token : BinaryOp → Token
  | .or => .or
  | .and => .and
  | .eq => .eq
  | .notEq => .notEq
  | .lt => .lt
  | .ltEq => .ltEq
  | .gt => .gt
  | .gtEq => .gtEq
  | .add => .plus
  | .sub => .minus
  | .mul => .multiply
  | .div => .div
  | .mod => .mod

end BinaryOp

/-! ## Tokens -/

/-- How close an expression binds. The path `/` without a step is always written in parentheses, so
it counts as closed. -/
def Expr.level : Expr → Nat
  | .binary op _ _ => op.level
  | .negate _ => 6
  | .union _ _ => 7
  | .path _ _ _ _ => 8
  | .root | .context | .filter _ _ | .call _ _ | .number _ | .string _ => 9

def parenthesized (ts : List Token) : List Token :=
  .leftParen :: ts ++ [.rightParen]

/-- The tokens `ts` of an expression where one of at least a level is expected. -/
def Expr.enclose (e : Expr) (level : Nat) (ts : List Token) : List Token :=
  if e.level < level then parenthesized ts else ts

/-- What stands in front of a step. A relative path begins with the step itself. -/
def Expr.pathStart (base : Expr) (ts : List Token) : List Token :=
  match base with
  | .context => []
  | .root => [.slash]
  | base => base.enclose 8 ts ++ [.slash]

def NodeTest.tokens : NodeTest → List Token
  | .any => [.star]
  | .name localPart => [.name localPart]
  | .qname qualifier localPart => [.qname qualifier localPart]
  | .anyIn qualifier => [.anyWithPrefix qualifier]
  | .node => [.nodeType .node, .leftParen, .rightParen]
  | .text => [.nodeType .text, .leftParen, .rightParen]
  | .comment => [.nodeType .comment, .leftParen, .rightParen]
  | .instruction none => [.nodeType .instruction, .leftParen, .rightParen]
  | .instruction (some target) =>
    [.nodeType .instruction, .leftParen, .string target, .rightParen]

mutual

/-- The tokens of an expression. The context node alone has none, it is where relative paths
begin. -/
def Expr.tokens : Expr → List Token
  | .root => parenthesized [.slash]
  | .context => []
  | .number value => [.number value]
  | .string text => [.string text]
  | .call function arguments =>
    .function function :: .leftParen :: argumentTokens arguments ++ [.rightParen]
  | .filter base predicate =>
    base.enclose 9 base.tokens ++ .leftBracket :: predicate.tokens ++ [.rightBracket]
  | .path base axis test predicates =>
    base.pathStart base.tokens ++ .axis axis.name :: .doubleColon :: test.tokens ++
      predicateTokens predicates
  | .union left right => left.enclose 7 left.tokens ++ .pipe :: right.enclose 8 right.tokens
  | .negate operand => .minus :: operand.enclose 6 operand.tokens
  | .binary op left right =>
    left.enclose op.level left.tokens ++ op.token :: right.enclose (op.level + 1) right.tokens

/-- The tokens of arguments, with commas between them. -/
def argumentTokens : List Expr → List Token
  | [] => []
  | [e] => e.tokens
  | e :: rest => e.tokens ++ .comma :: argumentTokens rest

def predicateTokens : List Expr → List Token
  | [] => []
  | e :: rest => .leftBracket :: e.tokens ++ .rightBracket :: predicateTokens rest

end

theorem argumentTokens_cons (e : Expr) (rest : List Expr) :
    argumentTokens (e :: rest) = e.tokens ++ rest.flatMap fun e => .comma :: e.tokens := by
  induction rest generalizing e with
  | nil => simp [argumentTokens]
  | cons e' rest ih => simp [argumentTokens, ih]

def stepTokens (axis : Axis) (test : NodeTest) (predicates : List Expr) : List Token :=
  .axis axis.name :: .doubleColon :: test.tokens ++ predicateTokens predicates

theorem Expr.tokens_path (base : Expr) (axis : Axis) (test : NodeTest) (predicates : List Expr) :
    (Expr.path base axis test predicates).tokens =
      base.pathStart base.tokens ++ stepTokens axis test predicates := by
  rw [Expr.tokens, stepTokens, List.append_assoc]

/-- A path is relative, or begins at the top, or goes on from an expression. -/
theorem Expr.pathStart_cases (base : Expr) (ts : List Token) :
    base = .context ∧ base.pathStart ts = [] ∨ base = .root ∧ base.pathStart ts = [.slash] ∨
      base.pathStart ts = base.enclose 8 ts ++ [.slash] := by
  cases base with
  | context => exact .inl ⟨rfl, rfl⟩
  | root => exact .inr (.inl ⟨rfl, rfl⟩)
  | _ => exact .inr (.inr rfl)

/-! ## Text -/

/-- A string in quotes that do not occur in it, if there are such. -/
def quote (text : List Char) : List Char :=
  if '"' ∈ text then '\'' :: text ++ ['\''] else '"' :: text ++ ['"']

/-- The text of a token. A number is written with the digits that `numeral` gives it. -/
def Token.spelling (numeral : Float → List Char) : Token → List Char
  | .slash => ['/']
  | .doubleSlash => ['/', '/']
  | .dot => ['.']
  | .doubleDot => ['.', '.']
  | .at => ['@']
  | .pipe => ['|']
  | .plus => ['+']
  | .minus => ['-']
  | .star | .multiply => ['*']
  | .eq => ['=']
  | .notEq => ['!', '=']
  | .lt => ['<']
  | .ltEq => ['<', '=']
  | .gt => ['>']
  | .gtEq => ['>', '=']
  | .and => "and".toList
  | .or => "or".toList
  | .mod => "mod".toList
  | .div => "div".toList
  | .leftParen => ['(']
  | .rightParen => [')']
  | .leftBracket => ['[']
  | .rightBracket => [']']
  | .doubleColon => [':', ':']
  | .comma => [',']
  | .dollar => ['$']
  | .number value => numeral value
  | .string text => quote text.toList
  | .name text | .function text | .axis text => text.toList
  | .qname nsPrefix localPart => nsPrefix.toList ++ ':' :: localPart.toList
  | .anyWithPrefix nsPrefix => nsPrefix.toList ++ [':', '*']
  | .nodeType type => type.name.toList

/-- Tokens with one blank between them. -/
def spell (numeral : Float → List Char) (ts : List Token) : List Char :=
  [' '].intercalate (ts.map (Token.spelling numeral))

def Expr.text (numeral : Float → List Char) (e : Expr) : String :=
  String.ofList (spell numeral e.tokens)

/-! ## What can be written -/

def IsNCName (name : String) : Prop :=
  name.toList.head?.any startsName = true ∧ ∀ c ∈ name.toList, continuesName c = true

instance (name : String) : Decidable (IsNCName name) :=
  @instDecidableAnd _ _ _ (List.decidableBAll (continuesName · = true) name.toList)

/-- A decimal: digits with at most one point among them. -/
def IsDecimal (text : List Char) : Prop :=
  ∃ whole fraction, (∀ c ∈ whole ++ fraction, c.isDigit = true) ∧ whole ++ fraction ≠ [] ∧
    (text = whole ++ '.' :: fraction ∨ text = whole ∧ fraction = [])

/-- A string that one of the two kinds of quotes does not occur in. -/
def Quotable (text : String) : Prop :=
  '"' ∉ text.toList ∨ '\'' ∉ text.toList

instance (text : String) : Decidable (Quotable text) :=
  inferInstanceAs (Decidable (_ ∨ _))

/-- A node test whose names are names and whose target can be quoted. -/
def NodeTest.Writable : NodeTest → Prop
  | .name localPart => IsNCName localPart
  | .qname qualifier localPart => IsNCName qualifier ∧ IsNCName localPart
  | .anyIn qualifier => IsNCName qualifier
  | .instruction (some target) => Quotable target
  | .any | .node | .text | .comment | .instruction none => True

/-- A name that some number of arguments makes a call of. -/
def IsFunctionName (name : String) : Prop :=
  ∃ count function, Function.resolve name count = .ok function

/-- The expressions that have a text. The context node only occurs where a relative path begins, and
numbers are those that a decimal is read as. -/
inductive Writable (numeral : Float → List Char) : Expr → Prop
  | root : Writable numeral .root
  | number {value : Float} (decimal : IsDecimal (numeral value))
      (reads : Number.readUnsigned false (numeral value) = value) :
      Writable numeral (.number value)
  | string {text : String} (quotable : Quotable text) : Writable numeral (.string text)
  | call {function : String} {arguments : List Expr} (known : IsFunctionName function)
      (parts : ∀ e ∈ arguments, Writable numeral e) :
      Writable numeral (.call function arguments)
  | filter {base predicate : Expr} (first : Writable numeral base)
      (second : Writable numeral predicate) : Writable numeral (.filter base predicate)
  | relative {axis : Axis} {test : NodeTest} {predicates : List Expr} (testing : test.Writable)
      (parts : ∀ e ∈ predicates, Writable numeral e) :
      Writable numeral (.path .context axis test predicates)
  | path {base : Expr} {axis : Axis} {test : NodeTest} {predicates : List Expr}
      (first : Writable numeral base) (testing : test.Writable)
      (parts : ∀ e ∈ predicates, Writable numeral e) :
      Writable numeral (.path base axis test predicates)
  | union {left right : Expr} (first : Writable numeral left) (second : Writable numeral right) :
      Writable numeral (.union left right)
  | negate {operand : Expr} (first : Writable numeral operand) :
      Writable numeral (.negate operand)
  | binary {op : BinaryOp} {left right : Expr} (first : Writable numeral left)
      (second : Writable numeral right) : Writable numeral (.binary op left right)

end Xml.XPath
