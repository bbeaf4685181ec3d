import Xml.XPath.Expr
import Xml.XPath.Lexer

/-!
# From tokens to expressions

A function for each rule of the grammar. Each returns the tokens it has not read; that these are
fewer than it was given, or at least not more, is part of its type and makes the recursion end.

Operators are grouped into levels, `or` binding weakest, and group to the left. A fault among the
characters counts when the parser comes to it: reading past the last good token fails with it.
-/

namespace Xml.XPath

abbrev Fewer (given : List Token) := { rest : List Token // rest.length < given.length }

abbrev AtMost (given : List Token) := { rest : List Token // rest.length ≤ given.length }

def AtMost.all (ts : List Token) : AtMost ts :=
  ⟨ts, Nat.le_refl _⟩

/-- Reads past a token, to the tokens behind it. Behind the last one the fault that ended the tokens
comes up. -/
def advance (fault : Option Fault) (rest : List Token) : Except Fault (AtMost rest) :=
  match if rest.isEmpty then fault else none with
  | some fault => .error fault
  | none => .ok (.all rest)

def expect (fault : Option Fault) (wanted : String) (isWanted : Token → Bool) (ts : List Token) :
    Except Fault (Fewer ts) :=
  match ts with
  | t :: rest =>
    if isWanted t then do
      let ⟨after, _⟩ ← advance fault rest
      return ⟨after, by simp only [List.length_cons]; omega⟩
    else .error (.expected wanted (some t))
  | [] => .error (.expected wanted none)

def closeParen (fault : Option Fault) (ts : List Token) : Except Fault (Fewer ts) :=
  expect fault ")" (· matches .rightParen) ts

def openParen (fault : Option Fault) (ts : List Token) : Except Fault (Fewer ts) :=
  expect fault "(" (· matches .leftParen) ts

/-- Reads past a token that means something by itself. -/
def single {α : Type} (fault : Option Fault) (meaning : α) (t : Token) (rest : List Token) :
    Except Fault (α × Fewer (t :: rest)) := do
  let ⟨after, _⟩ ← advance fault rest
  return (meaning, ⟨after, by simp only [List.length_cons]; omega⟩)

def instructionTarget (fault : Option Fault) (type : NodeType) (ts : List Token) :
    Except Fault (Option String × AtMost ts) :=
  match type, ts with
  | .instruction, .string target :: rest => do
    let ⟨after, _⟩ ← advance fault rest
    return (some target, ⟨after, by simp only [List.length_cons]; omega⟩)
  | _, ts => .ok (none, .all ts)

def NodeType.test (target : Option String) : NodeType → NodeTest
  | .node => .node
  | .text => .text
  | .comment => .comment
  | .instruction => .instruction target

def nodeTest (fault : Option Fault) (ts : List Token) : Except Fault (NodeTest × Fewer ts) :=
  match ts with
  | .nodeType type :: rest => do
    let ⟨start, _⟩ ← advance fault rest
    let ⟨inner, _⟩ ← openParen fault start
    let (target, ⟨close, _⟩) ← instructionTarget fault type inner
    let ⟨after, _⟩ ← closeParen fault close
    return (type.test target, ⟨after, by simp only [List.length_cons]; omega⟩)
  | .star :: rest => single fault .any .star rest
  | .name text :: rest => single fault (.name text) (.name text) rest
  | .qname p l :: rest => single fault (.qname p l) (.qname p l) rest
  | .anyWithPrefix p :: rest => single fault (.anyIn p) (.anyWithPrefix p) rest
  | ts => .error (.expectedTest ts.head?)

/-- The axis at the beginning of a step, the child axis if there is none. -/
def stepAxis (fault : Option Fault) (ts : List Token) : Except Fault (Axis × AtMost ts) :=
  match ts with
  | .at :: rest => do
    let ⟨after, _⟩ ← advance fault rest
    return (.attribute, ⟨after, by simp only [List.length_cons]; omega⟩)
  | .axis name :: rest =>
    match Axis.ofName? name with
    | none => .error (.unknownAxis name)
    | some axis => do
      let ⟨colons, _⟩ ← advance fault rest
      let ⟨after, _⟩ ← expect fault "::" (· matches .doubleColon) colons
      return (axis, ⟨after, by simp only [List.length_cons]; omega⟩)
  | ts => .ok (.child, .all ts)

/-- The operator a token is at a level of precedence, from 0 for `or` to 5 for `*`. -/
def operatorAt? (level : Nat) (t : Token) : Option BinaryOp :=
  match level, t with
  | 0, .or => some .or
  | 1, .and => some .and
  | 2, .eq => some .eq
  | 2, .notEq => some .notEq
  | 3, .lt => some .lt
  | 3, .ltEq => some .ltEq
  | 3, .gt => some .gt
  | 3, .gtEq => some .gtEq
  | 4, .plus => some .add
  | 4, .minus => some .sub
  | 5, .multiply => some .mul
  | 5, .div => some .div
  | 5, .mod => some .mod
  | _, _ => none

def levels : Nat := 6

mutual

/-- An expression whose operators are of a level or bind closer. -/
def binaryExpr (fault : Option Fault) (level : Nat) (ts : List Token) :
    Except Fault (Expr × Fewer ts) :=
  if _h : level < levels then do
    let (left, ⟨middle, _⟩) ← binaryExpr fault (level + 1) ts
    let (e, ⟨after, _⟩) ← binaryTail fault level left middle
    return (e, ⟨after, by omega⟩)
  else unaryExpr fault ts
termination_by (ts.length, 10 + (levels - level))

/-- The operators of a level and their right operands, as far as they go. -/
def binaryTail (fault : Option Fault) (level : Nat) (left : Expr) (ts : List Token) :
    Except Fault (Expr × AtMost ts) :=
  match ts with
  | [] => .ok (left, .all [])
  | t :: rest =>
    match operatorAt? level t with
    | none => .ok (left, .all (t :: rest))
    | some op => do
      let ⟨start, _⟩ ← advance fault rest
      let (right, ⟨middle, _⟩) ← binaryExpr fault (level + 1) start
      let (e, ⟨after, _⟩) ← binaryTail fault level (.binary op left right) middle
      return (e, ⟨after, by simp only [List.length_cons]; omega⟩)
termination_by (ts.length, 0)

def unaryExpr (fault : Option Fault) (ts : List Token) : Except Fault (Expr × Fewer ts) :=
  match ts with
  | .minus :: rest => do
    let ⟨start, _⟩ ← advance fault rest
    let (e, ⟨after, _⟩) ← unaryExpr fault start
    return (.negate e, ⟨after, by simp only [List.length_cons]; omega⟩)
  | ts => do
    let (left, ⟨middle, _⟩) ← pathExpr fault ts
    let (e, ⟨after, _⟩) ← unionTail fault left middle
    return (e, ⟨after, by omega⟩)
termination_by (ts.length, 9)

def unionTail (fault : Option Fault) (left : Expr) (ts : List Token) :
    Except Fault (Expr × AtMost ts) :=
  match ts with
  | .pipe :: rest => do
    let ⟨start, _⟩ ← advance fault rest
    let (right, ⟨middle, _⟩) ← pathExpr fault start
    let (e, ⟨after, _⟩) ← unionTail fault (.union left right) middle
    return (e, ⟨after, by simp only [List.length_cons]; omega⟩)
  | ts => .ok (left, .all ts)
termination_by (ts.length, 0)

/-- A location path, or a filtered expression with steps behind it. -/
def pathExpr (fault : Option Fault) (ts : List Token) : Except Fault (Expr × Fewer ts) :=
  match ts with
  | .slash :: rest => do
    let ⟨start, _⟩ ← advance fault rest
    if start.head?.any Token.startsStep then
      let (e, ⟨middle, _⟩) ← step fault .root start
      let (e, ⟨after, _⟩) ← pathTail fault e middle
      return (e, ⟨after, by simp only [List.length_cons]; omega⟩)
    else return (.root, ⟨start, by simp only [List.length_cons]; omega⟩)
  | .doubleSlash :: rest => do
    let ⟨start, _⟩ ← advance fault rest
    let (e, ⟨middle, _⟩) ← step fault (.deep .root) start
    let (e, ⟨after, _⟩) ← pathTail fault e middle
    return (e, ⟨after, by simp only [List.length_cons]; omega⟩)
  | ts =>
    if ts.head?.any Token.startsStep then do
      let (e, ⟨middle, _⟩) ← step fault .context ts
      let (e, ⟨after, _⟩) ← pathTail fault e middle
      return (e, ⟨after, by omega⟩)
    else do
      let (e, ⟨middle, _⟩) ← filterExpr fault ts
      let (e, ⟨after, _⟩) ← pathTail fault e middle
      return (e, ⟨after, by omega⟩)
termination_by (ts.length, 8)

def pathTail (fault : Option Fault) (base : Expr) (ts : List Token) :
    Except Fault (Expr × AtMost ts) :=
  match ts with
  | .slash :: rest => do
    let ⟨start, _⟩ ← advance fault rest
    let (e, ⟨middle, _⟩) ← step fault base start
    let (e, ⟨after, _⟩) ← pathTail fault e middle
    return (e, ⟨after, by simp only [List.length_cons]; omega⟩)
  | .doubleSlash :: rest => do
    let ⟨start, _⟩ ← advance fault rest
    let (e, ⟨middle, _⟩) ← step fault base.deep start
    let (e, ⟨after, _⟩) ← pathTail fault e middle
    return (e, ⟨after, by simp only [List.length_cons]; omega⟩)
  | ts => .ok (base, .all ts)
termination_by (ts.length, 0)

def step (fault : Option Fault) (base : Expr) (ts : List Token) :
    Except Fault (Expr × Fewer ts) :=
  match ts with
  | .dot :: rest => single fault (.path base .self .node []) .dot rest
  | .doubleDot :: rest => single fault (.path base .parent .node []) .doubleDot rest
  | ts => do
    let (axis, ⟨start, _⟩) ← stepAxis fault ts
    let (test, ⟨middle, _⟩) ← nodeTest fault start
    let (predicates, ⟨after, _⟩) ← predicateList fault middle
    return (.path base axis test predicates, ⟨after, by omega⟩)
termination_by (ts.length, 7)

def predicateList (fault : Option Fault) (ts : List Token) :
    Except Fault (List Expr × AtMost ts) :=
  match ts with
  | .leftBracket :: rest => do
    let (p, ⟨middle, _⟩) ← predicate fault rest
    let (ps, ⟨after, _⟩) ← predicateList fault middle
    return (p :: ps, ⟨after, by simp only [List.length_cons]; omega⟩)
  | ts => .ok ([], .all ts)
termination_by (ts.length, 1)

/-- The expression in a pair of brackets, from behind the first. -/
def predicate (fault : Option Fault) (rest : List Token) : Except Fault (Expr × Fewer rest) := do
  let ⟨start, _⟩ ← advance fault rest
  let (e, ⟨middle, _⟩) ← binaryExpr fault 0 start
  let ⟨after, _⟩ ← expect fault "]" (· matches .rightBracket) middle
  return (e, ⟨after, by omega⟩)
termination_by (rest.length + 1, 0)

def filterExpr (fault : Option Fault) (ts : List Token) : Except Fault (Expr × Fewer ts) := do
  let (e, ⟨middle, _⟩) ← primaryExpr fault ts
  let (e, ⟨after, _⟩) ← filterTail fault e middle
  return (e, ⟨after, by omega⟩)
termination_by (ts.length, 5)

def filterTail (fault : Option Fault) (base : Expr) (ts : List Token) :
    Except Fault (Expr × AtMost ts) :=
  match ts with
  | .leftBracket :: rest => do
    let (p, ⟨middle, _⟩) ← predicate fault rest
    let (e, ⟨after, _⟩) ← filterTail fault (.filter base p) middle
    return (e, ⟨after, by simp only [List.length_cons]; omega⟩)
  | ts => .ok (base, .all ts)
termination_by (ts.length, 1)

/-- A literal, an expression in parentheses or a function call. -/
def primaryExpr (fault : Option Fault) (ts : List Token) : Except Fault (Expr × Fewer ts) :=
  match ts with
  | .number value :: rest => single fault (.number value) (.number value) rest
  | .string text :: rest => single fault (.string text) (.string text) rest
  | .dollar :: rest => do
    let ⟨start, _⟩ ← advance fault rest
    match start with
    | .name name :: _ => .error (.variable name)
    | .qname p l :: _ => .error (.variable (p ++ ":" ++ l))
    | .anyWithPrefix p :: _ => .error (.variable (p ++ ":*"))
    | _ => .error .variableWithoutName
  | .leftParen :: rest => do
    let ⟨start, _⟩ ← advance fault rest
    let (e, ⟨middle, _⟩) ← binaryExpr fault 0 start
    let ⟨after, _⟩ ← closeParen fault middle
    return (e, ⟨after, by simp only [List.length_cons]; omega⟩)
  | .function name :: rest => do
    let ⟨start, _⟩ ← advance fault rest
    let ⟨inner, _⟩ ← openParen fault start
    let (arguments, ⟨middle, _⟩) ← argumentList fault inner
    let ⟨after, _⟩ ← closeParen fault middle
    return (.call name arguments, ⟨after, by simp only [List.length_cons]; omega⟩)
  | ts => .error (.unexpected ts.head?)
termination_by (ts.length, 4)

/-- The arguments of a call, up to its closing parenthesis. -/
def argumentList (fault : Option Fault) (ts : List Token) :
    Except Fault (List Expr × AtMost ts) :=
  match ts with
  | .rightParen :: rest => .ok ([], .all (.rightParen :: rest))
  | ts => do
    let (e, ⟨middle, _⟩) ← binaryExpr fault 0 ts
    let (es, ⟨after, _⟩) ← argumentTail fault middle
    return (e :: es, ⟨after, by omega⟩)
termination_by (ts.length, 11 + levels)

def argumentTail (fault : Option Fault) (ts : List Token) :
    Except Fault (List Expr × AtMost ts) :=
  match ts with
  | .comma :: rest => do
    let ⟨start, _⟩ ← advance fault rest
    let (e, ⟨middle, _⟩) ← binaryExpr fault 0 start
    let (es, ⟨after, _⟩) ← argumentTail fault middle
    return (e :: es, ⟨after, by simp only [List.length_cons]; omega⟩)
  | ts => .ok ([], .all ts)
termination_by (ts.length, 0)

end

def parseTokens (input : Tokens) : Except Fault Expr :=
  match input.tokens, input.fault with
  | [], some fault => .error fault
  | ts, fault => do
    let (e, rest) ← binaryExpr fault 0 ts
    match rest.1 with
    | [] => return e
    | t :: _ => .error (.trailing (some t))

def parse (text : String) : Except Fault Expr :=
  parseTokens (lex text)

end Xml.XPath
