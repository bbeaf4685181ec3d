import Xml.Number.Format
import Xml.Text.Escape

/-!
# Tokens of expressions

The words of the expression language, and how messages show them.
-/

namespace Xml.XPath

/-- The kinds of nodes a test can name with parentheses. -/
inductive NodeType where
  | node
  | text
  | comment
  | instruction
  deriving DecidableEq, Repr

namespace NodeType

def name : NodeType → String
  | .node => "node"
  | .text => "text"
  | .comment => "comment"
  | .instruction => "processing-instruction"

def ofName? : String → Option NodeType
  | "node" => some .node
  | "text" => some .text
  | "comment" => some .comment
  | "processing-instruction" => some .instruction
  | _ => none

end NodeType

inductive Token where
  | slash
  | doubleSlash
  | dot
  | doubleDot
  | at
  | pipe
  | plus
  | minus
  /-- An asterisk that tests for any name. -/
  | star
  /-- An asterisk between two operands. -/
  | multiply
  | eq
  | notEq
  | lt
  | ltEq
  | gt
  | gtEq
  | and
  | or
  | mod
  | div
  | leftParen
  | rightParen
  | leftBracket
  | rightBracket
  | doubleColon
  | comma
  | dollar
  | number (value : Float)
  | string (text : String)
  /-- A name without a colon. -/
  | name (text : String)
  /-- A name with a prefix. -/
  | qname (nsPrefix localPart : String)
  /-- Any name with a prefix. -/
  | anyWithPrefix (nsPrefix : String)
  /-- The name of a kind of node before a parenthesis. -/
  | nodeType (type : NodeType)
  /-- Any other name before a parenthesis. -/
  | function (name : String)
  /-- A name before two colons. -/
  | axis (name : String)
  deriving Repr

namespace Token

/-- An asterisk or an operator name after such a token stands between two operands. -/
def endsOperand : Token → Bool
  | .number _ | .string _ | .name _ | .qname _ _ | .anyWithPrefix _ | .star | .rightParen
  | .rightBracket | .dot | .doubleDot => true
  | _ => false

def startsStep : Token → Bool
  | .name _ | .qname _ _ | .anyWithPrefix _ | .star | .at | .axis _ | .dot | .doubleDot
  | .nodeType _ => true
  | _ => false

def label : Token → String
  | .slash => "Slash"
  | .doubleSlash => "DoubleSlash"
  | .dot => "Dot"
  | .doubleDot => "DoubleDot"
  | .at => "At"
  | .pipe => "Pipe"
  | .plus => "Plus"
  | .minus => "Minus"
  | .star => "Star"
  | .multiply => "Multiply"
  | .eq => "Eq"
  | .notEq => "NotEq"
  | .lt => "Lt"
  | .ltEq => "LtEq"
  | .gt => "Gt"
  | .gtEq => "GtEq"
  | .and => "And"
  | .or => "Or"
  | .mod => "Mod"
  | .div => "Div"
  | .leftParen => "LeftParen"
  | .rightParen => "RightParen"
  | .leftBracket => "LeftBracket"
  | .rightBracket => "RightBracket"
  | .doubleColon => "DoubleColon"
  | .comma => "Comma"
  | .dollar => "Dollar"
  | .number _ => "Number"
  | .string _ => "String"
  | .name _ => "Name"
  | .qname _ _ | .anyWithPrefix _ => "NameTest"
  | .nodeType _ => "NodeType"
  | .function _ => "FunctionName"
  | .axis _ => "Axis"

def text? : Token → Option String
  | .string text | .name text | .function text | .axis text => some text
  | .qname p l => some (p ++ ":" ++ l)
  | .anyWithPrefix p => some (p ++ ":*")
  | .nodeType type => some type.name
  | _ => none

def describe (t : Token) : String :=
  match t, t.text? with
  | .number value, _ => t.label ++ "(" ++ Number.literal value ++ ")"
  | _, some text => t.label ++ "(" ++ Text.quoted text ++ ")"
  | _, none => t.label

/-- How messages show the next token, or that there is none. -/
def describeNext : Option Token → String
  | some t => t.describe
  | none => "Eof"

end Token

end Xml.XPath
