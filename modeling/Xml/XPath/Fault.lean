import Xml.XPath.Token

/-!
# Faults of expressions

Everything that can be wrong with an expression, while it is read, while it is made into a program
and while it is evaluated, with the wording of each.
-/

namespace Xml.XPath

inductive ValueType where
  | nodeSet
  | boolean
  | number
  | string
  deriving DecidableEq, Repr

def ValueType.name : ValueType → String
  | .nodeSet => "node-set"
  | .boolean => "boolean"
  | .number => "number"
  | .string => "string"

/-- How many arguments a function takes. -/
structure Arity where
  least : Nat
  most : Option Nat
  deriving DecidableEq, Repr

namespace Arity

def admits (a : Arity) (count : Nat) : Bool :=
  a.least ≤ count && a.most.all (count ≤ ·)

def describe (a : Arity) : String :=
  match a.most with
  | some most =>
    if most = a.least then toString most else toString a.least ++ " to " ++ toString most
  | none => "at least " ++ toString a.least

end Arity

/-- What is wrong with an expression. A missing token is the end of the expression. -/
inductive Fault where
  | bangWithoutEquals
  | loneColon
  | unterminatedString
  | unexpectedChar (c : Char)
  | trailing (found : Option Token)
  | expected (wanted : String) (found : Option Token)
  | unexpected (found : Option Token)
  | expectedTest (found : Option Token)
  | unknownAxis (name : String)
  | variable (name : String)
  | variableWithoutName
  | undefinedPrefix (nsPrefix : String)
  | idFunction
  | unknownFunction (name : String)
  | argumentCount (function : String) (arity : Arity) (count : Nat)
  | argumentNotNodes (function : String)
  | notNodes (type : ValueType)
  | stepOn (type : ValueType)
  | predicateOn (type : ValueType)
  | unionOfOthers
  | stackUnderflow
  | malformedCall (function : String)
  deriving Repr

namespace Fault

/-- A value of another type stands where nodes are needed. -/
def notNodesMessage (type : ValueType) : String :=
  "Expected a node-set, got " ++ type.name

def message : Fault → String
  | .bangWithoutEquals => "Expected '=' after '!'"
  | .loneColon => "Unexpected ':'"
  | .unterminatedString => "Unterminated string literal"
  | .unexpectedChar c => "Unexpected character '" ++ String.singleton c ++ "'"
  | .trailing found => "Unexpected token after expression: " ++ Token.describeNext found
  | .expected wanted found => "Expected " ++ wanted ++ ", got " ++ Token.describeNext found
  | .unexpected found => "Unexpected token: " ++ Token.describeNext found
  | .expectedTest found => "Expected node test, got " ++ Token.describeNext found
  | .unknownAxis name => "Unknown axis: " ++ name
  | .variable name => "Variable references are not supported: $" ++ name
  | .variableWithoutName => "Expected variable name"
  | .undefinedPrefix nsPrefix => "Undefined namespace prefix: " ++ nsPrefix
  | .idFunction => "id() is not supported: documents carry no ID attribute types"
  | .unknownFunction name => "Unknown function: " ++ name
  | .argumentCount function arity count =>
    function ++ "() takes " ++ arity.describe ++ " argument(s), got " ++ toString count
  | .argumentNotNodes function => function ++ "() argument must be a node-set"
  | .notNodes type => notNodesMessage type
  | .stepOn type => "Location step applied to a non-node-set: " ++ notNodesMessage type
  | .predicateOn type => "Predicate applied to a non-node-set: " ++ notNodesMessage type
  | .unionOfOthers => "Union requires two node-sets"
  | .stackUnderflow => "Malformed expression: operand stack underflow"
  | .malformedCall function => "Malformed call to " ++ function ++ "()"

end Fault

end Xml.XPath
