import Xml.Document.Order
import Xml.Number.Format
import Xml.Number.Read
import Xml.XPath.Fault

/-!
# Values

The four types of values an expression can have, and the conversions between them. A set of nodes
is converted through the text of its first node.
-/

namespace Xml.XPath

inductive Value where
  /-- Nodes in document order, each once. -/
  | nodeSet (nodes : List NodeId)
  | boolean (value : Bool)
  | number (value : Float)
  | string (text : String)
  deriving Repr

namespace Value

/-- The type of a value. -/
def type : Value → ValueType
  | .nodeSet _ => .nodeSet
  | .boolean _ => .boolean
  | .number _ => .number
  | .string _ => .string

def toBoolean : Value → Bool
  | .nodeSet nodes => !nodes.isEmpty
  | .boolean value => value
  | .number value => value != 0.0 && !value.isNaN
  | .string text => !text.isEmpty

def toText (doc : Document) : Value → String
  | .nodeSet (node :: _) => doc.textContent node
  | .nodeSet [] => ""
  | .boolean value => if value then "true" else "false"
  | .number value => Number.text value
  | .string text => text

def numberOfBoolean (value : Bool) : Float :=
  if value then 1.0 else 0.0

def toNumber (doc : Document) : Value → Float
  | .number value => value
  | .boolean value => numberOfBoolean value
  | value => Number.ofText (value.toText doc)

def nodes? : Value → Option (List NodeId)
  | .nodeSet nodes => some nodes
  | _ => none

/-- The nodes of a set, and what to say of a value that is none. -/
def nodes (value : Value) (fault : ValueType → Fault) : Except Fault (List NodeId) :=
  match value with
  | .nodeSet nodes => .ok nodes
  | value => .error (fault value.type)

end Value

end Xml.XPath
