import Xml.Document.Basic
import Xml.Encoding.Utf8

/-!
# Terms

The values exchanged with a program that uses the library from outside: atoms, numbers, binaries,
lists, tuples, maps, and resources that stand for documents, nodes and sets of nodes.
-/

namespace Xml.Host

/-- Something the library keeps for its user. -/
inductive Resource where
  | document (id : Nat)
  | node (ref : NodeRef)
  | nodeSet (id : Nat)
  deriving DecidableEq, Repr

inductive Term where
  | atom (name : String)
  | integer (value : Int)
  | float (value : Float)
  | binary (bytes : List UInt8)
  | list (items : List Term)
  | tuple (items : List Term)
  | map (entries : List (Term × Term))
  | resource (resource : Resource)
  deriving Repr

namespace Term

/-! ## Making terms -/

def nil : Term := .atom "nil"

def bool (value : Bool) : Term :=
  .atom (if value then "true" else "false")

def text (s : String) : Term :=
  .binary s.toUTF8.toList

def optional {α : Type} (f : α → Term) : Option α → Term
  | some a => f a
  | none => nil

def nodeClass (kind : NodeKind) : String :=
  match kind with
  | .element => "element"
  | .text => "text"
  | .cdata => "cdata"
  | .comment => "comment"
  | .doctype => "document_type"
  | .entityReference => "entity_reference"
  | .attribute => "attribute"
  | .document | .instruction => "node"

def node (ref : NodeRef) : Term :=
  .tuple [.atom (nodeClass ref.kind), .resource (.node ref)]

def nodes (refs : List NodeRef) : Term :=
  .list (refs.map node)

/-- A key comes before another in the order of code points. -/
def keyLE (a b : String × String) : Bool :=
  a.1 ≤ b.1

def textMap (entries : List (String × String)) : Term :=
  .map ((entries.mergeSort keyLE).map fun (key, value) => (text key, text value))

/-! ## Taking terms apart -/

def binary? : Term → Option (List UInt8)
  | .binary bytes => some bytes
  | _ => none

def text? : Term → Option String
  | .binary bytes =>
    match Encoding.decodeUtf8 bytes with
    | .ok chars => some (String.ofList chars)
    | .error _ => none
  | _ => none

def bool? : Term → Option Bool
  | .atom "true" => some true
  | .atom "false" => some false
  | _ => none

def texts? : Term → Option (List String)
  | .list items => items.mapM text?
  | _ => none

def signed? : Term → Option Int
  | .integer value =>
    if -0x8000000000000000 ≤ value ∧ value < 0x8000000000000000 then some value else none
  | _ => none

def unsigned? : Term → Option Nat
  | .integer value => if 0 ≤ value ∧ value < 0x10000000000000000 then some value.toNat else none
  | _ => none

def pair? : Term → Option (Term × Term)
  | .tuple [a, b] => some (a, b)
  | _ => none

def pairs? : Term → Option (List (Term × Term))
  | .map entries => some entries
  | .list items => items.mapM pair?
  | _ => none

def document? : Term → Option Nat
  | .resource (.document id) => some id
  | _ => none

def nodeSet? : Term → Option Nat
  | .resource (.nodeSet id) => some id
  | _ => none

def node? : Term → Option NodeRef
  | .resource (.node ref) => some ref
  | .tuple [.atom _, .resource (.node ref)] => some ref
  | _ => none

end Term

end Xml.Host
