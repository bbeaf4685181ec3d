/-!
# Nodes

A node of a document as the node table holds it: its kind, its text fields and its links to other
nodes of the same table. Links are numbers of nodes, the position in the table.

The empty string stands for "none" in three places: a node without a name, a name without a
namespace, and the prefix of the default namespace.
-/

namespace Xml

/-- The number of a node: its position in the node table. -/
abbrev NodeId := Nat

inductive NodeKind where
  | document
  | element
  | attribute
  | text
  | cdata
  /-- A reference to an entity that was left in place. -/
  | entityReference
  | instruction
  | comment
  | doctype
  deriving DecidableEq, Repr

namespace NodeKind

/-- The number the tree interface gives a kind. -/
def code : NodeKind → Nat
  | .element => 1
  | .attribute => 2
  | .text => 3
  | .cdata => 4
  | .entityReference => 5
  | .instruction => 7
  | .comment => 8
  | .document => 9
  | .doctype => 14

def label : NodeKind → String
  | .document => "Document"
  | .element => "Element"
  | .attribute => "Attribute"
  | .text => "Text"
  | .cdata => "CData"
  | .entityReference => "EntityReference"
  | .instruction => "ProcessingInstruction"
  | .comment => "Comment"
  | .doctype => "DocumentType"

/-- The text of such a node is its own content and not that of its descendants. -/
def holdsText : NodeKind → Bool
  | .text | .cdata | .comment | .instruction | .attribute => true
  | _ => false

/-- The content of such a node is part of the text of the elements around it. -/
def isCharacterData : NodeKind → Bool
  | .text | .cdata | .entityReference => true
  | _ => false

end NodeKind

/-- A declaration of a namespace on an element. -/
structure NamespaceDecl where
  nsPrefix : String
  uri : String
  deriving DecidableEq, Repr

/-- An entry of the node table. -/
structure Node where
  kind : NodeKind
  name : String := ""
  namespaceUri : String := ""
  /-- Text, comment, data of an instruction, value of an attribute or replacement of an entity. -/
  content : String := ""
  /-- The owning element, for an attribute. -/
  parent : Option NodeId := none
  firstChild : Option NodeId := none
  lastChild : Option NodeId := none
  prevSibling : Option NodeId := none
  nextSibling : Option NodeId := none
  attributes : List NodeId := []
  declarations : List NamespaceDecl := []
  deriving DecidableEq, Repr

end Xml
