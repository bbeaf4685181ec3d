import Xml.Document.Walk
import Xml.Name
import Xml.XPath.Expr

/-!
# Steps through a document

The nodes of each axis from a node, and the node tests. Forward axes come in document order,
reverse axes nearest first. There are no namespace nodes, so the namespace axis is empty.
-/

namespace Xml.XPath

def siblingsAfter (doc : Document) (id : NodeId) : List NodeId :=
  doc.siblingsFrom ((doc.get? id).bind (·.nextSibling))

def siblingsBefore (doc : Document) (id : NodeId) : List NodeId :=
  doc.siblingsBack ((doc.get? id).bind (·.prevSibling))

/-- What follows a node that is no attribute: the trees of the siblings behind it and behind its
ancestors. -/
def followingTree (doc : Document) (id : NodeId) : List NodeId :=
  (doc.lineage id).flatMap fun a => (siblingsAfter doc a).flatMap doc.subtree

/-- What precedes a node that is no attribute, ancestors left out, nearest first. -/
def precedingTree (doc : Document) (id : NodeId) : List NodeId :=
  (doc.lineage id).flatMap fun a => (siblingsBefore doc a).flatMap fun s => (doc.subtree s).reverse

/-- What follows a node. For an attribute that begins with what is below its element. -/
def followingNodes (doc : Document) (id : NodeId) : List NodeId :=
  if doc.isAttribute id then
    match doc.parentOf id with
    | some owner => doc.descendants owner ++ followingTree doc owner
    | none => []
  else followingTree doc id

/-- What precedes a node, ancestors left out, nearest first. -/
def precedingNodes (doc : Document) (id : NodeId) : List NodeId :=
  if doc.isAttribute id then
    match doc.parentOf id with
    | some owner => precedingTree doc owner
    | none => []
  else precedingTree doc id

def Axis.nodes (axis : Axis) (doc : Document) (id : NodeId) : List NodeId :=
  match axis with
  | .child => doc.children id
  | .descendant => doc.descendants id
  | .descendantOrSelf => doc.subtree id
  | .parent => (doc.parentOf id).toList
  | .ancestor => (doc.lineage id).tail
  | .ancestorOrSelf => doc.lineage id
  | .followingSibling => if doc.isAttribute id then [] else siblingsAfter doc id
  | .precedingSibling => if doc.isAttribute id then [] else siblingsBefore doc id
  | .following => followingNodes doc id
  | .preceding => precedingNodes doc id
  | .self => [id]
  | .attribute => if doc.isElement id then doc.attributesOf id else []
  | .namespace => []

/-- The kind of node that a name on an axis means. -/
def Axis.principal : Axis → NodeKind
  | .attribute => .attribute
  | _ => .element

/-- A node passes a test, where a name means a node of the given kind. -/
def NodeTest.accepts (test : NodeTest) (doc : Document) (principal : NodeKind) (id : NodeId) :
    Bool :=
  match doc.get? id with
  | none => false
  | some n =>
    match test with
    | .any => n.kind == principal
    | .name l => n.kind == principal && (doc.namespaceOf id).isNone && localName n.name == l
    | .qname uri l =>
      n.kind == principal && doc.namespaceOf id == some uri && localName n.name == l
    | .anyIn uri => n.kind == principal && doc.namespaceOf id == some uri
    | .node => true
    | .text => n.kind == .text || n.kind == .cdata
    | .comment => n.kind == .comment
    | .instruction target => n.kind == .instruction && target.all (n.name == ·)

end Xml.XPath
