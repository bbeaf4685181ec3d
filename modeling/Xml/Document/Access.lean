import Xml.Document.Markup
import Xml.Document.Namespaces
import Xml.Document.Order

/-!
# Reading nodes

What can be asked of a node through its reference. A reference to a node of another document is
answered as if there were no such node.
-/

namespace Xml.NodeRef

/-- The node behind a reference, if it belongs to the document. -/
def node? (r : NodeRef) (doc : Document) : Option Node :=
  if r.doc == doc.id then doc.get? r.id else none

def isIn (r : NodeRef) (doc : Document) : Bool :=
  (r.node? doc).isSome

/-- The name of a node; kinds without names have fixed ones. -/
def name? (r : NodeRef) (doc : Document) : Option String :=
  (r.node? doc).map fun node =>
    match node.kind with
    | .text => "text"
    | .cdata => "#cdata-section"
    | .comment => "comment"
    | .document => "document"
    | _ => node.name

def parent? (r : NodeRef) (doc : Document) : Option NodeRef :=
  ((r.node? doc).bind (·.parent)).bind doc.ref?

def firstChild? (r : NodeRef) (doc : Document) : Option NodeRef :=
  ((r.node? doc).bind (·.firstChild)).bind doc.ref?

def successor? (node : NodeId) (nodes : List NodeId) : Option NodeId :=
  (nodes.dropWhile (· != node))[1]?

def fellowAttributes (doc : Document) (attr : Node) : List NodeId :=
  match attr.parent with
  | some owner => doc.attributesOf owner
  | none => []

/-- The next sibling; for an attribute the next one of its element. -/
def nextSibling? (r : NodeRef) (doc : Document) : Option NodeRef :=
  match r.node? doc with
  | some node =>
    if node.kind == .attribute then
      (successor? r.id (fellowAttributes doc node)).bind doc.ref?
    else node.nextSibling.bind doc.ref?
  | none => none

/-- The sibling before; for an attribute the one before it on its element. -/
def previousSibling? (r : NodeRef) (doc : Document) : Option NodeRef :=
  match r.node? doc with
  | some node =>
    if node.kind == .attribute then
      (successor? r.id (fellowAttributes doc node).reverse).bind doc.ref?
    else node.prevSibling.bind doc.ref?
  | none => none

def children (r : NodeRef) (doc : Document) : List NodeRef :=
  if r.isIn doc then (doc.children r.id).filterMap doc.ref? else []

def content (r : NodeRef) (doc : Document) : String :=
  if r.isIn doc then doc.textContent r.id else ""

def kindCode? (r : NodeRef) (doc : Document) : Option Nat :=
  (r.node? doc).map (·.kind.code)

def isBlank (r : NodeRef) (doc : Document) : Bool :=
  match r.node? doc with
  | some node => node.kind == .text && Text.allBlank node.content.toList
  | none => false

def markup (r : NodeRef) (doc : Document) : String :=
  if r.isIn doc then doc.markupOf r.id else ""

def internalSubset? (r : NodeRef) (doc : Document) : Option String :=
  if r.isIn doc then doc.doctype.bind (·.subset) else none

/-- The attributes of an element, none for other nodes. -/
def attributeIds (r : NodeRef) (doc : Document) : List NodeId :=
  match r.node? doc with
  | some node => if node.kind == .element then node.attributes else []
  | none => []

def attribute? (r : NodeRef) (doc : Document) (name : String) : Option NodeRef :=
  ((r.attributeIds doc).find? fun a => doc.nameOf a == name).bind doc.ref?

def hasAttribute (r : NodeRef) (doc : Document) (name : String) : Bool :=
  (r.attribute? doc name).isSome

def attributes (r : NodeRef) (doc : Document) : List NodeRef :=
  (r.attributeIds doc).filterMap doc.ref?

/-- A table with one value more. A later value of a key takes the place of the earlier one. -/
def insertPair (table : List (String × String)) (key value : String) : List (String × String) :=
  table.filter (·.1 != key) ++ [(key, value)]

def attributeTable (r : NodeRef) (doc : Document) : List (String × String) :=
  (r.attributeIds doc).foldl (fun table a =>
    match doc.get? a with
    | some node => insertPair table node.name node.content
    | none => table) []

/-- The namespaces in scope at an element, under the names of the attributes that would declare
them. -/
def namespaceTable (r : NodeRef) (doc : Document) : List (String × String) :=
  match r.node? doc with
  | some node =>
    if node.kind == .element then
      (doc.inScope r.id).map fun d =>
        (if d.nsPrefix.isEmpty then "xmlns" else "xmlns:" ++ d.nsPrefix, d.uri)
    else []
  | none => []

end Xml.NodeRef
