import Xml.Document.Basic

/-!
# Walks through a document

Children follow the sibling links from the first child, ancestors follow the parent links, and the
walk over what is below a node goes from each node to its first child or else to the next sibling of
the innermost node around that has one. Every walk carries the size of the table as its bound, since
a walk without repetitions is never longer than the table. Sibling links do not lead back to a node
already visited, and parent links only where the document node was put below another node.
-/

namespace Xml.Document

/-- The nodes met by following a link, at most `bound` of them. -/
def chain (next : NodeId → Option NodeId) : Nat → Option NodeId → List NodeId
  | 0, _ => []
  | _, none => []
  | bound + 1, some id => id :: chain next bound (next id)

/-- The siblings from a node on, itself included. -/
def siblingsFrom (doc : Document) (id : Option NodeId) : List NodeId :=
  chain (fun c => (doc.get? c).bind (·.nextSibling)) doc.size id

/-- The siblings from a node back, itself included, nearest first. -/
def siblingsBack (doc : Document) (id : Option NodeId) : List NodeId :=
  chain (fun c => (doc.get? c).bind (·.prevSibling)) doc.size id

def children (doc : Document) (id : NodeId) : List NodeId :=
  doc.siblingsFrom ((doc.get? id).bind (·.firstChild))

/-- A node and its ancestors, innermost first. -/
def lineage (doc : Document) (id : NodeId) : List NodeId :=
  chain doc.parentOf doc.size (some id)

/-- The next sibling of a node, or else of the innermost of its ancestors below `top` that has
one. -/
def behind? (doc : Document) (top id : NodeId) : Option NodeId :=
  ((doc.lineage id).takeWhile (· != top)).findSome? fun a => (doc.get? a).bind (·.nextSibling)

/-- Where the walk over what is below `top` goes from a node: down, or else on behind it. -/
def nextBelow? (doc : Document) (top id : NodeId) : Option NodeId :=
  ((doc.get? id).bind (·.firstChild)).or (doc.behind? top id)

/-- The nodes of a walk, if it is at an end after at most `bound` of them. -/
def walk? (next : NodeId → Option NodeId) : Nat → Option NodeId → Option (List NodeId)
  | _, none => some []
  | 0, some _ => none
  | bound + 1, some id => (walk? next bound (next id)).map (id :: ·)

/-- The walk over what is below a node, from its first child on. There is no result if it never
ends, which is so where something below the node stands above itself. -/
def descendants? (doc : Document) (id : NodeId) : Option (List NodeId) :=
  walk? (doc.nextBelow? id) doc.size ((doc.get? id).bind (·.firstChild))

/-- A node and what is below it, parents first, down to a depth. -/
def subtreeTo (doc : Document) : Nat → NodeId → List NodeId
  | 0, _ => []
  | depth + 1, id => id :: (doc.children id).flatMap (doc.subtreeTo depth)

/-- What is below a node, parents first; no attributes. It is what the walk comes to. Where the walk
does not end, it is what the links tell down to the depth that the table bounds. -/
def descendants (doc : Document) (id : NodeId) : List NodeId :=
  (doc.descendants? id).getD ((doc.children id).flatMap (doc.subtreeTo doc.size))

/-- A node and what is below it, parents first; no attributes. -/
def subtree (doc : Document) (id : NodeId) : List NodeId :=
  id :: doc.descendants id

/-- The node `ancestor` is `id` or stands above it. The way up is given up after as many nodes as the
table has, so on a cycle of parents, where it has no end, any other node is found not to stand above
it. -/
def isAncestorOrSelf (doc : Document) (ancestor id : NodeId) : Bool :=
  (doc.lineage id).contains ancestor

def rootElement? (doc : Document) : Option NodeId :=
  (doc.children root).find? doc.isElement

/-- The text of a node: its own content, or that of the character data below it. -/
def textContent (doc : Document) (id : NodeId) : String :=
  match doc.get? id with
  | none => ""
  | some node =>
    if node.kind.holdsText || node.kind == .entityReference then node.content
    else if node.kind == .doctype then ""
    else
      String.join <| (doc.descendants id).filterMap fun d =>
        match doc.get? d with
        | some n => if n.kind.isCharacterData then some n.content else none
        | none => none

def findAttribute? (doc : Document) (id : NodeId) (name : String) : Option NodeId :=
  (doc.attributesOf id).find? fun a => doc.nameOf a == name

def attributeValue? (doc : Document) (id : NodeId) (name : String) : Option String :=
  ((doc.findAttribute? id name).bind doc.get?).map (·.content)

end Xml.Document
