import Xml.Document.Walk

/-!
# Document order

The tree of the document node comes first, parents before children, each node followed by its
attributes; the detached trees follow in the order of the numbers of their roots. In a document
that was read and not edited since, this is the order of the numbers.
-/

namespace Xml.Document

/-- The nodes of a subtree in document order, each followed by its attributes. -/
def subtreeOrder (doc : Document) (id : NodeId) : List NodeId :=
  (doc.subtree id).flatMap fun d => d :: doc.attributesOf d

def detachedRoots (doc : Document) : List NodeId :=
  (List.range doc.size).filter fun id => id != root && (doc.parentOf id).isNone

def order (doc : Document) : List NodeId :=
  (root :: doc.detachedRoots).flatMap doc.subtreeOrder

/-- Writes down the position of each node, a later one over an earlier one. -/
def rankFrom : List NodeId → Nat → Array Nat → Array Nat
  | [], _, ranks => ranks
  | id :: rest, next, ranks => rankFrom rest (next + 1) (ranks.setIfInBounds id next)

/-- The position in document order of each node of the table. -/
def ranks (doc : Document) : Array Nat :=
  let order := doc.order
  rankFrom order 0 (Array.replicate doc.size order.length)

/-- Puts nodes in document order and drops repetitions. Numbers outside the table come last. -/
def sort (doc : Document) (ids : List NodeId) : List NodeId :=
  if doc.edited then
    let ranks := doc.ranks
    let last := doc.order.length
    let rank := fun id => ranks.getD id last
    (ids.mergeSort fun a b => rank a ≤ rank b).eraseReps
  else
    (ids.mergeSort fun a b => a ≤ b).eraseReps

end Xml.Document
