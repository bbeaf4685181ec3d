import Xml.Document.Edit

/-!
# Node sets

An ordered collection of nodes of one document. It keeps the order of insertion and allows
repetitions; union, intersection and difference compare nodes by identity.
-/

namespace Xml

/-- Nodes of one document, in order. -/
structure NodeSet where
  doc : Nat
  nodes : List NodeRef
  deriving DecidableEq, Repr

namespace NodeSet

/-- The nodes with these numbers, those left out that do not exist. -/
def ofIds (doc : Document) (ids : List NodeId) : NodeSet :=
  ⟨doc.id, ids.filterMap doc.ref?⟩

/-- The number of members, repetitions counted. -/
def size (s : NodeSet) : Nat :=
  s.nodes.length

def push (s : NodeSet) (node : NodeRef) : Except EditError NodeSet :=
  if node.doc == s.doc then .ok { s with nodes := s.nodes ++ [node] } else .error .foreignNode

/-- The position an index means: a negative one counts from the end. -/
def position? (s : NodeSet) (index : Int) : Option Nat :=
  let position := if index < 0 then s.size + index else index
  if 0 ≤ position ∧ position < s.size then some position.toNat else none

def at? (s : NodeSet) (index : Int) : Option NodeRef :=
  (s.position? index).bind (s.nodes[·]?)

/-- At most `count` members from an index on; none if the index is out of range. -/
def slice? (s : NodeSet) (index : Int) (count : Nat) : Option NodeSet :=
  (s.position? index).map fun start => { s with nodes := (s.nodes.drop start).take count }

def includes (s : NodeSet) (node : NodeRef) : Bool :=
  s.nodes.contains node

/-- Removes the first occurrence of a node and answers with it. -/
def delete (s : NodeSet) (node : NodeRef) : Option NodeRef × NodeSet :=
  if s.includes node then (some node, { s with nodes := s.nodes.erase node }) else (none, s)

/-- Appends the members of a list that are not there yet, each once. -/
def addNew (nodes : List NodeRef) : List NodeRef → List NodeRef
  | [] => nodes
  | node :: rest =>
    if nodes.contains node then addNew nodes rest else addNew (nodes ++ [node]) rest

/-- The members that pass a test, each once, in order of first occurrence. -/
def filterUnique (s : NodeSet) (keep : NodeRef → Bool) : NodeSet :=
  { s with nodes := addNew [] (s.nodes.filter keep) }

def combine (s t : NodeSet) (f : NodeSet) : Except EditError NodeSet :=
  if s.doc == t.doc then .ok f else .error .foreignSet

/-- The members of the first set, then those of the second that are not in it. -/
def union (s t : NodeSet) : Except EditError NodeSet :=
  s.combine t { s with nodes := addNew s.nodes t.nodes }

/-- The members of the first set that are also in the second, each once. -/
def intersection (s t : NodeSet) : Except EditError NodeSet :=
  s.combine t (s.filterUnique t.includes)

/-- The members of the first set that are not in the second, each once. -/
def difference (s t : NodeSet) : Except EditError NodeSet :=
  s.combine t (s.filterUnique fun node => !t.includes node)

/-- Detaches every member in order, up to the first that is refused. -/
def unlinkAll (s : NodeSet) : Document.Edit Unit :=
  s.nodes.forM Document.unlink

end NodeSet

end Xml
