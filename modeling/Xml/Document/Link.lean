import Xml.Document.Walk

/-!
# Linking nodes

The primitive changes of the tree. They only relink: whether a change is allowed is for the caller
to ask, see `Xml.Document.Edit`.
-/

namespace Xml.Document

def touch (doc : Document) : Document :=
  { doc with edited := true }

def appendChild (doc : Document) (parent child : NodeId) : Document :=
  let last := (doc.get? parent).bind (·.lastChild)
  let doc := doc.update child fun n =>
    { n with parent := some parent, prevSibling := last, nextSibling := none }
  let doc :=
    match last with
    | some l => doc.update l fun n => { n with nextSibling := some child }
    | none => doc.update parent fun n => { n with firstChild := some child }
  (doc.update parent fun n => { n with lastChild := some child }).touch

def insertBefore (doc : Document) (reference id : NodeId) : Document :=
  match doc.parentOf reference with
  | none => doc
  | some parent =>
    let prev := (doc.get? reference).bind (·.prevSibling)
    let doc := doc.update id fun n =>
      { n with parent := some parent, prevSibling := prev, nextSibling := some reference }
    let doc := doc.update reference fun n => { n with prevSibling := some id }
    (match prev with
    | some p => doc.update p fun n => { n with nextSibling := some id }
    | none => doc.update parent fun n => { n with firstChild := some id }).touch

def insertAfter (doc : Document) (reference id : NodeId) : Document :=
  match doc.parentOf reference with
  | none => doc
  | some parent =>
    let next := (doc.get? reference).bind (·.nextSibling)
    let doc := doc.update id fun n =>
      { n with parent := some parent, prevSibling := some reference, nextSibling := next }
    let doc := doc.update reference fun n => { n with nextSibling := some id }
    (match next with
    | some f => doc.update f fun n => { n with prevSibling := some id }
    | none => doc.update parent fun n => { n with lastChild := some id }).touch

/-- Closes the gap a child leaves between its neighbours. -/
def closeGap (doc : Document) (parent : NodeId) (prev next : Option NodeId) : Document :=
  let doc :=
    match prev with
    | some p => doc.update p fun n => { n with nextSibling := next }
    | none => doc.update parent fun n => { n with firstChild := next }
  match next with
  | some f => doc.update f fun n => { n with prevSibling := prev }
  | none => doc.update parent fun n => { n with lastChild := prev }

/-- Takes a node out from under its parent, with all that is below it. -/
def detach (doc : Document) (id : NodeId) : Document :=
  match doc.get? id with
  | none => doc
  | some node =>
    match node.parent with
    | none => doc
    | some parent =>
      let doc :=
        if node.kind == .attribute then
          doc.update parent fun n => { n with attributes := n.attributes.filter (· != id) }
        else doc.closeGap parent node.prevSibling node.nextSibling
      (doc.update id fun n =>
        { n with parent := none, prevSibling := none, nextSibling := none }).touch

/-- Puts a detached attribute on an element at a position in its list, or at the end. -/
def insertAttribute (doc : Document) (element : NodeId) (index : Nat) (attr : NodeId) : Document :=
  let doc := doc.update attr fun n => { n with parent := some element }
  (doc.update element fun n =>
    { n with attributes := n.attributes.insertIdx (min index n.attributes.length) attr }).touch

/-- Puts a detached attribute on an element, behind the others. -/
def appendAttribute (doc : Document) (element attr : NodeId) : Document :=
  doc.insertAttribute element (doc.attributesOf element).length attr

/-- Takes out the first child, as long as there is one, so many times at most. -/
def removeFirst (id : NodeId) : Nat → Document → Document
  | 0, doc => doc
  | rounds + 1, doc =>
    match (doc.get? id).bind (·.firstChild) with
    | some child => removeFirst id rounds (doc.detach child)
    | none => doc

/-- Takes out all children. There are no more of them than nodes in the table. -/
def removeChildren (doc : Document) (id : NodeId) : Document :=
  removeFirst id doc.size doc

/-! ## Copies -/

/-- A new node with the name, namespace, content and declarations of another. -/
def copyNode (doc : Document) (id : NodeId) : NodeId × Document :=
  match doc.get? id with
  | none => (id, doc)
  | some n =>
    doc.alloc
      { kind := n.kind, name := n.name, namespaceUri := n.namespaceUri, content := n.content,
        declarations := n.declarations }

def copyWithAttributes (doc : Document) (id : NodeId) : NodeId × Document :=
  let attributes := doc.attributesOf id
  let (copy, doc) := doc.copyNode id
  (copy, attributes.foldl (fun doc attr =>
    let (attrCopy, doc) := doc.copyNode attr
    doc.appendAttribute copy attrCopy) doc)

/-- Copies children under a new parent, in order. The pairs of child and copy are put in front of
those still to be worked off, the last child first. -/
def copyChildren (parent : NodeId) :
    List NodeId → Document → List (NodeId × NodeId) → Document × List (NodeId × NodeId)
  | [], doc, pending => (doc, pending)
  | child :: rest, doc, pending =>
    let (copy, doc) := doc.copyWithAttributes child
    copyChildren parent rest (doc.appendChild parent copy) ((child, copy) :: pending)

/-- Works off pairs of a node and its copy: the children of the first are copied under the second.
Each node of the copied subtree comes up once. The result is `none` if there are pairs left after so
many rounds. -/
def copyPending : Nat → List (NodeId × NodeId) → Document → Option Document
  | _, [], doc => some doc
  | 0, _ :: _, _ => none
  | rounds + 1, (source, copy) :: pending, doc =>
    let (doc, pending) := copyChildren copy (doc.children source) doc pending
    copyPending rounds pending doc

/-- A detached copy of a node with its attributes and all that is below it. A tree has no more nodes
than the document, so only work without an end is cut off, and that not before its rounds are more
than a machine counts. -/
def deepCopy (doc : Document) (id : NodeId) : Option (NodeId × Document) :=
  let (copy, copied) := doc.copyWithAttributes id
  (copyPending (UInt64.size + doc.size) [(id, copy)] copied).map (copy, ·)

end Xml.Document
