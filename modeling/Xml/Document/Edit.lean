import Xml.Document.Access
import Xml.Document.Error
import Xml.Document.Link

/-!
# Editing documents

The changes a user of a document can ask for. Each asks its questions before it changes anything,
and each answers with the document, also when it is refused. Only `reparent` asks one of them once
more, of the document from which the node was taken out.

The document node has as children at most one element, comments, instructions and a document type
declaration; an element takes anything.
-/

namespace Xml.Document

/-- A change of a document that may be refused. -/
abbrev Edit := EStateM EditError Document

namespace Edit

/-- Goes on only if a question about the document is answered well. -/
def require {α : Type} (check : Document → Except EditError α) : Edit α := fun doc =>
  match check doc with
  | .ok a => .ok a doc
  | .error e => .error e doc

def change (f : Document → Document) : Edit Unit := fun doc =>
  .ok () (f doc)

def create (kind : NodeKind) (f : Document → NodeId × Document) : Edit NodeRef := fun doc =>
  let (id, doc) := f doc
  .ok ⟨doc.id, id, kind⟩ doc

end Edit

/-! ## Questions -/

/-- The node behind a reference, which must belong to the document. -/
def owned (node : NodeRef) (doc : Document) : Except EditError Node :=
  match node.node? doc with
  | some n => .ok n
  | none => .error .foreignNode

/-- The node above a node, which must have one. -/
def attachedParent (id : NodeId) (doc : Document) : Except EditError NodeId :=
  match doc.parentOf id with
  | some parent => .ok parent
  | none => .error .noParent

/-- Text that would end a comment or an instruction before its end is refused. -/
def checkLeafText (kind : NodeKind) (text : String) : Except EditError Unit :=
  let chars := text.toList
  match kind with
  | .comment =>
    if Text.contains "--".toList chars || chars.getLast? == some '-' then .error .commentText
    else .ok ()
  | .instruction =>
    if Text.contains "?>".toList chars then .error .instructionData else .ok ()
  | _ => .ok ()

def checkPlacement (id parent : NodeId) (doc : Document) : Except EditError Unit :=
  if id == root then .error .documentNodeMoved
  else if doc.isAncestorOrSelf id parent then .error .insideItself
  else
    match doc.kindOf id with
    | none => .error .foreignNode
    | some kind =>
      match doc.kindOf parent, kind with
      | some .element, _ => .ok ()
      | some .document, .element =>
        if doc.rootElement?.isSome then .error .secondRoot else .ok ()
      | some .document, .comment => .ok ()
      | some .document, .instruction => .ok ()
      | parentKind, kind => .error (.misplaced kind parentKind)

/-- Attributes stand only beside attributes. -/
def checkSibling (id other : NodeId) (doc : Document) : Except EditError Unit :=
  if doc.isAttribute id == doc.isAttribute other then .ok () else .error .attributeBesideOther

/-- The node `other` may stand beside `id` under `owner`, or in its place. Only the children of the
document node are restricted. -/
def checkLevel (id owner other : NodeId) (replacing : Bool) (doc : Document) :
    Except EditError Unit :=
  if owner != root then .ok ()
  else
    let rootElement := doc.rootElement?
    let replacesRoot := replacing && rootElement == some id
    match doc.kindOf other with
    | none => .error .foreignNode
    | some .element =>
      if rootElement.isNone || rootElement == some other || replacesRoot then .ok ()
      else .error .secondRoot
    | some .comment => if replacesRoot then .error .rootReplacedByOther else .ok ()
    | some .instruction => if replacesRoot then .error .rootReplacedByOther else .ok ()
    | some kind => .error (.atDocumentLevel kind)

/-! ## Changes -/

/-- Puts a detached node under another as its last child, or on an element as its last attribute;
an attribute of the same name gives way. -/
def placeUnder (id parent : NodeId) (doc : Document) : Document :=
  let doc :=
    if doc.isAttribute id then
      let doc :=
        match doc.findAttribute? parent (doc.nameOf id) with
        | some existing => doc.detach existing
        | none => doc
      doc.appendAttribute parent id
    else doc.appendChild parent id
  doc.resolveSubtree id

def attributeIndex (doc : Document) (owner attr : NodeId) : Nat :=
  let attributes := doc.attributesOf owner
  let index := attributes.idxOf attr
  if index < attributes.length then index else 0

/-- Puts one node in the place of another, which ends up detached. -/
def substitute (id owner other : NodeId) (doc : Document) : Document :=
  let doc := doc.detach other
  let doc :=
    if doc.isAttribute id then
      let index := doc.attributeIndex owner id
      (doc.detach id).insertAttribute owner index other
    else (doc.insertBefore id other).detach id
  doc.resolveSubtree other

/-- The side of a node on which another is put. -/
inductive Side where
  | before
  | after
  deriving DecidableEq, Repr

/-- Tells whoever watches that a node was attached. -/
def noteAttached (id : NodeId) (doc : Document) : Document :=
  match doc.watch, doc.ref? id with
  | some seen, some r => { doc with watch := some (seen ++ [r]) }
  | _, _ => doc

def placeBeside (side : Side) (id owner other : NodeId) (doc : Document) : Document :=
  let doc := doc.detach other
  let doc :=
    if doc.isAttribute id then
      let index := doc.attributeIndex owner id
      doc.insertAttribute owner (if side == .after then index + 1 else index) other
    else if side == .after then doc.insertAfter id other
    else doc.insertBefore id other
  (doc.resolveSubtree other).noteAttached other

/-- Declares a namespace on an element in place of what it declared for the prefix. -/
def declareNamespace (id : NodeId) (nsPrefix uri : String) (doc : Document) : Document :=
  let set := fun declarations : List NamespaceDecl =>
    let index := declarations.findIdx (·.nsPrefix == nsPrefix)
    if index < declarations.length then declarations.set index ⟨nsPrefix, uri⟩
    else declarations ++ [⟨nsPrefix, uri⟩]
  let doc := doc.learnDeclaration ⟨nsPrefix, uri⟩
  (doc.update id fun n => { n with declarations := set n.declarations }).resolveSubtree id

/-- Takes back what an element declares for a prefix. A prefix the document has never met is
declared nowhere, and then no namespace is looked up again. -/
def undeclareNamespace (id : NodeId) (nsPrefix : String) (doc : Document) : Document :=
  if doc.knows nsPrefix then
    (doc.update id fun n =>
      { n with declarations := n.declarations.filter (·.nsPrefix != nsPrefix) }).resolveSubtree id
  else doc

/-- The prefix that an attribute of this name declares, empty for the default namespace. -/
def declaredPrefix? (key : String) : Option String :=
  if key == "xmlns" then some ""
  else
    match QName.ofString key with
    | ⟨some "xmlns", localPart⟩ => some localPart
    | _ => none

/-- Sets the value of an attribute of an element, which is added if it is not there. -/
def putAttribute (id : NodeId) (key value : String) (doc : Document) : Document :=
  match doc.findAttribute? id key with
  | some attr => doc.update attr fun n => { n with content := value }
  | none =>
    let (attr, doc) := doc.alloc { kind := .attribute, name := key, content := value }
    (doc.appendAttribute id attr).resolveNamespace attr

/-- Puts an element under the document node in the place of the one that is there. -/
def installRoot (id : NodeId) (doc : Document) : Document :=
  match doc.rootElement? with
  | some old => (((doc.detach id).insertBefore old id).detach old)
  | none => (doc.detach id).appendChild root id

/-! ## Operations -/

def createElement (name : String) : Edit NodeRef :=
  .create .element fun doc => doc.alloc { kind := .element, name }

def createLeaf (kind : NodeKind) (text : String) : Edit NodeRef :=
  .create kind fun doc => doc.alloc { kind, content := text }

def createText (text : String) : Edit NodeRef :=
  createLeaf .text text

def createCData (text : String) : Edit NodeRef :=
  createLeaf .cdata text

def createComment (text : String) : Edit NodeRef := do
  Edit.require fun _ => checkLeafText .comment text
  createLeaf .comment text

/-- Makes an element the document element; the one before it ends up detached. -/
def setRoot (node : NodeRef) : Edit Unit := do
  Edit.require fun doc => if node.doc == doc.id then .ok () else .error .foreignNode
  Edit.require fun doc => if doc.isElement node.id then .ok () else .error .rootNotElement
  Edit.require fun doc =>
    if doc.rootElement? == some node.id then .error .alreadyRoot else .ok ()
  Edit.change (installRoot node.id)

/-- Renames an element, an attribute, an instruction or a document type declaration. -/
def setName (node : NodeRef) (name : String) : Edit Unit := do
  let n ← Edit.require (owned node)
  let rename := fun doc : Document => (doc.learn name).update node.id fun n => { n with name }
  match n.kind with
  | .element | .attribute => Edit.change fun doc => (rename doc).resolveNamespace node.id
  | .instruction | .doctype => Edit.change rename
  | kind => throw (.rename kind)

/-- Replaces the content of a node. An element loses its children and gets the text as its only
child, none for the empty text. -/
def setContent (node : NodeRef) (text : String) : Edit Unit := do
  let n ← Edit.require (owned node)
  if n.kind.holdsText then
    Edit.require fun _ => checkLeafText n.kind text
    Edit.change fun doc => doc.update node.id fun n => { n with content := text }
  else if n.kind == .element then
    Edit.change fun doc =>
      let doc := doc.removeChildren node.id
      if text.isEmpty then doc
      else
        let (child, doc) := doc.alloc { kind := .text, content := text }
        doc.appendChild node.id child
  else throw (.setContent n.kind)

/-- Sets an attribute of an element, or declares a namespace, and answers with the value. Nothing
happens to other nodes. -/
def setAttribute (node : NodeRef) (key value : String) : Edit String := do
  let n ← Edit.require (owned node)
  if n.kind == .element then
    match declaredPrefix? key with
    | some p => Edit.change (declareNamespace node.id p value)
    | none => Edit.change (putAttribute node.id key value)
  return value

/-- Takes an attribute or a declaration off an element. Nothing happens to other nodes. -/
def removeAttribute (node : NodeRef) (key : String) : Edit Unit := do
  let n ← Edit.require (owned node)
  if n.kind == .element then
    match declaredPrefix? key with
    | some p => Edit.change (undeclareNamespace node.id p)
    | none => Edit.change fun doc =>
      match doc.findAttribute? node.id key with
      | some attr => doc.detach attr
      | none => doc

/-- Puts a detached node under another, if it may stand there. -/
def attachUnder (id parent : NodeId) : Edit Unit := do
  Edit.require (checkPlacement id parent)
  Edit.change (placeUnder id parent)

/-- Puts a detached node under another as its last child. -/
def setParent (node parent : NodeRef) : Edit Unit := do
  let n ← Edit.require (owned node)
  let _ ← Edit.require (owned parent)
  if n.parent.isSome then throw .alreadyAttached
  attachUnder node.id parent.id

/-- Moves a node under another as its last child. -/
def reparent (node parent : NodeRef) : Edit Unit := do
  let _ ← Edit.require (owned node)
  let _ ← Edit.require (owned parent)
  Edit.require (checkPlacement node.id parent.id)
  Edit.change fun doc => doc.detach node.id
  attachUnder node.id parent.id

/-- Puts a node in the place of another, which ends up detached. -/
def replace (node other : NodeRef) : Edit Unit := do
  let _ ← Edit.require (owned node)
  let _ ← Edit.require (owned other)
  if node == other then return ()
  let owner ← Edit.require (attachedParent node.id)
  Edit.require (checkSibling node.id other.id)
  Edit.require (checkLevel node.id owner other.id true)
  Edit.require fun doc =>
    if doc.isAncestorOrSelf other.id owner then .error .replacesDescendant else .ok ()
  Edit.change (substitute node.id owner other.id)

def unlink (node : NodeRef) : Edit Unit := do
  let _ ← Edit.require (owned node)
  let _ ← Edit.require (attachedParent node.id)
  Edit.change fun doc => doc.detach node.id

def addSibling (side : Side) (node other : NodeRef) : Edit Unit := do
  let _ ← Edit.require (owned node)
  let _ ← Edit.require (owned other)
  let owner ← Edit.require (attachedParent node.id)
  Edit.require (checkSibling node.id other.id)
  Edit.require (checkLevel node.id owner other.id false)
  Edit.require fun doc =>
    if doc.isAncestorOrSelf other.id node.id then .error .siblingOfItself else .ok ()
  Edit.change (placeBeside side node.id owner other.id)

/-- A copy of a node with all that is below it. One that does not come to an end counts as
refused. -/
def wholeCopy (id : NodeId) (doc : Document) : Except EditError (NodeId × Document) :=
  match doc.deepCopy id with
  | some copied => .ok copied
  | none => .error .copyWithoutEnd

/-- A detached copy of a node with all that is below it. -/
def duplicate (node : NodeRef) : Edit NodeRef := do
  let n ← Edit.require (owned node)
  if node.id == root then throw .copyOfDocumentNode
  let copied ← Edit.require (wholeCopy node.id)
  Edit.create n.kind fun _ => copied

end Xml.Document
