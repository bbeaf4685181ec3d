import Xml.Document.Node
import Xml.Namespace.Scopes
import Xml.Problem
import Xml.Text.Chars

/-!
# Documents

A document is a table of nodes. Entry 0 is the document node; entries are only ever added, so a
number stays good for the life of the document. A node that was taken out of the tree stays in the
table as the root of a detached tree and can be put back.

`NodeRef` is a node seen from outside: it says which document the number belongs to, and what kind
of node it is.
-/

namespace Xml

/-- A node of one document, seen from outside. -/
structure NodeRef where
  doc : Nat
  id : NodeId
  kind : NodeKind
  deriving DecidableEq, Repr

/-- The class a reference is shown under. Document nodes and instructions have none of their own. -/
def NodeRef.className (r : NodeRef) : String :=
  match r.kind with
  | .element => "Element"
  | .text => "Text"
  | .cdata => "CDATA"
  | .comment => "Comment"
  | .doctype => "DocumentType"
  | .entityReference => "EntityReference"
  | .attribute => "Attribute"
  | .document | .instruction => "Node"

structure Document where
  /-- Tells the documents of a program apart. -/
  id : Nat
  nodes : Array Node
  doctype : Option Doctype := none
  /-- What was wrong with the text the document was read from, when it was read all the same. -/
  errors : List ParseError := []
  /-- Links were changed since the document was read, so that the order of the numbers need not be
  document order. -/
  edited : Bool := false
  /-- Every name, prefix and namespace the document has met, each once. Nothing is forgotten when a
  node is renamed. -/
  vocabulary : List String := ["xml", Namespace.xmlUri]
  /-- The nodes attached as siblings so far, latest last, if somebody watches. -/
  watch : Option (List NodeRef) := none
  deriving Repr

namespace Document

/-- The number of the document node. -/
def root : NodeId := 0

def empty (id : Nat) : Document :=
  { id, nodes := #[{ kind := .document }] }

/-- The number of nodes, detached ones included. -/
def size (doc : Document) : Nat :=
  doc.nodes.size

def get? (doc : Document) (id : NodeId) : Option Node :=
  doc.nodes[id]?

def kindOf (doc : Document) (id : NodeId) : Option NodeKind :=
  (doc.get? id).map (·.kind)

/-- The qualified name of a node, empty if it has none. -/
def nameOf (doc : Document) (id : NodeId) : String :=
  ((doc.get? id).map (·.name)).getD ""

def namespaceOf (doc : Document) (id : NodeId) : Option String :=
  match doc.get? id with
  | some node => if node.namespaceUri.isEmpty then none else some node.namespaceUri
  | none => none

/-- The node above a node; for an attribute the element that owns it. -/
def parentOf (doc : Document) (id : NodeId) : Option NodeId :=
  (doc.get? id).bind (·.parent)

def attributesOf (doc : Document) (id : NodeId) : List NodeId :=
  ((doc.get? id).map (·.attributes)).getD []

def isElement (doc : Document) (id : NodeId) : Bool :=
  doc.kindOf id == some .element

def isAttribute (doc : Document) (id : NodeId) : Bool :=
  doc.kindOf id == some .attribute

def ref? (doc : Document) (id : NodeId) : Option NodeRef :=
  (doc.get? id).map fun node => ⟨doc.id, id, node.kind⟩

def documentNode (doc : Document) : NodeRef :=
  ⟨doc.id, root, .document⟩

def update (doc : Document) (id : NodeId) (f : Node → Node) : Document :=
  { doc with nodes := doc.nodes.modify id f }

/-- The document has met a word. The empty word needs no meeting. -/
def knows (doc : Document) (word : String) : Bool :=
  word.isEmpty || doc.vocabulary.contains word

def learn (doc : Document) (word : String) : Document :=
  if doc.knows word then doc else { doc with vocabulary := word :: doc.vocabulary }

def learnDeclaration (doc : Document) (d : NamespaceDecl) : Document :=
  (doc.learn d.nsPrefix).learn d.uri

def learnNode (doc : Document) (node : Node) : Document :=
  node.declarations.foldl learnDeclaration (doc.learn node.name)

/-- Adds an entry to the table. The new node is linked to nothing. -/
def alloc (doc : Document) (node : Node) : NodeId × Document :=
  let doc := doc.learnNode node
  (doc.nodes.size, { doc with nodes := doc.nodes.push node })

theorem get?_update (doc : Document) (id : NodeId) (f : Node → Node) (other : NodeId) :
    (doc.update id f).get? other =
      if id = other then (doc.get? other).map f else doc.get? other := by
  simp only [update, get?, Array.getElem?_modify]

theorem size_update (doc : Document) (id : NodeId) (f : Node → Node) :
    (doc.update id f).size = doc.size := by
  simp [update, size]

/-- Learning changes the vocabulary and nothing else. -/
theorem exists_learn_eq (doc : Document) (word : String) :
    ∃ words, doc.learn word = { doc with vocabulary := words } := by
  unfold learn
  split
  · exact ⟨doc.vocabulary, rfl⟩
  · exact ⟨word :: doc.vocabulary, rfl⟩

theorem exists_learnDeclaration_eq (doc : Document) (d : NamespaceDecl) :
    ∃ words, doc.learnDeclaration d = { doc with vocabulary := words } := by
  obtain ⟨_, hprefix⟩ := exists_learn_eq doc d.nsPrefix
  obtain ⟨words, huri⟩ := exists_learn_eq (doc.learn d.nsPrefix) d.uri
  exact ⟨words, by rw [learnDeclaration, huri, hprefix]⟩

theorem exists_learnNode_eq (doc : Document) (node : Node) :
    ∃ words, doc.learnNode node = { doc with vocabulary := words } := by
  refine List.foldlRecOn (motive := fun e => ∃ words, e = { doc with vocabulary := words }) _ _
    (exists_learn_eq doc node.name) ?_
  rintro e ⟨_, rfl⟩ d -
  exact exists_learnDeclaration_eq _ d

theorem nodes_learn (doc : Document) (word : String) : (doc.learn word).nodes = doc.nodes := by
  obtain ⟨_, h⟩ := exists_learn_eq doc word
  rw [h]

theorem nodes_learnDeclaration (doc : Document) (d : NamespaceDecl) :
    (doc.learnDeclaration d).nodes = doc.nodes := by
  obtain ⟨_, h⟩ := exists_learnDeclaration_eq doc d
  rw [h]

theorem nodes_learnNode (doc : Document) (node : Node) :
    (doc.learnNode node).nodes = doc.nodes := by
  obtain ⟨_, h⟩ := exists_learnNode_eq doc node
  rw [h]

theorem exists_alloc_eq (doc : Document) (node : Node) :
    ∃ words, (doc.alloc node).2 =
      { doc with nodes := doc.nodes.push node, vocabulary := words } := by
  obtain ⟨words, h⟩ := exists_learnNode_eq doc node
  exact ⟨words, by rw [alloc, h]⟩

theorem alloc_fst (doc : Document) (node : Node) : (doc.alloc node).1 = doc.size := by
  simp [alloc, size, nodes_learnNode]

theorem get?_alloc (doc : Document) (node : Node) (id : NodeId) :
    (doc.alloc node).2.get? id = if id = doc.size then some node else doc.get? id := by
  simp only [alloc, get?, size, nodes_learnNode]
  exact Array.getElem?_push

end Document

end Xml
