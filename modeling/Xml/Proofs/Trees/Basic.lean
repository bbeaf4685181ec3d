import Xml.Document.Edit
import Xml.Name
import Xml.Proofs.Links.Basic
import Xml.Proofs.Scan.Grammar

/-!
# The trees of a document

What the links of a document tell, without the numbers of the nodes: `trees` are those below the
document node. They are read with the size of the table as a bound on the depth. Where the links fit
together and do not turn back below a node (`TreeBelow`), that is deep enough
(`TreeBelow.withinDepth`), and a subtree meets every node once (`subtreeTo_nodup`).

`Tree.Canonical` singles out the trees that markup can tell apart: text that is not empty and not
next to text, names that are names, and nothing in which a terminator hides.
-/

namespace Xml

open Text Grammar List

variable {id : NodeId} {depth : Nat}

/-- A node with what is below it. -/
inductive Tree where
  | element (name : String) (declarations : List NamespaceDecl) (attributes : List Attribute)
      (children : List Tree)
  | text (content : String)
  | cdata (content : String)
  | comment (content : String)
  | instruction (target content : String)
  /-- Any other node, and whatever is too deep to be seen. -/
  | other

/-- The tree of a node with these attributes and children. -/
def Node.tree (n : Node) (attributes : List Attribute) (children : List Tree) : Tree :=
  match n.kind with
  | .element => .element n.name n.declarations attributes children
  | .text => .text n.content
  | .cdata => .cdata n.content
  | .comment => .comment n.content
  | .instruction => .instruction n.name n.content
  | .document | .attribute | .entityReference | .doctype => .other

namespace Tree

def isText : Tree → Bool
  | .text _ => true
  | _ => false

def isElement : Tree → Bool
  | .element _ _ _ _ => true
  | _ => false

def isAside : Tree → Bool
  | .comment _ | .instruction _ _ => true
  | _ => false

/-- What a start tag must be like to be read as it was. -/
structure CanonicalTag (name : String) (declarations : List NamespaceDecl)
    (attributes : List Attribute) : Prop where
  isName : IsName name.toList
  prefixes : ∀ d ∈ declarations, d.nsPrefix = "" ∨ IsName d.nsPrefix.toList
  prefixes_nodup : (declarations.map (·.nsPrefix)).Nodup
  uris : ∀ d ∈ declarations, XmlChars d.uri.toList
  names : ∀ a ∈ attributes, IsName a.name.toList ∧ isNamespaceDeclaration a.name = false
  names_nodup : (attributes.map (·.name)).Nodup
  values : ∀ a ∈ attributes, XmlChars a.value.toList

/-- No text is next to another. -/
def Separated (trees : List Tree) : Prop :=
  trees.IsChain fun a b => ¬ (a.isText = true ∧ b.isText = true)

/-- In front of a text stands no text. -/
theorem Separated.isText_eq_false {t : Tree} {trees : List Tree} (h : Separated (t :: trees))
    (hnext : trees.head?.any isText = true) : t.isText = false := by
  cases trees with
  | nil => cases hnext
  | cons next trees =>
    have hapart := (isChain_cons_cons.mp h).1
    rw [head?_cons, Option.any_some] at hnext
    simpa [hnext] using hapart

/-- A tree that its markup tells apart from all others. -/
inductive Canonical : Tree → Prop where
  | element {name : String} {declarations : List NamespaceDecl} {attributes : List Attribute}
      {children : List Tree} (tag : CanonicalTag name declarations attributes)
      (separated : Separated children) (hc : ∀ t ∈ children, Canonical t) :
      Canonical (.element name declarations attributes children)
  | text {content : String} (hne : content ≠ "") (hx : XmlChars content.toList) :
      Canonical (.text content)
  | cdata {content : String} (hx : XmlChars content.toList)
      (he : ¬ "]]>".toList <:+: content.toList) : Canonical (.cdata content)
  | comment {content : String} (hx : XmlChars content.toList)
      (hl : Document.checkLeafText .comment content = .ok ()) : Canonical (.comment content)
  | instruction {target content : String} (hn : IsName target.toList)
      (ht : asciiLower target.toList ≠ "xml".toList)
      (he : ¬ "?>".toList <:+: content.toList) (hs : startsBlank content.toList = false) :
      Canonical (.instruction target content)

/-- Canonical trees with one element among them and nothing else but comments and instructions. -/
structure CanonicalDocument (trees : List Tree) : Prop where
  canonical : ∀ t ∈ trees, t.Canonical
  top : ∀ t ∈ trees, t.isElement = true ∨ t.isAside = true
  root : trees.countP isElement = 1

end Tree

namespace Document

def attributeOf (doc : Document) (id : NodeId) : Attribute :=
  ⟨doc.nameOf id, ((doc.get? id).map (·.content)).getD ""⟩

/-- The tree of a node, down to a depth. -/
def treeTo (doc : Document) : Nat → NodeId → Tree
  | 0, _ => .other
  | depth + 1, id =>
    match doc.get? id with
    | some node =>
      node.tree (node.attributes.map doc.attributeOf) ((doc.children id).map (doc.treeTo depth))
    | none => .other

/-- **The trees of a document.** -/
def trees (doc : Document) : List Tree :=
  (doc.children root).map (doc.treeTo doc.size)

variable {doc : Document}

theorem treeTo_of_get? {node : Node} (h : doc.get? id = some node) (depth : Nat) :
    doc.treeTo (depth + 1) id =
      node.tree (node.attributes.map doc.attributeOf)
        ((doc.children id).map (doc.treeTo depth)) := by
  rw [treeTo, h]

/-! ## Depth -/

/-- Nothing at or below a node stands above itself, so that what is below it is a tree. -/
def TreeBelow (doc : Document) (id : NodeId) : Prop :=
  ∀ x, x = id ∨ doc.Ancestor id x → ¬ doc.Ancestor x x

theorem Acyclic.treeBelow (ha : doc.Acyclic) (id : NodeId) : doc.TreeBelow id :=
  fun x _ => ha x

theorem TreeBelow.irrefl (h : doc.TreeBelow id) : ¬ doc.Ancestor id id :=
  h id (.inl rfl)

theorem TreeBelow.of_ancestor {a b : NodeId} (h : doc.TreeBelow a) (hab : doc.Ancestor a b) :
    doc.TreeBelow b := by
  rintro x (rfl | hx)
  · exact h x (.inr hab)
  · exact h x (.inr (hab.trans hx))

theorem TreeBelow.child {p c : NodeId} (h : doc.TreeBelow p) (hc : doc.parentOf c = some p) :
    doc.TreeBelow c :=
  h.of_ancestor (.parent hc)

theorem TreeBelow.of_children (hw : doc.Linked) (h : ∀ c ∈ doc.children id, doc.TreeBelow c) :
    doc.TreeBelow id := by
  have below : ∀ x, doc.Ancestor id x → ¬ doc.Ancestor x x := by
    intro x hx hxx
    obtain ⟨c, hc, hcx⟩ := hx.exists_child
    -- something stands below the child, so it is no attribute
    have hdown : doc.Ancestor c x := by
      rcases hcx with rfl | hcx
      · exact hxx
      · exact hcx
    have hchild := hw.mem_children.mpr ⟨hc, (hdown.container hw).not_attribute⟩
    exact h c hchild x (.inr hdown) hxx
  rintro x (rfl | hx) hxx
  · exact below x hxx hxx
  · exact below x hx hxx

/-- The ways down from a node have fewer steps than this. -/
def WithinDepth (doc : Document) : Nat → NodeId → Prop
  | 0, _ => False
  | depth + 1, id => ∀ c ∈ doc.children id, doc.WithinDepth depth c

/-- Different nodes that all stand above one in the table leave an entry of it over. -/
theorem length_above_lt (hw : doc.Linked) (ha : ¬ doc.Ancestor id id) {above : List NodeId}
    (hid : id < doc.size) (hnd : above.Nodup) (habove : ∀ x ∈ above, doc.Ancestor x id) :
    above.length < doc.size := by
  have hall : (id :: above).Nodup := nodup_cons.mpr ⟨fun hm => ha (habove id hm), hnd⟩
  refine length_le_size hall (forall_mem_cons.mpr ⟨hid, fun x hx => ?_⟩)
  exact ((habove x hx).container hw).lt_size

/-- **The table bounds the depth of a tree.** -/
theorem TreeBelow.withinDepth (hw : doc.Linked) (h : doc.TreeBelow id) (hid : id < doc.size) :
    doc.WithinDepth doc.size id := by
  -- the nodes above are all different, so the table leaves room for only so many more
  have down (room : Nat) : ∀ (id : NodeId) (above : List NodeId), doc.TreeBelow id →
      id < doc.size → above.Nodup → (∀ x ∈ above, doc.Ancestor x id) →
      doc.size ≤ room + above.length → doc.WithinDepth room id := by
    induction room with
    | zero =>
      intro id above h hid hnd habove hroom
      have hlt := length_above_lt hw h.irrefl hid hnd habove
      omega
    | succ room ih =>
      intro id above h hid hnd habove hroom c hc
      have hp : doc.parentOf c = some id := (hw.mem_children.mp hc).1
      refine ih c (id :: above) (h.child hp) (lt_size_of_parentOf hp)
        (nodup_cons.mpr ⟨fun hm => h.irrefl (habove id hm), hnd⟩)
        (forall_mem_cons.mpr ⟨.parent hp, fun x hx => .above hp (habove x hx)⟩) ?_
      rw [length_cons]
      omega
  exact down doc.size id [] h hid nodup_nil (forall_mem_nil _) (Nat.le_add_right _ _)

/-! ## Subtrees -/

theorem Ancestor.eq_or_above {a b n : NodeId} (ha : doc.Ancestor a n) (hb : doc.Ancestor b n) :
    a = b ∨ doc.Ancestor a b ∨ doc.Ancestor b a := by
  induction ha with
  | parent h =>
    cases hb with
    | parent h' => exact .inl (Option.some.inj (h.symm.trans h'))
    | above h' rest =>
      cases h.symm.trans h'
      exact .inr (.inr rest)
  | above h rest ih =>
    cases hb with
    | parent h' =>
      cases h.symm.trans h'
      exact .inr (.inl rest)
    | above h' rest' =>
      cases h.symm.trans h'
      exact ih rest'

theorem mem_subtreeTo (hw : doc.Linked) {x : NodeId} (h : x ∈ doc.subtreeTo depth id) :
    x = id ∨ doc.Ancestor id x := by
  induction depth generalizing id with
  | zero => cases h
  | succ depth ih =>
    rw [subtreeTo, mem_cons, mem_flatMap] at h
    rcases h with rfl | ⟨c, hc, hx⟩
    · exact .inl rfl
    · have hp : doc.Ancestor id c := .parent (hw.mem_children.mp hc).1
      rcases ih hx with rfl | ha
      · exact .inr hp
      · exact .inr (hp.trans ha)

/-- Nothing stands below two children of one node. -/
theorem siblings_apart {p a b x : NodeId} (ha : ¬ doc.Ancestor p p)
    (hpa : doc.parentOf a = some p) (hpb : doc.parentOf b = some p) (hne : a ≠ b)
    (hax : x = a ∨ doc.Ancestor a x) (hbx : x = b ∨ doc.Ancestor b x) : False := by
  -- a child that stood above another one would stand above their parent
  have hapart {c e : NodeId} (hc : doc.parentOf c = some p) (he : doc.parentOf e = some p) :
      ¬ doc.Ancestor c e := by
    intro h
    cases h with
    | parent h => exact ha (.parent ((Option.some.inj (he.symm.trans h)) ▸ hc))
    | above h rest =>
      cases he.symm.trans h
      exact ha (.trans (.parent hc) rest)
  rcases hax with rfl | hax <;> rcases hbx with rfl | hbx
  · exact hne rfl
  · exact hapart hpb hpa hbx
  · exact hapart hpa hpb hax
  · rcases hax.eq_or_above hbx with h | h | h
    · exact hne h
    · exact hapart hpa hpb h
    · exact hapart hpb hpa h

theorem disjoint_subtreeTo (hw : doc.Linked) {p a b : NodeId} (ha : ¬ doc.Ancestor p p)
    (hpa : doc.parentOf a = some p) (hpb : doc.parentOf b = some p) (hne : a ≠ b) :
    (doc.subtreeTo depth a).Disjoint (doc.subtreeTo depth b) := by
  intro x hxa hxb
  exact siblings_apart ha hpa hpb hne (mem_subtreeTo hw hxa) (mem_subtreeTo hw hxb)

/-- **A subtree meets every node once.** -/
theorem subtreeTo_nodup (hw : doc.Linked) (depth : Nat) (h : doc.TreeBelow id) :
    (doc.subtreeTo depth id).Nodup := by
  induction depth generalizing id with
  | zero => exact nodup_nil
  | succ depth ih =>
    have hparent : ∀ c ∈ doc.children id, doc.parentOf c = some id := fun c hc =>
      (hw.mem_children.mp hc).1
    rw [subtreeTo, nodup_cons, nodup_flatMap]
    refine ⟨fun hm => ?_, fun c hc => ih (h.child (hparent c hc)), ?_⟩
    · obtain ⟨c, hc, hm⟩ := mem_flatMap.mp hm
      exact h.irrefl (ancestor_of_child (hparent c hc) (mem_subtreeTo hw hm))
    · refine (hw.children_nodup id).imp_of_mem fun hc he hne => ?_
      exact disjoint_subtreeTo hw h.irrefl (hparent _ hc) (hparent _ he) hne

theorem length_subtreeTo_le (hw : doc.Linked) (depth : Nat) (h : doc.TreeBelow id)
    (hid : id < doc.size) : (doc.subtreeTo depth id).length ≤ doc.size := by
  refine length_le_size (subtreeTo_nodup hw depth h) fun x hx => ?_
  rcases mem_subtreeTo hw hx with rfl | hup
  · exact hid
  · exact hup.lt_size

theorem WithinDepth.subtreeTo_add (h : doc.WithinDepth depth id) (more : Nat) :
    doc.subtreeTo (depth + more) id = doc.subtreeTo depth id := by
  induction depth generalizing id with
  | zero => exact h.elim
  | succ depth ih =>
    rw [Nat.add_right_comm, subtreeTo, subtreeTo]
    exact congrArg (id :: ·) (flatMap_congr fun c hc => ih (h c hc))

theorem subtreeTo_congr {d : Document} (hw : doc.Linked)
    (h : ∀ x, x = id ∨ doc.Ancestor id x → d.children x = doc.children x) (depth : Nat) :
    d.subtreeTo depth id = doc.subtreeTo depth id := by
  induction depth generalizing id with
  | zero => rfl
  | succ depth ih =>
    rw [subtreeTo, subtreeTo, h id (.inl rfl)]
    refine congrArg (id :: ·) (flatMap_congr fun c hc => ih fun x hx => h x (.inr ?_))
    have hp : doc.Ancestor id c := .parent (hw.mem_children.mp hc).1
    rcases hx with rfl | hx
    · exact hp
    · exact hp.trans hx

end Document

end Xml
