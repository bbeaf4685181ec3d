import Xml.Proofs.Links.Operations
import Xml.Proofs.Links.Views

/-!
# Labels and places

What a node is, what it is called, which namespace it is in and what it declares make up its label.
Whoever asks for names and namespaces looks at labels and parents only. So this is what the changes
of a document are told by here, and how they write the links does not matter any more.

* `Placed` — a node was put under another, and at most one node lost its place to it
* `Gained` — a new node was added under another
* `Equipped` — new attributes were added to an element, one after the other
-/

namespace Xml

/-- What is said of a node apart from its place and its content. -/
structure Label where
  kind : NodeKind
  name : String
  namespaceUri : String
  declarations : List NamespaceDecl

def Node.label (n : Node) : Label :=
  ⟨n.kind, n.name, n.namespaceUri, n.declarations⟩

/-- What the namespaces around a node depend on: its label but for its own namespace, and the node
above it. -/
def Node.place (n : Node) : Label × Option NodeId :=
  ({ n.label with namespaceUri := "" }, n.parent)

namespace Document

variable {doc d e : Document} {id p other x : NodeId} {gone : Option NodeId}

def labelOf (doc : Document) (id : NodeId) : Option Label :=
  (doc.get? id).map Node.label

theorem kindOf_eq (doc : Document) (x : NodeId) :
    doc.kindOf x = (doc.labelOf x).map Label.kind := by
  rw [labelOf, Option.map_map]
  rfl

theorem nameOf_eq (doc : Document) (x : NodeId) :
    doc.nameOf x = ((doc.labelOf x).map Label.name).getD "" := by
  rw [labelOf, Option.map_map]
  rfl

abbrev SameLabels (doc d : Document) : Prop :=
  Alike Node.label doc d

/-- Nothing is changed that the namespaces depend on. -/
abbrev SamePlaces (doc d : Document) : Prop :=
  Alike Node.place doc d

theorem Alike.labels (h : Alike Node.unlink doc d) : SameLabels doc d :=
  h.comp Node.label

namespace SameLabels

theorem labelOf (h : SameLabels doc d) (x : NodeId) : d.labelOf x = doc.labelOf x := h x

theorem kindOf (h : SameLabels doc d) (x : NodeId) : d.kindOf x = doc.kindOf x := by
  rw [kindOf_eq, kindOf_eq, h.labelOf]

theorem nameOf (h : SameLabels doc d) (x : NodeId) : d.nameOf x = doc.nameOf x := by
  rw [nameOf_eq, nameOf_eq, h.labelOf]

end SameLabels

namespace SamePlaces

theorem kindOf (h : SamePlaces doc d) (x : NodeId) : d.kindOf x = doc.kindOf x :=
  h.comp (fun place => place.1.kind) x

theorem nameOf (h : SamePlaces doc d) (x : NodeId) : d.nameOf x = doc.nameOf x :=
  congrArg (Option.getD · "") (h.comp (fun place => place.1.name) x)

theorem parentOf (h : SamePlaces doc d) (x : NodeId) : d.parentOf x = doc.parentOf x := by
  have hjoin (e : Document) : e.parentOf x = ((e.get? x).map (·.parent)).join := by
    rw [Document.parentOf]
    cases e.get? x <;> rfl
  rw [hjoin, hjoin]
  exact congrArg Option.join (h.comp Prod.snd x)

theorem resolveNamespace (doc : Document) (id : NodeId) :
    SamePlaces doc (doc.resolveNamespace id) :=
  .update doc id (fun n => { n with namespaceUri := doc.namespaceInScope id }) fun _ => rfl

theorem resolveSubtree (doc : Document) (id : NodeId) :
    SamePlaces doc (doc.resolveSubtree id) :=
  resolveSubtree_induction (P := SamePlaces doc) (.refl doc)
    (fun e x h => h.trans (resolveNamespace e x)) id

end SamePlaces

theorem nodes_noteAttached (doc : Document) (id : NodeId) :
    (doc.noteAttached id).nodes = doc.nodes := by
  rw [noteAttached]
  split <;> rfl

theorem Alike.size {β : Type} {f : Node → β} (h : Alike f doc d) : d.size = doc.size := by
  have key {e e' : Document} (he : Alike f e e') : e.size ≤ e'.size := by
    rcases Nat.lt_or_ge e'.size e.size with hlt | hle
    · -- the entry just behind the shorter table is one that the longer table has
      obtain ⟨node, hn⟩ := exists_get? hlt
      have hx := he e'.size
      rw [get?_eq_none (Nat.le_refl _), hn] at hx
      cases hx
    · exact hle
  exact Nat.le_antisymm (key h.symm) (key h)

/-! ## Nodes put into place -/

/-- The node `id` was put under `p`, and `gone` stands nowhere any more. -/
structure Placed (doc d : Document) (id p : NodeId) (gone : Option NodeId) : Prop where
  linked : d.Linked
  labels : SameLabels doc d
  parentOf : ∀ x, d.parentOf x =
    if x = id then some p else if some x = gone then none else doc.parentOf x

/-- Putting a node somewhere does not depend on where it was. -/
theorem Placed.of_detach (hw : doc.Linked) (h : Placed (doc.detach id) d id p gone) :
    Placed doc d id p gone where
  linked := h.linked
  labels := (detach_alike doc id).labels.trans h.labels
  parentOf x := by
    rw [h.parentOf, hw.parentOf_detach]
    by_cases hx : x = id
    · rw [if_pos hx, if_pos hx]
    · rw [if_neg hx, if_neg hx, if_neg hx]

theorem Placed.detach (h : Placed doc d id p none) (hne : other ≠ id) :
    Placed doc (d.detach other) id p (some other) where
  linked := h.linked.detach other
  labels := h.labels.trans (detach_alike d other).labels
  parentOf x := by
    rw [h.linked.parentOf_detach, h.parentOf]
    by_cases hx : x = other
    · rw [if_pos hx, if_neg (hx ▸ hne), if_pos (congrArg some hx)]
    · rw [if_neg hx, if_neg (Option.some_ne_none x), if_neg fun he => hx (Option.some.inj he)]

/-- The node whose place is taken may go first. -/
theorem Placed.after_detach (hw : doc.Linked) (h : Placed (doc.detach other) d id p none) :
    Placed doc d id p (some other) where
  linked := h.linked
  labels := (detach_alike doc other).labels.trans h.labels
  parentOf x := by
    rw [h.parentOf, hw.parentOf_detach, if_neg (Option.some_ne_none x)]
    simp only [Option.some_inj]

theorem Linked.placed_insertAttribute (hw : doc.Linked) (index : Nat)
    (hp : doc.kindOf p = some .element) (hkind : doc.kindOf id = some .attribute)
    (hloose : doc.parentOf id = none) :
    Placed doc (doc.insertAttribute p index id) id p none := by
  obtain ⟨hl, -, -, hpar⟩ := hw.insertAttribute index hp hkind hloose
  exact ⟨hl, (insertAttribute_alike doc p index id).labels, hpar⟩

theorem Inserted.placed (hw : doc.Linked) {l r : List NodeId} (h : Inserted doc d p id l r)
    (hp : doc.IsContainer p) (hid : doc.Loose id) (hlr : doc.children p = l ++ r)
    (hlabels : SameLabels doc d) : Placed doc d id p none :=
  ⟨h.linked hw hp hid.1 hid.2.2 hlr, hlabels, h.parent⟩

theorem Linked.placed_appendChild (hw : doc.Linked) (hp : doc.IsContainer p)
    (hid : doc.Loose id) : Placed doc (doc.appendChild p id) id p none :=
  (hw.inserted hp hid).1.placed hw hp hid (List.append_nil _).symm
    (appendChild_alike doc p id).labels

theorem Linked.placed_insertBefore (hw : doc.Linked) (href : doc.IsChild p x)
    (hid : doc.Loose id) : Placed doc (doc.insertBefore x id) id p none := by
  have hp := hw.container _ _ href.1
  obtain ⟨l, r, hlr, hi, -⟩ := (hw.inserted hp hid).2 x href
  exact hi.placed hw hp hid hlr (insertBefore_alike doc x id).labels

theorem Linked.placed_insertAfter (hw : doc.Linked) (href : doc.IsChild p x)
    (hid : doc.Loose id) : Placed doc (doc.insertAfter x id) id p none := by
  have hp := hw.container _ _ href.1
  obtain ⟨l, r, hlr, -, hi⟩ := (hw.inserted hp hid).2 x href
  exact hi.placed hw hp hid (by rw [hlr, List.append_assoc]; rfl)
    (insertAfter_alike doc x id).labels

/-- A detached node put under another; an attribute of the same name loses its place. -/
theorem Fits.placed_under (h : Fits doc id p) (hloose : doc.parentOf id = none) :
    ∃ d, placeUnder id p doc = d.resolveSubtree id ∧
      Placed doc d id p
        (if doc.isAttribute id then doc.findAttribute? p (doc.nameOf id) else none) := by
  have hw := h.linked
  rw [placeUnder]
  by_cases hattr : doc.isAttribute id = true
  · have hkind := isAttribute_iff.mp hattr
    have hp := h.owner hkind
    rw [if_pos hattr, if_pos hattr]
    cases hfind : doc.findAttribute? p (doc.nameOf id) with
    | none => exact ⟨_, rfl, hw.placed_insertAttribute _ hp hkind hloose⟩
    | some old =>
      -- the old attribute leaves before the new one comes
      refine ⟨_, rfl, .after_detach hw ((hw.detach old).placed_insertAttribute _ ?_ ?_ ?_)⟩
      · rw [hw.kindOf_detach, hp]
      · rw [hw.kindOf_detach, hkind]
      · rw [hw.parentOf_detach, hloose, ite_self]
  · rw [if_neg hattr, if_neg hattr]
    have hid : doc.Loose id := ⟨hloose, h.kind, fun hk => hattr (isAttribute_iff.mpr hk)⟩
    exact ⟨_, rfl, hw.placed_appendChild h.container hid⟩

namespace Beside

/-- A node in the place of another, which loses it. An attribute can take its own place. -/
theorem placed_substitute (h : Beside doc id p other)
    (hne : doc.kindOf id = some .attribute ∨ id ≠ other) :
    ∃ d, substitute id p other doc = d.resolveSubtree other ∧
      Placed doc d other p (some id) := by
  obtain ⟨hnone, hf, hattr, hchild⟩ := h.detached
  have hw := hf.linked
  rw [substitute]
  -- among attributes the old one leaves first, among children the new one comes first
  by_cases ha : (doc.detach other).isAttribute id = true
  · obtain ⟨hp, hk⟩ := hattr ha
    rw [if_pos ha]
    refine ⟨_, rfl, .of_detach h.fits.linked (.after_detach hw
      ((hw.detach id).placed_insertAttribute _ ?_ ?_ ?_))⟩
    · rw [hw.kindOf_detach, hp]
    · rw [hw.kindOf_detach, hk]
    · rw [hw.parentOf_detach, hnone, ite_self]
  · have hne := hne.resolve_left fun hk =>
      ha (isAttribute_iff.mpr ((h.fits.linked.kindOf_detach other id).trans hk))
    obtain ⟨hc, hl⟩ := hchild (Bool.eq_false_iff.mpr ha) hne
    rw [if_neg ha]
    exact ⟨_, rfl, .of_detach h.fits.linked ((hw.placed_insertBefore hc hl).detach hne)⟩

/-- Any other node that is put in its own place ends up detached. -/
theorem substitute_self (h : Beside doc id p id) (hk : doc.kindOf id ≠ some .attribute) :
    substitute id p id doc = (doc.detach id).resolveSubtree id := by
  obtain ⟨hnone, -⟩ := h.detached
  have hattr : ¬ (doc.detach id).isAttribute id = true := fun ha =>
    hk ((h.fits.linked.kindOf_detach id id).symm.trans (isAttribute_iff.mp ha))
  -- once detached it has no parent, under which it could be put in front of itself
  rw [substitute, if_neg hattr, insertBefore, hnone, detach_of_loose hnone]

theorem placed_beside (h : Beside doc id p other) (hne : id ≠ other) (side : Side) :
    ∃ d, placeBeside side id p other doc = (d.resolveSubtree other).noteAttached other ∧
      Placed doc d other p none := by
  obtain ⟨hnone, hf, hattr, hchild⟩ := h.detached
  have hw := hf.linked
  rw [placeBeside]
  by_cases ha : (doc.detach other).isAttribute id = true
  · obtain ⟨hp, hk⟩ := hattr ha
    rw [if_pos ha]
    exact ⟨_, rfl, .of_detach h.fits.linked (hw.placed_insertAttribute _ hp hk hnone)⟩
  · obtain ⟨hc, hl⟩ := hchild (Bool.eq_false_iff.mpr ha) hne
    rw [if_neg ha]
    cases side with
    | after => exact ⟨_, rfl, .of_detach h.fits.linked (hw.placed_insertAfter hc hl)⟩
    | before => exact ⟨_, rfl, .of_detach h.fits.linked (hw.placed_insertBefore hc hl)⟩

end Beside

/-- A new document element takes the place of the old one. -/
theorem Linked.placed_installRoot (hw : doc.Linked) (hroot : doc.kindOf root = some .document)
    (hid : doc.kindOf id = some .element) (hne : doc.rootElement? ≠ some id) :
    Placed doc (installRoot id doc) id root doc.rootElement? := by
  have hloose := hw.loose_element hid
  rw [installRoot]
  cases hold : doc.rootElement? with
  | some old =>
    have hne' : old ≠ id := fun he => hne (he ▸ hold)
    have hc := (hw.rootElement? hold).1.detach hw hne'
    exact .of_detach hw (((hw.detach id).placed_insertBefore hc hloose).detach hne')
  | none =>
    refine .of_detach hw ((hw.detach id).placed_appendChild (Or.inr ?_) hloose)
    rw [hw.kindOf_detach, hroot]

/-! ## New nodes -/

/-- The new node `node` was added under `p`. -/
structure Gained (doc d : Document) (node : Node) (p : NodeId) : Prop where
  linked : d.Linked
  size : d.size = doc.size + 1
  labelOf : ∀ x, d.labelOf x = if x = doc.size then some node.label else doc.labelOf x
  parentOf : ∀ x, d.parentOf x = if x = doc.size then some p else doc.parentOf x

theorem labelOf_alloc (doc : Document) (node : Node) (x : NodeId) :
    (doc.alloc node).2.labelOf x = if x = doc.size then some node.label else doc.labelOf x := by
  rw [labelOf, get?_alloc]
  split <;> rfl

theorem Gained.of_placed {node : Node} (hn : node.Unlinked)
    (h : Placed (doc.alloc node).2 d doc.size p none) : Gained doc d node p where
  linked := h.linked
  size := h.labels.size.trans (size_alloc doc node)
  labelOf x := (h.labels.labelOf x).trans (labelOf_alloc doc node x)
  parentOf x := by rw [h.parentOf, if_neg (Option.some_ne_none x), parentOf_alloc hn]

theorem Linked.gained_child (hw : doc.Linked) {node : Node} (hn : node.Unlinked)
    (hk : node.kind ≠ .attribute) (hp : doc.IsContainer p) :
    Gained doc ((doc.alloc node).2.appendChild p (doc.alloc node).1) node p := by
  rw [alloc_fst]
  exact .of_placed hn ((hw.alloc hn).placed_appendChild hp.alloc (loose_new hn hk))

theorem Linked.gained_attribute (hw : doc.Linked) {node : Node} (hn : node.Unlinked)
    (hk : node.kind = .attribute) (hp : doc.kindOf p = some .element) :
    Gained doc ((doc.alloc node).2.appendAttribute p (doc.alloc node).1) node p := by
  obtain ⟨hkind, hnone⟩ := kindOf_parentOf_new doc hn
  rw [alloc_fst]
  refine .of_placed hn ((hw.alloc hn).placed_insertAttribute _ ?_ (hk ▸ hkind) hnone)
  rwa [kindOf_alloc_of_lt (lt_size_of_kindOf hp)]

namespace Gained

variable {node : Node}

theorem kindOf (h : Gained doc d node p) (x : NodeId) :
    d.kindOf x = if x = doc.size then some node.kind else doc.kindOf x := by
  rw [kindOf_eq, kindOf_eq, h.labelOf]
  split <;> rfl

theorem nameOf (h : Gained doc d node p) (x : NodeId) :
    d.nameOf x = if x = doc.size then node.name else doc.nameOf x := by
  rw [nameOf_eq, nameOf_eq, h.labelOf]
  split <;> rfl

theorem of_nodes_eq (h : Gained doc d node p) (he : e.nodes = d.nodes) : Gained doc e node p := by
  have hget (x : NodeId) : e.get? x = d.get? x := by rw [get?, get?, he]
  refine ⟨(SameLinks.of_nodes_eq he).linked h.linked, ?_, fun x => ?_, fun x => ?_⟩
  · rw [Document.size, he]
    exact h.size
  · rw [Document.labelOf, hget]
    exact h.labelOf x
  · rw [Document.parentOf, hget]
    exact h.parentOf x

end Gained

/-- New attributes were added to the element `p`, one after the other. -/
inductive Equipped (p : NodeId) : List Node → Document → Document → Prop where
  | nil (doc : Document) : Equipped p [] doc doc
  | cons {a : Node} {as : List Node} {doc d e : Document} (ha : a.kind = .attribute)
      (h : Gained doc d a p) (rest : Equipped p as d e) : Equipped p (a :: as) doc e

namespace Equipped

variable {as : List Node}

theorem old (h : Equipped p as doc d) :
    doc.size ≤ d.size ∧
      ∀ x, x < doc.size → d.labelOf x = doc.labelOf x ∧ d.parentOf x = doc.parentOf x := by
  induction h with
  | nil doc => exact ⟨Nat.le_refl _, fun _ _ => ⟨rfl, rfl⟩⟩
  | cons ha h rest ih =>
    have hsize := h.size
    refine ⟨by omega, fun x hx => ?_⟩
    obtain ⟨hlabel, hparent⟩ := ih.2 x (by omega)
    rw [hlabel, hparent, h.labelOf, h.parentOf, if_neg (Nat.ne_of_lt hx), if_neg (Nat.ne_of_lt hx)]
    exact ⟨rfl, rfl⟩

theorem new (h : Equipped p as doc d) {q : NodeId} (hx : doc.size ≤ x)
    (hq : d.parentOf x = some q) : q = p ∧ d.kindOf x = some .attribute := by
  induction h with
  | nil doc => exact absurd (lt_size_of_parentOf hq) (Nat.not_lt.mpr hx)
  | @cons a as doc d e ha h rest ih =>
    rcases Nat.eq_or_lt_of_le hx with rfl | hlt
    · -- the first of them, which the others leave alone
      obtain ⟨hlabel, hparent⟩ := rest.old.2 doc.size (by rw [h.size]; exact Nat.lt_succ_self _)
      rw [hparent, h.parentOf, if_pos rfl] at hq
      rw [kindOf_eq, hlabel, ← kindOf_eq, h.kindOf, if_pos rfl, ha]
      exact ⟨(Option.some.inj hq).symm, rfl⟩
    · exact ih (by rw [h.size]; exact hlt) hq

theorem label (h : Equipped p as doc d) (hx : doc.size ≤ x) (hlt : x < d.size) :
    ∃ a ∈ as, d.labelOf x = some a.label := by
  induction h with
  | nil doc => exact absurd hlt (Nat.not_lt.mpr hx)
  | @cons a as doc d e ha h rest ih =>
    rcases Nat.eq_or_lt_of_le hx with rfl | hgt
    · refine ⟨a, List.mem_cons_self, ?_⟩
      rw [(rest.old.2 doc.size (by rw [h.size]; exact Nat.lt_succ_self _)).1, h.labelOf, if_pos rfl]
    · obtain ⟨a', hmem, hlabel⟩ := ih (by rw [h.size]; exact hgt) hlt
      exact ⟨a', List.mem_cons_of_mem _ hmem, hlabel⟩

end Equipped

end Document

end Xml
