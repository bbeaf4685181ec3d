import Mathlib.Logic.Relation
import Xml.Proofs.Links.Change

/-!
# Sequences of changes

`Relink` lists what can happen to the links of a document: nothing, a new node that is linked to
nothing, a node taken out, a detached node put among the children of a container, or a detached
attribute put on an element. Reading a document and every edit are sequences of these, so an
invariant of the links needs a proof for each of them only.

Where a node may be put is a parameter. The links stay in order wherever it is (`Relinks.linked`); no
cycle comes about if nothing is put below itself (`Relinks.acyclic`).
-/

namespace Xml.Document

variable {doc d : Document}

/-- The node `id` is in the table, is no attribute and stands below nothing. -/
def Loose (doc : Document) (id : NodeId) : Prop :=
  doc.parentOf id = none ∧ doc.kindOf id ≠ none ∧ doc.kindOf id ≠ some .attribute

/-- The node `p` is not `id` and does not stand below it. -/
def Outside (doc : Document) (id p : NodeId) : Prop :=
  ¬ (id = p ∨ doc.Ancestor id p)

/-- No restriction on where a node is put. -/
def Anywhere (_ : Document) (_ _ : NodeId) : Prop :=
  True

/-- One change of the links. A node `id` is put under `p` only if `G` allows it. -/
inductive Relink (G : Document → NodeId → NodeId → Prop) : Document → Document → Prop where
  | same {doc d : Document} (h : Relabeled doc d) : Relink G doc d
  | alloc (doc : Document) {node : Node} (h : node.Unlinked) : Relink G doc (doc.alloc node).2
  | detach (doc : Document) (id : NodeId) : Relink G doc (doc.detach id)
  | append {doc : Document} {p id : NodeId} (hp : doc.IsContainer p) (hid : doc.Loose id)
      (hg : G doc id p) : Relink G doc (doc.appendChild p id)
  | before {doc : Document} {p ref id : NodeId} (href : doc.IsChild p ref) (hid : doc.Loose id)
      (hg : G doc id p) : Relink G doc (doc.insertBefore ref id)
  | after {doc : Document} {p ref id : NodeId} (href : doc.IsChild p ref) (hid : doc.Loose id)
      (hg : G doc id p) : Relink G doc (doc.insertAfter ref id)
  | attr {doc : Document} {p id : NodeId} (index : Nat) (hp : doc.kindOf p = some .element)
      (hid : doc.kindOf id = some .attribute) (hloose : doc.parentOf id = none) :
      Relink G doc (doc.insertAttribute p index id)

abbrev Relinks (G : Document → NodeId → NodeId → Prop) : Document → Document → Prop :=
  Relation.ReflTransGen (Relink G)

/-! ## Insertions -/

variable {H : Document → NodeId → NodeId → Prop} {id : NodeId}

theorem Loose.lt_size (h : doc.Loose id) : id < doc.size := by
  obtain ⟨kind, hk⟩ := Option.ne_none_iff_exists'.mp h.2.1
  exact lt_size_of_kindOf hk

theorem Loose.not_mem_children (h : doc.Loose id) (hw : doc.Linked) (p : NodeId) :
    id ∉ doc.children p := by
  intro hm
  have hp := (hw.mem_children.mp hm).1
  rw [h.1] at hp
  cases hp

/-- The three ways to put a node among the children of another, as one: it comes to stand somewhere
between them. -/
theorem Linked.inserted (hw : doc.Linked) {p : NodeId} (hp : doc.IsContainer p)
    (hid : doc.Loose id) :
    Inserted doc (doc.appendChild p id) p id (doc.children p) [] ∧
      ∀ ref, doc.IsChild p ref → ∃ l r, doc.children p = l ++ ref :: r ∧
        Inserted doc (doc.insertBefore ref id) p id l (ref :: r) ∧
        Inserted doc (doc.insertAfter ref id) p id (l ++ [ref]) r := by
  refine ⟨?_, fun ref href => ?_⟩
  · exact appendChild_inserted hp.lt_size hid.lt_size (hw.chain p) (fun _ => hw.lt_size_of_mem)
      (hid.not_mem_children hw p)
  · obtain ⟨l, r, hlr⟩ := List.append_of_mem (hw.mem_children.mpr href)
    have hc := hw.chain p
    have hlt : ∀ c ∈ doc.children p, c < doc.size := fun _ => hw.lt_size_of_mem
    have hout := hid.not_mem_children hw p
    rw [hlr] at hc hlt hout
    exact ⟨l, r, hlr, insertBefore_inserted hp.lt_size hid.lt_size href.1 hc hlt hout,
      insertAfter_inserted hp.lt_size hid.lt_size href.1 hc hlt hout⟩

/-! ## What a change does -/

variable {G : Document → NodeId → NodeId → Prop}

/-- What a change does to the parents: it takes some away, or it gives one node a parent. -/
inductive Reparents (G : Document → NodeId → NodeId → Prop) (doc d : Document) : Prop where
  | fewer (h : ∀ x p, d.parentOf x = some p → doc.parentOf x = some p)
  | put (id p : NodeId) (hparent : ∀ x, d.parentOf x = if x = id then some p else doc.parentOf x)
      (hg : G doc id p ∨ doc.kindOf id = some .attribute ∧ doc.kindOf p = some .element)

/-- What every change keeps, and what it can do to the parents. -/
structure Effect (G : Document → NodeId → NodeId → Prop) (doc d : Document) : Prop where
  linked : d.Linked
  size_le : doc.size ≤ d.size
  kind : ∀ x, x < doc.size → d.kindOf x = doc.kindOf x
  parents : Reparents G doc d

theorem Inserted.effect (hw : doc.Linked) {p : NodeId} {l r : List NodeId}
    (h : Inserted doc d p id l r) (hp : doc.IsContainer p) (hid : doc.Loose id)
    (hlr : doc.children p = l ++ r) (hg : G doc id p) : Effect G doc d where
  linked := h.linked hw hp hid.1 hid.2.2 hlr
  size_le := Nat.le_of_eq h.size.symm
  kind x _ := h.kind x
  parents := .put id p h.parent (Or.inl hg)

theorem Relink.effect (hw : doc.Linked) (h : Relink G doc d) : Effect G doc d := by
  cases h with
  | same h =>
    have hs := h.links.shows
    exact ⟨h.links.linked hw, Nat.le_of_eq hs.size.symm, fun x _ => hs.kind x,
      .fewer fun x p hx => (hs.parent x).symm.trans hx⟩
  | alloc h =>
    refine ⟨hw.alloc h, ?_, fun x => kindOf_alloc_of_lt, .fewer fun x p hx => ?_⟩
    · rw [size_alloc]
      exact Nat.le_succ _
    · exact (bind_get?_alloc h (·.parent) (fun _ => rfl) x).symm.trans hx
  | detach id =>
    obtain ⟨hl, hs, hk, hp⟩ := hw.detach_spec id
    refine ⟨hl, Nat.le_of_eq hs.symm, fun x _ => hk x, .fewer fun x p hx => ?_⟩
    rw [hp] at hx
    split at hx
    · cases hx
    · exact hx
  | append hp hid hg => exact (hw.inserted hp hid).1.effect hw hp hid (List.append_nil _).symm hg
  | before href hid hg =>
    have hp := hw.container _ _ href.1
    obtain ⟨l, r, hlr, hi, -⟩ := (hw.inserted hp hid).2 _ href
    exact hi.effect hw hp hid hlr hg
  | after href hid hg =>
    have hp := hw.container _ _ href.1
    obtain ⟨l, r, hlr, -, hi⟩ := (hw.inserted hp hid).2 _ href
    exact hi.effect hw hp hid (by rw [hlr, List.append_assoc]; rfl) hg
  | attr index hp hid hloose =>
    obtain ⟨hl, hs, hk, hpar⟩ := hw.insertAttribute index hp hid hloose
    exact ⟨hl, Nat.le_of_eq hs.symm, fun x _ => hk x, .put _ _ hpar (Or.inr ⟨hid, hp⟩)⟩

/-! ## Cycles -/

/-- With `id` put under `p`, what stands above a node stood above it before, or stands above it by
way of `id` and `p`. -/
theorem Ancestor.of_put {p a n : NodeId}
    (hparent : ∀ x, d.parentOf x = if x = id then some p else doc.parentOf x) (h : d.Ancestor a n) :
    doc.Ancestor a n ∨ ((n = id ∨ doc.Ancestor id n) ∧ (a = p ∨ doc.Ancestor a p)) := by
  induction h with
  | @parent n h =>
    rw [hparent] at h
    by_cases hn : n = id
    · rw [if_pos hn] at h
      exact Or.inr ⟨Or.inl hn, Or.inl (Option.some.inj h).symm⟩
    · rw [if_neg hn] at h
      exact Or.inl (.parent h)
  | @above n q h _ ih =>
    rw [hparent] at h
    by_cases hn : n = id
    · rw [if_pos hn] at h
      obtain rfl := Option.some.inj h
      rcases ih with ih | ⟨-, ih⟩
      · exact Or.inr ⟨Or.inl hn, Or.inr ih⟩
      · exact Or.inr ⟨Or.inl hn, ih⟩
    · rw [if_neg hn] at h
      rcases ih with ih | ⟨hq, ih⟩
      · exact Or.inl (.above h ih)
      · exact Or.inr ⟨Or.inr (ancestor_of_parentOf h hq), ih⟩

/-- A way up survives a change of parents that does not concern the nodes on it. -/
theorem Ancestor.keep {S : NodeId → Prop} {a n : NodeId}
    (hparent : ∀ x, ¬ S x → d.parentOf x = doc.parentOf x) (h : doc.Ancestor a n) (hn : ¬ S n)
    (hout : ∀ x, S x → ¬ (doc.Ancestor x n ∧ doc.Ancestor a x)) : d.Ancestor a n := by
  induction h with
  | @parent n h => exact .parent ((hparent n hn).trans h)
  | @above n q h rest ih =>
    refine .above ((hparent n hn).trans h) (ih (fun hq => ?_) fun x hx hc => ?_)
    · exact hout q hq ⟨.parent h, rest⟩
    · exact hout x hx ⟨.above h hc.1, hc.2⟩

theorem Linked.not_ancestor_of_attribute (hw : doc.Linked) {n : NodeId}
    (hid : doc.kindOf id = some .attribute) : ¬ doc.Ancestor id n := by
  intro h
  exact (h.container hw).not_attribute hid

/-- A node that is not put below itself closes no cycle. -/
theorem Acyclic.put {p : NodeId} (ha : doc.Acyclic)
    (hparent : ∀ x, d.parentOf x = if x = id then some p else doc.parentOf x)
    (hout : doc.Outside id p) : d.Acyclic := by
  intro n hn
  rcases hn.of_put hparent with hn | ⟨hid, hp⟩
  · exact ha n hn
  · refine hout ?_
    rcases hid with rfl | hid <;> rcases hp with rfl | hp
    · exact Or.inl rfl
    · exact Or.inr hp
    · exact Or.inr hid
    · exact Or.inr (hid.trans hp)

/-- **No cycle comes about if nothing is put below itself.** -/
theorem Effect.acyclic (hw : doc.Linked) (h : Effect Outside doc d) (ha : doc.Acyclic) :
    d.Acyclic := by
  cases h.parents with
  | fewer hp => exact ha.mono hp
  | put id p hparent hg =>
    refine ha.put hparent ?_
    rcases hg with hg | ⟨hid, hp⟩
    · exact hg
    · rintro (rfl | hanc)
      · rw [hid] at hp
        cases hp
      · exact hw.not_ancestor_of_attribute hid hanc

/-! ## Many changes -/

theorem Relink.mono (hGH : ∀ e id p, G e id p → H e id p) (h : Relink G doc d) :
    Relink H doc d := by
  cases h with
  | same h => exact .same h
  | alloc h => exact .alloc _ h
  | detach id => exact .detach _ id
  | append hp hid hg => exact .append hp hid (hGH _ _ _ hg)
  | before href hid hg => exact .before href hid (hGH _ _ _ hg)
  | after href hid hg => exact .after href hid (hGH _ _ _ hg)
  | attr index hp hid hloose => exact .attr index hp hid hloose

theorem Relinks.mono (hGH : ∀ e id p, G e id p → H e id p) (h : Relinks G doc d) :
    Relinks H doc d := by
  induction h with
  | refl => exact .refl
  | tail _ hr ih => exact ih.tail (hr.mono hGH)

theorem Relinks.anywhere (h : Relinks G doc d) : Relinks Anywhere doc d :=
  Relinks.mono (fun _ _ _ _ => trivial) h

/-- **The links stay in order, wherever nodes are put.** -/
theorem Relinks.linked (h : Relinks G doc d) (hw : doc.Linked) : d.Linked := by
  induction h with
  | refl => exact hw
  | tail _ hr ih => exact (hr.effect ih).linked

/-- No node goes, and none becomes another kind of node. -/
theorem Relinks.kindOf (h : Relinks G doc d) (hw : doc.Linked) :
    doc.size ≤ d.size ∧ ∀ x, x < doc.size → d.kindOf x = doc.kindOf x := by
  induction h with
  | refl => exact ⟨Nat.le_refl _, fun _ _ => rfl⟩
  | tail hs hr ih =>
    have he := hr.effect (Relinks.linked hs hw)
    exact ⟨Nat.le_trans ih.1 he.size_le, fun x hx =>
      (he.kind x (Nat.lt_of_lt_of_le hx ih.1)).trans (ih.2 x hx)⟩

/-- **No cycle comes about in many changes that put nothing below itself.** -/
theorem Relinks.acyclic (h : Relinks Outside doc d) (hw : doc.Linked) (ha : doc.Acyclic) :
    d.Acyclic := by
  induction h with
  | refl => exact ha
  | tail hs hr ih =>
    have hw' := Relinks.linked hs hw
    exact (hr.effect hw').acyclic hw' ih

end Xml.Document
