import Mathlib.Data.Fintype.EquivFin
import Xml.Document.Order
import Xml.Proofs.Namespaces.Resolving
import Xml.Proofs.Trees.Preorder
import Xml.Proofs.Trees.Walks

/-!
# Sorting by document order

In a document whose links fit together and do not turn back, and whose document node stands below
nothing, the trees of the document node and of the detached nodes hold every node of the table once
(`Linked.order_perm`). So the numbers that are written down when the trees are walked tell positions
in document order, and to sort by them and drop repetitions is to sort by document order
(`sorted_by_position`).
-/

namespace Xml.Document

open List

variable {doc : Document} {id x : NodeId}

/-! ## The order of a subtree -/

/-- A node and its attributes, as they come in document order. -/
def entry (doc : Document) (id : NodeId) : List NodeId :=
  id :: doc.attributesOf id

/-- **Parents come before children, and attributes directly behind their element.** -/
theorem subtreeOrder_eq (hw : doc.Linked) (ha : doc.Acyclic) (id : NodeId) :
    doc.subtreeOrder id =
      id :: doc.attributesOf id ++ (doc.children id).flatMap doc.subtreeOrder := by
  rw [subtreeOrder, (ha.treeBelow id).subtree_eq hw, flatMap_cons, flatMap_assoc]
  rfl

theorem subtreeOrder_eq_walk (hw : doc.Linked) (ha : doc.Acyclic) (hid : id < doc.size) :
    doc.subtreeOrder id = doc.walk doc.entry (fun _ => []) id := by
  revert hid
  refine hw.tree_induction ha
    (P := fun id => id < doc.size → doc.subtreeOrder id = doc.walk doc.entry (fun _ => []) id)
    (fun id ih hid => ?_) id
  rw [subtreeOrder_eq hw ha, walk_eq hw ha hid, append_nil,
    flatMap_congr fun c hc => ih c hc (hw.lt_size_of_mem hc)]
  rfl

/-- The subtree holds what stands below its root, attributes included. -/
theorem Linked.mem_subtreeOrder (hw : doc.Linked) :
    x ∈ doc.subtreeOrder id ↔ x = id ∨ doc.Ancestor id x := by
  rw [subtreeOrder, mem_flatMap]
  constructor
  · rintro ⟨y, hy, hx⟩
    have hup := hw.of_mem_subtree hy
    rcases mem_cons.mp hx with rfl | hx
    · exact hup
    · exact .inr (ancestor_of_parentOf ((hw.mem_attributes y x).mp hx).1 hup)
  · intro hup
    by_cases hk : doc.kindOf x = some .attribute
    · rcases hup with rfl | hup
      · exact ⟨x, doc.self_mem_subtree x, mem_cons_self⟩
      · obtain ⟨p, hp⟩ := hup.exists_parent
        have hnot := (hw.container p x hp).not_attribute
        have hmem := hw.mem_subtree ((hup.of_parent hp).imp_left Eq.symm) hnot
        exact ⟨p, hmem, mem_cons_of_mem _ ((hw.mem_attributes p x).mpr ⟨hp, hk⟩)⟩
    · exact ⟨x, hw.mem_subtree hup hk, mem_cons_self⟩

theorem subtreeOrder_nodup (hw : doc.Linked) (ha : doc.Acyclic) (hid : id < doc.size) :
    (doc.subtreeOrder id).Nodup := by
  revert hid
  refine hw.tree_induction ha (P := fun id => id < doc.size → (doc.subtreeOrder id).Nodup)
    (fun id ih hid => ?_) id
  have hchild {c : NodeId} (hc : c ∈ doc.children id) : doc.parentOf c = some id :=
    (hw.mem_children.mp hc).1
  rw [subtreeOrder_eq hw ha, cons_append, nodup_cons, mem_append, not_or,
    nodup_append', nodup_flatMap]
  refine ⟨⟨fun hm => ?_, fun hm => ?_⟩, hw.attributes_nodup id, ⟨fun c hc => ?_, ?_⟩, ?_⟩
  · exact ha id (.parent ((hw.mem_attributes id id).mp hm).1)
  · obtain ⟨c, hc, hm⟩ := mem_flatMap.mp hm
    exact ha id (ancestor_of_child (hchild hc) (hw.mem_subtreeOrder.mp hm))
  · exact ih c hc (lt_size_of_parentOf (hchild hc))
  · refine (hw.children_nodup id).imp_of_mem fun hc he hne x hxc hxe => ?_
    exact siblings_apart (ha id) (hchild hc) (hchild he) hne (hw.mem_subtreeOrder.mp hxc)
      (hw.mem_subtreeOrder.mp hxe)
  · -- an attribute stands below its element and below no child of it
    intro x hx hm
    obtain ⟨hp, hk⟩ := (hw.mem_attributes id x).mp hx
    obtain ⟨c, hc, hm⟩ := mem_flatMap.mp hm
    rcases hw.mem_subtreeOrder.mp hm with rfl | hup
    · exact (hw.mem_children.mp hc).2 hk
    · rcases hup.of_parent hp with rfl | hup
      · exact ha c (.parent (hchild hc))
      · exact ha id (.trans (.parent (hchild hc)) hup)

/-! ## The order of the table -/

/-- Every node stands below one that stands below nothing. -/
theorem Linked.exists_top (hw : doc.Linked) (ha : doc.Acyclic) (hx : x < doc.size) :
    ∃ top, top < doc.size ∧ doc.parentOf top = none ∧ (x = top ∨ doc.Ancestor top x) := by
  -- a table has no endless way up
  let Above (a b : Fin doc.size) : Prop := doc.Ancestor a b
  have : IsTrans _ Above := ⟨fun _ _ _ => .trans⟩
  have : Std.Irrefl Above := ⟨fun a => ha a⟩
  refine (Finite.wellFounded_of_trans_of_irrefl Above).induction
    (C := fun y => ∃ top, top < doc.size ∧ doc.parentOf top = none ∧
      ((y : NodeId) = top ∨ doc.Ancestor top y)) ⟨x, hx⟩ fun y ih => ?_
  cases hp : doc.parentOf y with
  | none => exact ⟨y, y.isLt, hp, .inl rfl⟩
  | some p =>
    obtain ⟨top, htop, hnone, hup⟩ := ih ⟨p, (hw.container p y hp).lt_size⟩ (.parent hp)
    exact ⟨top, htop, hnone, .inr (ancestor_of_parentOf hp hup)⟩

theorem mem_roots (hroot : doc.parentOf root = none) (hsize : 0 < doc.size) :
    x ∈ root :: doc.detachedRoots ↔ x < doc.size ∧ doc.parentOf x = none := by
  rw [mem_cons, detachedRoots, mem_filter, mem_range, Bool.and_eq_true,
    bne_iff_ne, Option.isNone_iff_eq_none]
  constructor
  · rintro (rfl | ⟨hx, -, hp⟩)
    · exact ⟨hsize, hroot⟩
    · exact ⟨hx, hp⟩
  · rintro ⟨hx, hp⟩
    by_cases hne : x = root
    · exact .inl hne
    · exact .inr ⟨hx, hne, hp⟩

theorem roots_nodup (doc : Document) : (root :: doc.detachedRoots).Nodup := by
  rw [nodup_cons]
  refine ⟨fun hm => ?_, nodup_range.filter _⟩
  have hne := (mem_filter.mp hm).2
  simp at hne

/-- **Document order holds every node of the table once.** -/
theorem Linked.order_perm (hw : doc.Linked) (ha : doc.Acyclic) (hroot : doc.parentOf root = none)
    (hsize : 0 < doc.size) : doc.order.Perm (List.range doc.size) := by
  have hroots {r : NodeId} := mem_roots (x := r) hroot hsize
  have hnodup : doc.order.Nodup := by
    rw [order, nodup_flatMap]
    refine ⟨fun r hr => subtreeOrder_nodup hw ha (hroots.mp hr).1, ?_⟩
    refine (roots_nodup doc).imp_of_mem fun {a b} hma hmb hne x hxa hxb => ?_
    -- neither of two roots stands below the other
    have hnot {r s : NodeId} (hs : s ∈ root :: doc.detachedRoots) : ¬ doc.Ancestor r s := by
      intro hup
      obtain ⟨p, hp⟩ := hup.exists_parent
      rw [(hroots.mp hs).2] at hp
      cases hp
    rcases hw.mem_subtreeOrder.mp hxa with rfl | hxa <;>
      rcases hw.mem_subtreeOrder.mp hxb with rfl | hxb
    · exact hne rfl
    · exact hnot hma hxb
    · exact hnot hmb hxa
    · rcases hxa.eq_or_above hxb with h | h | h
      · exact hne h
      · exact hnot hmb h
      · exact hnot hma h
  rw [perm_ext_iff_of_nodup hnodup nodup_range]
  intro x
  rw [order, mem_flatMap, mem_range]
  constructor
  · rintro ⟨r, hr, hx⟩
    rcases hw.mem_subtreeOrder.mp hx with rfl | hup
    · exact (hroots.mp hr).1
    · exact hup.lt_size
  · intro hx
    obtain ⟨top, htop, hnone, hup⟩ := hw.exists_top ha hx
    exact ⟨top, hroots.mpr ⟨htop, hnone⟩, hw.mem_subtreeOrder.mpr hup⟩

/-! ## Positions -/

theorem rankFrom_getD {ids : List NodeId} (hnd : ids.Nodup) (next last : Nat) (ranks : Array Nat)
    (hlt : ∀ y ∈ ids, y < ranks.size) :
    (rankFrom ids next ranks).getD x last =
      if x ∈ ids then next + ids.idxOf x else ranks.getD x last := by
  induction ids generalizing next ranks with
  | nil => rfl
  | cons y ids ih =>
    obtain ⟨hy, hnd⟩ := nodup_cons.mp hnd
    obtain ⟨hylt, hlt⟩ := forall_mem_cons.mp hlt
    rw [rankFrom, ih hnd _ _ (by simpa using hlt)]
    by_cases hx : x = y
    · subst hx
      simp [hy, hylt, Array.getD_eq_getD_getElem?]
    · by_cases hm : x ∈ ids
      · simp [hm, idxOf_cons_ne _ (Ne.symm hx)]
        omega
      · simp [hm, hx, Ne.symm hx, Array.getD_eq_getD_getElem?]

/-- **The numbers written down are the positions.** -/
theorem ranks_getD (h : doc.order.Perm (List.range doc.size)) (hx : x < doc.size) (last : Nat) :
    doc.ranks.getD x last = doc.order.idxOf x := by
  have hnd : doc.order.Nodup := h.nodup_iff.mpr nodup_range
  have hmem {y : NodeId} : y ∈ doc.order ↔ y < doc.size := h.mem_iff.trans mem_range
  rw [ranks, rankFrom_getD hnd _ _ _ fun y hy => by simpa using hmem.mp hy, if_pos (hmem.mpr hx),
    Nat.zero_add]

/-! ## Sorting -/

/-- Dropping repetitions from a list that is in order leaves its members, in strict order. -/
theorem eraseReps_loop {key : NodeId → Nat} (a : NodeId) (ids acc : List NodeId)
    (hsorted : (a :: ids).Pairwise fun x y => key x ≤ key y)
    (hinj : ∀ x ∈ a :: ids, ∀ y ∈ a :: ids, key x = key y → x = y) :
    ∃ rest, List.eraseRepsBy.loop (· == ·) a ids acc = acc.reverse ++ a :: rest ∧
      (∀ x, x ∈ a :: rest ↔ x ∈ a :: ids) ∧ (a :: rest).Pairwise fun x y => key x < key y := by
  induction ids generalizing a acc with
  | nil =>
    refine ⟨[], ?_, fun x => Iff.rfl, pairwise_singleton _ _⟩
    rw [List.eraseRepsBy.loop, reverse_cons]
  | cons b ids ih =>
    obtain ⟨hfirst, hrest⟩ := pairwise_cons.mp hsorted
    rw [List.eraseRepsBy.loop]
    by_cases hab : a = b
    · subst hab
      obtain ⟨rest, hloop, hmem, hstrict⟩ := ih a acc hrest fun x hx y hy =>
        hinj x (mem_cons_of_mem _ hx) y (mem_cons_of_mem _ hy)
      refine ⟨rest, by simpa using hloop, fun x => ?_, hstrict⟩
      rw [hmem x]
      simp
    · obtain ⟨rest, hloop, hmem, hstrict⟩ := ih b (a :: acc) hrest fun x hx y hy =>
        hinj x (mem_cons_of_mem _ hx) y (mem_cons_of_mem _ hy)
      have hlt : key a < key b := by
        have hle := hfirst b mem_cons_self
        have hne : key a ≠ key b := fun he => hab (hinj a (by simp) b (by simp) he)
        omega
      refine ⟨b :: rest, ?_, fun x => ?_, ?_⟩
      · rw [beq_eq_false_iff_ne.mpr hab]
        simpa using hloop
      · rw [mem_cons, hmem x, ← mem_cons]
      · refine pairwise_cons.mpr ⟨fun x hx => ?_, hstrict⟩
        rcases mem_cons.mp hx with rfl | hx
        · exact hlt
        · have hbx := (pairwise_cons.mp hstrict).1 x hx
          omega

theorem sorted_by_key (key : NodeId → Nat) (ids : List NodeId)
    (hinj : ∀ x ∈ ids, ∀ y ∈ ids, key x = key y → x = y) :
    (∀ x, x ∈ (ids.mergeSort fun a b => key a ≤ key b).eraseReps ↔ x ∈ ids) ∧
      (ids.mergeSort fun a b => key a ≤ key b).eraseReps.Pairwise fun a b => key a < key b := by
  have hsorted : (ids.mergeSort fun a b => key a ≤ key b).Pairwise fun a b => key a ≤ key b := by
    have h := @pairwise_mergeSort NodeId (fun a b => decide (key a ≤ key b))
      (by simp only [decide_eq_true_eq]; omega)
      (by simp only [Bool.or_eq_true, decide_eq_true_eq]; omega) ids
    simpa using h
  have hmem (x : NodeId) : (x ∈ ids.mergeSort fun a b => key a ≤ key b) ↔ x ∈ ids :=
    mem_mergeSort
  generalize (ids.mergeSort fun a b => key a ≤ key b) = sorted at hsorted hmem
  cases sorted with
  | nil => exact ⟨fun x => hmem x, .nil⟩
  | cons a rest =>
    obtain ⟨kept, hloop, hkept, hstrict⟩ := eraseReps_loop a rest [] hsorted fun x hx y hy =>
      hinj x ((hmem x).mp hx) y ((hmem y).mp hy)
    have heq : (a :: rest).eraseReps = a :: kept := hloop
    rw [heq]
    exact ⟨fun x => (hkept x).trans (hmem x), hstrict⟩

theorem idxOf_range {n : Nat} (hx : x < n) : (List.range n).idxOf x = x := by
  have hat := nodup_range.idxOf_getElem x (by simpa using hx)
  rwa [getElem_range] at hat

/-- **Sorting is by positions in document order**, with the mark and without it. -/
theorem sorted_by_position (hperm : doc.order.Perm (List.range doc.size))
    (hnumbers : doc.edited = false → doc.order = List.range doc.size) {ids : List NodeId}
    (hids : ∀ x ∈ ids, x < doc.size) :
    (∀ x, x ∈ doc.sort ids ↔ x ∈ ids) ∧
      (doc.sort ids).Pairwise fun a b => doc.order.idxOf a < doc.order.idxOf b := by
  have hinj : ∀ x ∈ ids, ∀ y ∈ ids, doc.order.idxOf x = doc.order.idxOf y → x = y := by
    intro x hx y hy he
    exact (idxOf_inj (hperm.mem_iff.mpr (mem_range.mpr (hids x hx)))).mp he
  have key (rank : NodeId → Nat) (hrank : ∀ x, x < doc.size → rank x = doc.order.idxOf x) :
      (∀ x, x ∈ (ids.mergeSort fun a b => rank a ≤ rank b).eraseReps ↔ x ∈ ids) ∧
        (ids.mergeSort fun a b => rank a ≤ rank b).eraseReps.Pairwise
          fun a b => doc.order.idxOf a < doc.order.idxOf b := by
    obtain ⟨hmem, hstrict⟩ := sorted_by_key rank ids fun x hx y hy he =>
      hinj x hx y hy (by rw [← hrank x (hids x hx), ← hrank y (hids y hy), he])
    refine ⟨hmem, hstrict.imp_of_mem fun {a b} ha hb hlt => ?_⟩
    rwa [hrank a (hids a ((hmem a).mp ha)), hrank b (hids b ((hmem b).mp hb))] at hlt
  rw [sort]
  split
  · exact key _ fun x hx => ranks_getD hperm hx _
  · next hmark =>
    refine key (fun x => x) fun x hx => ?_
    rw [hnumbers (Bool.eq_false_iff.mpr hmark), idxOf_range hx]

end Xml.Document
