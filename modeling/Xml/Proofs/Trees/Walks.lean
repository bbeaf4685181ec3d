import Xml.Proofs.Trees.Growing

/-!
# Walks over trees

A walk tells something when it comes to a node, goes on to the children in order, and tells
something when it leaves the node. It carries the size of the table as a bound on the depth. Where
the links fit together and do not turn back, the bound does not show (`walk_eq`).

While a document is built, new nodes come to stand at the end of its last open element, and the open
elements are the right edge of the tree (`Spine`). What is told of a new node then comes behind all
that was told on the way in and before what is told on the way out of the open elements
(`Extends.walk_spine`).
-/

namespace Xml.Document

open List

variable {doc d : Document} {β : Type} {enter leave enter' leave' : NodeId → List β}
  {p n : NodeId} {path : List NodeId}

/-! ## Walks -/

/-- What a walk over a node and what is below it tells, down to a depth. -/
def walkTo (doc : Document) (enter leave : NodeId → List β) : Nat → NodeId → List β
  | 0, _ => []
  | depth + 1, id =>
    enter id ++ (doc.children id).flatMap (doc.walkTo enter leave depth) ++ leave id

/-- What a walk over a node and what is below it tells. -/
def walk (doc : Document) (enter leave : NodeId → List β) (id : NodeId) : List β :=
  doc.walkTo enter leave doc.size id

/-- **Induction from the children to their parent.** -/
theorem Linked.tree_induction (hw : doc.Linked) (ha : doc.Acyclic) {P : NodeId → Prop}
    (step : ∀ id, (∀ c ∈ doc.children id, P c) → P id) (id : NodeId) : P id := by
  have within (depth : Nat) : ∀ id, doc.WithinDepth depth id → P id := by
    induction depth with
    | zero => exact fun _ h => h.elim
    | succ depth ih => exact fun id h => step id fun c hc => ih c (h c hc)
  rcases Nat.lt_or_ge id doc.size with hid | hid
  · exact within _ id ((ha.treeBelow id).withinDepth hw hid)
  · refine step id fun c hc => ?_
    rw [children_of_size_le hw hid] at hc
    cases hc

theorem WithinDepth.walkTo_succ {depth : Nat} {id : NodeId} (h : doc.WithinDepth depth id) :
    doc.walkTo enter leave depth id = doc.walkTo enter leave (depth + 1) id := by
  induction depth generalizing id with
  | zero => exact h.elim
  | succ depth ih =>
    rw [walkTo, flatMap_congr fun c hc => ih (h c hc)]
    rfl

/-- **The bound of a walk does not show.** -/
theorem walk_eq (hw : doc.Linked) (ha : doc.Acyclic) {id : NodeId} (hid : id < doc.size) :
    doc.walk enter leave id =
      enter id ++ (doc.children id).flatMap (doc.walk enter leave) ++ leave id :=
  ((ha.treeBelow id).withinDepth hw hid).walkTo_succ

theorem walk_of_nodes_eq (h : d.nodes = doc.nodes) :
    d.walk enter leave = doc.walk enter leave := by
  have hsize : d.size = doc.size := congrArg Array.size h
  have hdepth (depth : Nat) : d.walkTo enter leave depth = doc.walkTo enter leave depth := by
    induction depth with
    | zero => rfl
    | succ depth ih =>
      funext id
      rw [walkTo, walkTo, children_of_nodes_eq h, ih]
  funext id
  rw [walk, walk, hsize, hdepth]

/-- A walk tells the same in two documents, if it comes to the same nodes and is told the same of
each. -/
theorem walk_congr (hw : doc.Linked) (ha : doc.Acyclic) (hw' : d.Linked) (ha' : d.Acyclic)
    {S : NodeId → Prop} (hlt : ∀ x, S x → x < doc.size ∧ x < d.size)
    (hchildren : ∀ x, S x → d.children x = doc.children x)
    (hbelow : ∀ x, S x → ∀ c ∈ doc.children x, S c)
    (htold : ∀ x, S x → enter' x = enter x ∧ leave' x = leave x) (x : NodeId) (hx : S x) :
    d.walk enter' leave' x = doc.walk enter leave x := by
  revert hx
  refine hw.tree_induction ha (P := fun x => S x → d.walk enter' leave' x = doc.walk enter leave x)
    (fun x ih hx => ?_) x
  obtain ⟨henter, hleave⟩ := htold x hx
  rw [walk_eq hw ha (hlt x hx).1, walk_eq hw' ha' (hlt x hx).2, henter, hleave, hchildren x hx]
  congr 2
  exact flatMap_congr fun c hc => ih c hc (hbelow x hx c hc)

/-! ## The right edge -/

/-- Each node is the last child of the one behind it. -/
def Spine (doc : Document) (path : List NodeId) : Prop :=
  path.IsChain fun c p => (doc.children p).getLast? = some c

theorem Linked.parentOf_of_getLast? (hw : doc.Linked) {c : NodeId}
    (h : (doc.children p).getLast? = some c) : doc.parentOf c = some p :=
  (hw.mem_children.mp (mem_of_getLast? h)).1

theorem Spine.ancestor (hw : doc.Linked) (h : doc.Spine (p :: path)) :
    ∀ x ∈ path, doc.Ancestor x p := by
  induction path generalizing p with
  | nil => exact forall_mem_nil _
  | cons q path ih =>
    obtain ⟨hq, hrest⟩ := isChain_cons_cons.mp h
    have hp := hw.parentOf_of_getLast? hq
    intro x hx
    rcases mem_cons.mp hx with rfl | hx
    · exact .parent hp
    · exact .above hp (ih hrest x hx)

theorem Spine.lt_size (hw : doc.Linked) (h : doc.Spine (p :: path)) :
    ∀ x ∈ path, x < doc.size := by
  intro x hx
  exact ((h.ancestor hw x hx).container hw).lt_size

theorem Spine.congr (h : doc.Spine (p :: path))
    (hchildren : ∀ x ∈ path, d.children x = doc.children x) : d.Spine (p :: path) := by
  induction path generalizing p with
  | nil => exact .singleton _
  | cons q path ih =>
    obtain ⟨hq, hrest⟩ := isChain_cons_cons.mp h
    obtain ⟨hsame, hall⟩ := forall_mem_cons.mp hchildren
    exact isChain_cons_cons.mpr ⟨hsame ▸ hq, ih hrest hall⟩

/-- What is put under the first node of the edge leaves the edge as it is. -/
theorem Extends.spine {ids : List NodeId} (h : Extends doc d p ids) (hw : doc.Linked)
    (ha : doc.Acyclic) (hspine : doc.Spine (p :: path)) : d.Spine (p :: path) := by
  refine hspine.congr fun x hx => ?_
  have hne : x ≠ p := by
    rintro rfl
    exact ha x (hspine.ancestor hw x hx)
  rw [h.children x (hspine.lt_size hw x hx), if_neg hne]

/-- A new last child of its first node makes the edge longer. -/
theorem Extends.spine_cons (h : Extends doc d p [n]) (hw : doc.Linked) (ha : doc.Acyclic)
    (hp : p < doc.size) (hspine : doc.Spine (p :: path)) : d.Spine (n :: p :: path) := by
  refine isChain_cons_cons.mpr ⟨?_, h.spine hw ha hspine⟩
  rw [h.children p hp, if_pos rfl, getLast?_concat]

/-- Nothing is told anew of what does not stand above the place where something was added. -/
theorem Extends.walk_eq_of_outside (h : Extends doc d p [n]) (hw : doc.Linked) (ha : doc.Acyclic)
    (hw' : d.Linked) (ha' : d.Acyclic)
    (htold : ∀ x, x < doc.size → enter' x = enter x ∧ leave' x = leave x) {x : NodeId}
    (hx : x < doc.size) (hout : doc.Outside x p) :
    d.walk enter' leave' x = doc.walk enter leave x := by
  refine walk_congr hw ha hw' ha' (S := fun x => x < doc.size ∧ doc.Outside x p)
    (fun x hx => ⟨hx.1, Nat.lt_of_lt_of_le hx.1 h.size_le⟩) (fun x hx => ?_) (fun x hx c hc => ?_)
    (fun x hx => htold x hx.1) x ⟨hx, hout⟩
  · rw [h.children x hx.1, if_neg fun he => hx.2 (.inl he)]
  · have hp : doc.parentOf c = some x := (hw.mem_children.mp hc).1
    refine ⟨lt_size_of_parentOf hp, ?_⟩
    rintro (rfl | hc)
    · exact hx.2 (.inr (.parent hp))
    · exact hx.2 (.inr (.trans (.parent hp) hc))

/-- **What is told of a new node at the end of the edge** comes behind all that was told, but for
what is told on the way out of the edge. -/
theorem Extends.walk_spine (h : Extends doc d p [n]) (hw : doc.Linked) (ha : doc.Acyclic)
    (hw' : d.Linked) (ha' : d.Acyclic)
    (htold : ∀ x, x < doc.size → enter' x = enter x ∧ leave' x = leave x) (hp : p < doc.size)
    (hspine : doc.Spine (p :: path)) {top : NodeId} (htop : (p :: path).getLast? = some top) :
    ∃ told, doc.walk enter leave top = told ++ (p :: path).flatMap leave ∧
      d.walk enter' leave' top =
        told ++ d.walk enter' leave' n ++ (p :: path).flatMap leave := by
  induction path using List.reverseRecOn generalizing top with
  | nil =>
    obtain rfl : p = top := by simpa using htop
    have hsame : (doc.children p).flatMap (d.walk enter' leave') =
        (doc.children p).flatMap (doc.walk enter leave) := by
      refine flatMap_congr fun c hc => ?_
      have hup : doc.parentOf c = some p := (hw.mem_children.mp hc).1
      refine h.walk_eq_of_outside hw ha hw' ha' htold (lt_size_of_parentOf hup) ?_
      rintro (rfl | hc)
      · exact ha c (.parent hup)
      · exact ha p (.trans (.parent hup) hc)
    refine ⟨enter p ++ (doc.children p).flatMap (doc.walk enter leave), ?_, ?_⟩
    · rw [walk_eq hw ha hp, flatMap_singleton]
    · rw [walk_eq hw' ha' (Nat.lt_of_lt_of_le hp h.size_le), h.children p hp, if_pos rfl,
        flatMap_append, hsame, flatMap_singleton, (htold p hp).1, (htold p hp).2,
        flatMap_singleton]
      simp only [append_assoc]
  | append_singleton path q ih =>
    obtain rfl : q = top := by
      rw [← cons_append, getLast?_concat] at htop
      exact Option.some.inj htop
    obtain ⟨c, hc⟩ : ∃ c, (p :: path).getLast? = some c := ⟨_, getLast?_cons⟩
    obtain ⟨hpath, -, hlast⟩ : doc.Spine (p :: path) ∧ doc.Spine [q] ∧ _ :=
      isChain_append.mp hspine
    obtain ⟨others, hothers⟩ := getLast?_eq_some_iff.mp (hlast c hc q rfl)
    obtain ⟨told, hold, hnew⟩ := ih hpath hc
    have hq : q < doc.size := hspine.lt_size hw q (by simp)
    have hchild {x : NodeId} (hx : x ∈ others ++ [c]) : doc.parentOf x = some q :=
      (hw.mem_children.mp (hothers ▸ hx)).1
    have hup : p = c ∨ doc.Ancestor c p := by
      rcases mem_cons.mp (mem_of_getLast? hc) with rfl | hm
      · exact .inl rfl
      · exact .inr (hpath.ancestor hw c hm)
    have hsame : others.flatMap (d.walk enter' leave') =
        others.flatMap (doc.walk enter leave) := by
      refine flatMap_congr fun x hx => ?_
      have hxq := hchild (mem_append_left [c] hx)
      have hnodup := hw.children_nodup q
      rw [hothers] at hnodup
      have hne : x ≠ c := by
        rintro rfl
        exact disjoint_of_nodup_append hnodup hx mem_cons_self
      refine h.walk_eq_of_outside hw ha hw' ha' htold (lt_size_of_parentOf hxq) fun hxp => ?_
      exact siblings_apart (ha q) hxq (hchild mem_concat_self) hne (hxp.imp_left Eq.symm) hup
    have hkept : d.children q = others ++ [c] := by
      have hne : q ≠ p := by
        rintro rfl
        exact ha q (hspine.ancestor hw q (by simp))
      rw [h.children q hq, if_neg hne, hothers]
    refine ⟨enter q ++ others.flatMap (doc.walk enter leave) ++ told, ?_, ?_⟩
    · rw [walk_eq hw ha hq, hothers, flatMap_append, flatMap_singleton, hold,
        ← cons_append, flatMap_append, flatMap_singleton]
      simp only [append_assoc]
    · rw [walk_eq hw' ha' (Nat.lt_of_lt_of_le hq h.size_le), hkept, flatMap_append, hsame,
        flatMap_singleton, hnew, (htold q hq).1, (htold q hq).2, ← cons_append,
        flatMap_append, flatMap_singleton]
      simp only [append_assoc]

end Xml.Document
