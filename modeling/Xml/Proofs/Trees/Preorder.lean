import Xml.Proofs.Links.Relink
import Xml.Proofs.Trees.Basic

/-!
# The walk over what is below a node

The walk keeps nothing but the node it is at. From a node without children it climbs until a sibling
comes next, and it is at an end when it has climbed to the node it was started for. Here it is
compared with the recursion over the children.

A walk that has come to a node goes over the subtree of that node and comes out behind it
(`Linked.visits_subtreeTo`): by induction on the depth, and over the children from each one on. So it
ends where what is below a node is a tree. Nowhere else does it end (`Linked.treeBelow_of_visits`):
otherwise the walk would come to the node it was started for, and from there on never be shorter.

* `Linked.descendants?_eq_some_iff` — where the walk ends, and what it has come to then
* `Linked.subtree_eq_subtreeTo`, `TreeBelow.subtree_eq` — parents first, children in their order
-/

namespace Xml.Document

open List

variable {doc : Document} {id top p c x : NodeId} {depth : Nat}

/-! ## Walks -/

/-- A walk from `start` comes to the nodes of the list, one after the other, and then to `stop`. -/
def Visits (next : NodeId → Option NodeId) :
    (start : Option NodeId) → List NodeId → (stop : Option NodeId) → Prop
  | start, [], stop => start = stop
  | start, x :: xs, stop => start = some x ∧ Visits next (next x) xs stop

namespace Visits

variable {next : NodeId → Option NodeId} {start middle stop : Option NodeId} {xs ys : List NodeId}

theorem append (h : Visits next start xs middle) (h' : Visits next middle ys stop) :
    Visits next start (xs ++ ys) stop := by
  induction xs generalizing start with
  | nil =>
    subst h
    exact h'
  | cons x xs ih => exact ⟨h.1, ih h.2⟩

/-- A walk that ends goes on from everywhere it has come to. -/
theorem rest (h : Visits next start xs middle) (h' : Visits next start ys none) :
    ∃ zs, ys = xs ++ zs ∧ Visits next middle zs none := by
  induction xs generalizing start ys with
  | nil =>
    subst h
    exact ⟨ys, rfl, h'⟩
  | cons x xs ih =>
    obtain ⟨rfl, h⟩ := h
    cases ys with
    | nil => cases h'
    | cons y ys =>
      obtain ⟨hy, h'⟩ := h'
      obtain rfl := Option.some.inj hy
      obtain ⟨zs, rfl, hzs⟩ := ih h h'
      exact ⟨zs, rfl, hzs⟩

theorem unique (h : Visits next start xs none) (h' : Visits next start ys none) : ys = xs := by
  obtain ⟨zs, rfl, hzs⟩ := h.rest h'
  cases zs with
  | nil => exact append_nil xs
  | cons z zs => cases hzs.1

end Visits

theorem walk?_eq_some_iff {next : NodeId → Option NodeId} {bound : Nat} {start : Option NodeId}
    {xs : List NodeId} :
    walk? next bound start = some xs ↔ Visits next start xs none ∧ xs.length ≤ bound := by
  induction bound generalizing start xs with
  | zero =>
    cases start with
    | none => cases xs <;> simp [walk?, Visits]
    | some id => cases xs <;> simp [walk?, Visits]
  | succ bound ih =>
    cases start with
    | none => cases xs <;> simp [walk?, Visits]
    | some id =>
      cases xs with
      | nil => simp [walk?, Visits]
      | cons x xs =>
        by_cases hx : id = x
        · subst hx
          simp [walk?, Visits, ih]
        · simp [walk?, Visits, hx]

/-! ## Behind a node -/

/-- The way up to a node, without that node, does not depend on a bound that lets it be reached. -/
theorem Climbs.takeWhile_chain {path : List NodeId} {bound : Nat} (h : doc.Climbs (c :: path))
    (hnodup : (c :: path).Nodup) (hlast : (c :: path).getLast? = some top)
    (hb : path.length < bound) :
    (chain doc.parentOf bound (some c)).takeWhile (· != top) = (c :: path).dropLast := by
  induction path generalizing c bound with
  | nil =>
    obtain ⟨bound, rfl⟩ := Nat.exists_eq_add_of_lt hb
    obtain rfl : c = top := Option.some.inj hlast
    simp [chain]
  | cons q path ih =>
    obtain ⟨bound, rfl⟩ := Nat.exists_eq_add_one_of_ne_zero (Nat.ne_zero_of_lt hb)
    obtain ⟨hq, hclimbs⟩ := isChain_cons_cons.mp h
    obtain ⟨hc, hnodup⟩ := nodup_cons.mp hnodup
    rw [getLast?_cons_cons] at hlast
    have hne : c ≠ top := by
      rintro rfl
      exact hc (mem_of_getLast? hlast)
    have hpos : (c != top) = true := bne_iff_ne.mpr hne
    rw [chain, hq, takeWhile_cons, if_pos hpos,
      ih hclimbs hnodup hlast (Nat.lt_of_succ_lt_succ hb), dropLast_cons_cons]

theorem behind?_self (doc : Document) (top : NodeId) : doc.behind? top top = none := by
  rw [behind?, lineage]
  cases doc.size with
  | zero => rfl
  | succ n => simp [chain]

/-- **One step up.** Behind a node comes its next sibling, or else what is behind its parent. -/
theorem Linked.behind?_eq (hw : doc.Linked) (hup : doc.Ancestor top c) (hne : c ≠ top)
    (hp : doc.parentOf c = some p) : doc.behind? top c = (doc.nextOf c).or (doc.behind? top p) := by
  obtain ⟨path, hclimbs, hnodup, hlast⟩ := hup.exists_path
  have hlen := length_le_size hnodup (hclimbs.lt_size hw (lt_size_of_parentOf hp))
  cases path with
  | nil => exact absurd (Option.some.inj hlast) hne
  | cons q path =>
    obtain ⟨hq, hrest⟩ := isChain_cons_cons.mp hclimbs
    obtain rfl := Option.some.inj (hp.symm.trans hq)
    have hrest : doc.Climbs (p :: path) := hrest
    have hwhole := hclimbs.takeWhile_chain hnodup hlast hlen
    have habove := hrest.takeWhile_chain (nodup_cons.mp hnodup).2
      (by rwa [getLast?_cons_cons] at hlast) (Nat.lt_of_succ_lt hlen)
    rw [dropLast_cons_cons, ← habove] at hwhole
    rw [behind?, lineage, hwhole, findSome?_cons, nextOf]
    cases (doc.get? c).bind (·.nextSibling) with
    | none => rfl
    | some next => rfl

/-- From the node it was started for, the walk would start again. -/
theorem nextBelow?_self (doc : Document) (top : NodeId) :
    doc.nextBelow? top top = doc.firstOf top := by
  rw [nextBelow?, behind?_self, Option.or_none]
  rfl

theorem Linked.nextBelow?_eq (hw : doc.Linked) (top id : NodeId) :
    doc.nextBelow? top id = (doc.children id).head?.or (doc.behind? top id) := by
  rw [← (hw.chain id).first]
  rfl

/-- Behind a child comes the child after it, or else what is behind the parent. -/
theorem Linked.behind?_child (hw : doc.Linked) {l r : List NodeId}
    (hcs : doc.children p = l ++ c :: r) (hup : p = top ∨ doc.Ancestor top p) (hne : c ≠ top) :
    doc.Ancestor top c ∧ doc.behind? top c = r.head?.or (doc.behind? top p) := by
  have hmem : c ∈ doc.children p := hcs ▸ mem_append_right l mem_cons_self
  have hp := (hw.mem_children.mp hmem).1
  have hanc : doc.Ancestor top c := ancestor_of_parentOf hp hup
  have hnext : doc.nextOf c = r.head? := by
    have hfollows := (hw.chain p).forward
    rw [hcs] at hfollows
    exact hfollows.at
  exact ⟨hanc, by rw [hw.behind?_eq hanc hne hp, hnext]⟩

/-! ## The walk and the recursion -/

theorem WithinDepth.length_subtreeTo_pos (h : doc.WithinDepth depth id) :
    0 < (doc.subtreeTo depth id).length := by
  cases depth with
  | zero => exact h.elim
  | succ depth => exact Nat.succ_pos _

/-- **The walk goes over a subtree and comes out behind it.** -/
theorem Linked.visits_subtreeTo (hw : doc.Linked) (htree : doc.TreeBelow c)
    (hdepth : doc.WithinDepth depth c) (hup : c = top ∨ doc.Ancestor top c) :
    Visits (doc.nextBelow? top) (some c) (doc.subtreeTo depth c) (doc.behind? top c) := by
  induction depth generalizing c with
  | zero => exact hdepth.elim
  | succ depth ih =>
    refine ⟨rfl, ?_⟩
    rw [hw.nextBelow?_eq]
    -- from each child on
    have from_child (l r : List NodeId) (hcs : doc.children c = l ++ r) :
        Visits (doc.nextBelow? top) (r.head?.or (doc.behind? top c))
          (r.flatMap (doc.subtreeTo depth)) (doc.behind? top c) := by
      induction r generalizing l with
      | nil => exact rfl
      | cons k r ihr =>
        have hmem : k ∈ doc.children c := hcs ▸ mem_append_right l mem_cons_self
        have hp := (hw.mem_children.mp hmem).1
        have hne : k ≠ top := by
          rintro rfl
          exact htree.irrefl (ancestor_of_child hp hup)
        obtain ⟨hanc, hbehind⟩ := hw.behind?_child hcs hup hne
        have hk := ih (htree.child hp) (hdepth k hmem) (.inr hanc)
        rw [hbehind] at hk
        exact hk.append (ihr (l ++ [k]) (by rw [hcs, append_assoc]; rfl))
    exact from_child [] (doc.children c) rfl

/-- **The walk ends where what is below a node is a tree.** -/
theorem Linked.visits_descendants (hw : doc.Linked) (htree : doc.TreeBelow id) :
    Visits (doc.nextBelow? id) (doc.firstOf id)
      ((doc.children id).flatMap (doc.subtreeTo doc.size)) none := by
  have hdepth : doc.WithinDepth (doc.size + 1) id := fun c hc =>
    have hp := (hw.mem_children.mp hc).1
    (htree.child hp).withinDepth hw (lt_size_of_parentOf hp)
  have hwalk := (hw.visits_subtreeTo htree hdepth (.inl rfl)).2
  rw [nextBelow?_self, behind?_self] at hwalk
  exact hwalk

/-- What is left of a walk that ends, from a child on, shows a tree below each of the children left.
The induction is on the length of what is left. -/
theorem Linked.treeBelow_of_rest (hw : doc.Linked) {whole xs l r : List NodeId}
    (hwhole : Visits (doc.nextBelow? top) (doc.firstOf top) whole none)
    (hlen : xs.length ≤ whole.length) (hcs : doc.children p = l ++ r)
    (hup : p = top ∨ doc.Ancestor top p)
    (hxs : Visits (doc.nextBelow? top) (r.head?.or (doc.behind? top p)) xs none) :
    ∀ k ∈ r, doc.TreeBelow k := by
  generalize hn : xs.length = n
  induction n using Nat.strong_induction_on generalizing xs l r p with
  | _ n ih =>
    cases r with
    | nil => exact forall_mem_nil _
    | cons k r =>
      cases xs with
      | nil => cases hxs
      | cons x rest =>
        have hall : Visits (doc.nextBelow? top) (some k) (x :: rest) none := hxs
        obtain ⟨hx, hrest⟩ := hxs
        obtain rfl := Option.some.inj hx
        rw [length_cons] at hn hlen
        have hne : k ≠ top := by
          -- what is left would be as long as the whole
          rintro rfl
          rw [nextBelow?_self] at hrest
          have hsame := congrArg length (hwhole.unique hrest)
          omega
        obtain ⟨hanc, hbehind⟩ := hw.behind?_child hcs hup hne
        have hk : doc.TreeBelow k := by
          rw [hw.nextBelow?_eq] at hrest
          exact .of_children hw
            (ih rest.length (by omega) (by omega) (nil_append _).symm (.inr hanc) hrest rfl)
        have hlt : k < doc.size := hw.lt_size_of_mem (hcs ▸ mem_append_right l mem_cons_self)
        have hdepth := hk.withinDepth hw hlt
        obtain ⟨zs, hzs, hbehindk⟩ := (hw.visits_subtreeTo hk hdepth (.inr hanc)).rest hall
        rw [hbehind] at hbehindk
        have hpos := hdepth.length_subtreeTo_pos
        have hsplit := congrArg length hzs
        rw [length_cons, length_append] at hsplit
        have hcs' : doc.children p = (l ++ [k]) ++ r := by rw [hcs, append_assoc]; rfl
        exact forall_mem_cons.mpr
          ⟨hk, ih zs.length (by omega) (by omega) hcs' hup hbehindk rfl⟩

/-- **The walk ends nowhere else.** -/
theorem Linked.treeBelow_of_visits (hw : doc.Linked) {whole : List NodeId}
    (h : Visits (doc.nextBelow? top) (doc.firstOf top) whole none) : doc.TreeBelow top := by
  refine .of_children hw
    (hw.treeBelow_of_rest h (Nat.le_refl _) (nil_append _).symm (.inl rfl) ?_)
  rwa [← hw.nextBelow?_eq, nextBelow?_self]

/-! ## Descendants and subtrees -/

theorem Linked.length_descendants_le (hw : doc.Linked) (htree : doc.TreeBelow id) :
    ((doc.children id).flatMap (doc.subtreeTo doc.size)).length ≤ doc.size := by
  have hnodup := (nodup_cons.mp (subtreeTo_nodup hw (doc.size + 1) htree)).2
  refine length_le_size hnodup fun x hx => ?_
  obtain ⟨c, hc, hx⟩ := mem_flatMap.mp hx
  have hp := (hw.mem_children.mp hc).1
  rcases mem_subtreeTo hw hx with rfl | hup
  · exact lt_size_of_parentOf hp
  · exact hup.lt_size

/-- **Where the walk ends, and what it has come to then.** -/
theorem Linked.descendants?_eq_some_iff (hw : doc.Linked) {xs : List NodeId} :
    doc.descendants? id = some xs ↔
      doc.TreeBelow id ∧ xs = (doc.children id).flatMap (doc.subtreeTo doc.size) := by
  rw [descendants?, walk?_eq_some_iff]
  constructor
  · rintro ⟨hxs, -⟩
    have htree := hw.treeBelow_of_visits hxs
    exact ⟨htree, (hw.visits_descendants htree).unique hxs⟩
  · rintro ⟨htree, rfl⟩
    exact ⟨hw.visits_descendants htree, hw.length_descendants_le htree⟩

theorem Linked.descendants_eq_flatMap (hw : doc.Linked) (id : NodeId) :
    doc.descendants id = (doc.children id).flatMap (doc.subtreeTo doc.size) := by
  rw [descendants]
  cases h : doc.descendants? id with
  | none => rfl
  | some xs => exact (hw.descendants?_eq_some_iff.mp h).2

theorem Linked.descendants_eq_nil (hw : doc.Linked) (h : doc.children x = []) :
    doc.descendants x = [] := by
  rw [hw.descendants_eq_flatMap, h, flatMap_nil]

theorem Linked.descendants?_eq (hw : doc.Linked) (htree : doc.TreeBelow id) :
    doc.descendants? id = some (doc.descendants id) :=
  hw.descendants?_eq_some_iff.mpr ⟨htree, hw.descendants_eq_flatMap id⟩

theorem subtree_cons (doc : Document) (id : NodeId) :
    doc.subtree id = id :: doc.descendants id := rfl

theorem self_mem_subtree (doc : Document) (id : NodeId) : id ∈ doc.subtree id :=
  mem_cons_self

theorem Linked.subtree_eq_subtreeTo (hw : doc.Linked) (id : NodeId) :
    doc.subtree id = doc.subtreeTo (doc.size + 1) id := by
  rw [subtree, hw.descendants_eq_flatMap, subtreeTo]

theorem TreeBelow.subtreeTo_eq (hw : doc.Linked) (h : doc.TreeBelow id) (hid : id < doc.size)
    {bound : Nat} (hb : doc.size ≤ bound) : doc.subtreeTo bound id = doc.subtree id := by
  have hdepth := h.withinDepth hw hid
  obtain ⟨more, rfl⟩ := Nat.exists_eq_add_of_le hb
  rw [hdepth.subtreeTo_add, hw.subtree_eq_subtreeTo, hdepth.subtreeTo_add]

/-- **The subtree of a node is the node and the subtrees of its children.** -/
theorem TreeBelow.subtree_eq (hw : doc.Linked) (h : doc.TreeBelow id) :
    doc.subtree id = id :: (doc.children id).flatMap doc.subtree := by
  rw [subtree, hw.descendants_eq_flatMap]
  refine congrArg (id :: ·) (flatMap_congr fun c hc => ?_)
  have hp := (hw.mem_children.mp hc).1
  exact (h.child hp).subtreeTo_eq hw (lt_size_of_parentOf hp) (Nat.le_refl _)

theorem Linked.of_mem_subtree (hw : doc.Linked) (h : x ∈ doc.subtree id) :
    x = id ∨ doc.Ancestor id x :=
  mem_subtreeTo hw (hw.subtree_eq_subtreeTo id ▸ h)

end Xml.Document
