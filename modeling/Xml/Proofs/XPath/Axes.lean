import Mathlib.Data.List.Flatten
import Xml.Proofs.Order.Runs
import Xml.XPath.Axes

/-!
# The axes of a node

Around a node that is no attribute a tree falls into five parts: the node, its ancestors, what is
below it, what follows and what precedes it. The walk over the tree from its top comes to the
ancestors and to what precedes, then to the node with what is below it, and then to what follows
(`subtree_around`). So no node is left out and none comes twice, and each axis is in document order
or against it (`Axis.forward_sublist`). The walks over what is below a node all end
(`Linked.descendants?_eq`).
-/

namespace Xml.Document

variable {doc : Document} {id c p top x : NodeId}

/-- The entries that the link leads to are all but the first. -/
theorem Follows.flatMap_toList {f : NodeId → Option NodeId} {c : NodeId} {cs : List NodeId}
    (h : Follows f (c :: cs)) : (c :: cs).flatMap (fun a => (f a).toList) = cs := by
  induction cs generalizing c with
  | nil =>
    rw [List.flatMap_cons, h.1]
    rfl
  | cons d cs ih =>
    rw [List.flatMap_cons, h.1, ih h.2]
    rfl

/-! ## The top of a tree -/

/-- The tree that `x` is part of has its top at `top`. -/
def TopOf (doc : Document) (top x : NodeId) : Prop :=
  doc.parentOf top = none ∧ (x = top ∨ doc.Ancestor top x)

theorem TopOf.parent (h : doc.TopOf top c) (hp : doc.parentOf c = some p) : doc.TopOf top p := by
  obtain ⟨hfree, rfl | hup⟩ := h
  · cases hfree.symm.trans hp
  · exact ⟨hfree, (hup.of_parent hp).imp_left Eq.symm⟩

/-- **Induction from the top of a tree to its nodes.** -/
theorem TopOf.induction {P : NodeId → Prop} (h : doc.TopOf top x) (start : P top)
    (step : ∀ c p, doc.parentOf c = some p → doc.TopOf top p → P p → P c) : P x := by
  obtain ⟨hfree, rfl | hup⟩ := h
  · exact start
  · induction hup with
    | parent hp => exact step _ _ hp ⟨hfree, .inl rfl⟩ start
    | above hp rest ih => exact step _ _ hp ⟨hfree, .inr rest⟩ ih

theorem TopOf.lt_size (h : doc.TopOf top x) (hx : x < doc.size) (hw : doc.Linked) :
    top < doc.size := by
  obtain ⟨-, rfl | hup⟩ := h
  · exact hx
  · exact (hup.container hw).lt_size

theorem TopOf.not_attribute (h : doc.TopOf top x) (hw : doc.Linked)
    (hk : doc.kindOf x ≠ some .attribute) : doc.kindOf top ≠ some .attribute := by
  obtain ⟨-, rfl | hup⟩ := h
  · exact hk
  · exact (hup.container hw).not_attribute

theorem lineage_top (hw : doc.Linked) (hfree : doc.parentOf top = none) (htop : top < doc.size) :
    doc.lineage top = [top] := by
  obtain ⟨path, hpath, hfollows, -⟩ := hw.exists_lineage hfree htop (.inl rfl)
  have hnil : path = [] := List.head?_eq_none_iff.mp (hfollows.1.symm.trans hfree)
  rw [hpath, hnil]

theorem lineage_child (hw : doc.Linked) (ha : doc.Acyclic) (hp : doc.parentOf c = some p) :
    doc.lineage c = c :: doc.lineage p := by
  have hlt := lt_size_of_parentOf hp
  obtain ⟨top, -, hfree, hup⟩ := hw.exists_top ha hlt
  obtain ⟨path, hpath, ⟨hhead, hfollows⟩, hlength, -⟩ := hw.exists_lineage hfree hlt hup
  rw [List.length_cons] at hlength
  have hrest := hfollows.chain_eq (Nat.le_of_succ_le hlength)
  rw [← hhead, hp] at hrest
  rw [hpath, lineage, hrest]

theorem lineage_cons (hx : x < doc.size) : doc.lineage x = x :: (doc.lineage x).tail := by
  obtain ⟨n, hn⟩ := Nat.exists_eq_add_of_lt hx
  rw [lineage, hn]
  rfl

theorem not_attribute_of_mem_subtreeTo (hw : doc.Linked) {depth : Nat}
    (hk : doc.kindOf id ≠ some .attribute) (hx : x ∈ doc.subtreeTo depth id) :
    doc.kindOf x ≠ some .attribute := by
  induction depth generalizing id with
  | zero => cases hx
  | succ depth ih =>
    rw [subtreeTo, List.mem_cons, List.mem_flatMap] at hx
    rcases hx with rfl | ⟨c, hc, hx⟩
    · exact hk
    · exact ih (hw.mem_children.mp hc).2 hx

theorem TopOf.mem_subtree (hw : doc.Linked) (hfree : doc.parentOf top = none)
    (hk : doc.kindOf top ≠ some .attribute) :
    x ∈ doc.subtree top ↔ doc.TopOf top x ∧ doc.kindOf x ≠ some .attribute := by
  constructor
  · intro hx
    rw [hw.subtree_eq_subtreeTo] at hx
    exact ⟨⟨hfree, mem_subtreeTo hw hx⟩, not_attribute_of_mem_subtreeTo hw hk hx⟩
  · rintro ⟨⟨-, hup⟩, hx⟩
    exact hw.mem_subtree hup hx

theorem subtree_attribute (hw : doc.Linked) (hk : doc.kindOf id = some .attribute) :
    doc.children id = [] ∧ doc.subtree id = [id] := by
  have hchildren : doc.children id = [] :=
    hw.children_eq_nil fun hcon => hcon.not_attribute hk
  refine ⟨hchildren, ?_⟩
  rw [subtree, hw.descendants_eq_nil hchildren]

end Xml.Document

namespace Xml.XPath

open Document List

variable {doc : Document} {c p top x : NodeId} {l r : List NodeId}

/-! ## Siblings -/

theorem siblingsAfter_eq (hw : doc.Linked) (h : doc.children p = l ++ c :: r) :
    siblingsAfter doc c = r := by
  have hlength := hw.length_children_le p
  have hfollows := (hw.chain p).forward
  rw [h] at hlength hfollows
  exact hfollows.chain_at hlength

theorem siblingsBefore_eq (hw : doc.Linked) (h : doc.children p = l ++ c :: r) :
    siblingsBefore doc c = l.reverse := by
  have hlength := hw.length_children_le p
  have hfollows := (hw.chain p).backward
  rw [← length_reverse] at hlength
  rw [h, reverse_append, reverse_cons, append_assoc, singleton_append] at hlength hfollows
  exact hfollows.chain_at hlength

theorem siblings_top (hw : doc.Linked) (hfree : doc.parentOf top = none) :
    siblingsAfter doc top = [] ∧ siblingsBefore doc top = [] := by
  obtain ⟨hnext, hprev⟩ := hw.alone top (.inl hfree)
  refine ⟨?_, ?_⟩
  · show chain doc.nextOf doc.size (doc.nextOf top) = []
    rw [hnext]
    cases doc.size <;> rfl
  · show chain doc.prevOf doc.size (doc.prevOf top) = []
    rw [hprev]
    cases doc.size <;> rfl

/-! ## The walk around a node -/

/-- What a walk back from a node comes to: at each level the trees of the siblings before it, and
then the parent. -/
def walkBack (doc : Document) (id : NodeId) : List NodeId :=
  (doc.lineage id).flatMap fun a =>
    ((siblingsBefore doc a).flatMap fun s => (doc.subtree s).reverse) ++ (doc.parentOf a).toList

theorem walkBack_child (hw : doc.Linked) (ha : doc.Acyclic) (hp : doc.parentOf c = some p)
    (h : doc.children p = l ++ c :: r) :
    (walkBack doc c).reverse = (walkBack doc p).reverse ++ p :: l.flatMap doc.subtree := by
  have hback : (l.reverse.flatMap fun s => (doc.subtree s).reverse).reverse =
      l.flatMap doc.subtree := by
    rw [reverse_flatMap, reverse_reverse]
    congr 1
    funext s
    exact reverse_reverse _
  rw [walkBack, lineage_child hw ha hp, flatMap_cons, siblingsBefore_eq hw h, hp,
    reverse_append, reverse_append, hback, ← walkBack]
  rfl

theorem followingTree_child (hw : doc.Linked) (ha : doc.Acyclic) (hp : doc.parentOf c = some p)
    (h : doc.children p = l ++ c :: r) :
    followingTree doc c = r.flatMap doc.subtree ++ followingTree doc p := by
  rw [followingTree, lineage_child hw ha hp, flatMap_cons, siblingsAfter_eq hw h,
    ← followingTree]

/-- **Around a node.** The walk over a tree comes to what a walk back from the node comes to, to the
node with what is below it, and to what follows. -/
theorem subtree_around (hw : doc.Linked) (ha : doc.Acyclic) (htop : top < doc.size)
    (h : doc.TopOf top c) (hk : doc.kindOf c ≠ some .attribute) :
    doc.subtree top = (walkBack doc c).reverse ++ doc.subtree c ++ followingTree doc c := by
  revert hk
  refine h.induction (P := fun c => doc.kindOf c ≠ some .attribute → doc.subtree top =
    (walkBack doc c).reverse ++ doc.subtree c ++ followingTree doc c) (fun _ => ?_)
    (fun c p hp _ ih hk => ?_)
  · obtain ⟨hafter, hbefore⟩ := siblings_top hw h.1
    have hline := lineage_top hw h.1 htop
    have hback : walkBack doc top = [] := by
      simp [walkBack, hline, hbefore, h.1]
    have hfollow : followingTree doc top = [] := by
      simp [followingTree, hline, hafter]
    rw [hback, hfollow, reverse_nil, nil_append, append_nil]
  · have hcontainer := hw.container p c hp
    -- the subtree of the parent opens up around the child
    obtain ⟨l, r, hlr⟩ := append_of_mem (hw.mem_children.mpr ⟨hp, hk⟩)
    rw [ih hcontainer.not_attribute, walkBack_child hw ha hp hlr, followingTree_child hw ha hp hlr,
      (ha.treeBelow _).subtree_eq hw, hlr]
    simp

/-! ## Parts of a tree -/

/-- The lists share no node, repeat none, and together hold the nodes of the tree with this top,
attributes left out. -/
def Partition (doc : Document) (top : NodeId) (parts : List (List NodeId)) : Prop :=
  parts.flatten.Nodup ∧
    ∀ x, x ∈ parts.flatten ↔ doc.TopOf top x ∧ doc.kindOf x ≠ some .attribute

theorem Partition.of_perm (hw : doc.Linked) (ha : doc.Acyclic) (hfree : doc.parentOf top = none)
    (hk : doc.kindOf top ≠ some .attribute) {parts : List (List NodeId)}
    (h : parts.flatten.Perm (doc.subtree top)) : Partition doc top parts :=
  have hnodup : (doc.subtree top).Nodup :=
    hw.subtree_eq_subtreeTo top ▸ subtreeTo_nodup hw _ (ha.treeBelow top)
  ⟨h.nodup_iff.mpr hnodup, fun _ => h.mem_iff.trans (TopOf.mem_subtree hw hfree hk)⟩

theorem flatMap_parentOf_lineage (hw : doc.Linked) (hc : c < doc.size) (h : doc.TopOf top c) :
    (doc.lineage c).flatMap (fun a => (doc.parentOf a).toList) = (doc.lineage c).tail := by
  obtain ⟨path, hpath, hfollows, -⟩ := hw.exists_lineage h.1 hc h.2
  rw [hpath]
  exact hfollows.flatMap_toList

theorem walkBack_perm (hw : doc.Linked) (hc : c < doc.size) (h : doc.TopOf top c) :
    (walkBack doc c).Perm ((doc.lineage c).tail ++ precedingTree doc c) := by
  rw [← flatMap_parentOf_lineage hw hc h]
  exact (flatMap_append_perm _ _ _).symm.trans perm_append_comm

/-- **The five parts around a node that is no attribute.** -/
theorem parts_perm (hw : doc.Linked) (ha : doc.Acyclic) (hc : c < doc.size) (h : doc.TopOf top c)
    (hk : doc.kindOf c ≠ some .attribute) :
    (c :: (doc.lineage c).tail ++ doc.descendants c ++ followingTree doc c ++
      precedingTree doc c).Perm (doc.subtree top) := by
  have hback := walkBack_perm hw hc h
  rw [subtree_around hw ha (h.lt_size hc hw) h hk, subtree, perm_iff_count]
  intro x
  have hcount := hback.count_eq x
  simp only [count_append, count_cons, count_reverse] at hcount ⊢
  omega

theorem partition_around (hw : doc.Linked) (ha : doc.Acyclic) (hc : c < doc.size)
    (h : doc.TopOf top c) (hk : doc.kindOf c ≠ some .attribute) :
    Partition doc top [[c], Axis.ancestor.nodes doc c, Axis.descendant.nodes doc c,
      Axis.following.nodes doc c, Axis.preceding.nodes doc c] := by
  have hplain : ¬ doc.isAttribute c = true := fun he => hk (isAttribute_iff.mp he)
  have hfollowing : Axis.following.nodes doc c = followingTree doc c := if_neg hplain
  have hpreceding : Axis.preceding.nodes doc c = precedingTree doc c := if_neg hplain
  refine .of_perm hw ha h.1 (h.not_attribute hw hk) ?_
  rw [hfollowing, hpreceding]
  simpa [Axis.nodes] using parts_perm hw ha hc h hk

/-- Around an attribute its element counts among the ancestors, and what is below the element
follows. -/
theorem partition_around_attribute (hw : doc.Linked) (ha : doc.Acyclic) {owner : NodeId}
    (h : doc.TopOf top c) (hown : doc.IsAttributeOf owner c) :
    Partition doc top [Axis.ancestor.nodes doc c, Axis.following.nodes doc c,
      Axis.preceding.nodes doc c] := by
  obtain ⟨hp, hk⟩ := hown
  have hcontainer := hw.container owner c hp
  have howner := h.parent hp
  have hattribute : doc.isAttribute c = true := isAttribute_iff.mpr hk
  have hancestor : Axis.ancestor.nodes doc c = owner :: (doc.lineage owner).tail := by
    show (doc.lineage c).tail = _
    rw [lineage_child hw ha hp, tail_cons]
    exact lineage_cons hcontainer.lt_size
  have hfollowing : Axis.following.nodes doc c =
      doc.descendants owner ++ followingTree doc owner := by
    show followingNodes doc c = _
    rw [followingNodes, if_pos hattribute, hp]
  have hpreceding : Axis.preceding.nodes doc c = precedingTree doc owner := by
    show precedingNodes doc c = _
    rw [precedingNodes, if_pos hattribute, hp]
  refine .of_perm hw ha h.1 (howner.not_attribute hw hcontainer.not_attribute) ?_
  rw [hancestor, hfollowing, hpreceding]
  simpa using parts_perm hw ha hcontainer.lt_size howner hcontainer.not_attribute

/-! ## The order of the axes -/

/-- The nodes of an axis, those of a reverse axis turned around. -/
def Axis.forward (axis : Axis) (doc : Document) (id : NodeId) : List NodeId :=
  if axis.isReverse then (axis.nodes doc id).reverse else axis.nodes doc id

/-- A list is found again, in its order, where each entry brings more with it. -/
theorem sublist_flatMap {l : List NodeId} {f : NodeId → List NodeId} (h : ∀ x ∈ l, x ∈ f x) :
    l.Sublist (l.flatMap f) := by
  have hone : (l.flatMap fun x => [x]).Sublist (l.flatMap f) :=
    List.Sublist.flatMap_right l fun x hx => singleton_sublist.mpr (h x hx)
  rwa [flatMap_singleton'] at hone

theorem siblingsAfter_sublist (hc : c < doc.size) :
    (siblingsAfter doc c).Sublist (followingTree doc c) := by
  rw [followingTree, lineage_cons hc, flatMap_cons]
  exact (sublist_flatMap fun s _ => doc.self_mem_subtree s).trans (sublist_append_left _ _)

theorem precedingTree_sublist (doc : Document) (c : NodeId) :
    (precedingTree doc c).Sublist (walkBack doc c) :=
  List.Sublist.flatMap_right _ fun _ _ => sublist_append_left _ _

theorem siblingsBefore_sublist (hc : c < doc.size) :
    (siblingsBefore doc c).Sublist (walkBack doc c) := by
  refine .trans ?_ (precedingTree_sublist doc c)
  rw [precedingTree, lineage_cons hc, flatMap_cons]
  refine (sublist_flatMap fun s _ => ?_).trans (sublist_append_left _ _)
  exact mem_reverse.mpr (doc.self_mem_subtree s)

theorem ancestors_sublist (hw : doc.Linked) (hc : c < doc.size) (h : doc.TopOf top c) :
    (doc.lineage c).tail.Sublist (walkBack doc c) := by
  rw [← flatMap_parentOf_lineage hw hc h]
  exact List.Sublist.flatMap_right _ fun _ _ => sublist_append_right _ _

theorem descendants_sublist (doc : Document) (c : NodeId) :
    (doc.descendants c).Sublist (doc.subtreeOrder c) :=
  (sublist_cons_self _ _).trans (sublist_flatMap fun _ _ => mem_cons_self)

theorem parent_sublist (hw : doc.Linked) (h : doc.TopOf top c) :
    (doc.parentOf c).toList.reverse.Sublist (doc.subtreeOrder top) := by
  cases hp : doc.parentOf c with
  | none => exact nil_sublist _
  | some p => exact singleton_sublist.mpr (hw.mem_subtreeOrder.mpr (h.parent hp).2)

theorem children_sublist (hw : doc.Linked) (ha : doc.Acyclic) :
    (doc.children c).Sublist (doc.subtreeOrder c) := by
  refine .trans ?_ (descendants_sublist doc c)
  rw [(List.cons.inj ((ha.treeBelow c).subtree_eq hw)).2]
  exact sublist_flatMap fun s _ => doc.self_mem_subtree s

theorem entry_sublist (doc : Document) (c : NodeId) :
    (c :: doc.attributesOf c).Sublist (doc.subtreeOrder c) := by
  rw [subtreeOrder, subtree, flatMap_cons]
  exact sublist_append_left _ _

/-- **In a tree come first, from behind, what a walk back meets, then what is below, and then what
follows.** -/
theorem sublist_around (hw : doc.Linked) (ha : doc.Acyclic) (hc : c < doc.size)
    (h : doc.TopOf top c) (hk : doc.kindOf c ≠ some .attribute) {before below behind : List NodeId}
    (hbefore : before.Sublist (walkBack doc c)) (hbelow : below.Sublist (doc.subtreeOrder c))
    (hbehind : behind.Sublist (followingTree doc c)) :
    (before.reverse ++ (below ++ behind)).Sublist (doc.subtreeOrder top) := by
  rw [subtreeOrder, subtree_around hw ha (h.lt_size hc hw) h hk, append_assoc,
    flatMap_append, flatMap_append]
  have hentry {l : List NodeId} : l.Sublist (l.flatMap fun d => d :: doc.attributesOf d) :=
    sublist_flatMap fun _ _ => mem_cons_self
  exact (hbefore.reverse.trans hentry).append (hbelow.append (hbehind.trans hentry))

theorem Axis.forward_sublist_of_not_attribute (hw : doc.Linked) (ha : doc.Acyclic)
    (hc : c < doc.size) (h : doc.TopOf top c) (hk : doc.kindOf c ≠ some .attribute) (axis : Axis) :
    (axis.forward doc c).Sublist (doc.subtreeOrder top) := by
  have hplain : doc.isAttribute c = false := by
    rw [Bool.eq_false_iff, ne_eq, isAttribute_iff]
    exact hk
  have back {l : List NodeId} (hl : l.Sublist (walkBack doc c)) :
      l.reverse.Sublist (doc.subtreeOrder top) := by
    simpa using sublist_around hw ha hc h hk hl (nil_sublist _) (nil_sublist _)
  have below {l : List NodeId} (hl : l.Sublist (doc.subtreeOrder c)) :
      l.Sublist (doc.subtreeOrder top) := by
    simpa using sublist_around hw ha hc h hk (nil_sublist _) hl (nil_sublist _)
  have behind {l : List NodeId} (hl : l.Sublist (followingTree doc c)) :
      l.Sublist (doc.subtreeOrder top) := by
    simpa using sublist_around hw ha hc h hk (nil_sublist _) (nil_sublist _) hl
  cases axis with
  | child => exact below (children_sublist hw ha)
  | descendant => exact below (descendants_sublist doc c)
  | descendantOrSelf => exact below (sublist_flatMap fun _ _ => mem_cons_self)
  | parent => exact parent_sublist hw h
  | ancestor => exact back (ancestors_sublist hw hc h)
  | ancestorOrSelf =>
    show (doc.lineage c).reverse.Sublist _
    rw [lineage_cons hc, reverse_cons]
    have hself : [c].Sublist (doc.subtreeOrder c) :=
      singleton_sublist.mpr (hw.mem_subtreeOrder.mpr (.inl rfl))
    simpa using
      sublist_around hw ha hc h hk (ancestors_sublist hw hc h) hself (nil_sublist _)
  | followingSibling =>
    simpa [Axis.forward, Axis.isReverse, Axis.nodes, hplain] using behind (siblingsAfter_sublist hc)
  | precedingSibling =>
    simpa [Axis.forward, Axis.isReverse, Axis.nodes, hplain] using back (siblingsBefore_sublist hc)
  | following =>
    show (followingNodes doc c).Sublist _
    rw [followingNodes, hplain]
    exact behind (List.Sublist.refl _)
  | preceding =>
    show (precedingNodes doc c).reverse.Sublist _
    rw [precedingNodes, hplain]
    exact back (precedingTree_sublist doc c)
  | self => exact singleton_sublist.mpr (hw.mem_subtreeOrder.mpr h.2)
  | «attribute» =>
    show (if doc.isElement c then doc.attributesOf c else []).Sublist _
    split
    · exact below ((sublist_cons_self _ _).trans (entry_sublist doc c))
    · exact nil_sublist _
  | «namespace» => exact nil_sublist _

/-- An attribute has its element above it and the rest of the tree around that element. -/
theorem Axis.forward_sublist_of_attribute (hw : doc.Linked) (ha : doc.Acyclic) (hc : c < doc.size)
    (h : doc.TopOf top c) (hk : doc.kindOf c = some .attribute) (axis : Axis) :
    (axis.forward doc c).Sublist (doc.subtreeOrder top) := by
  have hattribute : doc.isAttribute c = true := isAttribute_iff.mpr hk
  have hself : [c].Sublist (doc.subtreeOrder top) :=
    singleton_sublist.mpr (hw.mem_subtreeOrder.mpr h.2)
  obtain ⟨hchildren, hsubtree⟩ := subtree_attribute hw hk
  -- the axes that lead upwards and around, by the element
  have upwards : (doc.lineage c).reverse.Sublist (doc.subtreeOrder top) ∧
      (followingNodes doc c).Sublist (doc.subtreeOrder top) ∧
      (precedingNodes doc c).reverse.Sublist (doc.subtreeOrder top) := by
    rw [followingNodes, precedingNodes, if_pos hattribute, if_pos hattribute]
    cases hp : doc.parentOf c with
    | none =>
      rw [lineage_top hw hp hc]
      exact ⟨hself, nil_sublist _, nil_sublist _⟩
    | some owner =>
      have hcontainer := hw.container owner c hp
      have howner := h.parent hp
      have hm : c ∈ doc.attributesOf owner := (hw.mem_attributes owner c).mpr ⟨hp, hk⟩
      have hpair : [owner, c].Sublist (doc.subtreeOrder owner) :=
        ((singleton_sublist.mpr hm).cons_cons owner).trans (entry_sublist doc owner)
      have hancestors := ancestors_sublist hw hcontainer.lt_size howner
      rw [lineage_child hw ha hp, lineage_cons hcontainer.lt_size]
      refine ⟨?_, ?_, ?_⟩
      · simpa using sublist_around hw ha hcontainer.lt_size howner hcontainer.not_attribute
          hancestors hpair (nil_sublist _)
      · simpa using sublist_around hw ha hcontainer.lt_size howner hcontainer.not_attribute
          (nil_sublist _) (descendants_sublist doc owner) (List.Sublist.refl _)
      · simpa using sublist_around hw ha hcontainer.lt_size howner hcontainer.not_attribute
          (precedingTree_sublist doc owner) (nil_sublist _) (nil_sublist _)
  cases axis with
  | child => simp [Axis.forward, Axis.isReverse, Axis.nodes, hchildren]
  | descendant =>
    show (doc.subtree c).tail.Sublist _
    simp [hsubtree]
  | descendantOrSelf =>
    show (doc.subtree c).Sublist _
    rwa [hsubtree]
  | parent => exact parent_sublist hw h
  | ancestor => exact (tail_sublist _).reverse.trans upwards.1
  | ancestorOrSelf => exact upwards.1
  | followingSibling | precedingSibling =>
    simp [Axis.forward, Axis.isReverse, Axis.nodes, hattribute]
  | following => exact upwards.2.1
  | preceding => exact upwards.2.2
  | self => exact hself
  | «attribute» =>
    show (if doc.isElement c then doc.attributesOf c else []).Sublist _
    rw [hw.attributesOf_eq_nil (by rw [hk]; decide), ite_self]
    exact nil_sublist _
  | «namespace» => exact nil_sublist _

/-- **Every axis is in document order or against it.** -/
theorem Axis.forward_sublist (hw : doc.Linked) (ha : doc.Acyclic) (hc : c < doc.size)
    (h : doc.TopOf top c) (axis : Axis) :
    (axis.forward doc c).Sublist (doc.subtreeOrder top) := by
  by_cases hk : doc.kindOf c = some .attribute
  · exact axis.forward_sublist_of_attribute hw ha hc h hk
  · exact axis.forward_sublist_of_not_attribute hw ha hc h hk

/-- Part of a list without repetitions has its entries at growing positions. -/
theorem pairwise_idxOf {l order : List NodeId} (hnodup : order.Nodup) (h : l.Sublist order) :
    l.Pairwise fun a b => order.idxOf a < order.idxOf b := by
  refine List.Pairwise.sublist h (pairwise_iff_getElem.mpr fun i j hi hj hij => ?_)
  rw [hnodup.idxOf_getElem, hnodup.idxOf_getElem]
  exact hij

theorem subtreeOrder_sublist (hroot : doc.parentOf root = none) (hsize : 0 < doc.size)
    (hfree : doc.parentOf top = none) (htop : top < doc.size) :
    (doc.subtreeOrder top).Sublist doc.order := by
  have hmem := (mem_roots hroot hsize).mpr ⟨htop, hfree⟩
  have hone := (singleton_sublist.mpr hmem).flatMap doc.subtreeOrder
  rwa [flatMap_singleton] at hone

/-- **The axes partition the tree.** In a document whose links fit together without a cycle, around
every node that is no attribute the node itself, its ancestors, its descendants, what follows and
what precedes it are the nodes of its tree, each of them once, attributes left out. Around an
attribute of an element that holds of its ancestors, what follows and what precedes it. Every axis
lists its nodes in the order of the tree, or against it if it is a reverse axis; if the document
node stands on top, that is document order. The walk that climbs from a node without children to the
next sibling ends below every node, and what it comes to are the node's children, each followed by
what the walk below it comes to. -/
theorem axes_partition_tree (doc : Document) (hw : doc.Linked) (ha : doc.Acyclic) (c : NodeId)
    (hc : c < doc.size) :
    (∀ x, doc.descendants? x = some (doc.descendants x) ∧
      doc.descendants x = (doc.children x).flatMap fun k => k :: doc.descendants k) ∧
    ∃ top, doc.TopOf top c ∧
      (doc.kindOf c ≠ some .attribute →
        Partition doc top [[c], Axis.ancestor.nodes doc c, Axis.descendant.nodes doc c,
          Axis.following.nodes doc c, Axis.preceding.nodes doc c]) ∧
      (∀ owner, doc.IsAttributeOf owner c →
        Partition doc top [Axis.ancestor.nodes doc c, Axis.following.nodes doc c,
          Axis.preceding.nodes doc c]) ∧
      (∀ axis : Axis, (axis.forward doc c).Pairwise fun a b =>
        (doc.subtreeOrder top).idxOf a < (doc.subtreeOrder top).idxOf b) ∧
      (doc.parentOf root = none → ∀ axis : Axis, (axis.forward doc c).Pairwise fun a b =>
        doc.order.idxOf a < doc.order.idxOf b) := by
  obtain ⟨top, htop, hfree, hup⟩ := hw.exists_top ha hc
  have h : doc.TopOf top c := ⟨hfree, hup⟩
  have hsublist := Axis.forward_sublist hw ha hc h
  refine ⟨fun x => ⟨hw.descendants?_eq (ha.treeBelow x), ?_⟩, top, h, fun hk => ?_,
    fun owner hown => ?_, fun axis => ?_, fun hroot axis => ?_⟩
  · exact (List.cons.inj ((ha.treeBelow x).subtree_eq hw)).2
  · exact partition_around hw ha hc h hk
  · exact partition_around_attribute hw ha h hown
  · exact pairwise_idxOf (subtreeOrder_nodup hw ha htop) (hsublist axis)
  · have hsize : 0 < doc.size := Nat.zero_lt_of_lt hc
    have hnodup := (hw.order_perm ha hroot hsize).nodup_iff.mpr List.nodup_range
    exact pairwise_idxOf hnodup
      ((hsublist axis).trans (subtreeOrder_sublist hroot hsize hfree htop))

/-- A document element with an attribute and three children, the middle one with an attribute and
a text, the first one with a text. The numbers do not follow document order. -/
def threeBranches : List Operation :=
  [.createElement "b", .createElement "r", .setRoot ⟨0, 2, .element⟩,
    .setAttribute ⟨0, 2, .element⟩ "k" "v", .createElement "a",
    .setParent ⟨0, 4, .element⟩ ⟨0, 2, .element⟩, .setParent ⟨0, 1, .element⟩ ⟨0, 2, .element⟩,
    .setAttribute ⟨0, 1, .element⟩ "l" "w", .createText "t", .createText "s",
    .setParent ⟨0, 6, .text⟩ ⟨0, 1, .element⟩, .setParent ⟨0, 7, .text⟩ ⟨0, 4, .element⟩,
    .createElement "c", .setParent ⟨0, 8, .element⟩ ⟨0, 2, .element⟩]

/-- **The parts around the middle child and around its attribute.** -/
theorem axes_partition_three_branches :
    let doc := run threeBranches (empty 0)
    (doc.Linked ∧ doc.Acyclic ∧ 1 < doc.size ∧ 5 < doc.size) ∧
      doc.descendants? 0 = some [2, 4, 7, 1, 6, 8] ∧
      (∃ top, doc.TopOf top 1 ∧ Partition doc top [[1], [2, 0], [6], [8], [7, 4]]) ∧
      ∃ top, doc.TopOf top 5 ∧ Partition doc top [[1, 2, 0], [6, 8], [7, 4]] := by
  intro doc
  have hinit := Initial.new 0
  have hw : doc.Linked := (hinit.run_linked threeBranches).1
  have ha : doc.Acyclic := hinit.run_acyclic threeBranches (by decide +kernel)
  obtain ⟨hwalks, top, htop, hparts, -⟩ := axes_partition_tree doc hw ha 1 (by decide +kernel)
  obtain ⟨-, top', htop', -, hparts', -⟩ := axes_partition_tree doc hw ha 5 (by decide +kernel)
  have hbelow : doc.descendants 0 = [2, 4, 7, 1, 6, 8] := by decide +kernel
  refine ⟨⟨hw, ha, by decide +kernel, by decide +kernel⟩, hbelow ▸ (hwalks 0).1, ⟨top, htop, ?_⟩,
    ⟨top', htop', ?_⟩⟩
  · have hlists : [[1], Axis.ancestor.nodes doc 1, Axis.descendant.nodes doc 1,
        Axis.following.nodes doc 1, Axis.preceding.nodes doc 1] =
        [[1], [2, 0], [6], [8], [7, 4]] := by decide +kernel
    rw [← hlists]
    exact hparts (by decide +kernel)
  · have hlists : [Axis.ancestor.nodes doc 5, Axis.following.nodes doc 5,
        Axis.preceding.nodes doc 5] = [[1, 2, 0], [6, 8], [7, 4]] := by decide +kernel
    rw [← hlists]
    exact hparts' 1 ⟨by decide +kernel, by decide +kernel⟩

end Xml.XPath
