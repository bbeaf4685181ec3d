import Mathlib.Data.List.Basic
import Mathlib.Data.List.Nodup
import Xml.NodeSet

/-!
# The algebra of node sets

A node set is a sequence that may repeat its members. Union keeps the first operand as it is and
adds what is new in the second; intersection and difference drop repetitions. All of them come down
to `addNew`, and what that adds is said by `Lists`: which members, each once, in order of first
occurrence (`exists_addNew_eq`). The laws between the operations follow (`algebra_of_node_sets`).
-/

namespace Xml.NodeSet

open List

variable {nodes whole part : List NodeRef} {n : NodeRef} {p : NodeRef → Prop}

/-- `part` lists the members of `whole` with the property `p`, each once, in the order in which they
first occur in `whole`. -/
structure Lists (part whole : List NodeRef) (p : NodeRef → Prop) : Prop where
  mem : ∀ n, n ∈ part ↔ n ∈ whole ∧ p n
  nodup : part.Nodup
  order : part.Pairwise fun m n => whole.idxOf m < whole.idxOf n

/-! ## Adding what is new -/

theorem addNew_of_mem (h : n ∈ nodes) (rest : List NodeRef) :
    addNew nodes (n :: rest) = addNew nodes rest := by
  rw [addNew, if_pos (contains_iff_mem.mpr h)]

theorem addNew_of_notMem (h : n ∉ nodes) (rest : List NodeRef) :
    addNew nodes (n :: rest) = addNew (nodes ++ [n]) rest := by
  rw [addNew, if_neg (mt contains_iff_mem.mp h)]

/-- In front of a sequence, a node that is not listed moves every first occurrence by one place. -/
theorem Lists.cons_skipped (h : Lists part whole p) (hn : ¬ p n) : Lists part (n :: whole) p := by
  have hne {m : NodeRef} (hm : m ∈ part) : n ≠ m := fun he => hn (he ▸ ((h.mem m).mp hm).2)
  refine ⟨fun m => ?_, h.nodup, h.order.imp_of_mem fun hx hy hlt => ?_⟩
  · rw [h.mem, mem_cons]
    constructor
    · exact fun hm => ⟨.inr hm.1, hm.2⟩
    · rintro ⟨rfl | hm, hp⟩
      exacts [absurd hp hn, ⟨hm, hp⟩]
  · rw [idxOf_cons_ne _ (hne hx), idxOf_cons_ne _ (hne hy)]
    exact Nat.succ_lt_succ hlt

/-- A node in front of a sequence that is listed comes first, and is not listed again. -/
theorem Lists.cons_taken (h : Lists part whole fun m => p m ∧ m ≠ n) (hn : p n) :
    Lists (n :: part) (n :: whole) p := by
  have hne {m : NodeRef} (hm : m ∈ part) : n ≠ m := ((h.mem m).mp hm).2.2.symm
  refine ⟨fun m => ?_, nodup_cons.mpr ⟨fun hm => hne hm rfl, h.nodup⟩,
    pairwise_cons.mpr ⟨fun m hm => ?_, h.order.imp_of_mem fun hx hy hlt => ?_⟩⟩
  · rw [mem_cons, mem_cons, h.mem]
    constructor
    · rintro (rfl | ⟨hm, hp, -⟩)
      exacts [⟨.inl rfl, hn⟩, ⟨.inr hm, hp⟩]
    · rintro ⟨rfl | hm, hp⟩
      · exact .inl rfl
      · exact (eq_or_ne m n).imp_right fun hne => ⟨hm, hp, hne⟩
  · rw [idxOf_cons_self, idxOf_cons_ne _ (hne hm)]
    exact Nat.succ_pos _
  · rw [idxOf_cons_ne _ (hne hx), idxOf_cons_ne _ (hne hy)]
    exact Nat.succ_lt_succ hlt

/-- **What is added** are the members that were not there, each once, in order of first
occurrence. -/
theorem exists_addNew_eq (nodes more : List NodeRef) :
    ∃ rest, addNew nodes more = nodes ++ rest ∧ Lists rest more (· ∉ nodes) := by
  induction more generalizing nodes with
  | nil => exact ⟨[], (append_nil _).symm, by simp, nodup_nil, List.Pairwise.nil⟩
  | cons n more ih =>
    by_cases hn : n ∈ nodes
    · obtain ⟨rest, heq, hrest⟩ := ih nodes
      exact ⟨rest, by rw [addNew_of_mem hn, heq], hrest.cons_skipped (not_not.mpr hn)⟩
    · obtain ⟨rest, heq, hrest⟩ := ih (nodes ++ [n])
      refine ⟨n :: rest, by rw [addNew_of_notMem hn, heq, append_assoc]; rfl, ?_⟩
      refine Lists.cons_taken ?_ hn
      simpa only [mem_append, mem_singleton, not_or] using hrest

theorem mem_addNew (nodes more : List NodeRef) (n : NodeRef) :
    n ∈ addNew nodes more ↔ n ∈ nodes ∨ n ∈ more := by
  obtain ⟨rest, heq, hrest⟩ := exists_addNew_eq nodes more
  rw [heq, mem_append, hrest.mem]
  tauto

theorem addNew_of_subset {nodes more : List NodeRef} (h : ∀ n ∈ more, n ∈ nodes) :
    addNew nodes more = nodes := by
  obtain ⟨rest, heq, hrest⟩ := exists_addNew_eq nodes more
  have hnil : rest = [] := eq_nil_iff_forall_not_mem.mpr fun n hn =>
    ((hrest.mem n).mp hn).2 (h n ((hrest.mem n).mp hn).1)
  rw [heq, hnil, append_nil]

theorem addNew_of_nodup {nodes more : List NodeRef} (h : (nodes ++ more).Nodup) :
    addNew nodes more = nodes ++ more := by
  induction more generalizing nodes with
  | nil => exact (append_nil _).symm
  | cons n more ih =>
    have hn : n ∉ nodes := fun hm => disjoint_of_nodup_append h hm mem_cons_self
    rw [addNew_of_notMem hn, ih (by simpa using h), append_assoc]
    rfl

/-- A test can be made before adding or after it. -/
theorem filter_addNew (keep : NodeRef → Bool) (nodes more : List NodeRef) :
    (addNew nodes more).filter keep = addNew (nodes.filter keep) (more.filter keep) := by
  induction more generalizing nodes with
  | nil => rfl
  | cons n more ih =>
    cases hk : keep n with
    | false =>
      rw [filter_cons_of_neg (by rw [hk]; exact Bool.false_ne_true)]
      by_cases hn : n ∈ nodes
      · rw [addNew_of_mem hn, ih]
      · rw [addNew_of_notMem hn, ih, filter_append, filter_singleton, hk]
        exact congrArg (addNew · _) (append_nil _)
    | true =>
      rw [filter_cons_of_pos hk]
      by_cases hn : n ∈ nodes
      · rw [addNew_of_mem hn, ih, addNew_of_mem (mem_filter.mpr ⟨hn, hk⟩)]
      · have hn' : n ∉ nodes.filter keep := fun hm => hn (mem_filter.mp hm).1
        rw [addNew_of_notMem hn, ih, filter_append, filter_singleton, hk,
          addNew_of_notMem hn']
        rfl

/-! ## Each member once -/

/-- In the part of a sequence that passes a test, first occurrences come in the same order. -/
theorem idxOf_lt_of_filter {keep : NodeRef → Bool} {m n : NodeRef} (hm : keep m = true)
    (hn : keep n = true) (h : (whole.filter keep).idxOf m < (whole.filter keep).idxOf n) :
    whole.idxOf m < whole.idxOf n := by
  induction whole with
  | nil => exact h
  | cons x whole ih =>
    by_cases hx : keep x = true
    · rw [filter_cons_of_pos hx] at h
      by_cases hxm : x = m
      · subst hxm
        have hxn : x ≠ n := by
          rintro rfl
          exact Nat.lt_irrefl _ h
        rw [idxOf_cons_self, idxOf_cons_ne _ hxn]
        exact Nat.succ_pos _
      · have hxn : x ≠ n := by
          rintro rfl
          rw [idxOf_cons_self] at h
          exact Nat.not_lt_zero _ h
        rw [idxOf_cons_ne _ hxm, idxOf_cons_ne _ hxn] at h ⊢
        exact Nat.succ_lt_succ (ih (Nat.lt_of_succ_lt_succ h))
    · rw [filter_cons_of_neg hx] at h
      have hxm : x ≠ m := fun he => hx (he ▸ hm)
      have hxn : x ≠ n := fun he => hx (he ▸ hn)
      rw [idxOf_cons_ne _ hxm, idxOf_cons_ne _ hxn]
      exact Nat.succ_lt_succ (ih h)

/-- **The members that pass a test**, each once, in order of first occurrence. -/
theorem lists_filterUnique (s : NodeSet) (keep : NodeRef → Bool) :
    Lists (s.filterUnique keep).nodes s.nodes fun n => keep n = true := by
  obtain ⟨rest, heq, hrest⟩ := exists_addNew_eq [] (s.nodes.filter keep)
  have hkept {n : NodeRef} (hn : n ∈ rest) : keep n = true :=
    (mem_filter.mp ((hrest.mem n).mp hn).1).2
  rw [filterUnique, heq, nil_append]
  refine ⟨fun n => ?_, hrest.nodup, hrest.order.imp_of_mem fun hx hy hlt => ?_⟩
  · rw [hrest.mem, mem_filter, and_iff_left not_mem_nil]
  · exact idxOf_lt_of_filter (hkept hx) (hkept hy) hlt

theorem filterUnique_filterUnique (s : NodeSet) (keep keep' : NodeRef → Bool) :
    (s.filterUnique keep).filterUnique keep' =
      s.filterUnique fun n => keep n && keep' n := by
  have hnodup : (addNew [] ((s.nodes.filter keep).filter keep')).Nodup := by
    obtain ⟨rest, heq, hrest⟩ := exists_addNew_eq [] ((s.nodes.filter keep).filter keep')
    rw [heq]
    exact hrest.nodup
  simp only [filterUnique]
  rw [filter_addNew, filter_nil, addNew_of_nodup hnodup, nil_append, filter_filter]
  simp only [Bool.and_comm]

/-! ## The operations -/

variable {s t : NodeSet}

theorem union_eq (h : s.doc = t.doc) :
    s.union t = .ok { s with nodes := addNew s.nodes t.nodes } :=
  if_pos (beq_iff_eq.mpr h)

theorem intersection_eq (h : s.doc = t.doc) :
    s.intersection t = .ok (s.filterUnique t.includes) :=
  if_pos (beq_iff_eq.mpr h)

theorem difference_eq (h : s.doc = t.doc) :
    s.difference t = .ok (s.filterUnique fun n => !t.includes n) :=
  if_pos (beq_iff_eq.mpr h)

theorem includes_iff : s.includes n = true ↔ n ∈ s.nodes :=
  contains_iff_mem

theorem not_includes_iff : (!s.includes n) = true ↔ n ∉ s.nodes := by
  rw [Bool.not_eq_true', ← Bool.not_eq_true, includes_iff]

theorem lists_intersection (s t : NodeSet) :
    Lists (s.filterUnique t.includes).nodes s.nodes (· ∈ t.nodes) := by
  simpa only [includes_iff] using s.lists_filterUnique t.includes

theorem lists_difference (s t : NodeSet) :
    Lists (s.filterUnique fun n => !t.includes n).nodes s.nodes (· ∉ t.nodes) := by
  simpa only [not_includes_iff] using s.lists_filterUnique fun n => !t.includes n

/-- To take a union away is to take away one operand after the other. -/
theorem filterUnique_union (a b c : NodeSet) :
    (a.filterUnique fun n => !({ b with nodes := addNew b.nodes c.nodes } : NodeSet).includes n) =
      (a.filterUnique fun n => !b.includes n).filterUnique fun n => !c.includes n := by
  rw [filterUnique_filterUnique]
  congr 1
  funext n
  rw [Bool.eq_iff_iff, not_includes_iff, Bool.and_eq_true, not_includes_iff, not_includes_iff,
    mem_addNew, not_or]

theorem union_self (s : NodeSet) : s.union s = .ok s := by
  rw [union_eq rfl, addNew_of_subset fun _ hn => hn]

theorem difference_self (s : NodeSet) : s.difference s = .ok ⟨s.doc, []⟩ := by
  have hlists := lists_difference s s
  have hnil : (s.filterUnique fun n => !s.includes n).nodes = [] :=
    eq_nil_iff_forall_not_mem.mpr fun n hn =>
      ((hlists.mem n).mp hn).2 ((hlists.mem n).mp hn).1
  rw [difference_eq rfl]
  exact congrArg (fun nodes => Except.ok (NodeSet.mk s.doc nodes)) hnil

theorem combine_foreign (h : s.doc ≠ t.doc) (result : NodeSet) :
    s.combine t result = .error .foreignSet :=
  if_neg (mt beq_iff_eq.mp h)

/-- **The algebra of node sets.** In one document, the union is the first operand with what is new in
the second behind it, and intersection and difference share out the members of the first; what is
listed comes once and in order of first occurrence. The laws of sets follow, as equations where the
order allows it. Sets of different documents cannot be combined. -/
theorem algebra_of_node_sets (a b c : NodeSet) :
    (a.doc = b.doc → b.doc = c.doc →
      ∃ added common other : List NodeRef,
        (a.union b = .ok ⟨a.doc, a.nodes ++ added⟩ ∧ Lists added b.nodes (· ∉ a.nodes)) ∧
        (a.intersection b = .ok ⟨a.doc, common⟩ ∧ Lists common a.nodes (· ∈ b.nodes)) ∧
        (a.difference b = .ok ⟨a.doc, other⟩ ∧ Lists other a.nodes (· ∉ b.nodes)) ∧
        (common.Disjoint other ∧ ∀ n ∈ a.nodes, Xor (n ∈ common) (n ∈ other)) ∧
        a.union a = .ok a ∧
        a.difference a = .ok ⟨a.doc, []⟩ ∧
        (∃ ba, b.union a = .ok ba ∧ ∀ n, n ∈ ba.nodes ↔ n ∈ a.nodes ++ added) ∧
        ∃ bc, b.union c = .ok bc ∧
          (∃ d, a.difference bc = .ok d ∧ difference ⟨a.doc, other⟩ c = .ok d) ∧
          ∃ ac i u, a.intersection c = .ok ac ∧ a.intersection bc = .ok i ∧
            union ⟨a.doc, common⟩ ac = .ok u ∧ ∀ n, n ∈ i.nodes ↔ n ∈ u.nodes) ∧
    (a.doc ≠ b.doc → ∀ operation ∈ [union, intersection, difference],
      ∃ e, operation a b = .error e ∧ e.errorClass = .type) := by
  constructor
  · intro hab hbc
    have hac := hab.trans hbc
    obtain ⟨added, hadded, hlists⟩ := exists_addNew_eq a.nodes b.nodes
    have hcommon := lists_intersection a b
    have hother := lists_difference a b
    refine ⟨added, (a.filterUnique b.includes).nodes,
      (a.filterUnique fun n => !b.includes n).nodes, ⟨by rw [union_eq hab, hadded], hlists⟩,
      ⟨intersection_eq hab, hcommon⟩, ⟨difference_eq hab, hother⟩,
      ⟨fun n hi hd => ?_, fun n hn => ?_⟩, union_self a, difference_self a, ?_, _, union_eq hbc,
      ⟨_, difference_eq hab, ?_⟩, _, _, _, intersection_eq hac, intersection_eq hab, union_eq rfl,
      fun n => ?_⟩
    · exact ((hother.mem n).mp hd).2 ((hcommon.mem n).mp hi).2
    · rw [hcommon.mem, hother.mem]
      by_cases hb : n ∈ b.nodes
      · exact .inl ⟨⟨hn, hb⟩, fun hd => hd.2 hb⟩
      · exact .inr ⟨⟨hn, hb⟩, fun hi => hb hi.2⟩
    · refine ⟨_, union_eq hab.symm, fun n => ?_⟩
      rw [← hadded, mem_addNew, mem_addNew, or_comm]
    · rw [filterUnique_union]
      exact difference_eq hac
    · rw [(lists_intersection a _).mem, mem_addNew, mem_addNew, (lists_intersection a c).mem,
        hcommon.mem, and_or_left]
  · intro hne operation hmem
    simp only [List.mem_cons, List.not_mem_nil, or_false] at hmem
    refine ⟨.foreignSet, ?_, rfl⟩
    rcases hmem with rfl | rfl | rfl <;> exact combine_foreign hne _

def repeating : NodeSet :=
  ⟨1, [⟨1, 2, .element⟩, ⟨1, 3, .text⟩, ⟨1, 2, .element⟩]⟩

/-- A set that repeats a member and shares another with `repeating`. -/
def overlapping : NodeSet :=
  ⟨1, [⟨1, 4, .comment⟩, ⟨1, 3, .text⟩, ⟨1, 4, .comment⟩]⟩

theorem algebra_of_repeating_sets :
    (repeating.doc = overlapping.doc ∧ repeating.doc ≠ (NodeSet.mk 2 []).doc) ∧
      (∃ added, repeating.union overlapping = .ok ⟨1, repeating.nodes ++ added⟩ ∧
        Lists added overlapping.nodes (· ∉ repeating.nodes)) ∧
      ∃ e, repeating.union (NodeSet.mk 2 []) = .error e ∧ e.errorClass = .type := by
  obtain ⟨added, -, -, hunion, -⟩ :=
    (algebra_of_node_sets repeating overlapping repeating).1 rfl rfl
  have hforeign : repeating.doc ≠ (NodeSet.mk 2 []).doc := by decide
  exact ⟨⟨rfl, hforeign⟩, ⟨added, hunion⟩,
    (algebra_of_node_sets repeating (NodeSet.mk 2 []) repeating).2 hforeign union (by simp)⟩

end Xml.NodeSet
