import Xml.Proofs.Steps.Labels

/-!
# Copies, step by step

A subtree is copied in two kinds of steps: a node is copied together with its attributes, and a copy
is put under the copy of its parent. So the attributes of a copy are named like those of its
original, and between old nodes and new ones there is no link.
-/

namespace Xml.Document

open List

variable {doc d e : Document} {base : Nat} {id p : NodeId}

/-- One step of copying. The nodes from `base` on are copies. -/
inductive Copying (base : Nat) : Document → Document → Prop where
  /-- A node was copied with its attributes. -/
  | node {doc d : Document} {id : NodeId} {n : Node} {as : List Node} (hbase : base ≤ doc.size)
      (hn : doc.get? id = some n) (has : as.map (·.name) = (doc.attributesOf id).map doc.nameOf)
      (h : Equipped doc.size as (doc.alloc n.unlink).2 d) : Copying base doc d
  /-- A copy was put under another. -/
  | child {doc d : Document} {id p : NodeId} (hid : base ≤ id) (hp : base ≤ p)
      (hk : doc.kindOf id ≠ some .attribute) (h : Placed doc d id p none) : Copying base doc d

/-- Copying in many steps. -/
abbrev Copies (base : Nat) : Document → Document → Prop :=
  Relation.ReflTransGen (Copying base)

/-! ## The steps of a copy -/

theorem copyAttributes_equipped (copy : NodeId) (as : List NodeId) (doc : Document)
    (hw : doc.Linked) (has : ∀ a ∈ as, doc.kindOf a = some .attribute)
    (hcopy : as ≠ [] → doc.kindOf copy = some .element) :
    ∃ ns : List Node, ns.map (·.name) = as.map doc.nameOf ∧
      Equipped copy ns doc (as.foldl (fun doc attr =>
        let (attrCopy, doc) := doc.copyNode attr
        doc.appendAttribute copy attrCopy) doc) := by
  induction as generalizing doc with
  | nil => exact ⟨[], rfl, .nil doc⟩
  | cons a as ih =>
    obtain ⟨ha, has⟩ := forall_mem_cons.mp has
    have hel := hcopy (cons_ne_nil _ _)
    obtain ⟨n, hn⟩ := exists_get? (lt_size_of_kindOf ha)
    have hkind : n.unlink.kind = .attribute := by
      simpa [kindOf, hn, Node.unlink] using ha
    have hgain := hw.gained_attribute n.unlinked_unlink hkind hel
    -- what was there keeps its kind and its name
    have hold : ∀ x, x < doc.size → x ≠ doc.size := fun _ => Nat.ne_of_lt
    obtain ⟨ns, hnames, hrest⟩ := ih _ hgain.linked
      (fun b hb => by rw [hgain.kindOf, if_neg (hold b (lt_size_of_kindOf (has b hb))), has b hb])
      fun _ => by rw [hgain.kindOf, if_neg (hold copy (lt_size_of_kindOf hel)), hel]
    refine ⟨n.unlink :: ns, ?_, ?_⟩
    · rw [map_cons, map_cons, hnames, nameOf, hn]
      refine congrArg (_ :: ·) (map_congr_left fun b hb => ?_)
      rw [hgain.nameOf, if_neg (hold b (lt_size_of_kindOf (has b hb)))]
    · rw [foldl_cons, copyNode_eq hn]
      exact .cons hkind hgain hrest

theorem copyWithAttributes_copying (hw : doc.Linked) (hid : id < doc.size)
    (hbase : base ≤ doc.size) : Copying base doc (doc.copyWithAttributes id).2 := by
  obtain ⟨n, hn⟩ := exists_get? hid
  have halloc := hw.alloc n.unlinked_unlink
  have hattr : ∀ a ∈ doc.attributesOf id, a ≠ doc.size ∧ doc.kindOf a = some .attribute := by
    intro a ha
    have ha := (hw.mem_attributes id a).mp ha
    exact ⟨Nat.ne_of_lt (lt_size_of_parentOf ha.1), ha.2⟩
  -- only elements own attributes, so the copy is an element if there are any to copy
  obtain ⟨ns, hnames, hrest⟩ := copyAttributes_equipped doc.size (doc.attributesOf id) _
    halloc (fun a ha => by rw [kindOf_alloc, if_neg (hattr a ha).1, (hattr a ha).2]) fun hne => by
      obtain ⟨a, ha⟩ := exists_mem_of_ne_nil _ hne
      have hel := hw.owner id a ((hw.mem_attributes id a).mp ha)
      rw [kindOf_alloc, if_pos rfl, ← hel, kindOf, hn]
      rfl
  have hsize : (doc.alloc n.unlink).1 = doc.size := alloc_fst ..
  rw [copyWithAttributes, copyNode_eq hn]
  dsimp only
  rw [hsize]
  refine .node hbase hn (hnames.trans (map_congr_left fun a ha => ?_)) hrest
  rw [nameOf, get?_alloc, if_neg (hattr a ha).1]
  rfl

theorem copyChild_copies (hw : doc.Linked) {child : NodeId} (hp : doc.IsContainer p)
    (hchild : doc.kindOf child ≠ none) (hattr : doc.kindOf child ≠ some .attribute)
    (hbase : base ≤ doc.size) (hpb : base ≤ p) :
    Copies base doc
      ((doc.copyWithAttributes child).2.appendChild p (doc.copyWithAttributes child).1) := by
  obtain ⟨kind, hk⟩ := Option.ne_none_iff_exists'.mp hchild
  obtain ⟨hfst, hr, -, hnew, hnone⟩ := copyWithAttributes_spec (G := Outside) hw hk
  have hattr' : (doc.copyWithAttributes child).2.kindOf doc.size ≠ some .attribute := by
    rw [hnew, ← hk]
    exact hattr
  have hcon : (doc.copyWithAttributes child).2.IsContainer p := by
    rw [IsContainer, (hr.kindOf hw).2 p hp.lt_size]
    exact hp
  have hloose : (doc.copyWithAttributes child).2.Loose doc.size :=
    ⟨hnone, by rw [hnew]; exact Option.some_ne_none _, hattr'⟩
  rw [hfst]
  exact .tail (.single (copyWithAttributes_copying hw (lt_size_of_kindOf hk) hbase))
    (.child hbase hpb hattr' ((hr.linked hw).placed_appendChild hcon hloose))

theorem Equipped.linked {as : List Node} (h : Equipped p as doc d) (hw : doc.Linked) :
    d.Linked := by
  induction h with
  | nil doc => exact hw
  | cons ha h rest ih => exact ih h.linked

theorem Copying.linked (h : Copying base doc d) (hw : doc.Linked) : d.Linked := by
  cases h with
  | @node id n as hbase hn has h => exact h.linked (hw.alloc n.unlinked_unlink)
  | child hid hp hk h => exact h.linked

/-! ## Copies stand apart -/

/-- The old nodes are what they were, and no parent link leads from them to new nodes or back. -/
structure Apart (base : Nat) (doc d : Document) : Prop where
  size_le : doc.size ≤ d.size
  labelOf : ∀ x, x < base → d.labelOf x = doc.labelOf x
  parentOf : ∀ x, x < base → d.parentOf x = doc.parentOf x
  new : ∀ x q, base ≤ x → d.parentOf x = some q → doc.parentOf x = some q ∨ base ≤ q

theorem Apart.refl (base : Nat) (doc : Document) : Apart base doc doc :=
  ⟨Nat.le_refl _, fun _ _ => rfl, fun _ _ => rfl, fun _ _ _ h => .inl h⟩

theorem Apart.trans (h : Apart base doc d) (h' : Apart base d e) : Apart base doc e where
  size_le := Nat.le_trans h.size_le h'.size_le
  labelOf x hx := (h'.labelOf x hx).trans (h.labelOf x hx)
  parentOf x hx := (h'.parentOf x hx).trans (h.parentOf x hx)
  new x q hx hq := (h'.new x q hx hq).elim (h.new x q hx) .inr

theorem Gained.apart {node : Node} (h : Gained doc d node p) (hbase : base ≤ doc.size)
    (hp : base ≤ p) : Apart base doc d := by
  refine ⟨by rw [h.size]; exact Nat.le_succ _, fun x hx => ?_, fun x hx => ?_, fun x q _ hq => ?_⟩
  · rw [h.labelOf, if_neg (Nat.ne_of_lt (Nat.lt_of_lt_of_le hx hbase))]
  · rw [h.parentOf, if_neg (Nat.ne_of_lt (Nat.lt_of_lt_of_le hx hbase))]
  · rw [h.parentOf] at hq
    split at hq
    · exact .inr (Option.some.inj hq ▸ hp)
    · exact .inl hq

theorem Equipped.apart {as : List Node} (h : Equipped p as doc d) (hbase : base ≤ doc.size)
    (hp : base ≤ p) : Apart base doc d := by
  induction h with
  | nil doc => exact .refl base doc
  | cons ha h rest ih =>
    have hfirst := h.apart hbase hp
    exact hfirst.trans (ih (Nat.le_trans hbase hfirst.size_le))

theorem Copying.apart (h : Copying base doc d) : Apart base doc d := by
  cases h with
  | @node id n as hbase hn has h =>
    have halloc : Apart base doc (doc.alloc n.unlink).2 := by
      refine ⟨by rw [size_alloc]; exact Nat.le_succ _, fun x hx => ?_, fun x _ => ?_,
        fun x q _ hq => .inl ?_⟩
      · rw [labelOf_alloc, if_neg (Nat.ne_of_lt (Nat.lt_of_lt_of_le hx hbase))]
      · exact parentOf_alloc n.unlinked_unlink x
      · exact (parentOf_alloc n.unlinked_unlink x).symm.trans hq
    exact halloc.trans (h.apart (Nat.le_trans hbase halloc.size_le) hbase)
  | @child id p hid hp hk h =>
    have hne : ∀ x, x < base → x ≠ id := fun x hx => Nat.ne_of_lt (Nat.lt_of_lt_of_le hx hid)
    refine ⟨Nat.le_of_eq h.labels.size.symm, fun x _ => h.labels.labelOf x, fun x hx => ?_,
      fun x q _ hq => ?_⟩
    · rw [h.parentOf, if_neg (hne x hx), if_neg (Option.some_ne_none x)]
    · rw [h.parentOf, if_neg (Option.some_ne_none x)] at hq
      split at hq
      · exact .inr (Option.some.inj hq ▸ hp)
      · exact .inl hq

/-- **What was there is not touched by copying.** -/
theorem Copies.apart (h : Copies base doc d) : Apart base doc d := by
  induction h with
  | refl => exact .refl base doc
  | tail _ hstep ih => exact ih.trans hstep.apart

/-! ## Induction over a copy -/

/-- A copy of what is below `id` that is being made: the pairs still to be worked off are of `id` or
a node below it and a copy, and something has been kept so far. -/
structure CopyingBelow (doc : Document) (id : NodeId) (I : Document → Prop) (e : Document)
    (pending : List (NodeId × NodeId)) : Prop where
  copies : Copies doc.size doc e
  linked : e.Linked
  paired : Paired e pending
  below : ∀ q ∈ pending, doc.size ≤ q.2 ∧ (q.1 = id ∨ doc.Ancestor id q.1)
  kept : I e

/-- What is kept when one node from below `id` is copied and put under a copy. -/
def KeptByCopying (doc : Document) (id : NodeId) (I : Document → Prop) : Prop :=
  ∀ e p x, Copies doc.size doc e → e.Linked → I e → doc.size ≤ p → e.IsContainer p →
    doc.Ancestor id x → e.kindOf x = doc.kindOf x → doc.kindOf x ≠ some .attribute →
    I ((e.copyWithAttributes x).2.appendChild p (e.copyWithAttributes x).1)

namespace CopyingBelow

variable {I : Document → Prop} {pending : List (NodeId × NodeId)}

theorem child (hI : KeptByCopying doc id I) (h : CopyingBelow doc id I e pending)
    (hp : doc.size ≤ p) (hcon : e.IsContainer p) {c : NodeId} (hc : doc.Ancestor id c)
    (hattr : doc.kindOf c ≠ some .attribute) :
    let made := (e.copyWithAttributes c).2.appendChild p (e.copyWithAttributes c).1
    CopyingBelow doc id I made ((c, (e.copyWithAttributes c).1) :: pending) ∧
      made.IsContainer p := by
  have hapart := Copies.apart h.copies
  have hlt : c < doc.size := hc.lt_size
  have hkind : e.kindOf c = doc.kindOf c := by
    rw [kindOf_eq, kindOf_eq, hapart.labelOf c hlt]
  have hsome : e.kindOf c ≠ none := hkind ▸ kindOf_ne_none hlt
  obtain ⟨kind, hk⟩ := Option.ne_none_iff_exists'.mp hsome
  have hfst := (copyWithAttributes_spec (G := Outside) h.linked hk).1
  obtain ⟨hone, hpair⟩ := copyChild_relinks (G := Outside) h.linked hcon hsome (hkind ▸ hattr)
    fun _ _ h => h
  refine ⟨⟨h.copies.trans (copyChild_copies h.linked hcon hsome (hkind ▸ hattr) hapart.size_le hp),
    hone.linked h.linked, ?_, ?_, hI e p c h.copies h.linked h.kept hp hcon hc hkind hattr⟩, ?_⟩
  · intro q hq
    rcases mem_cons.mp hq with rfl | hq
    · exact hpair _ mem_cons_self
    · exact h.paired.relinks h.linked hone q hq
  · exact forall_mem_cons.mpr ⟨⟨hfst ▸ hapart.size_le, .inr hc⟩, h.below⟩
  · rw [IsContainer, (hone.kindOf h.linked).2 p hcon.lt_size]
    exact hcon

theorem children (hI : KeptByCopying doc id I) (cs : List NodeId)
    (h : CopyingBelow doc id I e pending) (hp : doc.size ≤ p) (hcon : cs ≠ [] → e.IsContainer p)
    (hcs : ∀ c ∈ cs, doc.Ancestor id c ∧ doc.kindOf c ≠ some .attribute) :
    CopyingBelow doc id I (copyChildren p cs e pending).1 (copyChildren p cs e pending).2 := by
  induction cs generalizing e pending with
  | nil => exact h
  | cons c cs ih =>
    obtain ⟨⟨hc, hattr⟩, hcs⟩ := forall_mem_cons.mp hcs
    obtain ⟨hone, hcon⟩ := h.child hI hp (hcon (cons_ne_nil _ _)) hc hattr
    exact ih hone (fun _ => hcon) hcs

theorem kept_copyPending (hI : KeptByCopying doc id I) (hid : id < doc.size) {rounds : Nat}
    (hd : copyPending rounds pending e = some d) (h : CopyingBelow doc id I e pending) : I d := by
  refine copyPending_induction (motive := fun pending e d => CopyingBelow doc id I e pending → I d)
    (fun _ h => h.kept) ?_ hd h
  intro source copy rest e d ih h
  obtain ⟨⟨hcopy, hsource⟩, hrest⟩ := forall_mem_cons.mp h.below
  have hapart := Copies.apart h.copies
  have hlt : source < doc.size := by
    rcases hsource with rfl | ha
    · exact hid
    · exact ha.lt_size
  -- the children of an old node are those it had
  have hcs : ∀ c ∈ e.children source,
      doc.Ancestor id c ∧ doc.kindOf c ≠ some .attribute := by
    intro c hc
    obtain ⟨hp, hattr⟩ := h.linked.mem_children.mp hc
    have hold : c < doc.size := by
      by_contra hnew
      rcases hapart.new c source (Nat.le_of_not_lt hnew) hp with hp | hle
      · exact hnew (lt_size_of_parentOf hp)
      · exact absurd hlt (Nat.not_lt.mpr hle)
    rw [hapart.parentOf c hold] at hp
    rw [kindOf_eq, hapart.labelOf c hold, ← kindOf_eq] at hattr
    exact ⟨ancestor_of_parentOf hp hsource, hattr⟩
  have htail : CopyingBelow doc id I e rest :=
    ⟨h.copies, h.linked, fun q hq => h.paired q (mem_cons_of_mem _ hq), hrest, h.kept⟩
  exact ih (htail.children hI _ hcopy (h.paired.children h.linked).1 hcs)

end CopyingBelow

/-- **Induction over a deep copy**: what holds of the document with a copy of the node itself and is
kept when a node from below it is copied holds of the document with the whole copy. -/
theorem Linked.deepCopy_induction (hw : doc.Linked) (hid : id < doc.size) {copy : NodeId}
    (h : doc.deepCopy id = some (copy, d)) {I : Document → Prop}
    (hcopy : I (doc.copyWithAttributes id).2) (hI : KeptByCopying doc id I) : I d := by
  obtain ⟨rfl, hrest⟩ := deepCopy_eq_some h
  have hsome := kindOf_ne_none hid
  obtain ⟨kind, hk⟩ := Option.ne_none_iff_exists'.mp hsome
  obtain ⟨hfst, hr, -⟩ := copyWithAttributes_spec (G := Outside) hw hk
  have hbegin : CopyingBelow doc id I (doc.copyWithAttributes id).2
      [(id, (doc.copyWithAttributes id).1)] :=
    ⟨.single (copyWithAttributes_copying hw hid (Nat.le_refl _)), hr.linked hw,
      paired_copy hw hsome, forall_mem_singleton.mpr ⟨Nat.le_of_eq hfst.symm, .inl rfl⟩, hcopy⟩
  exact CopyingBelow.kept_copyPending hI hid hrest hbegin

/-- **A deep copy, step by step.** -/
theorem deepCopy_copies (hw : doc.Linked) {copy : NodeId} (hid : doc.kindOf id ≠ none)
    (h : doc.deepCopy id = some (copy, d)) : Copies doc.size doc d := by
  obtain ⟨kind, hk⟩ := Option.ne_none_iff_exists'.mp hid
  have hlt := lt_size_of_kindOf hk
  refine hw.deepCopy_induction hlt h (.single (copyWithAttributes_copying hw hlt (Nat.le_refl _))) ?_
  intro e p x hcopies hlinked _ hp hcon hx hkind hattr
  refine hcopies.trans (copyChild_copies hlinked hcon ?_ (hkind ▸ hattr)
    (Copies.apart hcopies).size_le hp)
  rw [hkind]
  exact kindOf_ne_none hx.lt_size

end Xml.Document
