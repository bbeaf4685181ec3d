import Xml.Proofs.Links.Edits

/-!
# Copies as changes of the links

A copy is made of new nodes only: each is put under a copy that is older than it, so nothing comes
to stand below itself, and the nodes that were there keep their parents (`Grows`). The pairs of node
and copy still to be worked off are of the same kind, so a copy that gets children is a container.
-/

namespace Xml

open List

variable {id p copy : NodeId}

namespace Document

variable {doc d : Document} {G : Document → NodeId → NodeId → Prop}

/-! ## Growing -/

/-- Nodes were added, and those that were there kept their parents. -/
def Grows (doc d : Document) : Prop :=
  doc.size ≤ d.size ∧ ∀ x, x < doc.size → d.parentOf x = doc.parentOf x

namespace Grows

theorem refl (doc : Document) : Grows doc doc := ⟨Nat.le_refl _, fun _ _ => rfl⟩

theorem trans {e : Document} (h : Grows doc d) (h' : Grows d e) : Grows doc e :=
  ⟨Nat.le_trans h.1 h'.1, fun x hx => (h'.2 x (Nat.lt_of_lt_of_le hx h.1)).trans (h.2 x hx)⟩

/-- What stands above an old node is old. -/
theorem ancestor_lt (h : Grows doc d) (hw : doc.Linked) {a n : NodeId} (ha : d.Ancestor a n)
    (hn : n < doc.size) : a < doc.size := by
  induction ha with
  | parent hp =>
    rw [h.2 _ hn] at hp
    exact (hw.container _ _ hp).lt_size
  | above hp _ ih =>
    rw [h.2 _ hn] at hp
    exact ih (hw.container _ _ hp).lt_size

/-- So no old node stands below a new one. -/
theorem outside (h : Grows doc d) (hw : doc.Linked) (hid : doc.size ≤ id) (hp : p < doc.size) :
    d.Outside id p := by
  rintro (rfl | ha)
  · exact absurd hp (Nat.not_lt.mpr hid)
  · exact absurd (h.ancestor_lt hw ha hp) (Nat.not_lt.mpr hid)

theorem alloc (doc : Document) {node : Node} (h : node.Unlinked) : Grows doc (doc.alloc node).2 :=
  ⟨by rw [size_alloc]; exact Nat.le_succ _, fun x _ => parentOf_alloc h x⟩

/-- Giving a parent to a new node leaves the old ones alone. -/
theorem put {e : Document} (h : Grows doc d) (hsize : e.size = d.size)
    (hparent : ∀ x, e.parentOf x = if x = id then some p else d.parentOf x) (hid : doc.size ≤ id) :
    Grows doc e := by
  refine ⟨hsize ▸ h.1, fun x hx => ?_⟩
  have hne : x ≠ id := fun he => absurd hx (Nat.not_lt.mpr (he ▸ hid))
  rw [hparent, if_neg hne]
  exact h.2 x hx

end Grows

/-! ## One node with its attributes -/

theorem copyNode_eq {n : Node} (h : doc.get? id = some n) :
    doc.copyNode id = doc.alloc n.unlink := by
  rw [copyNode, h]
  rfl

theorem grows_append_new_attribute (hw : doc.Linked) {node : Node} (hn : node.Unlinked)
    (hk : node.kind = .attribute) (hp : doc.kindOf p = some .element) :
    Grows doc ((doc.alloc node).2.appendAttribute p (doc.alloc node).1) := by
  obtain ⟨hkind, hnone⟩ := kindOf_parentOf_new doc hn
  have hp' : (doc.alloc node).2.kindOf p = some .element := by
    rwa [kindOf_alloc_of_lt (lt_size_of_kindOf hp)]
  obtain ⟨-, hs, -, hpar⟩ := (hw.alloc hn).insertAttribute
    ((doc.alloc node).2.attributesOf p).length hp' (hk ▸ hkind) hnone
  rw [alloc_fst]
  exact (Grows.alloc doc hn).put hs hpar (Nat.le_refl _)

theorem copyAttributes_relinks {copy : NodeId} (as : List NodeId) (doc : Document)
    (hw : doc.Linked) (has : ∀ a ∈ as, doc.kindOf a = some .attribute)
    (hcopy : as ≠ [] → doc.kindOf copy = some .element) :
    let made := as.foldl (fun doc attr =>
      let (attrCopy, doc) := doc.copyNode attr
      doc.appendAttribute copy attrCopy) doc
    Relinks G doc made ∧ Grows doc made := by
  induction as generalizing doc with
  | nil => exact ⟨.refl, .refl doc⟩
  | cons a as ih =>
    have ha := has a mem_cons_self
    have hel := hcopy (cons_ne_nil _ _)
    obtain ⟨n, hn⟩ := exists_get? (lt_size_of_kindOf ha)
    have hkind : n.kind = .attribute := by simpa [kindOf, hn] using ha
    have hone : Relinks G doc ((doc.alloc n.unlink).2.appendAttribute copy
        (doc.alloc n.unlink).1) := append_new_attribute n.unlinked_unlink hkind hel
    have hgrow := grows_append_new_attribute hw n.unlinked_unlink hkind hel
    have hk := hone.kindOf hw
    have has' : ∀ b ∈ as, ((doc.alloc n.unlink).2.appendAttribute copy
        (doc.alloc n.unlink).1).kindOf b = some .attribute := by
      intro b hb
      have hb' := has b (mem_cons_of_mem _ hb)
      exact (hk.2 b (lt_size_of_kindOf hb')).trans hb'
    rw [foldl_cons, copyNode_eq hn]
    obtain ⟨hrest, hgrest⟩ := ih _ (hone.linked hw) has' fun _ =>
      (hk.2 copy (lt_size_of_kindOf hel)).trans hel
    exact ⟨hone.trans hrest, hgrow.trans hgrest⟩

/-- A node copied with its attributes: a new node of the same kind, not put anywhere yet. -/
theorem copyWithAttributes_spec (hw : doc.Linked) {kind : NodeKind}
    (hk : doc.kindOf id = some kind) :
    (doc.copyWithAttributes id).1 = doc.size ∧
      Relinks G doc (doc.copyWithAttributes id).2 ∧
      Grows doc (doc.copyWithAttributes id).2 ∧
      (doc.copyWithAttributes id).2.kindOf doc.size = some kind ∧
      (doc.copyWithAttributes id).2.parentOf doc.size = none := by
  obtain ⟨n, hn⟩ := exists_get? (lt_size_of_kindOf hk)
  have hkind : n.unlink.kind = kind := by simpa [kindOf, hn, Node.unlink] using hk
  obtain ⟨hnew, hnone⟩ := kindOf_parentOf_new doc n.unlinked_unlink
  have halloc : Relinks G doc (doc.alloc n.unlink).2 := .single (.alloc doc n.unlinked_unlink)
  have hlt : doc.size < (doc.alloc n.unlink).2.size := by
    rw [size_alloc]
    exact Nat.lt_succ_self _
  have has : ∀ a ∈ doc.attributesOf id, (doc.alloc n.unlink).2.kindOf a = some .attribute := by
    intro a ha
    have ha' := ((hw.mem_attributes id a).mp ha).2
    exact ((halloc.kindOf hw).2 a (lt_size_of_kindOf ha')).trans ha'
  have hel : doc.attributesOf id ≠ [] → (doc.alloc n.unlink).2.kindOf doc.size = some .element := by
    intro hne
    obtain ⟨a, ha⟩ := exists_mem_of_ne_nil _ hne
    have := hw.owner id a ((hw.mem_attributes id a).mp ha)
    rw [hnew, hkind, ← hk, this]
  obtain ⟨hrest, hgrow⟩ := copyAttributes_relinks _ _ (hw.alloc n.unlinked_unlink) has hel
  have hfst : (doc.alloc n.unlink).1 = doc.size := alloc_fst ..
  rw [copyWithAttributes, copyNode_eq hn]
  simp only [hfst]
  refine ⟨trivial, halloc.trans hrest, (Grows.alloc doc n.unlinked_unlink).trans hgrow, ?_, ?_⟩
  · rw [(hrest.kindOf (hw.alloc n.unlinked_unlink)).2 _ hlt, hnew, hkind]
  · rw [hgrow.2 _ hlt, hnone]

/-! ## Trees -/

/-- Pairs of a node and its copy: both are there and are of one kind. -/
def Paired (doc : Document) (pairs : List (NodeId × NodeId)) : Prop :=
  ∀ q ∈ pairs, q.1 < doc.size ∧ q.2 < doc.size ∧ doc.kindOf q.2 = doc.kindOf q.1

theorem Paired.relinks {pairs : List (NodeId × NodeId)} (h : Paired doc pairs)
    (hw : doc.Linked) (hr : Relinks G doc d) : Paired d pairs := by
  obtain ⟨hs, hk⟩ := hr.kindOf hw
  intro q hq
  obtain ⟨h1, h2, h3⟩ := h q hq
  refine ⟨Nat.lt_of_lt_of_le h1 hs, Nat.lt_of_lt_of_le h2 hs, ?_⟩
  rw [hk _ h1, hk _ h2, h3]

theorem paired_copy (hw : doc.Linked) (hid : doc.kindOf id ≠ none) :
    Paired (doc.copyWithAttributes id).2 [(id, (doc.copyWithAttributes id).1)] := by
  obtain ⟨kind, hk⟩ := Option.ne_none_iff_exists'.mp hid
  obtain ⟨hfst, hr, hg, hnew, -⟩ := copyWithAttributes_spec (G := Outside) hw hk
  have hlt := lt_size_of_kindOf hk
  intro q hq
  rw [hfst] at hq
  obtain rfl := mem_singleton.mp hq
  refine ⟨Nat.lt_of_lt_of_le hlt hg.1, lt_size_of_kindOf hnew, ?_⟩
  rw [hnew, (hr.kindOf hw).2 id hlt, hk]

theorem copyChild_relinks (hw : doc.Linked) {p child : NodeId} (hp : doc.IsContainer p)
    (hchild : doc.kindOf child ≠ none) (hattr : doc.kindOf child ≠ some .attribute)
    (hg : ∀ e, e.kindOf doc.size = doc.kindOf child → e.Outside doc.size p → G e doc.size p) :
    let made := (doc.copyWithAttributes child).2.appendChild p (doc.copyWithAttributes child).1
    Relinks G doc made ∧ Paired made [(child, (doc.copyWithAttributes child).1)] := by
  obtain ⟨kind, hk⟩ := Option.ne_none_iff_exists'.mp hchild
  obtain ⟨hfst, hr, hgrow, hnew, hnone⟩ := copyWithAttributes_spec (G := G) hw hk
  have hkeep := (hr.kindOf hw).2
  have happend : Relink G (doc.copyWithAttributes child).2
      ((doc.copyWithAttributes child).2.appendChild p doc.size) := by
    refine .append ?_ ⟨hnone, ?_, ?_⟩
      (hg _ (hnew.trans hk.symm) (hgrow.outside hw (Nat.le_refl _) hp.lt_size))
    · rw [IsContainer, hkeep p hp.lt_size]
      exact hp
    · rw [hnew]
      exact Option.some_ne_none _
    · rw [hnew, ← hk]
      exact hattr
  have hpair := paired_copy hw hchild
  rw [hfst] at hpair ⊢
  exact ⟨hr.tail happend, hpair.relinks (hr.linked hw) (.single happend)⟩

theorem copyChildren_relinks (cs : List NodeId) (doc : Document) (pending : List (NodeId × NodeId))
    (hw : doc.Linked) (hp : cs ≠ [] → doc.IsContainer p)
    (hcs : ∀ c ∈ cs, doc.kindOf c ≠ none ∧ doc.kindOf c ≠ some .attribute)
    (hpending : Paired doc pending) :
    Relinks Outside doc (copyChildren p cs doc pending).1 ∧
      Paired (copyChildren p cs doc pending).1 (copyChildren p cs doc pending).2 := by
  induction cs generalizing doc pending with
  | nil => exact ⟨.refl, hpending⟩
  | cons c cs ih =>
    have hcon := hp (cons_ne_nil _ _)
    obtain ⟨hchild, hattr⟩ := hcs c mem_cons_self
    obtain ⟨hone, hpair⟩ := copyChild_relinks (G := Outside) hw hcon hchild hattr fun _ _ h => h
    obtain ⟨-, hk⟩ := hone.kindOf hw
    rw [copyChildren]
    obtain ⟨hrest, hpaired⟩ := ih _ ((c, (doc.copyWithAttributes c).1) :: pending)
      (hone.linked hw)
      (fun _ => by rw [IsContainer, hk _ hcon.lt_size]; exact hcon)
      (fun x hx => by
        obtain ⟨hx1, hx2⟩ := hcs x (mem_cons_of_mem _ hx)
        obtain ⟨kind, hkx⟩ := Option.ne_none_iff_exists'.mp hx1
        rw [hk x (lt_size_of_kindOf hkx)]
        exact ⟨hx1, hx2⟩)
      (fun q hq => by
        rcases mem_cons.mp hq with rfl | hq
        · exact hpair _ mem_cons_self
        · exact hpending.relinks hw hone q hq)
    exact ⟨hone.trans hrest, hpaired⟩

/-- The copy of a node with children can have children, and these can be copied. -/
theorem Paired.children {source : NodeId} {rest : List (NodeId × NodeId)}
    (h : Paired doc ((source, copy) :: rest)) (hw : doc.Linked) :
    (doc.children source ≠ [] → doc.IsContainer copy) ∧
      ∀ c ∈ doc.children source, doc.kindOf c ≠ none ∧ doc.kindOf c ≠ some .attribute := by
  have hsame := (h _ mem_cons_self).2.2
  refine ⟨fun hne => ?_, fun c hc => ?_⟩
  · obtain ⟨c, hc⟩ := exists_mem_of_ne_nil _ hne
    have hcon := hw.container source c (hw.mem_children.mp hc).1
    rw [IsContainer] at hcon ⊢
    rwa [hsame]
  · have hchild := hw.mem_children.mp hc
    exact ⟨kindOf_ne_none (lt_size_of_parentOf hchild.1), hchild.2⟩

theorem copyPending_nil (rounds : Nat) (doc : Document) : copyPending rounds [] doc = some doc := by
  rw [copyPending]

theorem copyPending_cons (rounds : Nat) (source copy : NodeId) (rest : List (NodeId × NodeId))
    (doc : Document) :
    copyPending (rounds + 1) ((source, copy) :: rest) doc =
      copyPending rounds (copyChildren copy (doc.children source) doc rest).2
        (copyChildren copy (doc.children source) doc rest).1 := by
  rw [copyPending]

/-- **Induction over the work**: one pair after the other is worked off, until none is left. -/
theorem copyPending_induction {motive : List (NodeId × NodeId) → Document → Document → Prop}
    (nil : ∀ doc, motive [] doc doc)
    (cons : ∀ source copy rest doc d,
      motive (copyChildren copy (doc.children source) doc rest).2
        (copyChildren copy (doc.children source) doc rest).1 d →
      motive ((source, copy) :: rest) doc d)
    {rounds : Nat} {pending : List (NodeId × NodeId)}
    (h : copyPending rounds pending doc = some d) : motive pending doc d := by
  induction rounds generalizing pending doc with
  | zero =>
    cases pending with
    | nil =>
      cases h
      exact nil _
    | cons pair rest => cases h
  | succ rounds ih =>
    cases pending with
    | nil =>
      cases h
      exact nil _
    | cons pair rest =>
      rw [copyPending_cons] at h
      exact cons pair.1 pair.2 rest doc d (ih h)

theorem copyPending_relinks {rounds : Nat} {pending : List (NodeId × NodeId)}
    (h : copyPending rounds pending doc = some d) (hw : doc.Linked)
    (hpending : Paired doc pending) : Relinks Outside doc d := by
  refine copyPending_induction
    (motive := fun pending doc d => doc.Linked → Paired doc pending → Relinks Outside doc d)
    (fun _ _ _ => .refl) ?_ h hw hpending
  intro source copy rest doc d ih hw hpending
  obtain ⟨hcon, hcs⟩ := hpending.children hw
  obtain ⟨hone, hpaired⟩ := copyChildren_relinks (doc.children source) doc rest hw hcon hcs
    fun q hq => hpending q (mem_cons_of_mem _ hq)
  exact hone.trans (ih (hone.linked hw) hpaired)

/-- A copy is a new node, with what is below it worked off. -/
theorem deepCopy_eq_some (h : doc.deepCopy id = some (copy, d)) :
    (doc.copyWithAttributes id).1 = copy ∧
      copyPending (UInt64.size + doc.size) [(id, copy)] (doc.copyWithAttributes id).2 = some d := by
  obtain ⟨made, hmade, heq⟩ := Option.map_eq_some_iff.mp h
  cases heq
  exact ⟨rfl, hmade⟩

theorem deepCopy_relinks (hw : doc.Linked) (hid : doc.kindOf id ≠ none)
    (h : doc.deepCopy id = some (copy, d)) : Relinks Outside doc d := by
  obtain ⟨rfl, hrest⟩ := deepCopy_eq_some h
  obtain ⟨kind, hk⟩ := Option.ne_none_iff_exists'.mp hid
  obtain ⟨-, hr, -⟩ := copyWithAttributes_spec (G := Outside) hw hk
  exact hr.trans (copyPending_relinks hrest (hr.linked hw) (paired_copy hw hid))

end Document

end Xml
