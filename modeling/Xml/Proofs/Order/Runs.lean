import Xml.Proofs.Links.Runs
import Xml.Proofs.Order.Reading
import Xml.Proofs.Steps.Reading

/-!
# Document order over runs

Sorting trusts the numbers as long as a document is not marked as edited. The mark is never taken
back, and an operation that leaves it away has only added nodes without links or changed labels
(`Relinks.quiet`): so in a document without the mark the numbers still are in document order.

With the mark, the trees are walked. A cycle can stand in the way only where the document node was
put below something (`Initial.run_acyclic_detach_root`), so as long as it stands on top, sorting by
what the walk has written down is sorting by document order.

* `sort_in_document_order` — both ways of sorting along every run
-/

namespace Xml.Document

variable {doc d e : Document} {id x : NodeId}

/-! ## The mark -/

/-- The document is marked as edited, or nodes without links were added and that is all. -/
def Quiet (doc d : Document) : Prop :=
  d.edited = true ∨ d.edited = doc.edited ∧ Additions doc d

namespace Quiet

theorem same (h : Relabeled doc d) : Quiet doc d :=
  .inr ⟨h.edited, .of_sameLinks h.links⟩

theorem refl (doc : Document) : Quiet doc doc :=
  .same (.refl doc)

theorem trans (h : Quiet doc d) (h' : Quiet d e) : Quiet doc e := by
  rcases h' with h' | ⟨he', h'⟩
  · exact .inl h'
  · rcases h with h | ⟨he, h⟩
    · exact .inl (he'.trans h)
    · exact .inr ⟨he'.trans he, h.trans h'⟩

end Quiet

theorem edited_alloc (doc : Document) (node : Node) :
    (doc.alloc node).2.edited = doc.edited := by
  obtain ⟨_, h⟩ := exists_alloc_eq doc node
  rw [h]

theorem quiet_detach (doc : Document) (id : NodeId) : Quiet doc (doc.detach id) := by
  rw [detach]
  split
  · exact .refl doc
  · split
    · exact .refl doc
    · exact .inl rfl

theorem quiet_insertBefore (doc : Document) (ref id : NodeId) :
    Quiet doc (doc.insertBefore ref id) := by
  rw [insertBefore]
  split
  · exact .refl doc
  · exact .inl rfl

theorem quiet_insertAfter (doc : Document) (ref id : NodeId) :
    Quiet doc (doc.insertAfter ref id) := by
  rw [insertAfter]
  split
  · exact .refl doc
  · exact .inl rfl

/-- **No change takes the mark back, and one that does not set it moves nothing.** -/
theorem Relinks.quiet {G : Document → NodeId → NodeId → Prop} (h : Relinks G doc d) :
    Quiet doc d := by
  induction h with
  | refl => exact .refl doc
  | tail _ hr ih =>
    refine ih.trans ?_
    cases hr with
    | same h => exact .same h
    | alloc h => exact .inr ⟨edited_alloc _ _, .alloc _ h⟩
    | detach id => exact quiet_detach _ id
    | append => exact .inl rfl
    | before => exact quiet_insertBefore _ _ _
    | after => exact quiet_insertAfter _ _ _
    | attr => exact .inl rfl

theorem Initial.run_quiet (h : Initial doc) (ops : List Operation) : Quiet doc (run ops doc) := by
  induction ops using List.reverseRecOn with
  | nil => exact .refl doc
  | append_singleton ops op ih =>
    obtain ⟨hw, hroot⟩ := h.run_linked ops
    rw [run_append_singleton]
    exact ih.trans (op.relinks hw hroot).1.quiet

/-- New documents and documents that were read have their numbers in document order. -/
theorem Initial.numbered (h : Initial doc) : doc.Numbered := by
  cases h with
  | new i => rfl
  | @read i bytes hint options files doc h =>
    obtain ⟨events, -, hnodes⟩ := parse_nodes h
    have hgrown := Builder.grown_builtFrom i events
    exact SameLinks.numbered (.of_nodes_eq hnodes) hgrown.linked hgrown.acyclic
      (lt_size_of_kindOf hgrown.kindOf_root) (Builder.numbered_builtFrom i events)

/-- **Without the mark numbers are in document order.** -/
theorem Initial.order_of_not_edited (h : Initial doc) (ops : List Operation)
    (he : (run ops doc).edited = false) :
    (run ops doc).order = List.range (run ops doc).size := by
  rcases h.run_quiet ops with hmark | ⟨-, hadd⟩
  · rw [he] at hmark
    cases hmark
  · obtain ⟨hw, hroot⟩ := h.run_linked []
    exact hadd.order_eq hw h.acyclic (h.run_linked ops).1 (lt_size_of_kindOf hroot) h.numbered

/-! ## Cycles -/

/-- A node is put below itself at most by way of the document node. -/
def OutsideOrTop (doc : Document) (id p : NodeId) : Prop :=
  doc.Outside id p ∨ p = root

theorem Operation.relinks_outsideOrTop (hw : doc.Linked) (hroot : doc.kindOf root = some .document)
    (op : Operation) : Relinks OutsideOrTop doc (op.apply doc) := by
  by_cases hraise : op.RaisesAncestor doc
  · obtain ⟨node, rfl, hacc, -⟩ := hraise
    rcases setRoot_cases doc node with ⟨-, hno⟩ | ⟨-, hel, hne, hd⟩
    · exact absurd hacc hno
    · rw [Operation.apply, hd]
      exact installRoot_relinks hw hroot hel hne (.inr rfl)
  · exact Relinks.mono (fun _ _ _ hout => .inl hout) ((op.relinks hw hroot).2 hraise)

/-- **Every cycle leads over the document node.** -/
theorem Effect.acyclic_detach_root (hw : doc.Linked) (h : Effect OutsideOrTop doc d)
    (ha : (doc.detach root).Acyclic) : (d.detach root).Acyclic := by
  have hold := hw.parentOf_detach root
  have hnew := h.linked.parentOf_detach root
  cases h.parents with
  | fewer hp =>
    refine ha.mono fun x p hx => ?_
    rw [hnew] at hx
    rw [hold]
    split at hx
    · cases hx
    · next hne =>
      rw [if_neg hne]
      exact hp x p hx
  | put id p hparent hg =>
    by_cases hid : id = root
    · -- a place for the document node does not count
      refine ha.mono fun x q hx => ?_
      rw [hnew, hparent, hid] at hx
      rw [hold]
      split at hx
      · cases hx
      · next hne =>
        rw [if_neg hne]
        exact hx
    · have hput : ∀ x, (d.detach root).parentOf x =
          if x = id then some p else (doc.detach root).parentOf x := by
        intro x
        rw [hnew, hold, hparent]
        by_cases hx : x = id
        · rw [if_pos hx, if_pos hx, if_neg (hx ▸ hid)]
        · rw [if_neg hx, if_neg hx]
      have hout : ¬ (id = p ∨ (doc.detach root).Ancestor id p) := by
        have hup (hanc : (doc.detach root).Ancestor id p) : doc.Ancestor id p :=
          hanc.mono fun x q hx => by
            rw [hold] at hx
            split at hx
            · cases hx
            · exact hx
        rintro (rfl | hanc)
        · rcases hg with (hg | hg) | ⟨hk, hp⟩
          · exact hg (.inl rfl)
          · exact hid hg
          · rw [hk] at hp
            cases hp
        · rcases hg with (hg | rfl) | ⟨hk, -⟩
          · exact hg (.inr (hup hanc))
          · obtain ⟨q, hq⟩ := hanc.exists_parent
            rw [hold, if_pos rfl] at hq
            cases hq
          · exact hw.not_ancestor_of_attribute hk (hup hanc)
      exact ha.put hput hout

theorem Initial.run_acyclic_detach_root (h : Initial doc) (ops : List Operation) :
    ((run ops doc).detach root).Acyclic := by
  induction ops using List.reverseRecOn with
  | nil =>
    refine h.acyclic.mono fun x p hx => ?_
    rw [((h.run_linked []).1).parentOf_detach] at hx
    split at hx
    · cases hx
    · exact hx
  | append_singleton ops op ih =>
    obtain ⟨hw, hroot⟩ := h.run_linked ops
    rw [run_append_singleton]
    have hsteps := op.relinks_outsideOrTop hw hroot
    generalize op.apply (run ops doc) = after at hsteps
    induction hsteps with
    | refl => exact ih
    | tail hs hr ih =>
      have hw' := Relinks.linked hs hw
      exact (hr.effect hw').acyclic_detach_root hw' ih

/-- No cycle comes about where the document node stands on top. -/
theorem Initial.run_acyclic (h : Initial doc) (ops : List Operation)
    (hroot : (run ops doc).parentOf root = none) : (run ops doc).Acyclic := by
  have ha := h.run_acyclic_detach_root ops
  rwa [detach_of_loose hroot] at ha

/-! ## Sorting -/

/-- **Sorting puts nodes in document order.** From a new document or one that was read, after any
operations that leave the document node on top: document order lists each node of the table once,
the tree of the document node first and then the trees of the other nodes without a parent, in the
order of their numbers; in a tree each node comes before its attributes, in their order, and these
before the trees of its children, in their order. Sorting any nodes of the table, with repetitions,
leaves each of them once, in the order of their positions there. As long as the document is not
marked as edited, document order is the order of the numbers. -/
theorem sort_in_document_order (start doc : Document) (h : Initial start) (ops : List Operation)
    (hdoc : run ops start = doc) (hroot : doc.parentOf root = none) :
    doc.order = doc.subtreeOrder root ++ doc.detachedRoots.flatMap doc.subtreeOrder ∧
      doc.detachedRoots.Pairwise (· < ·) ∧
      (∀ r, r ∈ doc.detachedRoots ↔ r < doc.size ∧ r ≠ root ∧ doc.parentOf r = none) ∧
      (∀ id, id < doc.size → doc.subtreeOrder id =
        id :: doc.attributesOf id ++ (doc.children id).flatMap doc.subtreeOrder) ∧
      doc.order.Perm (List.range doc.size) ∧
      (∀ ids : List NodeId, (∀ x ∈ ids, x < doc.size) →
        (∀ x, x ∈ doc.sort ids ↔ x ∈ ids) ∧
          (doc.sort ids).Pairwise fun a b => doc.order.idxOf a < doc.order.idxOf b) ∧
      (doc.edited = false → doc.order = List.range doc.size) := by
  subst hdoc
  obtain ⟨hw, hkind⟩ := h.run_linked ops
  have ha := h.run_acyclic ops hroot
  have hperm := hw.order_perm ha hroot (lt_size_of_kindOf hkind)
  refine ⟨rfl, List.pairwise_lt_range.filter _, fun r => ?_, fun id _ => subtreeOrder_eq hw ha id,
    hperm, fun ids hids => sorted_by_position hperm (h.order_of_not_edited ops) hids,
    h.order_of_not_edited ops⟩
  rw [detachedRoots, List.mem_filter, List.mem_range, Bool.and_eq_true, bne_iff_ne,
    Option.isNone_iff_eq_none]

/-- Of two elements the second becomes the document element, gets the first as its child and an
attribute, and a text is left over. -/
def nestEarlierElement : List Operation :=
  [.createElement "e", .createElement "c", .setRoot ⟨0, 2, .element⟩,
    .setParent ⟨0, 1, .element⟩ ⟨0, 2, .element⟩, .setAttribute ⟨0, 2, .element⟩ "k" "v",
    .createText "t"]

/-- **Numbers out of order.** The child has the smallest number and comes behind the attribute, which
has a greater number than the element. -/
theorem sorted_with_child_numbered_first :
    Initial (empty 0) ∧ (run nestEarlierElement (empty 0)).parentOf root = none ∧
      (run nestEarlierElement (empty 0)).order = [0, 2, 3, 1, 4] ∧
      (∀ x, x ∈ (run nestEarlierElement (empty 0)).sort [4, 1, 3, 1] ↔ x ∈ [4, 1, 3, 1]) ∧
      ((run nestEarlierElement (empty 0)).sort [4, 1, 3, 1]).Pairwise fun a b =>
        [0, 2, 3, 1, 4].idxOf a < [0, 2, 3, 1, 4].idxOf b := by
  have hinit := Initial.new 0
  have hroot : (run nestEarlierElement (empty 0)).parentOf root = none := by decide
  have horder : (run nestEarlierElement (empty 0)).order = [0, 2, 3, 1, 4] := by decide
  have hids : ∀ x ∈ [4, 1, 3, 1], x < (run nestEarlierElement (empty 0)).size := by decide
  obtain ⟨-, -, -, -, -, hsort, -⟩ :=
    sort_in_document_order (empty 0) _ hinit nestEarlierElement rfl hroot
  obtain ⟨hmem, hstrict⟩ := hsort [4, 1, 3, 1] hids
  rw [horder] at hstrict
  exact ⟨hinit, hroot, horder, hmem, hstrict⟩

end Xml.Document
