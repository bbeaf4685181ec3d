import Xml.Proofs.Steps.Basic
import Xml.Proofs.Steps.Reading

/-!
# The place of the document node

The document node is where a document begins, so it should stand below nothing. Two operations put a
node beside another one or in its place, and neither of them asks whether that node is the document
node. They only ask whether it stands above its new neighbour, which it does not do when the
neighbour belongs to a detached tree. Nothing else moves the document node
(`document_node_free_iff`).
-/

namespace Xml.Document

variable {doc d : Document} {op : Operation}

/-- The operation puts the document node beside a node of a detached tree, or in its place. -/
def Operation.MovesDocumentNode (op : Operation) (doc : Document) : Prop :=
  ∃ node other : NodeRef,
    (op = .replace node other ∨ ∃ side, op = .addSibling side node other) ∧
      node.doc = doc.id ∧ other.doc = doc.id ∧ other.id = root ∧
      (∃ p, doc.IsChild p node.id) ∧ ¬ doc.Ancestor root node.id

/-- What an operation can do to the parents: it takes some away and links new nodes, though not to
the document node; or it puts one node somewhere else. -/
inductive Resettles (doc : Document) (op : Operation) (d : Document) : Prop where
  | few (h : ∀ x q, d.parentOf x = some q →
      doc.parentOf x = some q ∨ doc.size ≤ x ∧ q ≠ root)
  | put {id p : NodeId} {gone : Option NodeId}
      (hparent : ∀ x, d.parentOf x =
        if x = id then some p else if some x = gone then none else doc.parentOf x)
      (hmoves : id = root → op.MovesDocumentNode doc) (htop : p = root → doc.TopLevel id gone)

theorem Resettles.of_places {e : Document} (h : Resettles doc op e) (hp : SamePlaces e d) :
    Resettles doc op d := by
  cases h with
  | few h => exact .few fun x q hx => h x q ((hp.parentOf x).symm.trans hx)
  | put hparent hmoves htop => exact .put (fun x => (hp.parentOf x).trans (hparent x)) hmoves htop

theorem Joins.moves {node other : NodeRef} {p : NodeId} (h : Joins doc node other p)
    (hroot : doc.kindOf root = some .document)
    (hop : op = .replace node other ∨ ∃ side, op = .addSibling side node other)
    (hother : other.id = root) : op.MovesDocumentNode doc := by
  refine ⟨node, other, hop, h.node_doc, h.other_doc, hother, ⟨p, h.beside.parent, fun hk => ?_⟩,
    fun ha => ?_⟩
  · have hattr := h.beside.alike.mp hk
    rw [hother, hroot] at hattr
    cases hattr
  · exact h.beside.fits.outside (hother ▸ ha.of_parent h.beside.parent)

theorem Step.resettles (h : Step doc op d) (hroot : doc.kindOf root = some .document) :
    Resettles doc op d := by
  have same {e : Document} (hp : ∀ x, e.parentOf x = doc.parentOf x) : Resettles doc op e :=
    .few fun x q hx => .inl ((hp x).symm.trans hx)
  have few {e : Document} (hp : ∀ x q, e.parentOf x = some q → doc.parentOf x = some q) :
      Resettles doc op e := .few fun x q hx => .inl (hp x q hx)
  have away {p : NodeId} (hp : doc.kindOf p = some .element) : p ≠ root := by
    rintro rfl
    rw [hroot] at hp
    cases hp
  cases h with
  | kept labels places => exact same places.parentOf
  | made hn => exact same (parentOf_alloc hn)
  | renamed hdoc hk => exact (same (parentOf_rename doc _ _)).of_places (.resolveNamespace _ _)
  | retitled hk => exact same (parentOf_rename doc _ _)
  | cut h => exact few h.parentOf
  | dropped hl h => exact (few h.parentOf).of_places (.resolveSubtree _ _)
  | filled hcut hp hk h =>
    refine .few fun x q hx => ?_
    rw [h.parentOf, hcut.labels.size] at hx
    split at hx
    · next heq => exact .inr ⟨Nat.le_of_eq heq.symm, Option.some.inj hx ▸ away hp⟩
    · exact .inl (hcut.parentOf x q hx)
  | attributed hp hk hnew h =>
    refine Resettles.of_places (.few fun x q hx => ?_) (.resolveNamespace _ _)
    rw [h.parentOf] at hx
    split at hx
    · next heq => exact .inr ⟨Nat.le_of_eq heq.symm, Option.some.inj hx ▸ away hp⟩
    · exact .inl hx
  | declared hk h => exact (same h.parentOf).of_places (.resolveSubtree _ _)
  | under hid hfits htop hgone h =>
    exact Resettles.of_places (.put h.parentOf (fun he => absurd he hid) htop) (.resolveSubtree _ _)
  | replaced hjoins htop h =>
    exact Resettles.of_places (.put h.parentOf (hjoins.moves hroot (.inl rfl)) htop)
      (.resolveSubtree _ _)
  | beside hjoins htop h he =>
    exact Resettles.of_places (.put h.parentOf (hjoins.moves hroot (.inr ⟨_, rfl⟩)) htop)
      ((SamePlaces.resolveSubtree _ _).trans (.of_nodes_eq he))
  | installed hk hne hacc h =>
    refine .put h.parentOf (fun he => absurd he (away hk)) fun _ => ?_
    exact .inr (.inr ⟨hk, fun e he => .inr he.symm⟩)
  | copied h =>
    have hapart := Copies.apart h
    refine .few fun x q hx => ?_
    by_cases hlt : x < doc.size
    · exact .inl ((hapart.parentOf x hlt).symm.trans hx)
    · -- a copy is put under a copy, and the document node is none
      have hle := Nat.le_of_not_lt hlt
      refine (hapart.new x q hle hx).imp_right fun hq => ⟨hle, ?_⟩
      exact Nat.ne_of_gt (Nat.lt_of_lt_of_le (lt_size_of_kindOf hroot) hq)

/-! ## One operation -/

theorem Step.free (h : Step doc op d) (hroot : doc.kindOf root = some .document)
    (hfree : doc.parentOf root = none) (hstill : ¬ op.MovesDocumentNode doc) :
    d.parentOf root = none := by
  cases h.resettles hroot with
  | few h =>
    rw [Option.eq_none_iff_forall_ne_some]
    intro q hq
    rcases h root q hq with hq | ⟨hle, -⟩
    · rw [hfree] at hq
      cases hq
    · exact absurd (lt_size_of_kindOf hroot) (Nat.not_lt.mpr hle)
  | @put id p gone hparent hmoves htop =>
    rw [hparent, if_neg fun he => hstill (hmoves he.symm), hfree, ite_self]

/-- Nothing keeps the document node where it is, if its new neighbour does not stand below it. -/
theorem Operation.MovesDocumentNode.not_free (hw : doc.Linked)
    (hroot : doc.kindOf root = some .document) (hfree : doc.parentOf root = none)
    (h : op.MovesDocumentNode doc) : (op.apply doc).parentOf root ≠ none := by
  obtain ⟨node, other, hop, hnode, hother, hid, ⟨p, hchild⟩, hout⟩ := h
  have hne : node.id ≠ other.id := by
    rw [hid]
    intro he
    rw [IsChild, he, hfree] at hchild
    cases hchild.1
  have hpne : p ≠ root := fun he => hout (.parent (he ▸ hchild.1))
  have hattr : doc.kindOf root ≠ some .attribute := by
    rw [hroot]
    decide
  -- so every question of the two operations is answered in favour of the move
  have hjoins : Joins doc node other p := by
    refine hw.joins hnode hother hchild ?_ ?_ ?_ <;> rw [hid]
    · rw [hroot]
      exact Option.some_ne_none _
    · exact hattr
    · rintro (he | ha)
      · exact hpne he.symm
      · exact hout (.above hchild.1 ha)
  rcases hop with rfl | ⟨side, rfl⟩
  · obtain ⟨d, hd, hplaced⟩ := hjoins.beside.placed_substitute (.inr hne)
    rw [Operation.apply,
      hjoins.replace_after (checkLevel_of_ne hpne _) fun he => hne (congrArg NodeRef.id he), hd,
      (SamePlaces.resolveSubtree _ _).parentOf, hplaced.parentOf, if_pos hid.symm]
    exact Option.some_ne_none p
  · obtain ⟨d, hd, hplaced⟩ := hjoins.beside.placed_beside hne side
    have hnote : SamePlaces (d.resolveSubtree other.id)
        ((d.resolveSubtree other.id).noteAttached other.id) := .of_nodes_eq (nodes_noteAttached ..)
    rw [Operation.apply, hjoins.addSibling_after (checkLevel_of_ne hpne _) hne side, hd,
      hnote.parentOf, (SamePlaces.resolveSubtree _ _).parentOf, hplaced.parentOf, if_pos hid.symm]
    exact Option.some_ne_none p

/-- **When an operation moves the document node.** -/
theorem Operation.free_apply_iff (hw : doc.Linked) (hroot : doc.kindOf root = some .document)
    (hfree : doc.parentOf root = none) (op : Operation) :
    (op.apply doc).parentOf root = none ↔ ¬ op.MovesDocumentNode doc :=
  ⟨fun hnone hmoves => hmoves.not_free hw hroot hfree hnone,
    (op.step hw hroot).free hroot hfree⟩

/-! ## Runs -/

/-- What is read comes below the document node and not above it. -/
theorem Builder.Grown.free_add {i : Nat} {b : Builder} (h : b.Grown i) (e : Event)
    (hfree : b.doc.parentOf root = none) : (b.add e).doc.parentOf root = none := by
  have hlt := lt_size_of_kindOf h.kindOf_root
  cases h.tells e with
  | kept he labels places opened scopes => rw [places.parentOf, hfree]
  | child he h opened scopes => rw [h.parentOf, if_neg (Nat.ne_of_lt hlt), hfree]
  | start hinside helement hattributes opened scopes =>
    rw [(hattributes.old.2 root (by rw [helement.size]; exact Nat.lt_succ_of_lt hlt)).2,
      helement.parentOf, if_neg (Nat.ne_of_lt hlt), hfree]
  | close hdoc opened scopes => rw [hdoc, hfree]

theorem Initial.free (h : Initial doc) : doc.parentOf root = none := by
  obtain ⟨events, b, hfree, hnodes⟩ := h.built (P := fun _ b => b.doc.parentOf root = none)
    (fun i => Builder.parentOf_initial i root)
    fun i before e b hr hfree => hr.grown.free_add e hfree
  rw [parentOf, get?, hnodes]
  exact hfree

theorem Initial.run_free_iff (h : Initial doc) (ops : List Operation) :
    (∀ before, before <+: ops → (run before doc).parentOf root = none) ↔
      ∀ before op, before ++ [op] <+: ops → ¬ op.MovesDocumentNode (run before doc) := by
  refine run_keeps_iff (P := fun d => d.parentOf root = none) h.free (fun before op hb => ?_) ops
  obtain ⟨hw, hroot⟩ := h.run_linked before
  rw [run_append_singleton]
  exact op.free_apply_iff hw hroot hb

/-- **The place of the document node along every run.** It has neither a parent nor siblings,
exactly as long as it is not put beside a node of a detached tree or in its place. -/
theorem document_node_free_iff (start : Document) (h : Initial start) (ops : List Operation) :
    (∀ before, before <+: ops → (run before start).parentOf root = none ∧
        (run before start).nextOf root = none ∧ (run before start).prevOf root = none) ↔
      ∀ before op, before ++ [op] <+: ops → ¬ op.MovesDocumentNode (run before start) := by
  rw [← h.run_free_iff ops]
  refine forall_congr' fun before => imp_congr_right fun _ => and_iff_left_of_imp fun hnone => ?_
  exact (h.run_linked before).1.alone root (.inl hnone)

/-- In the run that closes a cycle later on, one of the operations moves the document node. -/
theorem document_node_moved_beside_detached :
    Initial (empty 0) ∧ (run moveDocumentNode (empty 0)).parentOf root = some 1 ∧
      ∃ before op, before ++ [op] <+: moveDocumentNode ∧
        op.MovesDocumentNode (run before (empty 0)) := by
  have hinit := Initial.new 0
  have hup : (run moveDocumentNode (empty 0)).parentOf root = some 1 := by decide
  refine ⟨hinit, hup, ?_⟩
  by_contra hno
  have hfree := (document_node_free_iff _ hinit moveDocumentNode).mpr fun before op hpre hmoves =>
    hno ⟨before, op, hpre, hmoves⟩
  have hnone := (hfree moveDocumentNode (List.prefix_refl _)).1
  rw [hup] at hnone
  cases hnone

end Xml.Document
