import Xml.Proofs.Links.Operations
import Xml.Proofs.Links.Reading

/-!
# The link invariant over runs

From a new document or one that was read, any operations lead to a document whose links are in
order. That the parent links have no cycle is a different matter. An operation on a document without
a cycle closes one in exactly one case (`Operation.acyclic_apply_iff`): the document node was moved
below an element before, and that element, or one above it, is made the document element. The last
run of this module does that in five operations.

* `Initial.run_linked` — the links are in order after every run
* `Initial.run_acyclic_iff` — what it takes for a cycle
-/

namespace Xml.Document

variable {doc : Document}

/-! ## One operation -/

/-- The operation makes an element the document element that stands above the document node. -/
def Operation.RaisesAncestor (op : Operation) (doc : Document) : Prop :=
  ∃ node, op = .setRoot node ∧ (Document.setRoot node).Accepted doc ∧ doc.Ancestor node.id root

/-- **Every operation is a sequence of changes of the links.** They put nothing below itself, unless
the operation makes an ancestor of the document node the document element. -/
theorem Operation.relinks (hw : doc.Linked) (hroot : doc.kindOf root = some .document)
    (op : Operation) :
    Relinks Anywhere doc (op.apply doc) ∧
      (¬ op.RaisesAncestor doc → Relinks Outside doc (op.apply doc)) := by
  have both : ∀ {d}, Relinks Outside doc d →
      Relinks Anywhere doc d ∧ (¬ op.RaisesAncestor doc → Relinks Outside doc d) :=
    fun h => ⟨h.anywhere, fun _ => h⟩
  cases op with
  | createElement name => exact both (createElement_relinks name)
  | createText text => exact both (createLeaf_relinks .text text)
  | createCData text => exact both (createLeaf_relinks .cdata text)
  | createComment text => exact both (createComment_relinks text)
  | setRoot node =>
    rcases setRoot_cases doc node with ⟨hd, -⟩ | ⟨hacc, hel, hne, hd⟩
    · rw [Operation.apply, hd]
      exact both .refl
    · rw [Operation.apply, hd]
      refine ⟨installRoot_relinks hw hroot hel hne trivial, fun hraise =>
        installRoot_relinks hw hroot hel hne ?_⟩
      have hout : doc.Outside node.id root := by
        rintro (he | hanc)
        · rw [he, hroot] at hel
          cases hel
        · exact hraise ⟨node, rfl, hacc, hanc⟩
      refine hout.mono fun x q hx => ?_
      rw [hw.parentOf_detach] at hx
      split at hx
      · cases hx
      · exact hx
  | setName node name => exact both (setName_relinks node name)
  | setContent node text => exact both (setContent_relinks hw node text fun _ _ _ _ h => h)
  | setAttribute node key value => exact both (setAttribute_relinks node key value)
  | removeAttribute node key => exact both (removeAttribute_relinks node key)
  | setParent node parent => exact both (setParent_relinks hw node parent Fits.outside)
  | reparent node parent => exact both (reparent_relinks hw node parent Fits.outside)
  | replace node other => exact both (replace_relinks hw node other fun _ _ => Fits.outside)
  | unlink node => exact both (unlink_relinks node)
  | addSibling side node other =>
    exact both (addSibling_relinks hw side node other fun _ _ => Fits.outside)
  | duplicate node => exact both (duplicate_relinks hw node)
  | unlinkAll nodes => exact both (unlinkAll_relinks nodes)

/-! ## How a cycle comes about -/

theorem installRoot_parents (hw : doc.Linked) (hroot : doc.kindOf root = some .document)
    {id : NodeId} (hid : doc.kindOf id = some .element) (hne : doc.rootElement? ≠ some id) :
    (installRoot id doc).parentOf id = some root ∧
      ∀ x, ¬ (x = id ∨ doc.rootElement? = some x) →
        (installRoot id doc).parentOf x = doc.parentOf x := by
  have hw' := hw.detach id
  have hloose := hw.loose_element hid
  have hdetach : ∀ x, x ≠ id → (doc.detach id).parentOf x = doc.parentOf x := fun x hx => by
    rw [hw.parentOf_detach, if_neg hx]
  rw [installRoot]
  split
  · next old hold =>
    have hne' : old ≠ id := fun he => hne (he ▸ hold)
    have hc := (hw.rootElement? hold).1.detach hw hne'
    obtain ⟨l, r, hlr, hi, -⟩ := (hw'.inserted (hw'.container _ _ hc.1) hloose).2 old hc
    have hl := hi.linked hw' (hw'.container _ _ hc.1) hloose.1 hloose.2.2 hlr
    refine ⟨?_, fun x hx => ?_⟩
    · rw [hl.parentOf_detach, if_neg (Ne.symm hne'), hi.parent, if_pos rfl]
    · have hxid : x ≠ id := fun he => hx (Or.inl he)
      have hxold : x ≠ old := fun he => hx (Or.inr (he ▸ hold))
      rw [hl.parentOf_detach, if_neg hxold, hi.parent, if_neg hxid, hdetach x hxid]
  · have hcon : (doc.detach id).IsContainer root := Or.inr (by rw [hw.kindOf_detach]; exact hroot)
    have hi := (hw'.inserted hcon hloose).1
    refine ⟨by rw [hi.parent, if_pos rfl], fun x hx => ?_⟩
    have hxid : x ≠ id := fun he => hx (Or.inl he)
    rw [hi.parent, if_neg hxid, hdetach x hxid]

/-- An ancestor of the document node that becomes the document element closes a cycle: the way up
from the document node leads neither over its own child nor over the element's old parent. -/
theorem installRoot_cyclic (hw : doc.Linked) (ha : doc.Acyclic)
    (hroot : doc.kindOf root = some .document) {id : NodeId} (hid : doc.kindOf id = some .element)
    (hne : doc.rootElement? ≠ some id) (hanc : doc.Ancestor id root) :
    (installRoot id doc).Ancestor id id := by
  obtain ⟨hnew, hkeep⟩ := installRoot_parents hw hroot hid hne
  have hway : (installRoot id doc).Ancestor id root := by
    refine hanc.keep hkeep ?_ ?_
    · rintro (he | he)
      · rw [he, hid] at hroot
        cases hroot
      · rw [(hw.rootElement? he).2] at hroot
        cases hroot
    · rintro x (rfl | he) ⟨hx, hx'⟩
      · exact ha x hx'
      · exact ha x (hx.trans (.parent (hw.rootElement? he).1.1))
  exact hway.trans (.parent hnew)

/-- **When an operation closes a cycle.** -/
theorem Operation.acyclic_apply_iff (hw : doc.Linked) (hroot : doc.kindOf root = some .document)
    (ha : doc.Acyclic) (op : Operation) :
    (op.apply doc).Acyclic ↔ ¬ op.RaisesAncestor doc := by
  constructor
  · rintro hacyclic ⟨node, rfl, hacc, hanc⟩
    rcases setRoot_cases doc node with ⟨-, hno⟩ | ⟨-, hel, hne, hd⟩
    · exact hno hacc
    · rw [Operation.apply, hd] at hacyclic
      exact hacyclic _ (installRoot_cyclic hw ha hroot hel hne hanc)
  · intro hraise
    exact ((op.relinks hw hroot).2 hraise).acyclic hw ha

/-! ## Runs -/

/-- A document to start from: a new one, or one that was read. -/
inductive Initial : Document → Prop where
  | new (i : Nat) : Initial (empty i)
  | read {i : Nat} {bytes : List UInt8} {hint : Option String} {options : ParseOptions}
      {files : Files} {doc : Document} (h : parse i bytes hint options files = .ok doc) :
      Initial doc

theorem Initial.linked (h : Initial doc) :
    doc.Linked ∧ doc.Acyclic ∧ doc.kindOf root = some .document := by
  cases h with
  | new i => exact ⟨linked_empty i, acyclic_empty i, kindOf_root_empty i⟩
  | read h => exact parse_linked h

theorem Initial.acyclic (h : Initial doc) : doc.Acyclic :=
  h.linked.2.1

theorem run_append_singleton (ops : List Operation) (op : Operation) (doc : Document) :
    run (ops ++ [op]) doc = op.apply (run ops doc) := by
  rw [run, List.foldl_append]
  rfl

theorem Initial.run_linked (h : Initial doc) (ops : List Operation) :
    (run ops doc).Linked ∧ (run ops doc).kindOf root = some .document := by
  induction ops using List.reverseRecOn with
  | nil => exact ⟨h.linked.1, h.linked.2.2⟩
  | append_singleton ops op ih =>
    obtain ⟨hw, hroot⟩ := ih
    have hr := (op.relinks hw hroot).1
    rw [run_append_singleton]
    exact ⟨hr.linked hw, ((hr.kindOf hw).2 root (lt_size_of_kindOf hroot)).trans hroot⟩

/-- A property that an operation spoils in known cases only holds all along a run exactly if none of
these cases comes up on the way. -/
theorem run_keeps_iff {P : Document → Prop} {S : Operation → Document → Prop} (h : P doc)
    (step : ∀ before op, P (run before doc) →
      (P (run (before ++ [op]) doc) ↔ ¬ S op (run before doc)))
    (ops : List Operation) :
    (∀ before, before <+: ops → P (run before doc)) ↔
      ∀ before op, before ++ [op] <+: ops → ¬ S op (run before doc) := by
  constructor
  · intro hall before op hpre
    have hb := hall before ((List.prefix_append before [op]).trans hpre)
    exact (step before op hb).mp (hall _ hpre)
  · intro hnone before hpre
    induction before using List.reverseRecOn with
    | nil => exact h
    | append_singleton before op ih =>
      have hb := ih ((List.prefix_append before [op]).trans hpre)
      exact (step before op hb).mpr (hnone before op hpre)

/-- Along a run no cycle comes about as long as no operation raises an ancestor of the document
node. -/
theorem Initial.run_acyclic_iff (h : Initial doc) (ops : List Operation) :
    (∀ before, before <+: ops → (run before doc).Acyclic) ↔
      ∀ before op, before ++ [op] <+: ops → ¬ op.RaisesAncestor (run before doc) := by
  refine run_keeps_iff h.acyclic (fun before op hb => ?_) ops
  obtain ⟨hw, hroot⟩ := h.run_linked before
  rw [run_append_singleton]
  exact op.acyclic_apply_iff hw hroot hb

/-- **The links of a document along every run.** From a new document or one that was read, after
any operations with any arguments, done or refused: no link leads out of the table; the sibling
links below each node spell one list without repetitions, forwards and backwards, of exactly the
nodes whose parent it is; attribute lists hold exactly the attributes of their element, without
repetitions, and are empty elsewhere. The parent links stay without a cycle exactly as long as no
operation makes an ancestor of the document node the document element. -/
theorem links_of_run_and_acyclic_iff (start : Document) (h : Initial start)
    (ops : List Operation) :
    (∀ x y, (run ops start).LeadsTo x y → y < (run ops start).size) ∧
      (∀ p, ∃ cs, (run ops start).Chain p cs ∧ cs.Nodup ∧
        ∀ c, c ∈ cs ↔ (run ops start).IsChild p c) ∧
      (∀ p, ((run ops start).attributesOf p).Nodup ∧
        (∀ a, a ∈ (run ops start).attributesOf p ↔ (run ops start).IsAttributeOf p a) ∧
        ((run ops start).kindOf p ≠ some .element → (run ops start).attributesOf p = [])) ∧
      (∀ c p, (run ops start).parentOf c = some p → (run ops start).IsContainer p) ∧
      (∀ c, (run ops start).parentOf c = none →
        (run ops start).nextOf c = none ∧ (run ops start).prevOf c = none) ∧
      ((∀ before, before <+: ops → (run before start).Acyclic) ↔
        ∀ before op, before ++ [op] <+: ops → ¬ op.RaisesAncestor (run before start)) := by
  obtain ⟨hw, -⟩ := h.run_linked ops
  refine ⟨fun x y => hw.lt_size_of_leadsTo, hw.children, fun p => ⟨hw.attributes_nodup p,
    hw.mem_attributes p, hw.attributesOf_eq_nil⟩, fun c p => hw.container p c, fun c hc =>
    hw.alone c (Or.inl hc), h.run_acyclic_iff ops⟩

/-- Two elements are made; the second is put under the first, the document node behind the
second. -/
def moveDocumentNode : List Operation :=
  [.createElement "e", .createElement "c", .setParent ⟨0, 2, .element⟩ ⟨0, 1, .element⟩,
    .addSibling .after ⟨0, 2, .element⟩ ⟨0, 0, .document⟩]

/-- **A run with a cycle.** Once the document node stands under an element, that element can become
the document element, and then each of the two stands below the other. -/
theorem cycle_of_moved_document_node :
    Initial (empty 0) ∧ (run moveDocumentNode (empty 0)).parentOf root = some 1 ∧
      ¬ ∀ before, before <+: moveDocumentNode ++ [.setRoot ⟨0, 1, .element⟩] →
        (run before (empty 0)).Acyclic := by
  have hinit := Initial.new 0
  have hup : (run moveDocumentNode (empty 0)).parentOf root = some 1 := by decide
  refine ⟨hinit, hup, fun hall => ?_⟩
  have hnone := (links_of_run_and_acyclic_iff _ hinit _).2.2.2.2.2.mp hall
  exact hnone moveDocumentNode _ (List.prefix_refl _)
    ⟨⟨0, 1, .element⟩, rfl, ⟨(), _, rfl⟩, .parent hup⟩

end Xml.Document
