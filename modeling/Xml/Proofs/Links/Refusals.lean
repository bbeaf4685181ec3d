import Xml.Proofs.Links.Runs

/-!
# Refused operations

An edit asks its questions before it changes anything, so a refusal leaves the document as it was.
The exception is `reparent`, which asks again when the node is already taken out. By then the answer
is known (`Linked.checkPlacement_detach`), and no refusal comes of it. Of a set of nodes that are
unlinked one by one all that can be said is that those before the refused one are gone, so `unlinkAll`
is left out here.

Whether a node belongs to the document is the first question of every edit that takes nodes. A node
of another document is refused as such, wherever it stands.
-/

namespace Xml.Document

variable {doc : Document} {α β : Type}

/-! ## One edit -/

variable {err : EditError} (node : NodeRef)

namespace Edit

/-- Why an edit is refused, if it is. -/
def refusal? (e : Edit α) (doc : Document) : Option EditError :=
  match e doc with
  | .ok _ _ => none
  | .error err _ => some err

/-- If the edit is refused, the document stays as it is. -/
def Atomic (e : Edit α) (doc : Document) : Prop :=
  ∀ err, e.refusal? doc = some err → e.after doc = doc

theorem Accepted.atomic {e : Edit α} (h : e.Accepted doc) : e.Atomic doc := by
  intro err herr
  obtain ⟨a, d, ha⟩ := h
  rw [refusal?, ha] at herr
  cases herr

theorem atomic_throw (err : EditError) (doc : Document) : (throw err : Edit α).Atomic doc :=
  fun _ _ => rfl

theorem refusal?_require (check : Document → Except EditError α) (k : α → Edit β)
    (doc : Document) :
    (require check >>= k).refusal? doc =
      match check doc with
      | .ok a => (k a).refusal? doc
      | .error err => some err := by
  simp only [refusal?, require, bind, EStateM.bind]
  cases check doc <;> rfl

theorem atomic_require {check : Document → Except EditError α} {k : α → Edit β}
    (h : ∀ a, check doc = .ok a → (k a).Atomic doc) : (require check >>= k).Atomic doc := by
  intro err herr
  rw [refusal?_require] at herr
  rw [after_require]
  cases hc : check doc with
  | error => rfl
  | ok a =>
    rw [hc] at herr
    exact h a hc err herr

theorem refusal?_require_of_error {check : Document → Except EditError α}
    (h : check doc = .error err) (k : α → Edit β) :
    (require check >>= k).refusal? doc = some err := by
  rw [refusal?_require, h]

end Edit

open Edit

/-! ## Questions about the owner -/

theorem owned_of_foreign {node : NodeRef} (h : node.doc ≠ doc.id) :
    owned node doc = .error .foreignNode := by
  rw [owned, NodeRef.node?, if_neg (by simpa using h)]

theorem owned_error {node : NodeRef} (h : owned node doc = .error err) : err = .foreignNode := by
  unfold owned at h
  split at h
  · cases h
  · exact (Except.error.inj h).symm

theorem refusal?_foreign_first {node : NodeRef} (h : node.doc ≠ doc.id) (k : Node → Edit α) :
    (require (owned node) >>= k).refusal? doc = some .foreignNode :=
  refusal?_require_of_error (owned_of_foreign h) k

/-- The second node is asked about next, and if it is not, then because the first one is refused in
the same way. -/
theorem refusal?_foreign_second {other : NodeRef} (h : other.doc ≠ doc.id) (node : NodeRef)
    (k : Node → Node → Edit α) :
    (require (owned node) >>= fun n => require (owned other) >>= k n).refusal? doc =
      some .foreignNode := by
  cases hn : owned node doc with
  | error err =>
    rw [← owned_error hn]
    exact refusal?_require_of_error hn _
  | ok n =>
    rw [refusal?_require, hn]
    exact refusal?_require_of_error (owned_of_foreign h) _

/-! ## Each operation -/

theorem attachUnder_atomic (id p : NodeId) : (attachUnder id p).Atomic doc :=
  atomic_require fun _ _ => Accepted.atomic ⟨(), _, rfl⟩

theorem createComment_atomic (text : String) : (createComment text).Atomic doc :=
  atomic_require fun _ _ => Accepted.atomic ⟨_, _, rfl⟩

theorem setRoot_atomic : (setRoot node).Atomic doc :=
  atomic_require fun _ _ => atomic_require fun _ _ => atomic_require fun _ _ =>
    Accepted.atomic ⟨(), _, rfl⟩

theorem setName_atomic (name : String) : (setName node name).Atomic doc := by
  refine atomic_require fun n _ => ?_
  extract_lets rename
  split
  case h_5 => exact atomic_throw _ doc
  all_goals exact Accepted.atomic ⟨(), _, rfl⟩

theorem setContent_atomic (text : String) : (setContent node text).Atomic doc := by
  refine atomic_require fun n _ => ?_
  split
  · exact atomic_require fun _ _ => Accepted.atomic ⟨(), _, rfl⟩
  · split
    · exact Accepted.atomic ⟨(), _, rfl⟩
    · exact atomic_throw _ doc

theorem setAttribute_atomic (key value : String) : (setAttribute node key value).Atomic doc := by
  refine atomic_require fun n _ => ?_
  split
  · split
    · exact Accepted.atomic ⟨value, _, rfl⟩
    · exact Accepted.atomic ⟨value, _, rfl⟩
  · exact Accepted.atomic ⟨value, _, rfl⟩

theorem removeAttribute_atomic (key : String) : (removeAttribute node key).Atomic doc := by
  refine atomic_require fun n _ => ?_
  split
  · split
    · exact Accepted.atomic ⟨(), _, rfl⟩
    · exact Accepted.atomic ⟨(), _, rfl⟩
  · exact Accepted.atomic ⟨(), _, rfl⟩

theorem setParent_atomic (parent : NodeRef) : (setParent node parent).Atomic doc := by
  refine atomic_require fun n _ => atomic_require fun _ _ => ?_
  split
  · exact atomic_throw _ doc
  · exact attachUnder_atomic node.id parent.id

/-- Taking the node out does not change the answer to the question that is asked twice, so the
second time it is not refused. -/
theorem Linked.reparent_atomic (hw : doc.Linked) (node parent : NodeRef) :
    (reparent node parent).Atomic doc := by
  refine atomic_require fun n _ => atomic_require fun _ _ => atomic_require fun _ hc => ?_
  have hagain := hw.checkPlacement_detach hc
  refine Accepted.atomic ⟨(), placeUnder node.id parent.id (doc.detach node.id), ?_⟩
  simp only [attachUnder, change, require, bind, EStateM.bind, hagain]

theorem replace_atomic (other : NodeRef) : (replace node other).Atomic doc := by
  refine atomic_require fun n _ => atomic_require fun _ _ => ?_
  split
  · exact Accepted.atomic ⟨(), _, rfl⟩
  · refine atomic_require fun p _ => atomic_require fun _ _ => ?_
    refine atomic_require fun _ _ => atomic_require fun _ _ => ?_
    exact Accepted.atomic ⟨(), _, rfl⟩

theorem unlink_atomic : (unlink node).Atomic doc :=
  atomic_require fun _ _ => atomic_require fun _ _ => Accepted.atomic ⟨(), _, rfl⟩

theorem addSibling_atomic (side : Side) (node other : NodeRef) :
    (addSibling side node other).Atomic doc := by
  refine atomic_require fun n _ => atomic_require fun _ _ => ?_
  refine atomic_require fun p _ => atomic_require fun _ _ => ?_
  refine atomic_require fun _ _ => atomic_require fun _ _ => ?_
  exact Accepted.atomic ⟨(), _, rfl⟩

theorem duplicate_atomic : (duplicate node).Atomic doc := by
  refine atomic_require fun n _ => ?_
  split
  · exact atomic_throw _ doc
  · exact atomic_require fun _ _ => Accepted.atomic ⟨_, _, rfl⟩

/-! ## Operations along a run -/

namespace Operation

/-- Why an operation is refused, if it is. -/
def refusal? : Operation → Document → Option EditError
  | .createElement name => (Document.createElement name).refusal?
  | .createText text => (Document.createText text).refusal?
  | .createCData text => (Document.createCData text).refusal?
  | .createComment text => (Document.createComment text).refusal?
  | .setRoot node => (Document.setRoot node).refusal?
  | .setName node name => (Document.setName node name).refusal?
  | .setContent node text => (Document.setContent node text).refusal?
  | .setAttribute node key value => (Document.setAttribute node key value).refusal?
  | .removeAttribute node key => (Document.removeAttribute node key).refusal?
  | .setParent node parent => (Document.setParent node parent).refusal?
  | .reparent node parent => (Document.reparent node parent).refusal?
  | .replace node other => (Document.replace node other).refusal?
  | .unlink node => (Document.unlink node).refusal?
  | .addSibling side node other => (Document.addSibling side node other).refusal?
  | .duplicate node => (Document.duplicate node).refusal?
  | .unlinkAll nodes => nodes.unlinkAll.refusal?

def nodes : Operation → List NodeRef
  | .createElement _ | .createText _ | .createCData _ | .createComment _ => []
  | .setRoot node | .setName node _ | .setContent node _ | .setAttribute node _ _
  | .removeAttribute node _ | .unlink node | .duplicate node => [node]
  | .setParent node other | .reparent node other | .replace node other
  | .addSibling _ node other => [node, other]
  | .unlinkAll s => s.nodes

theorem apply_eq_of_refused (hw : doc.Linked) (op : Operation) (hop : ∀ s, op ≠ .unlinkAll s)
    (h : op.refusal? doc = some err) : op.apply doc = doc := by
  cases op with
  | createElement name => cases h
  | createText text => cases h
  | createCData text => cases h
  | createComment text => exact createComment_atomic text err h
  | setRoot node => exact setRoot_atomic node err h
  | setName node name => exact setName_atomic node name err h
  | setContent node text => exact setContent_atomic node text err h
  | setAttribute node key value => exact setAttribute_atomic node key value err h
  | removeAttribute node key => exact removeAttribute_atomic node key err h
  | setParent node parent => exact setParent_atomic node parent err h
  | reparent node parent => exact hw.reparent_atomic node parent err h
  | replace node other => exact replace_atomic node other err h
  | unlink node => exact unlink_atomic node err h
  | addSibling side node other => exact addSibling_atomic side node other err h
  | duplicate node => exact duplicate_atomic node err h
  | unlinkAll s => exact absurd rfl (hop s)

theorem refusal?_of_foreign (op : Operation) (hop : ∀ s, op ≠ .unlinkAll s) {node : NodeRef}
    (hmem : node ∈ op.nodes) (h : node.doc ≠ doc.id) : op.refusal? doc = some .foreignNode := by
  have one {α : Type} {first : NodeRef} (hmem : node ∈ [first]) (k : Node → Edit α) :
      (require (owned first) >>= k).refusal? doc = some .foreignNode := by
    obtain rfl := List.mem_singleton.mp hmem
    exact refusal?_foreign_first h k
  have both {first second : NodeRef} (hmem : node ∈ [first, second])
      (k : Node → Node → Edit Unit) :
      (require (owned first) >>= fun n => require (owned second) >>= k n).refusal? doc =
        some .foreignNode := by
    rcases List.mem_pair.mp hmem with rfl | rfl
    · exact refusal?_foreign_first h _
    · exact refusal?_foreign_second h first k
  cases op with
  | createElement name => cases hmem
  | createText text => cases hmem
  | createCData text => cases hmem
  | createComment text => cases hmem
  | setRoot first =>
    obtain rfl := List.mem_singleton.mp hmem
    exact refusal?_require_of_error (if_neg (by simpa using h)) _
  | setName first name => exact one hmem _
  | setContent first text => exact one hmem _
  | setAttribute first key value => exact one hmem _
  | removeAttribute first key => exact one hmem _
  | setParent first second => exact both hmem _
  | reparent first second => exact both hmem _
  | replace first second => exact both hmem _
  | unlink first => exact one hmem _
  | addSibling side first second => exact both hmem _
  | duplicate first => exact one hmem _
  | unlinkAll s => exact absurd rfl (hop s)

end Operation

/-- **A refused operation changes nothing, and nodes of other documents are refused.** After any run
an operation that is refused leaves the whole document as it was. One that is given a node of another
document is refused, with an error of type, whatever else is wrong. -/
theorem refused_operation_changes_nothing (start : Document) (h : Initial start)
    (ops : List Operation) (op : Operation) (hop : ∀ s, op ≠ .unlinkAll s) :
    (∀ err, op.refusal? (run ops start) = some err → op.apply (run ops start) = run ops start) ∧
      ∀ node ∈ op.nodes, node.doc ≠ (run ops start).id →
        ∃ err, op.refusal? (run ops start) = some err ∧ err.errorClass = .type := by
  obtain ⟨hw, -⟩ := h.run_linked ops
  refine ⟨fun err herr => op.apply_eq_of_refused hw hop herr, fun node hmem hforeign => ?_⟩
  exact ⟨.foreignNode, op.refusal?_of_foreign hop hmem hforeign, rfl⟩

/-- Two elements are made, and the second is put under the first. -/
def nestElements : List Operation :=
  [.createElement "e", .createElement "c", .setParent ⟨0, 2, .element⟩ ⟨0, 1, .element⟩]

/-- An element is not moved under its own child, nor under a node of another document. -/
theorem move_under_child_changes_nothing :
    Initial (empty 0) ∧
      (Operation.reparent ⟨0, 1, .element⟩ ⟨0, 2, .element⟩).refusal? (run nestElements (empty 0)) =
        some .insideItself ∧
      (Operation.reparent ⟨0, 1, .element⟩ ⟨0, 2, .element⟩).apply (run nestElements (empty 0)) =
        run nestElements (empty 0) ∧
      ∃ err, (Operation.reparent ⟨0, 1, .element⟩ ⟨7, 2, .element⟩).refusal?
        (run nestElements (empty 0)) = some err ∧ err.errorClass = .type := by
  have hrefused : (Operation.reparent ⟨0, 1, .element⟩ ⟨0, 2, .element⟩).refusal?
      (run nestElements (empty 0)) = some .insideItself := by decide
  have hall := refused_operation_changes_nothing (empty 0) (.new 0) nestElements
  refine ⟨.new 0, hrefused, (hall _ (by simp)).1 _ hrefused, ?_⟩
  exact (hall _ (by simp)).2 ⟨7, 2, .element⟩ (by simp [Operation.nodes]) (by decide)

end Xml.Document
