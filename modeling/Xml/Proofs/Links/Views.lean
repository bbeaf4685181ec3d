import Xml.Proofs.Links.Copy

/-!
# Views of the nodes

Two documents are `Alike` through a view of their nodes if every number shows the same in both. A
change that does not show in a view keeps whatever is told by that view. The changes of the links
show in nothing but the links: without them, every node is what it was, and the document type is
what it was too.
-/

namespace Xml.Document

variable {doc d e : Document}

/-- Two documents look alike through a view of their nodes. -/
def Alike {β : Type} (f : Node → β) (doc d : Document) : Prop :=
  ∀ x, (d.get? x).map f = (doc.get? x).map f

namespace Alike

variable {β γ : Type} {f : Node → β}

theorem refl (doc : Document) : Alike f doc doc := fun _ => rfl

theorem trans (h : Alike f doc d) (h' : Alike f d e) : Alike f doc e :=
  fun x => (h' x).trans (h x)

theorem symm (h : Alike f doc d) : Alike f d doc := fun x => (h x).symm

theorem update (doc : Document) (id : NodeId) (g : Node → Node) (h : ∀ n, f (g n) = f n) :
    Alike f doc (doc.update id g) :=
  map_get?_update_keep f g h id

theorem of_nodes_eq (h : d.nodes = doc.nodes) : Alike f doc d := fun x => by
  rw [get?, get?, h]

/-- What can be told from a view is the same too. -/
theorem comp (h : Alike f doc d) (g : β → γ) : Alike (fun n => g (f n)) doc d := fun x => by
  have hx := congrArg (Option.map g) (h x)
  rwa [Option.map_map, Option.map_map] at hx

end Alike

theorem get?_touch (doc : Document) (x : NodeId) : doc.touch.get? x = doc.get? x := rfl

/-! ## Changes of the links -/

theorem unlink_update (f : Node → Node) (hf : ∀ n, (f n).unlink = n.unlink) (doc : Document)
    (id x : NodeId) :
    ((doc.update id f).get? x).map Node.unlink = (doc.get? x).map Node.unlink :=
  map_get?_update_keep Node.unlink f hf id x

theorem closeGap_alike (doc : Document) (parent : NodeId) (prev next : Option NodeId) :
    Alike Node.unlink doc (doc.closeGap parent prev next) := by
  intro x
  unfold closeGap
  cases prev <;> cases next <;> rw [unlink_update, unlink_update] <;> exact fun _ => rfl

theorem detach_alike (doc : Document) (id : NodeId) :
    Alike Node.unlink doc (doc.detach id) := by
  intro x
  rw [detach]
  split
  · rfl
  · split
    · rfl
    · rw [get?_touch, unlink_update]
      · split
        · rw [unlink_update]
          exact fun _ => rfl
        · exact closeGap_alike doc _ _ _ x
      · exact fun _ => rfl

theorem appendChild_alike (doc : Document) (p id : NodeId) :
    Alike Node.unlink doc (doc.appendChild p id) := by
  intro x
  rw [appendChild, get?_touch, unlink_update]
  · split <;> rw [unlink_update, unlink_update] <;> exact fun _ => rfl
  · exact fun _ => rfl

theorem insertBefore_alike (doc : Document) (ref id : NodeId) :
    Alike Node.unlink doc (doc.insertBefore ref id) := by
  intro x
  rw [insertBefore]
  split
  · rfl
  · rw [get?_touch]
    split <;> rw [unlink_update, unlink_update, unlink_update] <;> exact fun _ => rfl

theorem insertAfter_alike (doc : Document) (ref id : NodeId) :
    Alike Node.unlink doc (doc.insertAfter ref id) := by
  intro x
  rw [insertAfter]
  split
  · rfl
  · rw [get?_touch]
    split <;> rw [unlink_update, unlink_update, unlink_update] <;> exact fun _ => rfl

theorem insertAttribute_alike (doc : Document) (p : NodeId) (index : Nat) (id : NodeId) :
    Alike Node.unlink doc (doc.insertAttribute p index id) := by
  intro x
  rw [insertAttribute, get?_touch, unlink_update, unlink_update] <;> exact fun _ => rfl

/-! ## The document type -/

theorem doctype_alloc (doc : Document) (node : Node) :
    (doc.alloc node).2.doctype = doc.doctype := by
  obtain ⟨_, h⟩ := exists_alloc_eq doc node
  rw [h]

theorem doctype_appendAttribute (doc : Document) (p id : NodeId) :
    (doc.appendAttribute p id).doctype = doc.doctype := rfl

theorem doctype_appendChild (doc : Document) (p id : NodeId) :
    (doc.appendChild p id).doctype = doc.doctype := by
  simp only [appendChild]
  split <;> rfl

end Xml.Document
