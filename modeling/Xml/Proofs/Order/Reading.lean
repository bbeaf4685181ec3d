import Xml.Proofs.Order.Sorting
import Xml.Proofs.Trees.Edge

/-!
# Numbers in document order

Nodes are numbered as their events come, and a new node always stands behind all others in document
order: so in a document that was read the two orders are one (`numbered_builtFrom`). It stays like
that as long as nodes are only added and relabelled (`Additions.order_eq`), since each new node is a
tree of its own with the greatest number.
-/

namespace Xml.Document

open List

variable {doc d e : Document} {id x : NodeId} {i : Nat}

/-- All nodes stand below the document node, and their numbers are in document order. -/
def Numbered (doc : Document) : Prop :=
  doc.subtreeOrder root = List.range doc.size

theorem range_append_range' {n m : Nat} (h : n ≤ m) :
    List.range n ++ List.range' n (m - n) = List.range m := by
  have hsplit : List.range' 0 n ++ List.range' (0 + n) (m - n) = List.range' 0 (n + (m - n)) :=
    range'_append_1
  rwa [Nat.zero_add, Nat.add_sub_cancel' h, ← range_eq_range',
    ← range_eq_range'] at hsplit

theorem subtreeOrder_congr (hw : doc.Linked) (ha : doc.Acyclic) (hw' : d.Linked) (ha' : d.Acyclic)
    (hsize : doc.size ≤ d.size)
    (hattributes : ∀ x, x < doc.size → d.attributesOf x = doc.attributesOf x)
    (hchildren : ∀ x, x < doc.size → d.children x = doc.children x) (hid : id < doc.size) :
    d.subtreeOrder id = doc.subtreeOrder id := by
  rw [subtreeOrder_eq_walk hw ha hid, subtreeOrder_eq_walk hw' ha' (Nat.lt_of_lt_of_le hid hsize)]
  refine walk_congr hw ha hw' ha' (S := fun x => x < doc.size)
    (fun x hx => ⟨hx, Nat.lt_of_lt_of_le hx hsize⟩) hchildren
    (fun x _ c hc => hw.lt_size_of_mem hc) (fun x hx => ⟨?_, rfl⟩) id hid
  rw [entry, entry, hattributes x hx]

theorem SameLinks.numbered (h : SameLinks doc d) (hw : doc.Linked) (ha : doc.Acyclic)
    (hroot : root < doc.size) (hnumbered : doc.Numbered) : d.Numbered := by
  have ha' : d.Acyclic := ha.mono fun x p hx => (h.shows.parent x).symm.trans hx
  rw [Numbered, h.size, ← hnumbered]
  exact subtreeOrder_congr hw ha (h.linked hw) ha' (Nat.le_of_eq h.size.symm)
    (fun x _ => h.shows.attributes x) (fun x _ => h.children hw x) hroot

/-! ## Reading -/

namespace Builder

variable {b b' : Builder}

/-- **Events keep the numbers in document order.** -/
theorem Grown.numbered_growth (h : Grown i b) (h' : Grown i b') (hspine : b.doc.Spine b.edge)
    (hnumbered : b.doc.Numbered) (hg : Growth b b') : b'.doc.Numbered := by
  have hroot : root < b.doc.size := lt_size_of_kindOf h.kindOf_root
  have added {node : Node} {as : List Attribute} (hchild : NewChild b b' node as) :
      b'.doc.Numbered := by
    have hle := hchild.added.grows.size_le
    obtain ⟨told, hold, hnew⟩ := h.walk_edge h' hspine hchild b.doc.entry (fun _ => [])
      b'.doc.entry (fun _ => []) fun x hx =>
        ⟨by rw [entry, entry, hchild.added.grows.attributes x hx], rfl⟩
    have hnone : b.edge.flatMap (fun _ => ([] : List NodeId)) = [] := by simp
    rw [hnone, append_nil, ← subtreeOrder_eq_walk h.linked h.acyclic hroot, hnumbered] at hold
    rw [Numbered, subtreeOrder_eq_walk h'.linked h'.acyclic (Nat.lt_of_lt_of_le hroot hle), hnew,
      ← hold, hnone, entry, hchild.numbers, append_nil, append_nil,
      range_append_range' hle]
  cases hg with
  | same hs ho => exact hs.numbered h.linked h.acyclic hroot hnumbered
  | close hd ho => rwa [hd]
  | leaf hchild ho => exact added hchild
  | element hchild ho => exact added hchild

/-- **In a document that is built from events numbers are in document order.** -/
theorem numbered_builtFrom (i : Nat) (events : List Event) :
    (builtFrom i events).doc.Numbered := by
  induction events using List.reverseRecOn with
  | nil =>
    have hinitial := grown_initial i
    have hsize : (initial i).doc.size = 1 := congrArg Array.size (nodes_initial i)
    have hattributes : (initial i).doc.attributesOf root = [] := by
      rw [attributesOf, get?, nodes_initial]
      rfl
    have hroot : root < (initial i).doc.size := hsize ▸ Nat.one_pos
    show (initial i).doc.Numbered
    rw [Numbered, subtreeOrder_eq hinitial.linked hinitial.acyclic, hattributes, hsize,
      children_initial]
    rfl
  | append_singleton events e ih =>
    have hgrown := grown_builtFrom i events
    rw [builtFrom_append]
    exact hgrown.numbered_growth (hgrown.add e) (spine_builtFrom i events) ih (hgrown.growth_add e)

end Builder

/-! ## New nodes -/

/-- Entries without links were added, and those that were there have the links they had. -/
structure Additions (doc d : Document) : Prop where
  size_le : doc.size ≤ d.size
  frame : ∀ x, x < doc.size → (d.get? x).map Node.frame = (doc.get? x).map Node.frame
  fresh : ∀ x n, doc.size ≤ x → d.get? x = some n → n.Unlinked

namespace Additions

theorem of_sameLinks (h : SameLinks doc d) : Additions doc d where
  size_le := Nat.le_of_eq h.size.symm
  frame x _ := h x
  fresh x n hx hn := by
    have hlt := lt_size_of_get? hn
    rw [h.size] at hlt
    exact absurd hlt (Nat.not_lt.mpr hx)

theorem alloc (doc : Document) {node : Node} (h : node.Unlinked) :
    Additions doc (doc.alloc node).2 where
  size_le := by
    rw [size_alloc]
    exact Nat.le_succ _
  frame x hx := by rw [get?_alloc_of_lt hx]
  fresh x n hx hn := by
    rw [get?_alloc] at hn
    split at hn
    · exact Option.some.inj hn ▸ h
    · exact absurd (lt_size_of_get? hn) (Nat.not_lt.mpr hx)

theorem trans (h : Additions doc d) (h' : Additions d e) : Additions doc e where
  size_le := Nat.le_trans h.size_le h'.size_le
  frame x hx := (h'.frame x (Nat.lt_of_lt_of_le hx h.size_le)).trans (h.frame x hx)
  fresh x n hx hn := by
    rcases Nat.lt_or_ge x d.size with hlt | hge
    · obtain ⟨m, hm⟩ := exists_get? hlt
      have hframe := h'.frame x hlt
      rw [hm, hn] at hframe
      have hm := h.fresh x m hx hm
      rwa [← Node.unlinked_frame, Option.some.inj hframe, Node.unlinked_frame]
    · exact h'.fresh x n hge hn

/-- Links are what they were, and new entries have none. -/
theorem bind_eq (h : Additions doc d) (π : Node → Option NodeId) (hπ : ∀ n, π n.frame = π n)
    (hnone : ∀ n : Node, π n.unlink = none) (x : NodeId) :
    (d.get? x).bind π = (doc.get? x).bind π := by
  rcases Nat.lt_or_ge x doc.size with hlt | hge
  · obtain ⟨m, hm⟩ := exists_get? hlt
    obtain ⟨n, hn⟩ := exists_get? (Nat.lt_of_lt_of_le hlt h.size_le)
    have hframe := h.frame x hlt
    rw [hm, hn] at hframe
    rw [hm, hn, Option.bind_some, Option.bind_some, ← hπ n, Option.some.inj hframe, hπ]
  · rw [get?_eq_none hge, Option.bind_none]
    cases hn : d.get? x with
    | none => rfl
    | some n =>
      have hfresh : n.unlink = n := h.fresh x n hge hn
      rw [Option.bind_some, ← hfresh]
      exact hnone n

theorem parentOf (h : Additions doc d) (x : NodeId) : d.parentOf x = doc.parentOf x :=
  h.bind_eq (·.parent) (fun _ => rfl) (fun _ => rfl) x

theorem children (h : Additions doc d) (hw : doc.Linked) (x : NodeId) :
    d.children x = doc.children x :=
  children_congr hw h.size_le (h.bind_eq (·.firstChild) (fun _ => rfl) fun _ => rfl)
    (h.bind_eq (·.lastChild) (fun _ => rfl) fun _ => rfl)
    (h.bind_eq (·.nextSibling) (fun _ => rfl) fun _ => rfl)
    (h.bind_eq (·.prevSibling) (fun _ => rfl) fun _ => rfl) x

theorem attributesOf (h : Additions doc d) (hx : x < doc.size) :
    d.attributesOf x = doc.attributesOf x := by
  obtain ⟨m, hm⟩ := exists_get? hx
  obtain ⟨n, hn⟩ := exists_get? (Nat.lt_of_lt_of_le hx h.size_le)
  have hframe := h.frame x hx
  rw [hm, hn] at hframe
  have hattributes : n.frame.attributes = m.frame.attributes :=
    congrArg Node.attributes (Option.some.inj hframe)
  rw [Document.attributesOf, Document.attributesOf, hm, hn]
  exact hattributes

theorem subtreeOrder_fresh (h : Additions doc d) (hw : doc.Linked) (hw' : d.Linked)
    (ha' : d.Acyclic) (hx : doc.size ≤ x) (hlt : x < d.size) : d.subtreeOrder x = [x] := by
  obtain ⟨n, hn⟩ := exists_get? hlt
  have hattributes : d.attributesOf x = [] := by
    rw [Document.attributesOf, hn]
    exact (congrArg Node.attributes (h.fresh x n hx hn)).symm
  rw [subtreeOrder_eq hw' ha', hattributes, h.children hw, children_of_size_le hw hx]
  rfl

theorem detachedRoots_eq (h : Additions doc d) (hw : doc.Linked) (hroot : root < doc.size)
    (hnumbered : doc.Numbered) :
    d.detachedRoots = List.range' doc.size (d.size - doc.size) := by
  have hsplit : List.range d.size =
      List.range doc.size ++ List.range' doc.size (d.size - doc.size) :=
    (range_append_range' h.size_le).symm
  rw [detachedRoots, hsplit, filter_append]
  have hold : (List.range doc.size).filter
      (fun id => id != root && (d.parentOf id).isNone) = [] := by
    refine filter_eq_nil_iff.mpr fun x hx => ?_
    rw [← hnumbered] at hx
    rcases hw.mem_subtreeOrder.mp hx with rfl | hup
    · simp
    · obtain ⟨p, hp⟩ := hup.exists_parent
      simp [h.parentOf, hp]
  have hnew : (List.range' doc.size (d.size - doc.size)).filter
      (fun id => id != root && (d.parentOf id).isNone) =
        List.range' doc.size (d.size - doc.size) := by
    refine filter_eq_self.mpr fun x hx => ?_
    have hge : doc.size ≤ x := (mem_range'_1.mp hx).1
    have hne : x ≠ root := Nat.ne_of_gt (Nat.lt_of_lt_of_le hroot hge)
    have hnone : doc.parentOf x = none := by
      rw [Document.parentOf, get?_eq_none hge]
      rfl
    simp [h.parentOf, hne, hnone]
  rw [hold, hnew, nil_append]

/-- **Numbers stay in document order as long as nodes are only added.** -/
theorem order_eq (h : Additions doc d) (hw : doc.Linked) (ha : doc.Acyclic) (hw' : d.Linked)
    (hroot : root < doc.size) (hnumbered : doc.Numbered) : d.order = List.range d.size := by
  have ha' : d.Acyclic := ha.mono fun x p hx => (h.parentOf x).symm.trans hx
  have hfirst : d.subtreeOrder root = List.range doc.size := by
    rw [← hnumbered]
    exact subtreeOrder_congr hw ha hw' ha' h.size_le (fun x hx => h.attributesOf hx)
      (fun x _ => h.children hw x) hroot
  have hrest : (List.range' doc.size (d.size - doc.size)).flatMap d.subtreeOrder =
      List.range' doc.size (d.size - doc.size) := by
    have hsingle : (List.range' doc.size (d.size - doc.size)).flatMap d.subtreeOrder =
        (List.range' doc.size (d.size - doc.size)).flatMap fun x => [x] := by
      refine flatMap_congr fun x hx => ?_
      obtain ⟨hge, hlt⟩ := mem_range'_1.mp hx
      rw [Nat.add_sub_cancel' h.size_le] at hlt
      exact h.subtreeOrder_fresh hw hw' ha' hge hlt
    rw [hsingle, flatMap_singleton']
  rw [order, flatMap_cons, hfirst, h.detachedRoots_eq hw hroot hnumbered, hrest,
    range_append_range' h.size_le]

end Additions

end Xml.Document
