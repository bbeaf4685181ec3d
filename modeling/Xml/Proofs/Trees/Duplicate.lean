import Xml.Proofs.Trees.Copying
import Xml.Proofs.Trees.Stack

/-!
# What a copy is

What duplicating a node gives is a copy (`IsCopy`): it is new and stands nowhere, the nodes that
were there are untouched, and the tree of the copy is that of the node (`SameTree`). Both then have
the same markup (`SameTree.nodeMarkup_eq`).

A node has a copy exactly if what is below it is a tree. Where the parent links turn back, the copy
of a node on the cycle would be a tree without an end, and the work on it does not come to one.
-/

namespace Xml

open List

theorem Node.eq_of_unlink {m n : Node} (h : m.unlink = n.unlink) :
    m.kind = n.kind ∧ m.name = n.name ∧ m.declarations = n.declarations := by
  have hkind := congrArg Node.kind h
  have hname := congrArg Node.name h
  have hdeclarations := congrArg Node.declarations h
  exact ⟨hkind, hname, hdeclarations⟩

namespace Document

variable {doc d e : Document} {origin : NodeId → NodeId} {as cs : NodeId → List NodeId}
  {id n x y : NodeId} {node : Node}

/-! ## The same tree -/

/-- Below `x` in one document and `y` in another stand the same trees: the two nodes differ in links
only, they have the same attributes in the same order, and below their children, in order, stand the
same trees again. -/
inductive SameTree (doc d : Document) : NodeId → NodeId → Prop where
  | mk {x y : NodeId} (bare : d.bare y = doc.bare x)
      (attributes : (d.attributesOf y).map d.bare = (doc.attributesOf x).map doc.bare)
      (length : (doc.children x).length = (d.children y).length)
      (children : ∀ c ∈ (doc.children x).zip (d.children y), SameTree doc d c.1 c.2) :
      SameTree doc d x y

/-- A new node with nothing on account has the tree of its origin. -/
theorem Mirrors.sameTree (h : Mirrors doc d origin (fun _ => []) (fun _ => [])) (hw : doc.Linked)
    {depth : Nat} (hdepth : doc.WithinDepth depth (origin y)) (hy : doc.size ≤ y)
    (hlt : y < d.size) : SameTree doc d (origin y) y := by
  induction depth generalizing y with
  | zero => exact hdepth.elim
  | succ depth ih =>
    have hattributes := h.attributes y hy hlt
    have hchildren := h.children y hy hlt
    rw [append_nil] at hattributes hchildren
    refine .mk (h.bare y hy hlt) ?_ ?_ fun c hc => ?_
    · rw [← hattributes, map_map]
      refine map_congr_left fun a ha => ?_
      obtain ⟨hnew, hlt⟩ := h.new_of_parentOf hw hy ((h.linked.mem_attributes y a).mp ha).1
      exact h.bare a hnew hlt
    · rw [← hchildren, length_map]
    · rw [← hchildren, ← map_prod_right_eq_zip] at hc
      obtain ⟨b, hb, rfl⟩ := mem_map.mp hc
      obtain ⟨hnew, hlt⟩ := h.new_of_parentOf hw hy (h.linked.mem_children.mp hb).1
      refine ih (hdepth _ ?_) hnew hlt
      rw [← hchildren]
      exact mem_map_of_mem hb

theorem Mirrors.sameTree_kept (h : Mirrors doc d origin as cs) (hw : doc.Linked) {depth : Nat}
    (hdepth : doc.WithinDepth depth x) (hx : x < doc.size) : SameTree doc d x x := by
  induction depth generalizing x with
  | zero => exact hdepth.elim
  | succ depth ih =>
    have hbare : ∀ z, z < doc.size → d.bare z = doc.bare z := fun z hz => by
      rw [Document.bare, h.kept z hz, Document.bare]
    have hattributes : d.attributesOf x = doc.attributesOf x := by
      rw [attributesOf, h.kept x hx, attributesOf]
    have hchildren := h.children_kept hw hx
    refine .mk (hbare x hx) ?_ (by rw [hchildren]) fun c hc => ?_
    · rw [hattributes]
      refine map_congr_left fun a ha => hbare a ?_
      exact lt_size_of_parentOf ((hw.mem_attributes x a).mp ha).1
    · have hself : (doc.children x).zip (doc.children x) =
          (doc.children x).map fun b => (b, b) := by
        rw [map_prod_right_eq_zip, map_id']
      rw [hchildren, hself] at hc
      obtain ⟨b, hb, rfl⟩ := mem_map.mp hc
      exact ih (hdepth b hb) (hw.lt_size_of_mem hb)

/-! ## Writing the same tree -/

theorem attributeMarkup_congr (h : d.bare y = doc.bare x) :
    d.attributeMarkup y = doc.attributeMarkup x := by
  have hview (e : Document) (z : NodeId) : e.attributeMarkup z = ((e.bare z).map fun n =>
      n.name ++ "=\"" ++ Text.escapeAttribute n.content ++ "\"").getD "" := by
    rw [attributeMarkup, bare, Option.map_map]
    cases e.get? z <;> rfl
  rw [hview, hview, h]

theorem leafMarkup_congr {m : Node} (hd : d.doctype = doc.doctype) (h : d.bare y = doc.bare x)
    (hm : m.unlink = node.unlink) : d.leafMarkup y m = doc.leafMarkup x node := by
  have hview (e : Document) (z : NodeId) (n : Node) : e.leafMarkup z n = e.leafMarkup z n.unlink :=
    rfl
  rw [hview d, hview doc, hm, leafMarkup, leafMarkup, attributeMarkup_congr h, hd]

theorem openTag_congr {m : Node} (hm : m.unlink = node.unlink)
    (h : m.attributes.map d.bare = node.attributes.map doc.bare) :
    d.openTag m = doc.openTag node := by
  obtain ⟨-, hname, hdeclarations⟩ := Node.eq_of_unlink hm
  have hattributes : (m.attributes.map fun a => " " ++ d.attributeMarkup a) =
      node.attributes.map fun a => " " ++ doc.attributeMarkup a := by
    rw [← forall₂_eq_eq_eq, forall₂_map_left_iff, forall₂_map_right_iff] at h ⊢
    exact h.imp fun a b hab => by rw [attributeMarkup_congr hab]
  rw [openTag, openTag, hname, hdeclarations, hattributes]

theorem SameTree.treeBelow (h : SameTree doc d x y) (hw : d.Linked) : d.TreeBelow y := by
  induction h with
  | @mk x y _ _ hlength _ ih =>
    refine .of_children hw fun b hb => ?_
    obtain ⟨i, hi, rfl⟩ := getElem_of_mem hb
    have hi' : i < ((doc.children x).zip (d.children y)).length := by simp [hlength, hi]
    simpa using ih _ (getElem_mem hi')

theorem markupAround_congr {m : Node} (hd : d.doctype = doc.doctype) (hbare : d.bare y = doc.bare x)
    (hattributes : (d.attributesOf y).map d.bare = (doc.attributesOf x).map doc.bare)
    (hlength : (doc.children x).length = (d.children y).length)
    (hx : doc.get? x = some node) (hy : d.get? y = some m) (below : String) :
    d.markupAround y m below = doc.markupAround x node below := by
  have hunlink : m.unlink = node.unlink := by simpa [bare, hx, hy] using hbare
  obtain ⟨hkind, hname, -⟩ := Node.eq_of_unlink hunlink
  have hempty : (d.children y).isEmpty = (doc.children x).isEmpty := by
    rw [Bool.eq_iff_iff, isEmpty_iff_length_eq_zero, isEmpty_iff_length_eq_zero, hlength]
  have htag : d.openTag m = doc.openTag node := by
    refine openTag_congr hunlink ?_
    rw [attributesOf, attributesOf, hx, hy] at hattributes
    exact hattributes
  rw [markupAround, markupAround, hkind, hname, hempty, htag, leafMarkup_congr hd hbare hunlink]

/-- **The same trees have the same markup.** -/
theorem SameTree.nodeMarkup_eq (h : SameTree doc d x y) (hw : doc.Linked) (hw' : d.Linked)
    (hd : d.doctype = doc.doctype) (htree : doc.TreeBelow x) (hx : x < doc.size) :
    d.nodeMarkup y = doc.nodeMarkup x := by
  have htree' := h.treeBelow hw'
  induction h with
  | @mk x y hbare hattributes hlength _ ih =>
    obtain ⟨node, hn⟩ := exists_get? hx
    obtain ⟨m, hm, -⟩ : ∃ m, d.get? y = some m ∧ m.unlink = node.unlink := by
      simpa [bare, hn] using hbare
    have hbelow : (doc.children x).map doc.nodeMarkup = (d.children y).map d.nodeMarkup := by
      rw [← forall₂_eq_eq_eq, forall₂_map_left_iff, forall₂_map_right_iff, forall₂_iff_zip]
      refine ⟨hlength, fun {a b} hab => (ih _ hab ?_ ?_ ?_).symm⟩
      · exact htree.child (hw.mem_children.mp (of_mem_zip hab).1).1
      · exact hw.lt_size_of_mem (of_mem_zip hab).1
      · exact htree'.child (hw'.mem_children.mp (of_mem_zip hab).2).1
    rw [htree'.nodeMarkup_eq hw' hm, htree.nodeMarkup_eq hw hn, hbelow]
    exact markupAround_congr hd hbare hattributes hlength hn hm _

/-! ## Duplicates -/

/-- What was at `n` in one document has a copy in another that came of it. -/
structure IsCopy (doc : Document) (n : NodeId) (d : Document) (copy : NodeId) : Prop where
  lt_size : copy < d.size
  loose : d.parentOf copy = none
  /-- The copy and all that is below it, attributes too, is new. -/
  new : ∀ x, x = copy ∨ d.Ancestor copy x → doc.size ≤ x
  /-- No field of a node that was there is changed. -/
  kept : ∀ x, x < doc.size → d.get? x = doc.get? x
  same : SameTree doc d n copy
  markup : d.markupOf copy = doc.markupOf n
  markup_kept : d.markupOf n = doc.markupOf n

/-- **A copy that came to an end is a copy.** -/
theorem Linked.isCopy (hw : doc.Linked) (hn : n < doc.size) (hroot : n ≠ root) {copy : NodeId}
    (h : doc.deepCopy n = some (copy, d)) : IsCopy doc n d copy := by
  have htree : doc.TreeBelow n := (deepCopy_isSome_iff hw hn).mp (by rw [h]; rfl)
  have hdepth := htree.withinDepth hw hn
  obtain ⟨hcopy, hrest⟩ := deepCopy_eq_some h
  obtain ⟨kind, hk⟩ := Option.ne_none_iff_exists'.mp (kindOf_ne_none hn)
  obtain rfl : doc.size = copy := (copyWithAttributes_spec (G := Outside) hw hk).1.symm.trans hcopy
  rw [← hcopy] at hrest
  obtain ⟨_, hbegin⟩ := hw.working hn
  obtain ⟨origin, hend⟩ := hbegin.whole hw hrest
  have hmirrors := hend.mirrors
  have hgrows : Grows doc d :=
    ⟨hmirrors.size_le, fun x hx => by rw [parentOf, hmirrors.kept x hx, parentOf]⟩
  have hsame : SameTree doc d n doc.size := by
    have hsame := hmirrors.sameTree hw (hend.top.symm ▸ hdepth) (Nat.le_refl _) hend.top_lt
    rwa [hend.top] at hsame
  have hmarkup : ∀ {y}, SameTree doc d n y → d.nodeMarkup y = doc.nodeMarkup n := fun hy =>
    hy.nodeMarkup_eq hw hmirrors.linked hmirrors.doctype htree hn
  have hne : doc.size ≠ root := Nat.ne_of_gt (Nat.zero_lt_of_lt hn)
  refine ⟨hend.top_lt, hmirrors.loose, ?_, hmirrors.kept, hsame, ?_, ?_⟩
  · rintro x hx
    refine Nat.le_of_not_lt fun hlt => ?_
    exact hgrows.outside hw (Nat.le_refl _) hlt (hx.imp_left Eq.symm)
  · rw [markupOf, if_neg (by simpa using hne), markupOf, if_neg (by simpa using hroot)]
    exact hmarkup hsame
  · rw [markupOf, if_neg (by simpa using hroot), markupOf, if_neg (by simpa using hroot)]
    exact hmarkup (hmirrors.sameTree_kept hw hdepth hn)

theorem duplicate_eq_ok_iff {ref copy : NodeRef} (hn : owned ref doc = .ok node)
    (hne : ref.id ≠ root) :
    duplicate ref doc = .ok copy d ↔
      doc.deepCopy ref.id = some (copy.id, d) ∧ copy = ⟨d.id, copy.id, node.kind⟩ := by
  cases h : doc.deepCopy ref.id with
  | none => simp [duplicate, Edit.require, wholeCopy, bind, EStateM.bind, hn, hne, h]
  | some copied =>
    rw [duplicate_eq_ok hn hne h]
    constructor
    · intro heq
      cases heq
      exact ⟨rfl, rfl⟩
    · rintro ⟨heq, hcopy⟩
      cases heq
      rw [hcopy]

/-- **Duplicates along every run.** From a new document or one that was read, after any operations:
a node other than the document node can be duplicated exactly if nothing at or below it stands above
itself. Then the reference that is returned is that of a copy: a new node without a parent, with the
tree of the node below it and the same markup, and no node that was there is changed. -/
theorem duplicated_iff_treeBelow (start : Document) (h : Initial start) (ops : List Operation)
    (n : NodeId) (kind : NodeKind) (hn : n < (run ops start).size) (hroot : n ≠ root) :
    ((duplicate ⟨(run ops start).id, n, kind⟩).Accepted (run ops start) ↔
        (run ops start).TreeBelow n) ∧
      ∀ copy d, duplicate ⟨(run ops start).id, n, kind⟩ (run ops start) = .ok copy d →
        d.ref? copy.id = some copy ∧ IsCopy (run ops start) n d copy.id := by
  obtain ⟨hw, -⟩ := h.run_linked ops
  obtain ⟨node, hnode⟩ := exists_get? hn
  have howned : owned ⟨(run ops start).id, n, kind⟩ (run ops start) = .ok node :=
    owned_of_get? rfl hnode
  refine ⟨?_, fun copy d hcopy => ?_⟩
  · rw [← deepCopy_isSome_iff hw hn, Option.isSome_iff_exists]
    constructor
    · rintro ⟨copy, d, hcopy⟩
      exact ⟨_, ((duplicate_eq_ok_iff howned hroot).mp hcopy).1⟩
    · rintro ⟨copied, hcopied⟩
      exact ⟨_, _, duplicate_eq_ok howned hroot hcopied⟩
  · obtain ⟨hcopied, href⟩ := (duplicate_eq_ok_iff howned hroot).mp hcopy
    have hiscopy := hw.isCopy hn hroot hcopied
    refine ⟨?_, hiscopy⟩
    obtain ⟨hbare, -⟩ := hiscopy.same
    obtain ⟨m, hm, hunlink⟩ : ∃ m, d.get? copy.id = some m ∧ m.unlink = node.unlink := by
      simpa [bare, hnode] using hbare
    rw [ref?, hm, Option.map_some, (Node.eq_of_unlink hunlink).1, ← href]

/-- An element that has become the document element of its own descendant, the document node. -/
def turnAround : List Operation :=
  moveDocumentNode ++ [.setRoot ⟨0, 1, .element⟩]

/-- **A copy without an end.** The element stands above itself and cannot be duplicated; its child,
on no cycle, can. -/
theorem no_duplicate_on_cycle :
    Initial (empty 0) ∧ (run turnAround (empty 0)).size = 3 ∧
      (run turnAround (empty 0)).Ancestor 1 1 ∧
      ¬ (duplicate ⟨0, 1, .element⟩).Accepted (run turnAround (empty 0)) ∧
      (duplicate ⟨0, 2, .element⟩).Accepted (run turnAround (empty 0)) := by
  have hinit := Initial.new 0
  have hup : (run turnAround (empty 0)).parentOf 1 = some 0 := by decide
  have hdown : (run turnAround (empty 0)).parentOf 0 = some 1 := by decide
  have hcycle : (run turnAround (empty 0)).Ancestor 1 1 := .above hup (.parent hdown)
  have hsize : (run turnAround (empty 0)).size = 3 := by decide
  have hleaf : ∀ c < 3, (run turnAround (empty 0)).parentOf c ≠ some 2 := by decide
  have hbelow : ∀ x, ¬ (run turnAround (empty 0)).Ancestor 2 x := by
    intro x hx
    obtain ⟨c, hc, -⟩ := hx.exists_child
    exact hleaf c (hsize ▸ lt_size_of_parentOf hc) hc
  refine ⟨hinit, hsize, hcycle, fun hacc => ?_, ?_⟩
  · exact (duplicated_iff_treeBelow _ hinit turnAround 1 .element (by decide)
      (by decide)).1.mp hacc 1 (.inl rfl) hcycle
  · refine (duplicated_iff_treeBelow _ hinit turnAround 2 .element (by decide) (by decide)).1.mpr ?_
    rintro x (rfl | hx)
    · exact hbelow 2
    · exact absurd hx (hbelow x)

end Document

end Xml
