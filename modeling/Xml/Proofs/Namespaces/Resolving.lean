import Xml.Proofs.Namespaces.Scope
import Xml.Proofs.Trees.Preorder

/-!
# Resolving a subtree

After a change the program looks up the namespaces of a subtree again. It walks over the subtree and
writes one namespace after the other. What it looks up does not depend on what it has written, so
the order does not matter: in the end every element and every attribute of the subtree has the
namespace that its name belongs to, and no other node is touched (`labelOf_resolveSubtree`).
-/

namespace Xml.Document

open List

variable {doc d : Document} {id x : NodeId}

/-! ## What is looked up -/

theorem SamePlaces.lookupNamespace? (h : SamePlaces doc d) (x : NodeId) (nsPrefix : String) :
    d.lookupNamespace? x nsPrefix = doc.lookupNamespace? x nsPrefix := by
  have hparent : d.parentOf = doc.parentOf := funext h.parentOf
  have hdeclared : d.declared? nsPrefix = doc.declared? nsPrefix := funext (h.declared? nsPrefix)
  have hlineage : d.lineage x = doc.lineage x := by rw [lineage, lineage, hparent, h.size]
  rw [Document.lookupNamespace?, Document.lookupNamespace?, hlineage, hdeclared]

/-- The namespaces that are stored do not count for those that are looked up. -/
theorem SamePlaces.namespaceInScope (h : SamePlaces doc d) (x : NodeId) :
    d.namespaceInScope x = doc.namespaceInScope x := by
  have hlook (y : NodeId) : d.lookupNamespace? y = doc.lookupNamespace? y :=
    funext (h.lookupNamespace? y)
  have hplace := h x
  rw [Document.namespaceInScope, Document.namespaceInScope]
  cases hn : doc.get? x with
  | none =>
    rw [hn, Option.map_none, Option.map_eq_none_iff] at hplace
    rw [hplace]
  | some n =>
    rw [hn, Option.map_some] at hplace
    obtain ⟨m, hm, heq⟩ := Option.map_eq_some_iff.mp hplace
    have hkind : m.kind = n.kind := congrArg (·.1.kind) heq
    have hname : m.name = n.name := congrArg (·.1.name) heq
    have hparent : m.parent = n.parent := congrArg (·.2) heq
    rw [hm]
    simp only [hkind, hname, hparent, hlook]

/-! ## One node after the other -/

theorem uriOf_resolveNamespace (doc : Document) (id : NodeId) :
    (doc.resolveNamespace id).uriOf id = doc.namespaceInScope id := by
  rw [uriOf, resolveNamespace, get?_update, if_pos rfl]
  cases hn : doc.get? id with
  | none => rw [namespaceInScope, hn]; rfl
  | some n => rfl

theorem labelOf_resolveNamespace (hne : x ≠ id) :
    (doc.resolveNamespace id).labelOf x = doc.labelOf x := by
  rw [labelOf, resolveNamespace, get?_update, if_neg (Ne.symm hne)]
  rfl

theorem labelOf_foldl_resolveNamespace (ids : List NodeId) (doc : Document) (hx : x ∉ ids) :
    (ids.foldl resolveNamespace doc).labelOf x = doc.labelOf x := by
  induction ids generalizing doc with
  | nil => rfl
  | cons id ids ih =>
    rw [mem_cons, not_or] at hx
    exact (ih (doc.resolveNamespace id) hx.2).trans (labelOf_resolveNamespace hx.1)

theorem uriOf_foldl_resolveNamespace (ids : List NodeId) (doc : Document) (hx : x ∈ ids) :
    (ids.foldl resolveNamespace doc).uriOf x = doc.namespaceInScope x := by
  induction ids generalizing doc with
  | nil => cases hx
  | cons id ids ih =>
    by_cases hm : x ∈ ids
    · exact (ih (doc.resolveNamespace id) hm).trans
        ((SamePlaces.resolveNamespace doc id).namespaceInScope x)
    · -- nothing behind it writes to it again
      obtain rfl := (mem_cons.mp hx).resolve_right hm
      rw [foldl_cons, uriOf_eq, labelOf_foldl_resolveNamespace ids _ hm, ← uriOf_eq]
      exact uriOf_resolveNamespace doc x

/-- The nodes whose namespaces are looked up when the walk comes to a node. -/
def named (doc : Document) (id : NodeId) : List NodeId :=
  match doc.kindOf id with
  | some .element => id :: doc.attributesOf id
  | some .attribute => [id]
  | _ => []

/-- **The walk over a subtree, flattened.** -/
theorem resolveSubtree_eq (doc : Document) (id : NodeId) :
    doc.resolveSubtree id = ((doc.subtree id).flatMap doc.named).foldl resolveNamespace doc := by
  have same {e : Document} (h : Alike (fun n => (n.kind, n.attributes)) doc e) (x : NodeId) :
      e.named x = doc.named x := by
    have hkind : e.kindOf x = doc.kindOf x := h.comp Prod.fst x
    have hattributes : e.attributesOf x = doc.attributesOf x :=
      congrArg (Option.getD · []) (h.comp Prod.snd x)
    rw [named, named, hkind, hattributes]
  -- writing namespaces keeps the kinds and the lists of attributes that the walk goes by
  have writes (e : Document) (y : NodeId) :
      Alike (fun n => (n.kind, n.attributes)) e (e.resolveNamespace y) :=
    .update e y (fun n => { n with namespaceUri := e.namespaceInScope y }) fun _ => rfl
  have all (xs : List NodeId) (e : Document) (h : Alike (fun n => (n.kind, n.attributes)) doc e) :
      xs.foldl (fun e x => (e.named x).foldl resolveNamespace e) e =
        (xs.flatMap doc.named).foldl resolveNamespace e := by
    induction xs generalizing e with
    | nil => rfl
    | cons x xs ih =>
      rw [foldl_cons, flatMap_cons, foldl_append, same h, ih]
      exact foldlRecOn (motive := Alike _ doc) _ _ h fun e he y _ => he.trans (writes e y)
  rw [resolveSubtree, ← all _ doc (.refl doc)]
  congr 1
  funext e x
  rw [named, kindOf, attributesOf]
  cases e.get? x with
  | none => rfl
  | some n => cases hk : n.kind <;> simp [hk]

/-! ## All of the subtree -/

/-- The walk goes one level further down with every unit of depth. -/
theorem mem_subtreeTo_child (hw : doc.Linked) {depth : Nat} {c : NodeId}
    (hx : x ∈ doc.subtreeTo depth id) (hc : doc.IsChild x c) :
    c ∈ doc.subtreeTo (depth + 1) id := by
  induction depth generalizing id with
  | zero => cases hx
  | succ depth ih =>
    rw [subtreeTo, mem_cons, mem_flatMap] at hx
    rw [subtreeTo, mem_cons, mem_flatMap]
    rcases hx with rfl | ⟨k, hk, hx⟩
    · refine .inr ⟨c, hw.mem_children.mpr hc, ?_⟩
      rw [subtreeTo]
      exact mem_cons_self
    · exact .inr ⟨k, hk, ih hx⟩

theorem subtreeTo_subset {depth depth' : Nat} (hle : depth ≤ depth') (id : NodeId) :
    doc.subtreeTo depth id ⊆ doc.subtreeTo depth' id := by
  induction depth generalizing depth' id with
  | zero => exact nil_subset _
  | succ depth ih =>
    obtain ⟨depth', rfl⟩ : ∃ k, depth' = k + 1 := ⟨depth' - 1, by omega⟩
    intro x hx
    rw [subtreeTo, mem_cons, mem_flatMap] at hx ⊢
    refine hx.imp_right ?_
    rintro ⟨c, hc, hm⟩
    exact ⟨c, hc, ih (Nat.le_of_succ_le_succ hle) c hm⟩

theorem Climbs.mem_subtreeTo (hw : doc.Linked) {path : List NodeId}
    (h : doc.Climbs (x :: path)) (hlast : (x :: path).getLast? = some id)
    (hk : doc.kindOf x ≠ some .attribute) : x ∈ doc.subtreeTo (path.length + 1) id := by
  induction path generalizing x with
  | nil =>
    cases hlast
    rw [subtreeTo]
    exact mem_cons_self
  | cons q path ih =>
    obtain ⟨hq, hrest⟩ := isChain_cons_cons.mp h
    have hup := ih hrest (by rwa [getLast?_cons_cons] at hlast)
      (hw.container q x hq).not_attribute
    exact mem_subtreeTo_child hw hup ⟨hq, hk⟩

/-- **The walk leaves out nothing but attributes.** -/
theorem Linked.mem_subtree (hw : doc.Linked) (hx : x = id ∨ doc.Ancestor id x)
    (hk : doc.kindOf x ≠ some .attribute) : x ∈ doc.subtree id := by
  rcases hx with rfl | hx
  · exact doc.self_mem_subtree x
  · obtain ⟨path, hclimbs, hnodup, hlast⟩ := hx.exists_path
    -- a way up without repetition is not longer than the table, whose size bounds the walk
    have hlen := length_le_size hnodup (hclimbs.lt_size hw hx.lt_size)
    rw [hw.subtree_eq_subtreeTo]
    exact subtreeTo_subset (Nat.le_succ_of_le hlen) id (hclimbs.mem_subtreeTo hw hlast hk)

theorem Linked.mem_named_subtree (hw : doc.Linked) (hx : x = id ∨ doc.Ancestor id x)
    (hk : doc.kindOf x = some .element ∨ doc.kindOf x = some .attribute) :
    x ∈ (doc.subtree id).flatMap doc.named := by
  rw [mem_flatMap]
  rcases hk with hk | hk
  · refine ⟨x, hw.mem_subtree hx (by rw [hk]; decide), ?_⟩
    rw [named, hk]
    exact mem_cons_self
  · rcases hx with rfl | hx
    · refine ⟨x, doc.self_mem_subtree x, ?_⟩
      rw [named, hk]
      exact mem_singleton.mpr rfl
    · -- an attribute comes up with its element
      obtain ⟨owner, hp⟩ := hx.exists_parent
      have hel := hw.owner owner x ⟨hp, hk⟩
      refine ⟨owner, hw.mem_subtree ((hx.of_parent hp).imp_left Eq.symm) ?_, ?_⟩
      · rw [hel]
        decide
      · rw [named, hel]
        exact mem_cons_of_mem _ ((hw.mem_attributes owner x).mpr ⟨hp, hk⟩)

theorem Linked.of_mem_named_subtree (hw : doc.Linked)
    (hx : x ∈ (doc.subtree id).flatMap doc.named) : x = id ∨ doc.Ancestor id x := by
  obtain ⟨y, hy, hx⟩ := mem_flatMap.mp hx
  have hup := hw.of_mem_subtree hy
  rw [named] at hx
  split at hx
  · rcases mem_cons.mp hx with rfl | hx
    · exact hup
    · exact .inr (ancestor_of_parentOf ((hw.mem_attributes y x).mp hx).1 hup)
  · rwa [mem_singleton.mp hx]
  · cases hx

/-! ## What becomes of the namespaces -/

/-- **Resolving a subtree does not touch anything outside of it.** -/
theorem Linked.labelOf_resolveSubtree (hw : doc.Linked) (hx : ¬ (x = id ∨ doc.Ancestor id x)) :
    (doc.resolveSubtree id).labelOf x = doc.labelOf x := by
  rw [resolveSubtree_eq]
  exact labelOf_foldl_resolveNamespace _ doc fun hm => hx (hw.of_mem_named_subtree hm)

/-- A namespace that was looked up is the one that the name belongs to. -/
theorem Rooted.agrees (h : doc.Rooted) (hx : doc.Ancestor root x)
    (huri : doc.uriOf x = doc.namespaceInScope x) : doc.Agrees x := by
  intro hk _
  rw [huri]
  exact h.belongs hx hk

/-- **Resolving a subtree sets all of it right.** -/
theorem Rooted.agrees_resolveSubtree (h : doc.Rooted) (hx : x = id ∨ doc.Ancestor id x)
    (hup : (doc.resolveSubtree id).Ancestor root x) : (doc.resolveSubtree id).Agrees x := by
  have places := SamePlaces.resolveSubtree doc id
  have hr := places.rooted h ((resolveSubtree_relabeled doc id).links.linked h.linked)
  intro hk hxmlns
  refine hr.agrees hup ?_ hk hxmlns
  rw [places.namespaceInScope]
  rw [places.kindOf] at hk
  rw [resolveSubtree_eq]
  exact uriOf_foldl_resolveNamespace _ doc (h.linked.mem_named_subtree hx hk)

/-- A node can change as it likes if its namespace is looked up afterwards. -/
theorem Coherent.resolveNamespace {S : NodeId → Prop} (hc : doc.Coherent) (hF : Frame S doc d)
    (h : doc.Rooted) (h' : (d.resolveNamespace id).Rooted)
    (hall : ∀ x, x ≠ id → S x ∧ d.labelOf x = doc.labelOf x) :
    (d.resolveNamespace id).Coherent := by
  have places := SamePlaces.resolveNamespace d id
  refine hc.of_frame (hF.of_places places) h h' fun x hx => ?_
  by_cases hne : x = id
  · subst hne
    refine .inl (h'.agrees hx ?_)
    rw [uriOf_resolveNamespace, places.namespaceInScope]
  · exact .inr ⟨(hall x hne).1, (labelOf_resolveNamespace hne).trans (hall x hne).2⟩

theorem Rooted.of_resolveSubtree (h : (doc.resolveSubtree id).Rooted) (hw : doc.Linked) :
    doc.Rooted :=
  SamePlaces.rooted (SamePlaces.resolveSubtree doc id).symm h hw

/-- **A change that is followed by resolving a subtree keeps a document coherent**, if outside of
the subtree labels are what they were and no node has a new parent. -/
theorem Coherent.resolveSubtree (hc : doc.Coherent) (h : doc.Rooted) (h' : d.Rooted)
    (hlabel : ∀ x, ¬ (x = id ∨ d.Ancestor id x) → d.labelOf x = doc.labelOf x)
    (hparent : ∀ x q, ¬ (x = id ∨ d.Ancestor id x) → d.parentOf x = some q →
      doc.parentOf x = some q) : (d.resolveSubtree id).Coherent := by
  have places := SamePlaces.resolveSubtree d id
  have hr := places.rooted h' ((resolveSubtree_relabeled d id).links.linked h'.linked)
  refine hc.of_frame ((Frame.outside hlabel hparent).of_places places) h hr fun x hx => ?_
  by_cases hin : x = id ∨ d.Ancestor id x
  · exact .inl (h'.agrees_resolveSubtree hin hx)
  · exact .inr ⟨hin, (h'.linked.labelOf_resolveSubtree hin).trans (hlabel x hin)⟩

end Xml.Document
