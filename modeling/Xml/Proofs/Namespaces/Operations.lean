import Xml.Proofs.Namespaces.Resolving
import Xml.Proofs.Steps.DocumentNode

/-!
# Operations and namespaces

Every operation that moves a node, renames it or changes what it declares looks up the namespaces
that depend on it, with one exception: a new document element keeps the namespaces it came with. So
an operation spoils the coherence of a document exactly if it installs an element whose names do not
have the namespaces that the declarations inside of it give (`Operation.coherent_apply_iff`).
-/

namespace Xml.Document

variable {doc d : Document} {op : Operation} {id x : NodeId} {nsPrefix uri : String}

/-- Taken on its own, the tree at a node has the namespaces that its names belong to. -/
def SelfContained (doc : Document) (id : NodeId) : Prop :=
  ∀ x, x = id ∨ doc.Ancestor id x → (doc.detach id).Agrees x

/-- The operation makes an element the document element that is not self-contained. -/
def Operation.InstallsStale (op : Operation) (doc : Document) : Prop :=
  ∃ node, op = .setRoot node ∧ (Document.setRoot node).Accepted doc ∧ ¬ doc.SelfContained node.id

/-! ## A new document element -/

section Installed

variable (hr : doc.Rooted) (hk : doc.kindOf id = some .element)
  (h : Placed doc d id root doc.rootElement?)

include hr hk h

/-- Inside of the new document element the links are what they were. -/
theorem Placed.parentOf_inside {y q : NodeId} (hne : y ≠ id) (hin : q = id ∨ doc.Ancestor id q)
    (hq : doc.parentOf y = some q) :
    d.parentOf y = some q ∧ (doc.detach id).parentOf y = some q := by
  have hold : some y ≠ doc.rootElement? := by
    intro he
    -- the old document element hangs on the document node, which is not inside of anything
    cases hq.symm.trans (hr.linked.rootElement? he.symm).1.1
    rcases hin with rfl | hin
    · rw [hr.kindOf_root] at hk
      cases hk
    · obtain ⟨p, hp⟩ := hin.exists_parent
      rw [hr.free] at hp
      cases hp
  rw [h.parentOf, if_neg hne, if_neg hold, hr.linked.parentOf_detach, if_neg hne]
  exact ⟨hq, hq⟩

theorem Placed.binds_iff_inside (hr' : d.Rooted) (hin : x = id ∨ doc.Ancestor id x) :
    d.Binds nsPrefix x uri ↔ (doc.detach id).Binds nsPrefix x uri := by
  have hdecl (y : NodeId) : d.declared? nsPrefix y = (doc.detach id).declared? nsPrefix y :=
    declared?_of_label ((h.labels.labelOf y).trans
      ((detach_alike doc id).labels.labelOf y).symm) nsPrefix
  -- at the top only the element itself can declare anything: nothing is above it in one document,
  -- and only the document node in the other
  have top : d.Binds nsPrefix id uri ↔ (doc.detach id).Binds nsPrefix id uri := by
    rw [binds_iff_declared, binds_iff_declared, hdecl]
    · intro q hq
      rw [hr.linked.parentOf_detach, if_pos rfl] at hq
      cases hq
    · intro q hq
      rw [h.parentOf, if_pos rfl] at hq
      cases hq
      exact hr'.not_binds_root
  refine Ancestor.descend
    (P := fun y => d.Binds nsPrefix y uri ↔ (doc.detach id).Binds nsPrefix y uri) top
    (fun y q hne hin hq ih => ?_) hin
  obtain ⟨hd, he⟩ := h.parentOf_inside hr hk hne hin hq
  exact binds_iff_of_parent he hd (hdecl y) ih

/-- The names inside of the new document element are in the namespaces that they belong to exactly
if they were so without anything around them. -/
theorem Placed.agrees_iff_inside (hr' : d.Rooted) (hin : x = id ∨ doc.Ancestor id x) :
    d.Agrees x ↔ (doc.detach id).Agrees x := by
  have hlabel : d.labelOf x = (doc.detach id).labelOf x :=
    (h.labels.labelOf x).trans ((detach_alike doc id).labels.labelOf x).symm
  have hkind : d.kindOf x = doc.kindOf x := h.labels.kindOf x
  have hkind' : (doc.detach id).kindOf x = doc.kindOf x := hr.linked.kindOf_detach id x
  have hself (nsPrefix uri : String) :
      d.Binds nsPrefix x uri ↔ (doc.detach id).Binds nsPrefix x uri :=
    h.binds_iff_inside hr hk hr' hin
  -- an attribute is not the element itself, so that its owner is inside too
  have howner (hattr : doc.kindOf x = some .attribute) : ∃ owner,
      d.parentOf x = some owner ∧ (doc.detach id).parentOf x = some owner ∧
        ∀ nsPrefix uri, d.Binds nsPrefix owner uri ↔ (doc.detach id).Binds nsPrefix owner uri := by
    have hne : x ≠ id := by
      rintro rfl
      rw [hk] at hattr
      cases hattr
    have hup := hin.resolve_left hne
    obtain ⟨owner, hp⟩ := hup.exists_parent
    have hin' := (hup.of_parent hp).imp_left Eq.symm
    obtain ⟨hd, he⟩ := h.parentOf_inside hr hk hne hin' hp
    exact ⟨owner, hd, he, fun _ _ => h.binds_iff_inside hr hk hr' hin'⟩
  constructor
  · intro ha
    refine ha.congr hlabel.symm (fun _ _ => (hself _ _).symm) fun hattr owner hp => ?_
    obtain ⟨_, hd, he, hbinds⟩ := howner (hkind.symm.trans hattr)
    cases hd.symm.trans hp
    exact ⟨he, fun _ _ => (hbinds _ _).symm⟩
  · intro ha
    refine ha.congr hlabel hself fun hattr owner hp => ?_
    obtain ⟨_, hd, he, hbinds⟩ := howner (hkind'.symm.trans hattr)
    cases he.symm.trans hp
    exact ⟨hd, hbinds⟩

theorem Placed.ancestor_inside (hin : x = id ∨ doc.Ancestor id x) : d.Ancestor root x := by
  have top : d.Ancestor root id := .parent (by rw [h.parentOf, if_pos rfl])
  refine Ancestor.descend top (fun y q hne hin hq ih => ?_) hin
  exact .above (h.parentOf_inside hr hk hne hin hq).1 ih

end Installed

variable {gone : Option NodeId} {p : NodeId}

/-- Outside of a node that was put somewhere, no node has a new parent. -/
theorem Placed.parentOf_outside (h : Placed doc d id p gone) {y q : NodeId} (hne : y ≠ id)
    (hq : d.parentOf y = some q) : doc.parentOf y = some q := by
  rw [h.parentOf, if_neg hne] at hq
  split at hq
  · cases hq
  · exact hq

/-- Nothing comes into the tree at a node that is put elsewhere. -/
theorem Placed.inside_of_inside (h : Placed doc d id p gone) (hin : d.Ancestor id x) :
    x = id ∨ doc.Ancestor id x := by
  refine Ancestor.descend (P := fun y => y = id ∨ doc.Ancestor id y) (.inl rfl)
    (fun y q hne _ hq ih => .inr ?_) (.inr hin)
  exact ancestor_of_parentOf (h.parentOf_outside hne hq) ih

/-- **When a new document element leaves the document coherent.** -/
theorem Placed.coherent_iff (hr : doc.Rooted) (hr' : d.Rooted) (hc : doc.Coherent)
    (hk : doc.kindOf id = some .element) (h : Placed doc d id root doc.rootElement?) :
    d.Coherent ↔ doc.SelfContained id := by
  constructor
  · intro hd x hin
    exact (h.agrees_iff_inside hr hk hr' hin).mp (hd x (h.ancestor_inside hr hk hin))
  · intro hself
    have hF := Frame.outside (fun y _ => h.labels.labelOf y) fun y q hy hq =>
      h.parentOf_outside (fun he => hy (.inl he)) hq
    refine hc.of_frame hF hr hr' fun x hx => ?_
    by_cases hin : x = id ∨ d.Ancestor id x
    · have hin' : x = id ∨ doc.Ancestor id x := hin.elim .inl h.inside_of_inside
      exact .inl ((h.agrees_iff_inside hr hk hr' hin').mpr (hself x hin'))
    · exact .inr ⟨hin, h.labels.labelOf x⟩

/-! ## One operation -/

/-- Where names and places are the same, namespaces are too. -/
theorem Coherent.kept (hc : doc.Coherent) (hr : doc.Rooted) (hr' : d.Rooted)
    (labels : SameLabels doc d) (places : SamePlaces doc d) : d.Coherent := by
  have hF : Frame (fun _ => True) doc doc := fun _ _ _ hq => ⟨hq, trivial, fun _ => rfl⟩
  exact hc.of_frame (hF.of_places places) hr hr' fun x _ => .inr ⟨trivial, labels.labelOf x⟩

/-- A change after which a subtree is looked up again, in a document that still has the document
node on top. -/
theorem Placed.coherent_resolveSubtree (h : Placed doc d id p gone) (hr : doc.Rooted)
    (hr' : (d.resolveSubtree id).Rooted) (hc : doc.Coherent) : (d.resolveSubtree id).Coherent := by
  have hd := hr'.of_resolveSubtree h.linked
  exact hc.resolveSubtree hr hd (fun x _ => h.labels.labelOf x) fun x q hx hq =>
    h.parentOf_outside (fun he => hx (.inl he)) hq

/-- A new node comes under an old one. -/
theorem Gained.frame {node : Node} (h : Gained doc d node p)
    (hlt : ∀ y q, doc.parentOf y = some q → q < doc.size) : Frame (· ≠ doc.size) doc d := by
  intro y q hy hq
  rw [h.parentOf, if_neg hy] at hq
  refine ⟨hq, Nat.ne_of_lt (hlt y q hq), declared?_of_label ?_⟩
  rw [h.labelOf, if_neg hy]

theorem Frame.trans {e : Document} {S : NodeId → Prop} (h : Frame S d e)
    (h' : Frame (fun _ => True) doc d) : Frame S doc e := by
  intro y q hs hq
  obtain ⟨hq', hsq, hdecl⟩ := h y q hs hq
  obtain ⟨hq'', -, hdecl'⟩ := h' y q trivial hq'
  exact ⟨hq'', hsq, fun nsPrefix => (hdecl nsPrefix).trans (hdecl' nsPrefix)⟩

theorem Cut.frame (h : Cut doc d) : Frame (fun _ => True) doc d := fun y q _ hq =>
  ⟨h.parentOf y q hq, trivial, declared?_of_label (h.labels.labelOf y)⟩

theorem frame_rename (doc : Document) (name : String) (id : NodeId) :
    Frame (fun _ => True) doc ((doc.learn name).update id fun n => { n with name }) := by
  intro y q _ hq
  rw [parentOf_rename] at hq
  refine ⟨hq, trivial, declared?_congr ?_⟩
  have hkeep : ∀ n : Node, (({ n with name } : Node).kind, ({ n with name } : Node).declarations) =
      (n.kind, n.declarations) := fun _ => rfl
  rw [map_get?_update_keep (fun n => (n.kind, n.declarations)) _ hkeep, get?_learn]

theorem Apart.lt_of_ancestor (h : Apart doc.size doc d) (hroot : root < doc.size)
    (hx : d.Ancestor root x) : x < doc.size := by
  refine Ancestor.descend (P := (· < doc.size)) hroot (fun y q _ _ hq hlt => ?_) (.inr hx)
  by_contra hle
  rcases h.new y q (Nat.le_of_not_lt hle) hq with hold | hle'
  · exact hle (lt_size_of_parentOf hold)
  · exact Nat.not_lt.mpr hle' hlt

theorem Coherent.alloc {node : Node} (hc : doc.Coherent) (hr : doc.Rooted) (hn : node.Unlinked)
    (hr' : (doc.alloc node).2.Rooted) : (doc.alloc node).2.Coherent := by
  -- the new node has no parent, so whoever has one was there before
  have hlabel {y q : NodeId} (hq : (doc.alloc node).2.parentOf y = some q) :
      (doc.alloc node).2.labelOf y = doc.labelOf y := by
    rw [parentOf_alloc hn] at hq
    rw [labelOf_alloc, if_neg (Nat.ne_of_lt (lt_size_of_parentOf hq))]
  have hF : Frame (fun _ => True) doc (doc.alloc node).2 := fun y q _ hq =>
    ⟨(parentOf_alloc hn y).symm.trans hq, trivial, declared?_of_label (hlabel hq)⟩
  refine hc.of_frame hF hr hr' fun x hx => ?_
  obtain ⟨q, hq⟩ := hx.exists_parent
  exact .inr ⟨trivial, hlabel hq⟩

theorem Coherent.copies (hc : doc.Coherent) (hr : doc.Rooted) (hr' : d.Rooted)
    (h : Copies doc.size doc d) : d.Coherent := by
  have hapart := h.apart
  have hF : Frame (· < doc.size) doc d := by
    intro y q hy hq
    rw [hapart.parentOf y hy] at hq
    exact ⟨hq, (hr.linked.container q y hq).lt_size, declared?_of_label (hapart.labelOf y hy)⟩
  refine hc.of_frame hF hr hr' fun x hx => ?_
  have hlt := hapart.lt_of_ancestor (lt_size_of_kindOf hr.kindOf_root) hx
  exact .inr ⟨hlt, hapart.labelOf x hlt⟩

/-- **Every operation keeps a document coherent, but for one case.** -/
theorem Step.coherent (h : Step doc op d) (hr : doc.Rooted) (hr' : d.Rooted)
    (hc : doc.Coherent) (hstale : ¬ op.InstallsStale doc) : d.Coherent := by
  have hw := hr.linked
  cases h with
  | kept labels places => exact hc.kept hr hr' labels places
  | made hn => exact hc.alloc hr hn hr'
  | @renamed node name hdoc hk =>
    refine hc.resolveNamespace (frame_rename doc name node.id) hr hr' fun x hne => ⟨trivial, ?_⟩
    rw [labelOf_rename, if_neg hne]
  | @retitled _ id name hk =>
    refine hc.of_unnamed (frame_rename doc name id) hr hr' id ?_ ?_ fun x hne => ⟨trivial, ?_⟩
    · rw [kindOf_rename]
      rcases hk with hk | hk <;> rw [hk] <;> decide
    · rw [kindOf_rename]
      rcases hk with hk | hk <;> rw [hk] <;> decide
    · rw [labelOf_rename, if_neg hne]
  | cut h => exact hc.of_frame h.frame hr hr' fun x _ => .inr ⟨trivial, h.labels.labelOf x⟩
  | @dropped _ d id hl h =>
    have hd := hr'.of_resolveSubtree hl
    exact hc.resolveSubtree hr hd (fun x _ => h.labels.labelOf x) fun x q _ => h.parentOf x q
  | @filled _ e d node p hcut hp hk h =>
    have hlt (y q : NodeId) (hq : e.parentOf y = some q) : q < e.size := by
      rw [hcut.labels.size]
      exact (hw.container q y (hcut.parentOf y q hq)).lt_size
    refine hc.of_unnamed ((h.frame hlt).trans hcut.frame) hr hr' e.size ?_ ?_ fun x hne => ⟨hne, ?_⟩
    · rw [h.kindOf, if_pos rfl, hk]
      decide
    · rw [h.kindOf, if_pos rfl, hk]
      decide
    · rw [h.labelOf, if_neg hne, hcut.labels.labelOf]
  | @attributed _ d node p hp hk hnew h =>
    have hF := h.frame fun y q hq => (hw.container q y hq).lt_size
    refine hc.resolveNamespace hF hr hr' fun x hne => ⟨hne, ?_⟩
    rw [h.labelOf, if_neg hne]
  | @declared _ d id hk h =>
    have hd := hr'.of_resolveSubtree h.linked
    exact hc.resolveSubtree hr hd (fun x hx => h.labelOf x fun he => hx (.inl he))
      fun x q _ hq => (h.parentOf x).symm.trans hq
  | under hid hfits htop hgone h => exact h.coherent_resolveSubtree hr hr' hc
  | replaced hjoins htop h => exact h.coherent_resolveSubtree hr hr' hc
  | @beside d _ _ _ other p hjoins htop h he =>
    have hl := (resolveSubtree_relabeled d other.id).links.linked h.linked
    have hd : (d.resolveSubtree other.id).Rooted :=
      SamePlaces.rooted (Alike.of_nodes_eq he).symm hr' hl
    exact (h.coherent_resolveSubtree hr hd hc).kept hd hr' (.of_nodes_eq he) (.of_nodes_eq he)
  | @installed node hk hne hacc h =>
    exact (h.coherent_iff hr hr' hc hk).mpr (not_not.mp fun hnot => hstale ⟨node, rfl, hacc, hnot⟩)
  | copied h => exact hc.copies hr hr' h

/-- **When an operation spoils the coherence of a document**, or takes the document node from its
place. -/
theorem Operation.coherent_apply_iff (hr : doc.Rooted) (hc : doc.Coherent) (op : Operation) :
    ((op.apply doc).parentOf root = none ∧ (op.apply doc).Coherent) ↔
      ¬ (op.MovesDocumentNode doc ∨ op.InstallsStale doc) := by
  have hrelinks := (op.relinks hr.linked hr.kindOf_root).1
  have hrooted (hfree : (op.apply doc).parentOf root = none) : (op.apply doc).Rooted := by
    refine ⟨hrelinks.linked hr.linked, ?_, hfree⟩
    rw [(hrelinks.kindOf hr.linked).2 root (lt_size_of_kindOf hr.kindOf_root), hr.kindOf_root]
  have hstep := op.step hr.linked hr.kindOf_root
  rw [not_or, ← op.free_apply_iff hr.linked hr.kindOf_root hr.free]
  refine and_congr_right fun hfree => ⟨?_, hstep.coherent hr (hrooted hfree) hc⟩
  -- what `setRoot` accepts it installs, and then coherence decides about the element
  rintro hcoherent ⟨node, rfl, hacc, hstale⟩
  rcases setRoot_cases doc node with ⟨-, hno⟩ | ⟨-, hel, hne, hd⟩
  · exact hno hacc
  · rw [Operation.apply, hd] at hcoherent
    have hr' := hrooted hfree
    rw [Operation.apply, hd] at hr'
    have hplaced := hr.linked.placed_installRoot hr.kindOf_root hel hne
    exact hstale ((hplaced.coherent_iff hr hr' hc hel).mp hcoherent)

end Xml.Document
