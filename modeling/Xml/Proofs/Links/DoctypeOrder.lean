import Xml.Proofs.Links.Places

/-!
# Document types and what stands around them

A document type belongs under the document node, in front of the document element. `DoctypeFirst`
says so of every document type that has a parent at all, and of every element under the document
node. Taking nodes out does no harm to it, and neither does putting nodes somewhere that are neither
document types nor elements right under the document node (`Relinks.doctypeFirst`). An element may
come under the document node if no document type stands behind its place
(`Relinks.doctypeFirst_iff`), so for each edit that puts one there we say what stands behind it.
-/

namespace Xml.Document

open List

variable {doc d : Document} {id p other x : NodeId}

/-- One child of the document node may stand somewhere in front of another. -/
def MayPrecede (doc : Document) (a b : NodeId) : Prop :=
  doc.kindOf a = some .element → doc.kindOf b ≠ some .doctype

/-- No document type stands below anything but the document node. -/
def DoctypesOnTop (doc : Document) : Prop :=
  ∀ x p, doc.kindOf x = some .doctype → doc.parentOf x = some p → p = root

/-- Document types stand under the document node only, and behind no element there. -/
structure DoctypeFirst (doc : Document) : Prop where
  onTop : doc.DoctypesOnTop
  order : (doc.children root).Pairwise doc.MayPrecede

/-- Among the children of the document node `x` stands behind `id`. -/
def Behind (doc : Document) (id x : NodeId) : Prop :=
  ∃ l r, doc.children root = l ++ id :: r ∧ x ∈ r

theorem DoctypeFirst.not_behind (h : doc.DoctypeFirst) (hk : doc.kindOf id = some .element)
    (hx : doc.Behind id x) : doc.kindOf x ≠ some .doctype := by
  obtain ⟨l, r, hcs, hx⟩ := hx
  have horder := h.order
  rw [hcs, pairwise_append, pairwise_cons] at horder
  exact horder.2.1.1 x hx hk

theorem Linked.isChild_of_behind (hw : doc.Linked) (h : doc.Behind id x) : doc.IsChild root id := by
  obtain ⟨l, r, hcs, -⟩ := h
  exact hw.mem_children.mp (hcs ▸ mem_append_right l mem_cons_self)

/-! ## Nodes that do no harm -/

/-- Whoever has a parent after a change was there before. -/
theorem Relink.lt_size {G : Document → NodeId → NodeId → Prop} (h : Relink G doc d)
    (hw : doc.Linked) (hx : d.parentOf x = some p) : x < doc.size := by
  have hlt := lt_size_of_parentOf hx
  cases h with
  | same h => rwa [h.links.shows.size] at hlt
  | alloc h =>
    rw [parentOf_alloc h] at hx
    exact lt_size_of_parentOf hx
  | detach id => rwa [(hw.detach_spec id).2.1] at hlt
  | append hp hid hg => rwa [(hw.inserted hp hid).1.size] at hlt
  | before href hid hg =>
    obtain ⟨l, r, -, hi, -⟩ := (hw.inserted (hw.container _ _ href.1) hid).2 _ href
    rwa [hi.size] at hlt
  | after href hid hg =>
    obtain ⟨l, r, -, -, hi⟩ := (hw.inserted (hw.container _ _ href.1) hid).2 _ href
    rwa [hi.size] at hlt
  | attr index hp hid hloose => rwa [(hw.insertAttribute index hp hid hloose).2.1] at hlt

/-- The node is no document type. -/
def NoDoctype (doc : Document) (id _ : NodeId) : Prop :=
  doc.kindOf id ≠ some .doctype

/-- The node is no document type, and no element that is put under the document node. -/
def Harmless (doc : Document) (id p : NodeId) : Prop :=
  doc.kindOf id ≠ some .doctype ∧ (p = root → doc.kindOf id ≠ some .element)

theorem Relink.doctypesOnTop (h : Relink NoDoctype doc d) (hw : doc.Linked)
    (htop : doc.DoctypesOnTop) : d.DoctypesOnTop := by
  have he := h.effect hw
  intro x p hx hp
  rw [he.kind x (h.lt_size hw hp)] at hx
  cases he.parents with
  | fewer hfewer => exact htop x p hx (hfewer x p hp)
  | put id q hparent hg =>
    rw [hparent] at hp
    split at hp
    · next hid =>
      subst hid
      rcases hg with hg | ⟨hattr, -⟩
      · exact absurd hx hg
      · rw [hattr] at hx
        cases hx
    · exact htop x p hx hp

theorem Relinks.doctypesOnTop (h : Relinks NoDoctype doc d) (hw : doc.Linked)
    (htop : doc.DoctypesOnTop) : d.DoctypesOnTop := by
  induction h with
  | refl => exact htop
  | tail hs hr ih => exact hr.doctypesOnTop (Relinks.linked hs hw) ih

/-- Where a node may come to stand in a list that is in order. -/
theorem pairwise_insert_iff {R : NodeId → NodeId → Prop} {l r : List NodeId}
    (h : (l ++ r).Pairwise R) :
    (l ++ id :: r).Pairwise R ↔ (∀ a ∈ l, R a id) ∧ ∀ x ∈ r, R id x := by
  rw [pairwise_append] at h ⊢
  simp only [pairwise_cons, forall_mem_cons]
  exact ⟨fun ⟨_, ⟨hr, _⟩, hl⟩ => ⟨fun a ha => (hl a ha).1, hr⟩,
    fun ⟨hl, hr⟩ => ⟨h.1, ⟨hr, h.2.1⟩, fun a ha => ⟨hl a ha, h.2.2 a ha⟩⟩⟩

/-- **Putting nodes into place does no harm**, if they are neither document types nor elements that
are put under the document node. -/
theorem Relink.doctypeFirst (h : Relink Harmless doc d) (hw : doc.Linked)
    (hfirst : doc.DoctypeFirst) : d.DoctypeFirst := by
  have he := h.effect hw
  have hkind : ∀ c ∈ d.children root, d.kindOf c = doc.kindOf c := fun c hc =>
    he.kind c (h.lt_size hw (he.linked.mem_children.mp hc).1)
  refine ⟨(h.mono fun _ _ _ hg => hg.1).doctypesOnTop hw hfirst.onTop, ?_⟩
  have horder : (d.children root).Pairwise doc.MayPrecede := by
    cases h.regroups hw root with
    | fewer hfewer => exact hfirst.order.sublist hfewer
    | put id l r hd hdoc hg =>
      rw [hd]
      refine (pairwise_insert_iff (hdoc ▸ hfirst.order)).mpr ⟨fun a _ _ => hg.1, fun x _ hk => ?_⟩
      exact absurd hk (hg.2 rfl)
  refine horder.imp_of_mem fun ha hb hab => ?_
  rwa [MayPrecede, hkind _ ha, hkind _ hb]

theorem Relinks.doctypeFirst (h : Relinks Harmless doc d) (hw : doc.Linked)
    (hfirst : doc.DoctypeFirst) : d.DoctypeFirst := by
  induction h with
  | refl => exact hfirst
  | tail hs hr ih => exact hr.doctypeFirst (Relinks.linked hs hw) ih

theorem DoctypeFirst.detach (h : doc.DoctypeFirst) (hw : doc.Linked) (id : NodeId) :
    (doc.detach id).DoctypeFirst :=
  (Relink.detach doc id).doctypeFirst hw h

/-! ## Elements put under the document node -/

/-- **Where an element may be put**: not in front of a document type. -/
theorem Relinks.doctypeFirst_iff {l r : List NodeId} (h : Relinks NoDoctype doc d)
    (hw : doc.Linked) (hfirst : doc.DoctypeFirst) (hk : doc.kindOf id = some .element)
    (hd : d.children root = l ++ id :: r) (hsub : (l ++ r).Sublist (doc.children root)) :
    d.DoctypeFirst ↔ ∀ x ∈ r, doc.kindOf x ≠ some .doctype := by
  have hold : ∀ c ∈ d.children root, c < doc.size := by
    intro c hc
    rw [hd, mem_append, mem_cons, or_left_comm, ← mem_append] at hc
    rcases hc with rfl | hc
    · exact lt_size_of_kindOf hk
    · exact hw.lt_size_of_mem (hsub.subset hc)
  have hprecede : (d.children root).Pairwise d.MayPrecede ↔
      (d.children root).Pairwise doc.MayPrecede := by
    refine List.Pairwise.iff_of_mem fun ha hb => ?_
    have hkind := (h.kindOf hw).2
    rw [MayPrecede, MayPrecede, hkind _ (hold _ ha), hkind _ (hold _ hb)]
  have horder : (d.children root).Pairwise d.MayPrecede ↔
      ∀ x ∈ r, doc.kindOf x ≠ some .doctype := by
    rw [hprecede, hd, pairwise_insert_iff (hfirst.order.sublist hsub)]
    refine ⟨fun hr x hx => hr.2 x hx hk, fun hr => ⟨fun a _ _ => ?_, fun x hx _ => hr x hx⟩⟩
    rw [hk]
    decide
  exact ⟨fun hfirst => horder.mp hfirst.order,
    fun hr => ⟨h.doctypesOnTop hw hfirst.onTop, horder.mpr hr⟩⟩

/-- What stands behind a child is the same when another one was taken out. -/
theorem Linked.mem_behind_detach (hw : doc.Linked) {other : NodeId} {l r : List NodeId}
    (hne : id ≠ other) (h : (doc.detach other).children root = l ++ id :: r) :
    x ∈ r ↔ doc.Behind id x ∧ x ≠ other := by
  rw [hw.children_detach] at h
  have hmem : id ∈ doc.children root := by
    have := h ▸ mem_append_right l mem_cons_self
    exact (mem_filter.mp this).1
  -- the child stands in one place only, so there is one way to split the list at it
  have split {l' r' : List NodeId} (hcs : doc.children root = l' ++ id :: r') :
      r = r'.filter (· ≠ other) := by
    have hnd : (l' ++ id :: r').Nodup := hcs ▸ hw.children_nodup root
    rw [nodup_middle, nodup_cons, mem_append, not_or] at hnd
    rw [hcs, filter_append, filter_cons_of_pos (by simpa using hne)] at h
    have hout : id ∉ l'.filter (· ≠ other) := fun hm => hnd.1.1 (mem_filter.mp hm).1
    have hout' : id ∉ r'.filter (· ≠ other) := fun hm => hnd.1.2 (mem_filter.mp hm).1
    exact ((append_cons_inj_of_notMem hout hout').mp h).2.2.symm
  obtain ⟨l', r', hcs⟩ := append_of_mem hmem
  constructor
  · intro hx
    rw [split hcs, mem_filter] at hx
    exact ⟨⟨l', r', hcs, hx.1⟩, by simpa using hx.2⟩
  · rintro ⟨⟨l'', r'', hcs', hx⟩, hxo⟩
    rw [split hcs', mem_filter]
    exact ⟨hx, by simpa using hxo⟩

theorem Linked.children_detach_sublist (hw : doc.Linked) (id p : NodeId) :
    ((doc.detach id).children p).Sublist (doc.children p) := by
  rw [hw.children_detach]
  exact filter_sublist

namespace Beside

theorem not_attribute (h : Beside doc id p other) (hk : doc.kindOf other ≠ some .attribute) :
    doc.kindOf id ≠ some .attribute :=
  fun hattr => hk (h.alike.mp hattr)

variable (h : Beside doc id root other) (hk : doc.kindOf other = some .element) (hne : id ≠ other)
include h hk hne

/-- What is behind the place of an element that is put beside another node or in its place. -/
theorem forall_behind {l r : List NodeId} (hlr : (doc.detach other).children root = l ++ id :: r) :
    (∀ x ∈ r, doc.kindOf x ≠ some .doctype) ↔
      ∀ x, doc.Behind id x → doc.kindOf x ≠ some .doctype := by
  refine forall_congr' fun x => ?_
  rw [h.fits.linked.mem_behind_detach hne hlr]
  refine ⟨fun hall hx hdt => hall ⟨hx, ?_⟩ hdt, fun hall hx => hall hx.1⟩
  rintro rfl
  rw [hk] at hdt
  cases hdt

theorem doctypeFirst_substitute_iff (hfirst : doc.DoctypeFirst) :
    (substitute id root other doc).DoctypeFirst ↔
      ∀ x, doc.Behind id x → doc.kindOf x ≠ some .doctype := by
  have hw := h.fits.linked
  obtain ⟨l, r, hlr, hd⟩ := h.children_substitute (h.not_attribute (by rw [hk]; decide)) hne
  rw [← h.forall_behind hk hne hlr]
  refine Relinks.doctypeFirst_iff (h.substitute_relinks fun _ => ?_) hw hfirst hk hd ?_
  · rw [NoDoctype, hw.kindOf_detach, hk]
    decide
  · refine List.Sublist.trans ?_ (hw.children_detach_sublist other root)
    rw [hlr]
    exact (sublist_cons_self id r).append_left l

theorem doctypeFirst_placeBeside_iff (hfirst : doc.DoctypeFirst) (side : Side) :
    (placeBeside side id root other doc).DoctypeFirst ↔
      (∀ x, doc.Behind id x → doc.kindOf x ≠ some .doctype) ∧
        (side = .before → doc.kindOf id ≠ some .doctype) := by
  have hw := h.fits.linked
  obtain ⟨l, r, hlr, hd⟩ :=
    h.children_placeBeside (h.not_attribute (by rw [hk]; decide)) hne side
  have hr : Relinks NoDoctype doc (placeBeside side id root other doc) := by
    refine h.placeBeside_relinks hne side ?_
    rw [NoDoctype, hw.kindOf_detach, hk]
    decide
  have hsub := hlr ▸ hw.children_detach_sublist other root
  rw [← h.forall_behind hk hne hlr]
  cases side with
  | before =>
    rw [if_pos rfl] at hd
    rw [hr.doctypeFirst_iff hw hfirst hk hd hsub, forall_mem_cons, and_comm, imp_iff_right rfl]
  | after =>
    rw [if_neg Side.noConfusion, append_cons] at hd
    rw [append_cons] at hsub
    rw [hr.doctypeFirst_iff hw hfirst hk hd hsub]
    exact (and_iff_left Side.noConfusion).symm

end Beside

/-- A node put under another as the last of its children. -/
theorem Fits.doctypeFirst_placeUnder (h : Fits doc id p) (hloose : doc.parentOf id = none)
    (hfirst : doc.DoctypeFirst) (hk : doc.kindOf id ≠ some .doctype) :
    (placeUnder id p doc).DoctypeFirst := by
  by_cases hel : p = root ∧ doc.kindOf id = some .element
  · obtain ⟨rfl, hel⟩ := hel
    have hlast := h.children_placeUnder hloose (by rw [hel]; decide)
    have hr : Relinks NoDoctype doc (placeUnder id root doc) := placeUnder_relinks h hloose hk
    refine (hr.doctypeFirst_iff h.linked hfirst hel hlast ?_).mpr (forall_mem_nil _)
    rw [append_nil]
  · exact Relinks.doctypeFirst
      (placeUnder_relinks h hloose ⟨hk, fun hp hkind => hel ⟨hp, hkind⟩⟩) h.linked hfirst

/-- A new document element. Behind the old one stands no document type. -/
theorem Linked.doctypeFirst_installRoot (hw : doc.Linked)
    (hroot : doc.kindOf root = some .document) (hfirst : doc.DoctypeFirst)
    (hid : doc.kindOf id = some .element) (hne : doc.rootElement? ≠ some id) :
    (installRoot id doc).DoctypeFirst := by
  have hr : Relinks NoDoctype doc (installRoot id doc) := by
    refine installRoot_relinks hw hroot hid hne ?_
    rw [NoDoctype, hw.kindOf_detach, hid]
    decide
  have hsub := hw.children_detach_sublist id root
  obtain ⟨l, r, hd, ⟨hlr, rfl⟩ | ⟨old, hold, hlr⟩⟩ := hw.children_installRoot hroot hid hne
  · exact (hr.doctypeFirst_iff hw hfirst hid hd (hlr ▸ hsub)).mpr (forall_mem_nil _)
  · rw [hlr] at hsub
    refine (hr.doctypeFirst_iff hw hfirst hid hd
      (((sublist_cons_self old r).append_left l).trans hsub)).mpr fun x hx => ?_
    have hold' : old ≠ id := fun he => hne (he ▸ hold)
    have hbehind := (hw.mem_behind_detach hold' hlr).mp hx
    exact hfirst.not_behind (hw.rootElement? hold).2 hbehind.1

end Xml.Document
