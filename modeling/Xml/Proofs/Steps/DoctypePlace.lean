import Xml.Proofs.Links.DoctypeOrder
import Xml.Proofs.Order.Runs
import Xml.Proofs.Steps.Shape
import Xml.Proofs.Trees.Doctype

/-!
# The place of the document type

A document is read with its document type under the document node, in front of the document element.
Operations do not keep to that. Putting a node under an element, or beside a node below one, never
asks whether that node is a document type, and putting an element beside a child of the document
node never asks whether a document type stands behind it. `Operation.MisplacesDoctype` lists these
cases, and there are no others (`doctype_stays_in_place`).

* `Operation.doctypeFirst_apply` — what every other operation keeps
* `Operation.MisplacesDoctype.not_doctypeFirst` — these operations are accepted and do the harm
* `Initial.doctypeFirst` — what every document starts with
-/

namespace Xml.Document

open Scan List

variable {doc d : Document} {op : Operation} {id p other x : NodeId} {node : NodeRef}

/-- Every document type that has a parent is a child of the document node, and comes before the
document element. -/
def DoctypeInPlace (doc : Document) : Prop :=
  ∀ x p, doc.kindOf x = some .doctype → doc.parentOf x = some p →
    p = root ∧ ∀ e, doc.rootElement? = some e →
      (doc.children root).idxOf x < (doc.children root).idxOf e

/-- The element that no document type may follow is the document element, since there is no other
at its level. -/
theorem Linked.doctypeInPlace_iff (hw : doc.Linked) (hs : doc.Shaped) :
    doc.DoctypeInPlace ↔ doc.DoctypeFirst := by
  have hnd := hw.children_nodup root
  constructor
  · intro h
    refine ⟨fun x p hx hp => (h x p hx hp).1, pairwise_iff_getElem.mpr ?_⟩
    intro i j hi hj hij hk hkx
    have he := (hs.rootElement?_eq hw).mpr ⟨getElem_mem hi, hk⟩
    have hlt := (h _ root hkx (hw.mem_children.mp (getElem_mem hj)).1).2 _ he
    rw [hnd.idxOf_getElem, hnd.idxOf_getElem] at hlt
    exact absurd hij (Nat.not_lt_of_gt hlt)
  · intro h x p hx hp
    obtain rfl := h.onTop x p hx hp
    refine ⟨rfl, fun e he => ?_⟩
    obtain ⟨hmem, hk⟩ := (hs.rootElement?_eq hw).mp he
    have hxmem : x ∈ doc.children root := hw.mem_children.mpr ⟨hp, by rw [hx]; decide⟩
    have hxlt := idxOf_lt_length_of_mem hxmem
    have helt := idxOf_lt_length_of_mem hmem
    by_contra hle
    rcases Nat.eq_or_lt_of_le (Nat.le_of_not_lt hle) with heq | hlt
    · have hsame : e = x := (idxOf_inj hmem).mp heq
      rw [hsame, hx] at hk
      cases hk
    · have hpair := pairwise_iff_getElem.mp h.order _ _ helt hxlt hlt
      rw [getElem_idxOf, getElem_idxOf] at hpair
      exact hpair hk hx

/-! ## What misplaces a document type -/

/-- The operation puts a document type where none belongs, or an element in front of one. -/
inductive Operation.MisplacesDoctype (op : Operation) (doc : Document) : Prop where
  /-- A document type is put under an element. -/
  | under {node parent : NodeRef}
      (hop : op = .setParent node parent ∧ doc.parentOf node.id = none ∨ op = .reparent node parent)
      (hnode : node.doc = doc.id) (hparent : parent.doc = doc.id)
      (hk : doc.kindOf node.id = some .doctype) (hp : doc.kindOf parent.id = some .element)
  /-- A document type is put beside a node that stands elsewhere than under the document node, or in
  its place. -/
  | beside {node other : NodeRef} {p : NodeId}
      (hop : op = .replace node other ∨ ∃ side, op = .addSibling side node other)
      (hnode : node.doc = doc.id) (hother : other.doc = doc.id)
      (hk : doc.kindOf other.id = some .doctype) (hp : doc.IsChild p node.id) (hne : p ≠ root)
  /-- An element is put among the children of the document node, in front of a document type, where
  there is no other element. -/
  | ahead {node other : NodeRef} {x : NodeId}
      (hop : (op = .replace node other ∨ ∃ side, op = .addSibling side node other) ∧
          doc.Behind node.id x ∨
        op = .addSibling .before node other ∧ node.id = x ∧ doc.IsChild root x)
      (hnode : node.doc = doc.id) (hother : other.doc = doc.id)
      (hk : doc.kindOf other.id = some .element) (hx : doc.kindOf x = some .doctype)
      (honly : ∀ e, doc.rootElement? = some e → e = other.id) (hout : ¬ doc.Ancestor other.id root)

/-- The operation copies a node that has a document type below it. -/
def Operation.CopiesDoctype (op : Operation) (doc : Document) : Prop :=
  ∃ node x, op = .duplicate node ∧ node.id ≠ root ∧ doc.Ancestor node.id x ∧
    doc.kindOf x = some .doctype

/-! ## Every other operation -/

/-- A node that may be put under another is a document type only under an element. -/
theorem doctypeFirst_placeUnder (hw : doc.Linked) (hfirst : doc.DoctypeFirst)
    (hloose : doc.parentOf id = none) (hc : checkPlacement id p doc = .ok ())
    (hno : ¬ (doc.kindOf id = some .doctype ∧ doc.kindOf p = some .element)) :
    (placeUnder id p doc).DoctypeFirst := by
  refine (hw.fits_of_checkPlacement hc).doctypeFirst_placeUnder hloose hfirst fun hk => ?_
  obtain ⟨-, -, kind, hkind, hp | ⟨-, hp⟩⟩ := checkPlacement_eq_ok hc
  · exact hno ⟨hk, hp⟩
  · obtain rfl := Option.some.inj (hkind.symm.trans hk)
    rcases hp with ⟨hp, -⟩ | hp | hp <;> cases hp

namespace Joins

variable {other : NodeRef} {gone : Option NodeId}

theorem not_doctype (h : Joins doc node other p)
    (hop : op = .replace node other ∨ ∃ side, op = .addSibling side node other)
    (htop : p = root → doc.TopLevel other.id gone) (hstill : ¬ op.MisplacesDoctype doc) :
    doc.kindOf other.id ≠ some .doctype := by
  intro hk
  by_cases hp : p = root
  · rcases htop hp with hkind | hkind | ⟨hkind, -⟩ <;> rw [hk] at hkind <;> cases hkind
  · refine hstill (.beside hop h.node_doc h.other_doc hk ⟨h.beside.parent, ?_⟩ hp)
    exact h.beside.not_attribute (by rw [hk]; decide)

/-- Behind the place of an element that is let in stands no document type. Where the element takes
the place of the document element, there is none to begin with. -/
theorem not_behind (h : Joins doc node other root) (hfirst : doc.DoctypeFirst)
    (hop : op = .replace node other ∨ ∃ side, op = .addSibling side node other)
    (hk : doc.kindOf other.id = some .element)
    (honly : ∀ e, doc.rootElement? = some e → e = other.id ∨ e = node.id)
    (hstill : ¬ op.MisplacesDoctype doc) (x : NodeId) (hx : doc.Behind node.id x) :
    doc.kindOf x ≠ some .doctype := by
  intro hkx
  refine hstill (.ahead (.inl ⟨hop, hx⟩) h.node_doc h.other_doc hk hkx (fun e he => ?_)
    fun ha => h.beside.fits.outside (.inr ha))
  refine (honly e he).resolve_right fun hnode => ?_
  exact hfirst.not_behind (hnode ▸ (h.beside.fits.linked.rootElement? he).2) hx hkx

theorem doctypeFirst_substitute (h : Joins doc node other p) (hfirst : doc.DoctypeFirst)
    (htop : p = root → doc.TopLevel other.id (some node.id))
    (hstill : ¬ (Operation.replace node other).MisplacesDoctype doc) :
    (substitute node.id p other.id doc).DoctypeFirst := by
  have hw := h.beside.fits.linked
  have hdt := h.not_doctype (.inl rfl) htop hstill
  by_cases hel : p = root ∧ doc.kindOf other.id = some .element ∧ node.id ≠ other.id
  · obtain ⟨rfl, hk, hne⟩ := hel
    refine (h.beside.doctypeFirst_substitute_iff hk hne hfirst).mpr
      (h.not_behind hfirst (.inl rfl) hk (fun e he => ?_) hstill)
    exact ((htop rfl).only hk he).imp_right Option.some.inj
  · refine Relinks.doctypeFirst (h.beside.substitute_relinks fun hne => ?_) hw hfirst
    rw [Harmless, hw.kindOf_detach]
    exact ⟨hdt, fun hp hk => hel ⟨hp, hk, hne⟩⟩

theorem doctypeFirst_placeBeside (h : Joins doc node other p) (hne : node.id ≠ other.id)
    (hfirst : doc.DoctypeFirst) (htop : p = root → doc.TopLevel other.id none) (side : Side)
    (hstill : ¬ (Operation.addSibling side node other).MisplacesDoctype doc) :
    (placeBeside side node.id p other.id doc).DoctypeFirst := by
  have hw := h.beside.fits.linked
  have hdt := h.not_doctype (.inr ⟨side, rfl⟩) htop hstill
  by_cases hel : p = root ∧ doc.kindOf other.id = some .element
  · obtain ⟨rfl, hk⟩ := hel
    have honly : ∀ e, doc.rootElement? = some e → e = other.id := fun e he =>
      ((htop rfl).only hk he).resolve_right (Option.some_ne_none e)
    refine (h.beside.doctypeFirst_placeBeside_iff hk hne hfirst side).mpr
      ⟨h.not_behind hfirst (.inr ⟨side, rfl⟩) hk (fun e he => .inl (honly e he)) hstill, ?_⟩
    rintro rfl hkn
    refine hstill (.ahead (.inr ⟨rfl, rfl, h.beside.parent, ?_⟩) h.node_doc h.other_doc hk hkn honly
      fun ha => h.beside.fits.outside (.inr ha))
    exact h.beside.not_attribute (by rw [hk]; decide)
  · refine Relinks.doctypeFirst (h.beside.placeBeside_relinks hne side ?_) hw hfirst
    rw [Harmless, hw.kindOf_detach]
    exact ⟨hdt, fun hp hk => hel ⟨hp, hk⟩⟩

end Joins

/-- A copy brings no document type with it, if there is none below the node that is copied. -/
theorem Linked.doctypeFirst_deepCopy (hw : doc.Linked) (hroot : doc.kindOf root = some .document)
    (hfirst : doc.DoctypeFirst) (hid : id < doc.size)
    (hno : ∀ x, doc.Ancestor id x → doc.kindOf x ≠ some .doctype) {copy : NodeId} {d : Document}
    (h : doc.deepCopy id = some (copy, d)) : d.DoctypeFirst := by
  refine hw.deepCopy_induction hid h ?_ fun e p x hcopies he hI hp hcon hx hkind hattr => ?_
  · obtain ⟨kind, hk⟩ := Option.ne_none_iff_exists'.mp (kindOf_ne_none hid)
    exact Relinks.doctypeFirst (copyWithAttributes_spec hw hk).2.1 hw hfirst
  · have hsome := kindOf_ne_none hx.lt_size
    refine Relinks.doctypeFirst (copyChild_relinks he hcon (hkind ▸ hsome) (hkind ▸ hattr)
      fun c hc _ => ⟨?_, fun htop => ?_⟩).1 he hI
    · rw [hc, hkind]
      exact hno x hx
    · exact absurd (lt_size_of_kindOf hroot) (Nat.not_lt.mpr (htop ▸ hp))

/-- **What every other operation keeps.** -/
theorem Operation.doctypeFirst_apply (hw : doc.Linked) (hroot : doc.kindOf root = some .document)
    (hfirst : doc.DoctypeFirst) (hstill : ¬ op.MisplacesDoctype doc)
    (hcopy : ¬ op.CopiesDoctype doc) : (op.apply doc).DoctypeFirst := by
  have kept {d : Document} (h : Relinks Harmless doc d) : d.DoctypeFirst := h.doctypeFirst hw hfirst
  cases op with
  | createElement name => exact kept (createElement_relinks name)
  | createText text => exact kept (createLeaf_relinks .text text)
  | createCData text => exact kept (createLeaf_relinks .cdata text)
  | createComment text => exact kept (createComment_relinks text)
  | setRoot node =>
    rcases setRoot_cases doc node with ⟨hd, -⟩ | ⟨-, hel, hne, hd⟩
    · rw [Operation.apply, hd]
      exact hfirst
    · rw [Operation.apply, hd]
      exact hw.doctypeFirst_installRoot hroot hfirst hel hne
  | setName node name => exact kept (setName_relinks node name)
  | setContent node text =>
    refine kept (setContent_relinks hw node text fun e id hk hel _ => ?_)
    rw [Harmless, hk]
    exact ⟨by decide, fun _ => by decide⟩
  | setAttribute node key value => exact kept (setAttribute_relinks node key value)
  | removeAttribute node key => exact kept (removeAttribute_relinks node key)
  | setParent node parent =>
    refine of_setParent hfirst fun hnode hparent hloose hc => ?_
    refine doctypeFirst_placeUnder hw hfirst hloose hc fun hunder => ?_
    exact hstill (.under (.inl ⟨rfl, hloose⟩) hnode hparent hunder.1 hunder.2)
  | reparent node parent =>
    refine hw.of_reparent hfirst fun hnode hparent hc => ?_
    refine doctypeFirst_placeUnder (hw.detach node.id) (hfirst.detach hw node.id)
      (by rw [hw.parentOf_detach, if_pos rfl]) (hw.checkPlacement_detach hc) ?_
    rw [hw.kindOf_detach, hw.kindOf_detach]
    exact fun hunder => hstill (.under (.inr rfl) hnode hparent hunder.1 hunder.2)
  | replace node other =>
    exact hw.of_replace hfirst fun p hjoins hlevel =>
      hjoins.doctypeFirst_substitute hfirst (checkLevel_eq_ok hlevel) hstill
  | unlink node => exact kept (unlink_relinks node)
  | addSibling side node other =>
    exact hw.of_addSibling hfirst fun p hjoins hne hlevel =>
      hjoins.doctypeFirst_placeBeside hne hfirst (checkLevel_eq_ok hlevel) side hstill
  | duplicate node =>
    refine of_duplicate hfirst fun n copy d hn hne hd => ?_
    refine hw.doctypeFirst_deepCopy hroot hfirst (lt_size_of_get? (owned_eq_ok hn)) ?_ hd
    exact fun x hx hk => hcopy ⟨node, x, rfl, hne, hx, hk⟩
  | unlinkAll nodes => exact kept (unlinkAll_relinks nodes)

/-! ## The operations that do harm -/

/-- Nothing stands below a document type. -/
theorem Linked.outside_doctype (hw : doc.Linked) (hk : doc.kindOf id = some .doctype)
    (hp : doc.IsContainer p) : doc.Outside id p := by
  have hcon : ¬ doc.IsContainer id := by
    rw [IsContainer, hk]
    decide
  rintro (rfl | ha)
  · exact hcon hp
  · exact hcon (ha.container hw)

/-- A document type among the children of another node than the document node. -/
theorem Relinks.not_doctypeFirst (h : Relinks Anywhere doc d) (hw : doc.Linked)
    (hk : doc.kindOf x = some .doctype) (hx : x ∈ d.children p) (hp : p ≠ root) :
    ¬ d.DoctypeFirst := fun hfirst => by
  refine hp (hfirst.onTop x p ?_ ((h.linked hw).mem_children.mp hx).1)
  rw [(h.kindOf hw).2 x (lt_size_of_kindOf hk), hk]

theorem Fits.not_doctypeFirst_placeUnder (h : Fits doc id p) (hloose : doc.parentOf id = none)
    (hk : doc.kindOf id = some .doctype) (hp : p ≠ root) :
    ¬ (placeUnder id p doc).DoctypeFirst := by
  refine Relinks.not_doctypeFirst (placeUnder_relinks h hloose trivial) h.linked hk ?_ hp
  rw [h.children_placeUnder hloose (by rw [hk]; decide)]
  exact mem_append_right _ mem_cons_self

theorem Linked.not_doctypeFirst_under {parent : NodeRef} (hw : doc.Linked)
    (hroot : doc.kindOf root = some .document)
    (hop : op = .setParent node parent ∧ doc.parentOf node.id = none ∨ op = .reparent node parent)
    (hnode : node.doc = doc.id) (hparent : parent.doc = doc.id)
    (hk : doc.kindOf node.id = some .doctype) (hp : doc.kindOf parent.id = some .element) :
    ¬ (op.apply doc).DoctypeFirst := by
  have hpne : parent.id ≠ root := fun he => by
    rw [he, hroot] at hp
    cases hp
  have hc : checkPlacement node.id parent.id doc = .ok () := by
    refine checkPlacement_of (fun he => ?_) ?_ hk (.inl hp)
    · rw [he, hroot] at hk
      cases hk
    · rw [Bool.eq_false_iff, Ne, isAncestorOrSelf_iff hw (lt_size_of_kindOf hp)]
      exact hw.outside_doctype hk (.inl hp)
  have hfits := hw.fits_of_checkPlacement hc
  rcases hop with ⟨rfl, hloose⟩ | rfl
  · rw [Operation.apply, setParent_after hnode hparent hloose hc]
    exact hfits.not_doctypeFirst_placeUnder hloose hk hpne
  · rw [Operation.apply, hw.reparent_after hnode hparent hc]
    exact (hfits.detach node.id).not_doctypeFirst_placeUnder
      (by rw [hw.parentOf_detach, if_pos rfl]) (by rw [hw.kindOf_detach, hk]) hpne

namespace Joins

variable {other : NodeRef}

/-- A document type beside a node below the level of the document element, or in its place. -/
theorem not_doctypeFirst_beside (h : Joins doc node other p)
    (hop : op = .replace node other ∨ ∃ side, op = .addSibling side node other)
    (hk : doc.kindOf other.id = some .doctype) (hp : p ≠ root) (hne : node.id ≠ other.id) :
    ¬ (op.apply doc).DoctypeFirst := by
  have hw := h.beside.fits.linked
  have hattr := h.beside.not_attribute (by rw [hk]; decide)
  rcases hop with rfl | ⟨side, rfl⟩
  · rw [Operation.apply,
      h.replace_after (checkLevel_of_ne hp _) fun he => hne (congrArg NodeRef.id he)]
    obtain ⟨l, r, -, hd⟩ := h.beside.children_substitute hattr hne
    refine Relinks.not_doctypeFirst (h.beside.substitute_relinks fun _ => trivial) hw hk ?_ hp
    rw [hd]
    exact mem_append_right _ mem_cons_self
  · rw [Operation.apply, h.addSibling_after (checkLevel_of_ne hp _) hne]
    obtain ⟨l, r, -, hd⟩ := h.beside.children_placeBeside hattr hne side
    refine Relinks.not_doctypeFirst (h.beside.placeBeside_relinks hne side trivial) hw hk ?_ hp
    rw [hd]
    split <;> simp

theorem not_doctypeFirst_ahead (h : Joins doc node other root) (hfirst : doc.DoctypeFirst)
    (hop : (op = .replace node other ∨ ∃ side, op = .addSibling side node other) ∧
        doc.Behind node.id x ∨
      op = .addSibling .before node other ∧ node.id = x)
    (hk : doc.kindOf other.id = some .element) (hx : doc.kindOf x = some .doctype)
    (honly : ∀ e, doc.rootElement? = some e → e = other.id) (hne : node.id ≠ other.id) :
    ¬ (op.apply doc).DoctypeFirst := by
  intro hafter
  have hlevel (replacing : Bool) : checkLevel node.id root other.id replacing doc = .ok () :=
    checkLevel_of_element hk honly replacing
  rcases hop with ⟨rfl | ⟨side, rfl⟩, hbehind⟩ | ⟨rfl, rfl⟩
  · rw [Operation.apply, h.replace_after (hlevel _) fun he => hne (congrArg NodeRef.id he),
      h.beside.doctypeFirst_substitute_iff hk hne hfirst] at hafter
    exact hafter x hbehind hx
  · rw [Operation.apply, h.addSibling_after (hlevel _) hne,
      h.beside.doctypeFirst_placeBeside_iff hk hne hfirst] at hafter
    exact hafter.1 x hbehind hx
  · rw [Operation.apply, h.addSibling_after (hlevel _) hne,
      h.beside.doctypeFirst_placeBeside_iff hk hne hfirst] at hafter
    exact hafter.2 rfl hx

end Joins

/-- **These operations are accepted, and misplace a document type.** -/
theorem Operation.MisplacesDoctype.not_doctypeFirst (h : op.MisplacesDoctype doc)
    (hw : doc.Linked) (hroot : doc.kindOf root = some .document) (hfirst : doc.DoctypeFirst) :
    ¬ (op.apply doc).DoctypeFirst := by
  cases h with
  | under hop hnode hparent hk hp =>
    exact hw.not_doctypeFirst_under hroot hop hnode hparent hk hp
  | beside hop hnode hother hk hp hne =>
    have hjoins := hw.joins hnode hother hp (by rw [hk]; decide) (by rw [hk]; decide)
      (hw.outside_doctype hk (hw.container _ _ hp.1))
    -- a document type that stands there already would be out of place before
    exact hjoins.not_doctypeFirst_beside hop hk hne fun he =>
      hne (hfirst.onTop _ _ (he ▸ hk) hp.1)
  | @ahead node other x hop hnode hother hk hx honly hout =>
    have hchild : doc.IsChild root node.id := by
      rcases hop with ⟨-, hbehind⟩ | ⟨-, rfl, hchild⟩
      · exact hw.isChild_of_behind hbehind
      · exact hchild
    have hjoins : Joins doc node other root := by
      refine hw.joins hnode hother hchild (by rw [hk]; decide) (by rw [hk]; decide) ?_
      rintro (he | ha)
      · rw [he, hroot] at hk
        cases hk
      · exact hout ha
    refine hjoins.not_doctypeFirst_ahead hfirst (hop.imp_right fun h => ⟨h.1, h.2.1⟩) hk hx honly ?_
    intro he
    rcases hop with ⟨-, hbehind⟩ | ⟨-, hself, -⟩
    · exact hfirst.not_behind (he ▸ hk) hbehind hx
    · rw [← hself, he, hk] at hx
      cases hx

/-! ## Reading -/

/-- Document types stand on top, and have been read before the document element. -/
structure DoctypeEarly (doc : Document) : Prop where
  onTop : ∀ p x, doc.IsChild p x → doc.kindOf x = some .doctype → p = root
  early : ∀ x y, doc.IsChild root x → doc.IsChild root y → doc.kindOf x = some .doctype →
    doc.kindOf y = some .element → x < y

namespace DoctypeEarly

theorem mono (h : doc.DoctypeEarly)
    (hchild : ∀ p c, d.IsChild p c → doc.IsChild p c ∧ d.kindOf c = doc.kindOf c) :
    d.DoctypeEarly := by
  refine ⟨fun p x hx hk => ?_, fun x y hx hy hk hky => ?_⟩
  · rw [(hchild p x hx).2] at hk
    exact h.onTop p x (hchild p x hx).1 hk
  · rw [(hchild root x hx).2] at hk
    rw [(hchild root y hy).2] at hky
    exact h.early x y (hchild root x hx).1 (hchild root y hy).1 hk hky

/-- A new document type has to come under the document node, before any element. -/
theorem gained {n : Node} (h : doc.DoctypeEarly) (hgain : Gained doc d n p)
    (hdoctype : n.kind = .doctype →
      p = root ∧ ∀ y, doc.IsChild root y → doc.kindOf y ≠ some .element) :
    d.DoctypeEarly := by
  have hnew : d.kindOf doc.size = some n.kind := by rw [hgain.kindOf, if_pos rfl]
  have old {q x : NodeId} (hx : d.IsChild q x) (hne : x ≠ doc.size) :
      doc.IsChild q x ∧ d.kindOf x = doc.kindOf x := by
    rw [IsChild, hgain.parentOf, hgain.kindOf, if_neg hne, if_neg hne] at hx
    exact ⟨hx, by rw [hgain.kindOf, if_neg hne]⟩
  refine ⟨fun q x hx hk => ?_, fun x y hx hy hk hky => ?_⟩
  · by_cases hxnew : x = doc.size
    · rw [hxnew, hnew] at hk
      have hq := hx.1
      rw [hgain.parentOf, if_pos hxnew] at hq
      exact Option.some.inj hq ▸ (hdoctype (Option.some.inj hk)).1
    · obtain ⟨hold, hkind⟩ := old hx hxnew
      exact h.onTop q x hold (hkind ▸ hk)
  · by_cases hynew : y = doc.size
    · have hxlt : x < d.size := lt_size_of_parentOf hx.1
      have hne : x ≠ doc.size := fun hxnew => by
        rw [hxnew, ← hynew, hky] at hk
        cases hk
      rw [hgain.size] at hxlt
      exact hynew ▸ Nat.lt_of_le_of_ne (Nat.le_of_lt_succ hxlt) hne
    · obtain ⟨holdy, hkindy⟩ := old hy hynew
      rw [hkindy] at hky
      by_cases hxnew : x = doc.size
      · rw [hxnew, hnew] at hk
        exact absurd hky ((hdoctype (Option.some.inj hk)).2 y holdy)
      · obtain ⟨holdx, hkindx⟩ := old hx hxnew
        exact h.early x y holdx holdy (hkindx ▸ hk) hky

/-- **Every event keeps to the order**, if the events before it allow it. -/
theorem add {i : Nat} {before : List Event} {e : Event} {b : Builder}
    (hr : Builder.Reads i before e b) (hframed : Builder.Framed before b.doc)
    (h : b.doc.DoctypeEarly) : (b.add e).doc.DoctypeEarly := by
  cases hr.grown.tells e with
  | kept he labels places opened scopes =>
    refine h.mono fun p c hc => ?_
    rw [IsChild, places.parentOf, places.kindOf] at hc
    exact ⟨hc, places.kindOf c⟩
  | child he hgain opened scopes =>
    refine h.gained hgain fun hk => ?_
    rw [hk] at he
    cases e <;> cases he
    have hnone : ∀ e' ∈ before, isStart e' = false := fun e' he' => (hr.allowed e' he').2
    constructor
    · have hopened : b.opened = [] := by
        rw [← length_eq_zero_iff, hr.depth, openAfter_eq_nil hnone]
        rfl
      rw [Builder.current, hopened]
      rfl
    · intro y hy hky
      obtain ⟨e', he', hstart⟩ := hframed.element y hy hky
      rw [hnone e' he'] at hstart
      cases hstart
  | start hinside helement hattributes opened scopes =>
    exact (h.gained helement fun hk => by cases hk).mono fun _ c hc => hattributes.isChild hc
  | close hdoc opened scopes =>
    rw [hdoc]
    exact h

theorem initial (i : Nat) : (Builder.initial i).doc.DoctypeEarly := by
  have hnone {p c : NodeId} (hc : (Builder.initial i).doc.IsChild p c) : False := by
    rw [IsChild, Builder.parentOf_initial] at hc
    cases hc.1
  exact ⟨fun p x hx => (hnone hx).elim, fun x y hx => (hnone hx).elim⟩

end DoctypeEarly

theorem Numbered.children_ascending (h : doc.Numbered) (hw : doc.Linked) (ha : doc.Acyclic) :
    (doc.children root).Pairwise (· < ·) := by
  have hall : (doc.subtreeOrder root).Pairwise (· < ·) := by
    rw [show doc.subtreeOrder root = List.range doc.size from h]
    exact pairwise_lt_range
  rw [subtreeOrder_eq hw ha, pairwise_append, pairwise_flatMap] at hall
  refine hall.2.1.2.imp fun hab => hab _ ?_ _ ?_ <;> exact hw.mem_subtreeOrder.mpr (.inl rfl)

/-- **What every document starts with.** -/
theorem Initial.doctypeFirst (h : Initial doc) : doc.DoctypeFirst := by
  obtain ⟨events, b, ⟨-, hearly⟩, hnodes⟩ := h.built
    (P := fun events b => Builder.Framed events b.doc ∧ b.doc.DoctypeEarly)
    (fun i => ⟨Builder.framed_initial i, .initial i⟩)
    fun i before e b hr hb => ⟨hb.1.add hr, .add hr hb.1 hb.2⟩
  have hplaces : SamePlaces b.doc doc := .of_nodes_eq hnodes
  have hearly : doc.DoctypeEarly := hearly.mono fun p c hc => by
    rw [IsChild, hplaces.parentOf, hplaces.kindOf] at hc
    exact ⟨hc, hplaces.kindOf c⟩
  obtain ⟨hw, -⟩ := h.run_linked []
  refine ⟨fun x p hk hp => hearly.onTop p x ⟨hp, by rw [hk]; decide⟩ hk, ?_⟩
  have hascending := h.numbered.children_ascending hw h.acyclic
  refine hascending.imp_of_mem fun ha hb hab hk hkb => ?_
  exact absurd hab (Nat.not_lt_of_gt
    (hearly.early _ _ (hw.mem_children.mp hb) (hw.mem_children.mp ha) hkb hk))

/-! ## Runs -/

theorem Initial.run_doctypeInPlace_iff (h : Initial doc) (ops : List Operation) :
    (run ops doc).DoctypeInPlace ↔ (run ops doc).DoctypeFirst :=
  (h.run_linked ops).1.doctypeInPlace_iff (h.run_shaped ops)

/-- **The place of the document type along every run.** Every document type that has a parent is a
child of the document node and comes before the document element, as long as no operation misplaces
one or copies one with a node above it. Each operation that misplaces one is accepted and puts an
end to that. (A copy can do it only once the document node itself was put below something.) -/
theorem doctype_stays_in_place (start : Document) (h : Initial start) (ops : List Operation) :
    ((∀ before op, before ++ [op] <+: ops → ¬ op.MisplacesDoctype (run before start) ∧
        ¬ op.CopiesDoctype (run before start)) →
      ∀ before, before <+: ops → (run before start).DoctypeInPlace) ∧
    ((∀ before, before <+: ops → (run before start).DoctypeInPlace) →
      ∀ before op, before ++ [op] <+: ops → ¬ op.MisplacesDoctype (run before start)) := by
  refine ⟨fun hnone before hpre => ?_, fun hall before op hpre hmisplaces => ?_⟩
  · rw [h.run_doctypeInPlace_iff]
    induction before using List.reverseRecOn with
    | nil => exact h.doctypeFirst
    | append_singleton before op ih =>
      obtain ⟨hw, hroot⟩ := h.run_linked before
      obtain ⟨hstill, hcopy⟩ := hnone before op hpre
      rw [run_append_singleton]
      exact op.doctypeFirst_apply hw hroot (ih ((List.prefix_append before [op]).trans hpre))
        hstill hcopy
  · obtain ⟨hw, hroot⟩ := h.run_linked before
    have hbefore := hall before ((List.prefix_append before [op]).trans hpre)
    have hafter := hall _ hpre
    rw [h.run_doctypeInPlace_iff] at hbefore hafter
    rw [run_append_singleton] at hafter
    exact hmisplaces.not_doctypeFirst hw hroot hbefore hafter

/-- A document type in front of an element. -/
def prologText : List Char :=
  "<!DOCTYPE r><r/>".toList

def prologBytes : List UInt8 :=
  prologText.map fun c => c.toNat.toUInt8

theorem parse_prolog :
    ∃ doc id, parse 0 prologBytes none { recover := true } .none = .ok doc ∧
      doc.kindOf id = some .doctype := by
  have hread : readDoctype " r><r/>".toList = .ok ({ name := "r" }, "<r/>".toList) := by
    decide +kernel
  have hrest : Derives [] false "<r/>".toList :=
    derives_iff_misc.mpr ⟨[], _, [], .nil, .empty (.mk ((Text.isName_iff ['r']).mp (by decide)) .nil
      nodup_nil (forall_mem_nil _) (forall_mem_nil _)), .nil, rfl⟩
  obtain ⟨hfatal, -, htold⟩ : (scanText prologText { recover := true } .none).fatal = none ∧ _ :=
    scanText_of_doctype hread hrest
  have hscan : scanBytes prologBytes none { recover := true } .none =
      scanText prologText { recover := true } .none := by
    have hdecode : Encoding.decode prologBytes none Files.none.charsets =
        .ok prologText := by decide +kernel
    have hlines : Text.normalizeNewlines prologText = prologText := by decide +kernel
    rw [scanBytes, hdecode]
    show scanText (Text.normalizeNewlines prologText) { recover := true } .none = _
    rw [hlines]
  obtain ⟨doc, hdoc⟩ : ∃ doc, ofOutcome 0 (scanText prologText { recover := true } .none) true =
      .ok doc := by
    rw [ofOutcome, hfatal]
    exact ⟨_, rfl⟩
  obtain ⟨id, hhas⟩ := hasDoctype_of_told hdoc htold
  refine ⟨doc, id, ?_, (hhas.kindOf id).mpr rfl⟩
  rw [parse, hscan]
  exact hdoc

/-- The document type is moved under an element that was made for it. -/
theorem doctype_moved_under_element :
    ∃ doc id made, parse 0 prologBytes none { recover := true } .none = .ok doc ∧
      doc.kindOf id = some .doctype ∧ made = run [.createElement "e"] doc ∧ made.DoctypeInPlace ∧
      ¬ (run [.createElement "e", .reparent ⟨made.id, id, .doctype⟩ ⟨made.id, doc.size, .element⟩]
        doc).DoctypeInPlace := by
  obtain ⟨doc, id, hparse, hid⟩ := parse_prolog
  let made := run [.createElement "e"] doc
  have hkind (x : NodeId) : made.kindOf x =
      if x = doc.size then some .element else doc.kindOf x := kindOf_alloc ..
  have hinit : Initial doc := .read hparse
  have hquiet : ∀ before, before <+: [.createElement "e"] → (run before doc).DoctypeInPlace := by
    refine (doctype_stays_in_place doc hinit ([] ++ [.createElement "e"])).1
      fun before op hpre => ?_
    obtain rfl : op = .createElement "e" := by
      rcases List.prefix_concat_iff.mp hpre with heq | hnil
      · exact List.singleton_inj.mp (List.append_inj' heq rfl).2
      · exact absurd (List.prefix_nil.mp hnil) (List.append_ne_nil_of_right_ne_nil _ (by simp))
    refine ⟨fun hmisplaces => ?_, by rintro ⟨_, _, hop, -⟩; cases hop⟩
    cases hmisplaces with
    | under hop => rcases hop with ⟨hop, -⟩ | hop <;> cases hop
    | beside hop => rcases hop with hop | ⟨_, hop⟩ <;> cases hop
    | ahead hop => rcases hop with ⟨hop | ⟨_, hop⟩, -⟩ | ⟨hop, -⟩ <;> cases hop
  refine ⟨doc, id, made, hparse, hid, rfl, hquiet _ (List.prefix_refl _), fun hafter => ?_⟩
  refine (doctype_stays_in_place doc hinit ([.createElement "e"] ++
    [.reparent ⟨made.id, id, .doctype⟩ ⟨made.id, doc.size, .element⟩])).2 (fun before hpre => ?_)
    [.createElement "e"] _ (List.prefix_refl _) (.under (.inr rfl) rfl rfl ?_ ?_)
  · rcases List.prefix_concat_iff.mp hpre with rfl | hpre
    · exact hafter
    · exact hquiet before hpre
  · exact (hkind id).trans ((if_neg (Nat.ne_of_lt (lt_size_of_kindOf hid))).trans hid)
  · exact (hkind doc.size).trans (if_pos rfl)

end Xml.Document
