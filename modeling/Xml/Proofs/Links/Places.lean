import Xml.Proofs.Links.Edits

/-!
# Where edits put nodes

The list of the children of a node after an edit put one among them, as told by the list before:
under the node as the last, in the place of a child, or beside one.
-/

namespace Xml.Document

variable {doc : Document} {id p other : NodeId}

/-- A node was put in front of another, which is then taken out. -/
theorem filter_ne_successor {l r : List NodeId} (hnd : (l ++ id :: r).Nodup) (hne : other ≠ id) :
    (l ++ other :: id :: r).filter (· ≠ id) = l ++ other :: r := by
  rw [List.nodup_middle, List.nodup_cons, List.mem_append, not_or] at hnd
  rw [List.filter_append, filter_ne_of_notMem hnd.1.1,
    List.filter_cons_of_pos (by simpa using hne), List.filter_cons_of_neg (by simp),
    filter_ne_of_notMem hnd.1.2]

/-- A detached node put under another comes behind the children that are there. -/
theorem Fits.children_placeUnder (h : Fits doc id p) (hloose : doc.parentOf id = none)
    (hk : doc.kindOf id ≠ some .attribute) :
    (placeUnder id p doc).children p = doc.children p ++ [id] := by
  have hid : doc.Loose id := ⟨hloose, h.kind, hk⟩
  have hlinked : (doc.appendChild p id).Linked :=
    (Relink.append (G := Anywhere) h.container hid trivial |>.effect h.linked).linked
  rw [placeUnder, if_neg fun ha => hk (isAttribute_iff.mp ha)]
  exact ((resolveSubtree_relabeled _ id).links.children hlinked p).trans
    (h.linked.children_appendChild h.container hid)

namespace Beside

/-- What both operations start with, for a node that is no attribute. -/
theorem children_insert (h : Beside doc id p other) (hk : doc.kindOf id ≠ some .attribute)
    (hne : id ≠ other) :
    ∃ l r, (doc.detach other).children p = l ++ id :: r ∧
      ((doc.detach other).insertBefore id other).children p = l ++ other :: id :: r ∧
      ((doc.detach other).insertAfter id other).children p = l ++ id :: other :: r ∧
      ((doc.detach other).insertBefore id other).Linked ∧
      ((doc.detach other).insertAfter id other).Linked := by
  have hw := h.fits.linked.detach other
  obtain ⟨-, -, -, hchild⟩ := h.detached
  obtain ⟨hc, hl⟩ := hchild (Bool.eq_false_iff.mpr fun ha =>
    hk ((h.fits.linked.kindOf_detach other id).symm.trans (isAttribute_iff.mp ha))) hne
  obtain ⟨l, r, hlr, hbefore, hafter⟩ := hw.children_insert hc hl
  exact ⟨l, r, hlr, hbefore, hafter,
    (Relink.before (G := Anywhere) hc hl trivial |>.effect hw).linked,
    (Relink.after (G := Anywhere) hc hl trivial |>.effect hw).linked⟩

theorem children_substitute (h : Beside doc id p other) (hk : doc.kindOf id ≠ some .attribute)
    (hne : id ≠ other) :
    ∃ l r, (doc.detach other).children p = l ++ id :: r ∧
      (substitute id p other doc).children p = l ++ other :: r := by
  obtain ⟨l, r, hlr, hbefore, -, hlinked, -⟩ := h.children_insert hk hne
  have hattr : ¬ (doc.detach other).isAttribute id = true := fun ha =>
    hk ((h.fits.linked.kindOf_detach other id).symm.trans (isAttribute_iff.mp ha))
  have hnd : (l ++ id :: r).Nodup := hlr ▸ (h.fits.linked.detach other).children_nodup p
  refine ⟨l, r, hlr, ?_⟩
  rw [substitute, if_neg hattr]
  refine ((resolveSubtree_relabeled _ other).links.children (hlinked.detach id) p).trans ?_
  rw [hlinked.children_detach, hbefore, filter_ne_successor hnd (Ne.symm hne)]

theorem children_placeBeside (h : Beside doc id p other) (hk : doc.kindOf id ≠ some .attribute)
    (hne : id ≠ other) (side : Side) :
    ∃ l r, (doc.detach other).children p = l ++ id :: r ∧
      (placeBeside side id p other doc).children p =
        if side = .before then l ++ other :: id :: r else l ++ id :: other :: r := by
  obtain ⟨l, r, hlr, hbefore, hafter, hlinked, hlinked'⟩ := h.children_insert hk hne
  have hattr : ¬ (doc.detach other).isAttribute id = true := fun ha =>
    hk ((h.fits.linked.kindOf_detach other id).symm.trans (isAttribute_iff.mp ha))
  refine ⟨l, r, hlr, ?_⟩
  rw [placeBeside, if_neg hattr]
  cases side with
  | after =>
    exact (((resolveSubtree_relabeled _ other).trans (noteAttached_relabeled _ other)).links.children
      hlinked' p).trans hafter
  | before =>
    exact (((resolveSubtree_relabeled _ other).trans (noteAttached_relabeled _ other)).links.children
      hlinked p).trans hbefore

end Beside

/-- A new document element comes where the old one stood, or behind all others. -/
theorem Linked.children_installRoot (hw : doc.Linked) (hroot : doc.kindOf root = some .document)
    (hid : doc.kindOf id = some .element) (hne : doc.rootElement? ≠ some id) :
    ∃ l r, (installRoot id doc).children root = l ++ id :: r ∧
      ((doc.detach id).children root = l ++ r ∧ r = [] ∨
        ∃ old, doc.rootElement? = some old ∧ (doc.detach id).children root = l ++ old :: r) := by
  have hw' := hw.detach id
  have hloose := hw.loose_element hid
  rw [installRoot]
  cases hold : doc.rootElement? with
  | none =>
    have hcon : (doc.detach id).IsContainer root := Or.inr (by rw [hw.kindOf_detach]; exact hroot)
    exact ⟨_, [], hw'.children_appendChild hcon hloose, Or.inl ⟨(List.append_nil _).symm, rfl⟩⟩
  | some old =>
    have hne' : old ≠ id := fun he => hne (he ▸ hold)
    have hc := (hw.rootElement? hold).1.detach hw hne'
    obtain ⟨l, r, hlr, hbefore, -⟩ := hw'.children_insert hc hloose
    have hlinked := (Relink.before (G := Anywhere) hc hloose trivial |>.effect hw').linked
    have hnd : (l ++ old :: r).Nodup := hlr ▸ hw'.children_nodup root
    refine ⟨l, r, ?_, Or.inr ⟨old, rfl, hlr⟩⟩
    rw [hlinked.children_detach, hbefore, filter_ne_successor hnd (Ne.symm hne')]

end Xml.Document
