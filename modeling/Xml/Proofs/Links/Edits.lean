import Xml.Document.Edit
import Xml.Proofs.Links.Children

/-!
# Edits as changes of the links

An edit asks its questions first and changes the document afterwards. What the questions answer is
what the changes need: a node that is put somewhere is detached, stands in the table, is of a kind
that fits and, but for one edit, does not have its new parent below it. So each edit is a sequence
of changes that put nothing below itself (`Relinks Outside`), and of changes that keep to any other
rule if the one node that the edit puts somewhere does.

The exception is `setRoot`. It never asks where the document node stands, see `installRoot_relinks`
and `Xml.Proofs.Links.Runs`.
-/

namespace Xml.Document

variable {α β : Type} {node n : Node}

variable {doc d : Document} {G : Document → NodeId → NodeId → Prop}

/-! ## Running an edit -/

namespace Edit

/-- The document after an edit, done or refused. -/
def after {α : Type} (e : Edit α) (doc : Document) : Document :=
  match e doc with
  | .ok _ d => d
  | .error _ d => d

def Accepted {α : Type} (e : Edit α) (doc : Document) : Prop :=
  ∃ a d, e doc = .ok a d

theorem after_change (f : Document → Document) (doc : Document) : (change f).after doc = f doc :=
  rfl

theorem after_change_bind (f : Document → Document) (k : Edit β) (doc : Document) :
    (change f >>= fun _ => k).after doc = k.after (f doc) :=
  rfl

theorem after_bind (e : Edit α) (k : α → Edit β) (doc : Document) :
    (e >>= k).after doc =
      match e doc with
      | .ok a d => (k a).after d
      | .error _ d => d := by
  simp only [after, bind, EStateM.bind]
  cases e doc <;> rfl

theorem after_require (check : Document → Except EditError α) (k : α → Edit β) (doc : Document) :
    (require check >>= k).after doc =
      match check doc with
      | .ok a => (k a).after doc
      | .error _ => doc := by
  simp only [after, require, bind, EStateM.bind]
  cases check doc <;> rfl

theorem require_bind_eq_ok {check : Document → Except EditError α} {k : α → Edit β} {b : β}
    (h : (require check >>= k) doc = .ok b d) : ∃ a, check doc = .ok a ∧ k a doc = .ok b d := by
  simp only [require, bind, EStateM.bind] at h
  cases hc : check doc with
  | ok a =>
    rw [hc] at h
    exact ⟨a, rfl, h⟩
  | error e =>
    rw [hc] at h
    cases h

/-- A refused question leaves the document as it is, so what is left to show is about the rest. -/
theorem of_require {check : Document → Except EditError α} {k : α → Edit β} {P : Document → Prop}
    (hdoc : P doc) (h : ∀ a, check doc = .ok a → P ((k a).after doc)) :
    P ((require check >>= k).after doc) := by
  rw [after_require]
  cases hc : check doc with
  | ok a => exact h a hc
  | error => exact hdoc

/-- What each of many edits keeps is kept by all of them, also where one is refused and ends them. -/
theorem of_forM {f : α → Edit Unit} {P : Document → Prop} (hdoc : P doc)
    (step : ∀ e a, P e → P ((f a).after e)) (as : List α) : P (after (as.forM f) doc) := by
  induction as generalizing doc with
  | nil => exact hdoc
  | cons a as ih =>
    have hone : P ((f a).after doc) := step doc a hdoc
    show P ((f a >>= fun _ => as.forM f).after doc)
    rw [after] at hone
    rw [after_bind]
    cases hf : f a doc with
    | ok _ d =>
      rw [hf] at hone
      exact ih hone
    | error _ d =>
      rw [hf] at hone
      exact hone

end Edit

/-- A reference to a node of the document leads to an entry of the table. -/
theorem owned_eq_ok {node : NodeRef} (h : owned node doc = .ok n) : doc.get? node.id = some n := by
  rw [owned, NodeRef.node?] at h
  by_cases hd : node.doc == doc.id
  · rw [if_pos hd] at h
    cases hn : doc.get? node.id with
    | none => rw [hn] at h; cases h
    | some m =>
      rw [hn] at h
      obtain rfl := Except.ok.inj h
      rfl
  · rw [if_neg hd] at h
    cases h

theorem owned_of_get? {node : NodeRef} (hdoc : node.doc = doc.id) (hn : doc.get? node.id = some n) :
    owned node doc = .ok n := by
  rw [owned, NodeRef.node?, if_pos (beq_iff_eq.mpr hdoc), hn]

theorem owned_doc {node : NodeRef} (h : owned node doc = .ok n) : node.doc = doc.id := by
  rw [owned, NodeRef.node?] at h
  by_cases hd : node.doc == doc.id
  · exact beq_iff_eq.mp hd
  · rw [if_neg hd] at h
    cases h

theorem attachedParent_eq_ok {id p : NodeId} (h : attachedParent id doc = .ok p) :
    doc.parentOf id = some p := by
  rw [attachedParent] at h
  cases hp : doc.parentOf id with
  | none => rw [hp] at h; cases h
  | some q =>
    rw [hp] at h
    rw [Except.ok.inj h]

/-! ## Changes that do not show in the links -/

theorem SameLinks.of_nodes_eq (h : d.nodes = doc.nodes) : SameLinks doc d := fun x => by
  rw [get?, get?, h]

/-- What resolving one name keeps is kept when all names of a subtree are resolved. -/
theorem resolveSubtree_induction {P : Document → Prop} (hdoc : P doc)
    (step : ∀ e x, P e → P (e.resolveNamespace x)) (id : NodeId) : P (doc.resolveSubtree id) := by
  refine List.foldlRecOn (motive := P) _ _ hdoc fun e he x _ => ?_
  split
  · split
    · exact List.foldlRecOn (motive := P) _ _ (step e x he) fun e he a _ => step e a he
    · split
      · exact step e x he
      · exact he
  · exact he

theorem resolveNamespace_relabeled (doc : Document) (id : NodeId) :
    Relabeled doc (doc.resolveNamespace id) :=
  .update doc id (fun n => { n with namespaceUri := doc.namespaceInScope id }) fun _ => rfl

theorem resolveSubtree_relabeled (doc : Document) (id : NodeId) :
    Relabeled doc (doc.resolveSubtree id) :=
  resolveSubtree_induction (P := Relabeled doc) (.refl doc)
    (fun e x h => h.trans (resolveNamespace_relabeled e x)) id

theorem noteAttached_relabeled (doc : Document) (id : NodeId) :
    Relabeled doc (doc.noteAttached id) := by
  rw [noteAttached]
  split <;> exact ⟨.of_nodes_eq rfl, rfl⟩

theorem declareNamespace_relabeled (doc : Document) (id : NodeId) (nsPrefix uri : String) :
    Relabeled doc (doc.declareNamespace id nsPrefix uri) := by
  rw [declareNamespace]
  refine (Relabeled.learnDeclaration doc ⟨nsPrefix, uri⟩).trans
    (Relabeled.trans ?_ (resolveSubtree_relabeled _ id))
  exact .update _ id _ fun _ => rfl

theorem undeclareNamespace_relabeled (doc : Document) (id : NodeId) (nsPrefix : String) :
    Relabeled doc (doc.undeclareNamespace id nsPrefix) := by
  rw [undeclareNamespace]
  split
  · refine Relabeled.trans ?_ (resolveSubtree_relabeled _ id)
    exact .update _ id _ fun _ => rfl
  · exact .refl doc

/-! ## What the questions answer -/

theorem isAttribute_iff {id : NodeId} :
    doc.isAttribute id = true ↔ doc.kindOf id = some .attribute := by
  rw [isAttribute, beq_iff_eq]

/-- A node may be put under another: it is no ancestor of it, and their kinds fit. -/
theorem checkPlacement_eq_ok {id p : NodeId} (h : checkPlacement id p doc = .ok ()) :
    id ≠ root ∧ doc.isAncestorOrSelf id p = false ∧
      ∃ kind, doc.kindOf id = some kind ∧
        (doc.kindOf p = some .element ∨
          doc.kindOf p = some .document ∧
            (kind = .element ∧ doc.rootElement? = none ∨ kind = .comment ∨
              kind = .instruction)) := by
  unfold checkPlacement at h
  split at h
  · cases h
  · next hroot =>
    split at h
    · cases h
    · next hanc =>
      refine ⟨fun he => hroot (beq_iff_eq.mpr he), Bool.eq_false_iff.mpr hanc, ?_⟩
      split at h
      · cases h
      · next kind hk =>
        refine ⟨kind, hk, ?_⟩
        split at h
        · next hp => exact Or.inl hp
        · next hp =>
          split at h
          · cases h
          · next hnone => exact Or.inr ⟨hp, Or.inl ⟨rfl, by simpa using hnone⟩⟩
        · next hp => exact Or.inr ⟨hp, Or.inr (Or.inl rfl)⟩
        · next hp => exact Or.inr ⟨hp, Or.inr (Or.inr rfl)⟩
        · cases h

theorem checkPlacement_of {id p : NodeId} {kind : NodeKind} (hid : id ≠ root)
    (hanc : doc.isAncestorOrSelf id p = false) (hk : doc.kindOf id = some kind)
    (hp : doc.kindOf p = some .element ∨
      doc.kindOf p = some .document ∧
        (kind = .element ∧ doc.rootElement? = none ∨ kind = .comment ∨ kind = .instruction)) :
    checkPlacement id p doc = .ok () := by
  rw [checkPlacement, if_neg (by simpa using hid), if_neg (by simp [hanc]), hk]
  rcases hp with hp | ⟨hp, ⟨rfl, hnone⟩ | rfl | rfl⟩
  · simp [hp]
  · simp [hp, hnone]
  · simp [hp]
  · simp [hp]

theorem checkSibling_eq_ok {id other : NodeId} (h : checkSibling id other doc = .ok ()) :
    doc.kindOf id = some .attribute ↔ doc.kindOf other = some .attribute := by
  unfold checkSibling at h
  split at h
  · next he =>
    rw [← isAttribute_iff, ← isAttribute_iff, beq_iff_eq.mp he]
  · cases h

/-! ## Putting nodes into place -/

theorem Relinks.same (h : Relabeled doc d) : Relinks G doc d :=
  .single (.same h)

theorem Outside.mono {id p : NodeId} (h : doc.Outside id p)
    (hp : ∀ x q, d.parentOf x = some q → doc.parentOf x = some q) : d.Outside id p := by
  rintro (rfl | ha)
  · exact h (Or.inl rfl)
  · exact h (Or.inr (ha.mono hp))

theorem IsChild.detach {p c x : NodeId} (h : doc.IsChild p c) (hw : doc.Linked) (hne : c ≠ x) :
    (doc.detach x).IsChild p c := by
  rw [IsChild, hw.parentOf_detach, if_neg hne, hw.kindOf_detach]
  exact h

/-- A node that was taken out can be put anywhere. -/
theorem Linked.loose_detach (hw : doc.Linked) {id : NodeId} (hk : doc.kindOf id ≠ none)
    (hattr : doc.kindOf id ≠ some .attribute) : (doc.detach id).Loose id := by
  rw [Loose, hw.parentOf_detach, if_pos rfl, hw.kindOf_detach]
  exact ⟨rfl, hk, hattr⟩

/-- What is known of a node and the place it is to be put under. -/
structure Fits (doc : Document) (id p : NodeId) : Prop where
  linked : doc.Linked
  kind : doc.kindOf id ≠ none
  container : doc.IsContainer p
  owner : doc.kindOf id = some .attribute → doc.kindOf p = some .element
  outside : doc.Outside id p

theorem Fits.detach {id p : NodeId} (h : Fits doc id p) (x : NodeId) :
    Fits (doc.detach x) id p := by
  obtain ⟨hl, -, hk, hp⟩ := h.linked.detach_spec x
  refine ⟨hl, ?_, ?_, ?_, h.outside.mono fun y q hy => ?_⟩
  · rw [hk]; exact h.kind
  · rw [IsContainer, hk]; exact h.container
  · rw [hk, hk]; exact h.owner
  · rw [hp] at hy
    split at hy
    · cases hy
    · exact hy

theorem placeUnder_relinks {id p : NodeId} (h : Fits doc id p) (hloose : doc.parentOf id = none)
    (hg : G doc id p) : Relinks G doc (placeUnder id p doc) := by
  rw [placeUnder]
  refine Relation.ReflTransGen.tail ?_ (.same (resolveSubtree_relabeled _ id))
  split
  · next hattr =>
    have hattr := isAttribute_iff.mp hattr
    split
    · next x _ =>
      -- the attribute of the same name goes first
      refine .tail (.single (.detach doc x)) (.attr _ ?_ ?_ ?_)
      · rw [h.linked.kindOf_detach]; exact h.owner hattr
      · rw [h.linked.kindOf_detach]; exact hattr
      · rw [h.linked.parentOf_detach, hloose, ite_self]
    · exact .single (.attr _ (h.owner hattr) hattr hloose)
  · next hattr =>
    exact .single (.append h.container
      ⟨hloose, h.kind, fun hk => hattr (isAttribute_iff.mpr hk)⟩ hg)

/-- A node that is asked to stand beside or in the place of another, which has the parent `p`. -/
structure Beside (doc : Document) (id p other : NodeId) : Prop where
  parent : doc.parentOf id = some p
  fits : Fits doc other p
  alike : doc.kindOf id = some .attribute ↔ doc.kindOf other = some .attribute

/-- What is known of a node that is put beside another or in its place. -/
structure Joins (doc : Document) (node other : NodeRef) (p : NodeId) : Prop where
  node_doc : node.doc = doc.id
  other_doc : other.doc = doc.id
  beside : Beside doc node.id p other.id

namespace Beside

variable {id p other : NodeId}

/-- What both operations start with: the node is taken out from where it stands. -/
theorem detached (h : Beside doc id p other) :
    (doc.detach other).parentOf other = none ∧ Fits (doc.detach other) other p ∧
      ((doc.detach other).isAttribute id = true →
        (doc.detach other).kindOf p = some .element ∧
          (doc.detach other).kindOf other = some .attribute) ∧
      ((doc.detach other).isAttribute id = false → id ≠ other →
        (doc.detach other).IsChild p id ∧ (doc.detach other).Loose other) := by
  have hw := h.fits.linked
  have hnone : (doc.detach other).parentOf other = none := by
    rw [hw.parentOf_detach, if_pos rfl]
  refine ⟨hnone, h.fits.detach other, fun hattr => ?_, fun hattr hne => ?_⟩
  · rw [isAttribute_iff, hw.kindOf_detach] at hattr
    rw [hw.kindOf_detach, hw.kindOf_detach]
    exact ⟨hw.owner p id ⟨h.parent, hattr⟩, h.alike.mp hattr⟩
  · have hattr : doc.kindOf id ≠ some .attribute := by
      rw [← hw.kindOf_detach other]
      exact fun hk => Bool.eq_false_iff.mp hattr (isAttribute_iff.mpr hk)
    exact ⟨IsChild.detach ⟨h.parent, hattr⟩ hw hne,
      hw.loose_detach h.fits.kind fun hk => hattr (h.alike.mpr hk)⟩

theorem substitute_relinks (h : Beside doc id p other)
    (hg : id ≠ other → G (doc.detach other) other p) :
    Relinks G doc (substitute id p other doc) := by
  obtain ⟨hnone, hf, hattr, hchild⟩ := h.detached
  rw [substitute]
  refine Relation.ReflTransGen.tail ?_ (.same (resolveSubtree_relabeled _ other))
  refine Relation.ReflTransGen.head (.detach doc other) ?_
  split
  · next ha =>
    obtain ⟨hp, hk⟩ := hattr ha
    refine .tail (.single (.detach _ id)) (.attr _ ?_ ?_ ?_)
    · rw [hf.linked.kindOf_detach]; exact hp
    · rw [hf.linked.kindOf_detach]; exact hk
    · rw [hf.linked.parentOf_detach, hnone, ite_self]
  · next ha =>
    refine .tail ?_ (.detach _ id)
    by_cases hne : id = other
    · -- a node in its own place: it was taken out above, and nothing is put anywhere
      rw [insertBefore, hne, hnone]
    · obtain ⟨hc, hl⟩ := hchild (Bool.eq_false_iff.mpr ha) hne
      exact .single (.before hc hl (hg hne))

theorem placeBeside_relinks (h : Beside doc id p other) (hne : id ≠ other) (side : Side)
    (hg : G (doc.detach other) other p) : Relinks G doc (placeBeside side id p other doc) := by
  obtain ⟨hnone, -, hattr, hchild⟩ := h.detached
  rw [placeBeside]
  refine Relation.ReflTransGen.tail ?_ (.same (noteAttached_relabeled _ other))
  refine Relation.ReflTransGen.tail ?_ (.same (resolveSubtree_relabeled _ other))
  refine Relation.ReflTransGen.head (.detach doc other) ?_
  split
  · next ha =>
    obtain ⟨hp, hk⟩ := hattr ha
    exact .single (.attr _ hp hk hnone)
  · next ha =>
    obtain ⟨hc, hl⟩ := hchild (Bool.eq_false_iff.mpr ha) hne
    split
    · exact .single (.after hc hl hg)
    · exact .single (.before hc hl hg)

end Beside

/-! ## New nodes put into place -/

theorem parentOf_alloc (h : node.Unlinked) (x : NodeId) :
    (doc.alloc node).2.parentOf x = doc.parentOf x :=
  bind_get?_alloc h (·.parent) (fun _ => rfl) x

/-- Nothing stands below a number that is not in the table. -/
theorem Linked.outside_of_size_le (hw : doc.Linked) {id p : NodeId} (hid : doc.size ≤ id)
    (hp : p < doc.size) : doc.Outside id p := by
  rintro (rfl | ha)
  · exact absurd hp (Nat.not_lt.mpr hid)
  · exact absurd (ha.container hw).lt_size (Nat.not_lt.mpr hid)

/-- What is new in a document after `alloc`: a node of that kind, without a parent. -/
theorem kindOf_parentOf_new (doc : Document) (h : node.Unlinked) :
    (doc.alloc node).2.kindOf doc.size = some node.kind ∧
      (doc.alloc node).2.parentOf doc.size = none := by
  refine ⟨by rw [kindOf_alloc, if_pos rfl], ?_⟩
  rw [parentOf_alloc h, parentOf, get?_eq_none (Nat.le_refl _)]
  rfl

theorem loose_new (hn : node.Unlinked) (hk : node.kind ≠ .attribute) :
    (doc.alloc node).2.Loose doc.size := by
  obtain ⟨hkind, hnone⟩ := kindOf_parentOf_new doc hn
  refine ⟨hnone, ?_, ?_⟩ <;> rw [hkind]
  · exact Option.some_ne_none _
  · exact fun he => hk (Option.some.inj he)

theorem Linked.outside_new (hw : doc.Linked) {p : NodeId} (hn : node.Unlinked)
    (hp : doc.IsContainer p) : (doc.alloc node).2.Outside doc.size p := by
  refine (hw.outside_of_size_le (Nat.le_refl _) hp.lt_size).mono fun x q hx => ?_
  rwa [parentOf_alloc hn] at hx

/-- A new node becomes the last child of a container. -/
theorem Linked.append_new (hw : doc.Linked) {p : NodeId} (hn : node.Unlinked)
    (hk : node.kind ≠ .attribute) (hp : doc.IsContainer p) (hg : G (doc.alloc node).2 doc.size p) :
    Relinks G doc ((doc.alloc node).2.appendChild p (doc.alloc node).1) ∧
      ((doc.alloc node).2.appendChild p (doc.alloc node).1).kindOf (doc.alloc node).1 =
        some node.kind := by
  have hkind := (kindOf_parentOf_new doc hn).1
  rw [alloc_fst]
  have happend : Relink G (doc.alloc node).2 ((doc.alloc node).2.appendChild p doc.size) :=
    .append hp.alloc (loose_new hn hk) hg
  refine ⟨.tail (.single (.alloc doc hn)) happend, ?_⟩
  exact ((happend.effect (hw.alloc hn)).kind _ (lt_size_of_kindOf hkind)).trans hkind

theorem append_new_attribute {p : NodeId} (hn : node.Unlinked) (hk : node.kind = .attribute)
    (hp : doc.kindOf p = some .element) :
    Relinks G doc ((doc.alloc node).2.appendAttribute p (doc.alloc node).1) := by
  obtain ⟨hkind, hnone⟩ := kindOf_parentOf_new doc hn
  rw [alloc_fst]
  refine .tail (.single (.alloc doc hn)) (.attr _ ?_ (hk ▸ hkind) hnone)
  rwa [kindOf_alloc_of_lt (lt_size_of_kindOf hp)]

theorem putAttribute_relinks {id : NodeId} (hid : doc.kindOf id = some .element)
    (key value : String) : Relinks G doc (putAttribute id key value doc) := by
  rw [putAttribute]
  split
  · exact .same (.update _ _ _ fun _ => rfl)
  · refine .tail ?_ (.same (resolveNamespace_relabeled _ _))
    exact append_new_attribute rfl rfl hid

/-! ## Children taken out, and a new document element -/

/-- What detaching keeps is kept when the children are taken out. -/
theorem removeChildren_induction {P : Document → Prop} (id : NodeId) (hdoc : P doc)
    (hdetach : ∀ e c, P e → P (e.detach c)) : P (doc.removeChildren id) := by
  rw [removeChildren]
  generalize doc.size = rounds
  induction rounds generalizing doc with
  | zero => exact hdoc
  | succ rounds ih =>
    rw [removeFirst]
    split
    · next c _ => exact ih (hdetach doc c hdoc)
    · exact hdoc

theorem removeChildren_relinks (doc : Document) (id : NodeId) :
    Relinks G doc (doc.removeChildren id) :=
  removeChildren_induction id .refl fun e c h => h.tail (.detach e c)

theorem Linked.rootElement? (hw : doc.Linked) {e : NodeId} (h : doc.rootElement? = some e) :
    doc.IsChild root e ∧ doc.kindOf e = some .element := by
  rw [Document.rootElement?] at h
  have he := List.find?_some h
  rw [isElement, beq_iff_eq] at he
  exact ⟨hw.mem_children.mp (List.mem_of_find?_eq_some h), he⟩

/-- Where nothing new stands below the document node, there is no new document element. -/
theorem Linked.rootElement?_eq_none (hw : d.Linked) (h : doc.rootElement? = none)
    (hdoc : doc.Linked) (hchild : ∀ c, d.IsChild root c → doc.IsChild root c)
    (hkind : ∀ c, d.kindOf c = doc.kindOf c) : d.rootElement? = none := by
  rw [Option.eq_none_iff_forall_ne_some]
  intro e he
  obtain ⟨hc, hel⟩ := hw.rootElement? he
  rw [Document.rootElement?, List.find?_eq_none] at h
  refine h e (hdoc.mem_children.mpr (hchild e hc)) ?_
  rw [isElement, ← hkind e, hel, beq_self_eq_true]

theorem Linked.loose_element (hw : doc.Linked) {id : NodeId} (hid : doc.kindOf id = some .element) :
    (doc.detach id).Loose id :=
  hw.loose_detach (by rw [hid]; decide) (by rw [hid]; decide)

/-- An element becomes the document element. Where it is put is the one thing that nobody asked
about. -/
theorem installRoot_relinks (hw : doc.Linked) (hroot : doc.kindOf root = some .document)
    {id : NodeId} (hid : doc.kindOf id = some .element) (hne : doc.rootElement? ≠ some id)
    (hg : G (doc.detach id) id root) : Relinks G doc (installRoot id doc) := by
  rw [installRoot]
  split
  · next old hold =>
    have hne' : old ≠ id := fun he => hne (he ▸ hold)
    have hc := (hw.rootElement? hold).1.detach hw hne'
    exact .tail (.tail (.single (.detach doc id)) (.before hc (hw.loose_element hid) hg))
      (.detach _ old)
  · refine .tail (.single (.detach doc id)) (.append (Or.inr ?_) (hw.loose_element hid) hg)
    rw [hw.kindOf_detach]
    exact hroot

end Xml.Document
