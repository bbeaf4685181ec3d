import Xml.Proofs.Steps.Copies

/-!
# What an operation does

`Step` lists what can become of labels and places when an operation is asked for, with what the
questions of the operation have answered. Each operation is one of these steps (`Operation.step`),
so an invariant of labels and places needs a proof for each step only.
-/

namespace Xml.Document

variable {doc d e : Document} {id p other x : NodeId}

/-- Nodes were taken out, and nothing else happened. -/
structure Cut (doc d : Document) : Prop where
  labels : SameLabels doc d
  parentOf : ∀ x q, d.parentOf x = some q → doc.parentOf x = some q

/-- The node `id` may come to stand among the children of the document node, where `gone` stands no
longer. -/
def TopLevel (doc : Document) (id : NodeId) (gone : Option NodeId) : Prop :=
  doc.kindOf id = some .comment ∨ doc.kindOf id = some .instruction ∨
    doc.kindOf id = some .element ∧
      ∀ e, doc.rootElement? = some e → e = id ∨ some e = gone

theorem TopLevel.only {gone : Option NodeId} (h : doc.TopLevel id gone)
    (hk : doc.kindOf id = some .element) (he : doc.rootElement? = some x) :
    x = id ∨ some x = gone := by
  rcases h with hkind | hkind | ⟨-, honly⟩
  · rw [hk] at hkind
    cases hkind
  · rw [hk] at hkind
    cases hkind
  · exact honly x he

/-- `gone` is an attribute of `p` with the name of `id`, if `p` has one beside `id`. -/
def GivesWay (doc : Document) (id p : NodeId) : Option NodeId → Prop
  | some a => doc.IsAttributeOf p a ∧ doc.nameOf a = doc.nameOf id
  | none => ∀ a, doc.IsAttributeOf p a → a ≠ id → doc.nameOf a ≠ doc.nameOf id

/-- The node `id` has new declarations. -/
structure Redeclared (doc d : Document) (id : NodeId) : Prop where
  linked : d.Linked
  kindOf : ∀ x, d.kindOf x = doc.kindOf x
  nameOf : ∀ x, d.nameOf x = doc.nameOf x
  parentOf : ∀ x, d.parentOf x = doc.parentOf x
  labelOf : ∀ x, x ≠ id → d.labelOf x = doc.labelOf x

/-- What an operation can do to labels and places. -/
inductive Step (doc : Document) : Operation → Document → Prop where
  /-- The operation was refused, or did something that shows neither in labels nor in places. -/
  | kept {op : Operation} {d : Document} (labels : SameLabels doc d) (places : SamePlaces doc d) :
      Step doc op d
  | made {op : Operation} {node : Node} (hn : node.Unlinked) : Step doc op (doc.alloc node).2
  | renamed {node : NodeRef} {name : String} (hdoc : node.doc = doc.id)
      (hk : doc.kindOf node.id = some .element ∨ doc.kindOf node.id = some .attribute) :
      Step doc (.setName node name)
        (((doc.learn name).update node.id fun n => { n with name }).resolveNamespace node.id)
  | retitled {op : Operation} {id : NodeId} {name : String}
      (hk : doc.kindOf id = some .instruction ∨ doc.kindOf id = some .doctype) :
      Step doc op ((doc.learn name).update id fun n => { n with name })
  | cut {op : Operation} {d : Document} (h : Cut doc d) : Step doc op d
  /-- A node was asked to take its own place. -/
  | dropped {op : Operation} {d : Document} {id : NodeId} (hl : d.Linked) (h : Cut doc d) :
      Step doc op (d.resolveSubtree id)
  | filled {op : Operation} {d e : Document} {node : Node} {p : NodeId} (hcut : Cut doc d)
      (hp : doc.kindOf p = some .element) (hk : node.kind = .text) (h : Gained d e node p) :
      Step doc op e
  | attributed {op : Operation} {d : Document} {node : Node} {p : NodeId}
      (hp : doc.kindOf p = some .element) (hk : node.kind = .attribute)
      (hnew : ∀ a, doc.IsAttributeOf p a → doc.nameOf a ≠ node.name) (h : Gained doc d node p) :
      Step doc op (d.resolveNamespace doc.size)
  | declared {op : Operation} {d : Document} {id : NodeId} (hk : doc.kindOf id = some .element)
      (h : Redeclared doc d id) : Step doc op (d.resolveSubtree id)
  | under {op : Operation} {d : Document} {id p : NodeId} {gone : Option NodeId} (hid : id ≠ root)
      (hfits : Fits doc id p) (htop : p = root → doc.TopLevel id gone)
      (hgone : doc.kindOf id = some .attribute → doc.GivesWay id p gone)
      (h : Placed doc d id p gone) : Step doc op (d.resolveSubtree id)
  | replaced {d : Document} {node other : NodeRef} {p : NodeId} (hjoins : Joins doc node other p)
      (htop : p = root → doc.TopLevel other.id (some node.id))
      (h : Placed doc d other.id p (some node.id)) :
      Step doc (.replace node other) (d.resolveSubtree other.id)
  | beside {d e : Document} {side : Side} {node other : NodeRef} {p : NodeId}
      (hjoins : Joins doc node other p) (htop : p = root → doc.TopLevel other.id none)
      (h : Placed doc d other.id p none) (he : e.nodes = (d.resolveSubtree other.id).nodes) :
      Step doc (.addSibling side node other) e
  | installed {node : NodeRef} (hk : doc.kindOf node.id = some .element)
      (hne : doc.rootElement? ≠ some node.id)
      (hacc : (setRoot node).Accepted doc)
      (h : Placed doc (installRoot node.id doc) node.id root doc.rootElement?) :
      Step doc (.setRoot node) (installRoot node.id doc)
  | copied {op : Operation} {d : Document} (h : Copies doc.size doc d) : Step doc op d

theorem Step.refused (doc : Document) (op : Operation) : Step doc op doc :=
  .kept (.refl doc) (.refl doc)

/-! ## New names and new declarations -/

theorem get?_learn (doc : Document) (word : String) (x : NodeId) :
    (doc.learn word).get? x = doc.get? x := by
  rw [get?, get?, nodes_learn]

theorem parentOf_rename (doc : Document) (name : String) (id x : NodeId) :
    ((doc.learn name).update id fun n => { n with name }).parentOf x = doc.parentOf x := by
  refine (bind_get?_update_keep (·.parent) (fun n => { n with name }) (fun _ => rfl) id x).trans ?_
  rw [get?_learn]
  rfl

theorem labelOf_rename (doc : Document) (name : String) (id x : NodeId) :
    ((doc.learn name).update id fun n => { n with name }).labelOf x =
      if x = id then (doc.labelOf x).map fun l => { l with name } else doc.labelOf x := by
  rw [labelOf, get?_update, get?_learn]
  by_cases hx : x = id
  · rw [if_pos hx.symm, if_pos hx, labelOf, Option.map_map, Option.map_map]
    rfl
  · rw [if_neg (Ne.symm hx), if_neg hx, labelOf]

theorem kindOf_rename (doc : Document) (name : String) (id x : NodeId) :
    ((doc.learn name).update id fun n => { n with name }).kindOf x = doc.kindOf x := by
  rw [kindOf_eq, labelOf_rename, kindOf_eq]
  split
  · rw [Option.map_map]
    rfl
  · rfl

theorem nameOf_rename (name : String) (hid : doc.kindOf id ≠ none) (x : NodeId) :
    ((doc.learn name).update id fun n => { n with name }).nameOf x =
      if x = id then name else doc.nameOf x := by
  rw [nameOf_eq, labelOf_rename, nameOf_eq]
  by_cases hx : x = id
  · rw [if_pos hx, if_pos hx]
    rw [kindOf_eq, ne_eq, Option.map_eq_none_iff] at hid
    obtain ⟨l, hl⟩ := Option.ne_none_iff_exists'.mp hid
    rw [hx, hl]
    rfl
  · rw [if_neg hx, if_neg hx]

/-- An entry that gets new declarations. -/
theorem Linked.redeclared (hw : doc.Linked) (hd : d.nodes = doc.nodes) {g : Node → Node}
    (hframe : ∀ n, (g n).frame = n.frame) (hname : ∀ n, (g n).name = n.name) :
    Redeclared doc (d.update id g) id := by
  have hlinks : SameLinks doc (d.update id g) :=
    (SameLinks.of_nodes_eq hd).trans (.update d id g hframe)
  have hget : ∀ x, d.get? x = doc.get? x := fun x => by rw [get?, get?, hd]
  refine ⟨hlinks.linked hw, hlinks.shows.kind, fun x => ?_, hlinks.shows.parent, fun x hx => ?_⟩
  · rw [nameOf, map_get?_update_keep Node.name g hname, hget]
    rfl
  · rw [labelOf, get?_update, if_neg (Ne.symm hx), hget]
    rfl

/-! ## What the questions answer -/

/-- A node may come to stand at the level of the document element. -/
theorem checkLevel_eq_ok {replacing : Bool} (h : checkLevel id p other replacing doc = .ok ())
    (hp : p = root) : doc.TopLevel other (if replacing then some id else none) := by
  rw [checkLevel, hp, if_neg (by simp)] at h
  dsimp only at h
  split at h
  · cases h
  · next hk =>
    split at h
    · next hroot =>
      -- an element that is there already is the one that moves or the one that is replaced
      refine .inr (.inr ⟨hk, fun e he => ?_⟩)
      rw [he] at hroot
      simp only [Option.isNone_some, Bool.false_or, Bool.or_eq_true, Bool.and_eq_true, beq_iff_eq,
        Option.some_inj] at hroot
      rcases hroot with hother | ⟨hreplacing, hid⟩
      · exact .inl hother
      · exact .inr (by rw [if_pos hreplacing, hid])
    · cases h
  · next hk => exact .inl hk
  · next hk => exact .inr (.inl hk)
  · cases h

theorem givesWay_findAttribute? (hw : doc.Linked) (id p : NodeId) :
    doc.GivesWay id p ((doc.detach id).findAttribute? p (doc.nameOf id)) := by
  have hw' := hw.detach id
  have hnames := (detach_alike doc id).labels.nameOf
  have hattr : ∀ a, (doc.detach id).IsAttributeOf p a ↔ doc.IsAttributeOf p a ∧ a ≠ id := by
    intro a
    rw [IsAttributeOf, IsAttributeOf, hw.parentOf_detach, hw.kindOf_detach]
    by_cases ha : a = id
    · simp [ha]
    · simp [ha]
  cases hfind : (doc.detach id).findAttribute? p (doc.nameOf id) with
  | some a =>
    have hmem := (hw'.mem_attributes p a).mp (List.mem_of_find?_eq_some hfind)
    have hname := List.find?_some hfind
    rw [beq_iff_eq, hnames] at hname
    exact ⟨((hattr a).mp hmem).1, hname⟩
  | none =>
    intro a ha hne hname
    have hmem := (hw'.mem_attributes p a).mpr ((hattr a).mpr ⟨ha, hne⟩)
    exact List.find?_eq_none.mp hfind a hmem (beq_iff_eq.mpr ((hnames a).trans hname))

/-! ## Nodes taken out -/

theorem Cut.refl (doc : Document) : Cut doc doc := ⟨.refl doc, fun _ _ h => h⟩

theorem Cut.trans (h : Cut doc d) (h' : Cut d e) : Cut doc e :=
  ⟨h.labels.trans h'.labels, fun x q hx => h.parentOf x q (h'.parentOf x q hx)⟩

theorem Linked.cut_detach (hw : doc.Linked) (id : NodeId) : Cut doc (doc.detach id) := by
  refine ⟨(detach_alike doc id).labels, fun x q hx => ?_⟩
  rw [hw.parentOf_detach] at hx
  split at hx
  · cases hx
  · exact hx

theorem Linked.cut_removeChildren (hw : doc.Linked) (id : NodeId) :
    Cut doc (doc.removeChildren id) :=
  (removeChildren_induction id (P := fun e => Cut doc e ∧ e.Linked) ⟨.refl doc, hw⟩
    fun _ c h => ⟨h.1.trans (h.2.cut_detach c), h.2.detach c⟩).1

theorem Linked.cut_unlink (hw : doc.Linked) (node : NodeRef) :
    Cut doc ((unlink node).after doc) :=
  Edit.of_require (.refl doc) fun _ _ =>
    Edit.of_require (.refl doc) fun _ _ => hw.cut_detach node.id

theorem Linked.cut_unlinkAll (hw : doc.Linked) (s : NodeSet) : Cut doc (s.unlinkAll.after doc) := by
  -- a node leaves one place only while the links are sound, so these are carried along
  refine (Edit.of_forM (P := fun e => Cut doc e ∧ e.Linked) ⟨.refl doc, hw⟩ ?_ s.nodes).1
  rintro e node ⟨hcut, he⟩
  exact ⟨hcut.trans (he.cut_unlink node), (unlink_relinks (G := Outside) node).linked he⟩

/-! ## Every operation is a step -/

theorem setName_step (node : NodeRef) (name : String) :
    Step doc (.setName node name) ((setName node name).after doc) := by
  refine Edit.of_require (.refused doc _) fun n hn => ?_
  have hkind := kindOf_of_owned hn
  extract_lets rename
  split
  · next hk => exact .renamed (owned_doc hn) (.inl (hkind.trans (congrArg some hk)))
  · next hk => exact .renamed (owned_doc hn) (.inr (hkind.trans (congrArg some hk)))
  · next hk => exact .retitled (.inl (hkind.trans (congrArg some hk)))
  · next hk => exact .retitled (.inr (hkind.trans (congrArg some hk)))
  · exact .refused doc _

theorem setContent_step (hw : doc.Linked) (op : Operation) (node : NodeRef) (text : String) :
    Step doc op ((setContent node text).after doc) := by
  refine Edit.of_require (.refused doc _) fun n hn => ?_
  split
  · refine Edit.of_require (.refused doc _) fun _ _ => ?_
    rw [Edit.after_change]
    exact .kept (.update _ _ _ fun _ => rfl) (.update _ _ _ fun _ => rfl)
  · split
    · next hk =>
      have hcut := hw.cut_removeChildren node.id
      have hlinked := (removeChildren_relinks (G := Outside) doc node.id).linked hw
      have hkind := (kindOf_of_owned hn).trans (congrArg some (beq_iff_eq.mp hk))
      rw [Edit.after_change]
      split
      · exact .cut hcut
      · refine .filled hcut hkind rfl
          (hlinked.gained_child rfl (by simp) (.inl ?_))
        exact (hcut.labels.kindOf node.id).trans hkind
    · exact .refused doc _

theorem putAttribute_step (hw : doc.Linked) (op : Operation) (hid : doc.kindOf id = some .element)
    (key value : String) : Step doc op (putAttribute id key value doc) := by
  rw [putAttribute]
  split
  · exact .kept (.update _ _ _ fun _ => rfl) (.update _ _ _ fun _ => rfl)
  · next hfind =>
    let attr : Node := { kind := .attribute, name := key, content := value }
    have hgain : Gained doc ((doc.alloc attr).2.appendAttribute id (doc.alloc attr).1) attr id :=
      hw.gained_attribute rfl rfl hid
    show Step doc op (((doc.alloc attr).2.appendAttribute id (doc.alloc attr).1).resolveNamespace
      (doc.alloc attr).1)
    rw [alloc_fst] at hgain ⊢
    refine .attributed hid rfl (fun a ha hname => ?_) hgain
    exact List.find?_eq_none.mp hfind a ((hw.mem_attributes id a).mpr ha) (beq_iff_eq.mpr hname)

theorem declareNamespace_step (hw : doc.Linked) (op : Operation)
    (hid : doc.kindOf id = some .element) (nsPrefix uri : String) :
    Step doc op (declareNamespace id nsPrefix uri doc) := by
  rw [declareNamespace]
  exact .declared hid
    (hw.redeclared (nodes_learnDeclaration doc _) (fun _ => rfl) fun _ => rfl)

theorem setAttribute_step (hw : doc.Linked) (op : Operation) (node : NodeRef)
    (key value : String) : Step doc op ((setAttribute node key value).after doc) := by
  refine Edit.of_require (.refused doc _) fun n hn => ?_
  split
  · next hk =>
    have hkind := (kindOf_of_owned hn).trans (congrArg some (beq_iff_eq.mp hk))
    split
    · exact declareNamespace_step hw op hkind _ value
    · exact putAttribute_step hw op hkind key value
  · exact .refused doc _

theorem removeAttribute_step (hw : doc.Linked) (op : Operation) (node : NodeRef) (key : String) :
    Step doc op ((removeAttribute node key).after doc) := by
  refine Edit.of_require (.refused doc _) fun n hn => ?_
  split
  · next hk =>
    have hkind := (kindOf_of_owned hn).trans (congrArg some (beq_iff_eq.mp hk))
    split
    · rw [Edit.after_change, undeclareNamespace]
      split
      · exact .declared hkind (hw.redeclared rfl (fun _ => rfl) fun _ => rfl)
      · exact .refused doc _
    · rw [Edit.after_change]
      split
      · exact .cut (hw.cut_detach _)
      · exact .refused doc _
  · exact .refused doc _

theorem placeUnder_step (hw : doc.Linked) (op : Operation)
    (h : checkPlacement id p doc = .ok ()) (hroot : doc.kindOf root = some .document) :
    Step doc op (placeUnder id p (doc.detach id)) := by
  have hfits := hw.fits_of_checkPlacement h
  obtain ⟨hid, -, kind, hkind, hkp⟩ := checkPlacement_eq_ok h
  obtain ⟨d, hd, hplaced⟩ := (hfits.detach id).placed_under
    (by rw [hw.parentOf_detach, if_pos rfl])
  rw [hd]
  refine .under hid hfits (fun hp => ?_) (fun hattr => ?_) (.of_detach hw hplaced)
  · rcases hkp with hel | ⟨-, ⟨rfl, hnone⟩ | rfl | rfl⟩
    · rw [hp, hroot] at hel
      cases hel
    · refine .inr (.inr ⟨hkind, fun e he => ?_⟩)
      rw [hnone] at he
      cases he
    · exact .inl hkind
    · exact .inr (.inl hkind)
  · rw [if_pos (isAttribute_iff.mpr ((hw.kindOf_detach id id).trans hattr)),
      (detach_alike doc id).labels.nameOf]
    exact givesWay_findAttribute? hw id p

theorem setParent_step (hw : doc.Linked) (hroot : doc.kindOf root = some .document)
    (op : Operation) (node parent : NodeRef) :
    Step doc op ((setParent node parent).after doc) := by
  refine of_setParent (.refused doc _) fun _ _ hloose hc => ?_
  have hstep := placeUnder_step hw op hc hroot
  rwa [detach_of_loose hloose] at hstep

theorem reparent_step (hw : doc.Linked) (hroot : doc.kindOf root = some .document)
    (op : Operation) (node parent : NodeRef) :
    Step doc op ((reparent node parent).after doc) :=
  hw.of_reparent (.refused doc _) fun _ _ hc => placeUnder_step hw op hc hroot

theorem replace_step (hw : doc.Linked) (node other : NodeRef) :
    Step doc (.replace node other) ((replace node other).after doc) := by
  refine hw.of_replace (.refused doc _) fun p hjoins hlevel => ?_
  -- the references can differ in their kinds, so a node may still be put in its own place
  by_cases hne : doc.kindOf node.id = some .attribute ∨ node.id ≠ other.id
  · obtain ⟨d, hd, hplaced⟩ := hjoins.beside.placed_substitute hne
    rw [hd]
    exact .replaced hjoins (checkLevel_eq_ok hlevel) hplaced
  · obtain ⟨hattr, hself⟩ := not_or.mp hne
    have hbeside := hjoins.beside
    rw [← not_ne_iff.mp hself] at hbeside ⊢
    rw [hbeside.substitute_self hattr]
    exact .dropped (hw.detach node.id) (hw.cut_detach node.id)

theorem addSibling_step (hw : doc.Linked) (side : Side) (node other : NodeRef) :
    Step doc (.addSibling side node other) ((addSibling side node other).after doc) := by
  refine hw.of_addSibling (.refused doc _) fun p hjoins hne hlevel => ?_
  obtain ⟨d, hd, hplaced⟩ := hjoins.beside.placed_beside hne side
  rw [hd]
  exact .beside hjoins (checkLevel_eq_ok hlevel) hplaced (nodes_noteAttached ..)

theorem setRoot_step (hw : doc.Linked) (hroot : doc.kindOf root = some .document)
    (node : NodeRef) : Step doc (.setRoot node) ((setRoot node).after doc) := by
  rcases setRoot_cases doc node with ⟨hd, -⟩ | ⟨hacc, hel, hne, hd⟩
  · rw [hd]
    exact .refused doc _
  · rw [hd]
    exact .installed hel hne hacc (hw.placed_installRoot hroot hel hne)

theorem duplicate_step (hw : doc.Linked) (op : Operation) (node : NodeRef) :
    Step doc op ((duplicate node).after doc) := by
  refine of_duplicate (.refused doc _) fun n copy d hn _ hcopy =>
    .copied (deepCopy_copies hw ?_ hcopy)
  rw [kindOf_of_owned hn]
  exact Option.some_ne_none _

/-- **Every operation is a step.** -/
theorem Operation.step (hw : doc.Linked) (hroot : doc.kindOf root = some .document)
    (op : Operation) : Step doc op (op.apply doc) := by
  cases op with
  | createElement name => exact .made rfl
  | createText text => exact .made rfl
  | createCData text => exact .made rfl
  | createComment text =>
    exact Edit.of_require (.refused doc _) fun _ _ => .made rfl
  | setRoot node => exact setRoot_step hw hroot node
  | setName node name => exact setName_step node name
  | setContent node text => exact setContent_step hw _ node text
  | setAttribute node key value => exact setAttribute_step hw _ node key value
  | removeAttribute node key => exact removeAttribute_step hw _ node key
  | setParent node parent => exact setParent_step hw hroot _ node parent
  | reparent node parent => exact reparent_step hw hroot _ node parent
  | replace node other => exact replace_step hw node other
  | unlink node => exact .cut (hw.cut_unlink node)
  | addSibling side node other => exact addSibling_step hw side node other
  | duplicate node => exact duplicate_step hw _ node
  | unlinkAll nodes => exact .cut (hw.cut_unlinkAll nodes)

/-! ## When an operation is accepted -/

theorem attachedParent_of (h : doc.parentOf id = some p) : attachedParent id doc = .ok p := by
  rw [attachedParent, h]

theorem checkSibling_of (h : doc.kindOf id = some .attribute ↔ doc.kindOf other = some .attribute) :
    checkSibling id other doc = .ok () := by
  have heq : doc.isAttribute id = doc.isAttribute other := by
    rw [Bool.eq_iff_iff, isAttribute_iff, isAttribute_iff]
    exact h
  rw [checkSibling, heq, if_pos (beq_self_eq_true _)]

/-- A node beside a child, or in its place, where nothing else speaks against it. -/
theorem Linked.joins {node other : NodeRef} (hw : doc.Linked) (hnode : node.doc = doc.id)
    (hother : other.doc = doc.id) (hp : doc.IsChild p node.id) (hk : doc.kindOf other.id ≠ none)
    (hattr : doc.kindOf other.id ≠ some .attribute) (hout : doc.Outside other.id p) :
    Joins doc node other p :=
  ⟨hnode, hother, hp.1, ⟨hw, hk, hw.container p _ hp.1, fun ha => absurd ha hattr, hout⟩,
    iff_of_false hp.2 hattr⟩

theorem checkLevel_of_ne (h : p ≠ root) (replacing : Bool) :
    checkLevel id p other replacing doc = .ok () := by
  rw [checkLevel, if_pos (bne_iff_ne.mpr h)]

theorem checkLevel_of_element (hk : doc.kindOf other = some .element)
    (honly : ∀ e, doc.rootElement? = some e → e = other) (replacing : Bool) :
    checkLevel id root other replacing doc = .ok () := by
  have hroot : (doc.rootElement?.isNone || doc.rootElement? == some other) = true := by
    cases he : doc.rootElement? with
    | none => rfl
    | some e => simpa using honly e he
  simp [checkLevel, hk, hroot]

theorem setParent_after {node parent : NodeRef} (hnode : node.doc = doc.id)
    (hparent : parent.doc = doc.id) (hloose : doc.parentOf node.id = none)
    (h : checkPlacement node.id parent.id doc = .ok ()) :
    (setParent node parent).after doc = placeUnder node.id parent.id doc := by
  obtain ⟨-, -, kind, hk, hp⟩ := checkPlacement_eq_ok h
  obtain ⟨n, hn⟩ := exists_get? (lt_size_of_kindOf hk)
  obtain ⟨m, hm⟩ := exists_get? (IsContainer.lt_size (hp.imp_right And.left))
  have hnone : n.parent = none := by
    rw [parentOf, hn] at hloose
    exact hloose
  simp [setParent, Edit.after_require, owned_of_get? hnode hn, owned_of_get? hparent hm, hnone,
    attachUnder_after h]

theorem Linked.reparent_after (hw : doc.Linked) {node parent : NodeRef} (hnode : node.doc = doc.id)
    (hparent : parent.doc = doc.id) (h : checkPlacement node.id parent.id doc = .ok ()) :
    (reparent node parent).after doc = placeUnder node.id parent.id (doc.detach node.id) := by
  obtain ⟨-, -, kind, hk, hp⟩ := checkPlacement_eq_ok h
  obtain ⟨n, hn⟩ := exists_get? (lt_size_of_kindOf hk)
  obtain ⟨m, hm⟩ := exists_get? (IsContainer.lt_size (hp.imp_right And.left))
  simp [reparent, Edit.after_require, owned_of_get? hnode hn, owned_of_get? hparent hm, h,
    Edit.after_change_bind, attachUnder_after (hw.checkPlacement_detach h)]

theorem Joins.owned {node other : NodeRef} (h : Joins doc node other p) :
    (∃ n, owned node doc = .ok n) ∧ ∃ m, owned other doc = .ok m := by
  obtain ⟨n, hn⟩ := exists_get? (lt_size_of_parentOf h.beside.parent)
  obtain ⟨k, hk⟩ := Option.ne_none_iff_exists'.mp h.beside.fits.kind
  obtain ⟨m, hm⟩ := exists_get? (lt_size_of_kindOf hk)
  exact ⟨⟨n, owned_of_get? h.node_doc hn⟩, m, owned_of_get? h.other_doc hm⟩

theorem Joins.replace_after {node other : NodeRef} (h : Joins doc node other p)
    (hlevel : checkLevel node.id p other.id true doc = .ok ()) (hne : node ≠ other) :
    (replace node other).after doc = substitute node.id p other.id doc := by
  have hw := h.beside.fits.linked
  obtain ⟨⟨n, hn⟩, m, hm⟩ := h.owned
  have hout : doc.isAncestorOrSelf other.id p = false := by
    have hlt := (hw.container p _ h.beside.parent).lt_size
    rw [Bool.eq_false_iff, ne_eq, isAncestorOrSelf_iff hw hlt]
    exact h.beside.fits.outside
  have hne : (node == other) = false := beq_eq_false_iff_ne.mpr hne
  simp [replace, Edit.after_require, hn, hm, hne, attachedParent_of h.beside.parent,
    checkSibling_of h.beside.alike, hlevel, hout, Edit.after_change]

theorem Joins.addSibling_after {node other : NodeRef} (h : Joins doc node other p)
    (hlevel : checkLevel node.id p other.id false doc = .ok ()) (hne : node.id ≠ other.id)
    (side : Side) :
    (addSibling side node other).after doc = placeBeside side node.id p other.id doc := by
  have hw := h.beside.fits.linked
  have hlt := lt_size_of_parentOf h.beside.parent
  obtain ⟨⟨n, hn⟩, m, hm⟩ := h.owned
  have hout : doc.isAncestorOrSelf other.id node.id = false := by
    rw [Bool.eq_false_iff, ne_eq, isAncestorOrSelf_iff hw hlt]
    rintro (he | ha)
    · exact hne he.symm
    · exact h.beside.fits.outside (ha.of_parent h.beside.parent)
  simp [addSibling, Edit.after_require, hn, hm, attachedParent_of h.beside.parent,
    checkSibling_of h.beside.alike, hlevel, hout, Edit.after_change]

end Xml.Document
