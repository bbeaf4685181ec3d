import Xml.Proofs.Steps.Basic
import Xml.Proofs.Steps.Reading

/-!
# The names of attributes

No element that was read has two attributes of one name, and the operations that add an attribute to
an element or move one there see to it that it stays so: an attribute of the same name is given the
new value, or gives way. Three operations do not look. Renaming an attribute, putting one in the
place of another and putting one beside another repeat a name exactly if the element has another
attribute of that name (`Operation.uniqueNames_apply_iff`).
-/

namespace Xml.Document

open Scan

variable {doc d : Document} {op : Operation} {id p : NodeId}

/-- No element has two attributes of one name. -/
def UniqueNames (doc : Document) : Prop :=
  ∀ p a b, doc.IsAttributeOf p a → doc.IsAttributeOf p b → doc.nameOf a = doc.nameOf b → a = b

/-- The operation gives an attribute of `p` a name, or puts an attribute with a name on `p`, that
another attribute has which stays there. -/
inductive Operation.Collides (doc : Document) : Operation → Prop where
  | rename {node : NodeRef} {name : String} {p a : NodeId} (hnode : node.doc = doc.id)
      (hp : doc.IsAttributeOf p node.id) (ha : doc.IsAttributeOf p a) (hne : a ≠ node.id)
      (hname : doc.nameOf a = name) : Collides doc (.setName node name)
  | replace {node other : NodeRef} {p a : NodeId} (hnode : node.doc = doc.id)
      (hother : other.doc = doc.id) (hp : doc.IsAttributeOf p node.id)
      (hk : doc.kindOf other.id = some .attribute) (ha : doc.IsAttributeOf p a)
      (hne : a ≠ node.id) (hne' : a ≠ other.id) (hname : doc.nameOf a = doc.nameOf other.id) :
      Collides doc (.replace node other)
  | beside {side : Side} {node other : NodeRef} {p a : NodeId} (hnode : node.doc = doc.id)
      (hother : other.doc = doc.id) (hp : doc.IsAttributeOf p node.id)
      (hk : doc.kindOf other.id = some .attribute) (ha : doc.IsAttributeOf p a)
      (hne : a ≠ other.id) (hname : doc.nameOf a = doc.nameOf other.id) :
      Collides doc (.addSibling side node other)

theorem Linked.uniqueNames_iff (hw : doc.Linked) :
    doc.UniqueNames ↔ ∀ p, ((doc.attributesOf p).map doc.nameOf).Nodup := by
  refine forall_congr' fun p => ?_
  rw [List.nodup_map_iff_inj_on (hw.attributes_nodup p)]
  simp only [hw.mem_attributes]
  exact ⟨fun h a ha b hb => h a b ha hb, fun h a b ha hb => h a ha b hb⟩

/-! ## Changes -/

/-- Attributes that stay where they are with the names they have are no cause of repetition. -/
theorem UniqueNames.mono (hu : doc.UniqueNames)
    (h : ∀ p a, d.IsAttributeOf p a → doc.IsAttributeOf p a ∧ d.nameOf a = doc.nameOf a) :
    d.UniqueNames := by
  intro p a b ha hb hname
  rw [(h p a ha).2, (h p b hb).2] at hname
  exact hu p a b (h p a ha).1 (h p b hb).1 hname

/-- One attribute that comes there or is renamed is no cause either, if its name is new there. -/
theorem UniqueNames.insert (hu : doc.UniqueNames) (id : NodeId)
    (h : ∀ p a, d.IsAttributeOf p a → a ≠ id →
      doc.IsAttributeOf p a ∧ d.nameOf a = doc.nameOf a)
    (hnew : ∀ p a, d.IsAttributeOf p id → d.IsAttributeOf p a → a ≠ id →
      d.nameOf a ≠ d.nameOf id) : d.UniqueNames := by
  intro p a b ha hb hname
  by_cases hai : a = id
  · by_contra hne
    exact hnew p b (hai ▸ ha) hb (fun hbi => hne (hai.trans hbi.symm)) (hai ▸ hname.symm)
  · by_cases hbi : b = id
    · exact absurd (hbi ▸ hname) (hnew p a (hbi ▸ hb) ha hai)
    · rw [(h p a ha hai).2, (h p b hb hbi).2] at hname
      exact hu p a b (h p a ha hai).1 (h p b hb hbi).1 hname

theorem UniqueNames.of_places (hu : doc.UniqueNames) (h : SamePlaces doc d) : d.UniqueNames := by
  refine hu.mono fun p a ha => ?_
  rw [IsAttributeOf, h.parentOf, h.kindOf] at ha
  exact ⟨ha, h.nameOf a⟩

theorem UniqueNames.cut (hu : doc.UniqueNames) (h : Cut doc d) : d.UniqueNames := by
  refine hu.mono fun p a ha => ⟨⟨h.parentOf a p ha.1, ?_⟩, h.labels.nameOf a⟩
  rw [← h.labels.kindOf]
  exact ha.2

theorem UniqueNames.placed {gone : Option NodeId} (hu : doc.UniqueNames)
    (h : Placed doc d id p gone)
    (hnew : doc.kindOf id = some .attribute → ∀ a, doc.IsAttributeOf p a → a ≠ id →
      some a ≠ gone → doc.nameOf a ≠ doc.nameOf id) : d.UniqueNames := by
  have old : ∀ q a, d.IsAttributeOf q a → a ≠ id → doc.IsAttributeOf q a ∧ some a ≠ gone := by
    intro q a ha hne
    rw [IsAttributeOf, h.parentOf, h.labels.kindOf, if_neg hne] at ha
    obtain ⟨hp, hk⟩ := ha
    split at hp
    · cases hp
    · next hgone => exact ⟨⟨hp, hk⟩, hgone⟩
  refine hu.insert id (fun q a ha hne => ⟨(old q a ha hne).1, h.labels.nameOf a⟩)
    fun q a hid ha hne => ?_
  rw [IsAttributeOf, h.parentOf, if_pos rfl, h.labels.kindOf] at hid
  obtain rfl := Option.some.inj hid.1
  rw [h.labels.nameOf, h.labels.nameOf]
  exact hnew hid.2 a (old _ a ha hne).1 hne (old _ a ha hne).2

theorem UniqueNames.gained {node : Node} (hu : doc.UniqueNames) (h : Gained doc d node p)
    (hnew : node.kind = .attribute → ∀ a, doc.IsAttributeOf p a → doc.nameOf a ≠ node.name) :
    d.UniqueNames := by
  have old : ∀ q a, d.IsAttributeOf q a → a ≠ doc.size → doc.IsAttributeOf q a := by
    intro q a ha hne
    rwa [IsAttributeOf, h.parentOf, h.kindOf, if_neg hne, if_neg hne] at ha
  refine hu.insert doc.size (fun q a ha hne => ⟨old q a ha hne, ?_⟩) fun q a hid ha hne => ?_
  · rw [h.nameOf, if_neg hne]
  · rw [IsAttributeOf, h.parentOf, h.kindOf, if_pos rfl, if_pos rfl] at hid
    obtain rfl := Option.some.inj hid.1
    rw [h.nameOf, h.nameOf, if_neg hne, if_pos rfl]
    exact hnew (Option.some.inj hid.2) a (old _ a ha hne)

/-- Attributes that are named differently, added to an element that has none of these names. -/
theorem UniqueNames.equipped {as : List Node} (hu : doc.UniqueNames) (h : Equipped p as doc d)
    (hnd : (as.map Node.name).Nodup)
    (hnew : ∀ a, doc.IsAttributeOf p a → doc.nameOf a ∉ as.map Node.name) : d.UniqueNames := by
  induction h with
  | nil doc => exact hu
  | @cons a as doc d e ha h rest ih =>
    obtain ⟨hout, hnd⟩ := List.nodup_cons.mp hnd
    refine ih (hu.gained h fun _ b hb he => ?_) hnd fun b hb => ?_
    · exact hnew b hb (he ▸ List.mem_cons_self)
    · rw [IsAttributeOf, h.parentOf, h.kindOf] at hb
      rw [h.nameOf]
      by_cases hx : b = doc.size
      · rw [if_pos hx]
        exact hout
      · rw [if_neg hx, if_neg hx] at hb
        rw [if_neg hx]
        exact fun hm => hnew b hb (List.mem_cons_of_mem _ hm)

theorem UniqueNames.alloc (hu : doc.UniqueNames) {node : Node} (hn : node.Unlinked) :
    (doc.alloc node).2.UniqueNames := by
  refine hu.mono fun p a ha => ?_
  have hp : doc.parentOf a = some p := (parentOf_alloc hn a).symm.trans ha.1
  have hlabel : (doc.alloc node).2.labelOf a = doc.labelOf a := by
    rw [labelOf_alloc, if_neg (Nat.ne_of_lt (lt_size_of_parentOf hp))]
  rw [nameOf_eq, nameOf_eq, hlabel]
  refine ⟨⟨hp, ?_⟩, rfl⟩
  rw [kindOf_eq, ← hlabel, ← kindOf_eq]
  exact ha.2

theorem UniqueNames.copying {base : Nat} (hu : doc.UniqueNames) (hw : doc.Linked)
    (h : Copying base doc d) : d.UniqueNames := by
  cases h with
  | @node id n as hbase hn has h =>
    refine (hu.alloc n.unlinked_unlink).equipped h ?_ fun a ha => ?_
    · rw [has]
      exact hw.uniqueNames_iff.mp hu id
    · -- the copy has no attributes yet
      have hp : doc.parentOf a = some doc.size :=
        (parentOf_alloc n.unlinked_unlink a).symm.trans ha.1
      exact absurd (hw.container _ a hp).lt_size (Nat.lt_irrefl _)
  | child hid hp hk h => exact hu.placed h fun hattr => absurd hattr hk

theorem UniqueNames.copies {base : Nat} (hu : doc.UniqueNames) (hw : doc.Linked)
    (h : Copies base doc d) : d.UniqueNames := by
  have hboth : d.Linked ∧ d.UniqueNames := by
    induction h with
    | refl => exact ⟨hw, hu⟩
    | tail _ hstep ih => exact ⟨hstep.linked ih.1, ih.2.copying ih.1 hstep⟩
  exact hboth.2

theorem UniqueNames.renamed {name : String} (hu : doc.UniqueNames) (hid : doc.kindOf id ≠ none)
    (hnew : ∀ p a, doc.IsAttributeOf p id → doc.IsAttributeOf p a → a ≠ id →
      doc.nameOf a ≠ name) :
    ((doc.learn name).update id fun n => { n with name }).UniqueNames := by
  have same (p a : NodeId) :
      ((doc.learn name).update id fun n => { n with name }).IsAttributeOf p a ↔
        doc.IsAttributeOf p a := by
    rw [IsAttributeOf, IsAttributeOf, parentOf_rename, kindOf_rename]
  refine hu.insert id (fun p a ha hne => ⟨(same p a).mp ha, ?_⟩) fun p a hp ha hne => ?_
  · rw [nameOf_rename name hid, if_neg hne]
  · rw [nameOf_rename name hid, nameOf_rename name hid, if_neg hne, if_pos rfl]
    exact hnew p a ((same p id).mp hp) ((same p a).mp ha) hne

/-! ## One operation -/

/-- **Every operation keeps the names apart, but for the cases of `Operation.Collides`.** -/
theorem Step.uniqueNames (h : Step doc op d) (hw : doc.Linked) (hu : doc.UniqueNames)
    (hnone : ¬ op.Collides doc) : d.UniqueNames := by
  cases h with
  | kept labels places => exact hu.of_places places
  | made hn => exact hu.alloc hn
  | @renamed node name hdoc hk =>
    refine UniqueNames.of_places (hu.renamed ?_ fun p a hp ha hne hname => ?_)
      (.resolveNamespace _ _)
    · rcases hk with hk | hk <;> rw [hk] <;> exact Option.some_ne_none _
    · exact hnone (.rename hdoc hp ha hne hname)
  | @retitled _ id name hk =>
    refine hu.renamed ?_ fun p a hp => ?_
    · rcases hk with hk | hk <;> rw [hk] <;> exact Option.some_ne_none _
    · have hattr := hp.2
      rcases hk with hk | hk <;> rw [hk] at hattr <;> cases hattr
  | cut h => exact hu.cut h
  | dropped hl h => exact (hu.cut h).of_places (.resolveSubtree _ _)
  | filled hcut hp hk h =>
    refine (hu.cut hcut).gained h fun hattr => ?_
    rw [hk] at hattr
    cases hattr
  | attributed hp hk hnew h =>
    exact (hu.gained h fun _ => hnew).of_places (.resolveNamespace _ _)
  | declared hk h =>
    refine UniqueNames.of_places (hu.mono fun p a ha => ?_) (.resolveSubtree _ _)
    rw [IsAttributeOf, h.parentOf, h.kindOf] at ha
    exact ⟨ha, h.nameOf a⟩
  | @under _ d id p gone hid hfits htop hgone h =>
    refine UniqueNames.of_places (hu.placed h fun hk a ha hne hag hname => ?_) (.resolveSubtree _ _)
    have hway := hgone hk
    cases gone with
    | none => exact hway a ha hne hname
    | some g =>
      -- there was no second one of this name beside the one that gives way
      exact hag (congrArg some (hu p a g ha hway.1 (hname.trans hway.2.symm)))
  | @replaced d node other p hjoins htop h =>
    refine UniqueNames.of_places (hu.placed h fun hk a ha hne hag hname => ?_) (.resolveSubtree _ _)
    exact hnone (.replace hjoins.node_doc hjoins.other_doc
      ⟨hjoins.beside.parent, hjoins.beside.alike.mpr hk⟩ hk ha
      (fun he => hag (congrArg some he)) hne hname)
  | @beside d e side node other p hjoins htop h he =>
    refine UniqueNames.of_places (hu.placed h fun hk a ha hne hag hname => ?_)
      ((SamePlaces.resolveSubtree _ _).trans (.of_nodes_eq he))
    exact hnone (.beside hjoins.node_doc hjoins.other_doc
      ⟨hjoins.beside.parent, hjoins.beside.alike.mpr hk⟩ hk ha hne hname)
  | installed hk hne hacc h =>
    refine hu.placed h fun hattr => ?_
    rw [hk] at hattr
    cases hattr
  | copied h => exact hu.copies hw h

/-- Two attributes that are beside each other, as far as the operations look. -/
theorem IsAttributeOf.joins {node other : NodeRef} (hw : doc.Linked)
    (hroot : doc.kindOf root = some .document) (hnode : node.doc = doc.id)
    (hother : other.doc = doc.id) (hp : doc.IsAttributeOf p node.id)
    (hk : doc.kindOf other.id = some .attribute) :
    Joins doc node other p ∧ p ≠ root := by
  have hel := hw.owner p _ hp
  refine ⟨⟨hnode, hother, hp.1, ⟨hw, ?_, .inl hel, fun _ => hel, ?_⟩, ?_⟩, ?_⟩
  · rw [hk]
    exact Option.some_ne_none _
  · rintro (rfl | ha)
    · rw [hk] at hel
      cases hel
    · exact hw.not_ancestor_of_attribute hk ha
  · exact iff_of_true hp.2 hk
  · rintro rfl
    rw [hroot] at hel
    cases hel

/-- An attribute that was put on `p` meets there what stayed. -/
theorem Placed.not_uniqueNames {gone : Option NodeId} {a : NodeId} (h : Placed doc d id p gone)
    (hk : doc.kindOf id = some .attribute) (ha : doc.IsAttributeOf p a) (hne : a ≠ id)
    (hgone : some a ≠ gone) (hname : doc.nameOf a = doc.nameOf id) : ¬ d.UniqueNames := by
  intro hu
  refine hne (hu p a id ⟨?_, ?_⟩ ⟨?_, ?_⟩ ?_)
  · rw [h.parentOf, if_neg hne, if_neg hgone, ha.1]
  · rw [h.labels.kindOf, ha.2]
  · rw [h.parentOf, if_pos rfl]
  · rw [h.labels.kindOf, hk]
  · rw [h.labels.nameOf, h.labels.nameOf, hname]

theorem setName_after {node : NodeRef} (name : String) (hdoc : node.doc = doc.id)
    (hk : doc.kindOf node.id = some .attribute) : (setName node name).after doc =
      ((doc.learn name).update node.id fun n => { n with name }).resolveNamespace node.id := by
  obtain ⟨n, hn⟩ := exists_get? (lt_size_of_kindOf hk)
  have hkind : n.kind = .attribute := by simpa [kindOf, hn] using hk
  simp only [setName, Edit.after_require, owned_of_get? hdoc hn, hkind, Edit.after_change]

/-- **The cases in which a name is repeated.** -/
theorem Operation.Collides.not_uniqueNames (hw : doc.Linked)
    (hroot : doc.kindOf root = some .document) (hu : doc.UniqueNames) (h : op.Collides doc) :
    ¬ (op.apply doc).UniqueNames := by
  cases h with
  | @rename node name p a hnode hp ha hne hname =>
    intro after
    rw [Operation.apply, setName_after name hnode hp.2] at after
    have hid : doc.kindOf node.id ≠ none := by rw [hp.2]; exact Option.some_ne_none _
    have places := SamePlaces.resolveNamespace
      ((doc.learn name).update node.id fun n => { n with name }) node.id
    have still (x : NodeId) (hx : doc.IsAttributeOf p x) :
        (((doc.learn name).update node.id fun n => { n with name }).resolveNamespace
          node.id).IsAttributeOf p x := by
      rw [IsAttributeOf, places.parentOf, places.kindOf, parentOf_rename, kindOf_rename]
      exact hx
    refine hne (after p a node.id (still a ha) (still _ hp) ?_)
    rw [places.nameOf, places.nameOf, nameOf_rename name hid, nameOf_rename name hid, if_neg hne,
      if_pos rfl, hname]
  | @replace node other p a hnode hother hp hk ha hne hne' hname =>
    obtain ⟨hjoins, hpne⟩ := hp.joins hw hroot hnode hother hk
    obtain ⟨d, hd, hplaced⟩ := hjoins.beside.placed_substitute (.inl hp.2)
    -- replaced by itself, the attribute would share its name with another one before
    have hdiff : node ≠ other := fun he => hne (hu p a node.id ha hp (he ▸ hname))
    rw [Operation.apply, hjoins.replace_after (checkLevel_of_ne hpne _) hdiff, hd]
    exact fun after => hplaced.not_uniqueNames hk ha hne' (fun he => hne (Option.some.inj he)) hname
      (after.of_places (SamePlaces.resolveSubtree _ _).symm)
  | @beside side node other p a hnode hother hp hk ha hne hname =>
    obtain ⟨hjoins, hpne⟩ := hp.joins hw hroot hnode hother hk
    have hdiff : node.id ≠ other.id := fun he => hne (he ▸ hu p a node.id ha hp (he ▸ hname))
    obtain ⟨d, hd, hplaced⟩ := hjoins.beside.placed_beside hdiff side
    rw [Operation.apply, hjoins.addSibling_after (checkLevel_of_ne hpne _) hdiff side, hd]
    have places := (SamePlaces.resolveSubtree d other.id).trans
      (.of_nodes_eq (nodes_noteAttached (d.resolveSubtree other.id) other.id))
    exact fun after =>
      hplaced.not_uniqueNames hk ha hne (by simp) hname (after.of_places places.symm)

/-- **When an operation repeats the name of an attribute.** -/
theorem Operation.uniqueNames_apply_iff (hw : doc.Linked) (hroot : doc.kindOf root = some .document)
    (hu : doc.UniqueNames) (op : Operation) :
    (op.apply doc).UniqueNames ↔ ¬ op.Collides doc :=
  ⟨fun after hcollides => hcollides.not_uniqueNames hw hroot hu after,
    (op.step hw hroot).uniqueNames hw hu⟩

/-! ## Runs -/

/-- A tag that names each of its attributes once is read into such an element. -/
theorem Builder.Grown.uniqueNames_add {i : Nat} {b : Builder} (h : b.Grown i) {e : Event}
    (honce : Scan.NamesOnce e) (hu : b.doc.UniqueNames) : (b.add e).doc.UniqueNames := by
  cases h.tells e with
  | kept he labels places opened scopes => exact hu.of_places places
  | child he h opened scopes =>
    exact hu.gained h fun hattr => absurd hattr (Builder.unnamed_of_kind? he).2
  | @start name attributes _ d inside hinside helement hattributes opened scopes =>
    have hgained := hu.gained helement (by simp [Builder.elementNode])
    refine hgained.equipped hattributes ?_ fun a ha => ?_
    · have hnames : (Builder.attributeNodes inside
          (attributes.filter fun a => !isNamespaceDeclaration a.name)).map Node.name =
          (attributes.filter fun a => !isNamespaceDeclaration a.name).map (·.name) := by
        rw [Builder.attributeNodes, List.map_map]
        rfl
      rw [hnames]
      exact honce.sublist (List.filter_sublist.map _)
    · -- the element has just come, so that nothing can belong to it
      rw [IsAttributeOf, helement.parentOf, helement.kindOf] at ha
      split at ha
      · cases ha.2
      · exact absurd (h.linked.container _ a ha.1).lt_size (Nat.lt_irrefl _)
  | close hdoc opened scopes => rwa [hdoc]

theorem Initial.uniqueNames (h : Initial doc) : doc.UniqueNames := by
  obtain ⟨events, b, hu, hnodes⟩ := h.built (P := fun _ b => b.doc.UniqueNames)
    (fun i p a _ ha => absurd (ha.1.symm.trans (Builder.parentOf_initial i a)) (by simp))
    fun i before e b hr hu => hr.grown.uniqueNames_add hr.once hu
  exact hu.of_places (.of_nodes_eq hnodes)

theorem Initial.run_uniqueNames_iff (h : Initial doc) (ops : List Operation) :
    (∀ before, before <+: ops → (run before doc).UniqueNames) ↔
      ∀ before op, before ++ [op] <+: ops → ¬ op.Collides (run before doc) := by
  refine run_keeps_iff (S := fun op d => op.Collides d) h.uniqueNames (fun before op hb => ?_) ops
  obtain ⟨hw, hroot⟩ := h.run_linked before
  rw [run_append_singleton]
  exact op.uniqueNames_apply_iff hw hroot hb

/-- **The names of the attributes along every run.** No element has two attributes of one name,
exactly as long as none is renamed to the name of another one and none is put beside an attribute,
or in its place, where a third one has its name. -/
theorem attribute_names_unique_iff (start : Document) (h : Initial start) (ops : List Operation) :
    (∀ before, before <+: ops → ∀ p,
        (((run before start).attributesOf p).map (run before start).nameOf).Nodup) ↔
      ∀ before op, before ++ [op] <+: ops → ¬ op.Collides (run before start) := by
  rw [← h.run_uniqueNames_iff ops]
  refine forall_congr' fun before => imp_congr_right fun _ => ?_
  exact (h.run_linked before).1.uniqueNames_iff.symm

/-- An element with two attributes, one of which is renamed to the name of the other. -/
def renameAttribute : List Operation :=
  [.createElement "e", .setAttribute ⟨0, 1, .element⟩ "a" "1",
    .setAttribute ⟨0, 1, .element⟩ "b" "2", .setName ⟨0, 3, .attribute⟩ "a"]

theorem attribute_renamed_to_another :
    Initial (empty 0) ∧
      ((run renameAttribute (empty 0)).attributesOf 1).map (run renameAttribute (empty 0)).nameOf =
        ["a", "a"] ∧
      ∃ before op, before ++ [op] <+: renameAttribute ∧ op.Collides (run before (empty 0)) := by
  have hinit := Initial.new 0
  have hnames : ((run renameAttribute (empty 0)).attributesOf 1).map
      (run renameAttribute (empty 0)).nameOf = ["a", "a"] := by decide
  refine ⟨hinit, hnames, ?_⟩
  by_contra hno
  have hunique := (attribute_names_unique_iff _ hinit renameAttribute).mpr
    fun before op hpre hcollides => hno ⟨before, op, hpre, hcollides⟩
  have hnodup := hunique renameAttribute (List.prefix_refl _) 1
  rw [hnames] at hnodup
  exact absurd hnodup (by decide)

end Xml.Document
