import Xml.Proofs.Steps.Basic

/-!
# The namespace of a name

Which namespace a name is in follows from the declarations on its node and above it. `Belongs` says
so without a walk and without a bound: the nearest declaration of the prefix counts. A document is
`Coherent` if every name below the document node is stored with the namespace it belongs to.

* `Rooted.belongs` — what the program looks up is the namespace that a name belongs to
* `Frame.agrees` — a name keeps its namespace if nothing changes on its way up
-/

namespace Xml.Document

variable {doc d : Document} {x : NodeId} {nsPrefix uri : String} {S : NodeId → Prop}

/-- The nearest declaration of the prefix, on the node or above it, binds it to a namespace. -/
inductive Binds (doc : Document) (nsPrefix : String) : NodeId → String → Prop where
  | here {id : NodeId} {uri : String} (h : doc.declared? nsPrefix id = some uri) :
      Binds doc nsPrefix id uri
  | above {id parent : NodeId} {uri : String} (hnone : doc.declared? nsPrefix id = none)
      (hp : doc.parentOf id = some parent) (h : Binds doc nsPrefix parent uri) :
      Binds doc nsPrefix id uri

/-- The namespace that a prefix stands for at a node, empty for none. -/
inductive Means (doc : Document) (id : NodeId) : String → String → Prop where
  | xml : Means doc id "xml" Namespace.xmlUri
  | bound {nsPrefix uri : String} (hne : nsPrefix ≠ "xml") (h : doc.Binds nsPrefix id uri) :
      Means doc id nsPrefix uri
  | unbound {nsPrefix : String} (hne : nsPrefix ≠ "xml") (h : ∀ uri, ¬ doc.Binds nsPrefix id uri) :
      Means doc id nsPrefix ""

/-- The namespace that the declarations in scope give the name of an element or an attribute. -/
inductive Belongs (doc : Document) (id : NodeId) : String → Prop where
  | element {uri : String} (hk : doc.kindOf id = some .element)
      (h : doc.Means id ((qualifier? (doc.nameOf id)).getD "") uri) : Belongs doc id uri
  | prefixed {owner : NodeId} {nsPrefix uri : String} (hk : doc.kindOf id = some .attribute)
      (hp : doc.parentOf id = some owner) (hname : qualifier? (doc.nameOf id) = some nsPrefix)
      (h : doc.Means owner nsPrefix uri) : Belongs doc id uri
  /-- The default namespace is not for attributes. -/
  | unprefixed (hk : doc.kindOf id = some .attribute)
      (hname : qualifier? (doc.nameOf id) = none) : Belongs doc id ""

/-- The namespace that is stored with a node, empty for none. -/
def uriOf (doc : Document) (id : NodeId) : String :=
  ((doc.get? id).map (·.namespaceUri)).getD ""

/-- A node that is named is stored with the namespace that its name belongs to. Names that begin
with `xmlns` are left out, they stand for declarations. -/
def Agrees (doc : Document) (id : NodeId) : Prop :=
  doc.kindOf id = some .element ∨ doc.kindOf id = some .attribute →
    qualifier? (doc.nameOf id) ≠ some "xmlns" → doc.Belongs id (doc.uriOf id)

/-- Every name below the document node is stored with the namespace that it belongs to. -/
def Coherent (doc : Document) : Prop :=
  ∀ x, doc.Ancestor root x → doc.Agrees x

/-- The links are in order, and the document node stands above everything else. -/
structure Rooted (doc : Document) : Prop where
  linked : doc.Linked
  kindOf_root : doc.kindOf root = some .document
  free : doc.parentOf root = none

theorem uriOf_eq (doc : Document) (x : NodeId) :
    doc.uriOf x = ((doc.labelOf x).map Label.namespaceUri).getD "" := by
  rw [labelOf, Option.map_map]
  rfl

/-- A node that is neither an element nor an attribute has nothing to agree with. -/
theorem Agrees.of_unnamed (hel : doc.kindOf x ≠ some .element)
    (hattr : doc.kindOf x ≠ some .attribute) : doc.Agrees x := fun hk _ =>
  absurd hk (not_or.mpr ⟨hel, hattr⟩)

/-! ## What the declarations of a node depend on -/

/-- What a node declares depends on its kind and its list of declarations. -/
theorem declared?_congr
    (h : (d.get? x).map (fun n => (n.kind, n.declarations)) =
      (doc.get? x).map fun n => (n.kind, n.declarations)) (nsPrefix : String) :
    d.declared? nsPrefix x = doc.declared? nsPrefix x := by
  have hbind (e : Document) : e.declared? nsPrefix x =
      ((e.get? x).map fun n => (n.kind, n.declarations)).bind fun l =>
        if l.1 == .element then (l.2.find? (·.nsPrefix == nsPrefix)).map (·.uri) else none := by
    rw [declared?]
    cases e.get? x <;> rfl
  rw [hbind, hbind, h]

theorem declared?_of_label (h : d.labelOf x = doc.labelOf x) (nsPrefix : String) :
    d.declared? nsPrefix x = doc.declared? nsPrefix x := by
  refine declared?_congr ?_ nsPrefix
  have hmap := congrArg (Option.map fun l : Label => (l.kind, l.declarations)) h
  rwa [labelOf, labelOf, Option.map_map, Option.map_map] at hmap

theorem SamePlaces.declared? (h : SamePlaces doc d) (nsPrefix : String) (x : NodeId) :
    d.declared? nsPrefix x = doc.declared? nsPrefix x :=
  declared?_congr (h.comp (fun place => (place.1.kind, place.1.declarations)) x) nsPrefix

theorem SamePlaces.rooted (h : SamePlaces doc d) (hr : doc.Rooted) (hw : d.Linked) : d.Rooted :=
  ⟨hw, (h.kindOf root).trans hr.kindOf_root, (h.parentOf root).trans hr.free⟩

/-! ## Bindings -/

theorem binds_iff_eq {found : String} (h : doc.declared? nsPrefix x = some found) :
    doc.Binds nsPrefix x uri ↔ found = uri := by
  constructor
  · intro hb
    cases hb with
    | here hdecl => exact Option.some.inj (h.symm.trans hdecl)
    | above hnone => cases h.symm.trans hnone
  · rintro rfl
    exact .here h

theorem binds_iff_above {q : NodeId} (h : doc.declared? nsPrefix x = none)
    (hp : doc.parentOf x = some q) : doc.Binds nsPrefix x uri ↔ doc.Binds nsPrefix q uri := by
  refine ⟨fun hb => ?_, .above h hp⟩
  cases hb with
  | here hdecl => cases h.symm.trans hdecl
  | above _ hq hb =>
    cases hp.symm.trans hq
    exact hb

/-- Where nothing is bound above a node, only its own declarations count. -/
theorem binds_iff_declared (h : ∀ q, doc.parentOf x = some q → ¬ doc.Binds nsPrefix q uri) :
    doc.Binds nsPrefix x uri ↔ doc.declared? nsPrefix x = some uri := by
  refine ⟨fun hb => ?_, .here⟩
  cases hb with
  | here hdecl => exact hdecl
  | above _ hp hb => exact absurd hb (h _ hp)

theorem Binds.unique {uri' : String} (h : doc.Binds nsPrefix x uri)
    (h' : doc.Binds nsPrefix x uri') : uri = uri' := by
  induction h with
  | here hdecl => exact (binds_iff_eq hdecl).mp h'
  | above hnone hp _ ih => exact ih ((binds_iff_above hnone hp).mp h')

theorem Means.unique {uri' : String} (h : doc.Means x nsPrefix uri)
    (h' : doc.Means x nsPrefix uri') : uri = uri' := by
  cases h with
  | xml =>
    cases h' with
    | xml => rfl
    | bound hne _ => exact absurd rfl hne
    | unbound hne _ => exact absurd rfl hne
  | bound hne hb =>
    cases h' with
    | xml => exact absurd rfl hne
    | bound _ hb' => exact hb.unique hb'
    | unbound _ hno => exact absurd hb (hno uri)
  | unbound hne hno =>
    cases h' with
    | xml => exact absurd rfl hne
    | bound _ hb' => exact absurd hb' (hno uri')
    | unbound _ _ => rfl

theorem Belongs.unique {uri' : String} (h : doc.Belongs x uri) (h' : doc.Belongs x uri') :
    uri = uri' := by
  cases h with
  | element hk hm =>
    cases h' with
    | element _ hm' => exact hm.unique hm'
    | prefixed hk' => cases hk.symm.trans hk'
    | unprefixed hk' => cases hk.symm.trans hk'
  | prefixed hk hp hname hm =>
    cases h' with
    | element hk' => cases hk.symm.trans hk'
    | prefixed _ hp' hname' hm' =>
      cases hp.symm.trans hp'
      cases hname.symm.trans hname'
      exact hm.unique hm'
    | unprefixed _ hname' => cases hname.symm.trans hname'
  | unprefixed hk hname =>
    cases h' with
    | element hk' => cases hk.symm.trans hk'
    | prefixed _ _ hname' => cases hname.symm.trans hname'
    | unprefixed _ _ => rfl

/-! ## The walk over the parents -/

/-- A way up that ends where no parent is left is all there is. -/
theorem Climbs.follows {path : List NodeId} {a : NodeId} (h : doc.Climbs path)
    (hlast : path.getLast? = some a) (ha : doc.parentOf a = none) :
    Follows doc.parentOf path := by
  induction path with
  | nil => trivial
  | cons c path ih =>
    cases path with
    | nil =>
      cases hlast
      exact ⟨ha, trivial⟩
    | cons q path =>
      obtain ⟨hq, hrest⟩ := List.isChain_cons_cons.mp h
      exact ⟨hq, ih hrest (by rwa [List.getLast?_cons_cons] at hlast)⟩

/-- The bounded walk from a node ends at the one above it that stands below nothing. -/
theorem Linked.exists_lineage (hw : doc.Linked) {top : NodeId} (hfree : doc.parentOf top = none)
    (hlt : x < doc.size) (hx : x = top ∨ doc.Ancestor top x) :
    ∃ path, doc.lineage x = x :: path ∧ Follows doc.parentOf (x :: path) ∧
      (x :: path).length ≤ doc.size ∧ (x :: path).getLast? = some top := by
  obtain ⟨path, hclimbs, hnodup, hlast⟩ : ∃ path, doc.Climbs (x :: path) ∧ (x :: path).Nodup ∧
      (x :: path).getLast? = some top := by
    rcases hx with rfl | hx
    · exact ⟨[], .singleton _, List.nodup_singleton _, rfl⟩
    · exact hx.exists_path
  -- no node comes twice on the way, so the bound of the walk is not reached
  have hfollows := hclimbs.follows hlast hfree
  have hlength := length_le_size hnodup (hclimbs.lt_size hw hlt)
  exact ⟨path, hfollows.chain_eq hlength, hfollows, hlength, hlast⟩

/-- The bounded walk from a node at the document node or below it ends at the document node. -/
theorem Rooted.exists_lineage (h : doc.Rooted) (hx : x = root ∨ doc.Ancestor root x) :
    ∃ path, doc.lineage x = x :: path ∧ Follows doc.parentOf (x :: path) := by
  have hlt : x < doc.size := by
    rcases hx with rfl | hx
    · exact lt_size_of_kindOf h.kindOf_root
    · exact hx.lt_size
  obtain ⟨path, hlineage, hfollows, -⟩ := h.linked.exists_lineage h.free hlt hx
  exact ⟨path, hlineage, hfollows⟩

theorem findSome?_iff_binds {path : List NodeId} (h : Follows doc.parentOf (x :: path)) :
    (x :: path).findSome? (doc.declared? nsPrefix) = some uri ↔ doc.Binds nsPrefix x uri := by
  induction path generalizing x with
  | nil =>
    rw [List.findSome?_singleton, binds_iff_declared fun q hq => ?_]
    cases h.1.symm.trans hq
  | cons q path ih =>
    rw [List.findSome?_cons]
    split
    · next found hdecl => rw [binds_iff_eq hdecl, Option.some_inj]
    · next hnone => rw [ih h.2, binds_iff_above hnone h.1]

/-- Looking up a prefix finds the nearest declaration. -/
theorem Rooted.lookup_eq_some_iff (h : doc.Rooted) (hx : x = root ∨ doc.Ancestor root x)
    (hxml : nsPrefix ≠ "xml") :
    doc.lookupNamespace? x nsPrefix = some uri ↔ doc.Binds nsPrefix x uri := by
  obtain ⟨path, hlineage, hfollows⟩ := h.exists_lineage hx
  rw [lookupNamespace?, if_neg (by simpa using hxml), hlineage]
  exact findSome?_iff_binds hfollows

/-- **Looking up a prefix finds what it means.** -/
theorem Rooted.means_lookup (h : doc.Rooted) (hx : x = root ∨ doc.Ancestor root x)
    (nsPrefix : String) : doc.Means x nsPrefix ((doc.lookupNamespace? x nsPrefix).getD "") := by
  by_cases hxml : nsPrefix = "xml"
  · subst hxml
    exact .xml
  · cases hfound : doc.lookupNamespace? x nsPrefix with
    | some uri => exact .bound hxml ((h.lookup_eq_some_iff hx hxml).mp hfound)
    | none =>
      refine .unbound hxml fun uri hb => ?_
      rw [(h.lookup_eq_some_iff hx hxml).mpr hb] at hfound
      cases hfound

/-- **The namespace that the program finds is the one that the name belongs to.** -/
theorem Rooted.belongs (h : doc.Rooted) (hx : doc.Ancestor root x)
    (hk : doc.kindOf x = some .element ∨ doc.kindOf x = some .attribute) :
    doc.Belongs x (doc.namespaceInScope x) := by
  obtain ⟨owner, hp⟩ := hx.exists_parent
  obtain ⟨n, hn⟩ := exists_get? (lt_size_of_parentOf hp)
  have hname : doc.nameOf x = n.name := by rw [nameOf, hn]; rfl
  have hkind : doc.kindOf x = some n.kind := by rw [kindOf, hn]; rfl
  have hparent : n.parent = some owner := by rw [parentOf, hn] at hp; exact hp
  rw [namespaceInScope, hn]
  dsimp only
  rcases hk with hk | hk
  · rw [Option.some.inj (hkind.symm.trans hk)]
    refine .element hk ?_
    rw [hname]
    cases qualifier? n.name with
    | none => exact h.means_lookup (.inr hx) ""
    | some q => exact h.means_lookup (.inr hx) q
  · rw [Option.some.inj (hkind.symm.trans hk), hparent]
    cases hq : qualifier? n.name with
    | none => exact .unprefixed hk (hname ▸ hq)
    | some q =>
      have howner := (hx.of_parent hp).imp_left Eq.symm
      exact .prefixed hk hp (hname ▸ hq) (h.means_lookup howner q)

/-! ## What does not change -/

/-- Induction from the top of a tree down to a node. -/
theorem Ancestor.descend {P : NodeId → Prop} {id : NodeId} (top : P id)
    (step : ∀ y q, y ≠ id → (q = id ∨ doc.Ancestor id q) → doc.parentOf y = some q → P q → P y)
    (hx : x = id ∨ doc.Ancestor id x) : P x := by
  have below (y q : NodeId) (hq : q = id ∨ doc.Ancestor id q) (hp : doc.parentOf y = some q)
      (ih : P q) : P y := by
    by_cases hne : y = id
    · rw [hne]
      exact top
    · exact step y q hne hq hp ih
  rcases hx with rfl | hx
  · exact top
  · induction hx with
    | parent hp => exact below _ _ (.inl rfl) hp top
    | above hp hrest ih => exact below _ _ (.inr hrest) hp ih

/-- Every node of `S` that has a parent in `d` has the same parent and the same declarations in
`doc`, and the parent is in `S` too. -/
def Frame (S : NodeId → Prop) (doc d : Document) : Prop :=
  ∀ y q, S y → d.parentOf y = some q →
    doc.parentOf y = some q ∧ S q ∧ ∀ nsPrefix, d.declared? nsPrefix y = doc.declared? nsPrefix y

/-- Outside of the tree at a node, labels are what they were and no node has a new parent. -/
theorem Frame.outside {id : NodeId}
    (hlabel : ∀ x, ¬ (x = id ∨ d.Ancestor id x) → d.labelOf x = doc.labelOf x)
    (hparent : ∀ x q, ¬ (x = id ∨ d.Ancestor id x) → d.parentOf x = some q →
      doc.parentOf x = some q) : Frame (fun x => ¬ (x = id ∨ d.Ancestor id x)) doc d := by
  intro y q hy hq
  exact ⟨hparent y q hy hq, fun hup => hy (.inr (ancestor_of_parentOf hq hup)),
    declared?_of_label (hlabel y hy)⟩

theorem Frame.of_places {e : Document} (hF : Frame S doc d) (h : SamePlaces d e) :
    Frame S doc e := by
  intro y q hs hq
  rw [h.parentOf] at hq
  obtain ⟨hq', hsq, hdecl⟩ := hF y q hs hq
  exact ⟨hq', hsq, fun nsPrefix => (h.declared? nsPrefix y).trans (hdecl nsPrefix)⟩

theorem Rooted.not_binds_root (h : doc.Rooted) : ¬ doc.Binds nsPrefix root uri := by
  obtain ⟨n, hn⟩ := exists_get? (lt_size_of_kindOf h.kindOf_root)
  have hkind : n.kind = .document := by
    have hk := h.kindOf_root
    rw [kindOf, hn] at hk
    exact Option.some.inj hk
  intro hb
  cases hb with
  | here hdecl =>
    rw [declared?, hn] at hdecl
    simp [hkind] at hdecl
  | above _ hp _ =>
    rw [h.free] at hp
    cases hp

theorem binds_iff_of_parent {y q : NodeId} (hq : doc.parentOf y = some q)
    (hq' : d.parentOf y = some q) (hdecl : d.declared? nsPrefix y = doc.declared? nsPrefix y)
    (ih : d.Binds nsPrefix q uri ↔ doc.Binds nsPrefix q uri) :
    d.Binds nsPrefix y uri ↔ doc.Binds nsPrefix y uri := by
  cases hfound : doc.declared? nsPrefix y with
  | some found => rw [binds_iff_eq (hdecl.trans hfound), binds_iff_eq hfound]
  | none => rw [binds_iff_above (hdecl.trans hfound) hq', binds_iff_above hfound hq, ih]

/-- If all is the same on the way up, prefixes are bound to the same namespaces. -/
theorem Frame.binds_iff (hF : Frame S doc d) (h : doc.Rooted) (h' : d.Rooted)
    (hx : x = root ∨ d.Ancestor root x) (hs : S x) :
    d.Binds nsPrefix x uri ↔ doc.Binds nsPrefix x uri := by
  have hroot : d.Binds nsPrefix root uri ↔ doc.Binds nsPrefix root uri :=
    iff_of_false h'.not_binds_root h.not_binds_root
  -- the parent of a node of `S` is in `S`, so that the induction can go on above it
  refine Ancestor.descend (P := fun y => S y → (d.Binds nsPrefix y uri ↔ doc.Binds nsPrefix y uri))
    (fun _ => hroot) (fun y q _ _ hq ih hs => ?_) hx hs
  obtain ⟨hq', hsq, hdecl⟩ := hF y q hs hq
  exact binds_iff_of_parent hq' hq (hdecl nsPrefix) (ih hsq)

theorem Means.congr (h : doc.Means x nsPrefix uri)
    (hb : ∀ nsPrefix uri, d.Binds nsPrefix x uri ↔ doc.Binds nsPrefix x uri) :
    d.Means x nsPrefix uri := by
  cases h with
  | xml => exact .xml
  | bound hne h => exact .bound hne ((hb _ _).mpr h)
  | unbound hne h => exact .unbound hne fun uri hu => h uri ((hb _ _).mp hu)

/-- A name whose prefix is bound as before is in the namespace that it was in. -/
theorem Agrees.congr (ha : doc.Agrees x) (hlabel : d.labelOf x = doc.labelOf x)
    (hself : ∀ nsPrefix uri, d.Binds nsPrefix x uri ↔ doc.Binds nsPrefix x uri)
    (howner : doc.kindOf x = some .attribute → ∀ owner, doc.parentOf x = some owner →
      d.parentOf x = some owner ∧
        ∀ nsPrefix uri, d.Binds nsPrefix owner uri ↔ doc.Binds nsPrefix owner uri) :
    d.Agrees x := by
  have hk : d.kindOf x = doc.kindOf x := by rw [kindOf_eq, kindOf_eq, hlabel]
  have hname : d.nameOf x = doc.nameOf x := by rw [nameOf_eq, nameOf_eq, hlabel]
  have huri : d.uriOf x = doc.uriOf x := by rw [uriOf_eq, uriOf_eq, hlabel]
  rw [Agrees, hk, hname, huri]
  intro hnamed hxmlns
  have hbelongs := ha hnamed hxmlns
  -- the cases give the namespace a shape, so it must not be that of the node any more
  generalize doc.uriOf x = uri at hbelongs ⊢
  cases hbelongs with
  | element hel hm => exact .element (hk.trans hel) (hname ▸ hm.congr hself)
  | prefixed hattr hp hq hm =>
    obtain ⟨hp', hbinds⟩ := howner hattr _ hp
    exact .prefixed (hk.trans hattr) hp' (hname ▸ hq) (hm.congr hbinds)
  | unprefixed hattr hq => exact .unprefixed (hk.trans hattr) (hname ▸ hq)

/-- **A name keeps its namespace if nothing changes on its way up.** -/
theorem Frame.agrees (hF : Frame S doc d) (h : doc.Rooted) (h' : d.Rooted)
    (hx : d.Ancestor root x) (hs : S x) (hlabel : d.labelOf x = doc.labelOf x)
    (ha : doc.Agrees x) : d.Agrees x := by
  refine ha.congr hlabel (fun _ _ => hF.binds_iff h h' (.inr hx) hs) fun _ owner hp => ?_
  obtain ⟨q, hq⟩ := hx.exists_parent
  obtain ⟨hq', hsq, -⟩ := hF x q hs hq
  cases hq'.symm.trans hp
  exact ⟨hq, fun _ _ => hF.binds_iff h h' ((hx.of_parent hq).imp_left Eq.symm) hsq⟩

theorem Frame.ancestor (hF : Frame S doc d) (hx : d.Ancestor root x) (hs : S x) :
    doc.Ancestor root x := by
  induction hx with
  | parent hp => exact .parent (hF _ _ hs hp).1
  | above hp _ ih => exact .above (hF _ _ hs hp).1 (ih (hF _ _ hs hp).2.1)

/-- **Coherence is a matter of the names that change.** -/
theorem Coherent.of_frame (hc : doc.Coherent) (hF : Frame S doc d) (h : doc.Rooted)
    (h' : d.Rooted)
    (hall : ∀ x, d.Ancestor root x → d.Agrees x ∨ S x ∧ d.labelOf x = doc.labelOf x) :
    d.Coherent := by
  intro x hx
  rcases hall x hx with ha | ⟨hs, hlabel⟩
  · exact ha
  · exact hF.agrees h h' hx hs hlabel (hc x (hF.ancestor hx hs))

/-- A node without a namespace can change as it likes. -/
theorem Coherent.of_unnamed (hc : doc.Coherent) (hF : Frame S doc d) (h : doc.Rooted)
    (h' : d.Rooted) (id : NodeId) (hel : d.kindOf id ≠ some .element)
    (hattr : d.kindOf id ≠ some .attribute)
    (hall : ∀ x, x ≠ id → S x ∧ d.labelOf x = doc.labelOf x) : d.Coherent := by
  refine hc.of_frame hF h h' fun x _ => ?_
  by_cases hx : x = id
  · rw [hx]
    exact .inl (.of_unnamed hel hattr)
  · exact .inr (hall x hx)

end Xml.Document
