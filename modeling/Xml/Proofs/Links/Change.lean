import Xml.Proofs.Links.Splice

/-!
# Changes that leave the links in order

Beside the splicing of children there are four more ways to change a document: names, texts and
declarations can change without touching a link, new nodes come unlinked, and attributes are put on
elements and taken off.

* `SameLinks.linked` — changes that do not show in the links
* `Linked.alloc` — new nodes
* `Linked.insertAttribute` — attributes put on an element
* `Linked.detach_spec` — any node taken out, child or attribute
-/

namespace Xml

variable {id p : NodeId} {node : Node}

/-- A node with its links and its kind only. -/
def Node.frame (n : Node) : Node :=
  { n with name := "", namespaceUri := "", content := "", declarations := [] }

def Node.unlink (n : Node) : Node :=
  { n with
    parent := none, firstChild := none, lastChild := none, prevSibling := none,
    nextSibling := none, attributes := [] }

/-- A node as it is before it is linked to anything. -/
def Node.Unlinked (n : Node) : Prop :=
  n.unlink = n

/-- A node without its place among others. -/
def Node.apart (n : Node) : Node :=
  { n with parent := none, prevSibling := none, nextSibling := none }

def Node.dropAttribute (id : NodeId) (n : Node) : Node :=
  { n with attributes := n.attributes.filter (· != id) }

theorem Node.unlinked_unlink (n : Node) : n.unlink.Unlinked := rfl

theorem Node.unlinked_frame {n : Node} : n.frame.Unlinked ↔ n.Unlinked := by
  cases n
  simp [Unlinked, unlink, frame]

namespace Document

variable {doc d : Document}

/-! ## Changes that leave the links alone -/

/-- The invariant looks at the links, and at the kinds of nodes that were there before. -/
theorem Linked.of_links_eq (hw : doc.Linked) (kind : ∀ x, x < doc.size → d.kindOf x = doc.kindOf x)
    (attributes : ∀ x, d.attributesOf x = doc.attributesOf x)
    (parent : ∀ x, d.parentOf x = doc.parentOf x) (first : ∀ x, d.firstOf x = doc.firstOf x)
    (last : ∀ x, d.lastOf x = doc.lastOf x) (next : ∀ x, d.nextOf x = doc.nextOf x)
    (prev : ∀ x, d.prevOf x = doc.prevOf x) : d.Linked := by
  -- whoever has a parent was there before, and so was the parent
  have old : ∀ {x p}, doc.parentOf x = some p →
      d.kindOf x = doc.kindOf x ∧ d.kindOf p = doc.kindOf p :=
    fun hx => ⟨kind _ (lt_size_of_parentOf hx), kind _ (hw.container _ _ hx).lt_size⟩
  have hchild : ∀ p c, d.IsChild p c ↔ doc.IsChild p c := by
    intro p c
    rw [IsChild, IsChild, parent]
    exact and_congr_right fun h => by rw [(old h).1]
  have hattr : ∀ p a, d.IsAttributeOf p a ↔ doc.IsAttributeOf p a := by
    intro p a
    rw [IsAttributeOf, IsAttributeOf, parent]
    exact and_congr_right fun h => by rw [(old h).1]
  refine ⟨fun p => ?_, fun p => ?_, fun p a => ?_, fun p a ha => ?_, fun p c hc => ?_,
    fun c hc => ?_⟩
  · obtain ⟨cs, hch, hnd, hmem⟩ := hw.children p
    exact ⟨cs, hch.congr (first p) (last p) (fun c _ => next c) fun c _ => prev c, hnd,
      fun c => (hmem c).trans (hchild p c).symm⟩
  · rw [attributes]
    exact hw.attributes_nodup p
  · rw [attributes, hattr]
    exact hw.mem_attributes p a
  · have ha' := (hattr p a).mp ha
    rw [(old ha'.1).2]
    exact hw.owner p a ha'
  · rw [parent] at hc
    rw [IsContainer, (old hc).2]
    exact hw.container p c hc
  · rw [next, prev]
    by_cases hx : c < doc.size
    · rw [parent, kind c hx] at hc
      exact hw.alone c hc
    · rw [nextOf, prevOf, get?_eq_none (Nat.le_of_not_lt hx)]
      exact ⟨rfl, rfl⟩

/-- Two documents with the same nodes up to names, texts and declarations. -/
def SameLinks (doc d : Document) : Prop :=
  ∀ x, (d.get? x).map Node.frame = (doc.get? x).map Node.frame

namespace SameLinks

theorem refl (doc : Document) : SameLinks doc doc := fun _ => rfl

theorem trans {e : Document} (h : SameLinks doc d) (h' : SameLinks d e) : SameLinks doc e :=
  fun x => (h' x).trans (h x)

/-- Changing one entry in a way that does not show in its links. -/
theorem update (doc : Document) (id : NodeId) (f : Node → Node)
    (h : ∀ n, (f n).frame = n.frame) : SameLinks doc (doc.update id f) :=
  map_get?_update_keep Node.frame f h id

/-- A view of the nodes that looks at links and kinds only. -/
theorem map_eq {β : Type} (h : SameLinks doc d) (π : Node → β) (hπ : ∀ n, π n.frame = π n)
    (x : NodeId) : (d.get? x).map π = (doc.get? x).map π := by
  have hx := congrArg (Option.map π) (h x)
  rw [Option.map_map, Option.map_map] at hx
  have hcomp : π ∘ Node.frame = π := funext hπ
  rwa [hcomp] at hx

theorem bind_eq (h : SameLinks doc d) (π : Node → Option NodeId) (hπ : ∀ n, π n.frame = π n)
    (x : NodeId) : (d.get? x).bind π = (doc.get? x).bind π := by
  have hx := h.map_eq π hπ x
  cases hd : d.get? x <;> cases hdoc : doc.get? x <;> simp_all

theorem kindOf (h : SameLinks doc d) (x : NodeId) : d.kindOf x = doc.kindOf x :=
  h.map_eq (·.kind) (fun _ => rfl) x

theorem size (h : SameLinks doc d) : d.size = doc.size := by
  have key : ∀ {e e' : Document}, SameLinks e e' → e.size ≤ e'.size := by
    intro e e' he
    rcases Nat.lt_or_ge e'.size e.size with hlt | hle
    · have hk := he.kindOf e'.size
      rw [Document.kindOf, get?_eq_none (Nat.le_refl _)] at hk
      exact absurd hk.symm (kindOf_ne_none hlt)
    · exact hle
  exact Nat.le_antisymm (key fun x => (h x).symm) (key h)

theorem shows (h : SameLinks doc d) :
    Shows doc d doc.parentOf doc.firstOf doc.lastOf doc.nextOf doc.prevOf where
  size := h.size
  kind := h.kindOf
  attributes x := congrArg (Option.getD · []) (h.map_eq (·.attributes) (fun _ => rfl) x)
  parent := h.bind_eq (·.parent) fun _ => rfl
  first := h.bind_eq (·.firstChild) fun _ => rfl
  last := h.bind_eq (·.lastChild) fun _ => rfl
  next := h.bind_eq (·.nextSibling) fun _ => rfl
  prev := h.bind_eq (·.prevSibling) fun _ => rfl

/-- **A change of names, texts and declarations leaves the links in order.** -/
theorem linked (h : SameLinks doc d) (hw : doc.Linked) : d.Linked :=
  have hs := h.shows
  hw.of_links_eq (fun x _ => hs.kind x) hs.attributes hs.parent hs.first hs.last hs.next hs.prev

end SameLinks

/-- Names, texts and declarations may differ: neither the links nor the mark of an edit do. -/
structure Relabeled (doc d : Document) : Prop where
  links : SameLinks doc d
  edited : d.edited = doc.edited

namespace Relabeled

theorem refl (doc : Document) : Relabeled doc doc := ⟨.refl doc, rfl⟩

theorem trans {e : Document} (h : Relabeled doc d) (h' : Relabeled d e) : Relabeled doc e :=
  ⟨h.links.trans h'.links, h'.edited.trans h.edited⟩

theorem update (doc : Document) (id : NodeId) (f : Node → Node)
    (h : ∀ n, (f n).frame = n.frame) : Relabeled doc (doc.update id f) :=
  ⟨.update doc id f h, rfl⟩

theorem learn (doc : Document) (word : String) : Relabeled doc (doc.learn word) := by
  obtain ⟨_, h⟩ := exists_learn_eq doc word
  rw [h]
  exact ⟨fun _ => rfl, rfl⟩

theorem learnDeclaration (doc : Document) (declaration : NamespaceDecl) :
    Relabeled doc (doc.learnDeclaration declaration) :=
  (learn doc declaration.nsPrefix).trans (learn _ declaration.uri)

end Relabeled

/-! ## New nodes -/

theorem size_alloc (doc : Document) (node : Node) : (doc.alloc node).2.size = doc.size + 1 := by
  simp [alloc, size, nodes_learnNode]

theorem size_touch (doc : Document) : doc.touch.size = doc.size :=
  rfl

theorem size_appendChild (doc : Document) (p id : NodeId) :
    (doc.appendChild p id).size = doc.size := by
  rw [appendChild, size_touch, size_update]
  split <;> rw [size_update, size_update]

theorem get?_alloc_of_lt {x : NodeId} (h : x < doc.size) :
    (doc.alloc node).2.get? x = doc.get? x := by
  rw [get?_alloc, if_neg (Nat.ne_of_lt h)]

/-- A link of a document with a new node, which does not have that link yet. -/
theorem bind_get?_alloc (hn : node.Unlinked) (π : Node → Option NodeId)
    (hπ : ∀ n : Node, π n.unlink = none) (x : NodeId) :
    ((doc.alloc node).2.get? x).bind π = (doc.get? x).bind π := by
  rw [get?_alloc]
  by_cases hx : x = doc.size
  · rw [if_pos hx, hx, get?_eq_none (Nat.le_refl _), ← hn]
    exact hπ node
  · rw [if_neg hx]

theorem kindOf_alloc (doc : Document) (node : Node) (x : NodeId) :
    (doc.alloc node).2.kindOf x = if x = doc.size then some node.kind else doc.kindOf x := by
  rw [kindOf, get?_alloc]
  split <;> rfl

theorem kindOf_alloc_of_lt {x : NodeId} (h : x < doc.size) :
    (doc.alloc node).2.kindOf x = doc.kindOf x := by
  rw [kindOf_alloc, if_neg (Nat.ne_of_lt h)]

theorem IsContainer.alloc (h : doc.IsContainer p) : (doc.alloc node).2.IsContainer p := by
  rwa [IsContainer, kindOf_alloc_of_lt h.lt_size]

/-- **A new node that is linked to nothing leaves the links in order.** -/
theorem Linked.alloc (hw : doc.Linked) (hn : node.Unlinked) : (doc.alloc node).2.Linked := by
  have attributes : ∀ x, (doc.alloc node).2.attributesOf x = doc.attributesOf x := by
    intro x
    rw [attributesOf, attributesOf, get?_alloc]
    by_cases hx : x = doc.size
    · rw [if_pos hx, hx, get?_eq_none (Nat.le_refl _)]
      exact (congrArg Node.attributes hn).symm
    · rw [if_neg hx]
  apply hw.of_links_eq (fun _ => kindOf_alloc_of_lt) attributes <;>
    exact bind_get?_alloc hn _ fun _ => rfl

/-! ## Attributes -/

theorem Linked.of_attribute_change (hw : doc.Linked) (hkind : doc.kindOf id = some .attribute)
    (kind : ∀ x, d.kindOf x = doc.kindOf x) (first : ∀ x, d.firstOf x = doc.firstOf x)
    (last : ∀ x, d.lastOf x = doc.lastOf x) (next : ∀ x, d.nextOf x = doc.nextOf x)
    (prev : ∀ x, d.prevOf x = doc.prevOf x) (parent : ∀ x, x ≠ id → d.parentOf x = doc.parentOf x)
    (hold : doc.parentOf id = none ∨ doc.parentOf id = some p)
    (hnew : d.parentOf id = none ∨ d.parentOf id = some p ∧ doc.kindOf p = some .element)
    (others : ∀ q, q ≠ p → d.attributesOf q = doc.attributesOf q) (hnd : (d.attributesOf p).Nodup)
    (hmem : ∀ a, a ∈ d.attributesOf p ↔ d.IsAttributeOf p a) : d.Linked := by
  have hchild : ∀ q c, d.IsChild q c ↔ doc.IsChild q c := by
    intro q c
    rw [IsChild, IsChild, kind]
    by_cases hx : c = id
    · simp [hx, hkind]
    · rw [parent c hx]
  have hattr : ∀ q a, q ≠ p → (d.IsAttributeOf q a ↔ doc.IsAttributeOf q a) := by
    intro q a hq
    rw [IsAttributeOf, IsAttributeOf, kind]
    by_cases hx : a = id
    · subst hx
      have h1 : d.parentOf a ≠ some q := by
        rcases hnew with hn | ⟨hn, -⟩ <;> simp [hn, Ne.symm hq]
      have h2 : doc.parentOf a ≠ some q := by
        rcases hold with ho | ho <;> simp [ho, Ne.symm hq]
      simp [h1, h2]
    · rw [parent a hx]
  refine ⟨fun q => ?_, fun q => ?_, fun q a => ?_, fun q a ha => ?_, fun q c hc => ?_,
    fun c hc => ?_⟩
  · obtain ⟨cs, hch, hcnd, hcm⟩ := hw.children q
    exact ⟨cs, hch.congr (first q) (last q) (fun c _ => next c) fun c _ => prev c, hcnd,
      fun c => (hcm c).trans (hchild q c).symm⟩
  · by_cases hq : q = p
    · exact hq ▸ hnd
    · rw [others q hq]
      exact hw.attributes_nodup q
  · by_cases hq : q = p
    · exact hq ▸ hmem a
    · rw [others q hq, hattr q a hq]
      exact hw.mem_attributes q a
  · rw [kind]
    by_cases hx : a = id
    · subst hx
      rcases hnew with hn | ⟨hn, he⟩
      · rw [ha.1] at hn; cases hn
      · exact Option.some.inj (hn.symm.trans ha.1) ▸ he
    · refine hw.owner q a ⟨?_, ?_⟩
      · rw [← parent a hx]; exact ha.1
      · rw [← kind]; exact ha.2
  · rw [IsContainer, kind]
    by_cases hx : c = id
    · subst hx
      rcases hnew with hn | ⟨hn, he⟩
      · rw [hc] at hn; cases hn
      · exact Or.inl (Option.some.inj (hn.symm.trans hc) ▸ he)
    · exact hw.container q c (parent c hx ▸ hc)
  · rw [next, prev]
    by_cases hx : c = id
    · exact hx ▸ hw.alone id (Or.inr hkind)
    · rw [parent c hx, kind] at hc
      exact hw.alone c hc

theorem attributesOf_update (f : Node → Node) (g : List NodeId → List NodeId)
    (h : ∀ n, (f n).attributes = g n.attributes) (hid : id < doc.size) (x : NodeId) :
    (doc.update id f).attributesOf x =
      if x = id then g (doc.attributesOf x) else doc.attributesOf x := by
  rw [attributesOf, attributesOf, get?_update]
  by_cases hx : x = id
  · obtain ⟨node, hn⟩ := exists_get? hid
    simp [hx, hn, h]
  · rw [if_neg hx, if_neg (Ne.symm hx)]

/-- A change of one entry leaves a link alone that it does not set. -/
theorem bind_get?_update_keep (π : Node → Option NodeId) (f : Node → Node)
    (h : ∀ n, π (f n) = π n) (id x : NodeId) :
    ((doc.update id f).get? x).bind π = (doc.get? x).bind π := by
  rw [get?_update]
  split
  · rw [Option.bind_map]
    exact congrArg (Option.bind _) (funext h)
  · rfl

/-- **A detached attribute put on an element leaves the links in order**, and its parent link is
the only new one. -/
theorem Linked.insertAttribute (hw : doc.Linked) (index : Nat) (hp : doc.kindOf p = some .element)
    (hkind : doc.kindOf id = some .attribute) (hloose : doc.parentOf id = none) :
    (doc.insertAttribute p index id).Linked ∧ (doc.insertAttribute p index id).size = doc.size ∧
      (∀ x, (doc.insertAttribute p index id).kindOf x = doc.kindOf x) ∧
      ∀ x, (doc.insertAttribute p index id).parentOf x =
        if x = id then some p else doc.parentOf x := by
  have hid := lt_size_of_kindOf hkind
  have hpid : p ≠ id := by
    rintro rfl
    rw [hp] at hkind
    cases hkind
  let own : Node → Node := fun n => { n with parent := some p }
  let list : Node → Node := fun n =>
    { n with attributes := n.attributes.insertIdx (min index n.attributes.length) id }
  have hlist : ∀ x, (doc.insertAttribute p index id).attributesOf x =
      if x = p then (doc.attributesOf p).insertIdx (min index (doc.attributesOf p).length) id
      else doc.attributesOf x := by
    intro x
    have hp' : p < (doc.update id own).size := by rw [size_update]; exact lt_size_of_kindOf hp
    refine (attributesOf_update list (fun as => as.insertIdx (min index as.length) id)
      (fun _ => rfl) hp' x).trans ?_
    rw [attributesOf_update own (fun as => as) (fun _ => rfl) hid]
    by_cases hx : x = p
    · simp [hx]
    · simp [hx]
  have hparent : ∀ x, (doc.insertAttribute p index id).parentOf x =
      if x = id then some p else doc.parentOf x := by
    intro x
    refine (bind_get?_update_keep (·.parent) list (fun _ => rfl) p x).trans ?_
    exact bind_get?_update (·.parent) own (some (some p)) (fun _ => rfl) hid x
  have hkeep : ∀ (π : Node → Option NodeId), (∀ n, π (own n) = π n) → (∀ n, π (list n) = π n) →
      ∀ x, ((doc.insertAttribute p index id).get? x).bind π = (doc.get? x).bind π :=
    fun π h1 h2 x => (bind_get?_update_keep π list h2 p x).trans
      (bind_get?_update_keep π own h1 id x)
  have hkinds : ∀ x, (doc.insertAttribute p index id).kindOf x = doc.kindOf x := fun x =>
    (map_get?_update_keep (·.kind) list (fun _ => rfl) p x).trans
      (map_get?_update_keep (·.kind) own (fun _ => rfl) id x)
  -- where in the list the attribute comes does not matter for what is in it
  have hperm := List.perm_insertIdx id (doc.attributesOf p)
    (Nat.min_le_right index (doc.attributesOf p).length)
  have hout : id ∉ doc.attributesOf p := fun hm => by
    rw [((hw.mem_attributes p id).mp hm).1] at hloose
    cases hloose
  refine ⟨?_, (size_update ..).trans (size_update ..), hkinds, hparent⟩
  refine hw.of_attribute_change hkind hkinds (hkeep (·.firstChild) (fun _ => rfl) fun _ => rfl)
    (hkeep (·.lastChild) (fun _ => rfl) fun _ => rfl)
    (hkeep (·.nextSibling) (fun _ => rfl) fun _ => rfl)
    (hkeep (·.prevSibling) (fun _ => rfl) fun _ => rfl)
    (fun x hx => by rw [hparent, if_neg hx]) (Or.inl hloose)
    (Or.inr ⟨by rw [hparent, if_pos rfl], hp⟩) (fun q hq => by rw [hlist, if_neg hq]) ?_
    (fun a => ?_)
  · rw [hlist, if_pos rfl, hperm.nodup_iff]
    exact List.nodup_cons.mpr ⟨hout, hw.attributes_nodup p⟩
  · rw [hlist, if_pos rfl, hperm.mem_iff, List.mem_cons, hw.mem_attributes, IsAttributeOf,
      IsAttributeOf, hparent, hkinds]
    by_cases hx : a = id
    · simp [hx, hkind]
    · simp [hx]

/-! ## Taking nodes out -/

theorem detach_of_loose (h : doc.parentOf id = none) : doc.detach id = doc := by
  rw [detach]
  cases hn : doc.get? id with
  | none => rfl
  | some node =>
    have hp : node.parent = none := by simpa [parentOf, hn] using h
    simp [hp]

/-- What becomes of a document when a node is taken out: a child leaves the list of children it is
in, an attribute the list of its element, and a node without a parent changes nothing. -/
theorem detach_cases (hw : doc.Linked) (id : NodeId) :
    (doc.parentOf id = none ∧ doc.detach id = doc) ∨
      (∃ p l r, doc.IsChild p id ∧ doc.children p = l ++ id :: r ∧
        Removed doc (doc.detach id) p id l r) ∨
      ∃ p, doc.IsAttributeOf p id ∧
        doc.detach id = ((doc.update p (Node.dropAttribute id)).update id Node.apart).touch := by
  cases hpar : doc.parentOf id with
  | none => exact Or.inl ⟨rfl, detach_of_loose hpar⟩
  | some p =>
    right
    have hid := lt_size_of_parentOf hpar
    by_cases hkind : doc.kindOf id = some .attribute
    · refine Or.inr ⟨p, ⟨hpar, hkind⟩, ?_⟩
      obtain ⟨node, hn⟩ := exists_get? hid
      have hnp : node.parent = some p := by simpa [parentOf, hn] using hpar
      have hnk : (node.kind == .attribute) = true := by simpa [kindOf, hn] using hkind
      rw [detach]
      simp only [hn, hnp, hnk, if_true]
      rfl
    · have hmem : id ∈ doc.children p := hw.mem_children.mpr ⟨hpar, hkind⟩
      obtain ⟨l, r, hlr⟩ := List.append_of_mem hmem
      refine Or.inl ⟨p, l, r, ⟨hpar, hkind⟩, hlr, ?_⟩
      refine detach_removed (hw.container p id hpar).lt_size hid hpar hkind (hlr ▸ hw.chain p)
        (fun c hc => ?_) (hlr ▸ hw.children_nodup p)
      exact hw.lt_size_of_mem (hlr ▸ hc)

/-- An attribute that is taken off its element leaves the links between children alone: it has no
siblings to begin with. -/
theorem detach_attribute_siblings (hw : doc.Linked) (ha : doc.IsAttributeOf p id)
    (hd : d = ((doc.update p (Node.dropAttribute id)).update id Node.apart).touch) :
    (∀ x, d.firstOf x = doc.firstOf x) ∧ (∀ x, d.lastOf x = doc.lastOf x) ∧
      (∀ x, d.nextOf x = doc.nextOf x) ∧ ∀ x, d.prevOf x = doc.prevOf x := by
  have hid' : id < (doc.update p (Node.dropAttribute id)).size := by
    rw [size_update]
    exact lt_size_of_parentOf ha.1
  have hkeep (π : Node → Option NodeId) (h1 : ∀ n : Node, π n.apart = π n)
      (h2 : ∀ n : Node, π (n.dropAttribute id) = π n) (x : NodeId) :
      (d.get? x).bind π = (doc.get? x).bind π := by
    rw [hd]
    exact (bind_get?_update_keep π _ h1 id x).trans (bind_get?_update_keep π _ h2 p x)
  have hset (π : Node → Option NodeId) (h1 : ∀ n : Node, π n.apart = none)
      (h2 : ∀ n : Node, π (n.dropAttribute id) = π n) (hnone : (doc.get? id).bind π = none)
      (x : NodeId) : (d.get? x).bind π = (doc.get? x).bind π := by
    rw [hd]
    refine (bind_get?_update π _ (some none) h1 hid' x).trans ?_
    rw [bind_get?_update_keep π _ h2 p x]
    split
    · next hx => exact (hx ▸ hnone).symm
    · rfl
  obtain ⟨hnext, hprev⟩ := hw.alone id (Or.inr ha.2)
  exact ⟨hkeep (·.firstChild) (fun _ => rfl) fun _ => rfl,
    hkeep (·.lastChild) (fun _ => rfl) fun _ => rfl,
    hset (·.nextSibling) (fun _ => rfl) (fun _ => rfl) hnext,
    hset (·.prevSibling) (fun _ => rfl) (fun _ => rfl) hprev⟩

theorem detach_attribute_linked (hw : doc.Linked) (ha : doc.IsAttributeOf p id)
    (hd : d = ((doc.update p (Node.dropAttribute id)).update id Node.apart).touch) :
    d.Linked ∧ d.size = doc.size ∧ (∀ x, d.kindOf x = doc.kindOf x) ∧
      ∀ x, d.parentOf x = if x = id then none else doc.parentOf x := by
  have hid := lt_size_of_parentOf ha.1
  have hp := (hw.container p id ha.1).lt_size
  have hid' : id < (doc.update p (Node.dropAttribute id)).size := by rw [size_update]; exact hid
  have hsize : d.size = doc.size := by
    rw [hd]
    exact (size_update ..).trans (size_update ..)
  have hkind : ∀ x, d.kindOf x = doc.kindOf x := by
    intro x
    rw [hd]
    exact (map_get?_update_keep (·.kind) Node.apart (fun _ => rfl) id x).trans
      (map_get?_update_keep (·.kind) (Node.dropAttribute id) (fun _ => rfl) p x)
  have hparent : ∀ x, d.parentOf x = if x = id then none else doc.parentOf x := by
    intro x
    rw [hd]
    refine (bind_get?_update (·.parent) Node.apart (some none) (fun _ => rfl) hid' x).trans ?_
    rw [bind_get?_update_keep (·.parent) (Node.dropAttribute id) (fun _ => rfl) p x]
    rfl
  have hlist : ∀ x, d.attributesOf x =
      if x = p then (doc.attributesOf x).filter (· != id) else doc.attributesOf x := by
    intro x
    rw [hd]
    refine (attributesOf_update Node.apart (fun as => as) (fun _ => rfl) hid' x).trans ?_
    rw [ite_self]
    exact attributesOf_update (Node.dropAttribute id) (fun as => as.filter (· != id))
      (fun _ => rfl) hp x
  obtain ⟨hfirst, hlast, hnext, hprev⟩ := detach_attribute_siblings hw ha hd
  refine ⟨?_, hsize, hkind, hparent⟩
  refine hw.of_attribute_change ha.2 hkind hfirst hlast hnext hprev
    (fun x hx => (hparent x).trans (if_neg hx)) (Or.inr ha.1)
    (Or.inl ((hparent id).trans (if_pos rfl))) (fun q hq => by rw [hlist, if_neg hq]) ?_
    (fun a => ?_)
  · rw [hlist, if_pos rfl]
    exact (hw.attributes_nodup p).filter _
  · rw [hlist, if_pos rfl, List.mem_filter, hw.mem_attributes, IsAttributeOf, IsAttributeOf,
      hparent, hkind]
    by_cases hx : a = id
    · simp [hx]
    · simp [hx]

/-- **Taking any node out leaves the links in order**, and its parent link is the only one that
goes. -/
theorem Linked.detach_spec (hw : doc.Linked) (id : NodeId) :
    (doc.detach id).Linked ∧ (doc.detach id).size = doc.size ∧
      (∀ x, (doc.detach id).kindOf x = doc.kindOf x) ∧
      ∀ x, (doc.detach id).parentOf x = if x = id then none else doc.parentOf x := by
  rcases detach_cases hw id with ⟨hpar, hd⟩ | ⟨p, l, r, hchild, hlr, hr⟩ | ⟨p, ha, hd⟩
  · rw [hd]
    refine ⟨hw, rfl, fun _ => rfl, fun x => ?_⟩
    by_cases hx : x = id
    · simp [hx, hpar]
    · simp [hx]
  · exact ⟨hr.linked hw hchild hlr, hr.size, hr.kind, hr.parent⟩
  · exact detach_attribute_linked hw ha hd

theorem Linked.detach (hw : doc.Linked) (id : NodeId) : (doc.detach id).Linked :=
  (hw.detach_spec id).1

theorem Linked.kindOf_detach (hw : doc.Linked) (id x : NodeId) :
    (doc.detach id).kindOf x = doc.kindOf x :=
  (hw.detach_spec id).2.2.1 x

theorem Linked.parentOf_detach (hw : doc.Linked) (id x : NodeId) :
    (doc.detach id).parentOf x = if x = id then none else doc.parentOf x :=
  (hw.detach_spec id).2.2.2 x

end Document

end Xml
