import Xml.Proofs.Steps.DocumentNode

/-!
# The level of the document element

Among the children of the document node there is at most one element and at most one document type
declaration; the others are comments and instructions. Reading keeps to that because the events of a
scan do, and every operation keeps to it, each with a question of its own: the one that puts a node
under another, the ones that put it beside another or in its place, and the one that installs a
document element.

* `Step.shaped` — what every operation keeps
* `Builder.Framed.add` — what every event keeps
-/

namespace Xml.Document

open Scan List

variable {doc d : Document} {op : Operation} {id p c : NodeId}

/-- What may stand at the level of the document element. -/
structure Shaped (doc : Document) : Prop where
  kinds : ∀ c, doc.IsChild root c → doc.kindOf c = some .element ∨ doc.kindOf c = some .comment ∨
    doc.kindOf c = some .instruction ∨ doc.kindOf c = some .doctype
  /-- One of a kind, if it is an element or a document type declaration. -/
  single : ∀ kind, kind = .element ∨ kind = .doctype → ∀ c c', doc.IsChild root c →
    doc.IsChild root c' → doc.kindOf c = some kind → doc.kindOf c' = some kind → c = c'

/-- Children that stay what they are keep the shape. -/
theorem Shaped.mono (h : doc.Shaped)
    (hchild : ∀ c, d.IsChild root c → doc.IsChild root c ∧ d.kindOf c = doc.kindOf c) :
    d.Shaped := by
  constructor
  · intro c hc
    rw [(hchild c hc).2]
    exact h.kinds c (hchild c hc).1
  · intro kind hkind c c' hc hc' hk hk'
    rw [(hchild c hc).2] at hk
    rw [(hchild c' hc').2] at hk'
    exact h.single kind hkind c c' (hchild c hc).1 (hchild c' hc').1 hk hk'

/-- One more child keeps the shape, if it is of a kind that may stand there and not the second of
its kind. -/
theorem Shaped.insert (h : doc.Shaped)
    (hchild : ∀ c, d.IsChild root c → c ≠ id → doc.IsChild root c ∧ d.kindOf c = doc.kindOf c)
    (hkinds : d.kindOf id = some .element ∨ d.kindOf id = some .comment ∨
      d.kindOf id = some .instruction ∨ d.kindOf id = some .doctype)
    (hsingle : ∀ kind, kind = .element ∨ kind = .doctype → d.kindOf id = some kind →
      ∀ c, d.IsChild root c → d.kindOf c = some kind → c = id) : d.Shaped := by
  constructor
  · intro c hc
    by_cases he : c = id
    · rw [he]
      exact hkinds
    · rw [(hchild c hc he).2]
      exact h.kinds c (hchild c hc he).1
  · intro kind hkind c c' hc hc' hk hk'
    by_cases he : c = id
    · exact he.trans (hsingle kind hkind (he ▸ hk) c' hc' hk').symm
    · by_cases he' : c' = id
      · exact absurd (hsingle kind hkind (he' ▸ hk') c hc hk) he
      · rw [(hchild c hc he).2] at hk
        rw [(hchild c' hc' he').2] at hk'
        exact h.single kind hkind c c' (hchild c hc he).1 (hchild c' hc' he').1 hk hk'

theorem Shaped.rootElement?_eq (h : doc.Shaped) (hw : doc.Linked) {e : NodeId} :
    doc.rootElement? = some e ↔ e ∈ doc.children root ∧ doc.kindOf e = some .element := by
  constructor
  · intro he
    obtain ⟨hchild, hk⟩ := hw.rootElement? he
    exact ⟨hw.mem_children.mpr hchild, hk⟩
  · rintro ⟨hmem, hk⟩
    have hsome : (doc.rootElement?).isSome := by
      rw [rootElement?, find?_isSome]
      exact ⟨e, hmem, beq_iff_eq.mpr hk⟩
    obtain ⟨e', he'⟩ := Option.isSome_iff_exists.mp hsome
    obtain ⟨hchild', hk'⟩ := hw.rootElement? he'
    rw [he', h.single .element (.inl rfl) e e' (hw.mem_children.mp hmem) hchild' hk hk']

/-! ## Operations -/

/-- **Every operation keeps the shape.** -/
theorem Step.shaped (h : Step doc op d) (hw : doc.Linked)
    (hroot : doc.kindOf root = some .document)
    (hkind : ∀ x, x < doc.size → d.kindOf x = doc.kindOf x) (hs : doc.Shaped) : d.Shaped := by
  -- a child that was a child before
  have old {c : NodeId} (hc : d.IsChild root c) (hp : doc.parentOf c = some root) :
      doc.IsChild root c ∧ d.kindOf c = doc.kindOf c := by
    have hk := hkind c (lt_size_of_parentOf hp)
    exact ⟨⟨hp, hk ▸ hc.2⟩, hk⟩
  cases h.resettles hroot with
  | few hfew =>
    refine hs.mono fun c hc => old hc ?_
    rcases hfew c root hc.1 with hp | ⟨-, hne⟩
    · exact hp
    · exact absurd rfl hne
  | @put id p gone hparent hmoves htop =>
    have hold : ∀ c, d.IsChild root c → c ≠ id → doc.parentOf c = some root ∧ some c ≠ gone := by
      intro c hc hne
      have hp := hc.1
      rw [hparent, if_neg hne] at hp
      split at hp
      · cases hp
      · next hgone => exact ⟨hp, hgone⟩
    -- the level changes only if the node is put under the document node
    by_cases hp : p = root
    · have htop := htop hp
      have hkid : d.kindOf id = doc.kindOf id := by
        refine hkind id ?_
        rcases htop with hk | hk | ⟨hk, -⟩ <;> exact lt_size_of_kindOf hk
      refine hs.insert (fun c hc hne => old hc (hold c hc hne).1) ?_ ?_
      · rw [hkid]
        rcases htop with hk | hk | ⟨hk, -⟩
        · exact .inr (.inl hk)
        · exact .inr (.inr (.inl hk))
        · exact .inl hk
      · rintro kind hkinds hk c hc hkc
        by_contra hne
        obtain ⟨hpc, hgone⟩ := hold c hc hne
        obtain ⟨hchild, hkc'⟩ := old hc hpc
        rw [hkid] at hk
        rcases htop with he | he | ⟨he, hother⟩ <;> obtain rfl := Option.some.inj (hk.symm.trans he)
        · rcases hkinds with h | h <;> cases h
        · rcases hkinds with h | h <;> cases h
        · -- the element that was there is the document element, and that one has made room
          have helement := (hs.rootElement?_eq hw).mpr
            ⟨hw.mem_children.mpr hchild, hkc'.symm.trans hkc⟩
          exact (hother c helement).elim hne hgone
    · refine hs.mono fun c hc => old hc (hold c hc ?_).1
      rintro rfl
      have hpc := hc.1
      rw [hparent, if_pos rfl] at hpc
      exact hp (Option.some.inj hpc)

/-! ## Reading -/

/-- A new node that may stand where it is put keeps the shape. -/
theorem Shaped.gained (hs : doc.Shaped) {node : Node} (h : Gained doc d node p)
    (hkinds : p = root → node.kind = .element ∨ node.kind = .comment ∨ node.kind = .instruction ∨
      node.kind = .doctype)
    (hsingle : p = root → node.kind = .element ∨ node.kind = .doctype →
      ∀ c, doc.IsChild root c → doc.kindOf c ≠ some node.kind) : d.Shaped := by
  have old : ∀ c, d.IsChild root c → c ≠ doc.size →
      doc.IsChild root c ∧ d.kindOf c = doc.kindOf c := by
    intro c hc hne
    rw [IsChild, h.parentOf, h.kindOf, if_neg hne, if_neg hne] at hc
    exact ⟨hc, by rw [h.kindOf, if_neg hne]⟩
  have hnew : d.kindOf doc.size = some node.kind := by rw [h.kindOf, if_pos rfl]
  by_cases hp : p = root
  · refine hs.insert old ?_ fun kind hkind hk c hc hkc => ?_
    · rw [hnew]
      exact (hkinds hp).imp (congrArg some)
        (.imp (congrArg some) (.imp (congrArg some) (congrArg some)))
    · by_contra hne
      obtain rfl := Option.some.inj (hnew.symm.trans hk)
      obtain ⟨hchild, hkc'⟩ := old c hc hne
      exact hsingle hp hkind c hchild (hkc'.symm.trans hkc)
  · refine hs.mono fun c hc => old c hc ?_
    rintro rfl
    have hpc := hc.1
    rw [h.parentOf, if_pos rfl] at hpc
    exact hp (Option.some.inj hpc)

theorem Equipped.isChild {as : List Node} (h : Equipped p as doc d) {q : NodeId}
    (hc : d.IsChild q c) : doc.IsChild q c ∧ d.kindOf c = doc.kindOf c := by
  by_cases hlt : c < doc.size
  · obtain ⟨hlabel, hparent⟩ := h.old.2 c hlt
    have hk : d.kindOf c = doc.kindOf c := by rw [kindOf_eq, kindOf_eq, hlabel]
    exact ⟨⟨hparent ▸ hc.1, hk ▸ hc.2⟩, hk⟩
  · exact absurd (h.new (Nat.le_of_not_lt hlt) hc.1).2 hc.2

namespace Builder

/-- What stands at the level of the document element was told by the events. -/
structure Framed (events : List Event) (d : Document) : Prop where
  shaped : d.Shaped
  element : ∀ c, d.IsChild root c → d.kindOf c = some .element → ∃ e ∈ events, isStart e = true
  doctype : ∀ c, d.IsChild root c → d.kindOf c = some .doctype → ∃ e ∈ events, isDoctype e = true

variable {i : Nat} {b : Builder} {events before : List Event} {e : Event}

theorem Framed.mono (h : Framed events doc)
    (hchild : ∀ c, d.IsChild root c → doc.IsChild root c ∧ d.kindOf c = doc.kindOf c) :
    Framed events d :=
  ⟨h.shaped.mono hchild, fun c hc hk => h.element c (hchild c hc).1 ((hchild c hc).2 ▸ hk),
    fun c hc hk => h.doctype c (hchild c hc).1 ((hchild c hc).2 ▸ hk)⟩

theorem Framed.snoc (h : Framed before doc) (e : Event) : Framed (before ++ [e]) doc := by
  refine ⟨h.shaped, fun c hc hk => ?_, fun c hc hk => ?_⟩
  · obtain ⟨e', hmem, he'⟩ := h.element c hc hk
    exact ⟨e', mem_append_left _ hmem, he'⟩
  · obtain ⟨e', hmem, he'⟩ := h.doctype c hc hk
    exact ⟨e', mem_append_left _ hmem, he'⟩

/-- The node that an event tells is of a kind that may stand at this level, and the first of its
kind there if it has to be. -/
structure Admitted (before : List Event) (e : Event) (kind : NodeKind) : Prop where
  kinds : kind = .element ∨ kind = .comment ∨ kind = .instruction ∨ kind = .doctype
  element : kind = .element → isStart e = true ∧ ∀ e' ∈ before, isStart e' = false
  doctype : kind = .doctype → isDoctype e = true ∧ ∀ e' ∈ before, isDoctype e' = false

theorem Framed.gained {node : Node} (h : Framed before doc) (hgain : Gained doc d node p)
    (ha : p = root → Admitted before e node.kind) : Framed (before ++ [e]) d := by
  have told {kind : NodeKind} {test : Event → Bool}
      (hold : ∀ c, doc.IsChild root c → doc.kindOf c = some kind → ∃ e ∈ before, test e = true)
      (hnew : p = root → node.kind = kind → test e = true) :
      ∀ c, d.IsChild root c → d.kindOf c = some kind → ∃ e' ∈ before ++ [e], test e' = true := by
    intro c hc hk
    rw [IsChild, hgain.parentOf] at hc
    rw [hgain.kindOf] at hc hk
    by_cases hx : c = doc.size
    · rw [if_pos hx] at hc hk
      exact ⟨e, mem_append_right _ mem_cons_self,
        hnew (Option.some.inj hc.1) (Option.some.inj hk)⟩
    · rw [if_neg hx] at hc hk
      rw [if_neg hx] at hc
      obtain ⟨e', hmem, he'⟩ := hold c hc hk
      exact ⟨e', mem_append_left _ hmem, he'⟩
  refine ⟨h.shaped.gained hgain (fun hp => (ha hp).kinds) fun hp hkind c hc hk => ?_,
    told h.element fun hp hk => ((ha hp).element hk).1,
    told h.doctype fun hp hk => ((ha hp).doctype hk).1⟩
  rcases hkind with hkind | hkind <;> rw [hkind] at hk
  · obtain ⟨e', hmem, he'⟩ := h.element c hc hk
    rw [((ha hp).element hkind).2 e' hmem] at he'
    cases he'
  · obtain ⟨e', hmem, he'⟩ := h.doctype c hc hk
    rw [((ha hp).doctype hkind).2 e' hmem] at he'
    cases he'

/-- Where no element is open, only comments, instructions and a first document type are told. -/
theorem admitted_child {kind : NodeKind} (ho : openAfter before = []) (ha : Allowed before e)
    (hk : kind? e = some kind) : Admitted before e kind := by
  cases e <;> cases hk
  case characters text => exact absurd ho ha.2.1
  case startCData => exact absurd ho ha
  case entityReference name replacement => exact absurd ho ha
  case comment text => exact ⟨.inr (.inl rfl), by simp, by simp⟩
  case instruction target data => exact ⟨.inr (.inr (.inl rfl)), by simp, by simp⟩
  case doctype declaration =>
    exact ⟨.inr (.inr (.inr rfl)), by simp, fun _ => ⟨rfl, fun e' he' => (ha e' he').1⟩⟩

theorem Grown.opened_eq_nil (hg : b.Grown i) (hc : b.current = root) : b.opened = [] := by
  cases ho : b.opened with
  | nil => rfl
  | cons id rest =>
    have hel := hg.opened id (ho ▸ mem_cons_self)
    rw [Builder.current, ho] at hc
    rw [show id = root from hc, hg.kindOf_root] at hel
    cases hel

/-- **Every event keeps the shape**, if the events before it allow it. -/
theorem Framed.add (hr : Reads i before e b) (h : Framed before b.doc) :
    Framed (before ++ [e]) (b.add e).doc := by
  -- a node comes under the document node only while the events have no element open
  have hnil (hc : b.current = root) : openAfter before = [] := by
    rw [← length_eq_zero_iff, ← hr.depth, hr.grown.opened_eq_nil hc]
    rfl
  have ha := hr.allowed
  cases hr.grown.tells e with
  | kept he labels places opened scopes =>
    refine (h.mono fun c hc => ?_).snoc e
    rw [IsChild, places.parentOf, places.kindOf] at hc
    exact ⟨hc, places.kindOf c⟩
  | child he hgain opened scopes =>
    exact h.gained hgain fun hc => admitted_child (hnil hc) ha he
  | start hinside helement hattributes opened scopes =>
    refine (h.gained helement fun hc => ?_).mono fun c hc => hattributes.isChild hc
    exact ⟨.inl rfl, fun _ => ⟨rfl, ha (hnil hc)⟩, fun hd => by cases hd⟩
  | close hdoc opened scopes =>
    rw [hdoc]
    exact h.snoc _

theorem framed_initial (i : Nat) : Framed [] (initial i).doc := by
  have hchild (c : NodeId) : ¬ (initial i).doc.IsChild root c := fun hc => by
    rw [IsChild, parentOf_initial] at hc
    cases hc.1
  exact ⟨⟨fun c hc => absurd hc (hchild c), fun _ _ c _ hc => absurd hc (hchild c)⟩,
    fun c hc => absurd hc (hchild c), fun c hc => absurd hc (hchild c)⟩

end Builder

/-- **A document to start from has the shape.** -/
theorem Initial.shaped (h : Initial doc) : doc.Shaped := by
  obtain ⟨events, b, hframed, hnodes⟩ := h.built (P := fun events b => Builder.Framed events b.doc)
    Builder.framed_initial fun i before e b hr hb => hb.add hr
  have hplaces : SamePlaces b.doc doc := .of_nodes_eq hnodes
  refine hframed.shaped.mono fun c hc => ?_
  rw [IsChild, hplaces.parentOf, hplaces.kindOf] at hc
  exact ⟨hc, hplaces.kindOf c⟩

/-! ## Runs -/

theorem Initial.run_shaped (h : Initial doc) (ops : List Operation) : (run ops doc).Shaped := by
  induction ops using List.reverseRecOn with
  | nil => exact h.shaped
  | append_singleton ops op ih =>
    obtain ⟨hw, hroot⟩ := h.run_linked ops
    rw [run_append_singleton]
    exact (op.step hw hroot).shaped hw hroot ((op.relinks hw hroot).1.kindOf hw).2 ih

theorem length_filter_le_one {cs : List NodeId} (hnd : cs.Nodup) {test : NodeId → Bool}
    (h : ∀ c ∈ cs, ∀ c' ∈ cs, test c = true → test c' = true → c = c') :
    (cs.filter test).length ≤ 1 := by
  cases hf : cs.filter test with
  | nil => exact Nat.zero_le _
  | cons a rest =>
    obtain ⟨ha, hta⟩ := mem_filter.mp (hf ▸ mem_cons_self)
    have hsub : cs.filter test ⊆ [a] := fun c hc => by
      obtain ⟨hc, htc⟩ := mem_filter.mp hc
      exact mem_singleton.mpr (h c hc a ha htc hta)
    exact hf ▸ (subperm_of_subset (hnd.filter test) hsub).length_le

/-- **The children of the document node along every run** are elements, comments, instructions and
document type declarations, at most one of them an element and at most one a document type
declaration. The document element is that element. -/
theorem children_of_document_node (start : Document) (h : Initial start) (ops : List Operation) :
    (∀ c ∈ (run ops start).children root,
        (run ops start).kindOf c = some .element ∨ (run ops start).kindOf c = some .comment ∨
        (run ops start).kindOf c = some .instruction ∨ (run ops start).kindOf c = some .doctype) ∧
      (((run ops start).children root).filter
        fun c => (run ops start).kindOf c == some .element).length ≤ 1 ∧
      (((run ops start).children root).filter
        fun c => (run ops start).kindOf c == some .doctype).length ≤ 1 ∧
      ∀ e, (run ops start).rootElement? = some e ↔
        e ∈ (run ops start).children root ∧ (run ops start).kindOf e = some .element := by
  obtain ⟨hw, -⟩ := h.run_linked ops
  have hs := h.run_shaped ops
  have single (kind : NodeKind) (hkind : kind = .element ∨ kind = .doctype) :
      (((run ops start).children root).filter
        fun c => (run ops start).kindOf c == some kind).length ≤ 1 :=
    length_filter_le_one (hw.children_nodup root) fun c hc c' hc' hk hk' =>
      hs.single kind hkind c c' (hw.mem_children.mp hc) (hw.mem_children.mp hc')
        (beq_iff_eq.mp hk) (beq_iff_eq.mp hk')
  exact ⟨fun c hc => hs.kinds c (hw.mem_children.mp hc), single .element (.inl rfl),
    single .doctype (.inr rfl), fun e => hs.rootElement?_eq hw⟩

/-- An element is made and installed, a second one replaces it, and a copy of that one is refused as
a sibling. -/
def exchangeRoot : List Operation :=
  [.createElement "a", .createElement "b", .createComment "c", .setRoot ⟨0, 1, .element⟩,
    .addSibling .before ⟨0, 1, .element⟩ ⟨0, 3, .comment⟩,
    .replace ⟨0, 1, .element⟩ ⟨0, 2, .element⟩, .duplicate ⟨0, 2, .element⟩,
    .addSibling .after ⟨0, 2, .element⟩ ⟨0, 4, .element⟩]

theorem children_of_exchanged_root :
    Initial (empty 0) ∧ (run exchangeRoot (empty 0)).children root = [3, 2] ∧
      (run exchangeRoot (empty 0)).rootElement? = some 2 := by
  have hinit := Initial.new 0
  have hchildren : (run exchangeRoot (empty 0)).children root = [3, 2] := by decide
  refine ⟨hinit, hchildren, ?_⟩
  obtain ⟨-, -, -, hroot⟩ := children_of_document_node _ hinit exchangeRoot
  refine (hroot 2).mpr ⟨?_, by decide⟩
  rw [hchildren]
  decide

end Xml.Document
