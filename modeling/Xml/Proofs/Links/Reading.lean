import Xml.Document.Build
import Xml.Proofs.Links.Edits

/-!
# Reading as changes of the links

A document that is read starts with the document node alone and grows by new nodes under the
innermost open element. That is so for any list of events, whether a scan can deliver it or not:
the elements that are open are in the table, and they are elements.
-/

namespace Xml.Document

/-! ## The document node alone -/

theorem get?_empty (i : Nat) (x : NodeId) :
    (empty i).get? x = if x = root then some { kind := .document } else none := by
  rw [get?, empty, root]
  cases x with
  | zero => rfl
  | succ x => rfl

theorem kindOf_root_empty (i : Nat) : (empty i).kindOf root = some .document := rfl

/-- In the document node alone no link is set. -/
theorem bind_get?_empty (i : Nat) (π : Node → Option NodeId) (h : π { kind := .document } = none)
    (x : NodeId) : ((empty i).get? x).bind π = none := by
  rw [get?_empty]
  split
  · exact h
  · rfl

theorem linked_empty (i : Nat) : (empty i).Linked := by
  have parent : ∀ x, (empty i).parentOf x = none := bind_get?_empty i (·.parent) rfl
  have attributes : ∀ x, (empty i).attributesOf x = [] := by
    intro x
    rw [attributesOf, get?_empty]
    split <;> rfl
  have noChild : ∀ p c, ¬ (empty i).IsChild p c := fun p c h => by
    rw [IsChild, parent] at h
    cases h.1
  refine ⟨fun p => ⟨[], ⟨?_, ?_, ?_, ?_⟩, List.nodup_nil, fun c => ?_⟩, fun p => ?_, fun p a => ?_,
    fun p a ha => ?_, fun p c hc => ?_, fun c _ => ?_⟩
  · exact bind_get?_empty i (·.firstChild) rfl p
  · exact bind_get?_empty i (·.lastChild) rfl p
  · trivial
  · trivial
  · simp [noChild]
  · rw [attributes]
    exact List.nodup_nil
  · simp [attributes, IsAttributeOf, parent]
  · rw [IsAttributeOf, parent] at ha
    cases ha.1
  · rw [parent] at hc
    cases hc
  · exact ⟨bind_get?_empty i (·.nextSibling) rfl c, bind_get?_empty i (·.prevSibling) rfl c⟩

theorem acyclic_empty (i : Nat) : (empty i).Acyclic := by
  intro n h
  obtain ⟨p, hp⟩ := h.exists_parent
  have hnone : (empty i).parentOf n = none := bind_get?_empty i (·.parent) rfl n
  rw [hnone] at hp
  cases hp

/-! ## Events -/

namespace Builder

/-- A document that is being built from the document node alone. -/
structure Grown (i : Nat) (b : Builder) : Prop where
  relinks : Relinks Outside (empty i) b.doc
  opened : ∀ id ∈ b.opened, b.doc.kindOf id = some .element

variable {i : Nat} {b b' : Builder}

theorem Grown.linked (h : Grown i b) : b.doc.Linked :=
  h.relinks.linked (linked_empty i)

theorem Grown.kindOf_root (h : Grown i b) : b.doc.kindOf root = some .document :=
  ((h.relinks.kindOf (linked_empty i)).2 root Nat.one_pos).trans (kindOf_root_empty i)

/-- Growing on: more changes, and what is open is what was open or an element. -/
theorem Grown.step (h : Grown i b) (hr : Relinks Outside b.doc b'.doc)
    (hopen : ∀ id ∈ b'.opened, id ∈ b.opened ∨ b'.doc.kindOf id = some .element) :
    Grown i b' := by
  refine ⟨h.relinks.trans hr, fun id hid => ?_⟩
  rcases hopen id hid with hid | hid
  · have hk := h.opened id hid
    exact ((hr.kindOf h.linked).2 id (lt_size_of_kindOf hk)).trans hk
  · exact hid

theorem Grown.current (h : Grown i b) : b.doc.IsContainer b.current := by
  rw [Builder.current]
  cases ho : b.opened with
  | nil => exact Or.inr h.kindOf_root
  | cons id rest => exact Or.inl (h.opened id (ho ▸ List.mem_cons_self))

theorem Grown.append (h : Grown i b) {node : Node} (hn : node.Unlinked)
    (hk : node.kind ≠ .attribute) :
    Grown i (b.append node).2 ∧
      (b.append node).2.doc.kindOf (b.append node).1 = some node.kind := by
  obtain ⟨hr, hnew⟩ := h.linked.append_new hn hk h.current (h.linked.outside_new hn h.current)
  exact ⟨h.step hr fun id hid => Or.inl hid, hnew⟩

/-- Looking up a prefix changes nothing but the list of problems. -/
theorem resolve_eq {nsPrefix uri : String} {problem : Problem}
    (h : b.resolve nsPrefix problem = (uri, b')) :
    uri = (b.scopes.resolve nsPrefix).getD "" ∧ ∃ errors, b' = { b with errors := errors } := by
  rw [resolve] at h
  split at h
  · next hfound =>
    cases h
    exact ⟨by rw [hfound, Option.getD_some], b.errors, rfl⟩
  · next hnone =>
    cases h
    exact ⟨by rw [hnone, Option.getD_none], _, rfl⟩

def attributeNode (a : Attribute) (uri : String) : Node :=
  { kind := .attribute, name := a.name, namespaceUri := uri, content := a.value }

/-- The namespace that open scopes give to the name of an attribute. -/
def attributeUri (scopes : Namespace.Scopes) (name : String) : String :=
  ((qualifier? name).bind scopes.resolve).getD ""

/-- **What adding an attribute does.** -/
theorem addAttribute_eq (element : NodeId) (name : String) (b : Builder) (a : Attribute) :
    ∃ errors, addAttribute element name b a =
      { b with
        doc := (b.doc.alloc (attributeNode a (attributeUri b.scopes a.name))).2.appendAttribute
          element b.doc.size
        errors := errors } := by
  have hsize (uri : String) : (b.doc.alloc (attributeNode a uri)).1 = b.doc.size := alloc_fst ..
  rw [Builder.addAttribute]
  split
  next uri b' heq =>
  obtain ⟨huri, errors, rfl⟩ : uri = attributeUri b.scopes a.name ∧
      ∃ errors, b' = { b with errors := errors } := by
    rw [attributeUri, qualifier?]
    split at heq
    · next hname =>
      rw [hname]
      exact resolve_eq heq
    · next hname =>
      cases heq
      rw [hname]
      exact ⟨rfl, b.errors, rfl⟩
  refine ⟨errors, ?_⟩
  rw [← huri, ← hsize uri]
  rfl

def elementNode (name uri : String) (declarations : List NamespaceDecl) : Node :=
  { kind := .element, name, namespaceUri := uri, declarations }

/-- The namespace that open scopes give to the name of an element. -/
def elementUri (scopes : Namespace.Scopes) (name : String) : String :=
  (scopes.resolve ((qualifier? name).getD "")).getD ""

/-- The scopes inside an element with these declarations. -/
def scopesInside (scopes : Namespace.Scopes) (declarations : List NamespaceDecl) :
    Namespace.Scopes :=
  declarations.foldl (fun s d => s.declare d.nsPrefix d.uri) scopes.push

/-- The element that comes next, with its attributes, opened. -/
def opening (b : Builder) (name : String) (node : Node) (attributes : List Attribute) : Builder :=
  let made := attributes.foldl (addAttribute b.doc.size name) (b.append node).2
  { made with opened := b.doc.size :: made.opened }

/-- What the attributes of a start tag declare. -/
def declarationsOf (attributes : List Attribute) : List NamespaceDecl :=
  (attributes.filter fun a => isNamespaceDeclaration a.name).map declarationOf

/-- **What a start tag does.** -/
theorem startElement_eq (b : Builder) (name : String) (attributes : List Attribute) :
    ∃ errors, b.startElement name attributes =
      opening { b with
          errors := errors, scopes := scopesInside b.scopes (declarationsOf attributes) } name
        (elementNode name (elementUri (scopesInside b.scopes (declarationsOf attributes)) name)
          (declarationsOf attributes))
        (attributes.filter fun a => !isNamespaceDeclaration a.name) := by
  unfold Builder.startElement
  extract_lets isDeclaration declarations scopes b₁
  split
  next uri b' heq =>
  obtain ⟨huri, errors, rfl⟩ : uri = elementUri scopes name ∧
      ∃ errors, b' = { b₁ with errors := errors } := by
    rw [elementUri, qualifier?]
    split at heq
    · next hname =>
      rw [hname]
      exact resolve_eq heq
    · next hname =>
      cases heq
      rw [hname]
      exact ⟨rfl, b.errors, rfl⟩
  refine ⟨errors, ?_⟩
  have hsize : ({ b₁ with errors := errors }.append (elementNode name uri declarations)).1 =
      b.doc.size := alloc_fst ..
  rw [opening, ← hsize, huri]
  rfl

theorem Grown.of_eq (h : Grown i b) (hdoc : b'.doc = b.doc) (hopen : b'.opened = b.opened) :
    Grown i b' :=
  h.step (hdoc ▸ .refl) fun _ hid => Or.inl (hopen ▸ hid)

theorem Grown.addAttribute (h : Grown i b) {element : NodeId} (name : String)
    (he : b.doc.kindOf element = some .element) (a : Attribute) :
    Grown i (addAttribute element name b a) ∧
      (addAttribute element name b a).doc.kindOf element = some .element := by
  obtain ⟨errors, heq⟩ := addAttribute_eq element name b a
  have hn : (attributeNode a (attributeUri b.scopes a.name)).Unlinked :=
    rfl
  have hr := append_new_attribute (G := Outside) hn rfl he
  rw [alloc_fst] at hr
  rw [heq]
  refine ⟨h.step hr fun _ hid => Or.inl hid, ?_⟩
  exact ((hr.kindOf h.linked).2 element (lt_size_of_kindOf he)).trans he

theorem Grown.addAttributes {element : NodeId} (name : String) (as : List Attribute)
    (h : Grown i b) (he : b.doc.kindOf element = some .element) :
    Grown i (as.foldl (Builder.addAttribute element name) b) ∧
      (as.foldl (Builder.addAttribute element name) b).doc.kindOf element = some .element := by
  induction as generalizing b with
  | nil => exact ⟨h, he⟩
  | cons a as ih =>
    obtain ⟨h', he'⟩ := h.addAttribute name he a
    exact ih h' he'

theorem Grown.opening (h : Grown i b) (name : String) {node : Node} (hn : node.Unlinked)
    (hk : node.kind = .element) (as : List Attribute) : Grown i (b.opening name node as) := by
  obtain ⟨happ, hnew⟩ := h.append hn (by rw [hk]; decide)
  have hsize : (b.append node).1 = b.doc.size := alloc_fst ..
  rw [hk, hsize] at hnew
  obtain ⟨hgrown, hel⟩ := happ.addAttributes name as hnew
  refine hgrown.step .refl fun id hid => ?_
  rcases List.mem_cons.mp hid with rfl | hid
  · exact Or.inr hel
  · exact Or.inl hid

theorem Grown.startElement (h : Grown i b) (name : String) (attributes : List Attribute) :
    Grown i (b.startElement name attributes) := by
  obtain ⟨errors, heq⟩ := startElement_eq b name attributes
  have hsame : Grown i { b with
      errors := errors, scopes := scopesInside b.scopes (declarationsOf attributes) } :=
    h.of_eq rfl rfl
  rw [heq]
  exact hsame.opening name (by rfl) rfl _

/-- **Every event leaves a document that is being built in order.** -/
theorem Grown.add (h : Grown i b) (e : Event) : Grown i (b.add e) := by
  have append : ∀ {node : Node}, node.Unlinked → node.kind ≠ .attribute →
      Grown i (b.append node).2 := fun hn hk => (h.append hn hk).1
  cases e with
  | startElement name attributes => exact h.startElement name attributes
  | endElement name => exact h.step .refl fun id hid => Or.inl (List.mem_of_mem_tail hid)
  | characters text =>
    rw [Builder.add, Builder.characters]
    split
    · exact h.step (.same (.update _ _ _ fun _ => rfl)) fun _ hid => Or.inl hid
    · exact append rfl (by simp)
  | startCData => exact (append (by rfl) (by simp)).of_eq rfl rfl
  | endCData => exact h.of_eq rfl rfl
  | comment text => exact append rfl (by simp)
  | instruction target data => exact append rfl (by simp)
  | entityReference name replacement =>
    exact append rfl (by simp)
  | doctype dt =>
    have hadd : Grown i (b.append { kind := .doctype, name := dt.name }).2 :=
      append rfl (by simp)
    exact hadd.step (.same ⟨.of_nodes_eq rfl, rfl⟩) fun _ hid => Or.inl hid
  | error e => exact h.of_eq rfl rfl
  | startDocument | endDocument | xmlDeclaration _ _ _ | warning _ => exact h

theorem Grown.foldl (events : List Event) (h : Grown i b) :
    Grown i (events.foldl Builder.add b) := by
  induction events generalizing b with
  | nil => exact h
  | cons e events ih => exact ih (h.add e)

end Builder

/-! ## Whole documents -/

/-- What every document is built from. -/
def Builder.initial (i : Nat) : Builder :=
  { doc := (empty i).learnDeclaration ⟨"xmlns", Namespace.xmlnsUri⟩ }

theorem Builder.nodes_initial (i : Nat) : (Builder.initial i).doc.nodes = (empty i).nodes :=
  nodes_learnDeclaration _ _

theorem Builder.grown_initial (i : Nat) : Builder.Grown i (Builder.initial i) :=
  ⟨.single (.same (.learnDeclaration (empty i) ⟨"xmlns", Namespace.xmlnsUri⟩)),
    fun id hid => by cases hid⟩

theorem Builder.Grown.acyclic {i : Nat} {b : Builder} (h : Grown i b) : b.doc.Acyclic :=
  h.relinks.acyclic (linked_empty i) (acyclic_empty i)

/-- **The document of any list of events grows out of the document node alone.** In the end its mark
is taken back. -/
theorem of_ofEvents_nodes {i : Nat} {events : List Event} {doc : Document}
    (h : doc.nodes = (ofEvents i events).1.nodes) :
    doc.Linked ∧ doc.Acyclic ∧ doc.kindOf root = some .document := by
  have hgrown := (Builder.grown_initial i).foldl events
  have hsame : SameLinks (events.foldl Builder.add (Builder.initial i)).doc doc := .of_nodes_eq h
  refine ⟨hsame.linked hgrown.linked, hgrown.acyclic.mono fun x p hx => ?_,
    (hsame.kindOf root).trans hgrown.kindOf_root⟩
  exact (hsame.shows.parent x).symm.trans hx

/-- The document of a scan without a fatal problem is what its events told. Unless they are to be
recovered from, no other problem was met either. -/
theorem ofOutcome_eq_ok {i : Nat} {outcome : Scan.Outcome} {recover : Bool} {doc : Document}
    (h : ofOutcome i outcome recover = .ok doc) :
    outcome.fatal = none ∧ doc.nodes = (ofEvents i outcome.events).1.nodes ∧
      doc.doctype = (ofEvents i outcome.events).1.doctype ∧
      (recover = false → (ofEvents i outcome.events).2 = []) := by
  rw [ofOutcome] at h
  split at h
  · cases h
  · next hfatal =>
    generalize ofEvents i outcome.events = made at h ⊢
    obtain ⟨read, errors⟩ := made
    dsimp only at h
    split at h
    · next hrecover =>
      obtain rfl := Except.ok.inj h
      refine ⟨hfatal, rfl, rfl, fun hnot => ?_⟩
      rw [hrecover] at hnot
      cases hnot
    · split at h
      · cases h
      · obtain rfl := Except.ok.inj h
        exact ⟨hfatal, rfl, rfl, fun _ => rfl⟩

theorem parse_eq_ok {i : Nat} {bytes : List UInt8} {hint : Option String}
    {options : ParseOptions} {files : Files} {doc : Document}
    (h : parse i bytes hint options files = .ok doc) :
    (scanBytes bytes hint options files).fatal = none ∧
      doc.nodes = (ofEvents i (scanBytes bytes hint options files).events).1.nodes ∧
      (options.recover = false →
        (ofEvents i (scanBytes bytes hint options files).events).2 = []) := by
  obtain ⟨hfatal, hnodes, -, hproblems⟩ := ofOutcome_eq_ok h
  exact ⟨hfatal, hnodes, hproblems⟩

/-- So the links of every document that is read are in order. -/
theorem parse_linked {i : Nat} {bytes : List UInt8} {hint : Option String}
    {options : ParseOptions} {files : Files} {doc : Document}
    (h : parse i bytes hint options files = .ok doc) :
    doc.Linked ∧ doc.Acyclic ∧ doc.kindOf root = some .document :=
  of_ofEvents_nodes (parse_eq_ok h).2.1

end Xml.Document
