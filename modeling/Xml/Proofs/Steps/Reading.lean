import Xml.Proofs.Links.Runs
import Xml.Proofs.Scan.Readable
import Xml.Proofs.Steps.Labels

/-!
# Reading, event by event

What an event does to the labels and places of a document that is being built (`Tells`), and what it
takes to prove something about every document that is read: it holds of the document node alone, and
it is kept by every event that the events before it allow (`Initial.built`).
-/

namespace Xml.Document

open Scan

variable {doc : Document} {i : Nat}

variable {P : List Event → Builder → Prop} {e : Event} {kind : NodeKind}

namespace Builder

variable {b b' : Builder}

/-- The kind of the node that an event can add to the innermost open element. -/
def kind? : Event → Option NodeKind
  | .characters _ => some .text
  | .startCData => some .cdata
  | .comment _ => some .comment
  | .instruction _ _ => some .instruction
  | .entityReference _ _ => some .entityReference
  | .doctype _ => some .doctype
  | _ => none

/-- The nodes of attributes in the namespaces that open scopes give them. -/
def attributeNodes (scopes : Namespace.Scopes) (attributes : List Attribute) : List Node :=
  attributes.map fun a => attributeNode a (attributeUri scopes a.name)

/-- What an event does to the labels and places of a document that is being built. -/
inductive Tells (b : Builder) : Event → Builder → Prop where
  | kept {e : Event} {b' : Builder} (he : ∀ opened, nest opened e = opened)
      (labels : SameLabels b.doc b'.doc) (places : SamePlaces b.doc b'.doc)
      (opened : b'.opened = b.opened) (scopes : b'.scopes = b.scopes) : Tells b e b'
  | child {e : Event} {b' : Builder} {node : Node} (he : kind? e = some node.kind)
      (h : Gained b.doc b'.doc node b.current) (opened : b'.opened = b.opened)
      (scopes : b'.scopes = b.scopes) (hnone : node.declarations = []) : Tells b e b'
  | start {name : String} {attributes : List Attribute} {b' : Builder} {d : Document}
      {inside : Namespace.Scopes}
      (hinside : scopesInside b.scopes (declarationsOf attributes) = inside)
      (helement : Gained b.doc d
        (elementNode name (elementUri inside name) (declarationsOf attributes)) b.current)
      (hattributes : Equipped b.doc.size (attributeNodes inside
        (attributes.filter fun a => !isNamespaceDeclaration a.name)) d b'.doc)
      (opened : b'.opened = b.doc.size :: b.opened) (scopes : b'.scopes = inside) :
      Tells b (.startElement name attributes) b'
  | close {name : String} {b' : Builder} (hdoc : b'.doc = b.doc)
      (opened : b'.opened = b.opened.tail) (scopes : b'.scopes = b.scopes.pop) :
      Tells b (.endElement name) b'

theorem Grown.gained (h : Grown i b) {node : Node} (hn : node.Unlinked)
    (hk : node.kind ≠ .attribute) : Gained b.doc (b.append node).2.doc node b.current :=
  h.linked.gained_child hn hk h.current

theorem Grown.addAttributes_equipped {element : NodeId} (name : String) (as : List Attribute)
    (h : Grown i b) (he : b.doc.kindOf element = some .element) :
    Equipped element (attributeNodes b.scopes as) b.doc
        (as.foldl (Builder.addAttribute element name) b).doc ∧
      (as.foldl (Builder.addAttribute element name) b).opened = b.opened ∧
      (as.foldl (Builder.addAttribute element name) b).scopes = b.scopes := by
  induction as generalizing b with
  | nil => exact ⟨.nil b.doc, rfl, rfl⟩
  | cons a as ih =>
    obtain ⟨h', he'⟩ := h.addAttribute name he a
    obtain ⟨errors, heq⟩ := addAttribute_eq element name b a
    have hn : (attributeNode a (attributeUri b.scopes a.name)).Unlinked :=
      rfl
    have hgain := h.linked.gained_attribute hn rfl he
    rw [alloc_fst] at hgain
    obtain ⟨hrest, hopened, hscopes⟩ := ih h' he'
    rw [heq] at hrest hopened hscopes
    rw [List.foldl_cons, heq]
    exact ⟨.cons rfl hgain hrest, hopened, hscopes⟩

theorem Grown.opening_equipped (h : Grown i b) (name : String) {node : Node} (hn : node.Unlinked)
    (hk : node.kind = .element) (as : List Attribute) :
    ∃ d, Gained b.doc d node b.current ∧
      Equipped b.doc.size (attributeNodes b.scopes as) d (b.opening name node as).doc ∧
      (b.opening name node as).opened = b.doc.size :: b.opened ∧
      (b.opening name node as).scopes = b.scopes := by
  have hnot : node.kind ≠ .attribute := by
    rw [hk]
    decide
  have hgain := h.gained hn hnot
  have hel := (hgain.kindOf b.doc.size).trans ((if_pos rfl).trans (congrArg some hk))
  obtain ⟨hequipped, hopened, hscopes⟩ :=
    (h.append hn hnot).1.addAttributes_equipped name as hel
  exact ⟨_, hgain, hequipped, congrArg (b.doc.size :: ·) hopened, hscopes⟩

theorem Grown.tells_start (h : Grown i b) (name : String) (attributes : List Attribute) :
    Tells b (.startElement name attributes) (b.startElement name attributes) := by
  obtain ⟨errors, heq⟩ := startElement_eq b name attributes
  have hgrown : Grown i { b with
      errors := errors, scopes := scopesInside b.scopes (declarationsOf attributes) } :=
    h.of_eq rfl rfl
  have hn : (elementNode name (elementUri (scopesInside b.scopes (declarationsOf attributes)) name)
      (declarationsOf attributes)).Unlinked := rfl
  rw [heq]
  obtain ⟨d, hgain, hequipped, hopened, hscopes⟩ := hgrown.opening_equipped name hn rfl
    (attributes.filter fun a => !isNamespaceDeclaration a.name)
  exact .start rfl hgain hequipped hopened hscopes

/-- **What every event does.** -/
theorem Grown.tells (h : Grown i b) (e : Event) : Tells b e (b.add e) := by
  -- most events add one node without links or none at all
  have child {e : Event} {node : Node} (he : kind? e = some node.kind) (hn : node.Unlinked)
      (hk : node.kind ≠ .attribute) (hnone : node.declarations = []) :
      Tells b e (b.append node).2 :=
    .child he (h.gained hn hk) rfl rfl hnone
  have same {e : Event} {b' : Builder} (he : ∀ opened, nest opened e = opened)
      (hdoc : b'.doc = b.doc) (hopened : b'.opened = b.opened) (hscopes : b'.scopes = b.scopes) :
      Tells b e b' :=
    .kept he (.of_nodes_eq (congrArg nodes hdoc)) (.of_nodes_eq (congrArg nodes hdoc)) hopened
      hscopes
  cases e with
  | startElement name attributes => exact h.tells_start name attributes
  | endElement name => exact .close rfl rfl rfl
  | characters text =>
    rw [Builder.add, Builder.characters]
    split
    · exact .kept (fun _ => rfl) (.update _ _ _ fun _ => rfl) (.update _ _ _ fun _ => rfl) rfl rfl
    · exact child rfl rfl (by simp) rfl
  | startCData =>
    exact .child rfl (h.gained rfl (by simp)) rfl rfl rfl
  | endCData => exact same (fun _ => rfl) rfl rfl rfl
  | comment text => exact child rfl rfl (by simp) rfl
  | instruction target data => exact child rfl rfl (by simp) rfl
  | entityReference name replacement => exact child rfl rfl (by simp) rfl
  | doctype dt =>
    have hgain : Gained b.doc (b.append { kind := .doctype, name := dt.name }).2.doc
        { kind := .doctype, name := dt.name } b.current :=
      h.gained rfl (by simp)
    exact .child rfl (hgain.of_nodes_eq rfl) rfl rfl rfl
  | error e => exact same (fun _ => rfl) rfl rfl rfl
  | startDocument | endDocument | xmlDeclaration _ _ _ | warning _ =>
    exact same (fun _ => rfl) rfl rfl rfl

theorem nest_of_kind? (hk : kind? e = some kind) (opened : List String) :
    nest opened e = opened := by
  cases e <;> first | rfl | cases hk

/-- The nodes that an event can add in this way are not in a namespace. -/
theorem unnamed_of_kind? (hk : kind? e = some kind) : kind ≠ .element ∧ kind ≠ .attribute := by
  cases e <;> cases hk <;> decide

theorem Tells.labelOf (h : Tells b e b') {x : NodeId} (hx : x < b.doc.size) :
    b'.doc.labelOf x = b.doc.labelOf x := by
  cases h with
  | kept he labels places opened scopes => exact labels.labelOf x
  | child he h opened scopes => rw [h.labelOf, if_neg (Nat.ne_of_lt hx)]
  | start hinside helement hattributes opened scopes =>
    rw [(hattributes.old.2 x (by rw [helement.size]; exact Nat.lt_succ_of_lt hx)).1,
      helement.labelOf, if_neg (Nat.ne_of_lt hx)]
  | close hdoc opened scopes => rw [hdoc]

theorem Tells.kindOf_new (h : Tells b e b') {x : NodeId} (hx : b.doc.size ≤ x)
    (hk : b'.doc.kindOf x = some kind) :
    kind? e = some kind ∨ kind = .element ∨ kind = .attribute := by
  have none {d : Document} (hd : d.kindOf x = some kind) (hle : d.size ≤ x) : False :=
    absurd (lt_size_of_kindOf hd) (Nat.not_lt.mpr hle)
  cases h with
  | kept he labels places opened scopes => exact (none hk (labels.size ▸ hx)).elim
  | child he h opened scopes =>
    rw [h.kindOf] at hk
    split at hk
    · exact .inl (he.trans hk)
    · exact (none hk hx).elim
  | start hinside helement hattributes opened scopes =>
    rcases Nat.eq_or_lt_of_le hx with rfl | hlt
    · rw [kindOf_eq, (hattributes.old.2 _ (by rw [helement.size]; exact Nat.lt_succ_self _)).1,
        ← kindOf_eq, helement.kindOf, if_pos rfl] at hk
      exact .inr (.inl (Option.some.inj hk).symm)
    · obtain ⟨a, ha, hlabel⟩ := hattributes.label (by rw [helement.size]; exact hlt)
        (lt_size_of_kindOf hk)
      obtain ⟨told, -, rfl⟩ := List.mem_map.mp ha
      rw [kindOf_eq, hlabel] at hk
      exact .inr (.inr (Option.some.inj hk).symm)
  | close hdoc opened scopes => exact (none hk (hdoc ▸ hx)).elim

/-- As many elements are open as the events have left open. -/
theorem Tells.depth {before : List Event} (h : Tells b e b')
    (hdepth : b.opened.length = (openAfter before).length) :
    b'.opened.length = (openAfter (before ++ [e])).length := by
  rw [openAfter_append_singleton]
  cases h with
  | kept he labels places opened scopes => rw [he, opened, hdepth]
  | child he h opened scopes => rw [nest_of_kind? he, opened, hdepth]
  | start hinside helement hattributes opened scopes =>
    rw [opened, List.length_cons, hdepth]
    rfl
  | close hdoc opened scopes => rw [opened, nest, List.length_tail, List.length_tail, hdepth]

/-- What is known when an event comes to a document that is being built. -/
structure Reads (i : Nat) (before : List Event) (e : Event) (b : Builder) : Prop where
  allowed : Allowed before e
  once : NamesOnce e
  grown : b.Grown i
  depth : b.opened.length = (openAfter before).length

end Builder

/-! ## Whole documents -/

theorem Builder.parentOf_initial (i : Nat) (x : NodeId) :
    (Builder.initial i).doc.parentOf x = none := by
  rw [parentOf, get?, nodes_initial]
  exact bind_get?_empty i (·.parent) rfl x

/-- **Induction over the events of a scan.** -/
theorem built_of_readable (hbegin : P [] (Builder.initial i))
    (hstep : ∀ before e b, Builder.Reads i before e b → P before b → P (before ++ [e]) (b.add e))
    {events : List Event} (h : Readable events) :
    P events (events.foldl Builder.add (Builder.initial i)) ∧
      (events.foldl Builder.add (Builder.initial i)).opened.length =
        (openAfter events).length := by
  -- the number of open elements is carried along for `Builder.Reads`
  induction events using List.reverseRecOn with
  | nil => exact ⟨hbegin, rfl⟩
  | append_singleton before e ih =>
    obtain ⟨hread, ha, he⟩ := h.of_snoc
    obtain ⟨hb, hdepth⟩ := ih hread
    have hgrown := (Builder.grown_initial i).foldl before
    rw [List.foldl_append]
    exact ⟨hstep before e _ ⟨ha, he, hgrown, hdepth⟩ hb, (hgrown.tells e).depth hdepth⟩

/-- The nodes of a document that is read are those that the events of a scan told. -/
theorem parse_nodes {bytes : List UInt8} {hint : Option String} {options : ParseOptions}
    {files : Files} (h : parse i bytes hint options files = .ok doc) :
    ∃ events, Readable events ∧
      doc.nodes = (events.foldl Builder.add (Builder.initial i)).doc.nodes := by
  obtain ⟨hfatal, hnodes, -⟩ := parse_eq_ok h
  obtain ⟨text, hscan⟩ := scanBytes_of_success hfatal
  rw [hscan] at hnodes
  exact ⟨_, readable_scanText text options files, hnodes⟩

/-- **Induction over what a document to start from is built of.** -/
theorem Initial.built (h : Initial doc) (hbegin : ∀ i, P [] (Builder.initial i))
    (hstep : ∀ i before e b, Builder.Reads i before e b → P before b →
      P (before ++ [e]) (b.add e)) : ∃ events b, P events b ∧ doc.nodes = b.doc.nodes := by
  cases h with
  | new i => exact ⟨[], _, hbegin i, (Builder.nodes_initial i).symm⟩
  | @read i _ _ _ _ _ h =>
    obtain ⟨events, hread, hnodes⟩ := parse_nodes h
    exact ⟨events, _, (built_of_readable (hbegin i) (hstep i) hread).1, hnodes⟩

end Xml.Document
