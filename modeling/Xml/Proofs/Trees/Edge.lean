import Xml.Proofs.Trees.Building
import Xml.Proofs.Trees.Walks

/-!
# The edge of a document that is being built

Whatever the events are, they do one of four things to the shape of the document (`Builder.Growth`):
nothing, a new last child of the innermost open element, with its attributes, which may or may not
be left open, or an element closed. So the open elements always are the right edge of the tree
(`spine_builtFrom`), and a walk over the document tells what is new behind what it told before
(`Grown.walk_edge`).
-/

namespace Xml.Document.Builder

variable {node : Node} {attributes : List Attribute}

variable {i : Nat} {b b' : Builder}

/-! ## What an event does -/

/-- The next number in the table is a new last child of the innermost open element: this node, with
these attributes, which have the numbers behind it. There are no other new numbers. -/
structure NewChild (b b' : Builder) (node : Node) (attributes : List Attribute) : Prop where
  added : Added b.doc b'.doc b.current node attributes
  numbers : b.doc.size :: b'.doc.attributesOf b.doc.size =
    List.range' b.doc.size (b'.doc.size - b.doc.size)

/-- What an event does to the shape of a document. -/
inductive Growth (b b' : Builder) : Prop where
  | same (h : SameLinks b.doc b'.doc) (ho : b'.opened = b.opened)
  | close (h : b'.doc = b.doc) (ho : b'.opened = b.opened.tail)
  | leaf {node : Node} (h : NewChild b b' node []) (ho : b'.opened = b.opened)
  | element {node : Node} {attributes : List Attribute} (h : NewChild b b' node attributes)
      (ho : b'.opened = b.doc.size :: b.opened)

theorem newChild_of_added (h : Added b.doc b'.doc b.current node [])
    (hsize : b'.doc.size = b.doc.size + 1) : NewChild b b' node [] := by
  refine ⟨h, ?_⟩
  rw [List.map_eq_nil_iff.mp h.attributes, hsize, Nat.add_sub_cancel_left]
  rfl

theorem Grown.newChild_append (h : Grown i b) (hn : node.Unlinked) (hk : node.kind ≠ .attribute) :
    NewChild b (b.append node).2 node [] :=
  newChild_of_added (h.added hn hk) (b.size_append node)

theorem NewChild.of_nodes_eq {b'' : Builder} (h : NewChild b b' node attributes)
    (hnodes : b''.doc.nodes = b'.doc.nodes) : NewChild b b'' node attributes := by
  have hsize : b''.doc.size = b'.doc.size := congrArg Array.size hnodes
  have hget := get?_of_nodes_eq hnodes
  have hattributes (x : NodeId) : b''.doc.attributesOf x = b'.doc.attributesOf x := by
    rw [attributesOf, attributesOf, hget]
  have hattribute := attributeOf_of_nodes_eq hnodes
  have hchildren := children_of_nodes_eq hnodes
  have hgrows := h.added.grows
  refine ⟨⟨⟨hsize ▸ hgrows.size_le, fun x hx => ?_, fun x hx => ?_, fun x hx => ?_⟩, ?_, ?_, ?_, ?_⟩,
    ?_⟩
  · rw [hget, hgrows.node x hx]
  · rw [hattributes, hgrows.attributes x hx]
  · rw [hchildren, hgrows.children x hx]
  · rw [hget, h.added.node]
  · rw [hattributes, hattribute, h.added.attributes]
  · rw [hattributes]
    exact h.added.attributes_le
  · rw [hchildren, h.added.children]
  · rw [hattributes, hsize, h.numbers]

theorem NewChild.lt_size (h : NewChild b b' node attributes) : b.doc.size < b'.doc.size := by
  obtain ⟨node, hn, -⟩ := Option.map_eq_some_iff.mp h.added.node
  exact lt_size_of_get? hn

/-- Attributes get the numbers behind those of their element and of the attributes before them. -/
theorem Grown.numbers_addAttributes {element : NodeId} (name : String) (as : List Attribute)
    (h : Grown i b) (he : b.doc.kindOf element = some .element)
    (hnumbers : element :: b.doc.attributesOf element =
      List.range' element (b.doc.size - element)) :
    let made := as.foldl (Builder.addAttribute element name) b
    element :: made.doc.attributesOf element = List.range' element (made.doc.size - element) := by
  induction as generalizing b with
  | nil => exact hnumbers
  | cons a as ih =>
    obtain ⟨hgrown, hkind⟩ := h.addAttribute name he a
    refine ih hgrown hkind ?_
    obtain ⟨errors, heq⟩ := addAttribute_eq element name b a
    have hlt : element < b.doc.size := lt_size_of_kindOf he
    obtain ⟨node, hnode⟩ := exists_get? hlt
    have hattributes : (Builder.addAttribute element name b a).doc.attributesOf element =
        b.doc.attributesOf element ++ [b.doc.size] := by
      rw [heq, attributesOf, attributesOf, get?_appendAttribute _ hlt, if_neg (Nat.ne_of_lt hlt),
        if_pos rfl, hnode]
      rfl
    have hsize : (Builder.addAttribute element name b a).doc.size = b.doc.size + 1 := by
      rw [heq]
      exact size_appendAttribute ..
    have hlast : element + (b.doc.size - element) = b.doc.size :=
      Nat.add_sub_cancel' (Nat.le_of_lt hlt)
    have hmore : b.doc.size + 1 - element = b.doc.size - element + 1 :=
      Nat.succ_sub (Nat.le_of_lt hlt)
    rw [hattributes, hsize, hmore, ← List.cons_append, hnumbers, List.range'_1_concat, hlast]

theorem Grown.newChild_opening (h : Grown i b) (name : String) (hn : node.Unlinked)
    (hk : node.kind = .element) (as : List Attribute) :
    NewChild b (b.opening name node as) node as := by
  have hnot : node.kind ≠ .attribute := by rw [hk]; decide
  obtain ⟨hadded, -, -⟩ := h.opening_added name hn hk as
  obtain ⟨hgrown, hkind⟩ := h.append hn hnot
  have hsize : (b.append node).1 = b.doc.size := alloc_fst ..
  rw [hsize, hk] at hkind
  exact ⟨hadded, hgrown.numbers_addAttributes name as hkind (h.newChild_append hn hnot).numbers⟩

/-- **A start tag opens an element** with what the tag declares and the attributes of the tag. -/
theorem Grown.newChild_startElement (h : Grown i b) (name : String) (attributes : List Attribute) :
    ∃ uri, NewChild b (b.startElement name attributes)
        (elementNode name uri (declarationsOf attributes))
        (attributes.filter fun a => !isNamespaceDeclaration a.name) ∧
      (b.startElement name attributes).opened = b.doc.size :: b.opened ∧
      (b.startElement name attributes).cdata = b.cdata := by
  obtain ⟨errors, heq⟩ := startElement_eq b name attributes
  let scopes := scopesInside b.scopes (declarationsOf attributes)
  have hsame : Grown i { b with errors := errors, scopes := scopes } := h.of_eq rfl rfl
  have hn : (elementNode name (elementUri scopes name) (declarationsOf attributes)).Unlinked :=
    rfl
  let as := attributes.filter fun a => !isNamespaceDeclaration a.name
  have hnew := hsame.newChild_opening name hn rfl as
  obtain ⟨-, hopened, hcdata⟩ := hsame.opening_added name hn rfl as
  rw [heq]
  exact ⟨_, ⟨hnew.added, hnew.numbers⟩, hopened, hcdata⟩

theorem Grown.newChild_cdata (h : Grown i b) (text : Option String) :
    let made := ([Event.startCData] ++ text.toList.map Event.characters ++ [Event.endCData]).foldl
      Builder.add b
    NewChild b made { kind := .cdata, content := text.getD "" } [] ∧ made.opened = b.opened ∧
      made.cdata = none := by
  obtain ⟨hadded, hsize, hopened, hcdata⟩ := h.cdata_added text
  exact ⟨newChild_of_added hadded hsize, hopened, hcdata⟩

/-- **What any event does to the shape of a document.** -/
theorem Grown.growth_add (h : Grown i b) (e : Event) : Growth b (b.add e) := by
  have append : ∀ {node : Node}, node.Unlinked → node.kind ≠ .attribute →
      Growth b (b.append node).2 := fun hn hk => .leaf (h.newChild_append hn hk) rfl
  cases e with
  | startElement name attributes =>
    obtain ⟨uri, hnew, hopened, -⟩ := h.newChild_startElement name attributes
    exact .element hnew hopened
  | endElement name => exact .close rfl rfl
  | characters text =>
    rw [Builder.add, Builder.characters]
    split
    · exact .same (.update _ _ _ fun _ => rfl) rfl
    · exact append rfl (by simp)
  | startCData =>
    have hn : ({ kind := .cdata } : Node).Unlinked := rfl
    exact .leaf ((h.newChild_append hn (by simp)).of_nodes_eq rfl)
      rfl
  | comment text => exact append rfl (by simp)
  | instruction target data => exact append rfl (by simp)
  | entityReference name replacement => exact append rfl (by simp)
  | doctype dt =>
    have hn : ({ kind := .doctype, name := dt.name } : Node).Unlinked :=
      rfl
    exact .leaf ((h.newChild_append hn (by simp)).of_nodes_eq rfl)
      rfl
  | endCData | error _ | startDocument | endDocument | xmlDeclaration _ _ _ | warning _ =>
    exact .same (.of_nodes_eq rfl) rfl

/-! ## The edge -/

/-- The open elements and the document node, from the inside out. -/
def edge (b : Builder) : List NodeId :=
  b.opened ++ [root]

theorem exists_edge_eq (b : Builder) : ∃ path, b.edge = b.current :: path := by
  rw [edge, current]
  cases b.opened with
  | nil => exact ⟨[], rfl⟩
  | cons id rest => exact ⟨rest ++ [root], rfl⟩

theorem getLast?_edge (b : Builder) : b.edge.getLast? = some root :=
  List.getLast?_concat ..

/-- **Events keep the open elements on the edge.** -/
theorem Grown.spine_growth (h : Grown i b) (hspine : b.doc.Spine b.edge) (hg : Growth b b') :
    b'.doc.Spine b'.edge := by
  obtain ⟨path, hedge⟩ := b.exists_edge_eq
  cases hg with
  | same hs ho =>
    rw [edge, ho, ← edge, hedge]
    exact (hedge ▸ hspine).congr fun x _ => hs.children h.linked x
  | close hd ho =>
    rw [edge, ho, hd]
    cases hopen : b.opened with
    | nil => exact .singleton _
    | cons id rest =>
      rw [edge, hopen] at hspine
      exact hspine.tail
  | leaf hnew ho =>
    rw [edge, ho, ← edge, hedge]
    exact hnew.added.grows.spine h.linked h.acyclic (hedge ▸ hspine)
  | element hnew ho =>
    rw [edge, ho, List.cons_append, ← edge, hedge]
    exact hnew.added.grows.spine_cons h.linked h.acyclic h.current.lt_size (hedge ▸ hspine)

/-- **What is told of a new node** comes behind all that was told, but for what is told on the way
out of the open elements. -/
theorem Grown.walk_edge (h : Grown i b) (h' : Grown i b') (hspine : b.doc.Spine b.edge)
    (hchild : NewChild b b' node attributes) {β : Type}
    (enter leave enter' leave' : NodeId → List β)
    (htold : ∀ x, x < b.doc.size → enter' x = enter x ∧ leave' x = leave x) :
    ∃ told, b.doc.walk enter leave root = told ++ b.edge.flatMap leave ∧
      b'.doc.walk enter' leave' root =
        told ++ (enter' b.doc.size ++ leave' b.doc.size) ++ b.edge.flatMap leave := by
  obtain ⟨path, hedge⟩ := b.exists_edge_eq
  obtain ⟨told, hold, hnew⟩ := hchild.added.grows.walk_spine h.linked h.acyclic h'.linked h'.acyclic
    htold h.current.lt_size (hedge ▸ hspine) (hedge ▸ b.getLast?_edge)
  rw [walk_eq h'.linked h'.acyclic hchild.lt_size, hchild.added.children, List.flatMap_nil,
    List.append_nil] at hnew
  exact ⟨told, hedge ▸ hold, hedge ▸ hnew⟩

/-! ## All events -/

def builtFrom (i : Nat) (events : List Event) : Builder :=
  events.foldl Builder.add (Builder.initial i)

theorem builtFrom_append (i : Nat) (events more : List Event) :
    builtFrom i (events ++ more) = more.foldl Builder.add (builtFrom i events) :=
  List.foldl_append ..

theorem grown_builtFrom (i : Nat) (events : List Event) : Grown i (builtFrom i events) :=
  (grown_initial i).foldl events

theorem spine_builtFrom (i : Nat) (events : List Event) :
    (builtFrom i events).doc.Spine (builtFrom i events).edge := by
  induction events using List.reverseRecOn with
  | nil => exact .singleton _
  | append_singleton events e ih =>
    have hgrown := grown_builtFrom i events
    rw [builtFrom_append]
    exact hgrown.spine_growth ih (hgrown.growth_add e)

end Xml.Document.Builder
