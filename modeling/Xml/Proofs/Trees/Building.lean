import Xml.Proofs.Links.Reading
import Xml.Proofs.Trees.Growing
import Xml.Proofs.Trees.Scanning

/-!
# Trees from events

Building from the events of canonical trees puts these trees below the innermost open element
(`built_of_canonical`). Text joins the text in front of it, so between two texts there has to be
another node.
-/

namespace Xml.Document

open List

variable {node : Node} {attributes : List Attribute}

variable {doc d : Document} {lo id : NodeId} {i : Nat} {b b₁ b₂ : Builder} {t : Tree}
  {trees more : List Tree}

theorem Extends.refl (doc : Document) (p : NodeId) : Extends doc doc p [] where
  size_le := Nat.le_refl _
  node _ _ := rfl
  attributes _ _ := rfl
  children x _ := by
    split
    · exact (append_nil _).symm
    · rfl

theorem Holds.kindOf_ne_text (h : Holds doc lo id t) (ht : t.isText = false) :
    doc.kindOf id ≠ some .text := by
  obtain @⟨_, node, trees, -, hn, -, -, -⟩ := h
  rw [kindOf, hn]
  intro hk
  have hkind : node.kind = .text := Option.some.inj hk
  rw [Node.tree, hkind] at ht
  cases ht

namespace Builder

/-- The trees were put behind the children of the innermost open element. -/
structure Built (i : Nat) (b b' : Builder) (trees : List Tree) : Prop where
  grown : Grown i b'
  opened : b'.opened = b.opened
  cdata : b'.cdata = none
  content : ∃ ids, Extends b.doc b'.doc b.current ids ∧
    List.Forall₂ (Holds b'.doc b.doc.size) ids trees

theorem current_eq (h : b₁.opened = b.opened) : b₁.current = b.current := by
  rw [current, current, h]

theorem Built.refl (h : Grown i b) (hc : b.cdata = none) : Built i b b [] :=
  ⟨h, rfl, hc, [], .refl _ _, .nil⟩

theorem Built.trans (hb : Grown i b) (h : Built i b b₁ trees) (h' : Built i b₁ b₂ more) :
    Built i b b₂ (trees ++ more) := by
  obtain ⟨ids, hgrow, hholds⟩ := h.content
  obtain ⟨ids', hgrow', hholds'⟩ := h'.content
  rw [current_eq h.opened] at hgrow'
  refine ⟨h'.grown, h'.opened.trans h.opened, h'.cdata, ids ++ ids', hgrow.trans hgrow', ?_⟩
  refine rel_append (hholds.imp fun id t ht => ?_) (hholds'.imp fun id t ht => ?_)
  · -- the first trees use numbers that are new to `b`, and only the current element is changed
    refine ht.frame h.grown.linked fun x hlo hx => hgrow'.sameAt hx fun he => ?_
    exact absurd hb.current.lt_size (Nat.not_lt.mpr (he ▸ hlo))
  · exact ht.mono hgrow.size_le

/-- Characters begin a new text, unless the last child is a text. -/
theorem openText?_eq_none (h : Grown i b)
    (hlast : ∀ c, (b.doc.children b.current).getLast? = some c → b.doc.kindOf c ≠ some .text) :
    b.openText? = none := by
  have hlink : (b.doc.get? b.current).bind (·.lastChild) =
      (b.doc.children b.current).getLast? := (h.linked.chain b.current).last
  rw [Builder.openText?, hlink]
  cases hc : (b.doc.children b.current).getLast? with
  | none => rfl
  | some c => exact if_neg (by simpa using hlast c hc)

theorem Built.openText? (h : Built i b b₁ trees) (hb : Grown i b) (hl : trees.getLast? = some t)
    (ht : t.isText = false) : b₁.openText? = none := by
  obtain ⟨ids, hgrow, hholds⟩ := h.content
  refine openText?_eq_none h.grown fun c hc => ?_
  rw [current_eq h.opened, hgrow.children _ hb.current.lt_size, if_pos rfl] at hc
  obtain ⟨others, rfl⟩ := getLast?_eq_some_iff.mp hl
  rw [← forall₂_reverse_iff, reverse_concat, forall₂_cons_right_iff] at hholds
  obtain ⟨last, rest, hlast, -, hrev⟩ := hholds
  rw [reverse_eq_iff.mp hrev, reverse_cons, ← append_assoc,
    getLast?_concat] at hc
  exact Option.some.inj hc ▸ hlast.kindOf_ne_text ht

/-! ## Single nodes -/

theorem built_of_added (b b₁ : Builder) (ha : Added b.doc b₁.doc b.current node attributes)
    (h : Grown i b₁) (ho : b₁.opened = b.opened) (hc : b₁.cdata = none) :
    Built i b b₁ [node.tree attributes []] :=
  ⟨h, ho, hc, [b.doc.size], ha.grows,
    .cons (ha.holds h.linked (.refl _ _) .nil) .nil⟩

theorem Grown.added (h : Grown i b) (hn : node.Unlinked) (hk : node.kind ≠ .attribute) :
    Added b.doc (b.append node).2.doc b.current node [] := by
  have hadded := h.linked.added hn hk h.current
  rwa [← alloc_fst b.doc node] at hadded

theorem Grown.built_append (h : Grown i b) (hc : b.cdata = none) (hn : node.Unlinked)
    (hk : node.kind ≠ .attribute) : Built i b (b.append node).2 [node.tree [] []] :=
  built_of_added b _ (h.added hn hk) (h.append hn hk).1 rfl hc

theorem size_append (b : Builder) (node : Node) : (b.append node).2.doc.size = b.doc.size + 1 := by
  show ((b.doc.alloc node).2.appendChild b.current (b.doc.alloc node).1).size = _
  rw [size_appendChild, size_alloc]

theorem Grown.cdata_added (h : Grown i b) (text : Option String) :
    let made := ([Event.startCData] ++ text.toList.map Event.characters ++ [Event.endCData]).foldl
      Builder.add b
    Added b.doc made.doc b.current { kind := .cdata, content := text.getD "" } [] ∧
      made.doc.size = b.doc.size + 1 ∧ made.opened = b.opened ∧ made.cdata = none := by
  intro made
  have hn : ({ kind := .cdata } : Node).Unlinked := rfl
  have hadded := h.added hn (by simp)
  have hsize := b.size_append { kind := .cdata }
  cases text with
  | none => exact ⟨hadded, hsize, rfl, rfl⟩
  | some text =>
    have hset := hadded.addContent (h.append hn (by simp)).1.linked text
    have hdoc : made.doc = (b.append { kind := .cdata }).2.doc.update b.doc.size fun n =>
        { n with content := n.content ++ text } := by
      rw [← alloc_fst b.doc { kind := .cdata }]
      rfl
    rw [← hdoc, String.empty_append] at hset
    refine ⟨hset, ?_, rfl, rfl⟩
    rw [hdoc, size_update, hsize]

theorem Grown.built_cdata (h : Grown i b) (content : String) :
    Built i b ((Tree.cdata content).events.foldl Builder.add b) [.cdata content] := by
  obtain ⟨text, htext, hevents⟩ : ∃ text : Option String, text.getD "" = content ∧
      (Tree.cdata content).events =
        [.startCData] ++ text.toList.map .characters ++ [.endCData] := by
    rw [Tree.events]
    split
    · next hempty => exact ⟨none, (String.isEmpty_iff.mp hempty).symm, rfl⟩
    · exact ⟨some content, rfl, rfl⟩
  have hgrown := h.foldl (Tree.cdata content).events
  obtain ⟨hadded, -, hopened, hcdata⟩ := h.cdata_added text
  rw [← hevents, htext] at hadded
  rw [← hevents] at hopened hcdata
  exact built_of_added b _ hadded hgrown hopened hcdata

/-! ## Elements -/

theorem added_attributes {doc : Document} {p : NodeId} (name : String) (as : List Attribute)
    (h : Grown i b) (hk : b.doc.kindOf doc.size = some .element)
    (ha : Added doc b.doc p node attributes) :
    let made := as.foldl (Builder.addAttribute doc.size name) b
    Added doc made.doc p node (attributes ++ as) ∧ made.opened = b.opened ∧
      made.cdata = b.cdata := by
  induction as generalizing b attributes with
  | nil =>
    rw [append_nil]
    exact ⟨ha, rfl, rfl⟩
  | cons a as ih =>
    obtain ⟨errors, heq⟩ := addAttribute_eq doc.size name b a
    obtain ⟨hgrown, hkind⟩ := h.addAttribute name hk a
    have hnext := ha.attribute h.linked (a := attributeNode a (attributeUri b.scopes a.name))
      rfl
    rw [heq] at hgrown hkind
    rw [foldl_cons, heq, append_cons]
    exact ih hgrown hkind hnext

theorem Grown.opening_added (h : Grown i b) (name : String) (hn : node.Unlinked)
    (hk : node.kind = .element) (as : List Attribute) :
    Added b.doc (b.opening name node as).doc b.current node as ∧
      (b.opening name node as).opened = b.doc.size :: b.opened ∧
      (b.opening name node as).cdata = b.cdata := by
  have hnot : node.kind ≠ .attribute := by rw [hk]; decide
  obtain ⟨hgrown, hkind⟩ := h.append hn hnot
  have hsize : (b.append node).1 = b.doc.size := alloc_fst ..
  rw [hsize, hk] at hkind
  obtain ⟨hadded, hopened, hcdata⟩ := added_attributes name as hgrown hkind (h.added hn hnot)
  exact ⟨hadded, congrArg (b.doc.size :: ·) hopened, hcdata⟩

/-- **A start tag opens an element** with the declarations and the attributes of the tag. -/
theorem Grown.startElement_added (h : Grown i b) {name : String} {declarations : List NamespaceDecl}
    (tag : Tree.CanonicalTag name declarations attributes) :
    ∃ uri, Added b.doc
        (b.startElement name (Tree.tagAttributes declarations attributes)).doc b.current
        (elementNode name uri declarations) attributes ∧
      (b.startElement name (Tree.tagAttributes declarations attributes)).opened =
        b.doc.size :: b.opened ∧
      (b.startElement name (Tree.tagAttributes declarations attributes)).cdata = b.cdata := by
  obtain ⟨errors, heq⟩ := startElement_eq b name (Tree.tagAttributes declarations attributes)
  rw [declarationsOf, tag.filter_declarations, tag.filter_attributes] at heq
  have hsame : Grown i { b with
      errors := errors, scopes := scopesInside b.scopes declarations } := h.of_eq rfl rfl
  rw [heq]
  exact ⟨_, hsame.opening_added name (by rfl) rfl attributes⟩

theorem Grown.built_element (h : Grown i b) (hc : b.cdata = none) {name : String}
    {declarations : List NamespaceDecl} {children : List Tree}
    (tag : Tree.CanonicalTag name declarations attributes)
    (hin : ∀ b : Builder, Grown i b → b.cdata = none → b.openText? = none →
      Built i b ((children.flatMap Tree.events).foldl Builder.add b) children) :
    Built i b ((Tree.element name declarations attributes children).events.foldl Builder.add b)
      [.element name declarations attributes children] := by
  let inner := b.startElement name (Tree.tagAttributes declarations attributes)
  obtain ⟨uri, hadded, hopened, hcdata⟩ := h.startElement_added tag
  have hgrown : Grown i inner := h.startElement name _
  have hcurrent : inner.current = b.doc.size := by rw [Builder.current, hopened]; rfl
  have hempty : inner.doc.children inner.current = [] := by rw [hcurrent, hadded.children]
  have hbuilt := hin inner hgrown (hcdata.trans hc) <| openText?_eq_none hgrown fun c hl => by
    rw [hempty] at hl
    cases hl
  obtain ⟨ids, hgrow, hholds⟩ := hbuilt.content
  rw [hcurrent] at hgrow
  have hall := h.foldl (Tree.element name declarations attributes children).events
  rw [Tree.events, cons_append, foldl_cons, foldl_append] at hall ⊢
  refine ⟨hall, ?_, hbuilt.cdata, [b.doc.size], ?_, ?_⟩
  · exact congrArg List.tail (hbuilt.opened.trans hopened)
  · exact hadded.grows.below hgrow (Nat.le_refl _)
  · exact .cons (hadded.holds hgrown.linked hgrow hholds) .nil

/-! ## Canonical trees -/

/-- Trees one after the other, if each can be built where it stands. -/
theorem built_all (htrees : ∀ t ∈ trees, ∀ b : Builder, Grown i b → b.cdata = none →
      (t.isText = true → b.openText? = none) → Built i b (t.events.foldl Builder.add b) [t])
    (hsep : Tree.Separated trees) (h : Grown i b) (hc : b.cdata = none)
    (hp : (trees.head?.any Tree.isText) = true → b.openText? = none) :
    Built i b ((trees.flatMap Tree.events).foldl Builder.add b) trees := by
  induction trees generalizing b with
  | nil => exact .refl h hc
  | cons t trees ih =>
    obtain ⟨ht, htrees⟩ := forall_mem_cons.mp htrees
    have hone := ht b h hc hp
    rw [flatMap_cons, foldl_append]
    exact hone.trans h (ih htrees hsep.tail hone.grown hone.cdata fun hnext =>
      hone.openText? h rfl (hsep.isText_eq_false hnext))

/-- **A canonical tree is built from its events.** -/
theorem built_of_canonical (ht : t.Canonical) (h : Grown i b) (hc : b.cdata = none)
    (hp : t.isText = true → b.openText? = none) :
    Built i b (t.events.foldl Builder.add b) [t] := by
  induction ht generalizing b with
  | element tag separated _ ih =>
    refine h.built_element hc tag fun b hb hcdata htext => ?_
    exact built_all (fun t hm b hb hc hp => ih t hm hb hc hp) separated hb hcdata fun _ => htext
  | @text content hne hx =>
    have hadd : b.add (.characters content) =
        (b.append { kind := .text, content := content }).2 := by
      rw [Builder.add, characters, hc, hp rfl]
      rfl
    rw [Tree.events, foldl_cons, foldl_nil, hadd]
    exact h.built_append hc rfl (by simp)
  | cdata hx he => exact h.built_cdata _
  | comment hx hl =>
    rw [Tree.events]
    exact h.built_append hc rfl (by simp)
  | @instruction target content hn ht he hs =>
    have hdata : (if content.isEmpty then none else some content).getD "" = content := by
      split
      · next hempty => exact (String.isEmpty_iff.mp hempty).symm
      · rfl
    have hadd : b.add (.instruction target (if content.isEmpty then none else some content)) =
        (b.append { kind := .instruction, name := target, content := content }).2 := by
      rw [Builder.add, hdata]
    rw [Tree.events, foldl_cons, foldl_nil, hadd]
    exact h.built_append hc rfl (by simp)

end Builder

theorem trees_of_nodes_eq (h : d.nodes = doc.nodes) : d.trees = doc.trees := by
  have hget := get?_of_nodes_eq h
  have hsize : d.size = doc.size := congrArg Array.size h
  have hchildren := children_of_nodes_eq h
  have hattribute := attributeOf_of_nodes_eq h
  have htree : ∀ depth, d.treeTo depth = doc.treeTo depth := by
    intro depth
    induction depth with
    | zero => rfl
    | succ depth ih =>
      funext id
      rw [treeTo, treeTo, hget, hchildren, hattribute, ih]
  rw [trees, trees, hchildren, htree, hsize]

theorem trees_eq_of_holds (hw : doc.Linked) (ha : doc.Acyclic)
    (h : List.Forall₂ (Holds doc lo) (doc.children root) trees) : doc.trees = trees := by
  rw [Document.trees, ← forall₂_eq_eq_eq, forall₂_map_left_iff]
  obtain ⟨hlen, hall⟩ := forall₂_iff_zip.mp h
  refine forall₂_iff_zip.mpr ⟨hlen, fun {c t} hm => ?_⟩
  have hc : doc.Ancestor root c := .parent (hw.mem_children.mp (of_mem_zip hm).1).1
  exact (hall hm).treeTo_eq hw ha (nodup_singleton root)
    (forall_mem_singleton.mpr hc) (Nat.le_add_right _ _)

theorem Builder.children_initial (i : Nat) : (Builder.initial i).doc.children root = [] := by
  rw [children_of_nodes_eq (Builder.nodes_initial i)]
  rfl

/-- **The document built from the events of canonical trees has these trees.** -/
theorem trees_ofEvents (i : Nat) (h : ∀ t ∈ trees, t.Canonical) (hsep : Tree.Separated trees) :
    (ofEvents i (.startDocument :: trees.flatMap Tree.events ++ [.endDocument])).1.trees =
      trees := by
  let last := (trees.flatMap Tree.events).foldl Builder.add (Builder.initial i)
  have hinitial := Builder.grown_initial i
  have hbuilt : Builder.Built i (Builder.initial i) last trees := by
    refine Builder.built_all (fun t ht b => Builder.built_of_canonical (h t ht)) hsep hinitial rfl
      fun _ => Builder.openText?_eq_none hinitial fun c hc => ?_
    have hnone := hc.symm.trans (congrArg List.getLast? (Builder.children_initial i))
    cases hnone
  obtain ⟨ids, hgrow, hholds⟩ := hbuilt.content
  have hchildren : last.doc.children root = ids := by
    rw [hgrow.children root hinitial.current.lt_size, Builder.children_initial]
    exact if_pos rfl
  have htrees : last.doc.trees = trees :=
    trees_eq_of_holds hbuilt.grown.linked
      (hbuilt.grown.relinks.acyclic (linked_empty i) (acyclic_empty i)) (hchildren ▸ hholds)
  have hnodes : (ofEvents i (.startDocument :: trees.flatMap Tree.events ++
      [.endDocument])).1.nodes = last.doc.nodes := by
    rw [ofEvents, cons_append, foldl_cons, foldl_append]
    rfl
  rw [trees_of_nodes_eq hnodes, htrees]

end Xml.Document
