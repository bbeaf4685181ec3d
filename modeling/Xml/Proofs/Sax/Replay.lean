import Mathlib.Logic.Function.Basic
import Xml.Proofs.Trees.Edge
import Xml.Sax

/-!
# Replaying a document

What a stream would tell of a document that is already there: a walk over its nodes, each of them
announced on the way in and, if it is an element, ended on the way out. The attributes of a start tag
are not all to be found in the document in their order, since declarations of namespaces are kept
apart from the other attributes; so the tags as they were written are given to the replay
(`Written` says how they fit the document).

While a document is built, its replay is what was streamed so far and the ends of the open elements
(`Replays`). Each event adds to both alike.
-/

namespace Xml

open List

/-- What a stream tells on the way into a node, whose tag was written with these attributes. -/
def Node.announce (n : Node) (tag : List Attribute) : List SaxEvent :=
  match n.kind with
  | .element => [.startElement n.name (Sax.flatten tag)]
  | .text => [.characters n.content]
  | .cdata => if n.content.isEmpty then [] else [.cdataBlock n.content]
  | .entityReference => [.characters ("&" ++ n.name ++ ";")]
  | .comment => [.comment n.content]
  | .document | .attribute | .instruction | .doctype => []

/-- What a stream tells on the way out of a node. -/
def Node.conclude (n : Node) : List SaxEvent :=
  if n.kind = .element then [.endElement n.name] else []

namespace Document

variable {doc d : Document} {p id : NodeId} {node : Node} {attributes : List Attribute}
  {tags tags' : NodeId → List Attribute}

/-- What is told on the way into a node. -/
def replayStart (doc : Document) (tags : NodeId → List Attribute) (id : NodeId) :
    List SaxEvent :=
  ((doc.get? id).map fun n => n.announce (tags id)).getD []

/-- What is told on the way out of a node. -/
def replayEnd (doc : Document) (id : NodeId) : List SaxEvent :=
  ((doc.get? id).map Node.conclude).getD []

/-- **The replay of a node and of what is below it.** -/
def replay (doc : Document) (tags : NodeId → List Attribute) : NodeId → List SaxEvent :=
  doc.walk (doc.replayStart tags) doc.replayEnd

/-- The tags as they were written: without declarations, the attributes of the element, and the
declarations, those of the element, both in their order. -/
def Written (doc : Document) (tags : NodeId → List Attribute) : Prop :=
  ∀ id node, doc.get? id = some node → node.kind = .element →
    (tags id).filter (fun a => !isNamespaceDeclaration a.name) =
        node.attributes.map doc.attributeOf ∧
      Builder.declarationsOf (tags id) = node.declarations

/-! ## What a replay looks at -/

theorem replayStart_congr {x : NodeId}
    (h : (d.get? x).map Node.unlink = (doc.get? x).map Node.unlink) (htags : tags' x = tags x) :
    d.replayStart tags' x = doc.replayStart tags x := by
  have hview (e : Document) : e.replayStart tags x =
      (((e.get? x).map Node.unlink).map fun n => n.announce (tags x)).getD [] := by
    rw [replayStart, Option.map_map]
    rfl
  rw [replayStart, htags, ← replayStart, hview, hview, h]

theorem replayEnd_congr {x : NodeId}
    (h : (d.get? x).map Node.unlink = (doc.get? x).map Node.unlink) :
    d.replayEnd x = doc.replayEnd x := by
  have hview (e : Document) : e.replayEnd x =
      (((e.get? x).map Node.unlink).map Node.conclude).getD [] := by
    rw [replayEnd, Option.map_map]
    rfl
  rw [hview, hview, h]

/-- Replays are told by the table alone, and so is whether tags fit. -/
theorem replay_of_nodes_eq (h : d.nodes = doc.nodes) : d.replay tags = doc.replay tags := by
  have hget := get?_of_nodes_eq h
  have hstart : d.replayStart tags = doc.replayStart tags :=
    funext fun x => by rw [replayStart, replayStart, hget]
  have hend : d.replayEnd = doc.replayEnd := funext fun x => by rw [replayEnd, replayEnd, hget]
  rw [replay, replay, hstart, hend, walk_of_nodes_eq h]

theorem Written.of_nodes_eq (hold : doc.Written tags) (h : d.nodes = doc.nodes) :
    d.Written tags := by
  rw [Written, get?_of_nodes_eq h, attributeOf_of_nodes_eq h]
  exact hold

theorem Added.replayStart (h : Added doc d p node attributes) :
    d.replayStart tags doc.size = node.announce (tags doc.size) := by
  obtain ⟨n, hn, hunlink⟩ := Option.map_eq_some_iff.mp h.node
  rw [Document.replayStart, hn, ← hunlink]
  rfl

theorem Added.replayEnd (h : Added doc d p node attributes) :
    d.replayEnd doc.size = node.conclude := by
  obtain ⟨n, hn, hunlink⟩ := Option.map_eq_some_iff.mp h.node
  rw [Document.replayEnd, hn, ← hunlink]
  rfl

namespace Builder

variable {i : Nat} {b b' : Builder} {told : List SaxEvent}

/-- The new tag fits the new node, and the others fit as they did. -/
theorem NewChild.written (h : NewChild b b' node attributes) (hw : b.doc.Linked)
    (hw' : b'.doc.Linked) (hold : b.doc.Written tags)
    (htags : ∀ x, x < b.doc.size → tags' x = tags x)
    (hnew : node.kind = .element →
      (tags' b.doc.size).filter (fun a => !isNamespaceDeclaration a.name) = attributes ∧
        declarationsOf (tags' b.doc.size) = node.declarations) :
    b'.doc.Written tags' := by
  have hgrows := h.added.grows
  intro x n hn hk
  rcases Nat.lt_trichotomy x b.doc.size with hlt | rfl | hgt
  · obtain ⟨m, hm⟩ := exists_get? hlt
    have hunlink := hgrows.node x hlt
    have hattributes := hgrows.attributes x hlt
    rw [hm, hn] at hunlink
    rw [attributesOf, attributesOf, hm, hn] at hattributes
    have hsame : n.unlink = m.unlink := Option.some.inj hunlink
    have hkind : n.unlink.kind = m.unlink.kind := congrArg Node.kind hsame
    obtain ⟨hplain, hdeclared⟩ := hold x m hm (hkind ▸ hk)
    have hmap : m.attributes.map b'.doc.attributeOf = m.attributes.map b.doc.attributeOf :=
      map_congr_left fun a ha =>
        attributeOf_eq (hgrows.node a (attributes_lt_size hw hm a ha))
    have hdeclarations : n.unlink.declarations = m.unlink.declarations :=
      congrArg Node.declarations hsame
    have hlist : n.attributes = m.attributes := hattributes
    rw [htags x hlt, hlist, hmap]
    exact ⟨hplain, hdeclared.trans hdeclarations.symm⟩
  · have hunlink := h.added.node
    have hlist := h.added.attributes
    rw [hn] at hunlink
    rw [attributesOf, hn] at hlist
    have hsame : n.unlink = node := Option.some.inj hunlink
    have hkind : n.unlink.kind = node.kind := congrArg Node.kind hsame
    have hdeclarations : n.unlink.declarations = node.declarations :=
      congrArg Node.declarations hsame
    obtain ⟨hplain, hdeclared⟩ := hnew (hkind ▸ hk)
    exact ⟨hplain.trans hlist.symm, hdeclared.trans hdeclarations.symm⟩
  · -- what comes behind the new node are its attributes
    have hmem : x ∈ b.doc.size :: b'.doc.attributesOf b.doc.size := by
      have hlt : x < b'.doc.size := lt_size_of_get? hn
      rw [h.numbers, mem_range'_1, Nat.add_sub_cancel' (Nat.le_of_lt h.lt_size)]
      exact ⟨Nat.le_of_lt hgt, hlt⟩
    rcases mem_cons.mp hmem with rfl | hmem
    · exact absurd hgt (Nat.lt_irrefl _)
    · have hattr := ((hw'.mem_attributes _ x).mp hmem).2
      rw [kindOf, hn] at hattr
      have hkind : n.kind = .attribute := Option.some.inj hattr
      rw [hk] at hkind
      cases hkind

/-! ## The replay of what is built -/

/-- The replay of what is built so far: all that was told, and the ends of the open elements. -/
structure Replays (b : Builder) (tags : NodeId → List Attribute) (told : List SaxEvent) : Prop where
  replay : b.doc.replay tags root = told ++ b.edge.flatMap b.doc.replayEnd
  written : b.doc.Written tags

theorem Replays.replay_newChild (h : Replays b tags told) (hb : Grown i b) (hb' : Grown i b')
    (hspine : b.doc.Spine b.edge) (hchild : NewChild b b' node attributes)
    (htags : ∀ x, x < b.doc.size → tags' x = tags x) :
    b'.doc.replay tags' root =
        told ++ (node.announce (tags' b.doc.size) ++ node.conclude) ++
          b.edge.flatMap b.doc.replayEnd ∧
      b.edge.flatMap b.doc.replayEnd = b.edge.flatMap b'.doc.replayEnd := by
  have hold {x : NodeId} (hx : x < b.doc.size) :
      b'.doc.replayStart tags' x = b.doc.replayStart tags x ∧
        b'.doc.replayEnd x = b.doc.replayEnd x :=
    ⟨replayStart_congr (hchild.added.grows.node x hx) (htags x hx),
      replayEnd_congr (hchild.added.grows.node x hx)⟩
  obtain ⟨before, hbefore, hafter⟩ := hb.walk_edge hb' hspine hchild (b.doc.replayStart tags)
    b.doc.replayEnd (b'.doc.replayStart tags') b'.doc.replayEnd fun x hx => hold hx
  have htold : before = told := append_cancel_right (hbefore.symm.trans h.replay)
  rw [htold, hchild.added.replayStart, hchild.added.replayEnd] at hafter
  refine ⟨hafter, flatMap_congr fun x hx => ((hold ?_).2).symm⟩
  rcases mem_append.mp hx with hx | hx
  · exact lt_size_of_kindOf (hb.opened x hx)
  · rw [mem_singleton.mp hx]
    exact lt_size_of_kindOf hb.kindOf_root

/-- **A node that is not left open** is announced. -/
theorem Replays.leaf (h : Replays b tags told) (hb : Grown i b) (hb' : Grown i b')
    (hspine : b.doc.Spine b.edge) (hchild : NewChild b b' node []) (ho : b'.opened = b.opened)
    (hk : node.kind ≠ .element) : Replays b' tags (told ++ node.announce []) := by
  obtain ⟨hreplay, hedge⟩ := h.replay_newChild hb hb' hspine hchild fun _ _ => rfl
  have hconclude : node.conclude = [] := if_neg hk
  have hannounce : node.announce (tags b.doc.size) = node.announce [] := by
    unfold Node.announce
    split
    · next hel => exact absurd hel hk
    all_goals rfl
  refine ⟨?_, hchild.written hb.linked hb'.linked h.written (fun _ _ => rfl) fun hel =>
    absurd hel hk⟩
  rw [hreplay, hconclude, hannounce, append_nil, hedge, edge, edge, ho]

/-- **An element that is opened** is announced with its tag. -/
theorem Replays.start (h : Replays b tags told) (hb : Grown i b) (hspine : b.doc.Spine b.edge)
    (name : String) (tag : List Attribute) :
    ∃ tags', Replays (b.startElement name tag) tags'
      (told ++ [.startElement name (Sax.flatten tag)]) := by
  obtain ⟨uri, hchild, ho, -⟩ := hb.newChild_startElement name tag
  have hb' := hb.startElement name tag
  have hold : ∀ x, x < b.doc.size → Function.update tags b.doc.size tag x = tags x :=
    fun x hx => Function.update_of_ne (Nat.ne_of_lt hx) tag tags
  have hnew : Function.update tags b.doc.size tag b.doc.size = tag := Function.update_self ..
  obtain ⟨hreplay, hedge⟩ := h.replay_newChild hb hb' hspine hchild hold
  refine ⟨_, ?_, hchild.written hb.linked hb'.linked h.written hold fun _ => ?_⟩
  · rw [hreplay, hnew, hedge, edge, edge, ho, cons_append, flatMap_cons,
      hchild.added.replayEnd]
    simp only [append_assoc]
    rfl
  · rw [hnew]
    exact ⟨rfl, rfl⟩

/-- **An element that is closed** is ended. -/
theorem Replays.close (h : Replays b tags told) {others : List NodeId}
    (ho : b.opened = id :: others) : Replays b.endElement tags (told ++ b.doc.replayEnd id) := by
  refine ⟨?_, h.written⟩
  show b.doc.replay tags root = _ ++ (b.opened.tail ++ [root]).flatMap b.doc.replayEnd
  rw [h.replay, edge, ho, cons_append, flatMap_cons, tail_cons, append_assoc]

theorem replays_initial (i : Nat) : Replays (Builder.initial i) (fun _ => []) [] := by
  have hinitial := grown_initial i
  have hget : (Builder.initial i).doc.get? root = some { kind := .document } := by
    rw [get?, nodes_initial]
    rfl
  have hsize : (Builder.initial i).doc.size = 1 := congrArg Array.size (nodes_initial i)
  refine ⟨?_, fun id node hn hk => ?_⟩
  · rw [replay, walk_eq hinitial.linked hinitial.acyclic (hsize ▸ Nat.one_pos), children_initial,
      replayStart, hget]
    rfl
  · have hid : id = root := by
      have hlt := lt_size_of_get? hn
      rw [hsize] at hlt
      exact Nat.lt_one_iff.mp hlt
    rw [hid, hget] at hn
    rw [← Option.some.inj hn] at hk
    cases hk

end Builder

end Document

end Xml
