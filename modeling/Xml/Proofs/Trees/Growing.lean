import Xml.Proofs.Links.Views
import Xml.Proofs.Trees.Writing

/-!
# Trees in growing documents

What becomes of the trees of a document when entries are added to its table. New nodes get new
numbers, so what is there is not touched (`Holds.frame`); `Holds` says that a node has a tree and
that nothing of it is numbered before `lo`. A node that is added, is given attributes and then
children has the tree of these (`Added.holds`).
-/

namespace Xml

open List

theorem Node.tree_congr {n m : Node} (h : n.unlink = m.unlink) :
    n.tree = m.tree := by
  have hunlink (k : Node) : k.tree = k.unlink.tree := rfl
  rw [hunlink n, h, ← hunlink]

variable {node : Node} {attributes : List Attribute}

namespace Document

variable {doc d e : Document} {lo p q id : NodeId} {ids more : List NodeId}

/-! ## What a tree looks at -/

/-- The entry itself, its attributes and its children are the same in both documents. -/
structure SameAt (doc d : Document) (x : NodeId) : Prop where
  node : (d.get? x).map Node.unlink = (doc.get? x).map Node.unlink
  attributes : d.attributesOf x = doc.attributesOf x
  children : d.children x = doc.children x

theorem attributeOf_eq {x : NodeId}
    (h : (d.get? x).map Node.unlink = (doc.get? x).map Node.unlink) :
    d.attributeOf x = doc.attributeOf x := by
  have hview : ∀ e : Document, e.attributeOf x =
      ⟨(((e.get? x).map Node.unlink).map (·.name)).getD "",
        (((e.get? x).map Node.unlink).map (·.content)).getD ""⟩ := by
    intro e
    rw [attributeOf, nameOf, Option.map_map, Option.map_map]
    rfl
  rw [hview, hview, h]

/-- A node has this tree, and nothing of it is numbered before `lo`. -/
inductive Holds (doc : Document) (lo : NodeId) : NodeId → Tree → Prop where
  | mk {id : NodeId} {node : Node} {trees : List Tree} (hlo : lo ≤ id)
      (hn : doc.get? id = some node) (ha : ∀ a ∈ node.attributes, lo ≤ a)
      (hlen : (doc.children id).length = trees.length)
      (hc : ∀ c ∈ (doc.children id).zip trees, Holds doc lo c.1 c.2) :
      Holds doc lo id (node.tree (node.attributes.map doc.attributeOf) trees)

theorem Holds.mono {t : Tree} (h : Holds doc lo id t) {less : NodeId} (hle : less ≤ lo) :
    Holds doc less id t := by
  induction h with
  | mk hlo hn ha hlen hc ih =>
    exact .mk (Nat.le_trans hle hlo) hn (fun a hm => Nat.le_trans hle (ha a hm)) hlen ih

/-- **A tree stays as long as nothing is changed at the numbers it uses.** -/
theorem Holds.frame (hw : doc.Linked) (hsame : ∀ x, lo ≤ x → x < doc.size → SameAt doc d x)
    {t : Tree} (h : Holds doc lo id t) : Holds d lo id t := by
  induction h with
  | @mk id node trees hlo hn ha hlen hc ih =>
    have hid := hsame id hlo (lt_size_of_get? hn)
    obtain ⟨node', hn', hunlink⟩ : ∃ node', d.get? id = some node' ∧
        node'.unlink = node.unlink := by
      have hnode := hid.node
      rw [hn] at hnode
      exact Option.map_eq_some_iff.mp hnode
    have hattributes : node'.attributes = node.attributes := by
      have := hid.attributes
      rwa [attributesOf, attributesOf, hn, hn'] at this
    have htree : node'.tree (node'.attributes.map d.attributeOf) trees =
        node.tree (node.attributes.map doc.attributeOf) trees := by
      have hmap : node.attributes.map d.attributeOf = node.attributes.map doc.attributeOf :=
        map_congr_left fun a hm =>
          attributeOf_eq (hsame a (ha a hm) (attributes_lt_size hw hn a hm)).node
      rw [hattributes, hmap, Node.tree_congr hunlink]
    rw [← htree]
    refine .mk hlo hn' (hattributes ▸ ha) ?_ ?_ <;> rw [hid.children]
    · exact hlen
    · exact ih

/-- **The tree of a node is what it holds**, if the bound leaves room for all nodes that can stand
above it. -/
theorem Holds.treeTo_eq (hw : doc.Linked) (ha : doc.Acyclic) {t : Tree} (h : Holds doc lo id t)
    {depth : Nat} {above : List NodeId} (hnd : above.Nodup)
    (habove : ∀ x ∈ above, doc.Ancestor x id) (hb : doc.size ≤ depth + above.length) :
    doc.treeTo depth id = t := by
  induction h generalizing depth above with
  | @mk id node trees hlo hn hattr hlen hc ih =>
    have hlt := length_above_lt hw (ha id) (lt_size_of_get? hn) hnd habove
    obtain ⟨depth, rfl⟩ : ∃ n, depth = n + 1 := ⟨depth - 1, by omega⟩
    have hchildren : (doc.children id).map (doc.treeTo depth) = trees := by
      rw [← forall₂_eq_eq_eq, forall₂_map_left_iff, forall₂_iff_zip]
      refine ⟨hlen, fun {c t} hm => ?_⟩
      have hp : doc.parentOf c = some id := (hw.mem_children.mp (of_mem_zip hm).1).1
      refine ih (c, t) hm (nodup_cons.mpr ⟨fun hm => ha id (habove id hm), hnd⟩)
        (forall_mem_cons.mpr ⟨.parent hp, fun x hx => .above hp (habove x hx)⟩) ?_
      rw [length_cons]
      omega
    rw [treeTo_of_get? hn, hchildren]

/-! ## Growing documents -/

/-- New entries were added, and `ids` came behind the children of `p`. All that was there is
otherwise as it was. -/
structure Extends (doc d : Document) (p : NodeId) (ids : List NodeId) : Prop where
  size_le : doc.size ≤ d.size
  node : ∀ x, x < doc.size → (d.get? x).map Node.unlink = (doc.get? x).map Node.unlink
  attributes : ∀ x, x < doc.size → d.attributesOf x = doc.attributesOf x
  children : ∀ x, x < doc.size →
    d.children x = if x = p then doc.children x ++ ids else doc.children x

theorem Extends.sameAt (h : Extends doc d p ids) {x : NodeId} (hx : x < doc.size) (hne : x ≠ p) :
    SameAt doc d x :=
  ⟨h.node x hx, h.attributes x hx, by rw [h.children x hx, if_neg hne]⟩

theorem Extends.trans (h : Extends doc d p ids) (h' : Extends d e p more) :
    Extends doc e p (ids ++ more) where
  size_le := Nat.le_trans h.size_le h'.size_le
  node x hx := (h'.node x (Nat.lt_of_lt_of_le hx h.size_le)).trans (h.node x hx)
  attributes x hx := (h'.attributes x (Nat.lt_of_lt_of_le hx h.size_le)).trans (h.attributes x hx)
  children x hx := by
    rw [h'.children x (Nat.lt_of_lt_of_le hx h.size_le), h.children x hx]
    split
    · exact append_assoc ..
    · rfl

/-- What is put below a new entry does not show at the old ones. -/
theorem Extends.below (h : Extends doc d p ids) (h' : Extends d e q more) (hq : doc.size ≤ q) :
    Extends doc e p ids where
  size_le := Nat.le_trans h.size_le h'.size_le
  node x hx := (h'.node x (Nat.lt_of_lt_of_le hx h.size_le)).trans (h.node x hx)
  attributes x hx := (h'.attributes x (Nat.lt_of_lt_of_le hx h.size_le)).trans (h.attributes x hx)
  children x hx := by
    have hne : x ≠ q := Nat.ne_of_lt (Nat.lt_of_lt_of_le hx hq)
    rw [h'.children x (Nat.lt_of_lt_of_le hx h.size_le), if_neg hne, h.children x hx]

/-- What a document shows of its nodes is told by the table alone. -/
theorem get?_of_nodes_eq (h : d.nodes = doc.nodes) : d.get? = doc.get? :=
  funext fun x => by rw [get?, get?, h]

theorem children_of_nodes_eq (h : d.nodes = doc.nodes) : d.children = doc.children := by
  have hsize : d.size = doc.size := congrArg Array.size h
  funext x
  rw [children, children, siblingsFrom, siblingsFrom, get?_of_nodes_eq h, hsize]

theorem attributeOf_of_nodes_eq (h : d.nodes = doc.nodes) : d.attributeOf = doc.attributeOf := by
  funext x
  rw [attributeOf, attributeOf, nameOf, nameOf, get?_of_nodes_eq h]

theorem children_of_size_le (hw : doc.Linked) (h : doc.size ≤ id) : doc.children id = [] :=
  hw.children_eq_nil fun hcon => absurd hcon.lt_size (Nat.not_lt.mpr h)

/-- The entry that came next is the last child of `p`: this node, with these attributes, which came
later still, and without children. -/
structure Added (doc d : Document) (p : NodeId) (node : Node) (attributes : List Attribute) :
    Prop where
  grows : Extends doc d p [doc.size]
  node : (d.get? doc.size).map Node.unlink = some node
  attributes : (d.attributesOf doc.size).map d.attributeOf = attributes
  attributes_le : ∀ a ∈ d.attributesOf doc.size, doc.size ≤ a
  children : d.children doc.size = []

theorem Linked.added (hw : doc.Linked) (hn : node.Unlinked) (hk : node.kind ≠ .attribute)
    (hp : doc.IsContainer p) : Added doc ((doc.alloc node).2.appendChild p doc.size) p node [] := by
  have hne : doc.size ≠ p := Nat.ne_of_gt hp.lt_size
  have hloose : (doc.alloc node).2.Loose doc.size := loose_new hn hk
  have hins := ((hw.alloc hn).inserted hp.alloc hloose).1
  have hchildren := hins.children_eq (hw.alloc hn) hloose.lt_size hloose.1 (append_nil _).symm
  have hattributes : ((doc.alloc node).2.appendChild p doc.size).attributesOf doc.size = [] := by
    rw [hins.attributes, attributesOf, get?_alloc, if_pos rfl]
    exact (congrArg Node.attributes hn).symm
  refine ⟨⟨?_, fun x hx => ?_, fun x hx => ?_, fun x hx => ?_⟩, ?_, ?_, ?_, ?_⟩
  · rw [hins.size, size_alloc]
    exact Nat.le_succ _
  · rw [appendChild_alike, get?_alloc_of_lt hx]
  · rw [hins.attributes, attributesOf, get?_alloc_of_lt hx]
    rfl
  · rw [hchildren, children_alloc hw hn, children_alloc hw hn]
    split
    · next he => rw [he]
    · rfl
  · rw [appendChild_alike, get?_alloc, if_pos rfl]
    exact congrArg some hn
  · rw [hattributes]
    rfl
  · rw [hattributes]
    exact forall_mem_nil _
  · rw [hchildren, if_neg hne, children_alloc hw hn, children_of_size_le hw (Nat.le_refl _)]

/-! ## Attributes -/

theorem get?_appendAttribute (node : Node) {element : NodeId} (he : element < doc.size)
    (x : NodeId) :
    ((doc.alloc node).2.appendAttribute element doc.size).get? x =
      if x = doc.size then some { node with parent := some element }
      else if x = element then
        (doc.get? x).map fun n => { n with attributes := n.attributes ++ [doc.size] }
      else doc.get? x := by
  have hne : doc.size ≠ element := Nat.ne_of_gt he
  have hlength : ((doc.alloc node).2.attributesOf element).length =
      (doc.attributesOf element).length := by
    rw [attributesOf, get?_alloc_of_lt he]
    rfl
  rw [appendAttribute, insertAttribute, get?_touch, get?_update, get?_update, get?_alloc, hlength]
  by_cases hx : x = doc.size
  · subst hx
    rw [if_neg (Ne.symm hne), if_pos rfl, if_pos rfl, if_pos rfl]
    rfl
  · rw [if_neg (Ne.symm hx), if_neg hx, if_neg hx]
    by_cases hxe : x = element
    · subst hxe
      rw [if_pos rfl, if_pos rfl]
      cases hn : doc.get? x with
      | none => rfl
      | some n =>
        rw [attributesOf, hn]
        simp [insertIdx_length_self]
    · rw [if_neg (Ne.symm hxe), if_neg hxe]

theorem size_appendAttribute (doc : Document) (node : Node) (element id : NodeId) :
    ((doc.alloc node).2.appendAttribute element id).size = doc.size + 1 := by
  rw [appendAttribute, insertAttribute, size_touch, size_update, size_update, size_alloc]

theorem children_appendAttribute (hw : doc.Linked) {element : NodeId} (hn : node.Unlinked)
    (x : NodeId) :
    ((doc.alloc node).2.appendAttribute element doc.size).children x = doc.children x := by
  rw [appendAttribute, (hw.alloc hn).children_insertAttribute, children_alloc hw hn]

/-- **A new attribute comes behind the others.** -/
theorem Added.attribute {a : Node} (h : Added doc d p node attributes) (hw : d.Linked)
    (ha : a.Unlinked) :
    Added doc ((d.alloc a).2.appendAttribute doc.size d.size) p node
      (attributes ++ [⟨a.name, a.content⟩]) := by
  obtain ⟨element, he, -⟩ := Option.map_eq_some_iff.mp h.node
  have hlt : doc.size < d.size := lt_size_of_get? he
  have hget := get?_appendAttribute a hlt
  have hunlink : ∀ x, x < d.size → (((d.alloc a).2.appendAttribute doc.size d.size).get? x).map
      Node.unlink = (d.get? x).map Node.unlink := by
    intro x hx
    rw [hget, if_neg (Nat.ne_of_lt hx)]
    split
    · rw [Option.map_map]
      rfl
    · rfl
  have hattributes : ((d.alloc a).2.appendAttribute doc.size d.size).attributesOf doc.size =
      d.attributesOf doc.size ++ [d.size] := by
    rw [attributesOf, attributesOf, hget, if_neg (Nat.ne_of_lt hlt), if_pos rfl, he]
    rfl
  refine ⟨⟨?_, fun x hx => ?_, fun x hx => ?_, fun x hx => ?_⟩, ?_, ?_, ?_, ?_⟩
  · rw [size_appendAttribute]
    exact Nat.le_succ_of_le h.grows.size_le
  · rw [hunlink x (Nat.lt_trans hx hlt), h.grows.node x hx]
  · rw [← h.grows.attributes x hx, attributesOf, attributesOf, hget,
      if_neg (Nat.ne_of_lt (Nat.lt_trans hx hlt)), if_neg (Nat.ne_of_lt hx)]
  · rw [children_appendAttribute hw ha, h.grows.children x hx]
  · rw [hunlink _ hlt, h.node]
  · rw [hattributes, map_append, ← h.attributes]
    congr 1
    · refine map_congr_left fun b hb => attributeOf_eq (hunlink b ?_)
      exact lt_size_of_parentOf ((hw.mem_attributes _ _).mp hb).1
    · rw [map_singleton, attributeOf, nameOf, hget, if_pos rfl]
      rfl
  · rw [hattributes, forall_mem_append, forall_mem_singleton]
    exact ⟨h.attributes_le, Nat.le_of_lt hlt⟩
  · rw [children_appendAttribute hw ha, h.children]

theorem Added.addContent (h : Added doc d p node []) (hw : d.Linked) (text : String) :
    Added doc (d.update doc.size fun n => { n with content := n.content ++ text }) p
      { node with content := node.content ++ text } [] := by
  have hlinks : SameLinks d (d.update doc.size fun n => { n with content := n.content ++ text }) :=
    .update _ _ _ fun _ => rfl
  have hshows := hlinks.shows
  have hchildren := hlinks.children hw
  have hold : ∀ x, x < doc.size →
      (d.update doc.size fun n => { n with content := n.content ++ text }).get? x = d.get? x := by
    intro x hx
    rw [get?_update, if_neg (Nat.ne_of_gt hx)]
  have hnone : (d.update doc.size fun n => { n with content := n.content ++ text }).attributesOf
      doc.size = [] := by
    rw [hshows.attributes]
    exact map_eq_nil_iff.mp h.attributes
  refine ⟨⟨?_, fun x hx => ?_, fun x hx => ?_, fun x hx => ?_⟩, ?_, ?_, ?_, ?_⟩
  · rw [hshows.size]
    exact h.grows.size_le
  · rw [hold x hx, h.grows.node x hx]
  · rw [hshows.attributes, h.grows.attributes x hx]
  · rw [hchildren, h.grows.children x hx]
  · obtain ⟨n, hn, hunlink⟩ := Option.map_eq_some_iff.mp h.node
    rw [get?_update, if_pos rfl, hn, ← hunlink]
    rfl
  · rw [hnone]
    rfl
  · rw [hnone]
    exact forall_mem_nil _
  · rw [hchildren, h.children]

/-- **The tree of a new node** whose children came after it. -/
theorem Added.holds {trees : List Tree} (h : Added doc d p node attributes) (hw : d.Linked)
    (hgrow : Extends d e doc.size ids) (hids : List.Forall₂ (Holds e d.size) ids trees) :
    Holds e doc.size doc.size (node.tree attributes trees) := by
  obtain ⟨element, he, -⟩ := Option.map_eq_some_iff.mp h.node
  have hlt : doc.size < d.size := lt_size_of_get? he
  have hnode : (e.get? doc.size).map Node.unlink = some node := (hgrow.node _ hlt).trans h.node
  obtain ⟨element', he', hunlink⟩ := Option.map_eq_some_iff.mp hnode
  have hattributes : element'.attributes = d.attributesOf doc.size := by
    rw [← hgrow.attributes _ hlt, attributesOf, he']
    rfl
  have hmap : element'.attributes.map e.attributeOf = attributes := by
    rw [hattributes, ← h.attributes]
    refine map_congr_left fun a hm => attributeOf_eq (hgrow.node a ?_)
    exact lt_size_of_parentOf ((hw.mem_attributes _ _).mp hm).1
  have hchildren : e.children doc.size = ids := by
    rw [hgrow.children _ hlt, if_pos rfl, h.children, nil_append]
  have htree : element'.tree (element'.attributes.map e.attributeOf) trees =
      node.tree attributes trees := by
    rw [hmap, ← hunlink]
    rfl
  obtain ⟨hlen, hall⟩ := forall₂_iff_zip.mp hids
  rw [← htree]
  refine .mk (Nat.le_refl _) he' (hattributes ▸ h.attributes_le) ?_ fun c hm => ?_
  · rw [hchildren, hlen]
  · rw [hchildren] at hm
    exact (hall hm).mono (Nat.le_of_lt hlt)

end Document

end Xml
