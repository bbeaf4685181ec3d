import Mathlib.Logic.Function.Basic
import Xml.Proofs.Trees.Growing

/-!
# Copies being made

A copy is made by working off pairs of a node and its copy. All the while, every new node is told by
the node it was copied from, its origin: it is what that node is, and what it has are copies of that
node's first attributes and children, in order. `Mirrors` keeps the others on account. What is on
account between two rounds is known: it is the children of the nodes that wait (`Working`).

* `Working.step` — a round copies the children of the pair in front
* `Working.whole` — when no pair is left, nothing is on account
* `deepCopy_isSome_iff` — the pairs run out exactly where what is copied is a tree
-/

namespace Xml.Document

open List

variable {doc d e : Document} {origin : NodeId → NodeId} {as cs : NodeId → List NodeId}
  {p id x y : NodeId} {rest : List NodeId}

/-! ## What the changes leave alone -/

/-- What a node is, without its links. -/
def bare (doc : Document) (id : NodeId) : Option Node :=
  (doc.get? id).map Node.unlink

theorem kindOf_eq_of_bare (h : e.bare y = doc.bare x) : e.kindOf y = doc.kindOf x := by
  have hview (d : Document) (z : NodeId) : d.kindOf z = (d.bare z).map (·.kind) := by
    rw [bare, Option.map_map]
    rfl
  rw [hview, hview, h]

theorem get?_appendAttribute_of_ne (hp : x ≠ p) (hid : x ≠ id) :
    (doc.appendAttribute p id).get? x = doc.get? x := by
  rw [appendAttribute, insertAttribute, get?_touch, get?_update, if_neg (Ne.symm hp), get?_update,
    if_neg (Ne.symm hid)]

theorem get?_appendChild_of_ne (hp : x ≠ p) (hid : x ≠ id) (hlast : doc.lastOf p ≠ some x) :
    (doc.appendChild p id).get? x = doc.get? x := by
  rw [appendChild, get?_touch, get?_update, if_neg (Ne.symm hp)]
  cases hl : (doc.get? p).bind (·.lastChild) with
  | none => simp only [get?_update, if_neg (Ne.symm hp), if_neg (Ne.symm hid)]
  | some l =>
    have hne : l ≠ x := fun he => hlast (hl.trans (congrArg some he))
    simp only [get?_update, if_neg hne, if_neg (Ne.symm hid)]

theorem attributesOf_appendAttribute (hp : p < doc.size) (hid : id < doc.size) (x : NodeId) :
    (doc.appendAttribute p id).attributesOf x =
      if x = p then doc.attributesOf p ++ [id] else doc.attributesOf x := by
  have hp' : p < (doc.update id fun n => { n with parent := some p }).size := by
    rw [size_update]
    exact hp
  refine (attributesOf_update _ (fun as => as.insertIdx (min (doc.attributesOf p).length as.length)
    id) (fun _ => rfl) hp' x).trans ?_
  rw [attributesOf_update (fun n => { n with parent := some p }) (fun as => as) (fun _ => rfl) hid]
  by_cases hx : x = p
  · simp [hx, insertIdx_length_self]
  · simp [hx]

theorem Linked.nil_of_attribute (hw : doc.Linked) (hk : doc.kindOf id = some .attribute) :
    doc.attributesOf id = [] ∧ doc.children id = [] := by
  refine ⟨hw.attributesOf_eq_nil (by rw [hk]; exact fun h => nomatch h), ?_⟩
  exact hw.children_eq_nil fun hcon => hcon.not_attribute hk

/-! ## What new nodes are copies of -/

/-- The nodes that came after those of `doc` are copies. Each is told by its origin, and what it has
are copies of the first attributes and children of its origin; the others are on account. -/
structure Mirrors (doc e : Document) (origin : NodeId → NodeId)
    (as cs : NodeId → List NodeId) : Prop where
  linked : e.Linked
  size_le : doc.size ≤ e.size
  kept : ∀ x, x < doc.size → e.get? x = doc.get? x
  /-- The first of the new nodes is not put anywhere. -/
  loose : e.parentOf doc.size = none
  doctype : e.doctype = doc.doctype
  origin_lt : ∀ y, doc.size ≤ y → y < e.size → origin y < doc.size
  bare : ∀ y, doc.size ≤ y → y < e.size → e.bare y = doc.bare (origin y)
  attributes : ∀ y, doc.size ≤ y → y < e.size →
    (e.attributesOf y).map origin ++ as y = doc.attributesOf (origin y)
  children : ∀ y, doc.size ≤ y → y < e.size →
    (e.children y).map origin ++ cs y = doc.children (origin y)
  /-- There is nothing on account for numbers that are not in the table. -/
  idle : ∀ y, e.size ≤ y → as y = [] ∧ cs y = []

namespace Mirrors

theorem refl (hw : doc.Linked) (origin : NodeId → NodeId) :
    Mirrors doc doc origin (fun _ => []) (fun _ => []) where
  linked := hw
  size_le := Nat.le_refl _
  kept _ _ := rfl
  loose := by rw [parentOf, get?_eq_none (Nat.le_refl _)]; rfl
  doctype := rfl
  origin_lt _ hy hlt := absurd hlt (Nat.not_lt.mpr hy)
  bare _ hy hlt := absurd hlt (Nat.not_lt.mpr hy)
  attributes _ hy hlt := absurd hlt (Nat.not_lt.mpr hy)
  children _ hy hlt := absurd hlt (Nat.not_lt.mpr hy)
  idle _ _ := ⟨rfl, rfl⟩

/-- The children of an old node are those it had. -/
theorem children_kept (h : Mirrors doc e origin as cs) (hw : doc.Linked)
    (hx : x < doc.size) : e.children x = doc.children x := by
  have hlt : ∀ c ∈ doc.children x, c < doc.size := fun _ => hw.lt_size_of_mem
  have hc := hw.chain x
  have hchain : e.Chain x (doc.children x) := by
    refine ⟨?_, ?_, hc.forward.congr fun c hm => ?_, hc.backward.congr fun c hm => ?_⟩
    · rw [← hc.first, firstOf, firstOf, h.kept x hx]
    · rw [← hc.last, lastOf, lastOf, h.kept x hx]
    · rw [nextOf, nextOf, h.kept c (hlt c hm)]
    · rw [prevOf, prevOf, h.kept c (hlt c (mem_reverse.mp hm))]
  exact hchain.children_eq (hw.children_nodup x) fun c hm =>
    Nat.lt_of_lt_of_le (hlt c hm) h.size_le

theorem new_of_parentOf (h : Mirrors doc e origin as cs) (hw : doc.Linked)
    (hp : doc.size ≤ p) (hx : e.parentOf x = some p) : doc.size ≤ x ∧ x < e.size := by
  refine ⟨Nat.le_of_not_lt fun hlt => ?_, lt_size_of_parentOf hx⟩
  rw [parentOf, h.kept x hlt] at hx
  exact absurd (hw.container p x hx).lt_size (Nat.not_lt.mpr hp)

theorem kindOf (h : Mirrors doc e origin as cs) (hy : doc.size ≤ y)
    (hlt : y < e.size) : e.kindOf y = doc.kindOf (origin y) :=
  kindOf_eq_of_bare (h.bare y hy hlt)

/-! ## Steps -/

/-- A new node with nothing on it: all that its origin has is on account. -/
theorem alloc (h : Mirrors doc e origin as cs) {n : Node}
    (hn : doc.get? x = some n) :
    Mirrors doc (e.alloc n.unlink).2 (Function.update origin e.size x)
      (Function.update as e.size (doc.attributesOf x))
      (Function.update cs e.size (doc.children x)) where
  linked := h.linked.alloc n.unlinked_unlink
  size_le := by rw [size_alloc]; exact Nat.le_succ_of_le h.size_le
  kept z hz := by
    rw [get?_alloc_of_lt (Nat.lt_of_lt_of_le hz h.size_le), h.kept z hz]
  loose := by rw [parentOf_alloc n.unlinked_unlink, h.loose]
  doctype := by rw [doctype_alloc, h.doctype]
  origin_lt y hy hlt := by
    rcases Nat.lt_succ_iff_lt_or_eq.mp (size_alloc e n.unlink ▸ hlt) with hlt | rfl
    · rw [Function.update_of_ne (Nat.ne_of_lt hlt)]
      exact h.origin_lt y hy hlt
    · rw [Function.update_self]
      exact lt_size_of_get? hn
  bare y hy hlt := by
    rcases Nat.lt_succ_iff_lt_or_eq.mp (size_alloc e n.unlink ▸ hlt) with hlt | rfl
    · rw [Function.update_of_ne (Nat.ne_of_lt hlt), Document.bare, get?_alloc_of_lt hlt]
      exact h.bare y hy hlt
    · rw [Function.update_self, Document.bare, Document.bare, get?_alloc, if_pos rfl, hn]
      rfl
  attributes y hy hlt := by
    rcases Nat.lt_succ_iff_lt_or_eq.mp (size_alloc e n.unlink ▸ hlt) with hlt | rfl
    · have hmap : (e.attributesOf y).map (Function.update origin e.size x) =
          (e.attributesOf y).map origin := by
        refine map_congr_left fun a ha => Function.update_of_ne (Nat.ne_of_lt ?_) _ _
        exact lt_size_of_parentOf ((h.linked.mem_attributes y a).mp ha).1
      have hsame : (e.alloc n.unlink).2.attributesOf y = e.attributesOf y := by
        rw [attributesOf, get?_alloc_of_lt hlt, attributesOf]
      rw [Function.update_of_ne (Nat.ne_of_lt hlt), Function.update_of_ne (Nat.ne_of_lt hlt), hsame,
        hmap]
      exact h.attributes y hy hlt
    · rw [Function.update_self, Function.update_self, attributesOf, get?_alloc, if_pos rfl]
      rfl
  children y hy hlt := by
    rw [children_alloc h.linked n.unlinked_unlink]
    rcases Nat.lt_succ_iff_lt_or_eq.mp (size_alloc e n.unlink ▸ hlt) with hlt | rfl
    · have hmap : (e.children y).map (Function.update origin e.size x) =
          (e.children y).map origin :=
        map_congr_left fun c hc =>
          Function.update_of_ne (Nat.ne_of_lt (h.linked.lt_size_of_mem hc)) _ _
      rw [Function.update_of_ne (Nat.ne_of_lt hlt), Function.update_of_ne (Nat.ne_of_lt hlt), hmap]
      exact h.children y hy hlt
    · rw [Function.update_self, Function.update_self, children_of_size_le h.linked (Nat.le_refl _)]
      rfl
  idle y hy := by
    rw [size_alloc] at hy
    rw [Function.update_of_ne (Nat.ne_of_gt hy), Function.update_of_ne (Nat.ne_of_gt hy)]
    exact h.idle y (Nat.le_of_lt hy)

theorem putAttribute (h : Mirrors doc e origin as cs) (hw : doc.Linked)
    (hp : doc.size ≤ p) (hlt : p < e.size) (hid : doc.size < id) (hidlt : id < e.size)
    (hloose : e.parentOf id = none) (hnext : as p = origin id :: rest) :
    Mirrors doc (e.appendAttribute p id) origin (Function.update as p rest) cs := by
  have hall := h.attributes p hp hlt
  rw [hnext] at hall
  have hown : doc.IsAttributeOf (origin p) (origin id) :=
    (hw.mem_attributes _ _).mp (hall ▸ by simp)
  have hel : e.kindOf p = some .element := by
    rw [h.kindOf hp hlt, hw.owner _ _ hown]
  have hk : e.kindOf id = some .attribute := by
    rw [h.kindOf (Nat.le_of_lt hid) hidlt, hown.2]
  obtain ⟨hl, hsize, -, hparent⟩ := h.linked.insertAttribute (e.attributesOf p).length hel hk hloose
  have hattributes := attributesOf_appendAttribute hlt hidlt
  rw [← appendAttribute] at hl hsize
  exact {
    linked := hl
    size_le := by rw [hsize]; exact h.size_le
    kept := fun x hx => by
      rw [get?_appendAttribute_of_ne (Nat.ne_of_lt (Nat.lt_of_lt_of_le hx hp))
        (Nat.ne_of_lt (Nat.lt_trans hx hid)), h.kept x hx]
    loose := by rw [appendAttribute, hparent, if_neg (Nat.ne_of_lt hid), h.loose]
    doctype := by rw [doctype_appendAttribute, h.doctype]
    origin_lt := fun y hy hy' => h.origin_lt y hy (hsize ▸ hy')
    bare := fun y hy hy' =>
      (insertAttribute_alike e p _ id y).trans (h.bare y hy (hsize ▸ hy'))
    attributes := fun y hy hy' => by
      rw [hattributes]
      by_cases hyp : y = p
      · rw [if_pos hyp, hyp, Function.update_self, map_append, append_assoc]
        exact hall
      · rw [if_neg hyp, Function.update_of_ne hyp]
        exact h.attributes y hy (hsize ▸ hy')
    children := fun y hy hy' => by
      rw [appendAttribute, h.linked.children_insertAttribute]
      exact h.children y hy (hsize ▸ hy')
    idle := fun y hy => by
      rw [hsize] at hy
      rw [Function.update_of_ne (Nat.ne_of_gt (Nat.lt_of_lt_of_le hlt hy))]
      exact h.idle y hy }

theorem putChild (h : Mirrors doc e origin as cs) (hw : doc.Linked)
    (hp : doc.size ≤ p) (hlt : p < e.size) (hid : doc.size < id) (hidlt : id < e.size)
    (hloose : e.parentOf id = none) (hnext : cs p = origin id :: rest) :
    Mirrors doc (e.appendChild p id) origin as (Function.update cs p rest) := by
  have hall := h.children p hp hlt
  rw [hnext] at hall
  have hchild : doc.IsChild (origin p) (origin id) := hw.mem_children.mp (hall ▸ by simp)
  have hcon : e.IsContainer p := by
    rw [IsContainer, h.kindOf hp hlt]
    exact hw.container _ _ hchild.1
  have hl : e.Loose id := by
    refine ⟨hloose, kindOf_ne_none hidlt, ?_⟩
    rw [h.kindOf (Nat.le_of_lt hid) hidlt]
    exact hchild.2
  have hins := (h.linked.inserted hcon hl).1
  have hsize := hins.size
  exact {
    linked := hins.linked h.linked hcon hloose hl.2.2 (append_nil _).symm
    size_le := by rw [hsize]; exact h.size_le
    kept := fun x hx => by
      -- the last child, whose link is changed too, is new like its parent
      have hlast : e.lastOf p ≠ some x := by
        rw [(h.linked.chain p).last]
        intro hm
        have hx' := (h.linked.mem_children.mp (mem_of_getLast? hm)).1
        exact absurd hx (Nat.not_lt.mpr (h.new_of_parentOf hw hp hx').1)
      rw [get?_appendChild_of_ne (Nat.ne_of_lt (Nat.lt_of_lt_of_le hx hp))
        (Nat.ne_of_lt (Nat.lt_trans hx hid)) hlast, h.kept x hx]
    loose := by rw [hins.parent, if_neg (Nat.ne_of_lt hid), h.loose]
    doctype := by rw [doctype_appendChild, h.doctype]
    origin_lt := fun y hy hy' => h.origin_lt y hy (hsize ▸ hy')
    bare := fun y hy hy' => (appendChild_alike e p id y).trans (h.bare y hy (hsize ▸ hy'))
    attributes := fun y hy hy' => by
      rw [hins.attributes]
      exact h.attributes y hy (hsize ▸ hy')
    children := fun y hy hy' => by
      rw [hins.children_eq h.linked hidlt hloose (append_nil _).symm]
      by_cases hyp : y = p
      · rw [if_pos hyp, hyp, Function.update_self, map_append, append_assoc]
        exact hall
      · rw [if_neg hyp, Function.update_of_ne hyp]
        exact h.children y hy (hsize ▸ hy')
    idle := fun y hy => by
      rw [hsize] at hy
      rw [Function.update_of_ne (Nat.ne_of_gt (Nat.lt_of_lt_of_le hlt hy))]
      exact h.idle y hy }

/-! ## One node with its attributes -/

theorem copyAttributes (hw : doc.Linked) (hp : doc.size ≤ p) (todo : List NodeId)
    (h : Mirrors doc e origin (Function.update (fun _ => []) p todo) cs) (hlt : p < e.size) :
    ∃ origin', (∀ y, y < e.size → origin' y = origin y) ∧
      Mirrors doc (todo.foldl (fun doc attr =>
        let (attrCopy, doc) := doc.copyNode attr
        doc.appendAttribute p attrCopy) e) origin' (fun _ => []) cs := by
  induction todo generalizing e origin with
  | nil =>
    rw [Function.update_eq_self_iff.mpr rfl] at h
    exact ⟨origin, fun _ _ => rfl, h⟩
  | cons a todo ih =>
    have hall := h.attributes p hp hlt
    rw [Function.update_self] at hall
    have ha : doc.IsAttributeOf (origin p) a := (hw.mem_attributes _ _).mp (hall ▸ by simp)
    obtain ⟨n, hn⟩ := exists_get? (lt_size_of_kindOf ha.2)
    obtain ⟨hidle, hidle'⟩ := h.idle e.size (Nat.le_refl _)
    obtain ⟨hnone, hnone'⟩ := hw.nil_of_attribute ha.2
    have hnew := h.alloc hn
    have has : Function.update (Function.update (fun _ => []) p (a :: todo)) e.size [] =
        Function.update (fun _ => []) p (a :: todo) := Function.update_eq_self_iff.mpr hidle.symm
    have hcs : Function.update cs e.size [] = cs := Function.update_eq_self_iff.mpr hidle'.symm
    rw [hnone, hnone', has, hcs] at hnew
    have hsize : e.size < (e.alloc n.unlink).2.size := by
      rw [size_alloc]
      exact Nat.lt_succ_self _
    have hput := hnew.putAttribute hw hp (Nat.lt_trans hlt hsize) (Nat.lt_of_le_of_lt hp hlt) hsize
      (kindOf_parentOf_new e n.unlinked_unlink).2
      (by rw [Function.update_self, Function.update_self])
    rw [Function.update_idem] at hput
    have hmade : e.size < ((e.alloc n.unlink).2.appendAttribute p e.size).size := by
      rw [size_appendAttribute]
      exact Nat.lt_succ_self _
    obtain ⟨origin', hsame, hrest⟩ := ih hput (Nat.lt_trans hlt hmade)
    refine ⟨origin', fun y hy => ?_, ?_⟩
    · rw [hsame y (Nat.lt_trans hy hmade), Function.update_of_ne (Nat.ne_of_lt hy)]
    · rw [foldl_cons, copyNode_eq ((h.kept a (lt_size_of_kindOf ha.2)).trans hn)]
      dsimp only
      rw [alloc_fst]
      exact hrest

/-- **A node is copied with its attributes**, and its children are on account. -/
theorem copyNode (hw : doc.Linked) (h : Mirrors doc e origin (fun _ => []) cs)
    (hx : x < doc.size) :
    ∃ origin', (∀ y, y < e.size → origin' y = origin y) ∧ origin' e.size = x ∧
      Mirrors doc (e.copyWithAttributes x).2 origin' (fun _ => [])
        (Function.update cs e.size (doc.children x)) := by
  obtain ⟨n, hn⟩ := exists_get? hx
  have hattributes : e.attributesOf x = doc.attributesOf x := by
    rw [attributesOf, h.kept x hx, attributesOf]
  have hsize : e.size < (e.alloc n.unlink).2.size := by
    rw [size_alloc]
    exact Nat.lt_succ_self _
  obtain ⟨origin', hsame, hmade⟩ :=
    copyAttributes hw h.size_le (doc.attributesOf x) (h.alloc hn) hsize
  refine ⟨origin', fun y hy => ?_, ?_, ?_⟩
  · rw [hsame y (Nat.lt_trans hy hsize), Function.update_of_ne (Nat.ne_of_lt hy)]
  · rw [hsame e.size hsize, Function.update_self]
  · rw [copyWithAttributes, copyNode_eq ((h.kept x hx).trans hn)]
    dsimp only
    rw [alloc_fst, hattributes]
    exact hmade

end Mirrors

/-! ## Rounds -/

/-- What is on account between two rounds: the children of each node that waits. -/
def missing (doc : Document) : List (NodeId × NodeId) → NodeId → List NodeId
  | [] => fun _ => []
  | (source, copy) :: pending => Function.update (missing doc pending) copy (doc.children source)

theorem missing_of_notMem {pending : List (NodeId × NodeId)} (h : y ∉ pending.map Prod.snd) :
    missing doc pending y = [] := by
  induction pending with
  | nil => rfl
  | cons q pending ih =>
    rw [map_cons, mem_cons, not_or] at h
    rw [missing, Function.update_of_ne h.1, ih h.2]

/-- A copy of `n` that is being made, with these pairs still to be worked off. -/
structure Working (doc : Document) (n : NodeId) (e : Document) (origin : NodeId → NodeId)
    (pending : List (NodeId × NodeId)) : Prop where
  mirrors : Mirrors doc e origin (fun _ => []) (missing doc pending)
  top_lt : doc.size < e.size
  top : origin doc.size = n
  paired : ∀ q ∈ pending, doc.size ≤ q.2 ∧ q.2 < e.size ∧ origin q.2 = q.1
  nodup : (pending.map Prod.snd).Nodup

variable {n source copy : NodeId} {pending : List (NodeId × NodeId)}

theorem Linked.working (hw : doc.Linked) (hn : n < doc.size) :
    ∃ origin, Working doc n (doc.copyWithAttributes n).2 origin
      [(n, (doc.copyWithAttributes n).1)] := by
  obtain ⟨kind, hk⟩ := Option.ne_none_iff_exists'.mp (kindOf_ne_none hn)
  obtain ⟨hfst, -, -, hnew, -⟩ := copyWithAttributes_spec (G := Outside) hw hk
  obtain ⟨origin, -, htop, hmade⟩ := (Mirrors.refl hw fun x => x).copyNode hw hn
  have hlt := lt_size_of_kindOf hnew
  rw [hfst]
  exact ⟨origin, hmade, hlt, htop,
    forall_mem_singleton.mpr ⟨Nat.le_refl _, hlt, htop⟩, nodup_singleton _⟩

/-- The children on account of `p` are copied, one after the other, and wait in front of the
others. -/
theorem Mirrors.copyChildren (hw : doc.Linked) (hp : doc.size ≤ p) (todo : List NodeId)
    (h : Mirrors doc e origin (fun _ => []) (Function.update (missing doc pending) p todo))
    (hlt : p < e.size) (htop : origin doc.size = n)
    (hpaired : ∀ q ∈ pending, doc.size ≤ q.2 ∧ q.2 < e.size ∧ origin q.2 = q.1)
    (hnd : (p :: pending.map Prod.snd).Nodup) :
    ∃ origin', Working doc n (copyChildren p todo e pending).1 origin'
      (copyChildren p todo e pending).2 := by
  have hbase : doc.size < e.size := Nat.lt_of_le_of_lt hp hlt
  induction todo generalizing e origin pending with
  | nil =>
    obtain ⟨hmem, hnd⟩ := nodup_cons.mp hnd
    rw [Function.update_eq_self_iff.mpr (missing_of_notMem hmem).symm] at h
    exact ⟨origin, h, hbase, htop, hpaired, hnd⟩
  | cons c todo ih =>
    have hall := h.children p hp hlt
    rw [Function.update_self] at hall
    have hc : c < doc.size := hw.lt_size_of_mem (p := origin p) (hall ▸ by simp)
    have hkind : e.kindOf c = doc.kindOf c := by rw [Document.kindOf, h.kept c hc, Document.kindOf]
    obtain ⟨kind, hk⟩ := Option.ne_none_iff_exists'.mp (hkind ▸ kindOf_ne_none hc)
    obtain ⟨hfst, -, -, hnew, hloose⟩ := copyWithAttributes_spec (G := Outside) h.linked hk
    have hmade := lt_size_of_kindOf hnew
    obtain ⟨origin', hsame, horigin, hcopied⟩ := h.copyNode hw hc
    have hne : p ≠ e.size := Nat.ne_of_lt hlt
    have hput := hcopied.putChild hw hp (Nat.lt_trans hlt hmade) hbase hmade hloose
      (by rw [Function.update_of_ne hne, Function.update_self, horigin])
    rw [Function.update_comm hne, Function.update_idem] at hput
    have hsize : e.size < ((e.copyWithAttributes c).2.appendChild p e.size).size := by
      rw [size_appendChild]
      exact hmade
    have hround : Document.copyChildren p (c :: todo) e pending = Document.copyChildren p todo
        ((e.copyWithAttributes c).2.appendChild p e.size) ((c, e.size) :: pending) := by
      rw [← hfst]
      rfl
    rw [hround]
    refine @ih _ _ ((c, e.size) :: pending) hput (Nat.lt_trans hlt hsize)
      ((hsame _ hbase).trans htop) ?_ ?_ (Nat.lt_trans hbase hsize)
    · rw [forall_mem_cons]
      refine ⟨⟨h.size_le, hsize, horigin⟩, fun q hq => ?_⟩
      obtain ⟨hq, hqlt, hqo⟩ := hpaired q hq
      exact ⟨hq, Nat.lt_trans hqlt hsize, (hsame _ hqlt).trans hqo⟩
    · obtain ⟨hmem, hnd⟩ := nodup_cons.mp hnd
      have hfresh : e.size ∉ pending.map Prod.snd := by
        rw [mem_map]
        rintro ⟨q, hq, hqe⟩
        exact absurd hqe (Nat.ne_of_lt (hpaired q hq).2.1)
      rw [map_cons, nodup_cons, nodup_cons, mem_cons, not_or]
      exact ⟨⟨hne, hmem⟩, hfresh, hnd⟩

/-- The node in front is an old one, so its children are those it had. -/
theorem Working.children_source (h : Working doc n e origin ((source, copy) :: pending))
    (hw : doc.Linked) : e.children source = doc.children source := by
  obtain ⟨hcopy, hlt, horigin⟩ := h.paired (source, copy) mem_cons_self
  have hsource := h.mirrors.origin_lt copy hcopy hlt
  dsimp only at horigin
  rw [horigin] at hsource
  exact h.mirrors.children_kept hw hsource

theorem Working.step (h : Working doc n e origin ((source, copy) :: pending)) (hw : doc.Linked) :
    ∃ origin', Working doc n (copyChildren copy (e.children source) e pending).1 origin'
      (copyChildren copy (e.children source) e pending).2 := by
  obtain ⟨⟨hcopy, hlt, -⟩, hpaired⟩ := forall_mem_cons.mp h.paired
  rw [h.children_source hw]
  exact h.mirrors.copyChildren hw hcopy _ hlt h.top hpaired h.nodup

/-- **Nothing is on account when no pair is left.** -/
theorem Working.whole (h : Working doc n e origin pending) (hw : doc.Linked) {rounds : Nat}
    (hd : copyPending rounds pending e = some d) :
    ∃ origin', Working doc n d origin' [] := by
  refine copyPending_induction (motive := fun pending e d => ∀ origin,
    Working doc n e origin pending → ∃ origin', Working doc n d origin' [])
    (fun _ origin h => ⟨origin, h⟩) ?_ hd origin h
  intro source copy rest e d ih origin h
  obtain ⟨origin', h⟩ := h.step hw
  exact ih origin' h

/-! ## The end of the work -/

/-- The pairs of a round come in front, the last child first. -/
theorem copyChildren_snd (p : NodeId) (todo : List NodeId) (e : Document)
    (pending : List (NodeId × NodeId)) :
    ∃ new, (copyChildren p todo e pending).2 = new ++ pending ∧
      new.map Prod.fst = todo.reverse := by
  induction todo generalizing e pending with
  | nil => exact ⟨[], rfl, rfl⟩
  | cons c todo ih =>
    obtain ⟨new, hnew, hfst⟩ := ih ((e.copyWithAttributes c).2.appendChild p
      (e.copyWithAttributes c).1) ((c, (e.copyWithAttributes c).1) :: pending)
    refine ⟨new ++ [(c, (e.copyWithAttributes c).1)], ?_, ?_⟩
    · rw [copyChildren, hnew, append_assoc]
      rfl
    · rw [map_append, hfst, reverse_cons]
      rfl

/-- If the pairs run out, no node that waits has a cycle at or below it. -/
theorem Working.treeBelow (h : Working doc n e origin pending) (hw : doc.Linked) {rounds : Nat}
    (hd : copyPending rounds pending e = some d) : ∀ q ∈ pending, doc.TreeBelow q.1 := by
  refine copyPending_induction (motive := fun pending e _ => ∀ origin,
    Working doc n e origin pending → ∀ q ∈ pending, doc.TreeBelow q.1)
    (fun _ _ _ => forall_mem_nil _) ?_ hd origin h
  intro source copy rest e d ih origin h
  obtain ⟨origin', hstep⟩ := h.step hw
  obtain ⟨new, hnew, hfst⟩ := copyChildren_snd copy (e.children source) e rest
  have hall := ih origin' hstep
  rw [hnew, forall_mem_append] at hall
  refine forall_mem_cons.mpr ⟨.of_children hw fun c hc => ?_, hall.2⟩
  rw [← h.children_source hw, ← mem_reverse, ← hfst] at hc
  obtain ⟨q, hq, rfl⟩ := mem_map.mp hc
  exact hall.1 q hq

/-- A pair whose node has a tree below it is worked off, with all that comes of it, in a round for
each node of the tree. What waits behind it is left to whoever works that off. -/
theorem Working.isSome_of_withinDepth (hw : doc.Linked) {depth rounds : Nat}
    (hdepth : doc.WithinDepth depth source)
    (hrest : ∀ e origin, Working doc n e origin pending → (copyPending rounds pending e).isSome)
    (h : Working doc n e origin ((source, copy) :: pending)) :
    (copyPending ((doc.subtreeTo depth source).length + rounds)
      ((source, copy) :: pending) e).isSome := by
  induction depth generalizing e origin source copy pending rounds with
  | zero => exact hdepth.elim
  | succ depth ih =>
    have hall : ∀ new : List (NodeId × NodeId), (∀ q ∈ new, doc.WithinDepth depth q.1) →
        ∀ e origin, Working doc n e origin (new ++ pending) →
          (copyPending (((new.map Prod.fst).flatMap (doc.subtreeTo depth)).length + rounds)
            (new ++ pending) e).isSome := by
      intro new
      induction new with
      | nil =>
        intro _ e origin h
        rw [map_nil, flatMap_nil, length_nil, Nat.zero_add]
        exact hrest e origin h
      | cons q new ihn =>
        intro hnew e origin h
        obtain ⟨hq, hnew⟩ := forall_mem_cons.mp hnew
        rw [map_cons, flatMap_cons, length_append, Nat.add_assoc]
        exact ih hq (ihn hnew) h
    obtain ⟨origin', hstep⟩ := h.step hw
    obtain ⟨new, hnew, hfst⟩ := copyChildren_snd copy (e.children source) e pending
    rw [h.children_source hw] at hfst
    have hlength : (doc.subtreeTo (depth + 1) source).length =
        ((new.map Prod.fst).flatMap (doc.subtreeTo depth)).length + 1 := by
      rw [hfst, ((reverse_perm _).flatMap_right _).length_eq]
      rfl
    rw [hlength, Nat.add_right_comm, copyPending_cons, hnew]
    refine hall new (fun q hq => hdepth q.1 ?_) _ _ (hnew ▸ hstep)
    rw [← mem_reverse, ← hfst]
    exact mem_map_of_mem hq

/-- **A copy comes to an end exactly if what is copied is a tree.** -/
theorem deepCopy_isSome_iff (hw : doc.Linked) (hn : n < doc.size) :
    (doc.deepCopy n).isSome ↔ doc.TreeBelow n := by
  obtain ⟨origin, h⟩ := hw.working hn
  rw [deepCopy, Option.isSome_map]
  constructor
  · intro hsome
    obtain ⟨d, hd⟩ := Option.isSome_iff_exists.mp hsome
    exact h.treeBelow hw hd _ mem_cons_self
  · intro htree
    have hle : (doc.subtreeTo doc.size n).length ≤ UInt64.size + doc.size :=
      Nat.le_trans (length_subtreeTo_le hw doc.size htree hn) (Nat.le_add_left _ _)
    obtain ⟨rounds, hrounds⟩ := Nat.exists_eq_add_of_le hle
    rw [hrounds]
    refine Working.isSome_of_withinDepth hw (htree.withinDepth hw hn) (fun e _ _ => ?_) h
    rw [copyPending_nil]
    rfl

end Xml.Document
