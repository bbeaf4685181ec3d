import Mathlib.Data.List.Chain
import Mathlib.Data.List.Nodup
import Mathlib.Data.List.Perm.Subperm
import Xml.Document.Walk

/-!
# The link invariant

A document keeps its tree in five link fields of every node and a list of attributes. `Linked` says
that these fields fit together: the sibling links below a node spell one list without repetitions,
forwards and backwards, and that list holds exactly the nodes whose parent link leads to the node.
The same is said of the attribute lists.

`Linked` does not say that the parent links lead upwards to an end. That is `Acyclic`, a statement
of its own: the two are kept by different changes (`Xml.Proofs.Links.Runs`).

* `Chain.children_eq` — the walk over the children is the list the links spell
* `Linked.lt_size_of_leadsTo` — no link leads out of the table
* `isAncestorOrSelf_iff` — the bounded walk over the parents finds every ancestor
-/

namespace Xml.Document

open List

variable {id n a p c : NodeId} {cs l r : List NodeId} {bound : Nat}

/-! ## Views of the links -/

/-- The sibling behind a node. -/
def nextOf (doc : Document) (id : NodeId) : Option NodeId :=
  (doc.get? id).bind (·.nextSibling)

/-- The sibling in front of a node. -/
def prevOf (doc : Document) (id : NodeId) : Option NodeId :=
  (doc.get? id).bind (·.prevSibling)

def firstOf (doc : Document) (id : NodeId) : Option NodeId :=
  (doc.get? id).bind (·.firstChild)

def lastOf (doc : Document) (id : NodeId) : Option NodeId :=
  (doc.get? id).bind (·.lastChild)

/-- A node that can have children. -/
def IsContainer (doc : Document) (id : NodeId) : Prop :=
  doc.kindOf id = some .element ∨ doc.kindOf id = some .document

/-- A node `c` stands among the children of `p`. Attributes have their element as parent without
standing among its children. -/
def IsChild (doc : Document) (p c : NodeId) : Prop :=
  doc.parentOf c = some p ∧ doc.kindOf c ≠ some .attribute

/-- An attribute `a` belongs to `p`. -/
def IsAttributeOf (doc : Document) (p a : NodeId) : Prop :=
  doc.parentOf a = some p ∧ doc.kindOf a = some .attribute

/-! ## Lists spelled by a link -/

/-- Following `f` from each entry of the list leads to the entry behind it, and nowhere from the
last one. -/
def Follows (f : NodeId → Option NodeId) : List NodeId → Prop
  | [] => True
  | c :: rest => f c = rest.head? ∧ Follows f rest

theorem Follows.congr {f g : NodeId → Option NodeId} (h : Follows f cs) (hg : ∀ c ∈ cs, g c = f c) :
    Follows g cs := by
  induction cs with
  | nil => trivial
  | cons c rest ih =>
    refine ⟨?_, ih h.2 fun d hd => hg d (mem_cons_of_mem _ hd)⟩
    rw [hg c mem_cons_self]
    exact h.1

theorem Follows.of_append {f : NodeId → Option NodeId} (h : Follows f (l ++ r)) : Follows f r := by
  induction l with
  | nil => exact h
  | cons a l ih => exact ih h.2

/-- What lies behind an entry in the middle of a spelled list. -/
theorem Follows.at {f : NodeId → Option NodeId} (h : Follows f (l ++ c :: r)) : f c = r.head? :=
  h.of_append.1

/-- Putting `m'` behind `l` in the place of `m` changes the link of the last entry of `l` only. -/
theorem Follows.splice {f g : NodeId → Option NodeId} {m m' : List NodeId}
    (h : Follows f (l ++ m)) (hm : Follows g m') (hnd : l.Nodup)
    (hg : ∀ c ∈ l, g c = if some c = l.getLast? then m'.head? else f c) :
    Follows g (l ++ m') := by
  induction l with
  | nil => exact hm
  | cons a l ih =>
    obtain ⟨ha, hnd⟩ := nodup_cons.mp hnd
    cases l with
    | nil => exact ⟨by simp [hg], hm⟩
    | cons b l =>
      rw [getLast?_cons_cons] at hg
      have hlast : some a ≠ (b :: l).getLast? := fun he => ha (mem_of_getLast? he.symm)
      refine ⟨?_, ih h.2 hnd fun c hc => hg c (mem_cons_of_mem _ hc)⟩
      rw [hg a mem_cons_self, if_neg hlast, h.1]
      rfl

theorem apart_of_nodup (hnd : (l ++ id :: r).Nodup) :
    (∀ c ∈ l, c ≠ id) ∧ ∀ c ∈ r, c ≠ id ∧ some c ≠ l.getLast? := by
  obtain ⟨-, hr, hlr⟩ := nodup_append.mp hnd
  refine ⟨fun c hc => hlr c hc id mem_cons_self, fun c hc => ⟨?_, fun he => ?_⟩⟩
  · exact fun he => (nodup_cons.mp hr).1 (he ▸ hc)
  · exact hlr c (mem_of_getLast? he.symm) c (mem_cons_of_mem _ hc) rfl

/-- Putting `id` between `l` and `r` takes two changes of the link: that of `id` and that of the
entry before it. -/
theorem Follows.insert {f g : NodeId → Option NodeId} (h : Follows f (l ++ r))
    (hnd : (l ++ id :: r).Nodup)
    (hg : ∀ x, g x = if x = id then r.head? else if some x = l.getLast? then some id else f x) :
    Follows g (l ++ id :: r) := by
  obtain ⟨hl, hr⟩ := apart_of_nodup hnd
  refine h.splice ⟨by rw [hg, if_pos rfl], h.of_append.congr fun c hc => ?_⟩ hnd.of_append_left
    fun c hc => ?_
  · rw [hg, if_neg (hr c hc).1, if_neg (hr c hc).2]
  · rw [hg, if_neg (hl c hc), head?_cons]

/-- Taking `id` out takes the same two changes. -/
theorem Follows.erase {f g : NodeId → Option NodeId} (h : Follows f (l ++ id :: r))
    (hnd : (l ++ id :: r).Nodup)
    (hg : ∀ x, g x = if x = id then none else if some x = l.getLast? then r.head? else f x) :
    Follows g (l ++ r) := by
  obtain ⟨hl, hr⟩ := apart_of_nodup hnd
  refine h.splice (h.of_append.2.congr fun c hc => ?_) hnd.of_append_left fun c hc => ?_
  · rw [hg, if_neg (hr c hc).1, if_neg (hr c hc).2]
  · rw [hg, if_neg (hl c hc)]

/-- The bounded walk along a link finds the whole list, if the bound allows for it. -/
theorem Follows.chain_eq {f : NodeId → Option NodeId} (h : Follows f cs) (hb : cs.length ≤ bound) :
    chain f bound cs.head? = cs := by
  induction cs generalizing bound with
  | nil => cases bound <;> rfl
  | cons c rest ih =>
    cases bound with
    | zero => simp at hb
    | succ bound =>
      simp only [head?_cons, chain, h.1]
      rw [ih h.2 (by simpa using hb)]

/-- The walk from an entry in the middle finds what lies behind it. -/
theorem Follows.chain_at {f : NodeId → Option NodeId} (h : Follows f (l ++ c :: r))
    (hb : (l ++ c :: r).length ≤ bound) : chain f bound (f c) = r := by
  rw [length_append, length_cons] at hb
  rw [h.at]
  exact h.of_append.2.chain_eq (by omega)

/-! ## The invariant -/

/-- `cs` are the children of `p` as its links and the sibling links tell them: the first and the
last one, each from the one before it, and each from the one behind it. -/
structure Chain (doc : Document) (p : NodeId) (cs : List NodeId) : Prop where
  first : doc.firstOf p = cs.head?
  last : doc.lastOf p = cs.getLast?
  forward : Follows doc.nextOf cs
  backward : Follows doc.prevOf cs.reverse

theorem Chain.congr {doc d : Document} (h : doc.Chain p cs) (first : d.firstOf p = doc.firstOf p)
    (last : d.lastOf p = doc.lastOf p) (next : ∀ c ∈ cs, d.nextOf c = doc.nextOf c)
    (prev : ∀ c ∈ cs, d.prevOf c = doc.prevOf c) : d.Chain p cs where
  first := first.trans h.first
  last := last.trans h.last
  forward := h.forward.congr next
  backward := h.backward.congr fun c hm => prev c (mem_reverse.mp hm)

/-- The links of a document fit together. -/
structure Linked (doc : Document) : Prop where
  children : ∀ p, ∃ cs, doc.Chain p cs ∧ cs.Nodup ∧ ∀ c, c ∈ cs ↔ doc.IsChild p c
  attributes_nodup : ∀ p, (doc.attributesOf p).Nodup
  mem_attributes : ∀ p a, a ∈ doc.attributesOf p ↔ doc.IsAttributeOf p a
  /-- Only elements own attributes. -/
  owner : ∀ p a, doc.IsAttributeOf p a → doc.kindOf p = some .element
  /-- Only containers have children; in particular a parent is in the table. -/
  container : ∀ p c, doc.parentOf c = some p → doc.IsContainer p
  /-- Without a parent there are no siblings, and attributes have none that way. -/
  alone : ∀ c, doc.parentOf c = none ∨ doc.kindOf c = some .attribute →
    doc.nextOf c = none ∧ doc.prevOf c = none

/-- The node `a` stands above `n`. -/
inductive Ancestor (doc : Document) (a : NodeId) : NodeId → Prop where
  | parent {n : NodeId} (h : doc.parentOf n = some a) : Ancestor doc a n
  | above {n p : NodeId} (h : doc.parentOf n = some p) (rest : Ancestor doc a p) : Ancestor doc a n

/-- No node stands above itself: following the parent links from anywhere comes to an end. -/
def Acyclic (doc : Document) : Prop :=
  ∀ n, ¬ doc.Ancestor n n

variable {doc : Document}

/-! ## Numbers in the table -/

theorem lt_size_of_get? {node : Node} (h : doc.get? id = some node) : id < doc.size := by
  obtain ⟨hlt, -⟩ := Array.getElem?_eq_some_iff.mp h
  exact hlt

theorem exists_get? (h : id < doc.size) : ∃ node, doc.get? id = some node :=
  ⟨_, Array.getElem?_eq_getElem h⟩

theorem get?_eq_none (h : doc.size ≤ id) : doc.get? id = none :=
  Array.getElem?_eq_none h

theorem lt_size_of_parentOf (h : doc.parentOf c = some p) : c < doc.size := by
  obtain ⟨node, hn, -⟩ := Option.bind_eq_some_iff.mp h
  exact lt_size_of_get? hn

theorem lt_size_of_kindOf {kind : NodeKind} (h : doc.kindOf id = some kind) : id < doc.size := by
  obtain ⟨node, hn, -⟩ := Option.map_eq_some_iff.mp h
  exact lt_size_of_get? hn

theorem IsContainer.lt_size (h : doc.IsContainer id) : id < doc.size := by
  rcases h with h | h <;> exact lt_size_of_kindOf h

theorem IsContainer.not_attribute (h : doc.IsContainer id) : doc.kindOf id ≠ some .attribute := by
  rcases h with h | h <;> simp [h]

theorem kindOf_ne_none (h : id < doc.size) : doc.kindOf id ≠ none := by
  obtain ⟨node, hn⟩ := exists_get? h
  simp [kindOf, hn]

/-- A list of different nodes of a document is not longer than its table. -/
theorem length_le_size (hnd : cs.Nodup) (hlt : ∀ c ∈ cs, c < doc.size) : cs.length ≤ doc.size := by
  have hsub : cs ⊆ List.range doc.size := fun c hc => mem_range.mpr (hlt c hc)
  simpa using (subperm_of_subset hnd hsub).length_le

/-! ## Walks -/

/-- The walk over the children is the list that the links spell. -/
theorem Chain.children_eq (h : doc.Chain p cs) (hnd : cs.Nodup) (hlt : ∀ c ∈ cs, c < doc.size) :
    doc.children p = cs := by
  show chain doc.nextOf doc.size (doc.firstOf p) = cs
  rw [h.first]
  exact h.forward.chain_eq (length_le_size hnd hlt)

/-- The walk back from the last child is the same list in reverse. -/
theorem Chain.siblingsBack_eq (h : doc.Chain p cs) (hnd : cs.Nodup) (hlt : ∀ c ∈ cs, c < doc.size) :
    doc.siblingsBack (doc.lastOf p) = cs.reverse := by
  show chain doc.prevOf doc.size (doc.lastOf p) = cs.reverse
  rw [h.last, ← head?_reverse]
  exact h.backward.chain_eq (by simpa using length_le_size hnd hlt)

/-- The children are a chain of different nodes, and they are all that stand below the node. -/
theorem Linked.children_spec (h : doc.Linked) (p : NodeId) :
    doc.Chain p (doc.children p) ∧ (doc.children p).Nodup ∧
      ∀ c, c ∈ doc.children p ↔ doc.IsChild p c := by
  obtain ⟨cs, hc, hnd, hmem⟩ := h.children p
  rw [hc.children_eq hnd fun c hm => lt_size_of_parentOf ((hmem c).mp hm).1]
  exact ⟨hc, hnd, hmem⟩

theorem Linked.chain (h : doc.Linked) (p : NodeId) : doc.Chain p (doc.children p) :=
  (h.children_spec p).1

theorem Linked.children_nodup (h : doc.Linked) (p : NodeId) : (doc.children p).Nodup :=
  (h.children_spec p).2.1

theorem Linked.mem_children (h : doc.Linked) : c ∈ doc.children p ↔ doc.IsChild p c :=
  (h.children_spec p).2.2 c

theorem Linked.lt_size_of_mem (h : doc.Linked) (hc : c ∈ doc.children p) : c < doc.size :=
  lt_size_of_parentOf (h.mem_children.mp hc).1

theorem Linked.length_children_le (h : doc.Linked) (p : NodeId) :
    (doc.children p).length ≤ doc.size :=
  length_le_size (h.children_nodup p) fun _ => h.lt_size_of_mem

theorem Linked.siblingsBack (h : doc.Linked) (p : NodeId) :
    doc.siblingsBack (doc.lastOf p) = (doc.children p).reverse :=
  (h.chain p).siblingsBack_eq (h.children_nodup p) fun _ => h.lt_size_of_mem

/-- Whoever has a sibling stands in a list of children, and so does the sibling. -/
theorem Linked.mem_of_sibling (h : doc.Linked) {x y : NodeId}
    (hy : doc.nextOf x = some y ∨ doc.prevOf x = some y) : ∃ p, y ∈ doc.children p := by
  have hnot : ¬ (doc.parentOf x = none ∨ doc.kindOf x = some .attribute) := by
    intro halone
    obtain ⟨hn, hp⟩ := h.alone x halone
    rw [hn, hp] at hy
    rcases hy with hy | hy <;> cases hy
  obtain ⟨p, hp⟩ := Option.ne_none_iff_exists'.mp fun he => hnot (Or.inl he)
  have hx : x ∈ doc.children p := h.mem_children.mpr ⟨hp, fun he => hnot (Or.inr he)⟩
  obtain ⟨l, r, hlr⟩ := append_of_mem hx
  have hc := h.chain p
  refine ⟨p, ?_⟩
  rcases hy with hy | hy
  · have hf := hc.forward
    rw [hlr] at hf ⊢
    rw [hf.at] at hy
    exact mem_append_right _ (mem_cons_of_mem _ (mem_of_head? hy))
  · have hb := hc.backward
    rw [hlr, reverse_append, reverse_cons, append_assoc, singleton_append] at hb
    rw [hb.at, head?_reverse] at hy
    rw [hlr]
    exact mem_append_left _ (mem_of_getLast? hy)

/-- A link of the node `x` leads to `y`. -/
def LeadsTo (doc : Document) (x y : NodeId) : Prop :=
  doc.parentOf x = some y ∨ doc.firstOf x = some y ∨ doc.lastOf x = some y ∨
    doc.nextOf x = some y ∨ doc.prevOf x = some y ∨ y ∈ doc.attributesOf x

/-- **No link leads out of the table.** -/
theorem Linked.lt_size_of_leadsTo (h : doc.Linked) {x y : NodeId} (hy : doc.LeadsTo x y) :
    y < doc.size := by
  have hchild : ∀ {p}, y ∈ doc.children p → y < doc.size := fun hm =>
    lt_size_of_parentOf (h.mem_children.mp hm).1
  rcases hy with hy | hy | hy | hy | hy | hy
  · exact (h.container y x hy).lt_size
  · rw [(h.chain x).first] at hy
    exact hchild (mem_of_head? hy)
  · rw [(h.chain x).last] at hy
    exact hchild (mem_of_getLast? hy)
  · obtain ⟨p, hp⟩ := h.mem_of_sibling (Or.inl hy)
    exact hchild hp
  · obtain ⟨p, hp⟩ := h.mem_of_sibling (Or.inr hy)
    exact hchild hp
  · exact lt_size_of_parentOf ((h.mem_attributes x y).mp hy).1

theorem Linked.attributesOf_eq_nil (h : doc.Linked) (hp : doc.kindOf p ≠ some .element) :
    doc.attributesOf p = [] := by
  rw [eq_nil_iff_forall_not_mem]
  exact fun a ha => hp (h.owner p a ((h.mem_attributes p a).mp ha))

theorem Linked.children_eq_nil (h : doc.Linked) (hp : ¬ doc.IsContainer p) :
    doc.children p = [] := by
  rw [eq_nil_iff_forall_not_mem]
  exact fun c hc => hp (h.container p c (h.mem_children.mp hc).1)

/-! ## Ancestors -/

theorem Ancestor.trans {b : NodeId} (hab : doc.Ancestor a b) (hbn : doc.Ancestor b n) :
    doc.Ancestor a n := by
  induction hbn with
  | parent h => exact .above h hab
  | above h _ ih => exact .above h ih

theorem Ancestor.exists_parent (h : doc.Ancestor a n) : ∃ p, doc.parentOf n = some p := by
  cases h with
  | parent h => exact ⟨a, h⟩
  | above h _ => exact ⟨_, h⟩

theorem Ancestor.lt_size (h : doc.Ancestor a n) : n < doc.size := by
  obtain ⟨p, hp⟩ := h.exists_parent
  exact lt_size_of_parentOf hp

/-- What the parent of a node is, or is below, stands above the node. -/
theorem ancestor_of_parentOf (hp : doc.parentOf n = some p) (h : p = a ∨ doc.Ancestor a p) :
    doc.Ancestor a n := by
  rcases h with rfl | h
  · exact .parent hp
  · exact .above hp h

/-- A node stands above each of its children and above what is below them. -/
theorem ancestor_of_child (hp : doc.parentOf c = some a) (h : n = c ∨ doc.Ancestor c n) :
    doc.Ancestor a n := by
  rcases h with rfl | h
  · exact .parent hp
  · exact .trans (.parent hp) h

/-- What stands above a node is its parent or stands above that. -/
theorem Ancestor.of_parent (h : doc.Ancestor a n) (hp : doc.parentOf n = some p) :
    a = p ∨ doc.Ancestor a p := by
  cases h with
  | parent h => exact .inl (Option.some.inj (h.symm.trans hp))
  | above h rest => exact .inr (Option.some.inj (h.symm.trans hp) ▸ rest)

theorem Ancestor.exists_child (h : doc.Ancestor a n) :
    ∃ c, doc.parentOf c = some a ∧ (c = n ∨ doc.Ancestor c n) := by
  induction h with
  | parent h => exact ⟨_, h, Or.inl rfl⟩
  | above h _ ih =>
    obtain ⟨c, hc, hcp⟩ := ih
    exact ⟨c, hc, Or.inr (ancestor_of_parentOf h (hcp.imp_left Eq.symm))⟩

theorem Ancestor.container (h : doc.Ancestor a n) (hw : doc.Linked) : doc.IsContainer a := by
  obtain ⟨c, hc, -⟩ := h.exists_child
  exact hw.container a c hc

/-- With no parent link more, there are no more ancestors. -/
theorem Ancestor.mono {doc' : Document} (h : doc'.Ancestor a n)
    (hp : ∀ x p, doc'.parentOf x = some p → doc.parentOf x = some p) : doc.Ancestor a n := by
  induction h with
  | parent h => exact .parent (hp _ _ h)
  | above h _ ih => exact .above (hp _ _ h) ih

theorem Acyclic.mono {doc' : Document} (h : doc.Acyclic)
    (hp : ∀ x p, doc'.parentOf x = some p → doc.parentOf x = some p) : doc'.Acyclic :=
  fun n hn => h n (hn.mono hp)

/-! ## The walk over the parents -/

/-- The walk meets only the node it starts from and what stands above it. -/
theorem ancestor_of_mem_chain (h : a ∈ Document.chain doc.parentOf bound (some n)) :
    a = n ∨ doc.Ancestor a n := by
  induction bound generalizing n with
  | zero => simp [Document.chain] at h
  | succ bound ih =>
    simp only [Document.chain, mem_cons] at h
    rcases h with rfl | h
    · exact Or.inl rfl
    · cases hp : doc.parentOf n with
      | none => rw [hp] at h; cases bound <;> simp [Document.chain] at h
      | some p =>
        rw [hp] at h
        exact Or.inr (ancestor_of_parentOf hp ((ih h).imp_left Eq.symm))

/-- Each entry of the list is the parent of the one before it. -/
def Climbs (doc : Document) (path : List NodeId) : Prop :=
  path.IsChain fun c p => doc.parentOf c = some p

/-- The walk meets every entry of a way up that its bound allows for. -/
theorem Climbs.mem_chain {path : List NodeId} (h : doc.Climbs (n :: path))
    (hb : path.length < bound) (ha : a ∈ n :: path) :
    a ∈ Document.chain doc.parentOf bound (some n) := by
  induction path generalizing n bound with
  | nil =>
    cases bound with
    | zero => simp at hb
    | succ bound =>
      rw [mem_singleton.mp ha]
      exact mem_cons_self
  | cons p path ih =>
    cases bound with
    | zero => simp at hb
    | succ bound =>
      obtain ⟨hp, hrest⟩ := isChain_cons_cons.mp h
      simp only [Document.chain, mem_cons]
      rcases mem_cons.mp ha with rfl | ha
      · exact Or.inl rfl
      · rw [hp]
        exact Or.inr (ih hrest (by simpa using hb) ha)

/-- There is a way up to every ancestor that meets no node twice. A way that comes back to its
first node is cut there. -/
theorem Ancestor.exists_path (h : doc.Ancestor a n) :
    ∃ path, doc.Climbs (n :: path) ∧ (n :: path).Nodup ∧ (n :: path).getLast? = some a := by
  have extend : ∀ {n p : NodeId} {path : List NodeId}, doc.parentOf n = some p →
      doc.Climbs (p :: path) → (p :: path).Nodup → (p :: path).getLast? = some a →
      ∃ path, doc.Climbs (n :: path) ∧ (n :: path).Nodup ∧ (n :: path).getLast? = some a := by
    intro n p path hp hc hnd ha
    by_cases hn : n ∈ p :: path
    · obtain ⟨l, r, hlr⟩ := append_of_mem hn
      rw [hlr] at hc hnd ha
      refine ⟨r, ?_, hnd.of_append_right, ?_⟩
      · exact hc.right_of_append
      · rwa [getLast?_append_cons] at ha
    · refine ⟨p :: path, isChain_cons_cons.mpr ⟨hp, hc⟩, nodup_cons.mpr ⟨hn, hnd⟩, ?_⟩
      rw [getLast?_cons_cons]
      exact ha
  induction h with
  | parent hp => exact extend hp (.singleton _) (nodup_singleton _) rfl
  | above hp _ ih =>
    obtain ⟨path, hc, hnd, ha⟩ := ih
    exact extend hp hc hnd ha

theorem Climbs.lt_size (h : doc.Linked) {path : List NodeId} (hc : doc.Climbs (n :: path))
    (hn : n < doc.size) : ∀ x ∈ n :: path, x < doc.size := by
  induction path generalizing n with
  | nil =>
    intro x hx
    rw [mem_singleton.mp hx]
    exact hn
  | cons p path ih =>
    obtain ⟨hp, hrest⟩ := isChain_cons_cons.mp hc
    intro x hx
    rcases mem_cons.mp hx with rfl | hx
    · exact hn
    · exact ih hrest (h.container p n hp).lt_size x hx

/-- **The bounded walk over the parents decides what stands above a node**, in documents with
cycles too: a way up that meets no node twice fits into the bound. -/
theorem isAncestorOrSelf_iff (h : doc.Linked) (hn : n < doc.size) :
    doc.isAncestorOrSelf a n = true ↔ a = n ∨ doc.Ancestor a n := by
  rw [isAncestorOrSelf, contains_iff_mem, lineage]
  constructor
  · exact ancestor_of_mem_chain
  · intro ha
    obtain ⟨path, hc, hnd, hmem⟩ :
        ∃ path, doc.Climbs (n :: path) ∧ (n :: path).Nodup ∧ a ∈ n :: path := by
      rcases ha with rfl | ha
      · exact ⟨[], .singleton _, nodup_singleton _, mem_cons_self⟩
      · obtain ⟨path, hc, hnd, hl⟩ := ha.exists_path
        exact ⟨path, hc, hnd, mem_of_getLast? hl⟩
    have hlen := length_le_size hnd (hc.lt_size h hn)
    exact hc.mem_chain hlen hmem

end Xml.Document
