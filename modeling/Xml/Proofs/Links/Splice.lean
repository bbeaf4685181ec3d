import Xml.Document.Link
import Xml.Proofs.Links.Basic

/-!
# Splicing nodes in and out

The primitive changes write links of one node at a time. `Shows` says which links a document has
once some of them are written, each as a function of the node, and `Shows.write` follows one write.

Two shapes come out of the primitives. `Inserted` says that a node was put between two stretches of
the children of another, `Removed` that it was taken out from between them.

* `appendChild_inserted`, `insertBefore_inserted`, `insertAfter_inserted` — the ways in
* `detach_removed` — the way out
* `Inserted.linked`, `Removed.linked` — both keep the links in order
-/

namespace Xml.Document

open List

variable {id p : NodeId} {l r cs : List NodeId}

variable {doc d : Document} {P F L N R : NodeId → Option NodeId}

/-! ## Links after some writes -/

/-- The links one change of an entry sets; the others stay. -/
structure Write where
  parent : Option (Option NodeId) := none
  first : Option (Option NodeId) := none
  last : Option (Option NodeId) := none
  next : Option (Option NodeId) := none
  prev : Option (Option NodeId) := none

/-- An entry with some of its links set. -/
def Write.apply (w : Write) (n : Node) : Node :=
  { n with
    parent := w.parent.getD n.parent
    firstChild := w.first.getD n.firstChild
    lastChild := w.last.getD n.lastChild
    nextSibling := w.next.getD n.nextSibling
    prevSibling := w.prev.getD n.prevSibling }

/-- The document `d` has the nodes of `doc`, with the links `P` to parents, `F` and `L` to first
and last children, `N` and `R` to the siblings behind and in front. -/
structure Shows (doc d : Document) (P F L N R : NodeId → Option NodeId) : Prop where
  size : d.size = doc.size
  kind : ∀ x, d.kindOf x = doc.kindOf x
  attributes : ∀ x, d.attributesOf x = doc.attributesOf x
  parent : ∀ x, d.parentOf x = P x
  first : ∀ x, d.firstOf x = F x
  last : ∀ x, d.lastOf x = L x
  next : ∀ x, d.nextOf x = N x
  prev : ∀ x, d.prevOf x = R x

/-- What a change of one entry does to a view of the nodes that it leaves alone. -/
theorem map_get?_update_keep {β : Type} (π : Node → β) (f : Node → Node)
    (h : ∀ n, π (f n) = π n) (id x : NodeId) :
    ((doc.update id f).get? x).map π = (doc.get? x).map π := by
  rw [get?_update]
  split
  · rw [Option.map_map]
    exact congrArg (Option.map · _) (funext h)
  · rfl

/-- What a change of one entry does to a link that it sets, if `v` is anything. -/
theorem bind_get?_update (π : Node → Option NodeId) (f : Node → Node) (v : Option (Option NodeId))
    (h : ∀ n, π (f n) = v.getD (π n)) (hid : id < doc.size) (x : NodeId) :
    ((doc.update id f).get? x).bind π =
      if x = id then v.getD ((doc.get? x).bind π) else (doc.get? x).bind π := by
  rw [get?_update]
  by_cases hx : x = id
  · obtain ⟨node, hn⟩ := exists_get? hid
    simp [hx, hn, h]
  · rw [if_neg hx, if_neg (Ne.symm hx)]

namespace Shows

theorem refl (doc : Document) :
    Shows doc doc doc.parentOf doc.firstOf doc.lastOf doc.nextOf doc.prevOf :=
  ⟨rfl, fun _ => rfl, fun _ => rfl, fun _ => rfl, fun _ => rfl, fun _ => rfl, fun _ => rfl,
    fun _ => rfl⟩

theorem touch (h : Shows doc d P F L N R) : Shows doc d.touch P F L N R :=
  ⟨h.size, h.kind, h.attributes, h.parent, h.first, h.last, h.next, h.prev⟩

/-- The same links told in another way. -/
theorem congr {P' F' L' N' R' : NodeId → Option NodeId} (h : Shows doc d P F L N R)
    (hp : ∀ x, P x = P' x) (hf : ∀ x, F x = F' x) (hl : ∀ x, L x = L' x) (hn : ∀ x, N x = N' x)
    (hr : ∀ x, R x = R' x) : Shows doc d P' F' L' N' R' :=
  ⟨h.size, h.kind, h.attributes, fun x => (h.parent x).trans (hp x),
    fun x => (h.first x).trans (hf x), fun x => (h.last x).trans (hl x),
    fun x => (h.next x).trans (hn x), fun x => (h.prev x).trans (hr x)⟩

/-- **What one write does to the links.** -/
theorem write (h : Shows doc d P F L N R) (hid : id < doc.size) (w : Write) :
    Shows doc (d.update id w.apply) (fun x => if x = id then w.parent.getD (P x) else P x)
      (fun x => if x = id then w.first.getD (F x) else F x)
      (fun x => if x = id then w.last.getD (L x) else L x)
      (fun x => if x = id then w.next.getD (N x) else N x)
      (fun x => if x = id then w.prev.getD (R x) else R x) := by
  have hid' : id < d.size := h.size ▸ hid
  refine ⟨by rw [size_update, h.size], fun x => ?_, fun x => ?_, fun x => ?_, fun x => ?_,
    fun x => ?_, fun x => ?_, fun x => ?_⟩
  · rw [← h.kind x]
    exact map_get?_update_keep (·.kind) w.apply (fun _ => rfl) id x
  · rw [← h.attributes x]
    exact congrArg (Option.getD · [])
      (map_get?_update_keep (·.attributes) w.apply (fun _ => rfl) id x)
  · rw [← h.parent x]
    exact bind_get?_update (·.parent) w.apply w.parent (fun _ => rfl) hid' x
  · rw [← h.first x]
    exact bind_get?_update (·.firstChild) w.apply w.first (fun _ => rfl) hid' x
  · rw [← h.last x]
    exact bind_get?_update (·.lastChild) w.apply w.last (fun _ => rfl) hid' x
  · rw [← h.next x]
    exact bind_get?_update (·.nextSibling) w.apply w.next (fun _ => rfl) hid' x
  · rw [← h.prev x]
    exact bind_get?_update (·.prevSibling) w.apply w.prev (fun _ => rfl) hid' x

end Shows

/-! ## Insertion and removal -/

/-- The node `id` was put among the children of `p`, between `l` and `r`. -/
def Inserted (doc d : Document) (p id : NodeId) (l r : List NodeId) : Prop :=
  Shows doc d (fun x => if x = id then some p else doc.parentOf x)
    (fun x => if x = p then (l ++ id :: r).head? else doc.firstOf x)
    (fun x => if x = p then (l ++ id :: r).getLast? else doc.lastOf x)
    (fun x => if x = id then r.head? else if some x = l.getLast? then some id else doc.nextOf x)
    (fun x => if x = id then l.getLast? else if some x = r.head? then some id else doc.prevOf x)

/-- The node `id` was taken out from among the children of `p`, from between `l` and `r`. -/
def Removed (doc d : Document) (p id : NodeId) (l r : List NodeId) : Prop :=
  Shows doc d (fun x => if x = id then none else doc.parentOf x)
    (fun x => if x = p then (l ++ r).head? else doc.firstOf x)
    (fun x => if x = p then (l ++ r).getLast? else doc.lastOf x)
    (fun x => if x = id then none else if some x = l.getLast? then r.head? else doc.nextOf x)
    (fun x => if x = id then none else if some x = r.head? then l.getLast? else doc.prevOf x)

/-- A link of `p` told once more leaves the links what they are. -/
theorem eq_ite_of_eq {f : NodeId → Option NodeId} {v : Option NodeId} (h : f p = v) (x : NodeId) :
    f x = if x = p then v else f x := by
  split
  · next hx => rw [hx, h]
  · rfl

theorem appendChild_inserted (hp : p < doc.size) (hid : id < doc.size) (hc : doc.Chain p cs)
    (hlt : ∀ c ∈ cs, c < doc.size) (hmem : id ∉ cs) :
    Inserted doc (doc.appendChild p id) p id cs [] := by
  have hown := (Shows.refl doc).write hid
    { parent := some (some p), prev := some cs.getLast?, next := some none }
  have hlast : (doc.get? p).bind (·.lastChild) = cs.getLast? := hc.last
  cases hl : cs.getLast? with
  | none =>
    have hnil : cs = [] := getLast?_eq_none_iff.mp hl
    subst hnil
    have hall := ((hown.write hp { first := some (some id) }).write hp
      { last := some (some id) }).touch
    rw [appendChild]
    simp only [hlast, getLast?_nil]
    apply hall.congr <;> intro x <;> simp
  | some q =>
    have hq : q ∈ cs := mem_of_getLast? hl
    have hqid : q ≠ id := fun he => hmem (he ▸ hq)
    have hne : cs ≠ [] := ne_nil_of_mem hq
    have hall := ((hown.write (hlt q hq) { next := some (some id) }).write hp
      { last := some (some id) }).touch
    rw [appendChild]
    simp only [hlast]
    rw [hl] at hall ⊢
    apply hall.congr <;> intro x
    · simp
    · simpa [head?_append_of_ne_nil _ hne] using eq_ite_of_eq hc.first x
    · simp
    · by_cases hx : x = q <;> simp [hx, hl, hqid]
    · simp [hl]

theorem insertBefore_inserted {ref : NodeId} (hp : p < doc.size) (hid : id < doc.size)
    (hpar : doc.parentOf ref = some p) (hc : doc.Chain p (l ++ ref :: r))
    (hlt : ∀ c ∈ l ++ ref :: r, c < doc.size) (hmem : id ∉ l ++ ref :: r) :
    Inserted doc (doc.insertBefore ref id) p id l (ref :: r) := by
  have hrid : ref ≠ id := fun he => hmem (by simp [he])
  have href : ref < doc.size := hlt ref (by simp)
  have hprev : (doc.get? ref).bind (·.prevSibling) = l.getLast? := by
    have hb := hc.backward
    rw [reverse_append, reverse_cons, append_assoc] at hb
    rw [← head?_reverse]
    exact hb.at
  have hown := ((Shows.refl doc).write hid
    { parent := some (some p), prev := some l.getLast?, next := some (some ref) }).write href
    { prev := some (some id) }
  rw [insertBefore]
  simp only [hpar, hprev]
  cases hl : l.getLast? with
  | none =>
    have hnil : l = [] := getLast?_eq_none_iff.mp hl
    subst hnil
    have hall := (hown.write hp { first := some (some id) }).touch
    apply hall.congr <;> intro x
    · simp
    · simp
    · simpa using eq_ite_of_eq hc.last x
    · simp
    · by_cases hx : x = ref <;> simp [hx, hrid]
  | some q =>
    have hq : q ∈ l := mem_of_getLast? hl
    have hqid : q ≠ id := fun he => hmem (by simp [← he, hq])
    have hne : l ≠ [] := ne_nil_of_mem hq
    have hall := (hown.write (hlt q (by simp [hq])) { next := some (some id) }).touch
    rw [hl] at hall
    apply hall.congr <;> intro x
    · simp
    · simpa [head?_append_of_ne_nil _ hne] using eq_ite_of_eq hc.first x
    · simpa using eq_ite_of_eq hc.last x
    · by_cases hx : x = q <;> simp [hx, hl, hqid]
    · by_cases hx : x = ref <;> simp [hx, hrid, hl]

theorem insertAfter_inserted {ref : NodeId} (hp : p < doc.size) (hid : id < doc.size)
    (hpar : doc.parentOf ref = some p) (hc : doc.Chain p (l ++ ref :: r))
    (hlt : ∀ c ∈ l ++ ref :: r, c < doc.size) (hmem : id ∉ l ++ ref :: r) :
    Inserted doc (doc.insertAfter ref id) p id (l ++ [ref]) r := by
  have hrid : ref ≠ id := fun he => hmem (by simp [he])
  have href : ref < doc.size := hlt ref (by simp)
  have hnext : (doc.get? ref).bind (·.nextSibling) = r.head? := hc.forward.at
  have hown := ((Shows.refl doc).write hid
    { parent := some (some p), prev := some (some ref), next := some r.head? }).write href
    { next := some (some id) }
  rw [insertAfter]
  simp only [hpar, hnext]
  cases r with
  | nil =>
    have hall := (hown.write hp { last := some (some id) }).touch
    apply hall.congr <;> intro x
    · simp
    · simpa using eq_ite_of_eq hc.first x
    · simp
    · by_cases hx : x = ref <;> simp [hx, hrid]
    · simp
  | cons q r =>
    have hqid : q ≠ id := fun he => hmem (by simp [← he])
    have hall := (hown.write (hlt q (by simp)) { prev := some (some id) }).touch
    apply hall.congr <;> intro x
    · simp
    · simpa using eq_ite_of_eq hc.first x
    · simpa using eq_ite_of_eq hc.last x
    · by_cases hx : x = ref <;> simp [hx, hrid]
    · by_cases hx : x = q <;> simp [hx, hqid]

/-- Closing the gap behind a child and writing its own links take it out. -/
theorem detach_removed (hp : p < doc.size) (hid : id < doc.size) (hpar : doc.parentOf id = some p)
    (hkind : doc.kindOf id ≠ some .attribute) (hc : doc.Chain p (l ++ id :: r))
    (hlt : ∀ c ∈ l ++ id :: r, c < doc.size) (hnd : (l ++ id :: r).Nodup) :
    Removed doc (doc.detach id) p id l r := by
  obtain ⟨node, hn⟩ := exists_get? hid
  have hnp : node.parent = some p := by simpa [parentOf, hn] using hpar
  have hnk : (node.kind == .attribute) = false := by
    simpa [kindOf, hn] using hkind
  have hnext : node.nextSibling = r.head? := by
    simpa [nextOf, hn] using hc.forward.at
  have hprev : node.prevSibling = l.getLast? := by
    have hb := hc.backward
    rw [reverse_append, reverse_cons, append_assoc] at hb
    simpa [prevOf, hn] using hb.at
  have hidl : id ∉ l := fun hm => (disjoint_of_nodup_append hnd) hm (by simp)
  have hidr : id ∉ r := (nodup_cons.mp hnd.of_append_right).1
  have hfirst : l = [] ∨ ∃ q, l.getLast? = some q ∧ q ∈ l ∧ l ≠ [] := by
    cases hl : l.getLast? with
    | none => exact Or.inl (getLast?_eq_none_iff.mp hl)
    | some q =>
      have hq := mem_of_getLast? hl
      exact Or.inr ⟨q, rfl, hq, ne_nil_of_mem hq⟩
  rw [detach]
  simp only [hn, hnp, hnk, closeGap, hnext, hprev, Bool.false_eq_true, if_false]
  have hout {e : Document} {P F L N R : NodeId → Option NodeId} (h : Shows doc e P F L N R) :=
    (h.write hid { parent := some none, prev := some none, next := some none }).touch
  -- the gap is closed in four ways, by whether there is a child before it and one behind it
  rcases hfirst with rfl | ⟨q, hl, hq, hne⟩
  · cases r with
    | nil =>
      have hall := hout (((Shows.refl doc).write hp { first := some none }).write hp
        { last := some none })
      apply hall.congr <;> intro x <;> simp
    | cons s r =>
      have hall := hout (((Shows.refl doc).write hp { first := some (some s) }).write
        (hlt s (by simp)) { prev := some none })
      apply hall.congr <;> intro x
      · simp
      · simp
      · simpa using eq_ite_of_eq hc.last x
      · simp
      · simp
  · have hqid : q ≠ id := fun he => hidl (he ▸ hq)
    cases r with
    | nil =>
      have hall := hout (((Shows.refl doc).write (hlt q (by simp [hq]))
        { next := some none }).write hp { last := some (some q) })
      simp only [hl]
      apply hall.congr <;> intro x
      · simp
      · simpa [head?_append_of_ne_nil _ hne] using eq_ite_of_eq hc.first x
      · simp [hl]
      · simp [hl]
      · simp
    | cons s r =>
      have hall := hout (((Shows.refl doc).write (hlt q (by simp [hq]))
        { next := some (some s) }).write (hlt s (by simp)) { prev := some (some q) })
      simp only [hl]
      apply hall.congr <;> intro x
      · simp
      · simpa [head?_append_of_ne_nil _ hne] using eq_ite_of_eq hc.first x
      · simpa using eq_ite_of_eq hc.last x
      · simp [hl]
      · simp [hl]

/-! ## Both keep the links in order -/

/-- The children of another node, none of which was touched. -/
theorem Shows.children_of_untouched (h : Shows doc d P F L N R) (hw : doc.Linked) {q : NodeId}
    (hf : F q = doc.firstOf q) (hl : L q = doc.lastOf q)
    (hsame : ∀ c ∈ doc.children q, d.nextOf c = doc.nextOf c ∧ d.prevOf c = doc.prevOf c) :
    d.children q = doc.children q := by
  have hchain : d.Chain q (doc.children q) :=
    (hw.chain q).congr ((h.first q).trans hf) ((h.last q).trans hl) (fun c hm => (hsame c hm).1)
      fun c hm => (hsame c hm).2
  refine hchain.children_eq (hw.children_nodup q) fun c hm => ?_
  rw [h.size]
  exact hw.lt_size_of_mem hm

/-- A change that concerns a node `id` and the children of `p` only. It is enough to look at
these. -/
theorem Shows.linked (h : Shows doc d P F L N R) (hw : doc.Linked)
    (hkind : doc.kindOf id ≠ some .attribute)
    (hold : doc.parentOf id = none ∨ doc.parentOf id = some p)
    (hnew : (P id = none ∧ N id = none ∧ R id = none) ∨ (P id = some p ∧ doc.IsContainer p))
    (hparent : ∀ x, x ≠ id → P x = doc.parentOf x) (hfirst : ∀ q, q ≠ p → F q = doc.firstOf q)
    (hlast : ∀ q, q ≠ p → L q = doc.lastOf q)
    (hsib : ∀ c, c ≠ id → ¬ doc.IsChild p c → N c = doc.nextOf c ∧ R c = doc.prevOf c)
    (hc : d.Chain p cs) (hnd : cs.Nodup) (hmem : ∀ c, c ∈ cs ↔ d.IsChild p c) : d.Linked := by
  have hattr : ∀ q a, d.IsAttributeOf q a ↔ doc.IsAttributeOf q a := by
    intro q a
    rw [IsAttributeOf, IsAttributeOf, h.parent, h.kind]
    by_cases hx : a = id
    · simp [hx, hkind]
    · rw [hparent a hx]
  have hchild : ∀ q c, q ≠ p → (d.IsChild q c ↔ doc.IsChild q c) := by
    intro q c hq
    rw [IsChild, IsChild, h.parent, h.kind]
    by_cases hx : c = id
    · subst hx
      have h1 : P c ≠ some q := by
        rcases hnew with ⟨hn, -⟩ | ⟨hn, -⟩ <;> simp [hn, Ne.symm hq]
      have h2 : doc.parentOf c ≠ some q := by
        rcases hold with ho | ho <;> simp [ho, Ne.symm hq]
      simp [h1, h2]
    · rw [hparent c hx]
  refine ⟨fun q => ?_, fun q => ?_, fun q a => ?_, fun q a ha => ?_, fun q c hq => ?_,
    fun c hcond => ?_⟩
  · by_cases hq : q = p
    · exact hq ▸ ⟨cs, hc, hnd, hmem⟩
    · -- no child of another parent was written to
      have hout : ∀ c ∈ doc.children q, c ≠ id ∧ ¬ doc.IsChild p c := by
        intro c hm
        have hcq := (hw.mem_children.mp hm).1
        refine ⟨?_, fun hcp => hq (Option.some.inj (hcq.symm.trans hcp.1))⟩
        rintro rfl
        rcases hold with ho | ho
        · rw [ho] at hcq; cases hcq
        · exact hq (Option.some.inj (hcq.symm.trans ho))
      refine ⟨doc.children q, ?_, hw.children_nodup q, fun c => ?_⟩
      · have hsib' (c : NodeId) (hm : c ∈ doc.children q) := hsib c (hout c hm).1 (hout c hm).2
        exact (hw.chain q).congr ((h.first q).trans (hfirst q hq)) ((h.last q).trans (hlast q hq))
          (fun c hm => (h.next c).trans (hsib' c hm).1) fun c hm => (h.prev c).trans (hsib' c hm).2
      · rw [hw.mem_children, hchild q c hq]
  · rw [h.attributes]
    exact hw.attributes_nodup q
  · rw [h.attributes, hattr]
    exact hw.mem_attributes q a
  · rw [h.kind]
    exact hw.owner q a ((hattr q a).mp ha)
  · rw [IsContainer, h.kind]
    rw [h.parent] at hq
    by_cases hx : c = id
    · subst hx
      rcases hnew with ⟨hn, -⟩ | ⟨hn, hcont⟩
      · rw [hn] at hq; cases hq
      · exact Option.some.inj (hn.symm.trans hq) ▸ hcont
    · exact hw.container q c (hparent c hx ▸ hq)
  · rw [h.parent, h.kind] at hcond
    rw [h.next, h.prev]
    by_cases hx : c = id
    · subst hx
      rcases hnew with ⟨-, hn⟩ | ⟨hn, -⟩
      · exact hn
      · rcases hcond with hcond | hcond
        · rw [hn] at hcond; cases hcond
        · exact absurd hcond hkind
    · rw [hparent c hx] at hcond
      have hout : ¬ doc.IsChild p c := by
        rintro ⟨h1, h2⟩
        rcases hcond with hcond | hcond
        · rw [h1] at hcond; cases hcond
        · exact h2 hcond
      rw [(hsib c hx hout).1, (hsib c hx hout).2]
      exact hw.alone c hcond

theorem Inserted.chain (h : Inserted doc d p id l r) (hc : doc.Chain p (l ++ r))
    (hnd : (l ++ id :: r).Nodup) : d.Chain p (l ++ id :: r) := by
  refine ⟨?_, ?_, ?_, ?_⟩
  · rw [h.first, if_pos rfl]
  · rw [h.last, if_pos rfl]
  · exact hc.forward.insert hnd h.next
  · have hb := hc.backward
    rw [reverse_append] at hb
    rw [reverse_append, reverse_cons, append_assoc]
    refine hb.insert ?_ fun x => ?_
    · simpa using nodup_reverse.mpr hnd
    · rw [h.prev]
      simp

/-- The links between children of other nodes stay as they were. -/
theorem Inserted.siblings {c : NodeId} (h : Inserted doc d p id l r) (hne : c ≠ id)
    (hmem : c ∉ l ++ r) : d.nextOf c = doc.nextOf c ∧ d.prevOf c = doc.prevOf c := by
  have hlast : some c ≠ l.getLast? := fun he =>
    hmem (mem_append_left _ (mem_of_getLast? he.symm))
  have hhead : some c ≠ r.head? := fun he =>
    hmem (mem_append_right _ (mem_of_head? he.symm))
  rw [h.next, h.prev, if_neg hne, if_neg hlast, if_neg hne, if_neg hhead]
  exact ⟨rfl, rfl⟩

theorem nodup_insert (hw : doc.Linked) (hloose : doc.parentOf id = none)
    (hc : doc.children p = l ++ r) : (l ++ id :: r).Nodup := by
  have hfresh : id ∉ l ++ r := fun hm => by
    rw [(hw.mem_children.mp (hc ▸ hm)).1] at hloose
    cases hloose
  rw [nodup_middle]
  exact nodup_cons.mpr ⟨hfresh, hc ▸ hw.children_nodup p⟩

/-- **A detached node put among the children of a container leaves the links in order.** -/
theorem Inserted.linked (h : Inserted doc d p id l r) (hw : doc.Linked) (hp : doc.IsContainer p)
    (hloose : doc.parentOf id = none) (hkind : doc.kindOf id ≠ some .attribute)
    (hc : doc.children p = l ++ r) : d.Linked := by
  have hmem : ∀ c, c ∈ l ++ r ↔ doc.IsChild p c := fun c => hc ▸ hw.mem_children
  have hnd := nodup_insert hw hloose hc
  refine Shows.linked h hw hkind (Or.inl hloose) (Or.inr ⟨if_pos rfl, hp⟩) (fun x hx => if_neg hx)
    (fun q hq => if_neg hq) (fun q hq => if_neg hq) (fun c hx hout => ?_)
    (h.chain (hc ▸ hw.chain p) hnd) hnd fun c => ?_
  · rw [← h.next, ← h.prev]
    exact h.siblings hx fun hm => hout ((hmem c).mp hm)
  · have hor : c ∈ l ++ id :: r ↔ c = id ∨ c ∈ l ++ r := by simp [or_left_comm]
    rw [hor, hmem c, IsChild, IsChild, h.parent, h.kind]
    by_cases hx : c = id
    · simp [hx, hkind]
    · simp [hx]

/-- **What the children are after a detached node was put among them.** -/
theorem Inserted.children_eq (h : Inserted doc d p id l r) (hw : doc.Linked) (hid : id < doc.size)
    (hloose : doc.parentOf id = none) (hc : doc.children p = l ++ r) (q : NodeId) :
    d.children q = if q = p then l ++ id :: r else doc.children q := by
  have hnd := nodup_insert hw hloose hc
  split
  · next hq =>
    subst hq
    refine (h.chain (hc ▸ hw.chain q) hnd).children_eq hnd fun c hm => ?_
    rw [mem_append, mem_cons, or_left_comm, ← mem_append, ← hc] at hm
    rw [h.size]
    exact hm.elim (fun he => he ▸ hid) fun hm => hw.lt_size_of_mem hm
  · next hq =>
    refine Shows.children_of_untouched h hw (if_neg hq) (if_neg hq) fun c hm => ?_
    have hparent := (hw.mem_children.mp hm).1
    refine h.siblings (fun he => ?_) fun hm' => ?_
    · rw [← he, hparent] at hloose
      cases hloose
    · rw [(hw.mem_children.mp (hc ▸ hm')).1] at hparent
      exact hq (Option.some.inj hparent).symm

theorem Removed.chain (h : Removed doc d p id l r) (hc : doc.Chain p (l ++ id :: r))
    (hnd : (l ++ id :: r).Nodup) : d.Chain p (l ++ r) := by
  refine ⟨?_, ?_, ?_, ?_⟩
  · rw [h.first, if_pos rfl]
  · rw [h.last, if_pos rfl]
  · exact hc.forward.erase hnd h.next
  · have hb := hc.backward
    rw [reverse_append, reverse_cons, append_assoc] at hb
    rw [reverse_append]
    refine hb.erase ?_ fun x => ?_
    · simpa using nodup_reverse.mpr hnd
    · rw [h.prev]
      simp

theorem Removed.siblings {c : NodeId} (h : Removed doc d p id l r) (hmem : c ∉ l ++ id :: r) :
    d.nextOf c = doc.nextOf c ∧ d.prevOf c = doc.prevOf c := by
  have hne : c ≠ id := fun he => hmem (mem_append_right _ (he ▸ mem_cons_self))
  have hlast : some c ≠ l.getLast? := fun he =>
    hmem (mem_append_left _ (mem_of_getLast? he.symm))
  have hhead : some c ≠ r.head? := fun he =>
    hmem (mem_append_right _ (mem_cons_of_mem _ (mem_of_head? he.symm)))
  rw [h.next, h.prev, if_neg hne, if_neg hlast, if_neg hne, if_neg hhead]
  exact ⟨rfl, rfl⟩

/-- **A child taken out leaves the links in order.** -/
theorem Removed.linked (h : Removed doc d p id l r) (hw : doc.Linked) (hchild : doc.IsChild p id)
    (hc : doc.children p = l ++ id :: r) : d.Linked := by
  have hmem : ∀ c, c ∈ l ++ id :: r ↔ doc.IsChild p c := fun c => hc ▸ hw.mem_children
  have hnd : (l ++ id :: r).Nodup := hc ▸ hw.children_nodup p
  obtain ⟨hid, hnd'⟩ : id ∉ l ++ r ∧ (l ++ r).Nodup := by
    rw [nodup_middle] at hnd
    exact nodup_cons.mp hnd
  refine Shows.linked h hw hchild.2 (Or.inr hchild.1) (Or.inl ⟨if_pos rfl, if_pos rfl, if_pos rfl⟩)
    (fun x hx => if_neg hx) (fun q hq => if_neg hq) (fun q hq => if_neg hq) (fun c hx hout => ?_)
    (h.chain (hc ▸ hw.chain p) hnd) hnd' fun c => ?_
  · rw [← h.next, ← h.prev]
    exact h.siblings fun hm => hout ((hmem c).mp hm)
  · have hor : c ∈ l ++ id :: r ↔ c = id ∨ c ∈ l ++ r := by simp [or_left_comm]
    rw [IsChild, h.parent, h.kind]
    by_cases hx : c = id
    · simpa [hx] using hid
    · rw [if_neg hx]
      have := hmem c
      rw [hor] at this
      simpa [hx, IsChild] using this

/-- **What the children are after one of them was taken out.** -/
theorem Removed.children_eq (h : Removed doc d p id l r) (hw : doc.Linked)
    (hc : doc.children p = l ++ id :: r) (q : NodeId) :
    d.children q = if q = p then l ++ r else doc.children q := by
  have hnd : (l ++ id :: r).Nodup := hc ▸ hw.children_nodup p
  have hsub : List.Sublist (l ++ r) (l ++ id :: r) :=
    (sublist_cons_self id r).append_left l
  split
  · next hq =>
    subst hq
    refine (h.chain (hc ▸ hw.chain q) hnd).children_eq (hnd.sublist hsub) fun c hm => ?_
    rw [h.size]
    exact hw.lt_size_of_mem (hc ▸ hsub.subset hm)
  · next hq =>
    refine Shows.children_of_untouched h hw (if_neg hq) (if_neg hq) fun c hm => ?_
    refine h.siblings fun hm' => hq ?_
    have hp := (hw.mem_children.mp (hc ▸ hm')).1
    rw [(hw.mem_children.mp hm).1] at hp
    exact Option.some.inj hp

end Xml.Document
