import Xml.Proofs.Links.Operations
import Xml.Proofs.Links.Views

/-!
# Replacing contents

What replacing the content of a node does to the entries of the table. An element loses its children
one by one, each time the first (`get?_removeChildren`), and a text takes their place. In the end
the node has kept its place, the nodes that were its children are what they were but stand nowhere,
and no other node is touched (`Refilled`).
-/

namespace Xml

open List

def Node.childless (n : Node) : Node :=
  { n with firstChild := none, lastChild := none }

def Node.hollow (n : Node) : Node :=
  { n.childless with content := "" }

namespace Document

variable {doc d : Document} {n c p x : NodeId} {cs rest : List NodeId}

/-! ## The number of the document -/

theorem id_alloc (doc : Document) (node : Node) : (doc.alloc node).2.id = doc.id := by
  obtain ⟨_, h⟩ := exists_alloc_eq doc node
  rw [h]

theorem id_detach (doc : Document) (x : NodeId) : (doc.detach x).id = doc.id := by
  unfold detach
  split
  · rfl
  · next node _ =>
    split
    · rfl
    · unfold closeGap
      cases node.prevSibling <;> cases node.nextSibling <;> split <;> rfl

theorem id_removeChildren (doc : Document) (n : NodeId) : (doc.removeChildren n).id = doc.id :=
  removeChildren_induction n (P := fun e => e.id = doc.id) rfl fun e c h => (id_detach e c).trans h

theorem id_appendChild (doc : Document) (p c : NodeId) : (doc.appendChild p c).id = doc.id := by
  simp only [appendChild]
  split <;> rfl

/-! ## Taking out the children -/

/-- **The first child is taken out.** Its parent and the child behind it let go of it, and no other
node is touched. -/
theorem get?_detach_first (hw : doc.Linked) (hcs : doc.children n = c :: rest)
    (hself : n ∉ c :: rest) (x : NodeId) :
    (doc.detach c).get? x =
      if x = c then (doc.get? x).map Node.apart
      else if x = n then (doc.get? x).map fun m =>
        { m with firstChild := rest.head?, lastChild := if rest = [] then none else m.lastChild }
      else if some x = rest.head? then (doc.get? x).map fun m => { m with prevSibling := none }
      else doc.get? x := by
  have hchild : doc.IsChild n c := hw.mem_children.mp (by rw [hcs]; exact mem_cons_self)
  obtain ⟨node, hn⟩ := exists_get? (lt_size_of_parentOf hchild.1)
  have hchain := hw.chain n
  have hnodup := hw.children_nodup n
  rw [hcs] at hchain hnodup
  have hparent : node.parent = some n := by simpa [parentOf, hn] using hchild.1
  have hkind : (node.kind == .attribute) = false := by simpa [kindOf, hn] using hchild.2
  have hnext : node.nextSibling = rest.head? := by simpa [nextOf, hn] using hchain.forward.1
  have hprev : node.prevSibling = none := by
    have hback := hchain.backward
    rw [reverse_cons] at hback
    simpa [prevOf, hn] using hback.at
  rw [detach, hn]
  simp only [hparent, hkind, hprev, hnext, closeGap, Bool.false_eq_true, if_false]
  have hnc : n ≠ c := fun he => hself (he ▸ mem_cons_self)
  cases rest with
  | nil =>
    simp only [head?_nil, get?_touch, get?_update]
    by_cases hx : x = c
    · subst hx
      simp only [hnc, if_true, if_false]
      rfl
    · by_cases hxn : x = n
      · subst hxn
        simp [hnc, Ne.symm hnc, Function.comp_def]
      · simp [hx, Ne.symm hx, hxn, Ne.symm hxn]
  | cons f rest =>
    have hcf : c ≠ f := fun he => (nodup_cons.mp hnodup).1 (he ▸ mem_cons_self)
    have hnf : n ≠ f := fun he => hself (he ▸ mem_cons_of_mem _ mem_cons_self)
    simp only [head?_cons, get?_touch, get?_update]
    by_cases hx : x = c
    · subst hx
      simp only [hnc, Ne.symm hcf, if_true, if_false]
      rfl
    · by_cases hxn : x = n
      · subst hxn
        simp [hnc, Ne.symm hnc, Ne.symm hnf]
      · by_cases hxf : x = f
        · subst hxf
          simp [hx, Ne.symm hx, hxn, Ne.symm hxn]
        · simp [hx, Ne.symm hx, hxn, Ne.symm hxn, hxf, Ne.symm hxf]

theorem Linked.children_detach_first (hw : doc.Linked) (hcs : doc.children n = c :: rest) :
    (doc.detach c).children n = rest := by
  have hnodup := hw.children_nodup n
  rw [hcs, nodup_cons] at hnodup
  rw [hw.children_detach, hcs, filter_cons_of_neg (by simp)]
  exact filter_ne_of_notMem hnodup.1

/-- **The loop over the first child takes out all children**, one after the other. -/
theorem Linked.removeChildren_eq (hw : doc.Linked) (n : NodeId) :
    doc.removeChildren n = (doc.children n).foldl Document.detach doc := by
  have loop (rounds : Nat) {e : Document} (he : e.Linked)
      (hrounds : (e.children n).length ≤ rounds) :
      removeFirst n rounds e = (e.children n).foldl Document.detach e := by
    induction rounds generalizing e with
    | zero => rw [length_eq_zero_iff.mp (Nat.le_zero.mp hrounds)]; rfl
    | succ rounds ih =>
      have hfirst : (e.get? n).bind (·.firstChild) = (e.children n).head? := (he.chain n).first
      rw [removeFirst, hfirst]
      cases hcs : e.children n with
      | nil => rfl
      | cons c rest =>
        have hrest := he.children_detach_first hcs
        rw [hcs, length_cons] at hrounds
        refine (ih (he.detach c) ?_).trans ?_ <;> rw [hrest]
        · exact Nat.le_of_succ_le_succ hrounds
        · rfl
  exact loop doc.size hw (hw.length_children_le n)

/-- **The children are taken out**, each time the first of those that are left. -/
theorem get?_removeChildren (hw : doc.Linked) (hself : n ∉ doc.children n) (x : NodeId) :
    (doc.removeChildren n).get? x =
      if x = n then (doc.get? x).map Node.childless
      else if x ∈ doc.children n then (doc.get? x).map Node.apart
      else doc.get? x := by
  rw [hw.removeChildren_eq]
  generalize hcs : doc.children n = cs at hself ⊢
  induction cs generalizing doc with
  | nil =>
    have hchain := hw.chain n
    rw [hcs] at hchain
    by_cases hx : x = n
    · subst hx
      rw [if_pos rfl, foldl_nil]
      cases hn : doc.get? x with
      | none => rfl
      | some node =>
        have hfirst : node.firstChild = none := by simpa [firstOf, hn] using hchain.first
        have hlast : node.lastChild = none := by simpa [lastOf, hn] using hchain.last
        obtain ⟨_, _, _, _, _, _, _, _, _, _, _⟩ := node
        cases hfirst
        cases hlast
        rfl
    · simp [hx]
  | cons c rest ih =>
    have hstep := get?_detach_first hw hcs hself
    have hnodup := hw.children_nodup n
    rw [hcs, nodup_cons] at hnodup
    have hnc : n ≠ c := fun he => hself (he ▸ mem_cons_self)
    have hnrest : n ∉ rest := fun hm => hself (mem_cons_of_mem c hm)
    rw [foldl_cons, ih (hw.detach c) (hw.children_detach_first hcs) hnrest, hstep]
    by_cases hxn : x = n
    · subst hxn
      rw [if_pos rfl, if_pos rfl, if_neg hnc, if_pos rfl, Option.map_map]
      rfl
    · by_cases hxc : x = c
      · subst hxc
        simp [hxn, hnodup.1]
      · by_cases hx : x ∈ rest
        · simp only [hxn, hxc, hx, if_false, if_true, mem_cons, or_true]
          split
          · rw [Option.map_map]
            rfl
          · rfl
        · have hhead : some x ≠ rest.head? := fun he => hx (mem_of_head? he.symm)
          simp [hxn, hxc, hx, hhead]

/-! ## Putting in the text -/

/-- **A new node becomes the only child.** -/
theorem get?_append_only (node : Node) (hp : p < doc.size) (hlast : doc.lastOf p = none)
    (x : NodeId) :
    ((doc.alloc node).2.appendChild p doc.size).get? x =
      if x = doc.size then
        some { node with parent := some p, prevSibling := none, nextSibling := none }
      else if x = p then (doc.get? x).map fun m =>
        { m with firstChild := some doc.size, lastChild := some doc.size }
      else doc.get? x := by
  have hne : p ≠ doc.size := Nat.ne_of_lt hp
  have hnone : ((doc.alloc node).2.get? p).bind (·.lastChild) = none := by
    rw [get?_alloc_of_lt hp]
    exact hlast
  unfold appendChild
  simp only [hnone]
  simp only [get?_touch, get?_update, get?_alloc]
  by_cases hx : x = doc.size
  · subst hx
    simp [hne]
  · by_cases hxp : x = p
    · subst hxp
      simp [hne, Ne.symm hne, Function.comp_def]
    · simp [hx, Ne.symm hx, hxp, Ne.symm hxp]

/-- The document after the children of `n` were taken out and a text was put in. -/
def putText (doc : Document) (n : NodeId) (text : String) : Document :=
  ((doc.removeChildren n).alloc { kind := .text, content := text }).2.appendChild n
    (doc.removeChildren n).size

theorem id_putText (doc : Document) (n : NodeId) (text : String) :
    (doc.putText n text).id = doc.id := by
  rw [putText, id_appendChild, id_alloc, id_removeChildren]

theorem setContent_eq_ok {ref : NodeRef} {text : String}
    (h : setContent ref text doc = .ok () d) :
    ∃ node, owned ref doc = .ok node ∧
      (node.kind.holdsText = true ∧ d = doc.update ref.id (fun m => { m with content := text }) ∨
        node.kind = .element ∧ text = "" ∧ d = doc.removeChildren ref.id ∨
        node.kind = .element ∧ text ≠ "" ∧ d = doc.putText ref.id text) := by
  unfold setContent at h
  obtain ⟨node, hn, h⟩ := Edit.require_bind_eq_ok h
  refine ⟨node, hn, ?_⟩
  split at h
  · next hholds =>
    obtain ⟨-, -, h⟩ := Edit.require_bind_eq_ok h
    cases h
    exact .inl ⟨hholds, rfl⟩
  · split at h
    · next hk =>
      have hk := beq_iff_eq.mp hk
      by_cases ht : text = ""
      · subst ht
        cases h
        exact .inr (.inl ⟨hk, rfl, rfl⟩)
      · rw [Edit.change, if_neg (by simpa using ht)] at h
        cases h
        exact .inr (.inr ⟨hk, ht, rfl⟩)
    · cases h

/-! ## What is left as it was -/

/-- Another content was put into `n`. -/
structure Refilled (doc d : Document) (n : NodeId) : Prop where
  id : d.id = doc.id
  linked : d.Linked
  size_le : doc.size ≤ d.size
  kept : ∀ x, x < doc.size → x ≠ n → x ∉ doc.children n → d.get? x = doc.get? x
  /-- The nodes that were children stand nowhere and are else what they were. -/
  apart : ∀ c ∈ doc.children n, d.get? c = (doc.get? c).map Node.apart
  hollow : (d.get? n).map Node.hollow = (doc.get? n).map Node.hollow
  /-- What is new is the content. -/
  new : ∀ x, doc.size ≤ x → x < d.size → d.IsChild n x ∧ ¬ d.IsContainer x

namespace Refilled

variable {a q : NodeId}

/-- A view of the nodes that does not show what has become of this one. -/
theorem map_get? (h : Refilled doc d n) {β : Type} (π : Node → β) (hx : x < doc.size)
    (hhollow : x = n → ∀ m : Node, π m.hollow = π m)
    (hapart : x ∈ doc.children n → ∀ m : Node, π m.apart = π m) :
    (d.get? x).map π = (doc.get? x).map π := by
  by_cases hxn : x = n
  · have hview := congrArg (Option.map π) h.hollow
    have hπ : π ∘ Node.hollow = π := funext (hhollow hxn)
    rw [Option.map_map, Option.map_map, hπ] at hview
    rw [hxn]
    exact hview
  · by_cases hxc : x ∈ doc.children n
    · have hπ : π ∘ Node.apart = π := funext (hapart hxc)
      rw [h.apart x hxc, Option.map_map, hπ]
    · rw [h.kept x hx hxn hxc]

theorem bind_get? (h : Refilled doc d n) (π : Node → Option NodeId) (hx : x < doc.size)
    (hhollow : x = n → ∀ m : Node, π m.hollow = π m)
    (hapart : x ∈ doc.children n → ∀ m : Node, π m.apart = π m) :
    (d.get? x).bind π = (doc.get? x).bind π := by
  have hmap := h.map_get? π hx hhollow hapart
  cases hd : d.get? x <;> cases hdoc : doc.get? x <;> simp_all

theorem kindOf (h : Refilled doc d n) (hx : x < doc.size) : d.kindOf x = doc.kindOf x :=
  h.map_get? (·.kind) hx (fun _ _ => rfl) fun _ _ => rfl

/-- **Other nodes have the children they had.** -/
theorem children (h : Refilled doc d n) (hw : doc.Linked) (hq : q < doc.size) (hne : q ≠ n) :
    d.children q = doc.children q := by
  have hchain := hw.chain q
  have hout : ∀ c ∈ doc.children q, c < doc.size ∧ c ∉ doc.children n := by
    intro c hc
    have hp := (hw.mem_children.mp hc).1
    refine ⟨lt_size_of_parentOf hp, fun hcn => hne ?_⟩
    exact Option.some.inj (hp.symm.trans (hw.mem_children.mp hcn).1)
  refine Chain.children_eq ⟨?_, ?_, ?_, ?_⟩ (hw.children_nodup q) fun c hc =>
    Nat.lt_of_lt_of_le (hout c hc).1 h.size_le
  · exact (h.bind_get? (·.firstChild) hq (fun he => absurd he hne) fun _ _ => rfl).trans hchain.first
  · exact (h.bind_get? (·.lastChild) hq (fun he => absurd he hne) fun _ _ => rfl).trans hchain.last
  · refine hchain.forward.congr fun c hc => ?_
    obtain ⟨hlt, hnot⟩ := hout c hc
    exact h.bind_get? (·.nextSibling) hlt (fun _ _ => rfl) fun hm => absurd hm hnot
  · refine hchain.backward.congr fun c hc => ?_
    obtain ⟨hlt, hnot⟩ := hout c (mem_reverse.mp hc)
    exact h.bind_get? (·.prevSibling) hlt (fun _ _ => rfl) fun hm => absurd hm hnot

theorem parentOf (h : Refilled doc d n) (hp : d.parentOf x = some p) :
    doc.parentOf x = some p ∨ p = n ∧ doc.size ≤ x := by
  rcases Nat.lt_or_ge x doc.size with hlt | hge
  · by_cases hxc : x ∈ doc.children n
    · rw [Document.parentOf, h.apart x hxc] at hp
      cases hx : doc.get? x <;> simp [hx, Node.apart] at hp
    · have hsame := h.bind_get? (·.parent) hlt (fun _ _ => rfl) fun hm => absurd hm hxc
      exact .inl (hsame.symm.trans hp)
  · have hnew := (h.new x hge (lt_size_of_parentOf hp)).1
    exact .inr ⟨Option.some.inj (hp.symm.trans hnew.1), hge⟩

/-- Nothing comes to stand above a node that was there. -/
theorem ancestor (h : Refilled doc d n) (hw : doc.Linked) (ha : d.Ancestor a x)
    (hx : x < doc.size) : doc.Ancestor a x := by
  induction ha with
  | parent hp =>
    rcases h.parentOf hp with hp | ⟨-, hge⟩
    · exact .parent hp
    · exact absurd hx (Nat.not_lt.mpr hge)
  | above hp _ ih =>
    rcases h.parentOf hp with hp | ⟨-, hge⟩
    · exact .above hp (ih (hw.container _ _ hp).lt_size)
    · exact absurd hx (Nat.not_lt.mpr hge)

theorem le_of_mem_children (h : Refilled doc d n) (hw : doc.Linked) (hx : x ∈ d.children n) :
    doc.size ≤ x := by
  obtain ⟨hp, hkind⟩ := h.linked.mem_children.mp hx
  rcases h.parentOf hp with hold | ⟨-, hge⟩
  · by_contra hlt
    have hlt := Nat.not_le.mp hlt
    have hmem := hw.mem_children.mpr ⟨hold, h.kindOf hlt ▸ hkind⟩
    rw [Document.parentOf, h.apart x hmem] at hp
    cases hx : doc.get? x <;> simp [hx, Node.apart] at hp
  · exact hge

end Refilled

theorem size_removeChildren (hw : doc.Linked) (n : NodeId) :
    (doc.removeChildren n).size = doc.size :=
  (removeChildren_induction n (P := fun e => e.Linked ∧ e.size = doc.size) ⟨hw, rfl⟩
    fun _ c h => ⟨h.1.detach c, (h.1.detach_spec c).2.1.trans h.2⟩).2

theorem size_putText (hw : doc.Linked) (n : NodeId) (text : String) :
    (doc.putText n text).size = doc.size + 1 := by
  rw [putText, size_appendChild, size_alloc, size_removeChildren hw]

theorem Linked.refilled_removeChildren (hw : doc.Linked) (hself : n ∉ doc.children n) :
    Refilled doc (doc.removeChildren n) n := by
  have hget := get?_removeChildren hw hself
  have hsize := size_removeChildren hw n
  refine ⟨id_removeChildren doc n, (removeChildren_relinks (G := Outside) doc n).linked hw,
    hsize.ge, ?_, ?_, ?_, ?_⟩
  · intro x _ hxn hxc
    rw [hget, if_neg hxn, if_neg hxc]
  · intro c hc
    have hcn : c ≠ n := fun he => hself (he ▸ hc)
    rw [hget, if_neg hcn, if_pos hc]
  · rw [hget, if_pos rfl, Option.map_map]
    rfl
  · intro x hge hlt
    omega

/-- The text is the last entry of the table and the only child. -/
theorem Linked.get?_putText (hw : doc.Linked) (hself : n ∉ doc.children n) (hn : n < doc.size)
    (text : String) (x : NodeId) :
    (doc.putText n text).get? x =
      if x = doc.size then some { kind := .text, content := text, parent := some n }
      else if x = n then (doc.get? x).map fun m =>
        { m with firstChild := some doc.size, lastChild := some doc.size }
      else (doc.removeChildren n).get? x := by
  have hempty := get?_removeChildren hw hself
  have hsize := size_removeChildren hw n
  have hlast : (doc.removeChildren n).lastOf n = none := by
    rw [lastOf, hempty, if_pos rfl]
    cases doc.get? n <;> rfl
  rw [putText, get?_append_only _ (hsize ▸ hn) hlast, hsize]
  by_cases hx : x = n
  · subst hx
    rw [if_pos rfl, if_pos rfl, hempty, if_pos rfl, Option.map_map]
    rfl
  · rw [if_neg hx, if_neg hx]

theorem Linked.refilled_putText (hw : doc.Linked) (hself : n ∉ doc.children n)
    (hn : doc.kindOf n = some .element) (text : String) :
    Refilled doc (doc.putText n text) n := by
  have hlt := lt_size_of_kindOf hn
  have hempty := hw.refilled_removeChildren hself
  have hget := hw.get?_putText hself hlt text
  have hsize := size_putText hw n text
  have hfresh : Node.Unlinked { kind := .text, content := text } := rfl
  have hcontainer : (doc.removeChildren n).IsContainer n := .inl ((hempty.kindOf hlt).trans hn)
  have hlinked := (hempty.linked.append_new (G := fun _ _ _ => True) hfresh (by simp) hcontainer
    trivial).1.linked hempty.linked
  refine ⟨id_putText doc n text, hlinked, hsize ▸ Nat.le_succ _, ?_, ?_, ?_, ?_⟩
  · intro x hx hxn hxc
    rw [hget, if_neg (Nat.ne_of_lt hx), if_neg hxn]
    exact hempty.kept x hx hxn hxc
  · intro c hc
    have hcn : c ≠ n := fun he => hself (he ▸ hc)
    rw [hget, if_neg (Nat.ne_of_lt (hw.lt_size_of_mem hc)), if_neg hcn]
    exact hempty.apart c hc
  · rw [hget, if_neg (Nat.ne_of_lt hlt), if_pos rfl, Option.map_map]
    rfl
  · intro x hge hx
    have hxnew : x = doc.size := by omega
    subst hxnew
    simp [IsChild, IsContainer, parentOf, kindOf, hget]

/-- **An accepted replacement refills the node.** -/
theorem setContent_refilled (hw : doc.Linked) {ref : NodeRef} (hself : ref.id ∉ doc.children ref.id)
    {text : String} (h : setContent ref text doc = .ok () d) : Refilled doc d ref.id := by
  obtain ⟨node, hn, hcases⟩ := setContent_eq_ok h
  have hget := owned_eq_ok hn
  rcases hcases with ⟨hk, rfl⟩ | ⟨hk, -, rfl⟩ | ⟨hk, -, rfl⟩
  · have hsame : SameLinks doc (doc.update ref.id fun m => { m with content := text }) :=
      .update _ _ _ fun _ => rfl
    have hnil : doc.children ref.id = [] := by
      refine hw.children_eq_nil fun hcon => ?_
      rw [IsContainer, kindOf, hget] at hcon
      rcases hcon with hcon | hcon <;> simp_all [NodeKind.holdsText]
    refine ⟨rfl, hsame.linked hw, hsame.size.ge, ?_, ?_, ?_, ?_⟩
    · intro x _ hxn _
      rw [get?_update, if_neg (Ne.symm hxn)]
    · rw [hnil]
      exact forall_mem_nil _
    · rw [get?_update, if_pos rfl, Option.map_map]
      rfl
    · intro x hge hlt
      rw [hsame.size] at hlt
      omega
  · exact hw.refilled_removeChildren hself
  · exact hw.refilled_putText hself (by rw [kindOf, hget, Option.map_some, hk]) text

end Document

end Xml
