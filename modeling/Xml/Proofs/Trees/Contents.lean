import Xml.Document.Access
import Xml.Proofs.Links.Refilling
import Xml.Proofs.Order.Runs
import Xml.Proofs.Trees.Duplicate

/-!
# Contents

The content of an element is the text of what is below it, in order. When another content is put
into a node, what is below a node above it is read as before up to the node, then comes what is at
and below the node now, and then the rest as before (`ChangedWithin`). So its content is the text
before the node, the text that was put in, and the text behind it.

The nodes that were the children of an element stand nowhere then and keep what is below them,
unless the element itself is below them, on a cycle: that way the element comes to be what is below.

* `content_set_through_tree` — putting a content in and reading it, at the node and above it
-/

namespace Xml

open List

variable {text : String} {ref : NodeRef}

/-- What a node of this kind holds is part of the text of what stands above it. -/
def NodeKind.showsText (kind : NodeKind) : Bool :=
  kind == .element || kind.isCharacterData

namespace Document

variable {doc d : Document} {a c m n p x : NodeId} {ids : List NodeId} {node : Node}

/-! ## Text -/

/-- The text that a node itself adds to the contents it is part of. -/
def characterData? (doc : Document) (x : NodeId) : Option String :=
  (doc.get? x).bind fun node => if node.kind.isCharacterData then some node.content else none

def textOf (doc : Document) (ids : List NodeId) : String :=
  String.join (ids.filterMap doc.characterData?)

theorem textOf_append (doc : Document) (ids ids' : List NodeId) :
    doc.textOf (ids ++ ids') = doc.textOf ids ++ doc.textOf ids' := by
  unfold textOf
  rw [filterMap_append, String.join_append]

theorem textOf_congr (h : ∀ x ∈ ids, d.characterData? x = doc.characterData? x) :
    d.textOf ids = doc.textOf ids :=
  congrArg String.join (filterMap_congr h)

theorem textOf_congr_get? (h : ∀ x ∈ ids, d.get? x = doc.get? x) :
    d.textOf ids = doc.textOf ids := by
  refine textOf_congr fun x hx => ?_
  unfold characterData?
  rw [h x hx]

theorem textContent_of_get? (hn : doc.get? x = some node) :
    doc.textContent x =
      if node.kind.holdsText || node.kind == .entityReference then node.content
      else if node.kind == .doctype then ""
      else doc.textOf (doc.descendants x) := by
  simp only [textContent, hn]
  split
  · rfl
  · split
    · rfl
    · refine congrArg String.join (filterMap_congr fun y _ => ?_)
      unfold characterData?
      cases doc.get? y <;> rfl

theorem textContent_of_container (h : doc.IsContainer a) :
    doc.textContent a = doc.textOf (doc.descendants a) := by
  obtain ⟨node, hn⟩ := exists_get? h.lt_size
  rw [textContent_of_get? hn]
  have hkind : node.kind = .element ∨ node.kind = .document := by
    simpa [IsContainer, kindOf, hn] using h
  rcases hkind with hk | hk <;> rw [hk] <;> rfl

theorem mem_descendants (hw : doc.Linked) (h : x ∈ doc.descendants a) : doc.Ancestor a x := by
  rw [hw.descendants_eq_flatMap] at h
  obtain ⟨c, hc, hx⟩ := mem_flatMap.mp h
  have hp : doc.Ancestor a c := .parent (hw.mem_children.mp hc).1
  rcases mem_subtreeTo hw hx with rfl | hx
  · exact hp
  · exact hp.trans hx

theorem Linked.textOf_subtree (hw : doc.Linked) (hn : doc.get? x = some node)
    (hk : node.kind.showsText = true) : doc.textOf (doc.subtree x) = doc.textContent x := by
  have hkind : doc.kindOf x = some node.kind := by rw [kindOf, hn, Option.map_some]
  by_cases helement : node.kind = .element
  · have hnone : doc.characterData? x = none := by
      rw [characterData?, hn, Option.bind_some, helement]
      rfl
    rw [textContent_of_container (.inl (helement ▸ hkind)), subtree, textOf,
      filterMap_cons_none hnone]
    rfl
  · have hdata : node.kind.isCharacterData = true := by
      simpa [NodeKind.showsText, helement] using hk
    have hsome : doc.characterData? x = some node.content := by simp [characterData?, hn, hdata]
    have hnil : doc.children x = [] := by
      refine children_of_leaf hw hn helement fun hk => ?_
      rw [hk] at hdata
      cases hdata
    rw [textContent_of_get? hn, subtree, hw.descendants_eq_nil hnil, textOf,
      filterMap_cons_some hsome]
    have hholds : node.kind.holdsText || node.kind == .entityReference := by
      revert hdata
      cases node.kind <;> decide
    rw [if_pos hholds, filterMap_nil, String.join_cons, String.join_nil, String.append_empty]

/-! ## The content that was put in -/

theorem Refilled.children_eq_nil (h : Refilled doc d n) (hw : doc.Linked)
    (hsize : d.size = doc.size) : d.children n = [] := by
  refine eq_nil_iff_forall_not_mem.mpr fun x hx => ?_
  have hge := h.le_of_mem_children hw hx
  have hlt := h.linked.lt_size_of_mem hx
  exact Nat.not_lt.mpr hge (hsize ▸ hlt)

theorem Refilled.children_eq_singleton (h : Refilled doc d n) (hw : doc.Linked)
    (hsize : d.size = doc.size + 1) : d.children n = [doc.size] := by
  have hmem (x : NodeId) : x ∈ d.children n ↔ x ∈ [doc.size] := by
    rw [mem_singleton]
    constructor
    · intro hx
      have hge := h.le_of_mem_children hw hx
      have hlt := h.linked.lt_size_of_mem hx
      rw [hsize] at hlt
      exact Nat.le_antisymm (Nat.le_of_lt_succ hlt) hge
    · rintro rfl
      exact h.linked.mem_children.mpr (h.new _ (Nat.le_refl _) (by omega)).1
  have hnodup := h.linked.children_nodup n
  exact perm_singleton.mp
    ((perm_ext_iff_of_nodup hnodup (nodup_singleton _)).mpr hmem)

/-- **What was put in is read again.** -/
theorem textContent_setContent (hw : doc.Linked) (hself : ref.id ∉ doc.children ref.id)
    (h : setContent ref text doc = .ok () d) : d.textContent ref.id = text := by
  have hrefilled := setContent_refilled hw hself h
  obtain ⟨node, hn, hcases⟩ := setContent_eq_ok h
  have hget := owned_eq_ok hn
  have hkind : d.kindOf ref.id = some node.kind := by
    rw [hrefilled.kindOf (lt_size_of_get? hget), kindOf, hget, Option.map_some]
  rcases hcases with ⟨hk, rfl⟩ | ⟨hk, rfl, rfl⟩ | ⟨hk, -, rfl⟩
  · have hget' : (doc.update ref.id fun m => { m with content := text }).get? ref.id =
        some { node with content := text } := by
      rw [get?_update, if_pos rfl, hget, Option.map_some]
    rw [textContent_of_get? hget']
    simp [hk]
  · rw [textContent_of_container (.inl (hk ▸ hkind)),
      hrefilled.linked.descendants_eq_nil (hrefilled.children_eq_nil hw (size_removeChildren hw _))]
    rfl
  · have hsize := size_putText hw ref.id text
    have hchildren := hrefilled.children_eq_singleton hw hsize
    have hnew : (doc.putText ref.id text).get? doc.size =
        some { kind := .text, content := text, parent := some ref.id } := by
      rw [hw.get?_putText hself (lt_size_of_get? hget), if_pos rfl]
    have hleaf : (doc.putText ref.id text).children doc.size = [] :=
      hrefilled.linked.children_eq_nil (hrefilled.new _ (Nat.le_refl _) (by omega)).2
    have hbelow : (doc.putText ref.id text).descendants ref.id = [doc.size] := by
      rw [hrefilled.linked.descendants_eq_flatMap, hchildren, hsize, flatMap_singleton, subtreeTo,
        hleaf, flatMap_nil]
    rw [textContent_of_container (.inl (hk ▸ hkind)), hbelow, textOf,
      filterMap_cons_some (b := text) (by rw [characterData?, hnew]; rfl)]
    simp

theorem content_setContent (hw : doc.Linked) (hself : ref.id ∉ doc.children ref.id)
    (h : setContent ref text doc = .ok () d) : ref.content d = text := by
  have hrefilled := setContent_refilled hw hself h
  obtain ⟨node, hn, -⟩ := setContent_eq_ok h
  have hlt := lt_size_of_get? (owned_eq_ok hn)
  obtain ⟨node', hn'⟩ := exists_get? (Nat.lt_of_lt_of_le hlt hrefilled.size_le)
  have hin : ref.isIn d = true := by
    rw [NodeRef.isIn, NodeRef.node?, hrefilled.id, owned_doc hn, hn']
    simp
  rw [NodeRef.content, if_pos hin, textContent_setContent hw hself h]

/-! ## Around the node -/

/-- Below `a` there is no change but at and below `m`, which comes behind `pre` and before
`post`. -/
structure ChangedWithin (doc d : Document) (a m : NodeId) (pre post : List NodeId) : Prop where
  before : doc.descendants a = pre ++ doc.subtree m ++ post
  after : d.descendants a = pre ++ d.subtree m ++ post
  kept : ∀ x ∈ pre ++ post, d.get? x = doc.get? x

theorem ChangedWithin.trans {pre post l r : List NodeId} (h : ChangedWithin doc d a p pre post)
    (h' : ChangedWithin doc d p m l r) (hp : d.get? p = doc.get? p) :
    ChangedWithin doc d a m (pre ++ p :: l) (r ++ post) := by
  refine ⟨?_, ?_, fun x hx => ?_⟩
  · rw [h.before, subtree_cons doc p, h'.before]
    simp
  · rw [h.after, subtree_cons d p, h'.after]
    simp
  · have hkept := h.kept x
    have hkept' := h'.kept x
    simp only [mem_append, mem_cons] at hx hkept hkept'
    rcases hx with (hx | rfl | hx) | hx | hx
    · exact hkept (.inl hx)
    · exact hp
    · exact hkept' (.inl hx)
    · exact hkept' (.inr hx)
    · exact hkept (.inr hx)

theorem ChangedWithin.textContent_eq {pre post : List NodeId}
    (h : ChangedWithin doc d a m pre post) (ha : d.IsContainer a) :
    d.textContent a = doc.textOf pre ++ d.textOf (d.subtree m) ++ doc.textOf post := by
  have hpre : d.textOf pre = doc.textOf pre :=
    textOf_congr_get? fun x hx => h.kept x (mem_append_left post hx)
  have hpost : d.textOf post = doc.textOf post :=
    textOf_congr_get? fun x hx => h.kept x (mem_append_right pre hx)
  rw [textContent_of_container ha, h.after, textOf_append, textOf_append, hpre, hpost]

namespace Refilled

theorem treeBelow (h : Refilled doc d n) (hw : doc.Linked) (ht : doc.TreeBelow a) :
    d.TreeBelow a := by
  intro x hx hxx
  have hcon := hxx.container h.linked
  -- what is new has nothing below it
  have hlt : x < doc.size := by
    by_contra hge
    exact (h.new x (Nat.not_lt.mp hge) hcon.lt_size).2 hcon
  exact ht x (hx.imp_right fun hx => h.ancestor hw hx hlt) (h.ancestor hw hxx hlt)

/-- What is below another node, with the node itself not below it, is untouched. -/
theorem get?_below (h : Refilled doc d n) (hw : doc.Linked) (hne : c ≠ n)
    (hout : ¬ doc.Ancestor c n) (hx : doc.Ancestor c x) : d.get? x = doc.get? x := by
  refine h.kept x hx.lt_size ?_ fun hm => ?_
  · rintro rfl
    exact hout hx
  · rcases hx.of_parent (hw.mem_children.mp hm).1 with rfl | hup
    · exact hne rfl
    · exact hout hup

theorem subtree_eq (h : Refilled doc d n) (hw : doc.Linked) (hc : c < doc.size) (hne : c ≠ n)
    (hout : ¬ doc.Ancestor c n) (ht : doc.TreeBelow c) : d.subtree c = doc.subtree c := by
  have hsame : d.subtree c = doc.subtreeTo (d.size + 1) c := by
    rw [h.linked.subtree_eq_subtreeTo]
    refine subtreeTo_congr hw (fun x hx => ?_) _
    rcases hx with rfl | hx
    · exact h.children hw hc hne
    · refine h.children hw hx.lt_size ?_
      rintro rfl
      exact hout hx
  exact hsame.trans (ht.subtreeTo_eq hw hc (Nat.le_succ_of_le h.size_le))

/-- **One step down.** Of the subtrees below `p`, only the one in which the node is has changed. -/
theorem changedWithin_child (h : Refilled doc d n) (hw : doc.Linked) (ht : doc.TreeBelow p)
    (hm : m ∈ doc.children p) (hmn : m = n ∨ doc.Ancestor m n) :
    ∃ l r, ChangedWithin doc d p m l r := by
  have hpm := (hw.mem_children.mp hm).1
  have hpn : doc.Ancestor p n := ancestor_of_child hpm (hmn.imp_left Eq.symm)
  have hlt : p < doc.size := (hw.container p m hpm).lt_size
  have hne : p ≠ n := by
    rintro rfl
    exact ht.irrefl hpn
  have hbelow : doc.descendants p = (doc.children p).flatMap doc.subtree :=
    (List.cons.inj (ht.subtree_eq hw)).2
  have hbelow' : d.descendants p = (doc.children p).flatMap d.subtree := by
    rw [← h.children hw hlt hne]
    exact (List.cons.inj ((h.treeBelow hw ht).subtree_eq h.linked)).2
  have hnodup := hw.children_nodup p
  have hmem (s : NodeId) : s ∈ doc.children p → doc.parentOf s = some p := fun hs =>
    (hw.mem_children.mp hs).1
  obtain ⟨l, r, hcs⟩ := append_of_mem hm
  rw [hcs] at hbelow hbelow' hnodup hmem
  rw [nodup_middle, nodup_cons] at hnodup
  have hside (s : NodeId) (hs : s ∈ l ++ r) :
      doc.parentOf s = some p ∧ ¬ (n = s ∨ doc.Ancestor s n) := by
    have hps : doc.parentOf s = some p := hmem s (by
      rw [mem_append] at hs
      rw [mem_append, mem_cons]
      exact hs.imp_right .inr)
    have hsm : s ≠ m := fun he => hnodup.1 (he ▸ hs)
    exact ⟨hps, fun hsn => siblings_apart ht.irrefl hps hpm hsm hsn (hmn.imp_left Eq.symm)⟩
  have hsame (s : NodeId) (hs : s ∈ l ++ r) : d.subtree s = doc.subtree s := by
    obtain ⟨hps, hsn⟩ := hside s hs
    rw [not_or] at hsn
    exact h.subtree_eq hw (lt_size_of_parentOf hps) (Ne.symm hsn.1) hsn.2 (ht.child hps)
  refine ⟨l.flatMap doc.subtree, r.flatMap doc.subtree, ?_, ?_, fun x hx => ?_⟩
  · simp [hbelow]
  · rw [hbelow', flatMap_append, flatMap_cons, append_assoc]
    rw [flatMap_congr fun s hs => hsame s (mem_append_left r hs)]
    rw [flatMap_congr fun s hs => hsame s (mem_append_right l hs)]
  · rw [← flatMap_append] at hx
    obtain ⟨s, hs, hx⟩ := mem_flatMap.mp hx
    obtain ⟨hps, hsn⟩ := hside s hs
    rw [not_or] at hsn
    rcases hw.of_mem_subtree hx with rfl | hx
    · refine h.kept x (lt_size_of_parentOf hps) (Ne.symm hsn.1) fun hxn => hne ?_
      exact Option.some.inj (hps.symm.trans (hw.mem_children.mp hxn).1)
    · exact h.get?_below hw (Ne.symm hsn.1) hsn.2 hx

/-- **All the way down.** -/
theorem changedWithin (h : Refilled doc d n) (hw : doc.Linked) (ht : doc.TreeBelow a)
    (hn : doc.kindOf n ≠ some .attribute) (ha : doc.Ancestor a n) :
    ∃ pre post, ChangedWithin doc d a n pre post := by
  -- from `a` down to each node on the way
  have down {m : NodeId} (ham : doc.Ancestor a m) (hk : doc.kindOf m ≠ some .attribute)
      (hmn : m = n ∨ doc.Ancestor m n) : ∃ pre post, ChangedWithin doc d a m pre post := by
    induction ham with
    | parent hp => exact h.changedWithin_child hw ht (hw.mem_children.mpr ⟨hp, hk⟩) hmn
    | @above m p hp hap ih =>
      have hpn : doc.Ancestor p n := ancestor_of_child hp (hmn.imp_left Eq.symm)
      have hcon := hw.container p m hp
      obtain ⟨pre, post, hpre⟩ := ih hcon.not_attribute (.inr hpn)
      obtain ⟨l, r, hl⟩ := h.changedWithin_child hw (ht.of_ancestor hap)
        (hw.mem_children.mpr ⟨hp, hk⟩) hmn
      have hpp := ht p (.inr hap)
      refine ⟨_, _, hpre.trans hl (h.kept p hcon.lt_size ?_ fun hc => hpp ?_)⟩
      · rintro rfl
        exact hpp hpn
      · exact hpn.trans (.parent (hw.mem_children.mp hc).1)
  exact down ha hn (.inl rfl)

/-- **The content above the node**, with the content of the node between what was before it and
what was behind it. -/
theorem exists_textContent_eq (h : Refilled doc d n) (hw : doc.Linked) {kind : NodeKind}
    (hread : d.textContent n = text) (hkind : doc.kindOf n = some kind) (hk : kind.showsText = true)
    (ht : doc.TreeBelow a) (ha : doc.Ancestor a n) :
    ∃ pre post, ChangedWithin doc d a n pre post ∧
      d.textContent a = doc.textOf pre ++ text ++ doc.textOf post := by
  have hattribute : doc.kindOf n ≠ some .attribute := by
    rw [hkind]
    rintro ⟨⟩
    cases hk
  obtain ⟨pre, post, hwithin⟩ := h.changedWithin hw ht hattribute ha
  have hkind' : d.kindOf n = some kind := (h.kindOf (lt_size_of_kindOf hkind)).trans hkind
  obtain ⟨node, hn⟩ := exists_get? (lt_size_of_kindOf hkind')
  have hnode : node.kind = kind := by simpa [Document.kindOf, hn] using hkind'
  have hcon : d.IsContainer a := by
    have hcon := ha.container hw
    rw [IsContainer, h.kindOf hcon.lt_size]
    exact hcon
  refine ⟨pre, post, hwithin, ?_⟩
  rw [hwithin.textContent_eq hcon, h.linked.textOf_subtree hn (hnode ▸ hk), hread]

end Refilled

/-! ## The former children -/

theorem Ancestor.of_cycle (h : doc.Ancestor c x) (hx : doc.Ancestor x x) : doc.Ancestor c c := by
  have up {x p : NodeId} (hp : doc.parentOf x = some p) (hx : doc.Ancestor x x) :
      doc.Ancestor p p := by
    rcases hx.of_parent hp with rfl | hup
    · exact hx
    · exact .trans (.parent hp) hup
  induction h with
  | parent hp => exact up hp hx
  | above hp _ ih => exact ih (up hp hx)

theorem textContent_of_apart (hc : d.get? c = (doc.get? c).map Node.apart)
    (hbelow : d.descendants c = doc.descendants c)
    (hget : ∀ x ∈ doc.descendants c, d.get? x = doc.get? x) :
    d.textContent c = doc.textContent c := by
  cases hn : doc.get? c with
  | none =>
    rw [hn] at hc
    simp [textContent, hn, hc]
  | some node =>
    rw [hn, Option.map_some] at hc
    rw [textContent_of_get? hc, textContent_of_get? hn, hbelow, textOf_congr_get? hget]
    rfl

namespace Refilled

/-- **A former child is what it was, with all that is below it**, if the node is not below it. -/
theorem former_child (h : Refilled doc d n) (hw : doc.Linked) (hself : n ∉ doc.children n)
    (hc : c ∈ doc.children n) (hout : ¬ doc.Ancestor c n) :
    d.subtree c = doc.subtree c ∧ d.textContent c = doc.textContent c := by
  have hp := (hw.mem_children.mp hc).1
  have hne : c ≠ n := fun he => hself (he ▸ hc)
  have hcc : ¬ doc.Ancestor c c := fun hcc => (hcc.of_parent hp).elim hne hout
  have ht : doc.TreeBelow c := by
    rintro x (rfl | hx) hxx
    · exact hcc hxx
    · exact hcc (hx.of_cycle hxx)
  have hsub := h.subtree_eq hw (lt_size_of_parentOf hp) hne hout ht
  refine ⟨hsub, textContent_of_apart (h.apart c hc) (congrArg List.tail hsub) fun x hx => ?_⟩
  exact h.get?_below hw hne hout (mem_descendants hw hx)

theorem get?_ne (h : Refilled doc d n) (hw : doc.Linked) (hc : c ∈ doc.children n) :
    d.get? n ≠ doc.get? n := by
  intro he
  have hfirst : d.firstOf n = doc.firstOf n := by rw [firstOf, he, firstOf]
  rw [(h.linked.chain n).first, (hw.chain n).first] at hfirst
  have hf := head?_eq_some_head (ne_nil_of_mem hc)
  have hold := (hw.mem_children.mp (mem_of_head? hf)).1
  have hnew := h.le_of_mem_children hw (mem_of_head? (hfirst.trans hf))
  exact Nat.not_lt.mpr hnew (lt_size_of_parentOf hold)

end Refilled

/-! ## Along every run -/

/-- Only the document node may come to be its own parent. -/
theorem Initial.run_parentOf_ne (h : Initial doc) (ops : List Operation) (hx : x ≠ root) :
    (run ops doc).parentOf x ≠ some x := by
  intro hp
  refine h.run_acyclic_detach_root ops x (.parent ?_)
  rw [(h.run_linked ops).1.parentOf_detach, if_neg hx]
  exact hp

theorem kindOf_ne_document_of_setContent (h : setContent ref text doc = .ok () d) :
    doc.kindOf ref.id ≠ some .document := by
  obtain ⟨node, hn, hcases⟩ := setContent_eq_ok h
  rw [kindOf, owned_eq_ok hn, Option.map_some]
  intro hk
  rw [Option.some.inj hk] at hcases
  rcases hcases with ⟨hk, -⟩ | ⟨hk, -⟩ | ⟨hk, -⟩ <;> cases hk

/-- A content that does not show above the node changes nothing there. -/
theorem textContent_of_hidden (hw : doc.Linked) {kind : NodeKind}
    (h : setContent ref text doc = .ok () d) (hkind : doc.kindOf ref.id = some kind)
    (hk : kind.showsText = false) (ha : doc.IsContainer a) :
    d.textContent a = doc.textContent a := by
  obtain ⟨node, hn, hcases⟩ := setContent_eq_ok h
  have hget := owned_eq_ok hn
  rw [kindOf, hget, Option.map_some, Option.some.injEq] at hkind
  subst hkind
  rcases hcases with ⟨-, rfl⟩ | ⟨helement, -⟩ | ⟨helement, -⟩
  · have hsame : SameLinks doc (doc.update ref.id fun m => { m with content := text }) :=
      .update _ _ _ fun _ => rfl
    have hbelow : (doc.update ref.id fun m => { m with content := text }).descendants a =
        doc.descendants a := by
      rw [(hsame.linked hw).descendants_eq_flatMap, hw.descendants_eq_flatMap, hsame.children hw,
        hsame.size]
      exact flatMap_congr fun c _ => subtreeTo_congr hw (fun x _ => hsame.children hw x) _
    have hcon : (doc.update ref.id fun m => { m with content := text }).IsContainer a := by
      rw [IsContainer, hsame.kindOf]
      exact ha
    rw [textContent_of_container hcon, textContent_of_container ha, hbelow]
    refine textOf_congr fun x _ => ?_
    unfold characterData?
    rw [get?_update]
    split
    · next he =>
      have hdata : node.kind.isCharacterData = false := (Bool.or_eq_false_iff.mp hk).2
      subst he
      simp [hget, hdata]
    · rfl
  · rw [helement] at hk
    cases hk
  · rw [helement] at hk
    cases hk

/-- **Putting a content in and reading it.** From a new document or one that was read, after any
operations, a text that is accepted as the content of a node is the content of the node then. If the
node is an element, text or CDATA section and what is below a node above it is a tree, the content
of the node above is what was read before the node, then the text, and then what was read behind the
node; if it is a comment, an instruction or an attribute, the contents above are what they were. The
former children stand nowhere and are else what they were. What is below such a child is untouched
if and only if the node is not below it, and then the child has the subtree and the content it had.
Every other node is what it was. As long as the document node stands on top, what is below a node is
a tree, and no node is below its children. -/
theorem content_set_through_tree (start doc : Document) (h : Initial start) (ops : List Operation)
    (hdoc : run ops start = doc) (ref : NodeRef) (kind : NodeKind)
    (hkind : doc.kindOf ref.id = some kind) (text : String) (d : Document)
    (hset : setContent ref text doc = .ok () d) :
    ref.content d = text ∧
      (∀ a, doc.Ancestor a ref.id →
        (kind.showsText = true → doc.TreeBelow a → ∃ pre post,
          ChangedWithin doc d a ref.id pre post ∧
            d.textContent a = doc.textOf pre ++ text ++ doc.textOf post) ∧
        (kind.showsText = false → d.textContent a = doc.textContent a)) ∧
      (∀ c ∈ doc.children ref.id,
        d.get? c = (doc.get? c).map Node.apart ∧
        ((∀ x, doc.Ancestor c x → d.get? x = doc.get? x) ↔ ¬ doc.Ancestor c ref.id) ∧
        (¬ doc.Ancestor c ref.id →
          d.subtree c = doc.subtree c ∧ d.textContent c = doc.textContent c)) ∧
      (∀ x, x < doc.size → x ≠ ref.id → x ∉ doc.children ref.id → d.get? x = doc.get? x) ∧
      (doc.parentOf root = none →
        (∀ a, doc.TreeBelow a) ∧ ∀ c ∈ doc.children ref.id, ¬ doc.Ancestor c ref.id) := by
  subst hdoc
  obtain ⟨hw, hroot⟩ := h.run_linked ops
  have hne : ref.id ≠ root := fun he => kindOf_ne_document_of_setContent hset (he ▸ hroot)
  have hself : ref.id ∉ (run ops start).children ref.id := fun hm =>
    h.run_parentOf_ne ops hne (hw.mem_children.mp hm).1
  have hrefilled := setContent_refilled hw hself hset
  have hread := textContent_setContent hw hself hset
  refine ⟨?_, fun a ha => ?_, fun c hc => ⟨hrefilled.apart c hc, ?_, ?_⟩, hrefilled.kept,
    fun htop => ⟨(h.run_acyclic ops htop).treeBelow, fun c hc hup => ?_⟩⟩
  · exact content_setContent hw hself hset
  · have hcon := ha.container hw
    exact ⟨fun hk ht => hrefilled.exists_textContent_eq hw hread hkind hk ht ha,
      fun hk => textContent_of_hidden hw hset hkind hk hcon⟩
  · have hcn : c ≠ ref.id := fun he => hself (he ▸ hc)
    constructor
    · intro hall hcn
      exact hrefilled.get?_ne hw hc (hall _ hcn)
    · intro hout x hx
      exact hrefilled.get?_below hw hcn hout hx
  · exact hrefilled.former_child hw hself hc
  · exact h.run_acyclic ops htop c (hup.trans (.parent (hw.mem_children.mp hc).1))

/-- An element and the document node below each other, and beside the document node an element with
a text, an element and a text in it, put there before the two came to be below each other. -/
def fillOnCycle : List Operation :=
  moveDocumentNode ++ [.createText "a", .createElement "m", .createText "b",
    .setParent ⟨0, 3, .text⟩ ⟨0, 2, .element⟩, .setParent ⟨0, 4, .element⟩ ⟨0, 2, .element⟩,
    .setParent ⟨0, 5, .text⟩ ⟨0, 2, .element⟩, .setRoot ⟨0, 1, .element⟩]

/-- **A content beside the cycle and one on it.** The content of an element between two texts is
read between them. A content of the element on the cycle leaves the element beside the document node
what it was, but not what is below the document node. -/
theorem content_set_on_cycle :
    Initial (empty 0) ∧
      (∃ d pre post, setContent ⟨0, 4, .element⟩ "y" (run fillOnCycle (empty 0)) = .ok () d ∧
        ChangedWithin (run fillOnCycle (empty 0)) d 2 4 pre post ∧
        d.textContent 2 = (run fillOnCycle (empty 0)).textOf pre ++ "y" ++
          (run fillOnCycle (empty 0)).textOf post) ∧
      ∃ d, setContent ⟨0, 1, .element⟩ "y" (run fillOnCycle (empty 0)) = .ok () d ∧
        (run fillOnCycle (empty 0)).children 1 = [2, 0] ∧
        d.subtree 2 = (run fillOnCycle (empty 0)).subtree 2 ∧
        ¬ ∀ x, (run fillOnCycle (empty 0)).Ancestor 0 x →
          d.get? x = (run fillOnCycle (empty 0)).get? x := by
  have hinit := Initial.new 0
  have hw := (hinit.run_linked fillOnCycle).1
  have hup : (run fillOnCycle (empty 0)).parentOf 1 = some 0 := by decide
  have hdown : (run fillOnCycle (empty 0)).parentOf 0 = some 1 := by decide
  have hchildren : (run fillOnCycle (empty 0)).children 1 = [2, 0] := by decide
  have hleaves : ∀ c ∈ (run fillOnCycle (empty 0)).children 2,
      (run fillOnCycle (empty 0)).children c = [] := by decide
  have htree : (run fillOnCycle (empty 0)).TreeBelow 2 := by
    refine .of_children hw fun c hc => .of_children hw ?_
    rw [hleaves c hc]
    exact List.forall_mem_nil _
  have hout : ¬ (run fillOnCycle (empty 0)).Ancestor 2 1 := fun h21 =>
    htree 1 (.inr h21) (.above hup (.parent hdown))
  obtain ⟨d, hd⟩ : ∃ d, setContent ⟨0, 4, .element⟩ "y" (run fillOnCycle (empty 0)) = .ok () d :=
    ⟨_, rfl⟩
  obtain ⟨e, he⟩ : ∃ e, setContent ⟨0, 1, .element⟩ "y" (run fillOnCycle (empty 0)) = .ok () e :=
    ⟨_, rfl⟩
  obtain ⟨-, habove, -⟩ := content_set_through_tree _ _ hinit fillOnCycle rfl _ .element (by decide)
    _ _ hd
  obtain ⟨-, -, hformer, -⟩ := content_set_through_tree _ _ hinit fillOnCycle rfl _ .element
    (by decide) _ _ he
  obtain ⟨pre, post, hbetween⟩ := (habove 2 (.parent (by decide))).1 rfl htree
  refine ⟨hinit, ⟨d, pre, post, hd, hbetween⟩, e, he, hchildren, ?_, fun hall => ?_⟩
  · exact ((hformer 2 (by rw [hchildren]; decide)).2.2 hout).1
  · exact (hformer 0 (by rw [hchildren]; decide)).2.1.mp hall (.parent hup)

end Document

end Xml
