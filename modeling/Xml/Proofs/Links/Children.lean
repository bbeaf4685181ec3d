import Xml.Proofs.Links.Relink

/-!
# Children in order

What the changes of the links do to the list of the children of a node. The nodes that stay keep
their order, whatever is put among them or taken out (`Relink.regroups`).
-/

namespace Xml.Document

open List

variable {doc d : Document} {id p q : NodeId}

theorem children_congr (hw : doc.Linked) (hsize : doc.size ≤ d.size)
    (hfirst : ∀ x, d.firstOf x = doc.firstOf x) (hlast : ∀ x, d.lastOf x = doc.lastOf x)
    (hnext : ∀ x, d.nextOf x = doc.nextOf x) (hprev : ∀ x, d.prevOf x = doc.prevOf x)
    (x : NodeId) : d.children x = doc.children x := by
  have hc := hw.chain x
  have hchain : d.Chain x (doc.children x) :=
    ⟨(hfirst x).trans hc.first, (hlast x).trans hc.last, hc.forward.congr fun c _ => hnext c,
      hc.backward.congr fun c _ => hprev c⟩
  exact hchain.children_eq (hw.children_nodup x) fun c hm =>
    Nat.lt_of_lt_of_le (hw.lt_size_of_mem hm) hsize

theorem SameLinks.children (h : SameLinks doc d) (hw : doc.Linked) (x : NodeId) :
    d.children x = doc.children x :=
  children_congr hw (Nat.le_of_eq h.shows.size.symm) h.shows.first h.shows.last h.shows.next
    h.shows.prev x

theorem children_alloc (hw : doc.Linked) {node : Node} (hn : node.Unlinked) (x : NodeId) :
    (doc.alloc node).2.children x = doc.children x := by
  refine children_congr hw (by rw [size_alloc]; exact Nat.le_succ _) ?_ ?_ ?_ ?_ x <;>
    exact bind_get?_alloc hn _ fun _ => rfl

theorem Linked.children_insertAttribute (hw : doc.Linked) (p : NodeId) (index : Nat)
    (id x : NodeId) : (doc.insertAttribute p index id).children x = doc.children x := by
  have hkeep (π : Node → Option NodeId) (hown : ∀ n q, π { n with parent := q } = π n)
      (hlist : ∀ n as, π { n with attributes := as } = π n) (x : NodeId) :
      ((doc.insertAttribute p index id).get? x).bind π = (doc.get? x).bind π :=
    (bind_get?_update_keep π _ (fun n => hlist n _) p x).trans
      (bind_get?_update_keep π _ (fun n => hown n _) id x)
  refine children_congr hw ?_ ?_ ?_ ?_ ?_ x
  · exact Nat.le_of_eq ((size_update ..).trans (size_update ..)).symm
  · exact hkeep (·.firstChild) (fun _ _ => rfl) fun _ _ => rfl
  · exact hkeep (·.lastChild) (fun _ _ => rfl) fun _ _ => rfl
  · exact hkeep (·.nextSibling) (fun _ _ => rfl) fun _ _ => rfl
  · exact hkeep (·.prevSibling) (fun _ _ => rfl) fun _ _ => rfl

/-- A list without a member is the same without it. -/
theorem filter_ne_of_notMem {cs : List NodeId} (h : id ∉ cs) : cs.filter (· ≠ id) = cs :=
  filter_eq_self.mpr fun _ hc => decide_eq_true fun he => h (he ▸ hc)

/-- **The children that are left when a node was taken out.** -/
theorem Linked.children_detach (hw : doc.Linked) (id q : NodeId) :
    (doc.detach id).children q = (doc.children q).filter (· ≠ id) := by
  rcases detach_cases hw id with ⟨hpar, hd⟩ | ⟨p, l, r, hchild, hlr, hr⟩ | ⟨p, ha, hd⟩
  · rw [hd, filter_ne_of_notMem]
    intro hm
    rw [(hw.mem_children.mp hm).1] at hpar
    cases hpar
  · rw [hr.children_eq hw hlr]
    split
    · next hq =>
      have hnd : (l ++ id :: r).Nodup := hlr ▸ hw.children_nodup p
      rw [nodup_middle, nodup_cons] at hnd
      rw [hq, hlr, filter_append, filter_cons_of_neg (by simp), ← filter_append,
        filter_ne_of_notMem hnd.1]
    · next hq =>
      rw [filter_ne_of_notMem]
      intro hm
      exact hq (Option.some.inj ((hw.mem_children.mp hm).1.symm.trans hchild.1))
  · obtain ⟨hfirst, hlast, hnext, hprev⟩ := detach_attribute_siblings hw ha hd
    rw [filter_ne_of_notMem fun hm => (hw.mem_children.mp hm).2 ha.2]
    exact children_congr hw (Nat.le_of_eq (hw.detach_spec id).2.1.symm) hfirst hlast hnext hprev q

theorem Linked.children_appendChild (hw : doc.Linked) (hp : doc.IsContainer p)
    (hid : doc.Loose id) : (doc.appendChild p id).children p = doc.children p ++ [id] := by
  rw [(hw.inserted hp hid).1.children_eq hw hid.lt_size hid.1 (append_nil _).symm, if_pos rfl]

/-- The children around one that a node is put in front of, or behind. -/
theorem Linked.children_insert (hw : doc.Linked) {ref : NodeId} (href : doc.IsChild p ref)
    (hid : doc.Loose id) :
    ∃ l r, doc.children p = l ++ ref :: r ∧
      (doc.insertBefore ref id).children p = l ++ id :: ref :: r ∧
      (doc.insertAfter ref id).children p = l ++ ref :: id :: r := by
  obtain ⟨l, r, hlr, hbefore, hafter⟩ := (hw.inserted (hw.container _ _ href.1) hid).2 ref href
  have hsplit : doc.children p = l ++ [ref] ++ r := by rw [hlr, append_assoc]; rfl
  refine ⟨l, r, hlr, ?_, ?_⟩
  · rw [hbefore.children_eq hw hid.lt_size hid.1 hlr, if_pos rfl]
  · rw [hafter.children_eq hw hid.lt_size hid.1 hsplit, if_pos rfl, append_assoc]
    rfl

/-! ## One change -/

variable {G : Document → NodeId → NodeId → Prop}

/-- What a change does to the children of `q`: it takes some away, or it puts one among them. -/
inductive Regroups (G : Document → NodeId → NodeId → Prop) (doc d : Document) (q : NodeId) : Prop
    where
  | fewer (h : (d.children q).Sublist (doc.children q))
  | put (id : NodeId) (l r : List NodeId) (hd : d.children q = l ++ id :: r)
      (hdoc : doc.children q = l ++ r) (hg : G doc id q)

theorem Inserted.regroups (hw : doc.Linked) {l r : List NodeId} (h : Inserted doc d p id l r)
    (hid : doc.Loose id) (hlr : doc.children p = l ++ r) (hg : G doc id p) (q : NodeId) :
    Regroups G doc d q := by
  have hchildren := h.children_eq hw hid.lt_size hid.1 hlr q
  by_cases hq : q = p
  · subst hq
    exact .put id l r (hchildren.trans (if_pos rfl)) hlr hg
  · rw [if_neg hq] at hchildren
    exact .fewer (hchildren ▸ List.Sublist.refl _)

/-- **The nodes that stay keep their order.** -/
theorem Relink.regroups (h : Relink G doc d) (hw : doc.Linked) (q : NodeId) :
    Regroups G doc d q := by
  have same {d : Document} (h : d.children q = doc.children q) : Regroups G doc d q :=
    .fewer (h ▸ List.Sublist.refl _)
  cases h with
  | same h => exact same (h.links.children hw q)
  | alloc h => exact same (children_alloc hw h q)
  | detach id =>
    refine .fewer ?_
    rw [hw.children_detach]
    exact filter_sublist
  | append hp hid hg =>
    exact (hw.inserted hp hid).1.regroups hw hid (append_nil _).symm hg q
  | before href hid hg =>
    obtain ⟨l, r, hlr, hi, -⟩ := (hw.inserted (hw.container _ _ href.1) hid).2 _ href
    exact hi.regroups hw hid hlr hg q
  | after href hid hg =>
    obtain ⟨l, r, hlr, -, hi⟩ := (hw.inserted (hw.container _ _ href.1) hid).2 _ href
    exact hi.regroups hw hid (by rw [hlr, append_assoc]; rfl) hg q
  | attr index hp hid hloose => exact same (hw.children_insertAttribute _ _ _ q)

end Xml.Document
