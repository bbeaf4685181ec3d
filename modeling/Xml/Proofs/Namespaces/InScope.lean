import Xml.Proofs.Namespaces.Reading

/-!
# The bindings in scope

Two ways to ask for the bindings in scope at an element: one prefix at a time, or all of them at
once. Both walk up from the element and take the first declaration of a prefix that they meet, so
they agree (`mem_inScope_iff`). The first looks at elements only, the second at every node on the
way; in a document that was read nothing but elements declares anything
(`Initial.onlyElementsDeclare`).
-/

namespace Xml.Document

open Scan List

variable {doc : Document} {id : NodeId} {nsPrefix uri : String}
  {found declarations : List NamespaceDecl} {d : NamespaceDecl}

/-! ## The declarations of one node -/

/-- No binding of the prefix is found yet. -/
def Unseen (nsPrefix : String) (found : List NamespaceDecl) : Prop :=
  ∀ f ∈ found, f.nsPrefix ≠ nsPrefix

def firstDeclared? (nsPrefix : String) (declarations : List NamespaceDecl) : Option NamespaceDecl :=
  declarations.find? (·.nsPrefix == nsPrefix)

theorem addDeclarations_cons (found declarations : List NamespaceDecl) (d : NamespaceDecl) :
    addDeclarations found (d :: declarations) =
      addDeclarations (if found.any (·.nsPrefix == d.nsPrefix) then found else found ++ [d])
        declarations := rfl

theorem unseen_iff : Unseen nsPrefix found ↔ found.any (·.nsPrefix == nsPrefix) = false := by
  rw [any_eq_false]
  simp only [Unseen, beq_iff_eq, ne_eq]

/-- A node adds its first declaration of each prefix that is not found yet. -/
theorem mem_addDeclarations :
    d ∈ addDeclarations found declarations ↔
      d ∈ found ∨ Unseen d.nsPrefix found ∧ firstDeclared? d.nsPrefix declarations = some d := by
  induction declarations generalizing found with
  | nil => simp [addDeclarations, firstDeclared?]
  | cons e declarations ih =>
    rw [addDeclarations_cons, firstDeclared?, find?_cons]
    by_cases he : e.nsPrefix = d.nsPrefix
    · rw [beq_iff_eq.mpr he]
      split
      · next hany =>
        have hseen : ¬ Unseen d.nsPrefix found := by
          rw [unseen_iff, ← he, hany]
          exact Bool.noConfusion
        rw [ih]
        simp [hseen]
      · next hany =>
        have hunseen : Unseen d.nsPrefix found := by
          rw [unseen_iff, ← he]
          exact Bool.eq_false_iff.mpr hany
        have hnot : ¬ Unseen d.nsPrefix (found ++ [e]) := fun h => h e (by simp) he
        rw [ih]
        simp [hnot, hunseen, eq_comm]
    · rw [beq_eq_false_iff_ne.mpr he]
      split
      · exact ih
      · have hunseen : Unseen d.nsPrefix (found ++ [e]) ↔ Unseen d.nsPrefix found := by
          simp [Unseen, or_imp, forall_and, he]
        have hne : d ≠ e := fun hd => he (hd ▸ rfl)
        rw [ih, hunseen, mem_append, mem_singleton]
        simp [hne, firstDeclared?]

theorem unseen_addDeclarations :
    Unseen nsPrefix (addDeclarations found declarations) ↔
      Unseen nsPrefix found ∧ firstDeclared? nsPrefix declarations = none := by
  constructor
  · intro h
    have hfound : Unseen nsPrefix found := fun f hf => h f (mem_addDeclarations.mpr (.inl hf))
    refine ⟨hfound, Option.eq_none_iff_forall_ne_some.mpr fun d hd => ?_⟩
    have hp : d.nsPrefix = nsPrefix := by simpa using find?_some hd
    exact h d (mem_addDeclarations.mpr (.inr ⟨hp ▸ hfound, hp ▸ hd⟩)) hp
  · rintro ⟨hfound, hnone⟩ f hf rfl
    rcases mem_addDeclarations.mp hf with hf | ⟨-, hf⟩
    · exact hfound f hf rfl
    · rw [hnone] at hf
      cases hf

theorem nodup_addDeclarations (h : (found.map (·.nsPrefix)).Nodup) :
    ((addDeclarations found declarations).map (·.nsPrefix)).Nodup := by
  induction declarations generalizing found with
  | nil => exact h
  | cons e declarations ih =>
    rw [addDeclarations_cons]
    split
    · exact ih h
    · next hany =>
      refine ih ?_
      have hunseen := unseen_iff.mpr (Bool.eq_false_iff.mpr hany)
      rw [map_append, map_singleton, nodup_append']
      refine ⟨h, nodup_singleton _, ?_⟩
      rw [disjoint_singleton]
      intro hm
      obtain ⟨f, hf, hp⟩ := mem_map.mp hm
      exact hunseen f hf hp

/-! ## The way up -/

/-- What a node declares, whatever its kind. -/
def declarationsAt (doc : Document) (id : NodeId) : List NamespaceDecl :=
  ((doc.get? id).map (·.declarations)).getD []

/-- The bindings that are found on a way up, with those that were found before. -/
def foundAlong (doc : Document) (found : List NamespaceDecl) (path : List NodeId) :
    List NamespaceDecl :=
  path.foldl (fun found a => addDeclarations found (doc.declarationsAt a)) found

theorem inScope_eq (doc : Document) (id : NodeId) :
    doc.inScope id = (doc.foundAlong [] (doc.lineage id)).filter fun d => !d.uri.isEmpty := rfl

/-- The walk finds the nearest declaration of each prefix that was not found before. -/
theorem mem_foundAlong {path : List NodeId} :
    d ∈ doc.foundAlong found path ↔ d ∈ found ∨ Unseen d.nsPrefix found ∧
      path.findSome? (fun a => firstDeclared? d.nsPrefix (doc.declarationsAt a)) = some d := by
  induction path generalizing found with
  | nil => simp [foundAlong]
  | cons a path ih =>
    show d ∈ doc.foundAlong (addDeclarations found (doc.declarationsAt a)) path ↔ _
    rw [ih, mem_addDeclarations, unseen_addDeclarations, findSome?_cons]
    cases hfirst : firstDeclared? d.nsPrefix (doc.declarationsAt a) with
    | none => simp
    | some e => simp

theorem nodup_foundAlong {path : List NodeId} (h : (found.map (·.nsPrefix)).Nodup) :
    ((doc.foundAlong found path).map (·.nsPrefix)).Nodup := by
  induction path generalizing found with
  | nil => exact h
  | cons a path ih => exact ih (nodup_addDeclarations h)

/-! ## One prefix and all of them -/

/-- Nothing but elements declares namespaces. -/
def OnlyElementsDeclare (doc : Document) : Prop :=
  ∀ x l, doc.labelOf x = some l → l.kind ≠ .element → l.declarations = []

theorem OnlyElementsDeclare.declared?_eq (h : doc.OnlyElementsDeclare) (nsPrefix : String)
    (x : NodeId) :
    doc.declared? nsPrefix x = (firstDeclared? nsPrefix (doc.declarationsAt x)).map (·.uri) := by
  rw [declared?, declarationsAt]
  cases hn : doc.get? x with
  | none => rfl
  | some n =>
    dsimp only
    split
    · rfl
    · next hk =>
      have hnone : n.declarations = [] :=
        h x n.label (by rw [labelOf, hn]; rfl) fun he => hk (beq_iff_eq.mpr he)
      rw [Option.map_some, Option.getD_some, hnone]
      rfl

/-- **The list of bindings has a prefix with what looking it up finds**, if that is a namespace. -/
theorem mem_inScope_iff (h : doc.OnlyElementsDeclare) (hxml : nsPrefix ≠ "xml") :
    ⟨nsPrefix, uri⟩ ∈ doc.inScope id ↔
      doc.lookupNamespace? id nsPrefix = some uri ∧ uri ≠ "" := by
  have hlookup : doc.lookupNamespace? id nsPrefix = ((doc.lineage id).findSome? fun a =>
      firstDeclared? nsPrefix (doc.declarationsAt a)).map (·.uri) := by
    rw [lookupNamespace?, if_neg (by simpa using hxml), map_findSome?]
    congr 1
    funext a
    exact h.declared?_eq nsPrefix a
  rw [inScope_eq, mem_filter, mem_foundAlong, hlookup]
  cases hfound : (doc.lineage id).findSome? fun a =>
      firstDeclared? nsPrefix (doc.declarationsAt a) with
  | none => simp
  | some d =>
    obtain ⟨a, -, hd⟩ := exists_of_findSome?_eq_some hfound
    have hp : d.nsPrefix = nsPrefix := by simpa using find?_some hd
    subst hp
    cases d
    simp [Unseen]

theorem nodup_inScope (doc : Document) (id : NodeId) :
    ((doc.inScope id).map (·.nsPrefix)).Nodup := by
  rw [inScope_eq]
  have hfound : ((doc.foundAlong [] (doc.lineage id)).map (·.nsPrefix)).Nodup :=
    nodup_foundAlong nodup_nil
  exact hfound.sublist (filter_sublist.map _)

/-! ## Reading -/

namespace Builder

variable {i : Nat} {b : Builder} {e : Event}

theorem onlyElementsDeclare_initial (i : Nat) : (initial i).doc.OnlyElementsDeclare := by
  intro x l hl hk
  obtain ⟨n, hn, rfl⟩ := Option.map_eq_some_iff.mp hl
  rw [get?, nodes_initial, ← get?, get?_empty] at hn
  split at hn <;> cases hn
  rfl

/-- **Every event keeps declarations to elements.** -/
theorem Grown.onlyElementsDeclare_add (hg : Grown i b) (h : b.doc.OnlyElementsDeclare)
    (e : Event) : (b.add e).doc.OnlyElementsDeclare := by
  intro x l hl hk
  cases hg.tells e with
  | kept he labels places opened scopes =>
    rw [labels.labelOf] at hl
    exact h x l hl hk
  | @child _ _ node he hgain opened scopes hnone =>
    rw [hgain.labelOf] at hl
    split at hl
    · cases hl
      exact hnone
    · exact h x l hl hk
  | start hinside helement hattributes opened scopes =>
    by_cases hlt : x < b.doc.size + 1
    · rw [(hattributes.old.2 x (by rw [helement.size]; exact hlt)).1, helement.labelOf] at hl
      split at hl
      · cases hl
        exact absurd rfl hk
      · exact h x l hl hk
    · obtain ⟨n, hn, -⟩ := Option.map_eq_some_iff.mp hl
      have hle : b.doc.size + 1 ≤ x := Nat.not_lt.mp hlt
      obtain ⟨node, hmem, hlabel⟩ :=
        hattributes.label (by rw [helement.size]; exact hle) (lt_size_of_get? hn)
      obtain ⟨a, -, rfl⟩ := mem_map.mp hmem
      cases hlabel.symm.trans hl
      rfl
  | close hdoc opened scopes =>
    rw [hdoc] at hl
    exact h x l hl hk

end Builder

theorem Initial.onlyElementsDeclare (h : Initial doc) : doc.OnlyElementsDeclare := by
  obtain ⟨events, b, hb, hnodes⟩ := h.built (P := fun _ b => b.doc.OnlyElementsDeclare)
    Builder.onlyElementsDeclare_initial fun i before e b hr hb =>
      hr.grown.onlyElementsDeclare_add hb e
  intro x l hl hk
  rw [labelOf, get?, hnodes] at hl
  exact hb x l hl hk

end Xml.Document
