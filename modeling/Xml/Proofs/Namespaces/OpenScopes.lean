import Xml.Proofs.Links.Reading
import Xml.Proofs.Trees.Spelling

/-!
# Scopes that are open

While a document is read, the open scopes know what the elements around have declared. Opening a
scope puts its declarations in front of the others, closing it takes them away again
(`pop_scopesInside`). Of several declarations of a prefix in one tag the last one counts for the
scopes but the first one for the document. That makes no difference to names: the prefix of a name
has no colon, and a tag that names its attributes once declares such a prefix once
(`declarationsOf_unique`).
-/

namespace Xml

open Namespace List

/-! ## Prefixes -/

/-- The prefix of a name ends before its first colon. -/
theorem not_mem_of_qualifier? {name nsPrefix : String} (h : qualifier? name = some nsPrefix) :
    ':' ∉ nsPrefix.toList := by
  rw [qualifier?, QName.ofString] at h
  split at h
  · split at h
    · cases h
    · cases h
      rw [String.toList_ofList]
      intro hm
      have hno := mem_takeWhile_imp hm
      simp at hno
  · cases h

/-- An attribute that declares a namespace is written as the declaration, or has no prefix to
declare. -/
theorem exists_attribute_eq {a : Attribute} (h : isNamespaceDeclaration a.name = true) :
    (∃ d : NamespaceDecl, d.attribute = a) ∨ a.name = "xmlns:" := by
  obtain ⟨name, value⟩ := a
  rw [isNamespaceDeclaration, Bool.or_eq_true, beq_iff_eq, isPrefixOf_iff_prefix] at h
  rcases h with rfl | ⟨rest, hrest⟩
  · exact .inl ⟨⟨"", value⟩, rfl⟩
  · have hname : name = "xmlns:" ++ String.ofList rest := by
      rw [← String.toList_inj, toList_xmlns, String.toList_ofList, ← hrest]
      rfl
    by_cases hempty : String.ofList rest = ""
    · rw [hempty, String.append_empty] at hname
      exact .inr hname
    · refine .inl ⟨⟨String.ofList rest, value⟩, ?_⟩
      rw [NamespaceDecl.attribute, if_neg (by rwa [String.isEmpty_iff]), hname]

/-- An attribute that declares a prefix without a colon is told by what it declares. -/
theorem attribute_declarationOf {a : Attribute} (h : isNamespaceDeclaration a.name = true)
    (hcolon : ':' ∉ (Document.Builder.declarationOf a).nsPrefix.toList) :
    (Document.Builder.declarationOf a).attribute = a := by
  rcases exists_attribute_eq h with ⟨d, rfl⟩ | hname
  · rw [declarationOf_attribute]
  · -- the name "xmlns:" has no local part, so it declares itself as a prefix
    rw [Document.Builder.declarationOf, hname] at hcolon
    have hmem : ':' ∈ (if ("xmlns:" == "xmlns") = true then "" else localName "xmlns:").toList := by
      decide
    exact absurd hmem hcolon

namespace Document.Builder

/-- **A tag that names its attributes once declares a prefix without a colon once.** -/
theorem declarationsOf_unique {attributes : List Attribute}
    (hn : (attributes.map (·.name)).Nodup) {d d' : NamespaceDecl}
    (hd : d ∈ declarationsOf attributes) (hd' : d' ∈ declarationsOf attributes)
    (hcolon : ':' ∉ d.nsPrefix.toList) (hsame : d.nsPrefix = d'.nsPrefix) : d = d' := by
  obtain ⟨a, ha, rfl⟩ := mem_map.mp hd
  obtain ⟨a', ha', rfl⟩ := mem_map.mp hd'
  obtain ⟨hmem, hdecl⟩ := mem_filter.mp ha
  obtain ⟨hmem', hdecl'⟩ := mem_filter.mp ha'
  have hname : a.name = a'.name := by
    rw [← attribute_declarationOf hdecl hcolon, ← attribute_declarationOf hdecl' (hsame ▸ hcolon),
      NamespaceDecl.attribute, NamespaceDecl.attribute, hsame]
  rw [inj_on_of_nodup_map hn hmem hmem' hname]

/-! ## Scopes -/

variable {s : Scopes} {nsPrefix uri : String}

/-- The first and the last one of a kind are the same where there is at most one. -/
theorem find?_reverse_eq {α : Type} {test : α → Bool} {l : List α}
    (h : ∀ a ∈ l, ∀ b ∈ l, test a = true → test b = true → a = b) :
    l.reverse.find? test = l.find? test := by
  cases hfind : l.find? test with
  | none =>
    rw [find?_eq_none] at hfind ⊢
    exact fun a ha => hfind a (mem_reverse.mp ha)
  | some a =>
    have ha := mem_of_find?_eq_some hfind
    have hsome : (l.reverse.find? test).isSome = true :=
      find?_isSome.mpr ⟨a, mem_reverse.mpr ha, find?_some hfind⟩
    obtain ⟨b, hb⟩ := Option.isSome_iff_exists.mp hsome
    rw [hb, h b (mem_reverse.mp (mem_of_find?_eq_some hb)) a ha (find?_some hb)
      (find?_some hfind)]

theorem resolve_declare (s : Scopes) (declared uri : String) (hne : nsPrefix ≠ "xml")
    (hne' : nsPrefix ≠ "xmlns") :
    (s.declare declared uri).resolve nsPrefix =
      if declared = nsPrefix then some uri else s.resolve nsPrefix := by
  rw [Scopes.declare]
  split
  · next hfixed =>
    have hdiff : declared ≠ nsPrefix := by
      rintro rfl
      rw [Bool.or_eq_true, beq_iff_eq, beq_iff_eq] at hfixed
      exact hfixed.elim hne hne'
    rw [if_neg hdiff]
  · rw [Scopes.resolve, find?_cons]
    by_cases hsame : declared = nsPrefix
    · rw [if_pos hsame, beq_iff_eq.mpr hsame]
      rfl
    · rw [if_neg hsame, beq_eq_false_iff_ne.mpr hsame]
      rfl

theorem resolve_foldl_declare (ds : List NamespaceDecl) (s : Scopes) (hne : nsPrefix ≠ "xml")
    (hne' : nsPrefix ≠ "xmlns") :
    (ds.foldl (fun s d => s.declare d.nsPrefix d.uri) s).resolve nsPrefix =
      ((ds.reverse.find? (·.nsPrefix == nsPrefix)).map (·.uri)).or (s.resolve nsPrefix) := by
  induction ds generalizing s with
  | nil => rfl
  | cons d ds ih =>
    rw [foldl_cons, ih, resolve_declare s _ _ hne hne', reverse_cons, find?_append]
    cases ds.reverse.find? (·.nsPrefix == nsPrefix) with
    | some found => rfl
    | none => by_cases hsame : d.nsPrefix = nsPrefix <;> simp [hsame]

theorem resolve_fixed_foldl_declare (hfixed : nsPrefix = "xml" ∨ nsPrefix = "xmlns")
    (ds : List NamespaceDecl) (s : Scopes) :
    (ds.foldl (fun s d => s.declare d.nsPrefix d.uri) s).resolve nsPrefix =
      s.resolve nsPrefix := by
  induction ds generalizing s with
  | nil => rfl
  | cons d ds ih =>
    rw [foldl_cons, ih, Scopes.declare]
    split
    · rfl
    · next hother =>
      have hne : d.nsPrefix ≠ nsPrefix := by
        rintro rfl
        rcases hfixed with he | he <;> simp [he] at hother
      rw [Scopes.resolve, find?_cons, beq_eq_false_iff_ne.mpr hne]
      rfl

theorem resolve_scopesInside {ds : List NamespaceDecl}
    (hunique : ∀ d ∈ ds, ∀ d' ∈ ds, ':' ∉ d.nsPrefix.toList → d.nsPrefix = d'.nsPrefix → d = d')
    (hcolon : ':' ∉ nsPrefix.toList) (hne : nsPrefix ≠ "xml") (hne' : nsPrefix ≠ "xmlns") :
    (scopesInside s ds).resolve nsPrefix =
      ((ds.find? (·.nsPrefix == nsPrefix)).map (·.uri)).or (s.resolve nsPrefix) := by
  have hone : ds.reverse.find? (·.nsPrefix == nsPrefix) = ds.find? (·.nsPrefix == nsPrefix) := by
    refine find?_reverse_eq fun d hd d' hd' he he' => ?_
    rw [beq_iff_eq] at he he'
    exact hunique d hd d' hd' (he ▸ hcolon) (he.trans he'.symm)
  rw [scopesInside, resolve_foldl_declare ds _ hne hne', hone]
  rfl

/-- Declaring puts bindings of the innermost scope in front. -/
theorem foldl_declare_eq (ds : List NamespaceDecl) (s : Scopes) :
    ∃ new, ds.foldl (fun s d => s.declare d.nsPrefix d.uri) s = ⟨new ++ s.bindings, s.depth⟩ ∧
      ∀ b ∈ new, b.depth = s.depth := by
  induction ds generalizing s with
  | nil => exact ⟨[], rfl, forall_mem_nil _⟩
  | cons d ds ih =>
    rw [foldl_cons]
    obtain ⟨new, heq, hnew⟩ := ih (s.declare d.nsPrefix d.uri)
    rw [heq]
    rw [Scopes.declare] at hnew ⊢
    split at hnew
    · next hfixed =>
      rw [if_pos hfixed]
      exact ⟨new, rfl, hnew⟩
    · next hfixed =>
      rw [if_neg hfixed]
      refine ⟨new ++ [⟨d.nsPrefix, d.uri, s.depth⟩], ?_, ?_⟩
      · rw [append_assoc]
        rfl
      · exact forall_mem_append.mpr ⟨hnew, forall_mem_singleton.mpr rfl⟩

/-- No binding is deeper than the innermost scope. -/
def Leveled (s : Scopes) : Prop :=
  ∀ b ∈ s.bindings, b.depth ≤ s.depth

theorem Leveled.scopesInside (h : Leveled s) (ds : List NamespaceDecl) :
    Leveled (scopesInside s ds) := by
  obtain ⟨new, heq, hnew⟩ := foldl_declare_eq ds s.push
  rw [Leveled, Builder.scopesInside, heq]
  refine forall_mem_append.mpr ⟨fun b hb => Nat.le_of_eq (hnew b hb), fun b hb => ?_⟩
  exact Nat.le_succ_of_le (h b hb)

/-- **Closing a scope gives back the scopes around it.** -/
theorem Leveled.pop_scopesInside (h : Leveled s) (ds : List NamespaceDecl) :
    (Builder.scopesInside s ds).pop = s := by
  obtain ⟨new, heq, hnew⟩ := foldl_declare_eq ds s.push
  -- the bindings around are less deep than the scope that is closed, so dropping stops there
  have hold : s.bindings.dropWhile (fun b => decide (s.depth + 1 ≤ b.depth)) = s.bindings := by
    cases hb : s.bindings with
    | nil => rfl
    | cons b rest =>
      have hle := h b (hb ▸ mem_cons_self)
      rw [dropWhile_cons_of_neg]
      simpa using Nat.lt_succ_of_le hle
  have hdrop : (new ++ s.bindings).dropWhile (fun b => decide (s.depth + 1 ≤ b.depth)) =
      s.bindings := by
    rw [dropWhile_append_of_pos, hold]
    intro b hb
    exact decide_eq_true (Nat.le_of_eq (hnew b hb).symm)
  rw [Builder.scopesInside, heq, Scopes.pop]
  exact congrArg (Scopes.mk · s.depth) hdrop

end Document.Builder

end Xml
