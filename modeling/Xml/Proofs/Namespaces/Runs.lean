import Xml.Proofs.Namespaces.Reading

/-!
# Namespaces over runs

From a new document or one that was read, names keep the namespaces that they belong to through
every run, unless the document node is moved or an element becomes the document element whose names
depend on declarations outside of it (`namespaces_coherent_iff`). The last run of this module moves
a child out of an element that declares the default namespace, and leaves it in that namespace.
-/

namespace Xml.Document

variable {doc : Document}

theorem Initial.run_coherent_iff (h : Initial doc) (ops : List Operation) :
    (∀ before, before <+: ops →
        (run before doc).parentOf root = none ∧ (run before doc).Coherent) ↔
      ∀ before op, before ++ [op] <+: ops →
        ¬ (op.MovesDocumentNode (run before doc) ∨ op.InstallsStale (run before doc)) := by
  refine run_keeps_iff (P := fun d => d.parentOf root = none ∧ d.Coherent)
    (S := fun op d => op.MovesDocumentNode d ∨ op.InstallsStale d) ⟨h.free, h.coherent.2⟩
    (fun before op hb => ?_) ops
  obtain ⟨hw, hroot⟩ := h.run_linked before
  rw [run_append_singleton]
  exact op.coherent_apply_iff ⟨hw, hroot, hb.1⟩ hb.2

/-- **Namespaces along every run.** The document node stands above everything, and every element and
every attribute below it is stored with the namespace that the declarations in scope give its name,
exactly as long as the document node is not moved and no element becomes the document element that
is not self-contained. -/
theorem namespaces_coherent_iff (start : Document) (h : Initial start) (ops : List Operation) :
    (∀ before, before <+: ops →
        (run before start).parentOf root = none ∧ (run before start).Coherent) ↔
      ∀ before op, before ++ [op] <+: ops →
        ¬ op.MovesDocumentNode (run before start) ∧ ¬ op.InstallsStale (run before start) := by
  rw [h.run_coherent_iff ops]
  simp only [not_or]

/-- A child of an element that declares the default namespace becomes the document element. -/
def installChild : List Operation :=
  [.createElement "r", .setAttribute ⟨0, 1, .element⟩ "xmlns" "urn:d", .createElement "a",
    .setParent ⟨0, 2, .element⟩ ⟨0, 1, .element⟩, .setRoot ⟨0, 2, .element⟩]

theorem namespace_kept_by_installed_child :
    Initial (empty 0) ∧ (run installChild (empty 0)).uriOf 2 = "urn:d" ∧
      (run installChild (empty 0)).Belongs 2 "" ∧
      ∃ before op, before ++ [op] <+: installChild ∧ op.InstallsStale (run before (empty 0)) := by
  have hinit := Initial.new 0
  obtain ⟨hw, hroot⟩ := hinit.run_linked installChild
  have huri : (run installChild (empty 0)).uriOf 2 = "urn:d" := by decide
  have hbelow : (run installChild (empty 0)).Ancestor root 2 := .parent (by decide)
  have hkind : (run installChild (empty 0)).kindOf 2 = some .element := by decide
  have hname : qualifier? ((run installChild (empty 0)).nameOf 2) ≠ some "xmlns" := by decide
  have hscope : (run installChild (empty 0)).namespaceInScope 2 = "" := by decide
  have hbelongs := Rooted.belongs ⟨hw, hroot, by decide⟩ hbelow (.inl hkind)
  rw [hscope] at hbelongs
  have hstays (before : List Operation) (op : Operation) (hpre : before ++ [op] <+: installChild) :
      ¬ op.MovesDocumentNode (run before (empty 0)) := by
    rintro ⟨node, other, hop, -⟩
    have hmem : op ∈ installChild := hpre.subset (List.mem_append_right _ List.mem_cons_self)
    simp only [installChild, List.mem_cons, List.not_mem_nil, or_false] at hmem
    rcases hmem with rfl | rfl | rfl | rfl | rfl <;> rcases hop with hop | ⟨_, hop⟩ <;> cases hop
  refine ⟨hinit, huri, hbelongs, ?_⟩
  by_contra hno
  have hcoherent := (namespaces_coherent_iff _ hinit installChild).mpr fun before op hpre =>
    ⟨hstays before op hpre, fun hstale => hno ⟨before, op, hpre, hstale⟩⟩
  have hagrees := (hcoherent installChild (List.prefix_refl _)).2 2 hbelow (.inl hkind) hname
  rw [huri] at hagrees
  exact absurd (hagrees.unique hbelongs) (by decide)

end Xml.Document
