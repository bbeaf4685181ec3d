import Xml.Proofs.Trees.Building
import Xml.Proofs.Trees.Stack

/-!
# Documents from their own markup

A document whose trees are canonical is written, scanned and built again with the same trees
(`rebuilt_from_markup`). The scan tells no problem; all that building can find is a prefix that no
declaration in scope binds, and that does not change the tree.
-/

namespace Xml

open List

namespace Document

namespace Builder

variable {b : Builder} {P : Array ParseError → Prop}

/-! ## Problems met while building -/

/-- What can be said of the problems so far even if a prefix without a declaration is one more. -/
def KeptByUnbound (P : Array ParseError → Prop) : Prop :=
  ∀ errors e, e.problem.isUnboundPrefix = true → P errors → P (errors.push e)

theorem KeptByUnbound.resolve (hP : KeptByUnbound P) (h : P b.errors) {nsPrefix uri : String}
    {problem : Problem} (hp : problem.isUnboundPrefix = true) {b' : Builder}
    (heq : b.resolve nsPrefix problem = (uri, b')) : P b'.errors := by
  rw [Builder.resolve] at heq
  split at heq <;> cases heq
  · exact h
  · exact hP b.errors _ hp h

theorem KeptByUnbound.addAttribute (hP : KeptByUnbound P) (h : P b.errors) (element : NodeId)
    (name : String) (a : Attribute) : P (Builder.addAttribute element name b a).errors := by
  rw [Builder.addAttribute]
  split
  next uri b' heq =>
  show P b'.errors
  split at heq
  · exact hP.resolve h rfl heq
  · cases heq
    exact h

theorem KeptByUnbound.addAttributes (hP : KeptByUnbound P) (h : P b.errors) (element : NodeId)
    (name : String) (as : List Attribute) :
    P (as.foldl (Builder.addAttribute element name) b).errors := by
  induction as generalizing b with
  | nil => exact h
  | cons a as ih => exact ih (hP.addAttribute h element name a)

theorem KeptByUnbound.startElement (hP : KeptByUnbound P) (h : P b.errors) (name : String)
    (attributes : List Attribute) : P (b.startElement name attributes).errors := by
  unfold Builder.startElement
  extract_lets isDeclaration declarations scopes b₁
  split
  next uri b' heq =>
  have hb' : P b'.errors := by
    have hb₁ : P b₁.errors := h
    split at heq
    · exact hP.resolve hb₁ rfl heq
    · cases heq
      exact h
  have happend (node : Node) : P (b'.append node).2.errors := hb'
  exact hP.addAttributes (happend _) _ name _

/-- **Building finds no other problem** than those it is told of. -/
theorem KeptByUnbound.add (hP : KeptByUnbound P) (h : P b.errors) {event : Event}
    (he : ∀ e, event ≠ .error e) : P (b.add event).errors := by
  cases event with
  | startElement name attributes => exact hP.startElement h name attributes
  | characters text =>
    rw [Builder.add, characters]
    split <;> exact h
  | error e => exact absurd rfl (he e)
  | _ => exact h

/-- Nothing was noted but prefixes without a declaration. -/
def OnlyUnbound (b : Builder) : Prop :=
  ∀ e ∈ b.errors, e.problem.isUnboundPrefix = true

theorem OnlyUnbound.foldl (h : b.OnlyUnbound) {events : List Event}
    (he : ∀ e, Event.error e ∉ events) : (events.foldl Builder.add b).OnlyUnbound := by
  have hP : KeptByUnbound fun errors => ∀ e ∈ errors, e.problem.isUnboundPrefix = true := by
    intro errors e hunbound h e' he'
    rcases Array.mem_push.mp he' with he' | rfl
    · exact h e' he'
    · exact hunbound
  induction events generalizing b with
  | nil => exact h
  | cons event events ih =>
    refine ih (hP.add h fun e heq => he e (heq ▸ mem_cons_self)) fun e hm => ?_
    exact he e (mem_cons_of_mem _ hm)

theorem mem_errors_foldl {e : ParseError} (h : e ∈ b.errors) (events : List Event) :
    e ∈ (events.foldl Builder.add b).errors := by
  have hP : KeptByUnbound fun errors => e ∈ errors :=
    fun errors e' _ h => Array.mem_push_of_mem e' h
  induction events generalizing b with
  | nil => exact h
  | cons event events ih =>
    refine ih ?_
    by_cases he : ∃ e', event = .error e'
    · obtain ⟨e', rfl⟩ := he
      exact Array.mem_push_of_mem e' h
    · exact hP.add h fun e' heq => he ⟨e', heq⟩

/-- **Every problem that is told is noted.** -/
theorem mem_errors_of_told {events : List Event} {e : ParseError} (h : Event.error e ∈ events)
    (b : Builder) : e ∈ (events.foldl Builder.add b).errors := by
  obtain ⟨before, after, rfl⟩ := append_of_mem h
  rw [foldl_append, foldl_cons]
  exact mem_errors_foldl Array.mem_push_self after

end Builder

end Document

/-! ## Scanning and building together -/

namespace Tree

variable {t : Tree} {trees : List Tree}

theorem Canonical.error_notMem (h : t.Canonical) (e : ParseError) : Event.error e ∉ t.events := by
  induction h with
  | element tag separated hc ih =>
    rw [events, cons_append, mem_cons, mem_append, mem_flatMap]
    rintro (he | ⟨c, hm, he⟩ | he)
    · cases he
    · exact ih c hm he
    · cases mem_singleton.mp he
  | cdata hx he =>
    rw [events]
    split <;> simp
  | _ => simp [events]

theorem CanonicalDocument.separated (h : CanonicalDocument trees) : Separated trees :=
  separated_of_isText_eq_false fun t ht => isText_eq_false (h.top t ht)

end Tree

namespace Document

/-- **A document is rebuilt from its own markup.** If its links are in order and its trees are
canonical, scanning what it is written as succeeds without a problem, under any options, and building
from the events gives the same trees again. What building finds are prefixes without a declaration
at most. -/
theorem rebuilt_from_markup (doc : Document) (hw : doc.Linked) (ha : doc.Acyclic)
    (h : Tree.CanonicalDocument doc.trees) (i : Nat) (options : ParseOptions) (files : Files) :
    (scanText doc.markup.toList options files).fatal = none ∧
      (∀ e, Event.error e ∉ (scanText doc.markup.toList options files).events) ∧
      (ofEvents i (scanText doc.markup.toList options files).events).1.trees = doc.trees ∧
      ∀ e ∈ (ofEvents i (scanText doc.markup.toList options files).events).2,
        e.problem.isUnboundPrefix = true := by
  have herror : ∀ e, Event.error e ∉
      Event.startDocument :: doc.trees.flatMap Tree.events ++ [.endDocument] := by
    intro e hm
    simp only [List.cons_append, List.mem_cons, List.mem_append, List.mem_flatMap] at hm
    rcases hm with hm | ⟨t, ht, hm⟩ | hm | hm
    · cases hm
    · exact (h.canonical t ht).error_notMem e hm
    · cases hm
    · cases hm
  rw [toList_markup hw ha h.canonical, scanText_markup h options files]
  refine ⟨rfl, herror, trees_ofEvents i h.canonical h.separated, fun e he => ?_⟩
  have hinitial : (Builder.initial i).OnlyUnbound := fun e he => absurd he (Array.not_mem_empty e)
  exact hinitial.foldl herror e (Array.mem_toList_iff.mp he)

/-- A comment and an element with a declaration, an attribute and one of each other kind of node
below it. Quotes, line ends and the beginnings of terminators stand where they are allowed. -/
def noteTrees : List Tree :=
  [.comment "a - b>",
    .element "n:note" [⟨"n", "urn:\"n\""⟩, ⟨"", ""⟩] [⟨"key", "<&\t'\">"⟩]
      [.text "a < b ]]> c\r\n", .cdata "]] & <x>", .element "q:e" [] [] [],
        .instruction "go" "x ? y >"]]

theorem noteTrees_canonical : Tree.CanonicalDocument noteTrees := by
  have hname : ∀ name : String, Text.isName name.toList = true → Text.IsName name.toList :=
    fun name => (Text.isName_iff name.toList).mp
  have hchars : ∀ text : String, text.toList.all (fun c => Text.isXmlChar c.toNat) = true →
      Grammar.XmlChars text.toList := fun text => all_eq_true.mp
  have htag : Tree.CanonicalTag "n:note" [⟨"n", "urn:\"n\""⟩, ⟨"", ""⟩] [⟨"key", "<&\t'\">"⟩] := by
    refine ⟨hname _ (by decide), ?_, by decide, ?_, ?_, by decide, ?_⟩
    · exact forall_mem_cons.mpr
        ⟨.inr (hname _ (by decide)), forall_mem_singleton.mpr (.inl rfl)⟩
    · exact forall_mem_cons.mpr
        ⟨hchars _ (by decide), forall_mem_singleton.mpr (hchars _ (by decide))⟩
    · exact forall_mem_singleton.mpr ⟨hname _ (by decide), by decide⟩
    · exact forall_mem_singleton.mpr (hchars _ (by decide))
  have hempty : Tree.CanonicalTag "q:e" [] [] :=
    ⟨hname _ (by decide), forall_mem_nil _, nodup_nil, forall_mem_nil _,
      forall_mem_nil _, nodup_nil, forall_mem_nil _⟩
  refine ⟨?_, by decide, by decide⟩
  simp only [noteTrees, forall_mem_cons]
  refine ⟨.comment (hchars _ (by decide)) (by decide), .element htag ?_ ?_,
    forall_mem_nil _⟩
  · unfold Tree.Separated; decide
  · simp only [forall_mem_cons]
    refine ⟨.text (by decide) ?_, .cdata ?_ (by decide), .element hempty ?_ ?_,
      .instruction (hname _ (by decide)) (by decide) (by decide) (by decide),
      forall_mem_nil _⟩
    · exact hchars _ (by decide)
    · exact hchars _ (by decide)
    · exact .nil
    · exact forall_mem_nil _

/-- A document with these trees is written and read back. -/
theorem note_rebuilt_from_markup :
    ∃ doc : Document, doc.trees = noteTrees ∧
      (ofEvents 1 (scanText doc.markup.toList {} .none).events).1.trees =
        noteTrees := by
  let doc := (ofEvents 0 (.startDocument :: noteTrees.flatMap Tree.events ++ [.endDocument])).1
  obtain ⟨hw, ha, -⟩ : doc.Linked ∧ doc.Acyclic ∧ doc.kindOf root = some .document :=
    of_ofEvents_nodes rfl
  have htrees : doc.trees = noteTrees :=
    trees_ofEvents 0 noteTrees_canonical.canonical noteTrees_canonical.separated
  refine ⟨doc, htrees, ?_⟩
  have hback := rebuilt_from_markup doc hw ha (htrees ▸ noteTrees_canonical) 1 {} .none
  exact hback.2.2.1.trans htrees

end Document

end Xml
