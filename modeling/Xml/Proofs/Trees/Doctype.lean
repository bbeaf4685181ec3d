import Xml.Proofs.Scan.Doctype
import Xml.Proofs.Steps.Reading
import Xml.Proofs.Trees.Writing

/-!
# The document type of a document

A document keeps the document type that a scan told, and has one node to say where it stands
(`hasDoctype_of_told`). What is written for that node is `Doctype.text`, so whether it can be read
again is a matter of its quotes (`doctype_markup_survives_iff`).
-/

namespace Xml.Document

open Scan Grammar

variable {doc : Document} {d : Doctype} {id : NodeId} {i : Nat}

/-- The document was read with the document type `d`, and `id` is the node for it. -/
structure HasDoctype (doc : Document) (d : Doctype) (id : NodeId) : Prop where
  doctype : doc.doctype = some d
  kindOf : ∀ x, doc.kindOf x = some .doctype ↔ x = id
  nameOf : doc.nameOf id = d.name

/-! ## Reading -/

namespace Builder

variable {b : Builder} {before events : List Event} {e : Event}

theorem doctype_append (b : Builder) (node : Node) :
    (b.append node).2.doc.doctype = b.doc.doctype :=
  (doctype_appendChild _ _ _).trans (doctype_alloc b.doc node)

theorem doctype_startElement (b : Builder) (name : String) (attributes : List Attribute) :
    (b.startElement name attributes).doc.doctype = b.doc.doctype := by
  have fold (element : NodeId) (as : List Attribute) (b : Builder) :
      (as.foldl (addAttribute element name) b).doc.doctype = b.doc.doctype := by
    induction as generalizing b with
    | nil => rfl
    | cons a as ih =>
      obtain ⟨errors, heq⟩ := addAttribute_eq element name b a
      rw [List.foldl_cons, ih, heq]
      simp only [doctype_appendAttribute, doctype_alloc]
  obtain ⟨errors, heq⟩ := startElement_eq b name attributes
  rw [heq]
  exact (fold _ _ _).trans (doctype_append _ _)

theorem doctype_add (he : isDoctype e = false) : (b.add e).doc.doctype = b.doc.doctype := by
  cases e with
  | startElement name attributes => exact doctype_startElement b name attributes
  | characters text =>
    rw [add, characters]
    split
    · rfl
    · exact doctype_append b _
  | startCData => exact doctype_append b { kind := .cdata }
  | comment text => exact doctype_append b _
  | instruction target data => exact doctype_append b _
  | entityReference name replacement => exact doctype_append b _
  | doctype d => cases he
  | _ => rfl

/-- Only a document type makes a node of its kind. -/
theorem Tells.kindOf_doctype {b' : Builder} (h : Tells b e b') (he : isDoctype e = false)
    (x : NodeId) : b'.doc.kindOf x = some .doctype ↔ b.doc.kindOf x = some .doctype := by
  rcases Nat.lt_or_ge x b.doc.size with hx | hx
  · rw [kindOf_eq, kindOf_eq, h.labelOf hx]
  · refine iff_of_false (fun hk => ?_) fun hk => absurd (lt_size_of_kindOf hk) (Nat.not_lt.mpr hx)
    rcases h.kindOf_new hx hk with hkind | hkind | hkind
    · cases e <;> cases hkind
      cases he
    · cases hkind
    · cases hkind

/-- What the events have told of a document type is what the document has. -/
def KeepsDoctype (events : List Event) (doc : Document) : Prop :=
  (∀ e ∈ events, isDoctype e = false) ∧ (∀ x, doc.kindOf x ≠ some .doctype) ∨
    ∃ d id, Event.doctype d ∈ events ∧ doc.HasDoctype d id

theorem KeepsDoctype.initial (i : Nat) : KeepsDoctype [] (Builder.initial i).doc := by
  refine .inl ⟨List.forall_mem_nil _, fun x hk => ?_⟩
  rw [kindOf, get?, nodes_initial, ← get?, get?_empty] at hk
  split at hk <;> cases hk

/-- **Every event keeps it**, if the events before it allow it. -/
theorem KeepsDoctype.add (hr : Reads i before e b) (h : KeepsDoctype before b.doc) :
    KeepsDoctype (before ++ [e]) (b.add e).doc := by
  have htells := hr.grown.tells e
  cases he : isDoctype e with
  | false =>
    refine h.imp (fun ⟨hevents, hnone⟩ => ⟨fun e' he' => ?_, fun x hk => ?_⟩)
      fun ⟨d, id, hd, hkeeps⟩ => ⟨d, id, List.mem_append_left _ hd, ?_⟩
    · rcases List.mem_append.mp he' with he' | he'
      · exact hevents e' he'
      · rw [List.mem_singleton.mp he', he]
    · exact hnone x ((htells.kindOf_doctype he x).mp hk)
    · have hid : id < b.doc.size := lt_size_of_kindOf ((hkeeps.kindOf id).mpr rfl)
      refine ⟨(doctype_add he).trans hkeeps.doctype,
        fun x => (htells.kindOf_doctype he x).trans (hkeeps.kindOf x), ?_⟩
      rw [nameOf_eq, htells.labelOf hid, ← nameOf_eq, hkeeps.nameOf]
  | true =>
    cases e with
    | doctype d =>
      -- no document type was told before, so the new node is the first of its kind
      have hnone : ∀ x, b.doc.kindOf x ≠ some .doctype := by
        rcases h with ⟨-, hnone⟩ | ⟨d', id, hd', -⟩
        · exact hnone
        · cases (hr.allowed _ hd').1
      have happend : Gained b.doc (b.append { kind := .doctype, name := d.name }).2.doc
          { kind := .doctype, name := d.name } b.current :=
        hr.grown.gained rfl (by simp)
      have hgain := happend.of_nodes_eq (e := (b.add (.doctype d)).doc) rfl
      refine .inr ⟨d, b.doc.size, List.mem_append_right _ List.mem_cons_self, rfl, fun x => ?_, ?_⟩
      · rw [hgain.kindOf]
        split
        · next hx => exact iff_of_true rfl hx
        · next hx => exact iff_of_false (hnone x) hx
      · rw [hgain.nameOf, if_pos rfl]
    | _ => cases he

end Builder

/-- **A document has the document type that the scan it is read from tells.** -/
theorem hasDoctype_of_told {text : List Char} {options : ParseOptions} {files : Files}
    {recover : Bool} (h : ofOutcome i (scanText text options files) recover = .ok doc)
    (hd : Event.doctype d ∈ (scanText text options files).events) :
    ∃ id, doc.HasDoctype d id := by
  obtain ⟨-, hnodes, hdoctype, -⟩ := ofOutcome_eq_ok h
  have hread := readable_scanText text options files
  obtain ⟨hkeeps, -⟩ := built_of_readable (P := fun events b => Builder.KeepsDoctype events b.doc)
    (Builder.KeepsDoctype.initial i) (fun before e b hr hb => hb.add hr) hread
  rcases hkeeps with ⟨hnone, -⟩ | ⟨d', id, hd', hhas⟩
  · cases hnone _ hd
  · obtain rfl := hread.allowed.doctype_unique hd hd'
    have hget (x : NodeId) : doc.get? x = ((scanText text options files).events.foldl Builder.add
        (Builder.initial i)).doc.get? x := by
      rw [get?, hnodes]
      rfl
    refine ⟨id, hdoctype.trans hhas.doctype, fun x => ?_, ?_⟩
    · rw [kindOf, hget]
      exact hhas.kindOf x
    · rw [nameOf, hget]
      exact hhas.nameOf

/-! ## Writing -/

theorem HasDoctype.toList_nodeMarkup (h : doc.HasDoctype d id) :
    (doc.nodeMarkup id).toList = "<!DOCTYPE".toList ++ d.text := by
  have hk := (h.kindOf id).mpr rfl
  obtain ⟨node, hn⟩ := exists_get? (lt_size_of_kindOf hk)
  have hkind : node.kind = .doctype := by simpa [Document.kindOf, hn] using hk
  have hname : node.name = d.name := by simpa [Document.nameOf, hn] using h.nameOf
  rw [nodeMarkup_leaf hn (by simp [hkind]) (by simp [hkind]), leafMarkup, hkind]
  simp [h.doctype, hname, Doctype.toList_doctypeTail, Doctype.text]

/-- The scan comes to its end and tells the document type `d`, with no error if `first` has none. -/
def Retells (d : Doctype) (first outcome : Outcome) : Prop :=
  outcome.fatal = none ∧ Event.doctype d ∈ outcome.events ∧
    ((∀ e, Event.error e ∉ first.events) → ∀ e, Event.error e ∉ outcome.events)

/-- **Which document types survive being written.** In a document that was read with the document
type `d` there is one node for it. A scan of what is written for that node, with an element behind
it, tells `d` again, exactly if the identifiers of `d` can stand in double quotes. -/
theorem doctype_markup_survives_iff (i : Nat) (text : List Char) (options : ParseOptions)
    (files : Files) (recover : Bool) (doc : Document) (d : Doctype)
    (h : ofOutcome i (scanText text options files) recover = .ok doc)
    (hd : Event.doctype d ∈ (scanText text options files).events) :
    ∃ id, (∀ x, doc.kindOf x = some .doctype ↔ x = id) ∧
      ∀ before element after, Misc before → Element element → Misc after →
        ∀ options' files', Retells d (scanText text options files)
          (scanText ((doc.nodeMarkup id).toList ++ (before ++ element ++ after)) options' files') ↔
            d.Quotable := by
  obtain ⟨id, hhas⟩ := hasDoctype_of_told h hd
  obtain ⟨hlegible, hsound⟩ := legible_of_told hd
  refine ⟨id, hhas.kindOf, fun before element after hb he ha options' files' => ?_⟩
  have hrest : Derives [] false (before ++ element ++ after) :=
    derives_iff_misc.mpr ⟨before, element, after, hb, he, ha, rfl⟩
  rw [hhas.toList_nodeMarkup, List.append_assoc]
  exact survives_iff hlegible hsound hrest

/-- A system identifier in single quotes that holds a double one. -/
def quotedText : List Char :=
  "<!DOCTYPE r SYSTEM 'a\"b'><r/>".toList

def quotedDoctype : Doctype :=
  { name := "r", systemId := some "a\"b" }

theorem quoted_doctype_lost_in_markup :
    ∃ doc id, ofOutcome 0 (scanText quotedText {} .none) true = .ok doc ∧
      Event.doctype quotedDoctype ∈ (scanText quotedText {} .none).events ∧
      doc.kindOf id = some .doctype ∧
      ¬ Retells quotedDoctype (scanText quotedText {} .none)
        (scanText ((doc.nodeMarkup id).toList ++ "<r/>".toList) {} .none) := by
  have hread : readDoctype " r SYSTEM 'a\"b'><r/>".toList = .ok (quotedDoctype, "<r/>".toList) := by
    decide +kernel
  have hname : Text.IsName ['r'] := (Text.isName_iff ['r']).mp (by decide)
  have helement : Element "<r/>".toList :=
    .empty (.mk hname .nil List.nodup_nil (List.forall_mem_nil _) (List.forall_mem_nil _))
  have hrest : Derives [] false "<r/>".toList :=
    derives_iff_misc.mpr ⟨[], _, [], .nil, helement, .nil, rfl⟩
  have hscan : (scanText quotedText {} .none).fatal = none ∧ _ ∧
      Event.doctype quotedDoctype ∈ (scanText quotedText {} .none).events :=
    scanText_of_doctype hread hrest
  obtain ⟨doc, hbuilt⟩ : ∃ doc, ofOutcome 0 (scanText quotedText {} .none) true = .ok doc := by
    rw [ofOutcome, hscan.1]
    exact ⟨_, rfl⟩
  obtain ⟨id, hid, hsurvives⟩ := doctype_markup_survives_iff 0 quotedText {} .none true doc
    quotedDoctype hbuilt hscan.2.2
  refine ⟨doc, id, hbuilt, hscan.2.2, (hid id).mpr rfl, fun hretells => ?_⟩
  have hquotable := (hsurvives [] _ [] .nil helement .nil {} .none).mp (by simpa using hretells)
  exact hquotable.2 _ rfl (by decide)

end Xml.Document
