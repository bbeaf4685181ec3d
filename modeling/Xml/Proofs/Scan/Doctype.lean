import Xml.Document.Markup
import Xml.Proofs.Scan.Acceptance
import Xml.Proofs.Scan.Readable

/-!
# Document types, written and read again

A document type is written with double quotes around its identifiers and with its internal subset as
it is. Everything that was read can be written so, but for an identifier that came in single quotes
and holds a double one: `readDoctype_written` and `quotable_of_readDoctype` are the two directions.
`survives_iff` says the same of whole scans.
-/

namespace Xml

open Text List

namespace Doctype

/-- The identifiers can stand in double quotes. -/
def Quotable (d : Doctype) : Prop :=
  (∀ id ∈ d.publicId, '"' ∉ id.toList) ∧ ∀ id ∈ d.systemId, '"' ∉ id.toList

/-- What every document type that is read has: a name, no public identifier without a system
identifier, and a subset that ends where its `]` is. -/
structure Legible (d : Doctype) : Prop where
  name : IsName d.name.toList
  system : d.publicId.isSome = true → d.systemId.isSome = true
  subset : ∀ subset ∈ d.subset, Declarations.IsSubset subset.toList

def identifierText (d : Doctype) : List Char :=
  match d.publicId, d.systemId with
  | some p, some s => " PUBLIC \"".toList ++ p.toList ++ "\" \"".toList ++ s.toList ++ ['"']
  | none, some s => " SYSTEM \"".toList ++ s.toList ++ ['"']
  | _, none => []

def subsetText (d : Doctype) : List Char :=
  match d.subset with
  | some subset => " [".toList ++ subset.toList ++ [']']
  | none => []

/-- A document type as it is written, behind the keyword. -/
def text (d : Doctype) : List Char :=
  ' ' :: d.name.toList ++ d.identifierText ++ d.subsetText ++ ['>']

theorem toList_doctypeTail (d : Doctype) :
    (Document.doctypeTail d).toList = d.identifierText ++ d.subsetText := by
  obtain ⟨name, publicId, systemId, subset⟩ := d
  cases publicId <;> cases systemId <;> cases subset <;>
    simp [Document.doctypeTail, identifierText, subsetText]

end Doctype

namespace Scan

variable {d : Doctype} {text rest tail : List Char}

/-! ## Readers -/

theorem readExternalId_system {p s : Option String}
    (h : readExternalId text = .ok ((p, s), rest)) (hp : p.isSome = true) : s.isSome = true := by
  rw [readExternalId] at h
  split at h
  · split at h <;> cases h
    rfl
  · split at h
    · split at h
      · split at h <;> cases h
        rfl
      · cases h
    · cases h
      exact hp

theorem readDoctype_eq_ok_iff :
    readDoctype text = .ok (d, rest) ↔ startsBlank text = true ∧ ∃ after₁ after₂,
      readName? (skipBlanks text) = some (d.name.toList, after₁) ∧
      readExternalId (skipBlanks after₁) = .ok ((d.publicId, d.systemId), after₂) ∧
      readSubset (skipBlanks after₂) = .ok (d.subset.map String.toList, '>' :: rest) := by
  constructor
  · intro h
    rw [readDoctype] at h
    split at h
    · next hb =>
      split at h
      · cases h
      · next name after₁ hn =>
        split at h
        · cases h
        · next publicId systemId after₂ he =>
          split at h
          · cases h
          · next subset after₃ hs =>
            split at h
            · cases h
              refine ⟨hb, after₁, after₂, by rwa [String.toList_ofList], he, ?_⟩
              rw [hs, Option.map_map]
              simp only [Function.comp_def, String.toList_ofList, Option.map_id']
            · cases h
    · cases h
  · rintro ⟨hb, after₁, after₂, hn, he, hs⟩
    rw [readDoctype, if_pos hb]
    simp only [hn, he, hs, String.ofList_toList, Option.map_map, Function.comp_def, Option.map_id']

theorem isSubset_of_readSubset {subset : List Char}
    (h : readSubset text = .ok (some subset, rest)) : Declarations.IsSubset subset := by
  rw [readSubset.eq_def] at h
  split at h
  · split at h
    · next hs =>
      cases h
      exact (Declarations.splitSubset?_eq_some_iff.mp hs).2
    · cases h
  · cases h

theorem legible_of_readDoctype (h : readDoctype text = .ok (d, rest)) : d.Legible := by
  obtain ⟨-, after₁, after₂, hn, he, hs⟩ := readDoctype_eq_ok_iff.mp h
  refine ⟨(readName?_eq_some_iff.mp hn).2.1, readExternalId_system he, fun subset hsubset => ?_⟩
  rw [Option.mem_def.mp hsubset] at hs
  exact isSubset_of_readSubset hs

theorem skipBlanks_subsetText (d : Doctype) (rest : List Char) :
    ∃ c after, skipBlanks (d.subsetText ++ '>' :: rest) = c :: after ∧ (c = '[' ∨ c = '>') := by
  rw [Doctype.subsetText]
  split
  · exact ⟨'[', _, rfl, .inl rfl⟩
  · exact ⟨'>', rest, rfl, .inr rfl⟩

theorem readSubset_written (h : d.Legible) (rest : List Char) :
    readSubset (skipBlanks (d.subsetText ++ '>' :: rest)) =
      .ok (d.subset.map String.toList, '>' :: rest) := by
  rw [Doctype.subsetText]
  cases hs : d.subset with
  | none => rfl
  | some subset =>
    have hsplit := Declarations.splitSubset?_append (h.subset subset hs) ('>' :: rest)
    have htext : skipBlanks (" [".toList ++ subset.toList ++ [']'] ++ '>' :: rest) =
        '[' :: (subset.toList ++ ']' :: '>' :: rest) := by
      simp [skipBlanks, isBlank]
    simp only [htext, readSubset, hsplit]
    rfl

theorem readExternalId_system_iff {p s : Option String} :
    readExternalId ("SYSTEM".toList ++ text) = .ok ((p, s), rest) ↔
      p = none ∧ ∃ value, s = some (String.ofList value) ∧
        readQuoted? (skipBlanks text) = some (value, rest) := by
  rw [readExternalId, after?_append]
  dsimp only
  constructor
  · intro h
    split at h
    · next value _ hq =>
      cases h
      exact ⟨rfl, value, rfl, hq⟩
    · cases h
  · rintro ⟨rfl, value, rfl, hq⟩
    rw [hq]

theorem readExternalId_public_iff {p s : Option String} :
    readExternalId ("PUBLIC".toList ++ text) = .ok ((p, s), rest) ↔
      ∃ value value' after, p = some (String.ofList value) ∧ s = some (String.ofList value') ∧
        readQuoted? (skipBlanks text) = some (value, after) ∧
        readQuoted? (skipBlanks after) = some (value', rest) := by
  have hnone : after? "SYSTEM".toList ("PUBLIC".toList ++ text) = none :=
    after?_eq_none fun hp => by cases (cons_prefix_cons.mp hp).1
  rw [readExternalId, hnone, after?_append]
  dsimp only
  constructor
  · intro h
    split at h
    · next value after hp =>
      split at h
      · next value' _ hs =>
        cases h
        exact ⟨value, value', after, rfl, rfl, hp, hs⟩
      · cases h
    · cases h
  · rintro ⟨value, value', after, rfl, rfl, hp, hs⟩
    simp only [hp, hs]

theorem skipBlanks_identifierText (h : d.Legible) (rest : List Char) :
    d.systemId = none ∧ d.publicId = none ∧ d.identifierText = [] ∨
    (∃ s, d.systemId = some s ∧ d.publicId = none ∧ skipBlanks (d.identifierText ++ rest) =
      "SYSTEM".toList ++ (' ' :: '"' :: s.toList ++ '"' :: rest)) ∨
    ∃ s p, d.systemId = some s ∧ d.publicId = some p ∧ skipBlanks (d.identifierText ++ rest) =
      "PUBLIC".toList ++
        (' ' :: '"' :: p.toList ++ '"' :: (' ' :: '"' :: s.toList ++ '"' :: rest)) := by
  cases hs : d.systemId with
  | none =>
    cases hp : d.publicId with
    | none => exact .inl ⟨rfl, rfl, by simp only [Doctype.identifierText, hp, hs]⟩
    | some p => exact absurd (h.system (by rw [hp]; rfl)) (by rw [hs]; decide)
  | some s =>
    cases hp : d.publicId with
    | none =>
      exact .inr (.inl ⟨s, rfl, rfl, by
        simp [Doctype.identifierText, hp, hs, skipBlanks, isBlank]⟩)
    | some p =>
      exact .inr (.inr ⟨s, p, rfl, rfl, by
        simp [Doctype.identifierText, hp, hs, skipBlanks, isBlank]⟩)

/-- A value in double quotes is read whole if it holds none, and only then. -/
theorem readQuoted?_quotes {value : List Char} (h : '"' ∉ value) (rest : List Char) :
    readQuoted? (skipBlanks (' ' :: '"' :: value ++ '"' :: rest)) = some (value, rest) :=
  readQuoted?_eq_some_iff.mpr ⟨'"', .inl rfl, h, rfl⟩

theorem notMem_of_readQuoted? {value after : List Char}
    (h : readQuoted? (skipBlanks (' ' :: '"' :: after)) = some (value, rest)) : '"' ∉ value := by
  obtain ⟨q, -, hout, htext⟩ := readQuoted?_eq_some_iff.mp h
  rwa [← (List.cons.inj htext).1] at hout

theorem readExternalId_written (h : d.Legible) (hq : d.Quotable) (rest : List Char) :
    ∃ after, readExternalId (skipBlanks (d.identifierText ++ (d.subsetText ++ '>' :: rest))) =
        .ok ((d.publicId, d.systemId), after) ∧
      skipBlanks after = skipBlanks (d.subsetText ++ '>' :: rest) := by
  generalize hrest : d.subsetText ++ '>' :: rest = after
  obtain ⟨hs, hp, htext⟩ | ⟨s, hs, hp, htext⟩ | ⟨s, p, hs, hp, htext⟩ :=
    skipBlanks_identifierText h after
  · obtain ⟨c, inside, hskip, hc⟩ := skipBlanks_subsetText d rest
    rw [hrest] at hskip
    rw [htext, nil_append, hskip, hs, hp]
    refine ⟨c :: inside, ?_, ?_⟩
    · rcases hc with rfl | rfl <;> rfl
    · rcases hc with rfl | rfl <;> rfl
  · rw [htext, hs, hp]
    exact ⟨after, readExternalId_system_iff.mpr ⟨rfl, s.toList, by rw [String.ofList_toList],
      readQuoted?_quotes (hq.2 s hs) _⟩, rfl⟩
  · rw [htext, hs, hp]
    exact ⟨after, readExternalId_public_iff.mpr ⟨p.toList, s.toList, _,
      by rw [String.ofList_toList], by rw [String.ofList_toList], readQuoted?_quotes (hq.1 p hp) _,
      readQuoted?_quotes (hq.2 s hs) _⟩, rfl⟩

theorem quotable_of_readExternalId (h : d.Legible)
    (hread : readExternalId (skipBlanks (d.identifierText ++ rest)) =
      .ok ((d.publicId, d.systemId), tail)) : d.Quotable := by
  obtain ⟨hs, hp, -⟩ | ⟨s, hs, hp, htext⟩ | ⟨s, p, hs, hp, htext⟩ :=
    skipBlanks_identifierText h rest
  · simp [Doctype.Quotable, hs, hp]
  · rw [htext] at hread
    obtain ⟨-, value, hvalue, hq⟩ := readExternalId_system_iff.mp hread
    have hout := notMem_of_readQuoted? hq
    simp [Doctype.Quotable, hp, hvalue, hout]
  · rw [htext] at hread
    obtain ⟨value, value', after, hvalue, hvalue', hq, hq'⟩ := readExternalId_public_iff.mp hread
    have hout := notMem_of_readQuoted? hq
    obtain rfl : p = String.ofList value := Option.some.inj (hp.symm.trans hvalue)
    rw [String.toList_ofList, readQuoted?_quotes hout] at hq
    cases hq
    simp [Doctype.Quotable, hvalue, hvalue', hout, notMem_of_readQuoted? hq']

theorem readName?_written (h : d.Legible) (rest : List Char) :
    readName? (skipBlanks (d.text ++ rest)) =
      some (d.name.toList, d.identifierText ++ (d.subsetText ++ '>' :: rest)) := by
  obtain ⟨c, name, hname, hc, hcontinues⟩ := h.name
  have hskip : skipBlanks (d.text ++ rest) =
      d.name.toList ++ (d.identifierText ++ (d.subsetText ++ '>' :: rest)) := by
    have hstop : StopsAt isBlank (d.name.toList ++ (d.identifierText ++
        (d.subsetText ++ '>' :: rest))) := by
      rw [hname]
      exact stopsAt_cons.mpr (Grammar.not_isBlank_of_startsName hc)
    have hspace : IsSpace [' '] := by simp [IsSpace, isBlank]
    rw [← skipBlanks_append hspace hstop]
    simp [Doctype.text]
  rw [hskip]
  refine readName?_eq_some_iff.mpr ⟨rfl, h.name, ?_⟩
  rw [Doctype.identifierText, Doctype.subsetText]
  split <;> split <;> exact stopsAt_cons.mpr (by decide)

/-- **A document type that was read is read again** from the way it is written, if its identifiers
can stand in double quotes. -/
theorem readDoctype_written (h : d.Legible) (hq : d.Quotable) (rest : List Char) :
    readDoctype (d.text ++ rest) = .ok (d, rest) := by
  obtain ⟨after, he, hafter⟩ := readExternalId_written h hq rest
  refine readDoctype_eq_ok_iff.mpr ⟨rfl, _, after, readName?_written h rest, he, ?_⟩
  rw [hafter]
  exact readSubset_written h rest

/-- **Otherwise another one is read**, if any. -/
theorem quotable_of_readDoctype (h : d.Legible)
    (hread : readDoctype (d.text ++ rest) = .ok (d, tail)) : d.Quotable := by
  obtain ⟨-, after₁, after₂, hn, he, -⟩ := readDoctype_eq_ok_iff.mp hread
  rw [readName?_written h rest] at hn
  cases hn
  exact quotable_of_readExternalId h he

/-! ## What a scan tells of a document type -/

variable {s : State} {options : ParseOptions} {files : Files}

theorem State.failed_told {event : Event} :
    (s.told event).Failed ↔ s.Failed ∨ ∃ e, event = .error e := by
  simp only [State.Failed, State.told, Array.toList_push, mem_append, mem_singleton,
    exists_or, eq_comm]

theorem Closed.declared :
    Closed fun _ s => ∀ d, Event.doctype d ∈ s.events.toList → Declared d s := by
  have keep {s : State} {d : Doctype} (h : Declared d s) (event : Event) :
      Declared d (s.told event) := ⟨h.read, h.sound.imp_right (·.told event)⟩
  refine .of_told_declared (fun s event _ hd hs d hmem => ?_) fun s s' he hs d hmem => ?_
  · rw [State.told, Array.toList_push, mem_append, mem_singleton] at hmem
    rcases hmem with hmem | hmem
    · exact keep (hs d hmem) event
    · exact keep (hd d hmem.symm) event
  · rw [he] at hmem
    exact ⟨(hs d hmem).read, by simpa only [State.Failed, he] using (hs d hmem).sound⟩

/-- A document type that a scan tells was read, and if something is wrong with its subset, that is
told too. -/
theorem legible_of_told (h : Event.doctype d ∈ (scanText text options files).events) :
    d.Legible ∧ ((∀ e, Event.error e ∉ (scanText text options files).events) → SoundSubset d) := by
  obtain ⟨p, s, last, hs, hevents, hlast⟩ :=
    Closed.declared.before_last (fun p d hd => by simp at hd) text options files
  rw [hevents] at h ⊢
  have hmem : Event.doctype d ∈ s.events.toList := by
    rcases mem_append.mp h with h | h
    · exact h
    · rcases hlast with rfl | ⟨e, rfl⟩ <;> cases mem_singleton.mp h
  obtain ⟨⟨inside, rest, hread⟩, hsound⟩ := hs d hmem
  refine ⟨legible_of_readDoctype hread, fun hnone => hsound.resolve_right ?_⟩
  rintro ⟨e, he⟩
  exact hnone e (mem_append_left _ he)

/-- Events that are allowed tell of one document type at most. -/
theorem AllAllowed.doctype_unique {events : List Event} (h : AllAllowed events) {d d' : Doctype}
    (hd : Event.doctype d ∈ events) (hd' : Event.doctype d' ∈ events) : d = d' := by
  obtain ⟨before, after, rfl⟩ := append_of_mem hd
  rcases mem_append.mp hd' with hb | ha
  · cases (h before _ after rfl _ hb).1
  · rcases mem_cons.mp ha with heq | ha
    · cases heq
      rfl
    · obtain ⟨between, rest, rfl⟩ := append_of_mem ha
      have hallowed := h (before ++ .doctype d :: between) (.doctype d') rest (by simp)
      cases (hallowed (.doctype d) (by simp)).1

/-! ## Scanning it again -/

/-- In front of the document element a first document type is taken in. -/
theorem takeDoctype_of (env : Env) (rest : List Char) (hr : s.seenRoot = false)
    (hd : s.seenDoctype = false) :
    ∃ s', takeDoctype env 0 rest d s = .ok () s' ∧ s'.opened = s.opened ∧ s'.seenRoot = false ∧
      Event.doctype d ∈ s'.events.toList ∧ (SoundSubset d → ¬ s.Failed → ¬ s'.Failed) := by
  let I : State → Prop := fun s' => s'.opened = s.opened ∧ s'.seenRoot = false ∧
    (SoundSubset d → ¬ s.Failed → ¬ s'.Failed)
  have same (s' : State) (table : EntityTable) (h : I s') : I { s' with entities := table } := h
  have told {event : Event} (hnone : SoundSubset d → ∀ e, event ≠ .error e) (s' : State)
      (h : I s') : I (s'.told event) := by
    refine ⟨h.1, h.2.1, fun hsound hs hf => ?_⟩
    rcases State.failed_told.mp hf with hf | ⟨e, he⟩
    · exact h.2.2 hsound hs hf
    · exact hnone hsound e he
  have htell : Triple I (tell (.doctype d))
      (fun _ s' => I s' ∧ Event.doctype d ∈ s'.events.toList) fun _ => False :=
    .ofTell fun s' h => ⟨told (fun _ _ h => by cases h) s' h, by simp [State.told]⟩
  have hload (systemId : String) : Triple I (loadSubset env systemId) (fun _ => I) fun _ => False :=
    .ofLoadSubset env systemId same fun s' w => told (fun _ _ h => by cases h) s'
  have htriple : Triple (· = s) (takeDoctype env 0 rest d)
      (fun _ s' => I s' ∧ Event.doctype d ∈ s'.events.toList) fun _ => False := by
    refine .andThen (Q := fun _ => (· = s)) ?_ fun _ => ?_
    · rintro _ rfl
      rw [requireProlog, get_bind, if_neg (by simp [hr, hd])]
      rfl
    refine .andThen (Q := fun _ => (· = s)) (fun _ h => h) fun place => ?_
    refine .andThen (Q := fun _ => I) (.ofModify ?_) fun _ => ?_
    · rintro _ rfl
      exact ⟨rfl, hr, fun _ h => h⟩
    dsimp only
    split
    · next subset hsubset =>
      refine .andThen (Q := fun _ => I) (.ofDeclareAll same fun table problem hp s' => ?_)
        fun _ => ?_
      · refine told (fun hsound => ?_) s'
        rw [readDeclarations_problems, hsound subset hsubset] at hp
        cases hp
      · split
        · exact .andThen (hload _) fun _ => htell
        · exact htell
    · split
      · exact .andThen (hload _) fun _ => htell
      · exact htell
  obtain ⟨a, s', hs', h, hmem⟩ := htriple.exists_ok rfl
  exact ⟨s', hs', h.1, h.2.1, hmem, h.2.2⟩

theorem content_doctype (env : Env) (inside : List Char) (s : State) :
    content env 0 ("<!DOCTYPE".toList ++ inside) s =
      match afterPiece env 0 ("<!DOCTYPE".toList ++ inside) (readDoctype inside)
        (requireProlog env 0 ("<!DOCTYPE".toList ++ inside))
        (takeDoctype env 0 ("<!DOCTYPE".toList ++ inside)) s.flush with
      | .ok rest s' => content env 0 rest s'
      | .error e s' => .error e s' :=
  content_cons env 0 '<' ("!DOCTYPE".toList ++ inside) s

/-- A text that begins with a document type has no XML declaration. -/
theorem document_of_doctype (inside : List Char) (s : State) :
    document ⟨"<!DOCTYPE".toList ++ inside, options, files⟩ s =
      (content ⟨"<!DOCTYPE".toList ++ inside, options, files⟩ 0 ("<!DOCTYPE".toList ++ inside) >>=
        fun _ => flush >>= fun _ =>
          checkEnd ⟨"<!DOCTYPE".toList ++ inside, options, files⟩) s :=
  rfl

/-- The first step of such a text, if the document type can be read. -/
theorem content_of_doctype (env : Env) {inside : List Char}
    (hread : readDoctype inside = .ok (d, rest)) (hr : s.seenRoot = false)
    (hd : s.seenDoctype = false) (hp : s.pending = "") :
    ∃ s', content env 0 ("<!DOCTYPE".toList ++ inside) s = content env 0 rest s' ∧
      s'.opened = s.opened ∧ s'.seenRoot = false ∧ Event.doctype d ∈ s'.events.toList ∧
      (SoundSubset d → ¬ s.Failed → ¬ s'.Failed) := by
  obtain ⟨s', hs', h⟩ := takeDoctype_of env ("<!DOCTYPE".toList ++ inside) hr hd
  refine ⟨s', ?_, h⟩
  have hflush : s.flush = s := if_pos (by rw [hp]; rfl)
  rw [content_doctype, hread, hflush]
  dsimp only [afterPiece]
  rw [returning_of_ok hs']

/-- What holds behind the content of such a text holds in front of the last event of its scan. -/
theorem before_last_of_doctype {P Q : State → Prop} {inside : List Char}
    (h : Triple (· = { events := #[.startDocument] })
      (content ⟨"<!DOCTYPE".toList ++ inside, options, files⟩ 0 ("<!DOCTYPE".toList ++ inside))
      (fun _ => P) Q)
    (hflush : ∀ s, P s → Q s.flush) :
    ∃ s last, Q s ∧ (∀ d, last ≠ .doctype d) ∧
      (scanText ("<!DOCTYPE".toList ++ inside) options files).events =
        s.events.toList ++ [last] := by
  have hdocument : Triple (· = { events := #[.startDocument] })
      (document ⟨"<!DOCTYPE".toList ++ inside, options, files⟩) (fun _ => Q) Q := by
    intro s hs
    rw [document_of_doctype]
    refine Triple.andThen h
      (fun _ => .andThen (Q := fun _ => Q) (.ofModify hflush) fun _ => ?_) s hs
    exact (Closed.triple_checkEnd _).weaken (fun _ h => h) (fun _ _ h => h.1) fun _ h => h
  have hend := hdocument _ rfl
  rw [scanText, run]
  cases hrun : document ⟨"<!DOCTYPE".toList ++ inside, options, files⟩
      { events := #[.startDocument] } with
  | ok a s =>
    rw [hrun] at hend
    exact ⟨s, .endDocument, hend, (fun _ h => by cases h), Array.toList_push ..⟩
  | error e s =>
    rw [hrun] at hend
    exact ⟨s, .error e, hend, (fun _ h => by cases h), Array.toList_push ..⟩

/-- What a scan tells of a document type it begins with is what is read there. -/
theorem exists_readDoctype_of_told {inside : List Char}
    (h : Event.doctype d ∈ (scanText ("<!DOCTYPE".toList ++ inside) options files).events) :
    ∃ rest, readDoctype inside = .ok (d, rest) := by
  let env : Env := ⟨"<!DOCTYPE".toList ++ inside, options, files⟩
  cases hread : readDoctype inside with
  | error problem =>
    -- the scan ends there, with nothing told but that
    have hcontent : Triple (· = { events := #[.startDocument] })
        (content env 0 ("<!DOCTYPE".toList ++ inside)) (fun _ _ => False)
        fun s => s.events = #[.startDocument] := by
      have hpiece : Triple (fun s => s.events = #[.startDocument])
          (afterPiece env 0 env.text (.error problem) (requireProlog env 0 env.text)
            (takeDoctype env 0 env.text)) (fun _ _ => False)
          fun s => s.events = #[.startDocument] :=
        .andThen (.ofRequireProlog env 0 env.text) fun _ => .ofFailAt fun _ h => h.1
      rintro _ rfl
      have hend := hpiece (State.flush { events := #[.startDocument] }) rfl
      rw [content_doctype, hread]
      split at hend
      · exact hend.elim
      · next hfail =>
        rw [hfail]
        exact hend
    obtain ⟨s, last, hs, hlast, hevents⟩ := before_last_of_doctype hcontent fun _ h => h.elim
    rw [hevents, hs] at h
    rcases mem_append.mp h with h | h
    · cases mem_singleton.mp h
    · exact absurd (mem_singleton.mp h).symm (hlast d)
  | ok found =>
    obtain ⟨d', rest⟩ := found
    have hclosed : Closed fun _ s => Event.doctype d' ∈ s.events.toList :=
      .of_told (fun s event _ hs => by simp [State.told, Array.mem_toList_iff.mp hs])
        fun s s' he hs => by rwa [he]
    have hcontent : Triple (· = { events := #[.startDocument] })
        (content env 0 ("<!DOCTYPE".toList ++ inside))
        (fun _ s => Event.doctype d' ∈ s.events.toList)
        fun s => Event.doctype d' ∈ s.events.toList := by
      rintro _ rfl
      obtain ⟨s, hcontent, -, -, hmem, -⟩ :
          ∃ s, content env 0 env.text { events := #[.startDocument] } = content env 0 rest s ∧ _ :=
        content_of_doctype env hread rfl rfl rfl
      rw [hcontent]
      exact (hclosed.triple_content env 0 rest).weaken (fun _ h => h) (fun _ _ h => h)
        (fun _ h => h.elim fun _ h => h) s hmem
    obtain ⟨s, last, hs, -, hevents⟩ := before_last_of_doctype hcontent fun s hs =>
      hclosed _ s _ _ (.flush s) hs
    have hallowed := (readable_scanText ("<!DOCTYPE".toList ++ inside) options files).allowed
    have hmem : Event.doctype d' ∈
        (scanText ("<!DOCTYPE".toList ++ inside) options files).events := by
      rw [hevents]
      exact mem_append_left _ hs
    rw [hallowed.doctype_unique h hmem]
    exact ⟨rest, rfl⟩

/-- **A scan that begins with a document type and goes on with an element** comes to its end. -/
theorem scanText_of_doctype {inside : List Char} (hread : readDoctype inside = .ok (d, rest))
    (hrest : Derives [] false rest) :
    (scanText ("<!DOCTYPE".toList ++ inside) options files).fatal = none ∧
      (SoundSubset d →
        ∀ e, Event.error e ∉ (scanText ("<!DOCTYPE".toList ++ inside) options files).events) ∧
      Event.doctype d ∈ (scanText ("<!DOCTYPE".toList ++ inside) options files).events := by
  let env : Env := ⟨"<!DOCTYPE".toList ++ inside, options, files⟩
  let begin : State := { events := #[.startDocument] }
  have hbegin : ¬ begin.Failed := by
    rintro ⟨e, he⟩
    cases mem_singleton.mp he
  obtain ⟨s, hcontent, ho, hr, hmem, hsound⟩ :
      ∃ s, content env 0 env.text begin = content env 0 rest s ∧ _ :=
    content_of_doctype env hread rfl rfl rfl
  obtain ⟨s', hs', htells⟩ := accepted_of_derives env ho hr hrest
  have hdocument : document env begin = .ok () s' := by
    rw [document_of_doctype, ← hs']
    simp only [bind, EStateM.bind]
    rw [hcontent]
  have houtcome : scanText ("<!DOCTYPE".toList ++ inside) options files =
      ⟨s'.events.toList ++ [.endDocument], none⟩ := by
    rw [scanText, run, hdocument, ← Array.toList_push]
  rw [houtcome]
  refine ⟨rfl, fun hd e he => ?_, ?_⟩
  · rcases mem_append.mp he with he | he
    · exact hsound hd hbegin ⟨e, (htells.mem_iff rfl).mp he⟩
    · cases mem_singleton.mp he
  · exact mem_append_left _ ((htells.mem_iff rfl).mpr hmem)

/-- **Which document types survive being written**: a scan of what was written tells the same one,
and no error if the subset has none, exactly if its identifiers can stand in double quotes. -/
theorem survives_iff {P : Prop} (h : d.Legible) (hsound : P → SoundSubset d)
    (hrest : Derives [] false rest) :
    ((scanText ("<!DOCTYPE".toList ++ (d.text ++ rest)) options files).fatal = none ∧
      Event.doctype d ∈ (scanText ("<!DOCTYPE".toList ++ (d.text ++ rest)) options files).events ∧
      (P → ∀ e, Event.error e ∉
        (scanText ("<!DOCTYPE".toList ++ (d.text ++ rest)) options files).events)) ↔
    d.Quotable := by
  constructor
  · rintro ⟨-, htold, -⟩
    obtain ⟨tail, hread⟩ := exists_readDoctype_of_told htold
    exact quotable_of_readDoctype h hread
  · intro hq
    obtain ⟨hfatal, hnone, htold⟩ := scanText_of_doctype (readDoctype_written h hq rest) hrest
    exact ⟨hfatal, htold, fun hP => hnone (hsound hP)⟩

end Scan

end Xml
