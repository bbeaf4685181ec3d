import Xml.Proofs.Scan.Discipline

/-!
# Events a document can be built from

What a builder of documents needs of the events of a scan: each is allowed by those before it, and a
start tag names each of its attributes once. Of two attributes with one name the scan keeps the
first.
-/

namespace Xml.Scan

/-- A start tag names each of its attributes once. -/
def NamesOnce : Event → Prop
  | .startElement _ attributes => (attributes.map (·.name)).Nodup
  | _ => True

/-- Events a document can be built from. -/
structure Readable (events : List Event) : Prop where
  allowed : AllAllowed events
  once : ∀ event ∈ events, NamesOnce event

theorem Readable.of_snoc {before : List Event} {e : Event} (h : Readable (before ++ [e])) :
    Readable before ∧ Allowed before e ∧ NamesOnce e := by
  obtain ⟨honce, he⟩ := List.forall_mem_append.mp h.once
  refine ⟨⟨fun first event after heq => ?_, honce⟩, h.allowed before e [] rfl,
    he e (List.mem_singleton.mpr rfl)⟩
  exact h.allowed first event (after ++ [e]) (by rw [heq, List.append_assoc, List.cons_append])

variable {s : State} {e : Event}

/-- The start tags told so far name each of their attributes once. -/
def State.NamesOnce (s : State) : Prop :=
  ∀ event ∈ s.events.toList, Scan.NamesOnce event

theorem State.NamesOnce.told (h : s.NamesOnce) (he : Scan.NamesOnce e) :
    (s.told e).NamesOnce := by
  have hevents : (s.told e).events.toList = s.events.toList ++ [e] := Array.toList_push ..
  rw [State.NamesOnce, hevents, List.forall_mem_append, List.forall_mem_singleton]
  exact ⟨h, he⟩

theorem NamesOnce.of_problem (h : isProblem e = true) : NamesOnce e := by
  cases e with
  | startElement name attributes => cases h
  | _ => trivial

theorem NamesOnce.of_aside (h : isAside e = true) : NamesOnce e := by
  cases e with
  | startElement name attributes => cases h
  | _ => trivial

/-- **Every move tells of attributes with different names only.** -/
theorem Closed.namesOnce : Closed fun _ => State.NamesOnce := by
  intro p s q s' hmove hs
  have start (name : String) {attributes : List Attribute}
      (hn : (attributes.map Attribute.name).Nodup) :
      (s.told (.startElement name attributes)).NamesOnce :=
    hs.told (e := .startElement name attributes) hn
  cases hmove with
  | problem h => exact hs.told (.of_problem (isScanProblem_iff.mp h).1)
  | bookkeeping h => rwa [State.NamesOnce, show s'.events = s.events from congrArg Prod.fst h]
  | text ho pending => exact hs
  | flush =>
    rw [State.flush]
    split
    · exact hs
    · exact hs.told (e := .characters _) trivial
  | aside hp h => exact hs.told (.of_aside h)
  | declaration hf version encoding standalone =>
    exact hs.told (e := .xmlDeclaration version encoding standalone) trivial
  | @reference _ hp ho name replacement hr =>
    exact hs.told (e := .entityReference name replacement) trivial
  | cdata hp ho text =>
    have hopen : (s.told .startCData).NamesOnce := hs.told (e := .startCData) trivial
    have hend {s : State} (h : s.NamesOnce) : (s.told .endCData).NamesOnce :=
      h.told (e := .endCData) trivial
    rw [State.cdata]
    split
    · exact hend hopen
    · exact hend (hopen.told (e := .characters _) trivial)
  | start hp hr name hn => exact start name hn
  | startEmpty hp hr name hn => exact (start name hn).told (e := .endElement name) trivial
  | @finish _ name _ hp ho => exact hs.told (e := .endElement name) trivial
  | doctype hp hr hd declaration => exact hs.told (e := .doctype declaration) trivial

end Xml.Scan

namespace Xml

open Scan

variable {options : ParseOptions} {I : Phase → State → Prop} {files : Files}

/-- What every move keeps holds before the last event of a scan. -/
theorem Scan.Closed.before_last (hI : Closed I) (hbegin : ∀ p, I p { events := #[.startDocument] })
    (text : List Char) (options : ParseOptions) (files : Files) :
    ∃ p s last, I p s ∧ (scanText text options files).events = s.events.toList ++ [last] ∧
      (last = .endDocument ∨ ∃ e, last = .error e) := by
  have h := hI.triple_document ⟨text, options, files⟩ { events := #[.startDocument] }
    ⟨⟨hbegin _, hbegin _⟩, rfl⟩
  rw [scanText, run]
  cases hrun : document ⟨text, options, files⟩ { events := #[.startDocument] } with
  | ok a s =>
    rw [hrun] at h
    exact ⟨_, s, _, h.1, Array.toList_push .., .inl rfl⟩
  | error e s =>
    rw [hrun] at h
    obtain ⟨p, hp⟩ := h
    exact ⟨p, s, _, hp, Array.toList_push .., .inr ⟨e, rfl⟩⟩

theorem scanBytes_of_success {bytes : List UInt8} {hint : Option String}
    (h : (scanBytes bytes hint options files).fatal = none) :
    ∃ text, scanBytes bytes hint options files = scanText text options files := by
  rw [scanBytes] at h ⊢
  split at h
  · cases h
  · exact ⟨_, rfl⟩

theorem scanText_of_success {text : List Char} (h : (scanText text options files).fatal = none) :
    ∃ s, document ⟨text, options, files⟩ { events := #[.startDocument] } = .ok () s ∧
      (scanText text options files).events = s.events.toList ++ [.endDocument] := by
  rw [scanText, run] at h ⊢
  cases hrun : document ⟨text, options, files⟩ { events := #[.startDocument] } with
  | ok a s => exact ⟨s, rfl, Array.toList_push ..⟩
  | error e s =>
    rw [hrun] at h
    cases h

/-- What every move keeps holds at the end of a scan that succeeds, and nothing is open there. -/
theorem Scan.Closed.at_success (hI : Closed I) (hbegin : ∀ p, I p { events := #[.startDocument] })
    {text : List Char} (h : (scanText text options files).fatal = none) :
    ∃ s, I .markup s ∧ s.opened = [] ∧
      (scanText text options files).events = s.events.toList ++ [.endDocument] := by
  obtain ⟨s, hrun, hevents⟩ := scanText_of_success h
  have hend := (hI.triple_document ⟨text, options, files⟩).ok ⟨⟨hbegin _, hbegin _⟩, rfl⟩ hrun
  exact ⟨s, hend.1, hend.2.1, hevents⟩

/-- **A document can be built from the events of every scan.** -/
theorem readable_scanText (text : List Char) (options : ParseOptions) (files : Files) :
    Readable (scanText text options files).events := by
  constructor
  · obtain ⟨p, s, last, hs, hevents, hlast⟩ :=
      Keeping.closed.before_last keeping_begin text options files
    rw [hevents]
    rcases hlast with rfl | ⟨e, rfl⟩ <;> exact hs.orderly.allowed.snoc trivial
  · obtain ⟨p, s, last, hs, hevents, hlast⟩ :=
      Closed.namesOnce.before_last (fun _ => List.forall_mem_singleton.mpr trivial) text options
        files
    rw [hevents, List.forall_mem_append, List.forall_mem_singleton]
    refine ⟨hs, ?_⟩
    rcases hlast with rfl | ⟨e, rfl⟩ <;> trivial

end Xml
