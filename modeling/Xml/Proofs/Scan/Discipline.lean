import Mathlib.Data.List.TakeWhile
import Xml.Proofs.Scan.Moves

/-!
# The discipline of events

What readers of a scan may rely on, whatever the text, the options and the files are: elements nest,
one of them stands outermost, character data comes in one piece and only inside elements, a CDATA
section is not interrupted, and the document type comes first.

An event is allowed or not by the events before it (`Allowed`). So a sequence stays orderly when an
allowed event is added, and it is enough to see that every move of a scan adds allowed events.
-/

namespace Xml

open List

namespace Scan

/-- How an event changes the open elements, innermost first. -/
def nest (opened : List String) : Event → List String
  | .startElement name _ => name :: opened
  | .endElement _ => opened.tail
  | _ => opened

/-- The elements that events leave open, innermost first. -/
def openAfter (events : List Event) : List String :=
  events.foldl nest []

/-- The event begins an element. -/
def isStart : Event → Bool
  | .startElement _ _ => true
  | _ => false

/-- The event tells a document type. -/
def isDoctype : Event → Bool
  | .doctype _ => true
  | _ => false

/-- The event tells character data. -/
def isCharacters : Event → Bool
  | .characters _ => true
  | _ => false

/-- The events without the problems among them. -/
def withoutProblems (events : List Event) : List Event :=
  events.filter fun event => !isProblem event

/-- What an event needs of the events before it. -/
def Allowed (before : List Event) : Event → Prop
  | .startElement _ _ => openAfter before = [] → ∀ event ∈ before, isStart event = false
  | .endElement name => (openAfter before).head? = some name
  | .characters text => text ≠ "" ∧ openAfter before ≠ [] ∧
      ∀ event ∈ (withoutProblems before).getLast?, isCharacters event = false
  | .startCData | .endCData | .entityReference _ _ => openAfter before ≠ []
  | .doctype _ => ∀ event ∈ before, isDoctype event = false ∧ isStart event = false
  | _ => True

/-- Character data of a CDATA section, at most one event, and the end of the section. -/
inductive CDataRest : List Event → Prop where
  | empty (rest : List Event) : CDataRest (.endCData :: rest)
  | text (text : String) (rest : List Event) : CDataRest (.characters text :: .endCData :: rest)

/-- Each event is allowed by those before it. -/
def AllAllowed (events : List Event) : Prop :=
  ∀ before event after, events = before ++ event :: after → Allowed before event

/-- Events in an order that readers can rely on. -/
structure Orderly (events : List Event) : Prop where
  begins : events.head? = some .startDocument
  allowed : AllAllowed events
  cdata : ∀ before after, events = before ++ .startCData :: after → CDataRest after

theorem openAfter_append_singleton (events : List Event) (event : Event) :
    openAfter (events ++ [event]) = nest (openAfter events) event := by
  rw [openAfter, foldl_append]
  rfl

theorem withoutProblems_append_singleton {event : Event} (h : isProblem event = false)
    (events : List Event) : withoutProblems (events ++ [event]) = withoutProblems events ++ [event] := by
  rw [withoutProblems, filter_append, filter_cons_of_pos (by rw [h]; rfl)]
  rfl

/-- A place in a longer sequence is its end, or a place in the shorter one. -/
theorem append_singleton_eq_split {events before after : List Event} {last event : Event}
    (h : events ++ [last] = before ++ event :: after) :
    (after = [] ∧ before = events ∧ event = last) ∨
      ∃ more, after = more ++ [last] ∧ events = before ++ event :: more := by
  rcases eq_nil_or_concat after with rfl | ⟨more, x, rfl⟩
  · obtain ⟨h, hl⟩ := append_inj' h rfl
    exact .inl ⟨rfl, h.symm, (singleton_inj.mp hl).symm⟩
  · rw [concat_eq_append, ← cons_append, ← append_assoc] at h
    obtain ⟨h, hl⟩ := append_inj' h rfl
    refine .inr ⟨more, ?_, h⟩
    rw [concat_eq_append, singleton_inj.mp hl]

variable {events : List Event} {event : Event}

theorem AllAllowed.snoc (h : AllAllowed events) (ha : Allowed events event) :
    AllAllowed (events ++ [event]) := by
  intro before e after hsplit
  rcases append_singleton_eq_split hsplit with ⟨-, rfl, rfl⟩ | ⟨more, -, hevents⟩
  · exact ha
  · exact h before e more hevents

theorem CDataRest.append {rest : List Event} (h : CDataRest rest) (more : List Event) :
    CDataRest (rest ++ more) := by
  cases h with
  | empty rest => exact .empty _
  | text text rest => exact .text text _

namespace Orderly

theorem head?_append (h : Orderly events) (more : List Event) :
    (events ++ more).head? = some .startDocument := by
  rw [List.head?_append, h.begins]
  rfl

theorem snoc (h : Orderly events) (ha : Allowed events event) (hc : event ≠ .startCData) :
    Orderly (events ++ [event]) where
  begins := h.head?_append _
  allowed := h.allowed.snoc ha
  cdata before after hsplit := by
    rcases append_singleton_eq_split hsplit with ⟨-, -, hlast⟩ | ⟨more, rfl, hevents⟩
    · exact absurd hlast.symm hc
    · exact (h.cdata before more hevents).append _

theorem cdataSection (h : Orderly events) (ho : openAfter events ≠ []) {text : Option String}
    (ht : text ≠ some "") :
    Orderly (events ++ [.startCData] ++ text.toList.map .characters ++ [.endCData]) := by
  have hopen : openAfter (events ++ [.startCData]) ≠ [] := by rwa [openAfter_append_singleton]
  have hstart : AllAllowed (events ++ [.startCData]) := h.allowed.snoc ho
  cases text with
  | none =>
    rw [Option.toList_none, map_nil, append_nil]
    refine ⟨?_, hstart.snoc hopen, fun before after hsplit => ?_⟩
    · rw [append_assoc]
      exact h.head?_append _
    · rcases append_singleton_eq_split hsplit with ⟨-, -, hlast⟩ | ⟨more₁, rfl, h₁⟩
      · cases hlast
      rcases append_singleton_eq_split h₁ with ⟨rfl, -, -⟩ | ⟨more₂, rfl, h₂⟩
      · exact .empty _
      · exact ((h.cdata before more₂ h₂).append _).append _
  | some text =>
    rw [Option.toList_some, map_singleton]
    have htext : Allowed (events ++ [.startCData]) (.characters text) := by
      refine ⟨fun h => ht (congrArg some h), hopen, ?_⟩
      rw [withoutProblems_append_singleton rfl]
      simp [isCharacters]
    have hopen' : openAfter (events ++ [.startCData] ++ [.characters text]) ≠ [] := by
      rwa [openAfter_append_singleton]
    refine ⟨?_, (hstart.snoc htext).snoc hopen', fun before after hsplit => ?_⟩
    · rw [append_assoc, append_assoc]
      exact h.head?_append _
    · rcases append_singleton_eq_split hsplit with ⟨-, -, hlast⟩ | ⟨more₁, rfl, h₁⟩
      · cases hlast
      rcases append_singleton_eq_split h₁ with ⟨-, -, hlast⟩ | ⟨more₂, rfl, h₂⟩
      · cases hlast
      rcases append_singleton_eq_split h₂ with ⟨rfl, -, -⟩ | ⟨more₃, rfl, h₃⟩
      · exact .text _ _
      · exact (((h.cdata before more₃ h₃).append _).append _).append _

end Orderly

/-! ## The state keeps count -/

/-- No character data is the last thing told. -/
def EndsWithoutText (events : List Event) : Prop :=
  ∀ event ∈ (withoutProblems events).getLast?, isCharacters event = false

theorem endsWithoutText_snoc_problem (h : isProblem event = true) :
    EndsWithoutText (events ++ [event]) ↔ EndsWithoutText events := by
  rw [EndsWithoutText, EndsWithoutText, withoutProblems, filter_append,
    filter_cons_of_neg (by rw [h]; exact Bool.false_ne_true), filter_nil,
    append_nil]
  rfl

theorem endsWithoutText_snoc (h : isProblem event = false) :
    EndsWithoutText (events ++ [event]) ↔ isCharacters event = false := by
  rw [EndsWithoutText, withoutProblems_append_singleton h, getLast?_concat]
  simp

/-- The state of a scan that told these events. Between two pieces of content, the last thing told
was not character data. -/
structure Keeping (p : Phase) (s : State) : Prop where
  orderly : Orderly s.events.toList
  opened : openAfter s.events.toList = s.opened
  root : s.seenRoot = true ↔ ∃ event ∈ s.events.toList, isStart event = true
  doctype : s.seenDoctype = false → ∀ event ∈ s.events.toList, isDoctype event = false
  noEnd : Event.endDocument ∉ s.events.toList
  pending : s.pending ≠ "" → s.opened ≠ []
  text : p = .content → EndsWithoutText s.events.toList

namespace Keeping

variable {p q : Phase} {s s' : State}

/-- The count stays right when more events come, if the state takes account of them. -/
theorem follow (h : Keeping p s) (more : List Event)
    (hevents : s'.events.toList = s.events.toList ++ more)
    (ho : Orderly (s.events.toList ++ more)) (hopened : s'.opened = more.foldl nest s.opened)
    (hroot : s'.seenRoot = (s.seenRoot || more.any isStart))
    (hdoctype : s'.seenDoctype = (s.seenDoctype || more.any isDoctype))
    (hend : Event.endDocument ∉ more)
    (hpending : s'.pending ≠ "" → s'.opened ≠ [])
    (htext : q = .content → EndsWithoutText (s.events.toList ++ more)) : Keeping q s' where
  orderly := hevents ▸ ho
  opened := by rw [hevents, openAfter, foldl_append, hopened, ← h.opened, openAfter]
  root := by
    simp only [hevents, hroot, Bool.or_eq_true, h.root, any_eq_true, mem_append,
      or_and_right, exists_or]
  doctype hd := by
    rw [hdoctype, Bool.or_eq_false_iff] at hd
    intro event hmem
    rw [hevents, mem_append] at hmem
    rcases hmem with hmem | hmem
    · exact h.doctype hd.1 event hmem
    · exact Bool.eq_false_iff.mpr (any_eq_false.mp hd.2 event hmem)
  noEnd := by
    rw [hevents, mem_append, not_or]
    exact ⟨h.noEnd, hend⟩
  pending := hpending
  text := hevents ▸ htext

/-- An event that leaves all but the sequence of events as it is. -/
theorem told (h : Keeping p s) (ha : Allowed s.events.toList event) (hc : event ≠ .startCData)
    (hn : nest s.opened event = s.opened) (hs : isStart event = false)
    (hd : isDoctype event = false) (he : event ≠ .endDocument)
    (ht : q = .content → EndsWithoutText (s.events.toList ++ [event])) :
    Keeping q (s.told event) := by
  refine h.follow [event] (Array.toList_push ..) (h.orderly.snoc ha hc) hn.symm ?_ ?_ ?_ h.pending ht
  · simp [hs, State.told]
  · simp [hd, State.told]
  · simpa using he.symm

theorem no_start (h : Keeping p s) (hr : s.seenRoot = false) :
    ∀ event ∈ s.events.toList, isStart event = false := by
  intro event hmem
  rw [Bool.eq_false_iff]
  intro hs
  rw [h.root.mpr ⟨event, hmem, hs⟩] at hr
  cases hr

/-- A start tag that may stand where it stands. -/
theorem start (h : Keeping p s) (hr : s.opened = [] → s.seenRoot = false) (name : String)
    (attributes : List Attribute) : Keeping .content (s.start name attributes) := by
  have ha : Allowed s.events.toList (.startElement name attributes) := by
    intro ho
    exact h.no_start (hr (h.opened ▸ ho))
  refine h.follow [_] (Array.toList_push ..) (h.orderly.snoc ha (by simp)) rfl ?_ ?_ ?_ ?_ ?_
  · simp [State.start, isStart]
  · simp [State.start, isDoctype]
  · simp
  · exact fun _ => cons_ne_nil _ _
  · exact fun _ => (endsWithoutText_snoc rfl).mpr rfl

theorem finish (h : Keeping p s) {name : String} {others : List String} (hp : s.pending = "")
    (ho : s.opened = name :: others) : Keeping .content (s.finish name others) := by
  have ha : Allowed s.events.toList (.endElement name) := by
    rw [Allowed, h.opened, ho]
    rfl
  refine h.follow [_] (Array.toList_push ..) (h.orderly.snoc ha (by simp)) ?_ ?_ ?_ ?_ ?_ ?_
  · rw [ho]
    rfl
  · simp [State.finish, isStart]
  · simp [State.finish, isDoctype]
  · simp
  · exact fun hne => absurd hp hne
  · exact fun _ => (endsWithoutText_snoc rfl).mpr rfl

theorem cdata (h : Keeping p s) (hp : s.pending = "") (ho : s.opened ≠ []) (text : List Char) :
    Keeping .content (s.cdata text) := by
  have hopen : openAfter s.events.toList ≠ [] := by rwa [h.opened]
  let told : Option String := if text.isEmpty then none else some (String.ofList text)
  have htold : told ≠ some "" := by
    cases text with
    | nil => simp [told]
    | cons c text =>
      intro he
      have := congrArg String.toList (Option.some.inj he)
      simp at this
  have hmore : (s.cdata text).events.toList = s.events.toList ++
      ([.startCData] ++ told.toList.map .characters ++ [.endCData]) := by
    cases text with
    | nil => simp [State.cdata, State.told, told]
    | cons c text => simp [State.cdata, State.told, told]
  have horderly := h.orderly.cdataSection hopen htold
  rw [append_assoc, append_assoc] at horderly
  refine h.follow _ hmore ?_ ?_ ?_ ?_ ?_ ?_ ?_
  · rwa [append_assoc]
  · cases text <;> rfl
  · cases text <;> simp [State.cdata, State.told, told, isStart]
  · cases text <;> simp [State.cdata, State.told, told, isDoctype]
  · simp
  · have hpending : (s.cdata text).pending = s.pending := by cases text <;> rfl
    exact fun hne => absurd (hpending.trans hp) hne
  · intro _
    rw [← append_assoc]
    exact (endsWithoutText_snoc rfl).mpr rfl

theorem flush (h : Keeping .content s) : Keeping .markup s.flush := by
  rw [State.flush]
  split
  · exact { h with text := fun hq => by cases hq }
  · next hp =>
    have hp : s.pending ≠ "" := fun he => hp (String.isEmpty_iff.mpr he)
    have ha : Allowed s.events.toList (.characters s.pending) := by
      refine ⟨hp, ?_, h.text rfl⟩
      rw [h.opened]
      exact h.pending hp
    have htold : Keeping .markup (s.told (.characters s.pending)) :=
      h.told ha (by simp) rfl rfl rfl (by simp) (by simp)
    exact { htold with pending := fun hne => absurd rfl hne }

/-- **Every move keeps the count.** -/
theorem closed : Closed Keeping := by
  intro p s q s' hmove h
  cases hmove with
  | @problem _ _ event hproblem =>
    have hends : EndsWithoutText (s.events.toList ++ [event]) ↔ EndsWithoutText s.events.toList :=
      endsWithoutText_snoc_problem (isScanProblem_iff.mp hproblem).1
    cases event with
    | error e =>
      exact h.told trivial (by simp) rfl rfl rfl (by simp) fun hp => hends.mpr (h.text hp)
    | warning w =>
      exact h.told trivial (by simp) rfl rfl rfl (by simp) fun hp => hends.mpr (h.text hp)
    | _ => cases hproblem
  | bookkeeping hv =>
    have hevents : s'.events = s.events := congrArg Prod.fst hv
    have hframe : s'.frame = s.frame := congrArg Prod.snd hv
    refine h.follow [] ?_ ?_ ?_ ?_ ?_ not_mem_nil ?_ ?_
    · rw [hevents, append_nil]
    · rw [append_nil]
      exact h.orderly
    · exact State.opened_eq_of_frame hframe
    · rw [State.seenRoot_eq_of_frame hframe]
      simp
    · rw [State.seenDoctype_eq_of_frame hframe]
      simp
    · rw [State.pending_eq_of_frame hframe, State.opened_eq_of_frame hframe]
      exact h.pending
    · rw [append_nil]
      exact h.text
  | text ho pending => exact { h with pending := fun _ => ho }
  | flush => exact h.flush
  | @aside _ event hp haside =>
    cases event with
    | comment text =>
      exact h.told trivial (by simp) rfl rfl rfl (by simp)
        fun _ => (endsWithoutText_snoc rfl).mpr rfl
    | instruction target data =>
      exact h.told trivial (by simp) rfl rfl rfl (by simp)
        fun _ => (endsWithoutText_snoc rfl).mpr rfl
    | _ => cases haside
  | declaration hf version encoding standalone =>
    exact h.told trivial (by simp) rfl rfl rfl (by simp) fun _ => (endsWithoutText_snoc rfl).mpr rfl
  | reference hp ho name hr =>
    refine h.told ?_ (by simp) rfl rfl rfl (by simp) fun _ => (endsWithoutText_snoc rfl).mpr rfl
    rw [Allowed, h.opened]
    exact ho
  | cdata hp ho text => exact h.cdata hp ho text
  | start hp hr name hn => exact h.start hr name _
  | startEmpty hp hr name hn => exact (h.start hr name _).finish hp rfl
  | finish hp ho => exact h.finish hp ho
  | doctype hp hr hd declaration =>
    have ha : Allowed s.events.toList (.doctype declaration) := fun event hmem =>
      ⟨h.doctype hd event hmem, h.no_start hr event hmem⟩
    refine h.follow [_] (Array.toList_push ..) (h.orderly.snoc ha (by simp)) rfl ?_ ?_ ?_ h.pending ?_
    · simp [State.doctype, isStart]
    · simp [State.doctype, isDoctype]
    · simp
    · exact fun _ => (endsWithoutText_snoc rfl).mpr rfl

end Keeping

/-! ## What readers can rely on -/

/-- The event belongs to a CDATA section or is a reference. -/
def isInner : Event → Bool
  | .startCData | .endCData | .entityReference _ _ => true
  | _ => false

/-- The events name an outermost element behind `before`. -/
def RootAfter (events before : List Event) : Prop :=
  ∃ name attributes after, events = before ++ .startElement name attributes :: after ∧
    openAfter before = []

/-- **The discipline of events.** -/
structure Disciplined (events : List Event) : Prop where
  begins : events.head? = some .startDocument
  /-- An end tag ends the innermost open element. -/
  nested : ∀ before name after, events = before ++ .endElement name :: after →
    (openAfter before).head? = some name
  /-- Not more than one element is outermost. -/
  root : ∀ before before', RootAfter events before → RootAfter events before' → before = before'
  /-- Character data is not empty and stands inside an element. -/
  text : ∀ before text after, events = before ++ .characters text :: after →
    text ≠ "" ∧ openAfter before ≠ []
  inner : ∀ before event after, events = before ++ event :: after → isInner event = true →
    openAfter before ≠ []
  cdata : ∀ before after, events = before ++ .startCData :: after → CDataRest after
  /-- Problems apart, character data comes in one piece. -/
  merged : ∀ before a b after,
    withoutProblems events ≠ before ++ .characters a :: .characters b :: after
  /-- The document type comes once, before every element. -/
  doctype : ∀ before declaration after, events = before ++ .doctype declaration :: after →
    ∀ event ∈ before, isDoctype event = false ∧ isStart event = false

/-- Of two places in a sequence one comes first. -/
theorem split_cases {before before' after after' : List Event} {event event' : Event}
    (h : before ++ event :: after = before' ++ event' :: after') :
    before = before' ∨ event ∈ before' ∨ event' ∈ before := by
  rcases append_eq_append_iff.mp h with ⟨more, rfl, hmore⟩ | ⟨more, rfl, hmore⟩
  · cases more with
    | nil => exact .inl (append_nil _).symm
    | cons x more =>
      cases hmore
      exact .inr (.inl (by simp))
  · cases more with
    | nil => exact .inl (append_nil _)
    | cons x more =>
      cases hmore
      exact .inr (.inr (by simp))

theorem Orderly.disciplined (h : Orderly events) : Disciplined events where
  begins := h.begins
  nested before name after hsplit := h.allowed before _ after hsplit
  root := by
    rintro before before' ⟨name, attributes, after, hs, ho⟩ ⟨name', attributes', after', hs', ho'⟩
    have hfirst := h.allowed before _ after hs ho
    have hfirst' := h.allowed before' _ after' hs' ho'
    rcases split_cases (hs.symm.trans hs') with heq | hmem | hmem
    · exact heq
    · cases hfirst' _ hmem
    · cases hfirst _ hmem
  text before text after hsplit :=
    have h := h.allowed before _ after hsplit
    ⟨h.1, h.2.1⟩
  inner before event after hsplit hinner := by
    have h := h.allowed before event after hsplit
    cases event with
    | startCData => exact h
    | endCData => exact h
    | entityReference name replacement => exact h
    | _ => cases hinner
  cdata := h.cdata
  merged before a b after hsplit := by
    rw [withoutProblems, filter_eq_append_iff] at hsplit
    obtain ⟨l₁, l₂, rfl, rfl, hrest⟩ := hsplit
    obtain ⟨l₃, l₄, rfl, -, -, hrest⟩ := filter_eq_cons_iff.mp hrest
    obtain ⟨l₅, l₆, rfl, hl₅, -, -⟩ := filter_eq_cons_iff.mp hrest
    have hallowed := h.allowed (l₁ ++ (l₃ ++ .characters a :: l₅)) (.characters b) l₆ (by simp)
    have hnil : l₅.filter (fun event => !isProblem event) = [] := filter_eq_nil_iff.mpr hl₅
    have hlast : (withoutProblems (l₁ ++ (l₃ ++ .characters a :: l₅))).getLast? =
        some (.characters a) := by
      rw [withoutProblems, filter_append, filter_append,
        filter_cons_of_pos (by rfl), hnil]
      simp
    have hno := hallowed.2.2 (.characters a)
    rw [hlast] at hno
    cases hno rfl
  doctype before declaration after hsplit := h.allowed before _ after hsplit

theorem openAfter_eq_nil (h : ∀ event ∈ events, isStart event = false) : openAfter events = [] := by
  rw [openAfter]
  induction events with
  | nil => rfl
  | cons event events ih =>
    obtain ⟨he, h⟩ := forall_mem_cons.mp h
    have hnest : nest [] event = [] := by
      cases event with
      | startElement name attributes => cases he
      | _ => rfl
    rw [foldl_cons, hnest]
    exact ih h

theorem exists_rootAfter (h : ∃ event ∈ events, isStart event = true) :
    ∃ before, RootAfter events before := by
  have hsplit : events.takeWhile (!isStart ·) ++ events.dropWhile (!isStart ·) = events :=
    takeWhile_append_dropWhile
  have hbefore : openAfter (events.takeWhile (!isStart ·)) = [] :=
    openAfter_eq_nil fun event hmem => by simpa using mem_takeWhile_imp hmem
  cases hrest : events.dropWhile (!isStart ·) with
  | nil =>
    obtain ⟨event, hmem, hstart⟩ := h
    have hall := dropWhile_eq_nil_iff.mp hrest event hmem
    rw [hstart] at hall
    cases hall
  | cons event after =>
    have hstart := head?_dropWhile_not (!isStart ·) events
    rw [hrest] at hsplit hstart
    simp only [head?_cons, Bool.not_eq_false'] at hstart
    cases event with
    | startElement name attributes =>
      exact ⟨_, name, attributes, after, hsplit.symm, hbefore⟩
    | _ => cases hstart

theorem orderly_begin : Orderly [.startDocument] where
  begins := rfl
  allowed before event after h := by
    cases before with
    | nil =>
      cases h
      trivial
    | cons x before => simp at h
  cdata before after h := by
    cases before with
    | nil => cases h
    | cons x before => simp at h

theorem keeping_begin (p : Phase) : Keeping p { events := #[.startDocument] } where
  orderly := orderly_begin
  opened := rfl
  root := by simp [isStart]
  doctype := by simp [isDoctype]
  noEnd := by simp
  pending h := absurd rfl h
  text _ := by simp [EndsWithoutText, withoutProblems, isProblem, isCharacters]

end Scan

open Scan

/-- **The events of every scan are disciplined**, whatever the text, the options and the files are.
A scan that succeeds closes every element, has one outermost and ends with the end of the document;
one that fails ends with its fatal problem. -/
theorem scanText_events_disciplined (text : List Char) (options : ParseOptions) (files : Files) :
    Disciplined (scanText text options files).events ∧
      ((scanText text options files).fatal = none →
        openAfter (scanText text options files).events = [] ∧
        (∃! before, RootAfter (scanText text options files).events before) ∧
        (scanText text options files).events.getLast? = some .endDocument) ∧
      ∀ e, (scanText text options files).fatal = some e →
        (scanText text options files).events.getLast? = some (.error e) ∧
        Event.endDocument ∉ (scanText text options files).events := by
  have h := Keeping.closed.triple_document ⟨text, options, files⟩ { events := #[.startDocument] }
    ⟨⟨keeping_begin _, keeping_begin _⟩, rfl⟩
  rw [scanText, run]
  cases hrun : document ⟨text, options, files⟩ { events := #[.startDocument] } with
  | ok a s =>
    rw [hrun] at h
    obtain ⟨hk, ho, hr⟩ := h
    have hevents : (s.events.push .endDocument).toList = s.events.toList ++ [.endDocument] :=
      Array.toList_push ..
    have horderly : Orderly (s.events.toList ++ [.endDocument]) :=
      hk.orderly.snoc trivial (by simp)
    have hd := horderly.disciplined
    obtain ⟨event, hmem, hstart⟩ := hk.root.mp hr
    obtain ⟨before, hroot⟩ :=
      exists_rootAfter ⟨event, List.mem_append_left [.endDocument] hmem, hstart⟩
    simp only [hevents]
    refine ⟨hd, fun _ => ⟨?_, ⟨before, hroot, fun b hb => hd.root b before hb hroot⟩, ?_⟩, by simp⟩
    · rw [openAfter_append_singleton, hk.opened, ho]
      rfl
    · exact List.getLast?_concat
  | error e s =>
    rw [hrun] at h
    obtain ⟨p, hk⟩ := h
    have hevents : (s.events.push (.error e)).toList = s.events.toList ++ [.error e] :=
      Array.toList_push ..
    have horderly : Orderly (s.events.toList ++ [.error e]) :=
      hk.orderly.snoc trivial (by simp)
    simp only [hevents]
    refine ⟨horderly.disciplined, by simp, fun e' he => ?_⟩
    cases he
    refine ⟨List.getLast?_concat, fun hmem => ?_⟩
    rcases List.mem_append.mp hmem with hmem | hmem
    · exact hk.noEnd hmem
    · cases List.mem_singleton.mp hmem

end Xml
