import Xml.Proofs.Scan.Subset
import Xml.Proofs.Scan.Triple

/-!
# The moves of a scan

What a scan can do to its state, whatever the text, the options and the files are: `Move` lists it,
with what holds whenever it is done. Each part of a scan is a sequence of moves, so a property that
every move keeps is kept by the whole scan, up to its end or to the fatal problem that ends it
(`Closed.triple_document`).
-/

namespace Xml.Scan

open Text

variable {event : Event} {env : Env}

/-- An event that stands for itself: it opens and closes nothing and carries no character data. -/
def isAside : Event → Bool
  | .comment _ | .instruction _ _ => true
  | _ => false

/-- A state in which a problem was told that keeps a document from being read. -/
def State.Failed (s : State) : Prop :=
  ∃ e, Event.error e ∈ s.events.toList

/-- Every entity declaration in the internal subset can be read. -/
def SoundSubset (declaration : Doctype) : Prop :=
  ∀ subset ∈ declaration.subset, (readDeclarations subset.toList {}).2 = []

/-- A document type that can be told: it was read, and if something is wrong with its subset, that
was told before. -/
structure Declared (declaration : Doctype) (s : State) : Prop where
  read : ∃ inside rest, readDoctype inside = .ok (declaration, rest)
  sound : SoundSubset declaration ∨ s.Failed

namespace State

/-- A state after a start tag. -/
def start (s : State) (name : String) (attributes : List Attribute) : State :=
  { s with
    events := s.events.push (.startElement name attributes)
    opened := name :: s.opened
    seenRoot := true }

/-- A state after a start tag that is an end tag too. -/
def startEmpty (s : State) (name : String) (attributes : List Attribute) : State :=
  { s with
    events := (s.events.push (.startElement name attributes)).push (.endElement name)
    seenRoot := true }

/-- A state after an end tag, with the elements it leaves open. -/
def finish (s : State) (name : String) (others : List String) : State :=
  { s with events := s.events.push (.endElement name), opened := others }

/-- A state after a CDATA section. -/
def cdata (s : State) (text : List Char) : State :=
  let s := s.told .startCData
  let s := if text.isEmpty then s else s.told (.characters (String.ofList text))
  s.told .endCData

/-- A state after a document type declaration. -/
def doctype (s : State) (declaration : Doctype) : State :=
  { s with events := s.events.push (.doctype declaration), seenDoctype := true }

variable (s : State)

theorem Failed.of_told (e : ParseError) : (s.told (.error e)).Failed :=
  ⟨e, by simp [told]⟩

theorem Failed.told {s : State} (h : s.Failed) (event : Event) : (s.told event).Failed := by
  obtain ⟨e, he⟩ := h
  exact ⟨e, by simp [State.told, Array.mem_toList_iff.mp he]⟩

theorem Failed.flush {s : State} (h : s.Failed) : s.flush.Failed := by
  rw [State.flush]
  split
  · exact h
  · exact h.told (.characters s.pending)

theorem flush_pending : s.flush.pending = "" := by
  rw [flush]
  split
  · next h => exact String.isEmpty_iff.mp h
  · rfl

@[simp] theorem opened_flush : s.flush.opened = s.opened := by
  rw [flush]
  split <;> rfl

@[simp] theorem entities_flush : s.flush.entities = s.entities := by
  rw [flush]
  split <;> rfl

@[simp] theorem seenRoot_flush : s.flush.seenRoot = s.seenRoot := by
  rw [flush]
  split <;> rfl

end State

/-- Where a scan is: at the XML declaration, between two pieces of content, or at a piece of markup,
in front of which the character data was told. -/
inductive Phase where
  | begin
  | content
  | markup

/-- What a scan can do to its state. -/
inductive Move : Phase → State → Phase → State → Prop where
  | problem {p : Phase} {s : State} {event : Event} (h : isScanProblem event = true) :
      Move p s p (s.told event)
  | bookkeeping {p : Phase} {s s' : State} (h : s'.visible = s.visible) : Move p s p s'
  | text {s : State} (ho : s.opened ≠ []) (pending : String) :
      Move .content s .content { s with pending := pending }
  | flush (s : State) : Move .content s .markup s.flush
  | aside {s : State} {event : Event} (hp : s.pending = "") (h : isAside event = true) :
      Move .markup s .content (s.told event)
  /-- The XML declaration comes before everything that changes where the scan is. -/
  | declaration {s : State} (hf : s.frame = ([], "", false, false)) (version : String)
      (encoding : Option String) (standalone : Option Bool) :
      Move .begin s .content (s.told (.xmlDeclaration version encoding standalone))
  | reference {s : State} (hp : s.pending = "") (ho : s.opened ≠ []) (name : String)
      {replacement : Option String} (hr : replacement = none → s.Failed) :
      Move .markup s .content (s.told (.entityReference name replacement))
  | cdata {s : State} (hp : s.pending = "") (ho : s.opened ≠ []) (text : List Char) :
      Move .markup s .content (s.cdata text)
  | start {s : State} (hp : s.pending = "") (hr : s.opened = [] → s.seenRoot = false)
      (name : String) {attributes : List Attribute} (hn : (attributes.map (·.name)).Nodup) :
      Move .markup s .content (s.start name attributes)
  | startEmpty {s : State} (hp : s.pending = "") (hr : s.opened = [] → s.seenRoot = false)
      (name : String) {attributes : List Attribute} (hn : (attributes.map (·.name)).Nodup) :
      Move .markup s .content (s.startEmpty name attributes)
  | finish {s : State} {name : String} {others : List String} (hp : s.pending = "")
      (ho : s.opened = name :: others) : Move .markup s .content (s.finish name others)
  | doctype {s : State} (hp : s.pending = "") (hr : s.seenRoot = false)
      (hd : s.seenDoctype = false) (declaration : Doctype) (ht : Declared declaration s) :
      Move .markup s .content (s.doctype declaration)

/-- Where an element is required to be open, one is. -/
theorem Triple.ofRequireOpen {I : State → Prop} (env : Env) (place : List Char) :
    Triple I (requireOpen env place) (fun _ s => I s ∧ s.opened ≠ []) I := by
  refine .look fun s₀ _ => ?_
  split
  · exact .ofFail fun _ hs => hs.1
  · next ho =>
    refine .ofPure fun s hs => ⟨hs.1, ?_⟩
    rw [State.opened_eq_of_frame hs.2]
    exact fun h => ho (List.isEmpty_iff.mpr h)

/-- Where a document type is required to be able to stand, neither one nor the root came before. -/
theorem Triple.ofRequireProlog {I : State → Prop} (env : Env) (depth : Nat) (rest : List Char) :
    Triple I (requireProlog env depth rest)
      (fun _ s => I s ∧ s.seenRoot = false ∧ s.seenDoctype = false) I := by
  refine .look fun s₀ _ => ?_
  split
  · exact .ofFail fun _ hs => hs.1
  · next h =>
    simp only [Bool.or_eq_true, not_or, Bool.not_eq_true] at h
    refine .ofPure fun s hs => ⟨hs.1, ?_, ?_⟩
    · rw [State.seenRoot_eq_of_frame hs.2]
      exact h.1.2
    · rw [State.seenDoctype_eq_of_frame hs.2]
      exact h.2

theorem Quiet.failed : Quiet State.Failed where
  told _ event _ h := h.told event
  same s s' h hs := by rwa [State.Failed, show s'.events = s.events from congrArg Prod.fst h]

/-- Declaring the entities of a subset tells of an error unless all of it can be read. -/
theorem Quiet.triple_declareErrors {I E : State → Prop} (hI : Quiet I) (subset : List Char)
    {error : DeclarationProblem → ParseError}
    (h : ∀ problem, isScanProblem (.error (error problem)) = true) :
    Triple I (declareAll subset fun problem => .error (error problem))
      (fun _ s => I s ∧ ((readDeclarations subset {}).2 = [] ∨ s.Failed)) E := by
  refine Triple.getThen fun s₀ h₀ => ?_
  refine Triple.andThen (Q := fun _ => I) (.ofSet fun s _ => hI.same s₀ _ rfl h₀) fun _ => ?_
  rw [← readDeclarations_problems subset s₀.entities]
  show Triple I
    ((readDeclarations subset s₀.entities).2.forM fun problem => tell (.error (error problem))) _ E
  cases (readDeclarations subset s₀.entities).2 with
  | nil => exact .ofPure fun s hs => ⟨hs, .inl rfl⟩
  | cons problem problems =>
    refine Triple.andThen (Q := fun _ s => I s ∧ s.Failed)
      (.ofTell fun s hs => ⟨hI.told s _ (h problem) hs, .of_told s _⟩) fun _ => ?_
    refine (Triple.ofForM (I := fun s => I s ∧ s.Failed) (fun problem => .ofTell fun s hs => ?_)
      problems).weaken (fun _ h => h) (fun _ s hs => ⟨hs.1, .inr hs.2⟩) fun _ h => h
    exact ⟨hI.told s _ (h problem) hs.1, hs.2.told _⟩

/-- A property that every move keeps. It may look different in the two phases. -/
def Closed (I : Phase → State → Prop) : Prop :=
  ∀ p s q s', Move p s q s' → I p s → I q s'

variable {P : State → Prop}

namespace Closed

variable {I : Phase → State → Prop} (hI : Closed I)

include hI

theorem quiet (p : Phase) : Quiet (I p) where
  told _ _ h hs := hI p _ p _ (.problem h) hs
  same _ _ h hs := hI p _ p _ (.bookkeeping h) hs

theorem quiet_inside : Quiet fun s => I .content s ∧ s.opened ≠ [] :=
  (hI.quiet .content).and fun _ _ h ho => State.opened_eq_of_frame h ▸ ho

theorem quiet_flushed : Quiet fun s => I .markup s ∧ s.pending = "" :=
  (hI.quiet .markup).and fun _ _ h hp => State.pending_eq_of_frame h ▸ hp

theorem triple_flush {E : State → Prop} :
    Triple (I .content) flush (fun _ s => I .markup s ∧ s.pending = "") E :=
  .ofModify fun s hs => ⟨hI _ s _ _ (.flush s) hs, s.flush_pending⟩

theorem triple_addText {E : State → Prop} (text : String) :
    Triple (fun s => I .content s ∧ s.opened ≠ []) (addText text) (fun _ => I .content) E :=
  .ofModify fun s hs => hI _ s _ _ (.text hs.2 _) hs.1

theorem triple_addChar {E : State → Prop} (c : Char) :
    Triple (fun s => I .content s ∧ s.opened ≠ []) (addChar c) (fun _ => I .content) E :=
  .ofModify fun s hs => hI _ s _ _ (.text hs.2 _) hs.1

theorem keeps_takeText (env : Env) (depth : Nat) (rest text : List Char) :
    Keeps (I .content) (takeText env depth rest text) := by
  refine Triple.look fun s₀ _ => ?_
  dsimp only
  split
  · refine Triple.given (P := I .content) ?_ fun _ hs => hs.1
    split
    · exact Keeps.ofPure _
    · exact Keeps.ofFail env _ _
  · next ho =>
    refine Triple.given (P := fun s => I .content s ∧ s.opened ≠ []) ?_ fun s hs => ⟨hs.1, ?_⟩
    · refine Keeps.before (.ofCheckChars env _ _ _) (fun _ h => h.1) fun _ => ?_
      split
      · exact Keeps.before (hI.quiet_inside.keeps_report env _ _ rfl) (fun _ h => h.1) fun _ =>
          hI.triple_addText _
      · exact hI.triple_addText _
    · rw [State.opened_eq_of_frame hs.2]
      exact fun h => ho (List.isEmpty_iff.mpr h)

/-! ### References -/

/-- A reference to an entity that is not declared is told behind the problem that it is not. -/
theorem triple_tellReference {E : State → Prop} (name : String) (replacement : Option String) :
    Triple (fun s => (I .content s ∧ s.opened ≠ []) ∧ (replacement = none → s.Failed))
      (flush >>= fun _ => tell (.entityReference name replacement)) (fun _ => I .content) E := by
  refine Triple.andThen (Q := fun _ s => ((I .markup s ∧ s.opened ≠ []) ∧ s.pending = "") ∧
    (replacement = none → s.Failed)) ?_ ?_
  · refine .ofModify fun s hs => ⟨⟨⟨hI _ s _ _ (.flush s) hs.1.1, ?_⟩, s.flush_pending⟩, ?_⟩
    · rw [State.opened_flush]
      exact hs.1.2
    · exact fun hnone => (hs.2 hnone).flush
  · exact fun _ => .ofTell fun s hs =>
      hI _ s _ _ (.reference hs.1.2 hs.1.1.2 _ hs.2) hs.1.1.1

section expand

variable {E : State → Prop} (hE : ∀ s, I .content s → E s)
  {expand : String → String → ScanM Unit}
  (he : ∀ name text, Triple (I .content) (expand name text) (fun _ => I .content) E)

include hE he

theorem triple_useEntity (env : Env) (depth : Nat) (name replacement : String)
    (rest : List Char) : Triple (fun s => I .content s ∧ s.opened ≠ [])
      (useEntity env depth expand name replacement rest) (fun _ => I .content) E := by
  rw [useEntity]
  split
  · refine Triple.given (P := I .content) ?_ fun _ hs => hs.1
    dsimp only
    split
    · refine Keeps.before (.ofModify fun s hs => (hI.quiet .content).same s _ rfl hs) hE fun _ => ?_
      exact he name replacement
    · exact he name replacement
  · exact (hI.triple_tellReference name _).given fun _ hs => ⟨hs, fun hnone => by cases hnone⟩

theorem triple_takeEntity (env : Env) (depth : Nat) (name : String) (rest : List Char) :
    Triple (fun s => I .content s ∧ s.opened ≠ []) (takeEntity env depth expand name rest)
      (fun _ => I .content) E := by
  have hin := hI.quiet_inside
  refine Triple.look fun s₀ _ => ?_
  refine Triple.given (P := fun s => I .content s ∧ s.opened ≠ []) ?_ fun _ hs => hs.1
  dsimp only
  split
  · have hreport : Triple (fun s => I .content s ∧ s.opened ≠ [])
        (report env (.undefinedEntity name) (s₀.place depth rest))
        (fun _ s => (I .content s ∧ s.opened ≠ []) ∧ s.Failed) E :=
      .ofTell fun s hs => ⟨hin.told s _ rfl hs, .of_told s _⟩
    exact .andThen hreport fun _ =>
      (hI.triple_tellReference name none).given fun _ hs => ⟨hs.1, fun _ => hs.2⟩
  · exact (hin.keeps_report env _ _ rfl).weaken (fun _ h => h) (fun _ _ h => h.1)
      fun s h => hE s h.1
  · exact hI.triple_useEntity hE he env depth name _ rest
  · exact Keeps.before (hin.keeps_loadEntity env name _) (fun s h => hE s h.1) fun _ =>
      hI.triple_useEntity hE he env depth name _ rest

theorem triple_takeReference (env : Env) (depth : Nat) (rest : List Char) (reference : Reference) :
    Triple (I .content) (takeReference env depth expand rest reference)
      (fun _ => I .content) E := by
  have hin := hI.quiet_inside
  refine Keeps.before (.ofPlaceOf depth rest) hE fun place => ?_
  refine Triple.andThen ((Triple.ofRequireOpen env place).weaken (fun _ h => h) (fun _ _ h => h) hE)
    fun _ => ?_
  cases reference with
  | char c =>
    cases c with
    | some c => exact hI.triple_addChar c
    | none =>
      exact (hin.keeps_report env _ _ rfl).weaken (fun _ h => h) (fun _ _ h => h.1)
        fun s h => hE s h.1
  | entity name =>
    dsimp only
    split
    · exact hI.triple_addChar _
    · exact hI.triple_takeEntity hE he env depth _ rest
  | plain =>
    exact Keeps.before (hin.keeps_report env _ _ rfl) (fun s h => hE s h.1) fun _ =>
      hI.triple_addChar _

end expand

/-! ### Markup -/

theorem triple_takeEndTag (env : Env) (depth : Nat) (rest : List Char) (name : String) :
    Triple (fun s => I .markup s ∧ s.pending = "") (takeEndTag env depth rest name)
      (fun _ => I .content) (I .markup) := by
  refine Triple.getThen fun s₀ h₀ => ?_
  have hstart : ∀ s, s = s₀ → I .markup s := fun s hs => hs ▸ h₀.1
  dsimp only
  generalize hb : (if depth = 0 then 0 else s₀.entityBase) = base
  split
  · exact .ofFail hstart
  · next top others ho =>
    by_cases hl : s₀.opened.length ≤ base
    · rw [if_pos hl]
      exact .ofFailThen hstart
    rw [if_neg hl]
    by_cases hn : (top != name) = true
    · rw [if_pos hn]
      exact .ofFailThen hstart
    rw [if_neg hn]
    refine .andThen (Q := fun _ s => s = { s₀ with opened := others }) (.ofSet fun _ _ => rfl) ?_
    refine fun _ => .ofTell fun s hs => ?_
    have hname : top = name := by simpa using hn
    rw [hs]
    exact hI _ s₀ _ _ (.finish h₀.2 (hname ▸ ho)) h₀.1

theorem triple_tellAside (h : isAside event = true) :
    Triple (fun s => I .markup s ∧ s.pending = "") (tell event) (fun _ => I .content) (I .markup) :=
  .ofTell fun s hs => hI _ s _ _ (.aside hs.2 h) hs.1

theorem triple_takeComment (env : Env) (depth : Nat) (rest text : List Char) :
    Triple (fun s => I .markup s ∧ s.pending = "") (takeComment env depth rest text)
      (fun _ => I .content) (I .markup) := by
  refine Keeps.before (.ofPlaceOf depth rest) (fun _ h => h.1) fun place => ?_
  refine Keeps.before (.ofCheckChars env _ _ _) (fun _ h => h.1) fun _ => ?_
  dsimp only
  split
  · exact Keeps.before (hI.quiet_flushed.keeps_report env _ _ rfl) (fun _ h => h.1) fun _ =>
      hI.triple_tellAside rfl
  · exact hI.triple_tellAside rfl

theorem triple_takeCData (env : Env) (depth : Nat) (rest text : List Char) :
    Triple (fun s => I .markup s ∧ s.pending = "") (takeCData env depth rest text)
      (fun _ => I .content) (I .markup) := by
  refine Keeps.before (.ofPlaceOf depth rest) (fun _ h => h.1) fun place => ?_
  refine Triple.andThen ((Triple.ofRequireOpen env place).weaken (fun _ h => h) (fun _ _ h => h)
    fun _ h => h.1) fun _ => ?_
  refine Keeps.before (.ofCheckChars env _ _ _) (fun _ h => h.1.1) fun _ s hs => ?_
  have h := hI _ s _ _ (.cdata hs.1.2 hs.2 text) hs.1.1
  rw [State.cdata] at h
  cases text with
  | nil => exact h
  | cons c text => exact h

theorem triple_takeDoctype (env : Env) (depth : Nat) (rest : List Char) {declaration : Doctype}
    {inside tail : List Char} (hread : readDoctype inside = .ok (declaration, tail)) :
    Triple (fun s => I .markup s ∧ s.pending = "") (takeDoctype env depth rest declaration)
      (fun _ => I .content) (I .markup) := by
  -- The declaration counts as seen before the problems of its subsets are told. They are told as if
  -- it did not count yet.
  let J : State → Prop := fun s => I .markup { s with seenDoctype := false } ∧
    s.pending = "" ∧ s.seenRoot = false ∧ s.seenDoctype = true
  have hJ : Quiet J := by
    refine Quiet.and
      ⟨fun s event h hs => (hI.quiet .markup).told _ event h hs, fun s s' h hs => ?_⟩ ?_
    · refine (hI.quiet .markup).same { s with seenDoctype := false } _ ?_ hs
      have hf : s'.frame = s.frame := congrArg Prod.snd h
      simp only [State.visible, State.frame, State.opened_eq_of_frame hf,
        State.pending_eq_of_frame hf, State.seenRoot_eq_of_frame hf]
      rw [show s'.events = s.events from congrArg Prod.fst h]
    · intro s s' hf hs
      rwa [State.pending_eq_of_frame hf, State.seenRoot_eq_of_frame hf,
        State.seenDoctype_eq_of_frame hf]
  refine Triple.andThen ((Triple.ofRequireProlog env depth rest).weaken (fun _ h => h)
    (fun _ _ h => h) fun _ h => h.1) fun _ => ?_
  refine Keeps.before (.ofPlaceOf depth rest) (fun _ h => h.1.1) fun place => ?_
  refine Triple.andThen (Q := fun _ => J) (.ofModify fun s hs => ⟨?_, hs.1.2, hs.2.1, rfl⟩)
    fun _ => ?_
  · refine (hI.quiet .markup).same s _ ?_ hs.1.1
    simp [State.visible, State.frame, hs.2.2]
  let K : State → Prop := fun s => J s ∧ (SoundSubset declaration ∨ s.Failed)
  have hK : Quiet K :=
    ⟨fun s event h hs => ⟨hJ.told s event h hs.1, hs.2.imp_right (Quiet.failed.told s event h)⟩,
      fun s s' h hs => ⟨hJ.same s s' h hs.1, hs.2.imp_right (Quiet.failed.same s s' h)⟩⟩
  have htell : Triple K (tell (.doctype declaration)) (fun _ => I .content) (I .markup) := by
    refine .ofTell fun s hs => ?_
    have h := hI _ _ _ _ (.doctype (s := { s with seenDoctype := false }) hs.1.2.1 hs.1.2.2.1 rfl
      declaration ⟨⟨inside, tail, hread⟩, hs.2⟩) hs.1.1
    rwa [State.doctype, ← hs.1.2.2.2] at h
  dsimp only
  split
  · next subset hsubset =>
    refine .andThen (Q := fun _ => K) ?_ fun _ => ?_
    · refine (hJ.triple_declareErrors subset.toList fun _ => rfl).weaken (fun _ h => h)
        (fun _ s hs => ⟨hs.1, hs.2.imp_left fun hnil => ?_⟩) fun _ h => h
      rw [SoundSubset, hsubset]
      rintro _ ⟨⟩
      exact hnil
    · split
      · exact .andThen (hK.triple_loadSubset env _) fun _ => htell
      · exact htell
  · next hsubset =>
    have hsound : SoundSubset declaration := by
      rw [SoundSubset, hsubset]
      rintro _ ⟨⟩
    refine Triple.given (P := K) ?_ fun s hs => ⟨hs, .inl hsound⟩
    split
    · exact .andThen (hK.triple_loadSubset env _) fun _ => htell
    · exact htell

/-- A start tag can stand inside an element, and as the first one outside. Its attributes have
different names. -/
theorem triple_openTag (env : Env) (depth : Nat) (rest : List Char) (raws : List RawAttribute) :
    Triple (fun s => I .markup s ∧ s.pending = "") (openTag env depth rest raws)
      (fun attributes s => ((I .markup s ∧ s.pending = "") ∧ (s.opened = [] → s.seenRoot = false)) ∧
        (attributes.map (·.name)).Nodup) (I .markup) := by
  have hq := hI.quiet_flushed.and (C := fun s => s.opened = [] → s.seenRoot = false)
    fun _ _ h hs => by rwa [State.opened_eq_of_frame h, State.seenRoot_eq_of_frame h]
  refine Triple.look fun s₀ _ => ?_
  dsimp only
  split
  · exact .ofFailThen fun _ hs => hs.1.1
  · next h =>
    refine (hq.triple_attributeValues env depth rest raws []).weaken (fun s hs => ⟨hs.1, ?_⟩)
      (fun _ _ h => ⟨h.1, h.2 .nil⟩) fun _ h => h.1.1
    intro ho
    rw [State.opened_eq_of_frame hs.2] at ho
    rw [State.seenRoot_eq_of_frame hs.2]
    simpa [ho] using h

theorem triple_takeStartTag (env : Env) (depth : Nat) (rest : List Char) (name : String)
    (raws : List RawAttribute) (isEmpty : Bool) :
    Triple (fun s => I .markup s ∧ s.pending = "") (takeStartTag env depth rest name raws isEmpty)
      (fun _ => I .content) (I .markup) := by
  refine Triple.andThen (hI.triple_openTag env depth rest raws) fun attributes s hs => ?_
  obtain ⟨⟨⟨hmarkup, hp⟩, hr⟩, hn⟩ := hs
  cases isEmpty with
  | true => exact hI _ s _ _ (.startEmpty hp hr name hn) hmarkup
  | false => exact hI _ s _ _ (.start hp hr name hn) hmarkup

theorem triple_startTag (env : Env) (depth : Nat) (rest after : List Char) :
    Triple (fun s => I .markup s ∧ s.pending = "") (startTag env depth rest after)
      (fun _ => I .content) (I .markup) := by
  rw [startTag]
  split
  · exact .ofFailAt fun _ h => h.1
  · dsimp only
    split
    · exact .andThen (hI.triple_takeStartTag env depth rest _ _ _) fun _ => .ofPure fun _ h => h
    · exact .andThen (hI.triple_takeStartTag env depth rest _ _ _) fun _ => .ofPure fun _ h => h
    · exact .andThen (hI.triple_openTag env depth rest _) fun _ => .ofFailAt fun _ h => h.1.1.1
    · exact .andThen (hI.triple_openTag env depth rest _) fun _ => .ofFailAt fun _ h => h.1.1.1

omit hI in
theorem triple_afterPiece {α : Type} {depth : Nat} {rest : List Char} {check : ScanM Unit}
    {effect : α → ScanM Unit} (hc : Keeps (fun s => I .markup s ∧ s.pending = "") check)
    {piece : Except Problem (α × List Char)} (he : ∀ found tail, piece = .ok (found, tail) →
      Triple (fun s => I .markup s ∧ s.pending = "") (effect found) (fun _ => I .content)
        (I .markup)) :
    Triple (fun s => I .markup s ∧ s.pending = "") (afterPiece env depth rest piece check effect)
      (fun _ => I .content) (I .markup) := by
  cases piece with
  | ok piece => exact .andThen (he piece.1 piece.2 rfl) fun _ => .ofPure fun _ h => h
  | error problem => exact Keeps.before hc (fun _ h => h.1) fun _ => .ofFailAt fun _ h => h.1

theorem triple_markup (env : Env) (depth : Nat) (after : List Char) :
    Triple (fun s => I .markup s ∧ s.pending = "") (markup env depth after)
      (fun _ => I .content) (I .markup) := by
  rw [markup]
  split
  · exact triple_afterPiece (.ofPure _) fun name _ _ => hI.triple_takeEndTag env depth _ name
  split
  · exact triple_afterPiece (.ofPure _) fun text _ _ => hI.triple_takeComment env depth _ text
  split
  · refine triple_afterPiece ?_ fun text _ _ => hI.triple_takeCData env depth _ text
    exact .andThen (.ofPlaceOf depth _) fun place => .ofRequireOpen env place
  split
  · refine triple_afterPiece ?_ fun _ _ hread => hI.triple_takeDoctype env depth _ hread
    exact (Triple.ofRequireProlog env depth _).weaken (fun _ h => h) (fun _ _ h => h.1) fun _ h => h
  split
  · exact triple_afterPiece (.ofPure _) fun _ _ _ => hI.triple_tellAside rfl
  split
  · exact hI.triple_startTag env depth _ after
  · exact .ofFailAt fun _ h => h.1

/-! ### Content and documents -/

theorem triple_step (env : Env) (depth : Nat) {expand : String → String → ScanM Unit}
    (he : ∀ name text, Triple (I .content) (expand name text) (fun _ => I .content)
      fun s => ∃ p, I p s) (c : Char) (after : List Char) :
    Triple (I .content) (step env depth expand c after) (fun _ => I .content)
      fun s => ∃ p, I p s := by
  have hE : ∀ s, I .content s → ∃ p, I p s := fun _ h => ⟨.content, h⟩
  rw [step]
  split
  · refine .andThen hI.triple_flush fun _ => ?_
    exact (hI.triple_markup env depth after).weaken (fun _ h => h) (fun _ _ h => h)
      fun _ h => ⟨.markup, h⟩
  split
  · exact .andThen (hI.triple_takeReference hE he env depth _ _) fun _ => .ofPure fun _ h => h
  · exact Keeps.before (hI.keeps_takeText env depth _ _) hE fun _ => .ofPure fun _ h => h

theorem triple_content (env : Env) (depth : Nat) (text : List Char) :
    Triple (I .content) (content env depth text) (fun _ => I .content) fun s => ∃ p, I p s :=
  .ofContent (fun _ h => ⟨.content, h⟩) (fun depth _ he => hI.triple_step env depth he)
    (fun name replacement _ hi =>
      (hI.quiet .content).triple_withEntity (fun _ h => ⟨.content, h⟩) env name replacement hi)
    depth text

theorem triple_takeXmlDeclaration (env : Env) (inside : List Char) :
    Triple (fun s => I .begin s ∧ s.frame = ([], "", false, false)) (takeXmlDeclaration env inside)
      (fun _ => I .content) (I .begin) := by
  have hq : Quiet fun s => I .begin s ∧ s.frame = ([], "", false, false) :=
    (hI.quiet .begin).and fun _ _ h hf => h.trans hf
  rw [takeXmlDeclaration]
  split
  · exact .ofFail fun _ h => h.1
  split
  · exact .ofFail fun _ h => h.1
  · next version _ =>
    have hstandalone (value : Option String) :
        Keeps (fun s => I .begin s ∧ s.frame = ([], "", false, false))
          (standaloneValue value) := by
      rw [standaloneValue.eq_def]
      split
      · exact .ofPure _
      · exact .ofPure _
      · exact .ofPure _
      · exact .andThen (hq.keeps_tell rfl) fun _ => .ofPure _
    refine Keeps.before (hstandalone _) (fun _ h => h.1) fun standalone => ?_
    refine .andThen (Q := fun _ => I .content) ?_ fun _ => .ofPure fun _ h => h
    exact .ofTell fun s hs => hI _ s _ _ (.declaration hs.2 version _ standalone) hs.1

omit hI in
theorem triple_checkEnd (env : Env) :
    Triple P (checkEnd env) (fun _ s => P s ∧ s.opened = [] ∧ s.seenRoot = true) P := by
  refine .look fun s₀ _ => ?_
  split
  · exact .ofFail fun _ hs => hs.1
  · next ho =>
    split
    · next hr =>
      refine .ofPure fun s hs => ⟨hs.1, ?_, ?_⟩
      · rw [State.opened_eq_of_frame hs.2, ho]
      · rw [State.seenRoot_eq_of_frame hs.2, hr]
    · exact .ofFail fun _ hs => hs.1

/-- **What every move keeps holds at the end of a scan**, also of one that fails. One that succeeds
has closed every element. -/
theorem triple_document (env : Env) :
    Triple (fun s => (I .content s ∧ I .begin s) ∧ s.frame = ([], "", false, false)) (document env)
      (fun _ s => I .markup s ∧ s.opened = [] ∧ s.seenRoot = true) fun s => ∃ p, I p s := by
  have hrest (rest : List Char) : Triple (I .content) (do content env 0 rest; flush; checkEnd env)
      (fun _ s => I .markup s ∧ s.opened = [] ∧ s.seenRoot = true) fun s => ∃ p, I p s := by
    refine Triple.andThen (hI.triple_content env 0 rest) fun _ => ?_
    refine Triple.andThen (hI.triple_flush.weaken (fun _ h => h) (fun _ _ h => h.1) fun _ h => h)
      fun _ => ?_
    exact (triple_checkEnd env).weaken (fun _ h => h) (fun _ _ h => h) fun _ h => ⟨.markup, h⟩
  rw [document]
  dsimp only
  split
  · refine .andThen ((hI.triple_takeXmlDeclaration env _).weaken (fun _ h => ⟨h.1.2, h.2⟩)
      (fun _ _ h => h) fun _ h => ⟨.begin, h⟩) hrest
  · exact .andThen (.ofPure fun _ h => h.1.1) hrest

end Closed

/-! ## What was told stays told -/

/-- An event that a document without mistakes and without a document type does not give. -/
def isFlaw : Event → Bool
  | .error _ | .doctype _ => true
  | _ => false

/-- A state in which such an event was told. -/
def Spoilt (s : State) : Prop :=
  ∃ event ∈ s.events, isFlaw event = true

theorem spoilt_told {s : State} : Spoilt (s.told event) ↔ Spoilt s ∨ isFlaw event = true := by
  simp only [Spoilt, State.told, Array.mem_push, or_and_right, exists_or, exists_eq_left]

theorem spoilt_told_of_not {s : State} (h : isFlaw event = false) :
    Spoilt (s.told event) ↔ Spoilt s := by
  rw [spoilt_told, h, or_iff_left Bool.false_ne_true]

theorem Spoilt.told {s : State} (h : Spoilt s) (event : Event) : Spoilt (s.told event) :=
  spoilt_told.mpr (.inl h)

theorem spoilt_flush {s : State} : Spoilt s.flush ↔ Spoilt s := by
  rw [State.flush]
  split
  · rfl
  · exact spoilt_told_of_not rfl

/-- From one state to the other only events without a flaw are told. -/
def TellsNoFlaw (s s' : State) : Prop :=
  ∃ more, s'.events.toList = s.events.toList ++ more ∧ ∀ event ∈ more, isFlaw event = false

namespace TellsNoFlaw

variable {s s' s'' : State}

theorem of_events (h : s'.events = s.events) : TellsNoFlaw s s' :=
  ⟨[], by rw [h, List.append_nil], List.forall_mem_nil _⟩

theorem trans (h : TellsNoFlaw s s') (h' : TellsNoFlaw s' s'') : TellsNoFlaw s s'' := by
  obtain ⟨more, hmore, hflaw⟩ := h
  obtain ⟨more', hmore', hflaw'⟩ := h'
  exact ⟨more ++ more', by rw [hmore', hmore, List.append_assoc],
    List.forall_mem_append.mpr ⟨hflaw, hflaw'⟩⟩

theorem told (h : TellsNoFlaw s s') (he : isFlaw event = false) : TellsNoFlaw s (s'.told event) :=
  h.trans ⟨[event], Array.toList_push .., List.forall_mem_singleton.mpr he⟩

theorem flush (s : State) : TellsNoFlaw s s.flush := by
  rw [State.flush]
  split
  · exact .of_events rfl
  · have h : TellsNoFlaw s (s.told (.characters s.pending)) := (of_events rfl).told rfl
    exact h.trans (.of_events rfl)

theorem cdata (h : TellsNoFlaw s s') (text : List Char) : TellsNoFlaw s (s'.cdata text) := by
  have hstart : TellsNoFlaw s (s'.told .startCData) := h.told rfl
  rw [State.cdata]
  split
  · exact hstart.told rfl
  · exact (hstart.told rfl).told rfl

theorem mem_iff (h : TellsNoFlaw s s') (he : isFlaw event = true) :
    event ∈ s'.events.toList ↔ event ∈ s.events.toList := by
  obtain ⟨more, hmore, hflaw⟩ := h
  rw [hmore, List.mem_append, or_iff_left]
  intro hm
  rw [hflaw event hm] at he
  cases he

theorem spoilt_iff (h : TellsNoFlaw s s') : Spoilt s' ↔ Spoilt s := by
  refine exists_congr fun event => and_congr_left fun he => ?_
  rw [← Array.mem_toList_iff, ← Array.mem_toList_iff]
  exact h.mem_iff he

end TellsNoFlaw

theorem tellsUnboundPrefix_of_isAside (h : isAside event = true) :
    tellsUnboundPrefix event = false := by
  cases event <;> first | rfl | cases h

theorem ne_doctype_of_isAside (h : isAside event = true) (d : Doctype) : event ≠ .doctype d := by
  rintro rfl
  cases h

theorem ne_doctype_of_isScanProblem (h : isScanProblem event = true) (d : Doctype) :
    event ≠ .doctype d := by
  rintro rfl
  cases h

/-- What looks at the events only and is not undone by another event that a scan can tell is kept by
every move. A document type that is told is declared. -/
theorem Closed.of_told_declared (told : ∀ s event, tellsUnboundPrefix event = false →
      (∀ d, event = .doctype d → Declared d s) → P s → P (s.told event))
    (same : ∀ s s' : State, s'.events = s.events → P s → P s') : Closed fun _ => P := by
  intro p s q s' hmove hs
  have other (s : State) {event : Event} (hb : tellsUnboundPrefix event = false)
      (hd : ∀ d, event ≠ .doctype d) (hs : P s) : P (s.told event) :=
    told s event hb (fun d h => absurd h (hd d)) hs
  cases hmove with
  | problem h => exact other s (isScanProblem_iff.mp h).2 (ne_doctype_of_isScanProblem h) hs
  | bookkeeping h => exact same s s' (congrArg Prod.fst h) hs
  | flush =>
    rw [State.flush]
    split
    · exact hs
    · exact same (s.told (.characters s.pending)) _ rfl (other s rfl (fun _ h => by cases h) hs)
  | text ho pending => exact same s _ rfl hs
  | aside hp h => exact other s (tellsUnboundPrefix_of_isAside h) (ne_doctype_of_isAside h) hs
  | declaration hf version encoding standalone => exact other s rfl (fun _ h => by cases h) hs
  | reference hp ho name hr => exact other s rfl (fun _ h => by cases h) hs
  | cdata hp ho text =>
    have hstart : P (s.told .startCData) := other s rfl (fun _ h => by cases h) hs
    rw [State.cdata]
    split
    · exact other _ rfl (fun _ h => by cases h) hstart
    · exact other _ rfl (fun _ h => by cases h) (other _ rfl (fun _ h => by cases h) hstart)
  | @start _ hp hr name attributes hn =>
    exact same (s.told (.startElement name attributes)) _ rfl
      (other s rfl (fun _ h => by cases h) hs)
  | @startEmpty _ hp hr name attributes hn =>
    exact same ((s.told (.startElement name attributes)).told (.endElement name)) _ rfl
      (other _ rfl (fun _ h => by cases h) (other s rfl (fun _ h => by cases h) hs))
  | @finish _ name _ hp ho =>
    exact same (s.told (.endElement name)) _ rfl (other s rfl (fun _ h => by cases h) hs)
  | doctype hp hr hd declaration ht =>
    refine same (s.told (.doctype declaration)) _ rfl (told s _ rfl (fun d h => ?_) hs)
    cases h
    exact ht

/-- What looks at the events only and is not undone by any event that a scan can tell is kept by
every move. -/
theorem Closed.of_told (told : ∀ s event, tellsUnboundPrefix event = false → P s → P (s.told event))
    (same : ∀ s s' : State, s'.events = s.events → P s → P s') : Closed fun _ => P :=
  .of_told_declared (fun s event hb _ hs => told s event hb hs) same

theorem Closed.spoilt : Closed fun _ => Spoilt :=
  .of_told (fun _ event _ h => h.told event) fun _ _ he h => by rwa [Spoilt, he]

theorem Closed.failed : Closed fun _ => State.Failed :=
  .of_told (fun _ event _ h => h.told event) fun _ _ he h => by rwa [State.Failed, he]

/-- **A scan tells of no prefix without a declaration.** -/
theorem Closed.bound :
    Closed fun _ s => ∀ event ∈ s.events.toList, tellsUnboundPrefix event = false := by
  refine .of_told (fun s event he hs => ?_) fun s s' he hs => by rwa [he]
  rw [State.told, Array.toList_push, List.forall_mem_append, List.forall_mem_singleton]
  exact ⟨hs, he⟩

theorem keeps_spoilt_content (env : Env) (text : List Char) :
    Keeps Spoilt (content env 0 text) :=
  (Closed.spoilt.triple_content env 0 text).weaken (fun _ h => h) (fun _ _ h => h)
    fun _ h => h.elim fun _ h => h

/-- What succeeds without a flaw had none when it began. -/
theorem Keeps.not_spoilt {α : Type} {m : ScanM α} (hm : Keeps Spoilt m) {s s' : State} {a : α}
    (h : m s = .ok a s') (hs : ¬ Spoilt s') : ¬ Spoilt s :=
  fun hbad => hs (Triple.ok hm hbad h)

theorem Triple.ofReportThen {β : Type} {problem : Problem} {place : List Char} {f : Unit → ScanM β}
    (hf : Keeps Spoilt (f ())) {Q : Prop} :
    Triple P (report env problem place >>= f) (fun _ s => Spoilt s ∨ Q) fun _ => True := by
  have hreport : Triple P (report env problem place) (fun _ => Spoilt) fun _ => True :=
    .ofTell fun s _ => spoilt_told.mpr (.inr rfl)
  exact .andThen hreport fun _ => hf.weaken (fun _ h => h) (fun _ _ h => .inl h) fun _ _ => trivial

theorem spoilt_of_report {β : Type} {problem : Problem} {place : List Char} {f : Unit → ScanM β}
    (hf : Keeps Spoilt (f ())) {s s' : State} {b : β}
    (h : (report env problem place >>= f) s = .ok b s') : Spoilt s' :=
  ((Triple.ofReportThen hf (P := fun _ => True) (Q := False)).ok trivial h).resolve_right id

end Xml.Scan
