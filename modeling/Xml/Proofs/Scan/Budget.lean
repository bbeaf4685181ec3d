import Xml.Proofs.Scan.Bytes

/-!
# What a scan has to pay for

The bytes that a scan tells, as character data and as values of attributes, come from the text or
from the replacement texts of entities. The latter are counted when an entity is entered. So a part
of a scan that is given `n` bytes of text, and hands back a rest of `left` bytes, has told at most
the difference and what it has counted: `Affords n m left`. Such statements add up along the text.
That the replacement text of an entity need not be given is seen where it is entered
(`Affords.entity`): what is told of it was counted there.

## Failures

A scan that fails may have counted a replacement text that it did not enter. What it told until then
is still paid for, by the limit on what can be counted.
-/

namespace Xml

/-! ## What was told and what was counted -/

/-- The bytes of character data and of values of attributes that an event brings. -/
def Event.load : Event → Nat
  | .characters text => text.utf8ByteSize
  | .startElement _ attributes => (attributes.map fun a => a.value.utf8ByteSize).sum
  | _ => 0

namespace Scan

open Text

variable {α β : Type}

namespace State

/-- The bytes of character data and of values of attributes that were told or are yet to be told. -/
def load (s : State) : Nat :=
  (s.events.toList.map Event.load).sum + s.pending.utf8ByteSize

/-- The part of a state that entering an entity looks at. -/
def account (s : State) : List String × Nat :=
  (s.expanding, s.expandedBytes)

/-- No entity is being expanded inside itself, and what was counted keeps to the limit. -/
structure Within (s : State) : Prop where
  distinct : s.expanding.Nodup
  bounded : s.expandedBytes ≤ maxExpansion

def entered (s : State) (name : String) (size : Nat) : State :=
  { s with expandedBytes := s.expandedBytes + size, expanding := name :: s.expanding }

theorem load_told (s : State) (event : Event) : (s.told event).load = s.load + event.load := by
  simp only [load, told, Array.toList_push, List.map_append, List.sum_append, List.map_cons,
    List.map_nil, List.sum_singleton]
  omega

theorem load_flush (s : State) : s.flush.load = s.load := by
  unfold flush
  split
  · rfl
  · have h := s.load_told (.characters s.pending)
    simp only [load, told, Event.load] at h ⊢
    rw [String.utf8ByteSize_empty]
    omega

theorem account_flush (s : State) : s.flush.account = s.account := by
  unfold flush
  split <;> rfl

theorem Within.of_account {s s' : State} (h : s.Within) (hs : s'.account = s.account) :
    s'.Within := by
  obtain ⟨hexpanding, hbytes⟩ := Prod.mk.inj hs
  exact ⟨hexpanding ▸ h.distinct, hbytes ▸ h.bounded⟩

end State

/-- How a part of a scan that began in `s` with `n` bytes of text to use has ended. In a success
`left` bytes are left. -/
def Paid (s : State) (n : Nat) (left : α → Nat) : EStateM.Result ParseError State α → Prop
  | .ok a s' =>
    s'.Within ∧ s'.expanding = s.expanding ∧
      s'.load + left a + s.expandedBytes ≤ s.load + n + s'.expandedBytes
  | .error e s' =>
    s'.expanding.Nodup ∧ (s'.expandedBytes ≤ maxExpansion ∨ e.problem = .entityAmplification) ∧
      s'.load + s.expandedBytes ≤ s.load + n + maxExpansion

/-- With `n` bytes of text to use, a part of a scan tells no more than them and what it counts, and
leaves `left` of them. It enters and leaves the same entities. -/
def Affords (n : Nat) (m : ScanM α) (left : α → Nat) : Prop :=
  ∀ s : State, s.Within → Paid s n left (m s)

/-- A part of a scan that tells nothing but what it counts. -/
def Free (m : ScanM α) : Prop :=
  Affords 0 m fun _ => 0

section

variable {s s₁ : State} {n n' : Nat} {left left' : α → Nat}

theorem Paid.ofOk {s' : State} {a : α} (hs : s.Within) (ha : s'.account = s.account)
    (h : s'.load + left a ≤ s.load + n) : Paid s n left (.ok a s') := by
  obtain ⟨hexpanding, hbytes⟩ := Prod.mk.inj ha
  refine ⟨hs.of_account ha, hexpanding, ?_⟩
  omega

theorem Paid.ofError {e : ParseError} (hs : s.Within) : Paid s n left (.error e s) := by
  have hbounded := hs.bounded
  refine ⟨hs.distinct, .inl hbounded, ?_⟩
  omega

/-- What was paid from one state on was paid from another, if the way between them was. Bytes that
were not needed are left. -/
theorem Paid.trade {r : EStateM.Result ParseError State α} {k : Nat} (h : Paid s₁ n' left' r)
    (hsame : s₁.expanding = s.expanding)
    (hpaid : s₁.load + n' + k + s.expandedBytes ≤ s.load + n + s₁.expandedBytes)
    (hleft : ∀ a, left a ≤ left' a + k) : Paid s n left r := by
  cases r with
  | ok a s' =>
    obtain ⟨hwithin, hsame', hle⟩ := h
    have hk := hleft a
    refine ⟨hwithin, hsame'.trans hsame, ?_⟩
    omega
  | error e s' =>
    obtain ⟨hdistinct, hbounded, hle⟩ := h
    refine ⟨hdistinct, hbounded, ?_⟩
    omega

/-- A part may begin with a change of the state that is paid for. -/
theorem Paid.before {r : EStateM.Result ParseError State α} (h : Paid s₁ n' left r)
    (ha : s₁.account = s.account) (hload : s₁.load + n' ≤ s.load + n) : Paid s n left r := by
  obtain ⟨hexpanding, hbytes⟩ := Prod.mk.inj ha
  refine h.trade (k := 0) hexpanding ?_ fun _ => Nat.le_refl _
  omega

variable (env : Env)

namespace Affords

theorem ok {m : ScanM α} (h : Affords n m left) (hs : s.Within) {a : α} {s' : State}
    (hm : m s = .ok a s') : s'.Within ∧ s'.expanding = s.expanding := by
  have hpaid := h s hs
  rw [hm] at hpaid
  exact ⟨hpaid.1, hpaid.2.1⟩

theorem frame {m : ScanM α} (h : Affords n m left) (k : Nat) :
    Affords (n + k) m fun a => left a + k :=
  fun s hs => (h s hs).trade rfl (Nat.le_of_eq (by omega)) fun _ => Nat.le_refl _

theorem mono {m : ScanM α} (h : Affords n m left) (hn : n ≤ n') (hleft : ∀ a, left' a ≤ left a) :
    Affords n' m left' := by
  intro s hs
  refine (h s hs).trade (k := 0) rfl ?_ hleft
  omega

theorem ofPure {a : α} (h : left a ≤ n) : Affords n (pure a) left :=
  fun _ hs => .ofOk hs rfl (Nat.add_le_add_left h _)

/-- What the first part leaves is there for the second. Of that, only what follows a result that the
first part can have matters. -/
theorem thenFrom {m : ScanM α} {f : α → ScanM β} {rest : β → Nat} (hm : Affords n m left)
    (hf : ∀ a s s', m s = .ok a s' → Affords (left a) (f a) rest) : Affords n (m >>= f) rest := by
  intro s hs
  have h := hm s hs
  simp only [bind, EStateM.bind]
  cases hms : m s with
  | ok a s₁ =>
    rw [hms] at h
    obtain ⟨hwithin, hsame, hle⟩ := h
    exact (hf a s s₁ hms s₁ hwithin).trade (k := 0) hsame hle fun _ => Nat.le_refl _
  | error e s' =>
    rw [hms] at h
    exact h

theorem andThen {m : ScanM α} {f : α → ScanM β} {rest : β → Nat} (hm : Affords n m left)
    (hf : ∀ a, Affords (left a) (f a) rest) : Affords n (m >>= f) rest :=
  hm.thenFrom fun a _ _ _ => hf a

theorem ask {f : State → ScanM α} (h : ∀ s₀, Affords n (f s₀) left) :
    Affords n (get >>= f) left :=
  fun s hs => h s s hs

theorem ofFail (problem : Problem) (place : List Char) :
    Affords n (fail env problem place : ScanM α) left :=
  fun _ hs => .ofError hs

theorem ofFailAt (depth : Nat) (problem : Problem) (rest : List Char) :
    Affords n (failAt env depth problem rest : ScanM α) left :=
  fun _ hs => .ofError hs

theorem ofModify {f : State → State} {k : Nat} (ha : ∀ s, (f s).account = s.account)
    (hload : ∀ s, (f s).load + k ≤ s.load + n) : Affords n (modify f) fun _ => k :=
  fun s hs => .ofOk hs (ha s) (hload s)

theorem ofTell {event : Event} {k : Nat} (h : event.load + k ≤ n) :
    Affords n (tell event) fun _ => k := by
  refine .ofModify (fun _ => rfl) fun s => ?_
  show (s.told event).load + k ≤ s.load + n
  rw [s.load_told]
  omega

theorem ofAddText (text : String) : Affords text.utf8ByteSize (addText text) fun _ => 0 := by
  refine .ofModify (fun _ => rfl) fun s => ?_
  simp only [State.load, String.utf8ByteSize_append]
  omega

theorem ofAddChar (c : Char) : Affords c.utf8Size (addChar c) fun _ => 0 := by
  refine .ofModify (fun _ => rfl) fun s => ?_
  simp only [State.load, String.utf8ByteSize_push]
  omega

end Affords

namespace Free

theorem affords {m : ScanM α} (h : Free m) (n : Nat) : Affords n m fun _ => n :=
  (h.frame n).mono (Nat.le_of_eq (Nat.zero_add n)) fun _ => Nat.le_of_eq (Nat.zero_add n).symm

theorem andThen {m : ScanM α} {f : α → ScanM β} {rest : β → Nat} (hm : Free m)
    (hf : ∀ a, Affords n (f a) rest) : Affords n (m >>= f) rest :=
  Affords.andThen (hm.affords n) hf

theorem perhaps {c : Prop} [Decidable c] {m : ScanM PUnit} {f : PUnit → ScanM β} {rest : β → Nat}
    (hm : Free m) (hf : ∀ a, Affords n (f a) rest) :
    Affords n (if c then m >>= f else f ⟨⟩) rest := by
  split
  · exact hm.andThen hf
  · exact hf _

theorem ofPure (a : α) : Free (pure a) := Affords.ofPure le_rfl

theorem ofModify {f : State → State} (ha : ∀ s, (f s).account = s.account)
    (hload : ∀ s, (f s).load = s.load) : Free (modify f) :=
  Affords.ofModify ha fun s => (hload s).le

theorem ofTell {event : Event} (h : event.load = 0) : Free (tell event) :=
  Affords.ofTell h.le

theorem ofReport (problem : Problem) (place : List Char) : Free (report env problem place) :=
  ofTell rfl

theorem ofPlaceOf (depth : Nat) (rest : List Char) : Free (placeOf depth rest) :=
  fun _ hs => .ofOk hs rfl le_rfl

theorem ofFlush : Free flush :=
  ofModify State.account_flush State.load_flush

theorem ofCheckChars (site : CharSite) (text place : List Char) :
    Free (checkChars env site text place) := by
  unfold checkChars
  split
  · exact Affords.ofFail env _ place
  · exact ofPure ()

theorem ofRequireOpen (place : List Char) : Free (requireOpen env place) := by
  refine Affords.ask fun s₀ => ?_
  split
  · exact Affords.ofFail env _ place
  · exact ofPure ()

theorem ofRequireProlog (depth : Nat) (rest : List Char) : Free (requireProlog env depth rest) := by
  refine Affords.ask fun s₀ => ?_
  split
  · exact Affords.ofFail env _ _
  · exact ofPure ()

theorem ofTellAll (events : DeclarationProblem → Event) (h : ∀ problem, (events problem).load = 0)
    (problems : List DeclarationProblem) :
    Free (problems.forM fun problem => tell (events problem)) := by
  induction problems with
  | nil => exact ofPure _
  | cons problem problems ih => exact (ofTell (h problem)).andThen fun _ => ih

theorem ofDeclareAll (subset : List Char) (event : DeclarationProblem → Event)
    (h : ∀ problem, (event problem).load = 0) : Free (declareAll subset event) := by
  intro s hs
  have htell := ofTellAll event h (readDeclarations subset s.entities).2
    { s with entities := (readDeclarations subset s.entities).1 } (hs.of_account rfl)
  exact htell.before rfl le_rfl

theorem ofLoadSubset (systemId : String) : Free (loadSubset env systemId) := by
  unfold loadSubset
  split
  · split
    · exact ofDeclareAll _ _ fun _ => rfl
    · exact ofTell rfl
  · exact ofTell rfl

theorem ofLoadEntity (name systemId : String) : Free (loadEntity env name systemId) := by
  unfold loadEntity
  split
  · split
    · exact ofPure _
    · exact (ofTell rfl).andThen fun _ => ofPure _
  · exact (ofTell rfl).andThen fun _ => ofPure _

end Free

/-! ## Entities -/

theorem enterEntity_eq (name : String) (size : Nat) (s : State) :
    enterEntity env name size s =
      if name ∈ s.expanding then .error (env.errorAt .entityLoop s.anchor) s
      else if s.expandedBytes + size > maxExpansion then
        .error (env.errorAt .entityAmplification s.anchor)
          { s with expandedBytes := s.expandedBytes + size }
      else .ok () (s.entered name size) := by
  unfold enterEntity
  rw [get_bind]
  by_cases hl : name ∈ s.expanding
  · rw [if_pos (List.contains_iff_mem.mpr hl), if_pos hl]
    rfl
  · rw [if_neg fun h => hl (List.contains_iff_mem.mp h), if_neg hl]
    by_cases hover : s.expandedBytes + size > maxExpansion
    · simp only [if_pos hover]
      rfl
    · simp only [if_neg hover]
      rfl

/-- An entity that can be entered was not being expanded, and its text keeps to the limit. -/
theorem State.Within.entered {env : Env} {name : String} {size : Nat} (hs : s.Within)
    (h : enterEntity env name size s = .ok () s₁) :
    s₁ = s.entered name size ∧ s₁.Within := by
  rw [enterEntity_eq] at h
  split at h
  · cases h
  · next hnew =>
    split at h
    · cases h
    · next hfit =>
      cases h
      exact ⟨rfl, List.nodup_cons.mpr ⟨hnew, hs.distinct⟩, Nat.le_of_not_lt hfit⟩

/-- **Inside an entity, its replacement text is there to be used.** It was counted when the entity
was entered. -/
theorem Affords.entity {m : ScanM α} (env : Env) (name : String) {size : Nat}
    (h : Affords (size + n) m left) :
    Affords n (do enterEntity env name size; let a ← m; leaveEntity; return a) left := by
  intro s hs
  have hbounded := hs.bounded
  cases henter : enterEntity env name size s with
  | error e s' =>
    simp only [bind, EStateM.bind, henter]
    rw [enterEntity_eq] at henter
    split at henter
    · cases henter
      exact .ofError hs
    · split at henter
      · cases henter
        refine ⟨hs.distinct, .inr rfl, ?_⟩
        show s.load + s.expandedBytes ≤ s.load + n + maxExpansion
        omega
      · cases henter
  | ok _ s₁ =>
    obtain ⟨rfl, hwithin⟩ := hs.entered henter
    have hm := h _ hwithin
    have hload : (s.entered name size).load = s.load := rfl
    have hcount : (s.entered name size).expandedBytes = s.expandedBytes + size := rfl
    rw [bind_of_ok henter]
    cases hr : m (s.entered name size) with
    | ok a s₂ =>
      rw [hr] at hm
      rw [bind_of_ok hr]
      obtain ⟨hwithin₂, hsame, hle⟩ := hm
      have htail : s₂.expanding.tail = s.expanding := by rw [hsame]; rfl
      refine ⟨⟨?_, hwithin₂.bounded⟩, htail, ?_⟩
      · show s₂.expanding.tail.Nodup
        rw [htail]
        exact hs.distinct
      · show s₂.load + left a + s.expandedBytes ≤ s.load + n + s₂.expandedBytes
        omega
    | error e s₂ =>
      rw [hr] at hm
      simp only [bind, EStateM.bind, hr]
      obtain ⟨hdistinct, hlimit, hle⟩ := hm
      refine ⟨hdistinct, hlimit, ?_⟩
      omega

theorem withEntity_eq (env : Env) (name replacement : String) (inside : List Char → ScanM Unit) :
    withEntity env name replacement inside = (do
      enterEntity env name replacement.utf8ByteSize
      let a ← (do
        let s ← get
        set { s with entityBase := s.opened.length }
        inside replacement.toList
        let s' ← get
        if s'.opened.length != s'.entityBase then
          fail env (.unbalancedEntity name) s'.anchor
        modify fun t => { t with entityBase := s.entityBase } : ScanM Unit)
      leaveEntity
      return a) := by
  funext s
  simp only [withEntity, bind, EStateM.bind]
  cases enterEntity env name replacement.utf8ByteSize s with
  | error e s' => rfl
  | ok _ s₁ =>
    dsimp only [get, getThe, MonadStateOf.get, EStateM.get, set, EStateM.set]
    cases inside replacement.toList { s₁ with entityBase := s₁.opened.length } with
    | error e s' => rfl
    | ok _ s₂ =>
      dsimp only
      by_cases hb : (s₂.opened.length != s₂.entityBase) = true
      · simp only [if_pos hb]
        rfl
      · simp only [if_neg hb]
        rfl

theorem Free.ofWithEntity (name replacement : String) {inside : List Char → ScanM Unit}
    (h : ∀ text, Affords (byteSize text) (inside text) fun _ => 0) :
    Free (withEntity env name replacement inside) := by
  have hclose (base : Nat) : Free (do
      let s' ← get
      if s'.opened.length != s'.entityBase then
        fail env (.unbalancedEntity name) s'.anchor
      modify fun t => { t with entityBase := base } : ScanM Unit) := by
    refine Affords.ask fun s' => Free.perhaps (Affords.ofFail env _ _) fun _ => ?_
    exact Free.ofModify (fun _ => rfl) fun _ => rfl
  rw [withEntity_eq]
  refine Affords.entity env name fun s hs => ?_
  have hinside := (h replacement.toList).andThen fun _ => hclose s.entityBase
  rw [byteSize_toList] at hinside
  exact (hinside { s with entityBase := s.opened.length } (hs.of_account rfl)).before rfl le_rfl

end

end Scan

end Xml
