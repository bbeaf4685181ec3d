import Mathlib.Data.List.Infix
import Mathlib.Data.List.Nodup
import Xml.Scan.Document

/-!
# Reasoning about parts of a scan

`Triple P m Q E` says of a part `m` of a scan: from a state with `P` it ends in a state with `Q`, or
at a fatal problem in a state with `E`. The rules follow the way parts are put together.

An invariant of content takes a look at one step and at the text of an entity only
(`Triple.ofContent`). What neither problems nor bookkeeping touch (`Quiet`) is kept by the parts that
do nothing else: those that read attribute values, load files, and enter and leave entities.
-/

namespace Xml

def Problem.isUnboundPrefix : Problem → Bool
  | .unboundElementPrefix _ _ | .unboundAttributePrefix _ _ _ => true
  | _ => false

namespace Scan

open Text

variable {α β : Type} {env : Env} {problem : Problem} {event : Event}

def State.told (s : State) (event : Event) : State :=
  { s with events := s.events.push event }

/-- The part of a state that says where in the document the scan is. -/
def State.frame (s : State) : List String × String × Bool × Bool :=
  (s.opened, s.pending, s.seenRoot, s.seenDoctype)

section frame

variable {s s' : State} (h : s'.frame = s.frame)

include h

theorem State.opened_eq_of_frame : s'.opened = s.opened := congrArg Prod.fst h

theorem State.pending_eq_of_frame : s'.pending = s.pending := congrArg (·.2.1) h

theorem State.seenRoot_eq_of_frame : s'.seenRoot = s.seenRoot := congrArg (·.2.2.1) h

theorem State.seenDoctype_eq_of_frame : s'.seenDoctype = s.seenDoctype := congrArg (·.2.2.2) h

end frame

/-- From a state with `P`, the part `m` ends in a state with `Q`, or fails in a state with `E`. -/
def Triple (P : State → Prop) (m : ScanM α) (Q : α → State → Prop) (E : State → Prop) : Prop :=
  ∀ s, P s →
    match m s with
    | .ok a s' => Q a s'
    | .error _ s' => E s'

variable {R : PUnit → State → Prop}

namespace Triple

variable {P P' : State → Prop} {Q Q' : α → State → Prop} {E E' : State → Prop}

theorem ok {m : ScanM α} (h : Triple P m Q E) {s s' : State} {a : α} (hs : P s)
    (hm : m s = .ok a s') : Q a s' := by
  have h' := h s hs
  rwa [hm] at h'

theorem exists_ok {m : ScanM α} (h : Triple P m Q fun _ => False) {s : State} (hs : P s) :
    ∃ a s', m s = .ok a s' ∧ Q a s' := by
  have h' := h s hs
  cases hm : m s with
  | ok a s' =>
    rw [hm] at h'
    exact ⟨a, s', rfl, h'⟩
  | error e s' =>
    rw [hm] at h'
    exact h'.elim

theorem ofPure {a : α} (h : ∀ s, P s → Q a s) : Triple P (pure a) Q E := h

theorem andThen {m : ScanM α} {f : α → ScanM β} {R : β → State → Prop} (hm : Triple P m Q E)
    (hf : ∀ a, Triple (Q a) (f a) R E) : Triple P (m >>= f) R E := by
  intro s hs
  have h := hm s hs
  simp only [bind, EStateM.bind]
  cases hms : m s with
  | ok a s' =>
    rw [hms] at h
    exact hf a s' h
  | error e s' =>
    rw [hms] at h
    exact h

/-- Asking for the state: what follows starts in that very state. -/
theorem getThen {f : State → ScanM β} {R : β → State → Prop}
    (h : ∀ s₀, P s₀ → Triple (· = s₀) (f s₀) R E) : Triple P (get >>= f) R E :=
  fun s hs => h s hs s rfl

/-- Asking for the state, when what follows keeps what it has just seen. -/
theorem look {f : State → ScanM β} {R : β → State → Prop}
    (h : ∀ s₀, P s₀ → Triple (fun s => P s ∧ s.frame = s₀.frame) (f s₀) R E) :
    Triple P (get >>= f) R E :=
  fun s hs => h s hs s ⟨hs, rfl⟩

theorem ofModify {f : State → State} (h : ∀ s, P s → R ⟨⟩ (f s)) : Triple P (modify f) R E :=
  h

theorem ofSet {s' : State} (h : ∀ s, P s → R ⟨⟩ s') : Triple P (set s') R E :=
  h

theorem ofFail {place : List Char} (h : ∀ s, P s → E s) :
    Triple P (fail env problem place : ScanM α) Q E :=
  h

/-- Nothing is done behind a fatal problem. -/
theorem ofFailThen {place : List Char} {f : α → ScanM β} {R : β → State → Prop}
    (h : ∀ s, P s → E s) : Triple P (fail env problem place >>= f) R E :=
  h

theorem ofFailAt {depth : Nat} {rest : List Char} (h : ∀ s, P s → E s) :
    Triple P (failAt env depth problem rest : ScanM α) Q E :=
  h

theorem ofTell (h : ∀ s, P s → R ⟨⟩ (s.told event)) : Triple P (tell event) R E :=
  h

variable {I : State → Prop}

theorem ofForM {f : α → ScanM PUnit} (h : ∀ a, Triple I (f a) (fun _ => I) E) (as : List α) :
    Triple I (as.forM f) (fun _ => I) E := by
  induction as with
  | nil => exact .ofPure fun _ hs => hs
  | cons a as ih => exact .andThen (h a) fun _ => ih

/-- Declaring entities changes their table and tells what is wrong. -/
theorem ofDeclareAll {subset : List Char} {event : DeclarationProblem → Event}
    (same : ∀ s table, I s → I { s with entities := table })
    (told : ∀ table, ∀ problem ∈ (readDeclarations subset table).2, ∀ s, I s →
      I (s.told (event problem))) : Triple I (declareAll subset event) (fun _ => I) E := by
  refine .getThen fun s₀ h₀ => .andThen (Q := fun _ => I) (.ofSet fun s _ => same s₀ _ h₀) fun _ => ?_
  have told := told s₀.entities
  show Triple I ((readDeclarations subset s₀.entities).2.forM fun problem => tell (event problem))
    (fun _ => I) E
  generalize (readDeclarations subset s₀.entities).2 = problems at told ⊢
  induction problems with
  | nil => exact .ofPure fun _ hs => hs
  | cons problem problems ih =>
    obtain ⟨hfirst, hrest⟩ := List.forall_mem_cons.mp told
    exact .andThen (Q := fun _ => I) (.ofTell hfirst) fun _ => ih hrest

theorem ofLoadSubset (env : Env) (systemId : String)
    (same : ∀ s table, I s → I { s with entities := table })
    (told : ∀ s warning, I s → I (s.told (.warning warning))) :
    Triple I (loadSubset env systemId) (fun _ => I) E := by
  rw [loadSubset]
  split
  · split
    · exact .ofDeclareAll same fun _ problem _ s => told s _
    · exact .ofTell fun s => told s _
  · exact .ofTell fun s => told s _

theorem weaken {m : ScanM α} (h : Triple P m Q E) (hP : ∀ s, P' s → P s)
    (hQ : ∀ a s, Q a s → Q' a s) (hE : ∀ s, E s → E' s) : Triple P' m Q' E' := by
  intro s hs
  have h' := h s (hP s hs)
  cases hms : m s with
  | ok a s' =>
    rw [hms] at h'
    exact hQ a s' h'
  | error e s' =>
    rw [hms] at h'
    exact hE s' h'

theorem ofPost {m : ScanM α} (hQ : ∀ a s, Q a s) (hE : ∀ s, E s) : Triple P m Q E := by
  intro s _
  cases m s with
  | ok a s' => exact hQ a s'
  | error e s' => exact hE s'

theorem given {m : ScanM α} (h : Triple P m Q E) (hP : ∀ s, P' s → P s) : Triple P' m Q E :=
  h.weaken hP (fun _ _ hs => hs) fun _ hs => hs

end Triple

theorem get_bind (f : State → ScanM β) (s : State) : (get >>= f) s = f s s := rfl

theorem placeOf_bind (depth : Nat) (rest : List Char) (f : List Char → ScanM β) (s : State) :
    (placeOf depth rest >>= f) s = f (s.place depth rest) s := rfl

theorem bind_of_ok {m : ScanM α} {f : α → ScanM β} {s s₁ : State} {a : α}
    (h : m s = .ok a s₁) : (m >>= f) s = f a s₁ := by
  simp only [bind, EStateM.bind, h]

theorem bind_eq_ok {m : ScanM α} {f : α → ScanM β} {s s' : State} {b : β}
    (h : (m >>= f) s = .ok b s') : ∃ a s₁, m s = .ok a s₁ ∧ f a s₁ = .ok b s' := by
  simp only [bind, EStateM.bind] at h
  split at h
  · next a s₁ hm => exact ⟨a, s₁, hm, h⟩
  · cases h

/-! ## The loop over content -/

/-- What a reference to an entity does inside `content`: one level deeper, if there is one. -/
def expandAt (env : Env) (depth : Nat) (name replacement : String) : ScanM Unit :=
  if depth < maxEntityDepth then
    withEntity env name replacement fun inner => content env (depth + 1) inner
  else do fail env .entityLoop (← get).anchor

theorem content_nil (env : Env) (depth : Nat) (s : State) : content env depth [] s = .ok () s := by
  rw [content]

theorem content_cons (env : Env) (depth : Nat) (c : Char) (after : List Char) (s : State) :
    content env depth (c :: after) s =
      match step env depth (expandAt env depth) c after s with
      | .ok rest s' => content env depth rest s'
      | .error e s' => .error e s' := by
  have he : (fun name replacement =>
      if _h : depth < maxEntityDepth then
        withEntity env name replacement fun inner => content env (depth + 1) inner
      else do fail env .entityLoop (← get).anchor) = expandAt env depth := by
    funext name replacement
    rw [expandAt]
    split <;> rfl
  rw [content]
  split
  · next h =>
    rw [he] at h
    rw [h]
  · next h =>
    rw [he] at h
    rw [h]

/-- On one level of entities, the text gets shorter from step to step. -/
theorem Triple.ofContentLevel {depth : Nat} {I E : State → Prop}
    (hstep : ∀ c after, Triple I (step env depth (expandAt env depth) c after) (fun _ => I) E)
    (text : List Char) : Triple I (content env depth text) (fun _ => I) E := by
  induction hn : text.length using Nat.strong_induction_on generalizing text with
  | _ n ih =>
    intro s hs
    cases text with
    | nil =>
      rw [content_nil]
      exact hs
    | cons c after =>
      have h := hstep c after s hs
      rw [content_cons]
      cases hr : step env depth (expandAt env depth) c after s with
      | ok rest s' =>
        rw [hr] at h
        have hlen := (step_suffix hr).length_le
        rw [List.length_cons] at hn
        exact ih rest.length (by omega) rest rfl s' h
      | error e s' =>
        rw [hr] at h
        exact h

/-- **An invariant of content.** It is enough to look at one step, whose references keep the
invariant, and at the entering and leaving of an entity, whose text keeps it. -/
theorem Triple.ofContent {I E : State → Prop} (hE : ∀ s, I s → E s)
    (hstep : ∀ depth expand, (∀ name replacement, Triple I (expand name replacement)
      (fun _ => I) E) → ∀ c after, Triple I (step env depth expand c after) (fun _ => I) E)
    (hentity : ∀ name replacement inside, (∀ text, Triple I (inside text) (fun _ => I) E) →
      Triple I (withEntity env name replacement inside) (fun _ => I) E) (depth : Nat)
    (text : List Char) : Triple I (content env depth text) (fun _ => I) E := by
  induction hn : maxEntityDepth - depth using Nat.strong_induction_on generalizing depth text with
  | _ n ih =>
    refine .ofContentLevel (hstep depth _ fun name replacement => ?_) text
    rw [expandAt]
    split
    · next hlt => exact hentity name replacement _ fun inner => ih _ (by omega) _ inner rfl
    · exact .getThen fun s₀ h₀ => .ofFail fun s hs => hE s (hs ▸ h₀)

/-! ## What stays true -/

/-- A property that a part of a scan keeps, also when it fails. -/
def Keeps (I : State → Prop) (m : ScanM α) : Prop :=
  Triple I m (fun _ => I) I

namespace Keeps

variable {I : State → Prop}

theorem ofPure (a : α) : Keeps I (pure a) := fun _ hs => hs

theorem andThen {m : ScanM α} {f : α → ScanM β} (hm : Keeps I m) (hf : ∀ a, Keeps I (f a)) :
    Keeps I (m >>= f) :=
  Triple.andThen hm hf

/-- What comes first keeps the property that the rest starts with. -/
theorem before {P E : State → Prop} {m : ScanM α} {f : α → ScanM β} {R : β → State → Prop}
    (hm : Keeps P m) (hE : ∀ s, P s → E s) (hf : ∀ a, Triple P (f a) R E) :
    Triple P (m >>= f) R E :=
  Triple.andThen (hm.weaken (fun _ h => h) (fun _ _ h => h) hE) hf

/-- What follows a question may depend on the answer. -/
theorem ask {f : State → ScanM β} (h : ∀ s₀, Keeps I (f s₀)) : Keeps I (get >>= f) :=
  fun s hs => h s s hs

theorem perhaps {c : Prop} [Decidable c] {m : ScanM PUnit} {f : PUnit → ScanM β}
    (hm : Keeps I m) (hf : ∀ a, Keeps I (f a)) : Keeps I (if c then m >>= f else f ⟨⟩) := by
  split
  · exact andThen hm hf
  · exact hf _

theorem ofModify {f : State → State} (h : ∀ s, I s → I (f s)) : Keeps I (modify f) := h

theorem ofFail (env : Env) (problem : Problem) (place : List Char) :
    Keeps I (fail env problem place : ScanM α) := fun _ hs => hs

theorem ofPlaceOf (depth : Nat) (rest : List Char) : Keeps I (placeOf depth rest) :=
  fun _ hs => hs

theorem ofCheckChars (env : Env) (site : CharSite) (text place : List Char) :
    Keeps I (checkChars env site text place) := by
  rw [checkChars]
  split
  · exact ofFail env _ place
  · exact ofPure ()

theorem ofRequireOpen (env : Env) (place : List Char) : Keeps I (requireOpen env place) := by
  refine ask fun s₀ => ?_
  split
  · exact ofFail env _ place
  · exact ofPure ()

end Keeps

/-! ## Problems and bookkeeping -/

/-- An event that tells of a problem and not of the document. -/
def isProblem : Event → Bool
  | .error _ | .warning _ => true
  | _ => false

/-- An event that tells of a prefix without a declaration. That is found when a document is built,
not by a scan. -/
def tellsUnboundPrefix : Event → Bool
  | .error e => e.problem.isUnboundPrefix
  | _ => false

def isScanProblem (event : Event) : Bool :=
  isProblem event && !tellsUnboundPrefix event

theorem isScanProblem_iff :
    isScanProblem event = true ↔ isProblem event = true ∧ tellsUnboundPrefix event = false := by
  rw [isScanProblem, Bool.and_eq_true, Bool.not_eq_true']

/-- The part of a state that the document shows in: not where problems are reported, and not which
entities are declared or being expanded. -/
def State.visible (s : State) : Array Event × List String × String × Bool × Bool :=
  (s.events, s.frame)

/-- A property that neither problems nor bookkeeping touch. -/
structure Quiet (I : State → Prop) : Prop where
  told : ∀ s event, isScanProblem event = true → I s → I (s.told event)
  same : ∀ s s', s'.visible = s.visible → I s → I s'

/-- Where the scan is in the document may be part of such a property. -/
theorem Quiet.and {I C : State → Prop} (hI : Quiet I)
    (hC : ∀ s s', s'.frame = s.frame → C s → C s') : Quiet fun s => I s ∧ C s where
  told s event h hs := ⟨hI.told s event h hs.1, hC s _ rfl hs.2⟩
  same s s' h hs := ⟨hI.same s s' h hs.1, hC s s' (congrArg Prod.snd h) hs.2⟩

namespace Quiet

variable {I : State → Prop} (hI : Quiet I)

include hI

theorem keeps_tell (h : isScanProblem event = true) : Keeps I (tell event) :=
  fun s hs => hI.told s event h hs

theorem keeps_report (env : Env) (problem : Problem) (place : List Char)
    (h : problem.isUnboundPrefix = false) : Keeps I (report env problem place) := by
  exact hI.keeps_tell (isScanProblem_iff.mpr ⟨rfl, h⟩)

theorem keeps_enterEntity (env : Env) (name : String) (size : Nat) :
    Keeps I (enterEntity env name size) := by
  refine Triple.getThen fun s₀ h₀ => ?_
  have hstart : ∀ s, s = s₀ → I s := fun s hs => hs ▸ h₀
  dsimp only
  by_cases hl : s₀.expanding.contains name
  · rw [if_pos hl]
    exact .ofFailThen hstart
  · rw [if_neg hl]
    refine Triple.andThen (Q := fun _ => I) (.ofSet fun s hs => hI.same s₀ _ rfl h₀) fun _ => ?_
    split
    · exact .ofFailThen fun _ hs => hs
    · exact .ofModify fun s hs => hI.same s _ rfl hs

theorem keeps_leaveEntity : Keeps I leaveEntity :=
  .ofModify fun s hs => hI.same s _ rfl hs

theorem keeps_attributeText (env : Env) (place : List Char) (depth : Nat) (text : List Char)
    (out : String) : Keeps I (attributeText env place depth text out) := by
  cases text with
  | nil =>
    rw [attributeText]
    exact .ofPure out
  | cons c after =>
    rw [attributeText]
    split
    · split
      · exact .andThen (hI.keeps_report env _ _ rfl) fun _ =>
          keeps_attributeText env place depth _ _
      · next reference rest h =>
        have hlen := (breakOn_suffix h).length_le
        split
        · split
          · exact keeps_attributeText env place depth _ _
          · exact .andThen (hI.keeps_report env _ _ rfl) fun _ =>
              keeps_attributeText env place depth _ _
        · split
          · exact keeps_attributeText env place depth _ _
          · split
            · refine .ask fun s₀ => ?_
              dsimp only
              split
              · split
                · refine .andThen (hI.keeps_enterEntity env _ _) fun _ => ?_
                  refine .andThen (keeps_attributeText env place (depth + 1) _ _) fun _ => ?_
                  refine .andThen hI.keeps_leaveEntity fun _ => .andThen (.ofPure _) fun _ => ?_
                  exact keeps_attributeText env place depth _ _
                · exact .andThen (.ofFail env _ _) fun _ => keeps_attributeText env place depth _ _
              · refine .andThen (hI.keeps_report env _ _ rfl) fun _ => ?_
                exact .andThen (.ofPure _) fun _ => keeps_attributeText env place depth _ _
              · refine .andThen (hI.keeps_report env _ _ rfl) fun _ => ?_
                exact .andThen (.ofPure _) fun _ => keeps_attributeText env place depth _ _
            · exact .andThen (hI.keeps_report env _ _ rfl) fun _ =>
                keeps_attributeText env place depth _ _
    · exact keeps_attributeText env place depth _ _
termination_by (maxEntityDepth - depth, text.length)
decreasing_by
  all_goals subst_vars
  all_goals first
    | (apply Prod.Lex.left; omega)
    | (apply Prod.Lex.right; simp only [List.length_cons]; omega)

theorem keeps_attributeValue (env : Env) (depth : Nat) (raw : RawAttribute) :
    Keeps I (attributeValue env depth raw) := by
  refine .andThen (.ofPlaceOf depth _) fun place => .andThen (.ofCheckChars env _ _ _) fun _ => ?_
  refine .perhaps (hI.keeps_report env _ _ rfl) fun _ => ?_
  split
  · refine .perhaps (.ofModify fun s hs => hI.same s _ rfl hs) fun _ => ?_
    exact hI.keeps_attributeText env place 0 _ _
  · exact .ofPure _

/-- The attributes that are kept have different names: of two with one name the first counts. -/
theorem triple_attributeValues (env : Env) (depth : Nat) (tag : List Char)
    (raws : List RawAttribute) (kept : List Attribute) :
    Triple I (attributeValues env depth tag kept raws)
      (fun attributes s => I s ∧
        ((kept.map (·.name)).Nodup → (attributes.map (·.name)).Nodup)) I := by
  induction raws generalizing kept with
  | nil =>
    refine .ofPure fun s hs => ⟨hs, fun hk => ?_⟩
    rw [List.map_reverse]
    exact List.nodup_reverse.mpr hk
  | cons raw raws ih =>
    refine Triple.andThen (hI.keeps_attributeValue env depth raw) fun value => ?_
    split
    · refine Triple.andThen (Keeps.ofPlaceOf depth tag) fun place => ?_
      exact Triple.andThen (hI.keeps_report env _ place rfl) fun _ => ih kept
    · next hnew =>
      refine (ih _).weaken (fun _ h => h) (fun attributes s hs => ⟨hs.1, fun hk => hs.2 ?_⟩)
        fun _ h => h
      refine List.nodup_cons.mpr ⟨fun hm => hnew ?_, hk⟩
      obtain ⟨a, ha, hname⟩ := List.mem_map.mp hm
      exact List.any_eq_true.mpr ⟨a, ha, beq_iff_eq.mpr hname⟩

theorem keeps_attributeValues (env : Env) (depth : Nat) (tag : List Char)
    (raws : List RawAttribute) (kept : List Attribute) :
    Keeps I (attributeValues env depth tag kept raws) :=
  (hI.triple_attributeValues env depth tag raws kept).weaken (fun _ h => h) (fun _ _ h => h.1)
    fun _ h => h

theorem keeps_loadEntity (env : Env) (name systemId : String) :
    Keeps I (loadEntity env name systemId) := by
  rw [loadEntity]
  split
  · split
    · exact .ofPure _
    · exact .andThen (hI.keeps_tell rfl) fun _ => .ofPure _
  · exact .andThen (hI.keeps_tell rfl) fun _ => .ofPure _

theorem triple_loadSubset {E : State → Prop} (env : Env) (systemId : String) :
    Triple I (loadSubset env systemId) (fun _ => I) E :=
  .ofLoadSubset env systemId (fun s _ => hI.same s _ rfl) fun s _ => hI.told s _ rfl

theorem triple_withEntity {E : State → Prop} (hE : ∀ s, I s → E s) (env : Env)
    (name replacement : String) {inside : List Char → ScanM Unit}
    (h : ∀ text, Triple I (inside text) (fun _ => I) E) :
    Triple I (withEntity env name replacement inside) (fun _ => I) E := by
  refine Keeps.before (hI.keeps_enterEntity env name _) hE fun _ => .getThen fun s₀ h₀ => ?_
  refine Triple.andThen (Q := fun _ => I) (.ofSet fun s _ => hI.same s₀ _ rfl h₀) fun _ => ?_
  refine Triple.andThen (h _) fun _ => ?_
  refine Triple.weaken (E := I) ?_ (fun _ h => h) (fun _ _ h => h) hE
  refine Keeps.ask fun _ => .perhaps (.ofFail env _ _) fun _ => ?_
  exact .andThen (.ofModify fun s hs => hI.same s _ rfl hs) fun _ => hI.keeps_leaveEntity

end Quiet

end Scan

end Xml
