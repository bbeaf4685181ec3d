import Xml.Proofs.Scan.Spending

/-!
# The expansion of entities is bounded

Entities may refer to themselves and to each other in any way, from content and from the values of
attributes, and their replacement texts may come from files that do so. Wherever a scan comes to, it
expands no entity inside itself, is not deeper in entities than the limit in either recursion, and
has not counted more replacement text than the limit (`Bounded.visits`, from what one call keeps:
`Bounded.call`). What it tells in all is bounded by its text and that limit.
-/

namespace Xml.Scan

open Text

variable {env : Env} {spot spot' : Spot} {s s' : State}

theorem State.account_atValue (s : State) (env : Env) (depth : Nat) (raw : RawAttribute) :
    (s.atValue env depth raw).account = s.account := by
  simp only [State.atValue]
  split <;> split <;> rfl

/-- What was told, with a last event that brings nothing, is part of what is counted as told. -/
theorem State.sum_load_le (s : State) (event : Event) (h : event.load = 0) :
    ((s.events.push event).toList.map Event.load).sum ≤ s.load := by
  have hload := s.load_told event
  rw [h] at hload
  have hle : ((s.told event).events.toList.map Event.load).sum ≤ (s.told event).load :=
    Nat.le_add_right _ _
  exact hle.trans_eq hload

/-- What holds wherever a scan comes to. The entities that are being expanded are those around. -/
structure Bounded (spot : Spot) (s : State) : Prop where
  within : s.Within
  nesting : s.expanding.length = spot.depth + spot.level
  depth_le : spot.depth ≤ maxEntityDepth
  level_le : spot.level ≤ maxEntityDepth

namespace Bounded

theorem beside (h : Bounded spot s) (hs : s'.Within ∧ s'.expanding = s.expanding)
    (hd : spot'.depth = spot.depth) (hl : spot'.level = spot.level) : Bounded spot' s' := by
  obtain ⟨hwithin, hsame⟩ := hs
  refine ⟨hwithin, ?_, hd ▸ h.depth_le, hl ▸ h.level_le⟩
  rw [hsame, hd, hl]
  exact h.nesting

theorem same (h : Bounded spot s) (ha : s'.account = s.account) :
    s'.Within ∧ s'.expanding = s.expanding :=
  ⟨h.within.of_account ha, (Prod.mk.inj ha).1⟩

theorem call {here next : Spot × State} (h : Bounded here.1 here.2) (hc : Calls env here next) :
    Bounded next.1 next.2 := by
  cases hc with
  | @content depth c after rest s s' hstep =>
    have hexpand := Free.ofExpandAt env depth fun _ => Affords.ofContent env (depth + 1)
    exact h.beside ((Affords.ofStep env depth hexpand c after).ok h.within hstep) rfl rfl
  | @entity depth c after tail name replacement s s₁ s₂ hdepth hcall henter =>
    -- Up to the entity, the step does what it does if nothing is put in its place.
    have hbefore : step env depth (fun _ _ => pure ()) c after s = .ok tail s₁ := hcall _
    obtain ⟨hwithin, hsame⟩ := (Affords.ofStepOutside env depth c after).ok h.within hbefore
    obtain ⟨rfl, hentered⟩ := hwithin.entered henter
    have hnesting : s.expanding.length = depth := h.nesting
    refine ⟨hentered.of_account rfl, ?_, hdepth, Nat.zero_le _⟩
    show (name :: s₁.expanding).length = depth + 1
    rw [List.length_cons, hsame, hnesting]
  | @tag depth after name inside s hname hroot =>
    exact h.beside (h.same s.account_flush) rfl rfl
  | @kept depth place kept raw raws value s s' hvalue hnew =>
    exact h.beside ((Affords.ofAttributeValue env depth raw).ok h.within hvalue) rfl rfl
  | @redefined depth place kept raw raws value s s' hvalue hold =>
    obtain ⟨hwithin, hsame⟩ := (Affords.ofAttributeValue env depth raw).ok h.within hvalue
    exact h.beside ⟨hwithin.of_account rfl, hsame⟩ rfl rfl
  | @value depth place kept raw raws s hchars hread =>
    exact h.beside (h.same (s.account_atValue env depth raw)) rfl rfl
  | @valueRest depth level place c after rest out out' s s' hstep =>
    have hexpand := Affords.ofExpandValueAt env place level fun _ =>
      Affords.ofAttributeText env place (level + 1)
    exact h.beside ((Affords.ofValueStep env place hexpand c after out).ok h.within hstep) rfl rfl
  | @valueEntity depth level place c after tail out name value s s₁ hlevel hcall henter =>
    obtain ⟨rfl, hentered⟩ := h.within.entered henter
    have hnesting : s.expanding.length = depth + level := h.nesting
    refine ⟨hentered, ?_, h.depth_le, hlevel⟩
    show (name :: s.expanding).length = depth + (level + 1)
    rw [List.length_cons, hnesting, Nat.add_assoc]

theorem within_start : State.Within { events := #[.startDocument] } :=
  ⟨List.nodup_nil, Nat.zero_le _⟩

theorem visits (h : Visits env spot s) : Bounded spot s := by
  obtain ⟨rest, s₀, hstart, hcalls⟩ := h
  have hinit : Bounded (.content 0 rest) s₀ := by
    obtain ⟨hwithin, hsame⟩ := (Affords.ofPrologue env).ok within_start hstart
    exact ⟨hwithin, congrArg List.length hsame, Nat.zero_le _, Nat.zero_le _⟩
  have hall : ∀ x, Relation.ReflTransGen (Calls env) (.content 0 rest, s₀) x → Bounded x.1 x.2 := by
    intro x hx
    induction hx with
    | refl => exact hinit
    | tail _ hcall ih => exact ih.call hcall
  exact hall _ hcalls

end Bounded

/-- **The expansion of entities is bounded.** Take any text, any options and any files. Wherever the
scan comes to, the entities that are being expanded are different from each other. They are the
entities around the spot: at most `maxEntityDepth` around content, and as many again around the text
of a value in a tag. The bytes that were counted are at most `maxExpansion`. That is so at the end
too, unless the scan fails because they would be more. The character data and the values of
attributes that are told have no more bytes than the text, and `maxExpansion` more. And the scan
ends, since no sequence of calls goes on forever. -/
theorem entity_expansion_bounded (text : List Char) (options : ParseOptions) (files : Files) :
    (∀ spot s, Visits ⟨text, options, files⟩ spot s →
      s.expanding.Nodup ∧ s.expanding.length = spot.depth + spot.level ∧
        spot.depth ≤ maxEntityDepth ∧ spot.level ≤ maxEntityDepth ∧
          s.expandedBytes ≤ maxExpansion) ∧
    (match document ⟨text, options, files⟩ { events := #[.startDocument] } with
      | .ok _ s => s.expanding = [] ∧ s.expandedBytes ≤ maxExpansion
      | .error e s => s.expanding.Nodup ∧
        (s.expandedBytes ≤ maxExpansion ∨ e.problem = .entityAmplification)) ∧
    ((scanText text options files).events.map Event.load).sum ≤ byteSize text + maxExpansion ∧
    WellFounded fun next here => Calls ⟨text, options, files⟩ here next := by
  have hpaid := Affords.ofDocument ⟨text, options, files⟩ _ Bounded.within_start
  have hempty : State.load { events := #[.startDocument] } = 0 := rfl
  refine ⟨fun spot s h => ?_, ?_, ?_, wellFounded_calls _⟩
  · obtain ⟨hwithin, hnesting, hdepth, hlevel⟩ := Bounded.visits h
    exact ⟨hwithin.distinct, hnesting, hdepth, hlevel, hwithin.bounded⟩
  · cases hd : document ⟨text, options, files⟩ { events := #[.startDocument] } with
    | ok _ s =>
      rw [hd] at hpaid
      obtain ⟨hwithin, hsame, -⟩ := hpaid
      exact ⟨hsame, hwithin.bounded⟩
    | error e s =>
      rw [hd] at hpaid
      obtain ⟨hdistinct, hbounded, -⟩ := hpaid
      exact ⟨hdistinct, hbounded⟩
  · unfold scanText run
    cases hd : document ⟨text, options, files⟩ { events := #[.startDocument] } with
    | ok _ s =>
      rw [hd] at hpaid
      obtain ⟨hwithin, -, hle⟩ := hpaid
      have hbounded := hwithin.bounded
      have hsum := s.sum_load_le .endDocument rfl
      dsimp only at hle ⊢
      omega
    | error e s =>
      rw [hd] at hpaid
      obtain ⟨-, -, hle⟩ := hpaid
      have hsum := s.sum_load_le (.error e) rfl
      dsimp only at hle ⊢
      omega

/-! ## Two entities that refer to each other -/

def State.atReference (s : State) (depth : Nat) (rest : List Char) : State :=
  if depth = 0 then { s with anchor := rest } else s

def State.inside (s : State) (name : String) (size : Nat) : State :=
  { s.entered name size with entityBase := s.opened.length }

/-- If entities are substituted, a reference to one with a text of its own calls that text, unless
the entity is being expanded already or there would be too much. -/
theorem Calls.internal {depth : Nat} {after name tail : List Char} {text : String}
    (hsubst : env.options.substituteEntities = true) (hdepth : depth < maxEntityDepth)
    (hname : readName? after = some (name, ';' :: tail)) (hp : predefined? name = none)
    (hopen : s.opened ≠ []) (hget : s.entities.get? (String.ofList name) = some (.internal text))
    (hnew : String.ofList name ∉ s.expanding)
    (hfit : s.expandedBytes + text.utf8ByteSize ≤ maxExpansion) :
    Calls env (.content depth ('&' :: after), s) (.content (depth + 1) text.toList,
      (s.atReference depth ('&' :: after)).inside (String.ofList name) text.utf8ByteSize) := by
  have hread : readReference after = (.entity name, tail) := by
    unfold readReference
    split
    · cases hname
    · rw [hname]
      rfl
  have hrequire : requireOpen env (s.place depth ('&' :: after)) s = .ok () s := by
    unfold requireOpen
    rw [get_bind, if_neg fun h => hopen (List.isEmpty_iff.mp h)]
    rfl
  have htake (expand : String → String → ScanM Unit) :
      takeReference env depth expand ('&' :: after) (.entity name) s =
        expand (String.ofList name) text (s.atReference depth ('&' :: after)) := by
    unfold takeReference
    rw [placeOf_bind, bind_of_ok hrequire]
    simp only [hp, takeEntity, get_bind, hget, useEntity, if_pos hsubst, State.atReference]
    split <;> rfl
  have hlt : ('&' == '<') = false := rfl
  have hcall (expand : String → String → ScanM Unit) : step env depth expand '&' after s =
      returning tail (expand (String.ofList name) text) (s.atReference depth ('&' :: after)) := by
    simp only [step, hlt, Bool.false_eq_true, if_false, beq_self_eq_true, if_true, hread, returning,
      bind, EStateM.bind, htake]
  have haccount : (s.atReference depth ('&' :: after)).account = s.account := by
    unfold State.atReference
    split <;> rfl
  obtain ⟨hexpanding, hbytes⟩ := Prod.mk.inj haccount
  refine .entity hdepth hcall ?_
  rw [enterEntity_eq, hexpanding, hbytes, if_neg hnew, if_neg (Nat.not_lt.mpr hfit)]

/-- The state that a part of a scan ends in. -/
def stateOf {α : Type} : EStateM.Result ParseError State α → State
  | .ok _ s | .error _ s => s

theorem eq_ok_stateOf {α : Type} {r : EStateM.Result ParseError State α} {a : α}
    (h : (match r with | .ok b _ => some b | .error _ _ => none) = some a) :
    r = .ok a (stateOf r) := by
  cases r with
  | ok b s =>
    cases h
    rfl
  | error e s => cases h

def mutualText : List Char :=
  "<!DOCTYPE a [<!ENTITY x \"&y;\"><!ENTITY y \"&x;\">]><a>&x;</a>".toList

def mutualEnv : Env :=
  ⟨mutualText, { substituteEntities := true }, .none⟩

/-- Behind the document type. -/
def mutualDeclared : State :=
  stateOf (step mutualEnv 0 (expandAt mutualEnv 0) '<' mutualText.tail
    { events := #[.startDocument] })

def mutualOpened : State :=
  stateOf (step mutualEnv 0 (expandAt mutualEnv 0) '<' "a>&x;</a>".toList mutualDeclared)

/-- The second of the two refers to the first, which is still being expanded. -/
theorem expansion_bounded_of_mutual_entities :
    ∃ s, Visits mutualEnv (.content 2 "&x;".toList) s ∧ s.expanding = ["y", "x"] ∧
      s.expanding.Nodup ∧ s.expandedBytes ≤ maxExpansion ∧
      ((scanText mutualText { substituteEntities := true } .none).events.map Event.load).sum ≤
        byteSize mutualText + maxExpansion := by
  have hprologue : prologue mutualEnv { events := #[.startDocument] } =
      .ok mutualText { events := #[.startDocument] } := by
    have hnone : xmlDeclaration? mutualEnv.text = none := by decide +kernel
    unfold prologue
    rw [hnone]
    rfl
  have hdoctype : Calls mutualEnv (.content 0 mutualText, { events := #[.startDocument] })
      (.content 0 "<a>&x;</a>".toList, mutualDeclared) :=
    .content (eq_ok_stateOf (by decide +kernel))
  have hroot : Calls mutualEnv (.content 0 "<a>&x;</a>".toList, mutualDeclared)
      (.content 0 "&x;</a>".toList, mutualOpened) :=
    .content (eq_ok_stateOf (by decide +kernel))
  obtain ⟨hopened, hexpanding, hcount, hgetx, hgety⟩ : mutualOpened.opened = ["a"] ∧
      mutualOpened.expanding = [] ∧ mutualOpened.expandedBytes = 0 ∧
      mutualOpened.entities.get? "x" = some (.internal "&y;") ∧
      mutualOpened.entities.get? "y" = some (.internal "&x;") := by decide +kernel
  let inx := (mutualOpened.atReference 0 "&x;</a>".toList).inside "x" 3
  let iny := (inx.atReference 1 "&y;".toList).inside "y" 3
  have hinx : inx.expanding = ["x"] := congrArg ("x" :: ·) hexpanding
  have hcountx : inx.expandedBytes = 3 := congrArg (· + 3) hcount
  have hx : Calls mutualEnv (.content 0 "&x;</a>".toList, mutualOpened)
      (.content 1 "&y;".toList, inx) := by
    have hname : readName? "x;</a>".toList = some (['x'], ';' :: "</a>".toList) := by decide +kernel
    have hplain : predefined? ['x'] = none := by decide +kernel
    refine .internal rfl (by decide) hname hplain ?_ hgetx ?_ ?_
    · rw [hopened]
      exact List.cons_ne_nil _ _
    · rw [hexpanding]
      exact List.not_mem_nil
    · rw [hcount]
      decide +kernel
  have hy : Calls mutualEnv (.content 1 "&y;".toList, inx) (.content 2 "&x;".toList, iny) := by
    have hname : readName? "y;".toList = some (['y'], [';']) := by decide +kernel
    have hplain : predefined? ['y'] = none := by decide +kernel
    refine .internal rfl (by decide) hname hplain ?_ hgety ?_ ?_
    · show mutualOpened.opened ≠ []
      rw [hopened]
      exact List.cons_ne_nil _ _
    · rw [hinx]
      decide +kernel
    · rw [hcountx]
      decide +kernel
  have hvisits : Visits mutualEnv (.content 2 "&x;".toList) iny :=
    ⟨mutualText, _, hprologue, .tail (.tail (.tail (.tail .refl hdoctype) hroot) hx) hy⟩
  obtain ⟨hall, -, hload, -⟩ :=
    entity_expansion_bounded mutualText { substituteEntities := true } .none
  obtain ⟨hnodup, -, -, -, hbytes⟩ := hall _ _ hvisits
  exact ⟨iny, hvisits, congrArg ("y" :: ·) hinx, hnodup, hbytes, hload⟩

end Xml.Scan
