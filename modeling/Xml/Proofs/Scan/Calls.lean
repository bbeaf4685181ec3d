import Mathlib.Data.Prod.Lex
import Mathlib.Logic.Relation
import Xml.Proofs.Scan.Triple

/-!
# The calls of a scan

Content, the attributes of a tag and the text of a value are scanned by recursion, and each can lead
into the next: content into the replacement text of an entity and into tags, a tag into values, a
value into replacement texts again. `Calls` lists these calls, each with the state in which it is
made, and `Visits` says which of them a document comes to.

At a reference to an entity, a step of content or of a value does one thing with what it was given
to expand it (`step_expandsOnce`, `valueStep_expandsOnce`). So the calls do not depend on what the
expansion will do, and nothing else calls it.

No sequence of calls goes on forever (`wellFounded_calls`).
-/

namespace Xml.Scan

open Text

/-! ## Values of attributes

The text of a value is read in steps, as content is. What a step does at a reference to an entity is
a parameter again. -/

/-- The next piece of the text of a value, which begins with `c`: what it adds to `out`, and the
rest. -/
def valueStep (env : Env) (place : List Char) (expand : String → String → String → ScanM String)
    (c : Char) (after : List Char) (out : String) : ScanM (List Char × String) :=
  if c == '&' then
    match breakOn [';'] after with
    | none => do
      report env .badEntityRef place
      return (after, out.push '&')
    | some (reference, rest) =>
      match after? ['#'] reference with
      | some body =>
        match charRef? body with
        | some c => pure (rest, out.push c)
        | none => do
          report env .badCharRef place
          return (rest, out)
      | none =>
        match predefined? reference with
        | some c => pure (rest, out.push c)
        | none =>
          if isName reference then do
            let name := String.ofList reference
            match (← get).entities.get? name with
            | some (.internal value) => return (rest, ← expand name value out)
            | some _ =>
              report env (.externalEntityInAttribute name) place
              return (rest, out)
            | none =>
              report env (.undefinedEntity name) place
              return (rest, out)
          else do
            report env .badEntityRef place
            return (after, out.push '&')
  else pure (after, out.push (normalizeBlank c))

/-- What a reference to an entity does inside `attributeText`: one level deeper, if there is one. -/
def expandValueAt (env : Env) (place : List Char) (level : Nat) (name value out : String) :
    ScanM String :=
  if level < maxEntityDepth then do
    enterEntity env name value.utf8ByteSize
    let out ← attributeText env place (level + 1) value.toList out
    leaveEntity
    return out
  else do fail env .entityLoop (← get).anchor

theorem attributeText_cons (env : Env) (place : List Char) (level : Nat) (c : Char)
    (after : List Char) (out : String) :
    attributeText env place level (c :: after) out =
      (do
        let (rest, out) ← valueStep env place (expandValueAt env place level) c after out
        attributeText env place level rest out) := by
  rw [attributeText]
  unfold valueStep
  by_cases hc : (c == '&') = true
  · rw [if_pos hc, if_pos hc]
    split
    · next hb =>
      simp only [hb]
      rfl
    · next reference rest hb =>
      simp only [hb]
      cases after? ['#'] reference with
      | some body =>
        dsimp only
        cases charRef? body with
        | some c => rfl
        | none => rfl
      | none =>
        dsimp only
        cases predefined? reference with
        | some c => rfl
        | none =>
          dsimp only
          by_cases hn : isName reference = true
          · rw [if_pos hn, if_pos hn]
            funext s
            simp only [get_bind, bind_assoc]
            cases s.entities.get? (String.ofList reference) with
            | none => rfl
            | some value =>
              cases value with
              | internal value =>
                dsimp only
                unfold expandValueAt
                by_cases hl : level < maxEntityDepth
                · simp only [if_pos hl, bind_assoc, pure_bind]
                · simp only [if_neg hl]
                  rfl
              | external | unparsed => rfl
          · rw [if_neg hn, if_neg hn]
            rfl
  · rw [if_neg hc, if_neg hc]
    rfl

/-- A step never leaves the text of a value, and passes at least the character it begins with. -/
theorem valueStep_suffix {env : Env} {place : List Char}
    {expand : String → String → String → ScanM String} {c : Char} {after rest : List Char}
    {out out' : String} {s s' : State}
    (h : valueStep env place expand c after out s = .ok (rest, out') s') : rest <:+ after := by
  have hsteps : Triple (fun _ => True) (valueStep env place expand c after out)
      (fun found _ => found.1 <:+ after) fun _ => True := by
    -- Whatever is done before, the rest that is handed back is what matters.
    have hback {α : Type} {m : ScanM α} {tail : List Char} {f : α → String} (hs : tail <:+ after) :
        Triple (fun _ => True) (m >>= fun a => pure (tail, f a)) (fun found _ => found.1 <:+ after)
          fun _ => True :=
      .andThen (Q := fun _ _ => True) (.ofPost (fun _ _ => trivial) fun _ => trivial)
        fun _ => .ofPure fun _ _ => hs
    unfold valueStep
    split
    · split
      · exact hback (List.suffix_refl _)
      · next reference tail hb =>
        have hs := breakOn_suffix hb
        split
        · split
          · exact .ofPure fun _ _ => hs
          · exact hback hs
        · split
          · exact .ofPure fun _ _ => hs
          · split
            · refine .getThen fun s₀ _ => .given (P := fun _ => True) ?_ fun _ _ => trivial
              split
              · exact hback hs
              · exact hback hs
              · exact hback hs
            · exact hback (List.suffix_refl _)
    · exact .ofPure fun _ _ => List.suffix_refl _
  exact hsteps.ok trivial h

/-- **A step of a value expands at most one entity**, and then goes on with the rest. -/
theorem valueStep_expandsOnce (env : Env) (place : List Char) (c : Char) (after : List Char)
    (out : String) (s : State) :
    (∃ r, ∀ expand, valueStep env place expand c after out s = r) ∨
      ∃ name value tail, ∀ expand, valueStep env place expand c after out s =
        (expand name value out >>= fun out' => pure (tail, out')) s := by
  unfold valueStep
  by_cases hc : (c == '&') = true
  · simp only [if_pos hc]
    cases breakOn [';'] after with
    | none => exact .inl ⟨_, fun _ => rfl⟩
    | some found =>
      obtain ⟨reference, rest⟩ := found
      dsimp only
      cases after? ['#'] reference with
      | some body =>
        dsimp only
        cases charRef? body <;> exact .inl ⟨_, fun _ => rfl⟩
      | none =>
        dsimp only
        cases predefined? reference with
        | some c => exact .inl ⟨_, fun _ => rfl⟩
        | none =>
          by_cases hn : isName reference = true
          · simp only [if_pos hn, get_bind]
            cases s.entities.get? (String.ofList reference) with
            | none => exact .inl ⟨_, fun _ => rfl⟩
            | some value =>
              cases value with
              | internal value =>
                exact .inr ⟨String.ofList reference, value, rest, fun _ => rfl⟩
              | external | unparsed => exact .inl ⟨_, fun _ => rfl⟩
          · simp only [if_neg hn]
            exact .inl ⟨_, fun _ => rfl⟩
  · simp only [if_neg hc]
    exact .inl ⟨_, fun _ => rfl⟩

/-- The state in which the text of a value is begun: a `<` in it is told of first, and in the
document problems are reported at the attribute. -/
def State.atValue (s : State) (env : Env) (depth : Nat) (raw : RawAttribute) : State :=
  let place := s.place depth raw.place
  let s := if raw.raw.contains '<' then
    s.told (.error (env.errorAt .lessThanInAttribute place)) else s
  if depth = 0 then { s with anchor := place } else s

/-! ## Entities in content -/

/-- A part of a scan that is given a way to expand entities uses it at most once, and last. If it
does, `s₁` is the state in which it does. -/
def ExpandsOnce (part : (String → String → ScanM Unit) → ScanM Unit) (s : State) : Prop :=
  (∃ r, ∀ expand, part expand s = r) ∨
    ∃ name replacement s₁, ∀ expand, part expand s = expand name replacement s₁

theorem expandsOnce_useEntity (env : Env) (depth : Nat) (name replacement : String)
    (rest : List Char) (s : State) :
    ExpandsOnce (fun expand => useEntity env depth expand name replacement rest) s := by
  by_cases hsubst : env.options.substituteEntities = true
  · refine .inr ⟨name, replacement, if depth = 0 then { s with anchor := rest } else s, ?_⟩
    intro expand
    simp only [useEntity, if_pos hsubst]
    split <;> rfl
  · refine .inl ⟨useEntity env depth (fun _ _ => pure ()) name replacement rest s, fun expand => ?_⟩
    simp only [useEntity, if_neg hsubst]

theorem expandsOnce_takeEntity (env : Env) (depth : Nat) (name : String) (rest : List Char)
    (s : State) : ExpandsOnce (fun expand => takeEntity env depth expand name rest) s := by
  unfold takeEntity
  simp only [ExpandsOnce, get_bind]
  cases s.entities.get? name with
  | none => exact .inl ⟨_, fun _ => rfl⟩
  | some value =>
    cases value with
    | unparsed => exact .inl ⟨_, fun _ => rfl⟩
    | internal text => exact expandsOnce_useEntity env depth name text rest s
    | external publicId systemId =>
      cases hload : loadEntity env name systemId s with
      | error e s' =>
        refine .inl ⟨.error e s', fun expand => ?_⟩
        simp only [bind, EStateM.bind, hload]
      | ok text s' =>
        simp only [bind_of_ok hload]
        exact expandsOnce_useEntity env depth name text rest s'

theorem expandsOnce_takeReference (env : Env) (depth : Nat) (rest : List Char)
    (reference : Reference) (s : State) :
    ExpandsOnce (fun expand => takeReference env depth expand rest reference) s := by
  unfold takeReference
  simp only [ExpandsOnce, placeOf_bind]
  cases hopen : requireOpen env (s.place depth rest) s with
  | error e s' =>
    refine .inl ⟨.error e s', fun expand => ?_⟩
    simp only [bind, EStateM.bind, hopen]
  | ok _ s' =>
    simp only [bind_of_ok hopen]
    cases reference with
    | char c => cases c <;> exact .inl ⟨_, fun _ => rfl⟩
    | plain => exact .inl ⟨_, fun _ => rfl⟩
    | entity name =>
      dsimp only
      cases predefined? name with
      | some c => exact .inl ⟨_, fun _ => rfl⟩
      | none => exact expandsOnce_takeEntity env depth _ rest s'

/-- **A step expands at most one entity**, and then goes on with the rest of the text. -/
theorem step_expandsOnce (env : Env) (depth : Nat) (c : Char) (after : List Char) (s : State) :
    (∃ r, ∀ expand, step env depth expand c after s = r) ∨
      ∃ name replacement tail s₁, ∀ expand,
        step env depth expand c after s = returning tail (expand name replacement) s₁ := by
  by_cases hlt : (c == '<') = true
  · refine .inl ⟨step env depth (fun _ _ => pure ()) c after s, fun expand => ?_⟩
    simp only [step, if_pos hlt]
  by_cases hamp : (c == '&') = true
  · simp only [step, if_neg hlt, if_pos hamp]
    rcases expandsOnce_takeReference env depth (c :: after) (readReference after).1 s with
      ⟨r, hr⟩ | ⟨name, replacement, s₁, hcall⟩
    · refine .inl ⟨returning (readReference after).2 (fun _ => r) s, fun expand => ?_⟩
      simp only [returning, bind, EStateM.bind, hr]
    · refine .inr ⟨name, replacement, (readReference after).2, s₁, fun expand => ?_⟩
      simp only [returning, bind, EStateM.bind, hcall]
  · refine .inl ⟨step env depth (fun _ _ => pure ()) c after s, fun expand => ?_⟩
    simp only [step, if_neg hlt, if_neg hamp]

/-! ## Calls -/

/-- Where a scan is in its recursions. -/
inductive Spot where
  /-- In content that is `depth` entities deep, in front of `rest`. -/
  | content (depth : Nat) (rest : List Char)
  /-- In a tag that is `depth` entities deep, in front of the attributes `raws`. Those `kept` were
  read before. -/
  | tag (depth : Nat) (place : List Char) (kept : List Attribute) (raws : List RawAttribute)
  /-- In the value of an attribute of such a tag, `level` more entities deep, in front of `rest`.
  The value so far is `out`. -/
  | value (depth level : Nat) (place rest : List Char) (out : String)

/-- How many entities content is inside of. -/
def Spot.depth : Spot → Nat
  | .content depth _ | .tag depth _ _ _ | .value depth _ _ _ _ => depth

/-- How many entities the text of a value is inside of, apart from those its tag is in. -/
def Spot.level : Spot → Nat
  | .content _ _ | .tag _ _ _ _ => 0
  | .value _ level _ _ _ => level

/-- A call that is made on the way through another. -/
inductive Calls (env : Env) : Spot × State → Spot × State → Prop where
  /-- Content goes on behind each of its pieces. -/
  | content {depth : Nat} {c : Char} {after rest : List Char} {s s' : State}
      (h : step env depth (expandAt env depth) c after s = .ok rest s') :
      Calls env (.content depth (c :: after), s) (.content depth rest, s')
  /-- The replacement text of an entity is content too, if the entity can be entered. -/
  | entity {depth : Nat} {c : Char} {after tail : List Char} {name replacement : String}
      {s s₁ s₂ : State} (hdepth : depth < maxEntityDepth)
      (hcall : ∀ expand, step env depth expand c after s =
        returning tail (expand name replacement) s₁)
      (henter : enterEntity env name replacement.utf8ByteSize s₁ = .ok () s₂) :
      Calls env (.content depth (c :: after), s)
        (.content (depth + 1) replacement.toList, { s₂ with entityBase := s₂.opened.length })
  /-- A start tag may stand in an element, or be the first one outside. -/
  | tag {depth : Nat} {after name inside : List Char} {s : State}
      (hname : readName? after = some (name, inside))
      (hroot : (s.opened.isEmpty && s.seenRoot) = false) :
      Calls env (.content depth ('<' :: after), s)
        (.tag depth ('<' :: after) [] (readAttributes inside).1, s.flush)
  | kept {depth : Nat} {place : List Char} {kept : List Attribute} {raw : RawAttribute}
      {raws : List RawAttribute} {value : String} {s s' : State}
      (hvalue : attributeValue env depth raw s = .ok value s')
      (hnew : kept.any (·.name == raw.name) = false) :
      Calls env (.tag depth place kept (raw :: raws), s)
        (.tag depth place (⟨raw.name, value⟩ :: kept) raws, s')
  | redefined {depth : Nat} {place : List Char} {kept : List Attribute} {raw : RawAttribute}
      {raws : List RawAttribute} {value : String} {s s' : State}
      (hvalue : attributeValue env depth raw s = .ok value s')
      (hold : kept.any (·.name == raw.name) = true) :
      Calls env (.tag depth place kept (raw :: raws), s)
        (.tag depth place kept raws,
          s'.told (.error (env.errorAt (.attributeRedefined raw.name) (s'.place depth place))))
  /-- Values without references and white space to normalize are taken as they are written. -/
  | value {depth : Nat} {place : List Char} {kept : List Attribute} {raw : RawAttribute}
      {raws : List RawAttribute} {s : State} (hchars : findInvalid? raw.raw = none)
      (hread : (raw.raw.contains '&' || needsNormalization raw.raw) = true) :
      Calls env (.tag depth place kept (raw :: raws), s)
        (.value depth 0 (s.place depth raw.place) raw.raw "", s.atValue env depth raw)
  | valueRest {depth level : Nat} {place : List Char} {c : Char} {after rest : List Char}
      {out out' : String} {s s' : State}
      (h : valueStep env place (expandValueAt env place level) c after out s =
        .ok (rest, out') s') :
      Calls env (.value depth level place (c :: after) out, s)
        (.value depth level place rest out', s')
  | valueEntity {depth level : Nat} {place : List Char} {c : Char} {after tail : List Char}
      {out name value : String} {s s₁ : State} (hlevel : level < maxEntityDepth)
      (hcall : ∀ expand, valueStep env place expand c after out s =
        (expand name value out >>= fun out' => pure (tail, out')) s)
      (henter : enterEntity env name value.utf8ByteSize s = .ok () s₁) :
      Calls env (.value depth level place (c :: after) out, s)
        (.value depth (level + 1) place value.toList out, s₁)

/-- What gets less from call to call: a value has no content in it, and where the entities around do
not get more, the text gets shorter. -/
def Spot.measure : Spot → Nat × Nat × Nat
  | .content depth rest => (2, maxEntityDepth - depth, rest.length)
  | .tag _ _ _ raws => (1, 0, raws.length)
  | .value _ level _ rest _ => (0, maxEntityDepth - level, rest.length)

theorem Calls.measure_lt {env : Env} {here next : Spot × State} (h : Calls env here next) :
    Prod.Lex (· < ·) (Prod.Lex (· < ·) (· < ·)) next.1.measure here.1.measure := by
  cases h with
  | content h =>
    have hlen := (step_suffix h).length_le
    refine .right _ (.right _ ?_)
    rw [List.length_cons]
    omega
  | entity hdepth =>
    refine .right _ (.left _ _ ?_)
    omega
  | tag => exact .left _ _ (by decide)
  | kept => exact .right _ (.right _ (Nat.lt_succ_self _))
  | redefined => exact .right _ (.right _ (Nat.lt_succ_self _))
  | value => exact .left _ _ (by decide)
  | valueRest h =>
    have hlen := (valueStep_suffix h).length_le
    refine .right _ (.right _ ?_)
    rw [List.length_cons]
    omega
  | valueEntity hlevel =>
    refine .right _ (.left _ _ ?_)
    omega

/-- **No sequence of calls goes on forever**, whatever the entities are. -/
theorem wellFounded_calls (env : Env) : WellFounded fun next here => Calls env here next := by
  have hlex : WellFounded (Prod.Lex (· < ·) (Prod.Lex (· < ·) (· < ·)) :
      Nat × Nat × Nat → Nat × Nat × Nat → Prop) :=
    WellFounded.prod_lex Nat.lt_wfRel.wf (WellFounded.prod_lex Nat.lt_wfRel.wf Nat.lt_wfRel.wf)
  exact Subrelation.wf (fun h => h.measure_lt)
    (InvImage.wf (fun x : Spot × State => x.1.measure) hlex)

/-! ## Documents -/

/-- What comes before the content of a document. -/
def prologue (env : Env) : ScanM (List Char) :=
  match xmlDeclaration? env.text with
  | some inside => takeXmlDeclaration env inside
  | none => pure env.text

/-- The scan of a document comes to a spot in a state. -/
def Visits (env : Env) (spot : Spot) (s : State) : Prop :=
  ∃ rest s₀, prologue env { events := #[.startDocument] } = .ok rest s₀ ∧
    Relation.ReflTransGen (Calls env) (.content 0 rest, s₀) (spot, s)

end Xml.Scan
