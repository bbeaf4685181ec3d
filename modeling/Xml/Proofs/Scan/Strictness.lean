import Xml.Proofs.Namespaces.Unbound
import Xml.Proofs.Scan.Expansion

/-!
# Strict reading

Whether problems are to be recovered from makes no difference to a scan (`scanBytes_recover`); it is
only asked about when the scan is over. A strict reading then gives the document, if nothing was
recorded, and otherwise an error: that of the fatal problem, if there is one, and else the first of
those that were recorded. A fatal problem is the last one of its scan, so with others in front of it
the error is not the first problem (`strict_error_is_fatal_or_first`).
-/

namespace Xml

open Text

namespace Scan

/-- The same scan, with problems to be recovered from or not. -/
def Env.recovering (env : Env) (recover : Bool) : Env :=
  { env with options := { env.options with recover } }

section

variable (env : Env) (recover : Bool)

theorem valueStep_recovering (place : List Char) :
    valueStep (env.recovering recover) place = valueStep env place := rfl

/-- The induction is on the levels of entities that are left, and on each of them on the text. -/
theorem attributeText_recovering (place : List Char) (level : Nat) (text : List Char)
    (out : String) :
    attributeText (env.recovering recover) place level text out =
      attributeText env place level text out := by
  induction hk : maxEntityDepth - level using Nat.strong_induction_on
    generalizing level text out with
  | _ k ihlevel =>
    have hexpand : expandValueAt (env.recovering recover) place level =
        expandValueAt env place level := by
      funext name value out
      unfold expandValueAt
      split
      · rw [ihlevel _ (by omega) (level + 1) value.toList out rfl]
        rfl
      · rfl
    induction hn : text.length using Nat.strong_induction_on generalizing text out with
    | _ n ih =>
      cases text with
      | nil => rw [attributeText, attributeText]
      | cons c after =>
        rw [attributeText_cons, attributeText_cons, hexpand, valueStep_recovering]
        funext s
        simp only [bind, EStateM.bind]
        split
        · next found s' hstep =>
          have hlen := (valueStep_suffix hstep).length_le
          rw [List.length_cons] at hn
          rw [ih found.1.length (by omega) found.1 found.2 rfl]
        · rfl

theorem attributeValues_recovering (depth : Nat) (tag : List Char) (kept : List Attribute)
    (raws : List RawAttribute) :
    attributeValues (env.recovering recover) depth tag kept raws =
      attributeValues env depth tag kept raws := by
  induction raws generalizing kept with
  | nil => rfl
  | cons raw raws ih =>
    have hvalue : attributeValue (env.recovering recover) depth raw =
        attributeValue env depth raw := by
      unfold attributeValue
      simp only [attributeText_recovering]
      rfl
    rw [attributeValues, attributeValues, hvalue]
    simp only [ih]
    rfl

theorem startTag_recovering (depth : Nat) (rest after : List Char) :
    startTag (env.recovering recover) depth rest after = startTag env depth rest after := by
  unfold startTag takeStartTag openTag
  simp only [attributeValues_recovering]
  rfl

theorem step_recovering (depth : Nat) (expand : String → String → ScanM Unit) (c : Char)
    (after : List Char) :
    step (env.recovering recover) depth expand c after = step env depth expand c after := by
  unfold step markup
  simp only [startTag_recovering]
  rfl

theorem content_recovering (depth : Nat) (text : List Char) :
    content (env.recovering recover) depth text = content env depth text := by
  induction hk : maxEntityDepth - depth using Nat.strong_induction_on generalizing depth text with
  | _ k ihdepth =>
    have hexpand : expandAt (env.recovering recover) depth = expandAt env depth := by
      funext name replacement
      unfold expandAt
      split
      · have hinside : (fun inner => content (env.recovering recover) (depth + 1) inner) =
            fun inner => content env (depth + 1) inner :=
          funext fun inner => ihdepth _ (by omega) (depth + 1) inner rfl
        rw [hinside]
        rfl
      · rfl
    induction hn : text.length using Nat.strong_induction_on generalizing text with
    | _ n ih =>
      funext s
      cases text with
      | nil => rw [content_nil, content_nil]
      | cons c after =>
        rw [content_cons, content_cons, hexpand, step_recovering]
        split
        · next rest s' hstep =>
          have hlen := (step_suffix hstep).length_le
          rw [List.length_cons] at hn
          rw [ih rest.length (by omega) rest rfl]
        · rfl

theorem run_recovering : run (env.recovering recover) = run env := by
  unfold run document
  simp only [content_recovering]
  rfl

end

theorem events_of_fatal {env : Env} {e : ParseError} (h : (run env).fatal = some e) :
    ∃ before, (run env).events = before ++ [.error e] := by
  unfold run at h ⊢
  split at h
  · cases h
  · next problem s hdocument =>
    obtain rfl := Option.some.inj h
    exact ⟨s.events.toList, Array.toList_push⟩

end Scan

section

variable {bytes : List UInt8} {hint : Option String} {options : ParseOptions} {files : Files}

/-- **A scan does not depend on what is to be done about its problems.** -/
theorem scanBytes_recover (bytes : List UInt8) (hint : Option String) (options : ParseOptions)
    (files : Files) (recover : Bool) :
    scanBytes bytes hint { options with recover } files = scanBytes bytes hint options files := by
  unfold scanBytes scanText
  split
  · rfl
  · exact Scan.run_recovering ⟨_, options, files⟩ recover

/-- Also bytes that cannot be decoded give a fatal problem that is told last. -/
theorem scanBytes_events_of_fatal {e : ParseError}
    (h : (scanBytes bytes hint options files).fatal = some e) :
    ∃ before, (scanBytes bytes hint options files).events = before ++ [.error e] := by
  unfold scanBytes at h ⊢
  split at h
  · obtain rfl := Option.some.inj h
    exact ⟨[], rfl⟩
  · exact Scan.events_of_fatal h

end

namespace Document

/-- The problems of a scan and of the building of its document, in the order in which they were
met. -/
def recorded (i : Nat) (outcome : Scan.Outcome) : List ParseError :=
  (ofEvents i outcome.events).2

theorem recorded_getLast? {i : Nat} {outcome : Scan.Outcome} {before : List Event}
    {e : ParseError} (h : outcome.events = before ++ [.error e]) :
    (recorded i outcome).getLast? = some e := by
  show (outcome.events.foldl Builder.add (Builder.initial i)).errors.toList.getLast? = some e
  rw [h, List.foldl_append]
  exact (congrArg List.getLast? Array.toList_push).trans List.getLast?_concat

section

variable {i : Nat} {outcome : Scan.Outcome}

/-- Where nothing was recorded, a reading gives the same document whether it is strict or not. -/
theorem ofOutcome_of_recorded_nil (hf : outcome.fatal = none) (h : recorded i outcome = [])
    (recover : Bool) : ofOutcome i outcome recover = .ok (ofEvents i outcome.events).1 := by
  have hnone := errors_ofEvents i outcome.events
  unfold recorded at h
  unfold ofOutcome
  rw [hf]
  generalize ofEvents i outcome.events = made at h hnone ⊢
  obtain ⟨doc, errors⟩ := made
  dsimp only at h hnone ⊢
  subst h
  cases recover with
  | true => rw [if_pos rfl, ← hnone]
  | false => rfl

/-- A strict reading gives the problem that ended the scan, or else the first one. -/
theorem ofOutcome_of_recorded_cons {first : ParseError} {later : List ParseError}
    (h : recorded i outcome = first :: later) :
    ofOutcome i outcome false = .error (outcome.fatal.getD first) := by
  unfold recorded at h
  unfold ofOutcome
  cases outcome.fatal with
  | none =>
    dsimp only
    rw [h]
    rfl
  | some e => rfl

end

theorem recorded_getLast?_of_fatal {bytes : List UInt8} {hint : Option String}
    {options : ParseOptions} {files : Files} {e : ParseError}
    (h : (scanBytes bytes hint options files).fatal = some e) (i : Nat) :
    (recorded i (scanBytes bytes hint options files)).getLast? = some e := by
  obtain ⟨before, hevents⟩ := scanBytes_events_of_fatal h
  exact recorded_getLast? hevents

/-- **What a strict reading reports.** Nothing was recorded: it gives the document that a reading
with recovery gives, which is kept with no problems. Otherwise it gives the fatal problem, if one
ended the scan, or the first that was recorded. The fatal one was recorded last, so that the first
one is given exactly if there is no fatal problem or they are the same. -/
theorem strict_error_is_fatal_or_first (i : Nat) (bytes : List UInt8) (hint : Option String)
    (options : ParseOptions) (files : Files) (h : options.recover = false) :
    let outcome := scanBytes bytes hint options files
    (recorded i outcome = [] → ∃ doc, parse i bytes hint options files = .ok doc ∧
      parse i bytes hint { options with recover := true } files = .ok doc ∧ doc.errors = []) ∧
    (∀ first later, recorded i outcome = first :: later →
      parse i bytes hint options files = .error (outcome.fatal.getD first) ∧
      (parse i bytes hint options files = .error first ↔
        outcome.fatal = none ∨ outcome.fatal = some first)) ∧
    ∀ e, outcome.fatal = some e → (recorded i outcome).getLast? = some e := by
  intro outcome
  refine ⟨fun hnil => ?_, fun first later hcons => ?_, fun e he => recorded_getLast?_of_fatal he i⟩
  · have hfatal : outcome.fatal = none := by
      refine Option.eq_none_iff_forall_ne_some.mpr fun e he => ?_
      have hlast := recorded_getLast?_of_fatal he i
      rw [hnil] at hlast
      cases hlast
    have hread := ofOutcome_of_recorded_nil hfatal hnil
    refine ⟨_, hread options.recover, ?_, errors_ofEvents i _⟩
    rw [parse, scanBytes_recover]
    exact hread true
  · have hparse : parse i bytes hint options files = .error (outcome.fatal.getD first) := by
      rw [parse, h]
      exact ofOutcome_of_recorded_cons hcons
    refine ⟨hparse, ?_⟩
    rw [hparse]
    cases outcome.fatal <;> simp

end Document

/-! ## An undefined entity in an element that is not closed -/

namespace Scan

def unclosedEnv : Env :=
  ⟨"<r>&x;".toList, {}, .none⟩

def unclosedOpened : State :=
  stateOf (step unclosedEnv 0 (expandAt unclosedEnv 0) '<' "r>&x;".toList
    { events := #[.startDocument] })

def unclosedRead : State :=
  stateOf (step unclosedEnv 0 (expandAt unclosedEnv 0) '&' "x;".toList unclosedOpened)

def unclosedEvents : List Event :=
  [.startDocument, .startElement "r" [], .error ⟨.undefinedEntity "x", ⟨1, 4⟩⟩,
    .entityReference "x" none, .error ⟨.prematureEnd "r", ⟨1, 7⟩⟩]

theorem content_unclosed : content unclosedEnv 0 unclosedEnv.text { events := #[.startDocument] } =
    .ok () unclosedRead := by
  have hopened : step unclosedEnv 0 (expandAt unclosedEnv 0) '<' "r>&x;".toList
      { events := #[.startDocument] } = .ok "&x;".toList unclosedOpened :=
    eq_ok_stateOf (by decide +kernel)
  have hread : step unclosedEnv 0 (expandAt unclosedEnv 0) '&' "x;".toList unclosedOpened =
      .ok [] unclosedRead :=
    eq_ok_stateOf (by decide +kernel)
  show content unclosedEnv 0 ('<' :: "r>&x;".toList) _ = _
  rw [content_cons, hopened]
  show content unclosedEnv 0 ('&' :: "x;".toList) _ = _
  rw [content_cons, hread]
  exact content_nil _ _ _

theorem run_unclosed :
    run unclosedEnv = ⟨unclosedEvents, some ⟨.prematureEnd "r", ⟨1, 7⟩⟩⟩ := by
  have hdeclaration : xmlDeclaration? unclosedEnv.text = none := by decide +kernel
  have hopened : unclosedRead.flush.opened = ["r"] := by decide +kernel
  have hevents : (unclosedRead.flush.events.push (.error ⟨.prematureEnd "r", ⟨1, 7⟩⟩)).toList =
      unclosedEvents := by decide +kernel
  have hend : document unclosedEnv { events := #[.startDocument] } =
      .error ⟨.prematureEnd "r", ⟨1, 7⟩⟩ unclosedRead.flush := by
    unfold document
    rw [hdeclaration]
    simp only [pure_bind]
    rw [bind_of_ok content_unclosed]
    show checkEnd unclosedEnv unclosedRead.flush = _
    unfold checkEnd
    rw [get_bind, hopened]
    rfl
  rw [run, hend]
  exact congrArg (Outcome.mk · _) hevents

end Scan

namespace Document

/-- The missing end tag is reported and not the entity, which was met first. -/
theorem unclosed_reported_before_undefined :
    let bytes := "<r>&x;".toList.map fun c => c.toNat.toUInt8
    recorded 0 (scanBytes bytes none {} .none) =
        [⟨.undefinedEntity "x", ⟨1, 4⟩⟩, ⟨.prematureEnd "r", ⟨1, 7⟩⟩] ∧
      parse 0 bytes none {} .none = .error ⟨.prematureEnd "r", ⟨1, 7⟩⟩ := by
  intro bytes
  have hscan : scanBytes bytes none {} .none =
      ⟨Scan.unclosedEvents, some ⟨.prematureEnd "r", ⟨1, 7⟩⟩⟩ := by
    have hdecode : Encoding.decode bytes none Files.none.charsets =
        .ok "<r>&x;".toList := by decide +kernel
    have hlines : normalizeNewlines "<r>&x;".toList = "<r>&x;".toList := by decide +kernel
    rw [scanBytes, hdecode]
    show scanText (normalizeNewlines "<r>&x;".toList) {} .none = _
    rw [hlines]
    exact Scan.run_unclosed
  have hrecorded : recorded 0 (scanBytes bytes none {} .none) =
      [⟨.undefinedEntity "x", ⟨1, 4⟩⟩, ⟨.prematureEnd "r", ⟨1, 7⟩⟩] := by
    rw [hscan]
    decide +kernel
  have hstrict := strict_error_is_fatal_or_first 0 bytes none {} .none rfl
  have hparse := (hstrict.2.1 _ _ hrecorded).1
  rw [hscan] at hparse
  exact ⟨hrecorded, hparse⟩

end Document

end Xml
