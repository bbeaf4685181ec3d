import Xml.Proofs.Scan.Lexical
import Xml.Proofs.Scan.Moves

/-!
# Attribute values

`attributeText` reads the texts of `Grammar.AttributeText` and no others, unless it tells of a
problem: in a document that declares no entities, a reference is one that every document can use, or
a mistake that is told.
-/

namespace Xml.Grammar

open Text List

variable {text value : List Char}

/-! ## Characters of values -/

/-- A character that can stand in a value as it is written. -/
def Plain (c : Char) : Prop :=
  isXmlChar c.toNat = true ∧ c ≠ '<'

theorem plain_of_toNat {c : Char} (hl : 0x20 ≤ c.toNat) (hu : c.toNat ≤ 0x7F)
    (hne : c.toNat ≠ 0x3C) : Plain c := by
  refine ⟨?_, fun h => hne (by rw [h]; rfl)⟩
  simp only [isXmlChar, Bool.or_eq_true, Bool.and_eq_true, decide_eq_true_eq, beq_iff_eq]
  omega

theorem plain_of_hexDigit? {c : Char} {n : Nat} (h : hexDigit? c = some n) : Plain c := by
  simp only [hexDigit?, Char.le_def, UInt32.le_iff_toNat_le] at h
  have hc : c.toNat = c.val.toNat := rfl
  refine plain_of_toNat ?_ ?_ ?_ <;> simp at h <;> grind

theorem plain_of_decimalDigit? {c : Char} {n : Nat} (h : decimalDigit? c = some n) :
    Plain c := by
  refine plain_of_hexDigit? (n := n) ?_
  rw [hexDigit?]
  rw [decimalDigit?] at h
  split at h
  · next hd => rw [if_pos hd, h]
  · cases h

theorem Numeral.plain {base : Nat} {digit? : Char → Option Nat} {digits : List Char} {n : Nat}
    (h : Numeral base digit? digits n)
    (hd : ∀ c m, digit? c = some m → Plain c) : ∀ c ∈ digits, Plain c := by
  obtain ⟨-, values, hmap, -⟩ := h
  intro c hc
  have hmem : digit? c ∈ values.map some := hmap ▸ mem_map_of_mem hc
  obtain ⟨m, -, hm⟩ := mem_map.mp hmem
  exact hd c m hm.symm

variable {written : List (List Char × List Char)} {body : List Char}

theorem Reference.plain {c : Char} (h : Reference body c) : ∀ x ∈ body, Plain x := by
  have hhash : Plain '#' := ⟨by decide, by decide⟩
  cases h with
  | predefined h =>
    simp only [predefinedReferences, mem_cons, Prod.mk.injEq, not_mem_nil,
      or_false] at h
    rcases h with ⟨rfl, -⟩ | ⟨rfl, -⟩ | ⟨rfl, -⟩ | ⟨rfl, -⟩ | ⟨rfl, -⟩ <;>
      simp [Plain, isXmlChar]
  | decimal h hc =>
    rw [forall_mem_cons]
    exact ⟨hhash, Numeral.plain h fun _ _ => plain_of_decimalDigit?⟩
  | hexadecimal h hc =>
    rw [forall_mem_cons, forall_mem_cons]
    exact ⟨hhash, ⟨by decide, by decide⟩, Numeral.plain h fun _ _ => plain_of_hexDigit?⟩

theorem AttributeText.plain (h : AttributeText text value) : ∀ x ∈ text, Plain x := by
  induction h with
  | nil => exact fun _ hx => absurd hx not_mem_nil
  | char hlt hamp hc rest ih => exact forall_mem_cons.mpr ⟨⟨hc, hlt⟩, ih⟩
  | reference h rest ih =>
    rw [forall_mem_append, forall_mem_cons, forall_mem_cons]
    exact ⟨⟨⟨by decide, by decide⟩, Reference.plain h⟩, ⟨by decide, by decide⟩, ih⟩

theorem AttributeText.exists_of_plain (hp : ∀ x ∈ text, Plain x) (hamp : '&' ∉ text) :
    ∃ value, AttributeText text value := by
  induction text with
  | nil => exact ⟨[], .nil⟩
  | cons c text ih =>
    obtain ⟨hc, hp⟩ := forall_mem_cons.mp hp
    obtain ⟨value, hv⟩ := ih hp fun hx => hamp (.tail _ hx)
    exact ⟨_, .char hc.2 (fun h => hamp (h ▸ mem_cons_self)) hc.1 hv⟩

/-- A value in which nothing has to be replaced means itself. -/
theorem AttributeText.eq_self (h : AttributeText text value) (hamp : '&' ∉ text)
    (hn : needsNormalization text = false) : value = text := by
  induction h with
  | nil => rfl
  | @char c text value hlt _ hc rest ih =>
    simp only [needsNormalization, any_cons, Bool.or_eq_false_iff] at hn
    rw [ih (fun hx => hamp (.tail _ hx)) hn.2, normalizeBlank, if_neg (by simp [hn.1])]
  | reference h rest ih => exact absurd mem_cons_self hamp

theorem TagBody.nodup {name : List Char} (h : TagBody name written body) :
    (written.map Prod.fst).Nodup := by
  cases h with
  | mk hn ha hd hv hs => exact hd

theorem TagBody.isName {name : List Char} (h : TagBody name written body) : IsName name := by
  cases h with
  | mk hn ha hd hv hs => exact hn

theorem TagBody.exists_cons {name : List Char} (h : TagBody name written body) :
    ∃ c rest, body = c :: rest ∧ startsName c = true := by
  cases h with
  | mk hn ha hd hv hs =>
    obtain ⟨c, rest, rfl, hc, -⟩ := hn
    exact ⟨c, _, rfl, hc⟩

/-- The attributes that a tag gives: names as they are written, values with their meaning. -/
def Gives (written : List (List Char × List Char)) (attributes : List Attribute) : Prop :=
  List.Forall₂ (fun w a => a.name.toList = w.1 ∧ AttributeText w.2 a.value.toList) written
    attributes

theorem exists_gives (h : ∀ w ∈ written, ∃ value, AttributeText w.2 value) :
    ∃ attributes, Gives written attributes := by
  induction written with
  | nil => exact ⟨[], .nil⟩
  | cons w written ih =>
    obtain ⟨⟨value, hv⟩, h⟩ := forall_mem_cons.mp h
    obtain ⟨attributes, ha⟩ := ih h
    refine ⟨⟨String.ofList w.1, String.ofList value⟩ :: attributes, .cons ⟨?_, ?_⟩ ha⟩
    · exact String.toList_ofList
    · rwa [String.toList_ofList]

theorem TagBody.exists_gives {name : List Char} (h : TagBody name written body) :
    ∃ attributes, Gives written attributes := by
  cases h with
  | mk hn ha hd hv hs => exact Grammar.exists_gives hv

end Xml.Grammar

namespace Xml.Scan

open Text Grammar List

variable {env : Env} {place text value : List Char} {depth : Nat} {out : String} {s s' : State}

/-! ## The text of a value -/

theorem push_append_ofList (out : String) (c : Char) (text : List Char) :
    out.push c ++ String.ofList text = out ++ String.ofList (c :: text) := by
  rw [← String.toList_inj]
  simp

theorem attributeText_char {c : Char} {after : List Char} (h : c ≠ '&') :
    attributeText env place depth (c :: after) out =
      attributeText env place depth after (out.push (normalizeBlank c)) := by
  rw [attributeText, if_neg (by simpa using h)]

theorem attributeText_reference {body rest : List Char} {c : Char} (h : Grammar.Reference body c) :
    attributeText env place depth ('&' :: body ++ ';' :: rest) out =
      attributeText env place depth rest (out.push c) := by
  have hb : breakOn [';'] (body ++ ';' :: rest) = some (body, rest) :=
    breakOn_singleton_iff.mpr ⟨rfl, h.semicolon_notMem⟩
  rw [cons_append, attributeText, if_pos (by rfl)]
  split
  · next hn => rw [hb] at hn; cases hn
  · next reference rest' hr =>
    rw [hb] at hr
    cases hr
    rcases h.charRef_or_predefined with ⟨inside, rfl, hc⟩ | ⟨hne, hp⟩
    · rw [show after? ['#'] ('#' :: inside) = some inside from after?_append ['#'] inside]
      simp only [hc]
    · have ha : after? ['#'] body = none :=
        after?_eq_none fun hprefix => by
          obtain ⟨inside, rfl⟩ := hprefix
          exact hne inside rfl
      simp only [ha, hp]

/-- A proper value is read as what it means, and nothing else happens. -/
theorem attributeText_of (h : AttributeText text value) (out : String) (s : State) :
    attributeText env place depth text out s = .ok (out ++ String.ofList value) s := by
  induction h generalizing out with
  | nil =>
    rw [attributeText, show String.ofList [] = "" from rfl, String.append_empty]
    rfl
  | char hlt hamp hc rest ih => rw [attributeText_char hamp, ih, push_append_ofList]
  | reference h rest ih => rw [attributeText_reference h, ih, push_append_ofList]

/-- Without declared entities, a `&` that begins no reference is a mistake that is told. -/
theorem exists_reference_of_attributeText (after : List Char) :
    Triple (fun s => s.entities = {}) (attributeText env place depth ('&' :: after) out)
      (fun _ s => Spoilt s ∨
        ∃ body c rest, Grammar.Reference body c ∧ after = body ++ ';' :: rest)
      fun _ => True := by
  have hkeeps (depth : Nat) (text : List Char) (out : String) :
      Keeps Spoilt (attributeText env place depth text out) :=
    (Closed.spoilt.quiet .content).keeps_attributeText env place depth text out
  rw [attributeText, if_pos (by rfl)]
  split
  · exact .ofReportThen (hkeeps _ _ _)
  next reference rest hb =>
  obtain ⟨hafter, -⟩ := breakOn_singleton_iff.mp hb
  split
  · next body ha =>
    split
    · next c hc =>
      have href : Grammar.Reference reference c := by
        rw [after?_eq ha]
        exact charRef?_eq_some_iff.mp hc
      exact .ofPost (fun _ _ => .inr ⟨reference, c, rest, href, hafter⟩) fun _ => trivial
    · exact .ofReportThen (hkeeps _ _ _)
  split
  · next c hc =>
    have href : Grammar.Reference reference c := .predefined (predefined?_eq_some_iff.mp hc)
    exact .ofPost (fun _ _ => .inr ⟨reference, c, rest, href, hafter⟩) fun _ => trivial
  split
  · refine .getThen fun s hs => ?_
    have hnone : s.entities.get? (String.ofList reference) = none := by rw [hs]; rfl
    simp only [hnone]
    exact .ofReportThen (hkeeps _ _ _)
  · exact .ofReportThen (hkeeps _ _ _)

/-- Nothing but proper values is read without a problem. -/
theorem exists_attributeText (hs : s.entities = {}) (hp : ∀ x ∈ text, Plain x) {v : String}
    (h : attributeText env place depth text out s = .ok v s') (hgood : ¬ Spoilt s') :
    ∃ value, AttributeText text value := by
  induction hn : text.length using Nat.strong_induction_on generalizing text out with
  | _ n ih =>
    cases text with
    | nil => exact ⟨[], .nil⟩
    | cons c after =>
      by_cases hamp : c = '&'
      · subst hamp
        obtain ⟨body, c, rest, href, rfl⟩ :=
          ((exists_reference_of_attributeText after).ok hs h).resolve_left hgood
        rw [← cons_append, attributeText_reference href] at h
        obtain ⟨value, hv⟩ := ih rest.length (by simp [← hn]; omega)
          (fun x hx => hp x (by simp [hx])) h rfl
        exact ⟨c :: value, .reference href hv⟩
      · rw [attributeText_char hamp] at h
        obtain ⟨hc, hp⟩ := forall_mem_cons.mp hp
        obtain ⟨value, hv⟩ := ih after.length (by simp [← hn]) hp h rfl
        exact ⟨_, .char hc.2 hamp hc.1 hv⟩

/-! ## The attributes of a tag -/

/-- A state with another place for problems inside entities. -/
def State.anchored (s : State) (anchor : List Char) : State :=
  { s with anchor := anchor }

theorem checkChars_of {site : CharSite} (h : XmlChars text) :
    checkChars env site text place s = .ok () s := by
  rw [checkChars, (findInvalid?_eq_none_iff text).mpr h]
  rfl

theorem checkChars_eq_ok {site : CharSite} (h : checkChars env site text place s = .ok () s') :
    XmlChars text ∧ s' = s := by
  rw [checkChars] at h
  cases hc : findInvalid? text with
  | some c =>
    rw [hc] at h
    cases h
  | none =>
    rw [hc] at h
    cases h
    exact ⟨(findInvalid?_eq_none_iff text).mp hc, rfl⟩

/-- A proper value is taken in; only where problems would be reported may change. -/
theorem attributeValue_of (env : Env) (depth : Nat) {raw : RawAttribute}
    (h : AttributeText raw.raw value) (s : State) :
    ∃ anchor, attributeValue env depth raw s =
      .ok (String.ofList value) (s.anchored anchor) := by
  have hc : checkChars env .attributeValue raw.raw (s.place depth raw.place) s = .ok () s :=
    checkChars_of fun c hc => (h.plain c hc).1
  have hlt : ¬ raw.raw.contains '<' = true := by
    simpa using fun hx => (h.plain _ hx).2 rfl
  rw [attributeValue, placeOf_bind,
    bind_of_ok hc]
  dsimp only
  rw [if_neg hlt]
  by_cases hr : (raw.raw.contains '&' || needsNormalization raw.raw) = true
  · rw [if_pos hr]
    split
    · exact ⟨_, attributeText_of h "" _⟩
    · exact ⟨s.anchor, attributeText_of h "" s⟩
  · rw [if_neg hr]
    simp only [Bool.or_eq_true, contains_iff_mem, not_or, Bool.not_eq_true] at hr
    rw [h.eq_self hr.1 hr.2]
    exact ⟨s.anchor, rfl⟩

/-- Nothing but proper values is taken in without a problem. -/
theorem exists_value_of_attributeValue {raw : RawAttribute} {v : String} (hs : s.entities = {})
    (h : attributeValue env depth raw s = .ok v s') (hgood : ¬ Spoilt s') :
    ∃ value, AttributeText raw.raw value := by
  rw [attributeValue, placeOf_bind] at h
  obtain ⟨_, s₁, hcheck, h⟩ := bind_eq_ok h
  obtain ⟨hc, rfl⟩ := checkChars_eq_ok hcheck
  dsimp only at h
  by_cases hlt : raw.raw.contains '<' = true
  · rw [if_pos hlt] at h
    refine absurd (spoilt_of_report ?_ h) hgood
    split
    · exact .perhaps (.ofModify fun _ h => h) fun _ =>
        (Closed.spoilt.quiet .content).keeps_attributeText env _ 0 raw.raw ""
    · exact .ofPure _
  · rw [if_neg hlt] at h
    have hp : ∀ x ∈ raw.raw, Plain x := fun x hx =>
      ⟨hc x hx, fun h => hlt (contains_iff_mem.mpr (h ▸ hx))⟩
    by_cases hr : (raw.raw.contains '&' || needsNormalization raw.raw) = true
    · rw [if_pos hr] at h
      by_cases hd : depth = 0
      · rw [if_pos hd] at h
        exact exists_attributeText (s := { s₁ with anchor := s₁.place depth raw.place }) hs hp h
          hgood
      · rw [if_neg hd] at h
        exact exists_attributeText hs hp h hgood
    · simp only [Bool.or_eq_true, contains_iff_mem, not_or, Bool.not_eq_true] at hr
      exact AttributeText.exists_of_plain hp hr.1

/-- Attributes with different names and proper values are taken in as they stand. -/
theorem attributeValues_of (env : Env) (depth : Nat) (tag : List Char) {raws : List RawAttribute}
    {attributes : List Attribute} (hg : Gives (raws.map pair) attributes)
    (hd : ((raws.map pair).map Prod.fst).Nodup) (kept : List Attribute)
    (hk : ∀ a ∈ kept, a.name.toList ∉ (raws.map pair).map Prod.fst) (s : State) :
    ∃ anchor, attributeValues env depth tag kept raws s =
      .ok (kept.reverse ++ attributes) (s.anchored anchor) := by
  induction raws generalizing attributes kept s with
  | nil =>
    cases hg
    rw [append_nil]
    exact ⟨s.anchor, rfl⟩
  | cons raw raws ih =>
    obtain _ | @⟨_, ⟨name, value⟩, _, attributes, ⟨hname, hvalue⟩, hg⟩ := hg
    simp only [map_cons, nodup_cons] at hd
    simp only [map_cons, mem_cons, not_or] at hk
    obtain ⟨anchor, hv⟩ := attributeValue_of env depth hvalue s
    have hnew : ¬ kept.any (·.name == raw.name) = true := by
      rw [any_eq_true]
      rintro ⟨a, ha, hn⟩
      exact (hk a ha).1 (congrArg String.toList (eq_of_beq hn))
    have hn : raw.name = name := String.toList_inj.mp hname.symm
    have hk' : ∀ a ∈ (⟨name, value⟩ : Attribute) :: kept,
        a.name.toList ∉ (raws.map pair).map Prod.fst :=
      forall_mem_cons.mpr ⟨hname ▸ hd.1, fun a ha => (hk a ha).2⟩
    obtain ⟨anchor', hr⟩ := ih hg hd.2 _ hk' (s.anchored anchor)
    refine ⟨anchor', ?_⟩
    rw [attributeValues, bind_of_ok hv, if_neg hnew, hn, String.ofList_toList, hr,
      reverse_cons, append_assoc]
    rfl

/-- Nothing but attributes with different names and proper values is taken in without a problem. -/
theorem nodup_of_attributeValues {raws : List RawAttribute} {attributes kept : List Attribute}
    {tag : List Char} (hs : s.entities = {})
    (h : attributeValues env depth tag kept raws s = .ok attributes s') (hgood : ¬ Spoilt s') :
    ((raws.map pair).map Prod.fst).Nodup ∧
      (∀ a ∈ kept, a.name.toList ∉ (raws.map pair).map Prod.fst) ∧
      ∀ w ∈ raws.map pair, ∃ value, AttributeText w.2 value := by
  induction raws generalizing kept s with
  | nil => simp
  | cons raw raws ih =>
    have hkeeps (kept : List Attribute) : Keeps Spoilt (attributeValues env depth tag kept raws) :=
      (Closed.spoilt.quiet .content).keeps_attributeValues env depth tag raws kept
    rw [attributeValues] at h
    obtain ⟨v, s₁, hv, h⟩ := bind_eq_ok h
    by_cases hdup : kept.any (·.name == raw.name) = true
    · rw [if_pos hdup, placeOf_bind] at h
      exact absurd (spoilt_of_report (hkeeps kept) h) hgood
    rw [if_neg hdup] at h
    obtain ⟨value, hvalue⟩ := exists_value_of_attributeValue hs hv ((hkeeps _).not_spoilt h hgood)
    obtain ⟨anchor, hv'⟩ := attributeValue_of env depth hvalue s
    rw [hv] at hv'
    cases hv'
    obtain ⟨hd, hk, hall⟩ := ih (s := s.anchored anchor) hs h
    obtain ⟨hraw, hk⟩ := forall_mem_cons.mp hk
    refine ⟨nodup_cons.mpr ⟨hraw, hd⟩, fun a ha hmem => ?_, fun w hw => ?_⟩
    · rcases mem_cons.mp hmem with hn | hmem
      · exact hdup (any_eq_true.mpr ⟨a, ha, beq_iff_eq.mpr (String.toList_inj.mp hn)⟩)
      · exact hk a ha hmem
    · rcases mem_cons.mp hw with rfl | hw
      · exact ⟨value, hvalue⟩
      · exact hall w hw

end Xml.Scan
