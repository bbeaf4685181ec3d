import Mathlib.Tactic.Ring
import Xml.Proofs.Scan.Grammar
import Xml.Scan.Attribute
import Xml.Scan.Markup

/-!
# The readers of the scanner and the grammar

Each reader of markup accepts exactly what a rule of the grammar builds. The readers look no further
than the piece they read; where a piece could go on, the statement says what may not stand behind
it.
-/

namespace Xml.Grammar

open Text List

variable {text rest value body tail inside digits name space : List Char} {c : Char} {n base : Nat}
  {d e : Scan.XmlDeclaration} {key : String}

/-! ## References -/

variable {digit? : Char → Option Nat} {items : List (List Char × List Char)}

theorem addDigits_eq_some_iff {value : Nat} :
    addDigits base digit? value digits = some n ↔
      ∃ values : List Nat, digits.map digit? = values.map some ∧
        n = value * base ^ values.length + Nat.ofDigits base values.reverse := by
  induction digits generalizing value with
  | nil =>
    constructor
    · intro h
      cases h
      exact ⟨[], rfl, by simp⟩
    · rintro ⟨values, hv, rfl⟩
      obtain rfl : values = [] := by simpa using hv.symm
      simp [addDigits]
  | cons c digits ih =>
    rw [addDigits]
    cases hd : digit? c with
    | none =>
      constructor
      · intro h
        cases h
      · rintro ⟨values, hv, -⟩
        rw [map_cons, hd] at hv
        cases values <;> simp at hv
    | some d =>
      have step : ∀ vs : List Nat, (value * base + d) * base ^ vs.length +
          Nat.ofDigits base vs.reverse =
            value * base ^ (d :: vs).length + Nat.ofDigits base (d :: vs).reverse := by
        intro vs
        rw [reverse_cons, Nat.ofDigits_append, Nat.ofDigits_singleton, length_reverse,
          length_cons]
        ring
      rw [ih]
      constructor
      · rintro ⟨vs, hv, rfl⟩
        exact ⟨d :: vs, by rw [map_cons, map_cons, hd, hv], step vs⟩
      · rintro ⟨values, hv, rfl⟩
        cases values with
        | nil => simp at hv
        | cons v vs =>
          rw [map_cons, map_cons, hd, List.cons.injEq, Option.some.injEq] at hv
          obtain ⟨rfl, hv⟩ := hv
          exact ⟨vs, hv, (step vs).symm⟩

theorem number?_eq_some_iff :
    number? base digit? digits = some n ↔ Numeral base digit? digits n := by
  rw [number?, Numeral]
  cases digits with
  | nil => simp
  | cons c digits => simp [addDigits_eq_some_iff]

/-- A code point that is no surrogate and not too large is that of its character. -/
theorem toNat_ofNat_of_isXmlChar (h : isXmlChar n = true) : (Char.ofNat n).toNat = n := by
  have hv : n.isValidChar := by
    simp only [isXmlChar, Bool.or_eq_true, beq_iff_eq, Bool.and_eq_true, decide_eq_true_eq] at h
    rw [Nat.isValidChar]
    omega
  rw [Char.ofNat, dif_pos hv]
  rfl

theorem not_numeral_x : ¬ Numeral 10 decimalDigit? ('x' :: digits) n := by
  rintro ⟨-, values, hv, -⟩
  cases values with
  | nil => simp at hv
  | cons v vs => simp [decimalDigit?] at hv

theorem codePoint?_eq_some_iff :
    codePoint? body = some n ↔
      (∃ hex, body = 'x' :: hex ∧ Numeral 16 hexDigit? hex n) ∨
        Numeral 10 decimalDigit? body n := by
  unfold codePoint?
  split
  · next hex =>
    rw [number?_eq_some_iff]
    simp [not_numeral_x]
  · next hx =>
    rw [number?_eq_some_iff]
    constructor
    · exact Or.inr
    · rintro (⟨hex, rfl, -⟩ | h)
      · exact absurd rfl (hx hex)
      · exact h

/-- **Character references** name a character a document may hold. -/
theorem charRef?_eq_some_iff : charRef? body = some c ↔ Reference ('#' :: body) c := by
  have hcode : charRef? body = some c ↔
      codePoint? body = some c.toNat ∧ isXmlChar c.toNat = true := by
    rw [charRef?]
    cases codePoint? body with
    | none => simp
    | some n =>
      by_cases hx : isXmlChar n = true
      · simp only [if_pos hx, Option.some.injEq]
        constructor
        · rintro rfl
          rw [toNat_ofNat_of_isXmlChar hx]
          exact ⟨rfl, hx⟩
        · rintro ⟨rfl, -⟩
          exact Char.ofNat_toNat c
      · simp only [if_neg hx, Option.some.injEq]
        constructor
        · intro h
          cases h
        · rintro ⟨rfl, h⟩
          exact absurd h hx
  rw [hcode, codePoint?_eq_some_iff]
  constructor
  · rintro ⟨⟨hex, rfl, hn⟩ | hn, hx⟩
    · exact .hexadecimal hn hx
    · exact .decimal hn hx
  · intro h
    cases h with
    | predefined h => simp [predefinedReferences] at h
    | decimal hn hx => exact ⟨Or.inr hn, hx⟩
    | hexadecimal hn hx => exact ⟨Or.inl ⟨_, rfl, hn⟩, hx⟩

theorem predefined?_eq_some_iff : predefined? name = some c ↔ (name, c) ∈ predefinedReferences := by
  have hname : ∀ s : String, String.ofList name = s → name = s.toList := by
    rintro s rfl
    exact String.toList_ofList.symm
  rw [predefined?, predefinedReferences]
  constructor
  · intro h
    split at h
    case h_6 => cases h
    all_goals
      next he =>
      cases h
      simp [hname _ he]
  · intro h
    simp only [mem_cons, Prod.mk.injEq, not_mem_nil, or_false] at h
    rcases h with ⟨rfl, rfl⟩ | ⟨rfl, rfl⟩ | ⟨rfl, rfl⟩ | ⟨rfl, rfl⟩ | ⟨rfl, rfl⟩ <;> rfl

theorem Numeral.semicolon_notMem (h : Numeral base digit? digits n) (hd : digit? ';' = none) :
    ';' ∉ digits := by
  obtain ⟨-, values, hv, -⟩ := h
  intro hm
  have hm' : none ∈ digits.map digit? := mem_map.mpr ⟨';', hm, hd⟩
  rw [hv] at hm'
  simp at hm'

theorem Reference.semicolon_notMem (h : Reference body c) : ';' ∉ body := by
  cases h with
  | predefined h =>
    simp only [predefinedReferences, mem_cons, Prod.mk.injEq, not_mem_nil,
      or_false] at h
    rcases h with ⟨rfl, -⟩ | ⟨rfl, -⟩ | ⟨rfl, -⟩ | ⟨rfl, -⟩ | ⟨rfl, -⟩ <;> decide
  | decimal h _ => simpa using h.semicolon_notMem (by decide)
  | hexadecimal h _ => simpa using h.semicolon_notMem (by decide)

theorem isName_of_predefined (h : (name, c) ∈ predefinedReferences) : IsName name := by
  rw [← isName_iff]
  simp only [predefinedReferences, mem_cons, Prod.mk.injEq, not_mem_nil, or_false] at h
  rcases h with ⟨rfl, -⟩ | ⟨rfl, -⟩ | ⟨rfl, -⟩ | ⟨rfl, -⟩ | ⟨rfl, -⟩ <;> decide

/-- The two kinds of references, as the scanner tells them apart. -/
theorem Reference.charRef_or_predefined (h : Reference body c) :
    (∃ inside, body = '#' :: inside ∧ charRef? inside = some c) ∨
      ((∀ inside, body ≠ '#' :: inside) ∧ predefined? body = some c) := by
  have key := @charRef?_eq_some_iff
  cases h with
  | predefined h =>
    refine Or.inr ⟨?_, predefined?_eq_some_iff.mpr h⟩
    rintro inside rfl
    simp [predefinedReferences] at h
  | decimal h hc => exact Or.inl ⟨_, rfl, key.mpr (.decimal h hc)⟩
  | hexadecimal h hc => exact Or.inl ⟨_, rfl, key.mpr (.hexadecimal h hc)⟩

/-- The character a reference of content stands for, if no declaration is needed to tell. -/
def meaning? : Scan.Reference → Option Char
  | .char c => c
  | .entity name => predefined? name
  | .plain => none

/-- **References in content.** -/
theorem readReference_eq_iff :
    (∃ r, Scan.readReference text = (r, rest) ∧ meaning? r = some c) ↔
      ∃ body, Reference body c ∧ text = body ++ ';' :: rest := by
  constructor
  · rintro ⟨r, hr, hm⟩
    unfold Scan.readReference at hr
    split at hr
    · next inside =>
      split at hr
      · next body tail hb =>
        cases hr
        obtain ⟨rfl, -⟩ := breakOn_singleton_iff.mp hb
        exact ⟨'#' :: body, charRef?_eq_some_iff.mp hm, rfl⟩
      · cases hr
        cases hm
    · split at hr
      · next name tail hn =>
        cases hr
        obtain ⟨rfl, -, -⟩ := readName?_eq_some_iff.mp hn
        exact ⟨name, .predefined (predefined?_eq_some_iff.mp hm), rfl⟩
      · cases hr
        cases hm
  · rintro ⟨body, hb, rfl⟩
    have hsemi := hb.semicolon_notMem
    rcases hb.charRef_or_predefined with ⟨inside, rfl, hc⟩ | ⟨hhash, hp⟩
    · have hb' : breakOn [';'] (inside ++ ';' :: rest) = some (inside, rest) :=
        breakOn_singleton_iff.mpr ⟨rfl, fun hm => hsemi (mem_cons_of_mem _ hm)⟩
      refine ⟨.char (some c), ?_, rfl⟩
      simp only [cons_append, Scan.readReference, hb', hc]
    · have hname := isName_of_predefined (predefined?_eq_some_iff.mp hp)
      have hn : readName? (body ++ ';' :: rest) = some (body, ';' :: rest) :=
        readName?_eq_some_iff.mpr ⟨rfl, hname, stopsAt_cons.mpr (by decide)⟩
      refine ⟨.entity body, ?_, hp⟩
      unfold Scan.readReference
      split
      · next inside he =>
        obtain ⟨x, xs, rfl, -⟩ := hname
        rw [cons_append, List.cons.injEq] at he
        exact absurd (he.1 ▸ rfl) (hhash xs)
      · simp only [hn]

/-! ## Tags -/

theorem not_continuesName_of_isBlank (h : isBlank c = true) : continuesName c = false := by
  simp only [isBlank, Bool.or_eq_true, beq_iff_eq] at h
  rcases h with ((rfl | rfl) | rfl) | rfl <;> decide

/-- White space ends a name as much as what stands behind it. -/
theorem stopsAt_space_append (hs : IsSpace space) (hr : StopsAt continuesName rest) :
    StopsAt continuesName (space ++ rest) := by
  cases space with
  | nil => exact hr
  | cons c space => exact stopsAt_cons.mpr (not_continuesName_of_isBlank (hs c mem_cons_self))

theorem not_isBlank_of_startsName (h : startsName c = true) : isBlank c = false := by
  rw [Bool.eq_false_iff]
  intro hb
  simp only [isBlank, Bool.or_eq_true, beq_iff_eq] at hb
  rcases hb with ((rfl | rfl) | rfl) | rfl <;> exact absurd h (by decide)

theorem readQuoted?_eq_some_iff_literal :
    readQuoted? text = some (value, rest) ↔ ∃ literal, Literal value literal ∧
      text = literal ++ rest := by
  rw [readQuoted?_eq_some_iff]
  constructor
  · rintro ⟨q, hq, hout, rfl⟩
    exact ⟨_, .mk hq hout, by simp⟩
  · rintro ⟨literal, hl, rfl⟩
    cases hl with
    | mk hq hout => exact ⟨_, hq, hout, by simp⟩

theorem Literal.stopsAt {literal : List Char} (h : Literal value literal) :
    StopsAt isBlank (literal ++ rest) := by
  cases h with
  | mk hq _ =>
    refine stopsAt_cons.mpr ?_
    rcases hq with rfl | rfl <;> decide

/-- `name = literal`, as attributes and pseudo-attributes are written. -/
theorem readAssignment_iff :
    (∃ r₁ r₂, readName? text = some (name, r₁) ∧ skipBlanks r₁ = '=' :: r₂ ∧
        readQuoted? (skipBlanks r₂) = some (value, rest)) ↔
      ∃ before after literal, IsName name ∧ IsSpace before ∧ IsSpace after ∧
        Literal value literal ∧ text = name ++ before ++ '=' :: after ++ literal ++ rest := by
  constructor
  · rintro ⟨r₁, r₂, hn, hs, hq⟩
    obtain ⟨rfl, hname, -⟩ := readName?_eq_some_iff.mp hn
    obtain ⟨before, hb, hr₁, -⟩ := exists_space_append r₁
    obtain ⟨after, ha, hr₂, -⟩ := exists_space_append r₂
    obtain ⟨literal, hl, hr⟩ := readQuoted?_eq_some_iff_literal.mp hq
    refine ⟨before, after, literal, hname, hb, ha, hl, ?_⟩
    rw [hr₁, hs, hr₂, hr]
    simp
  · rintro ⟨before, after, literal, hname, hb, ha, hl, rfl⟩
    refine ⟨before ++ '=' :: (after ++ (literal ++ rest)), after ++ (literal ++ rest), ?_, ?_, ?_⟩
    · refine readName?_eq_some_iff.mpr ⟨by simp, hname, ?_⟩
      exact stopsAt_space_append hb (stopsAt_cons.mpr (by decide))
    · exact skipBlanks_append hb (stopsAt_cons.mpr (by decide))
    · rw [skipBlanks_append ha hl.stopsAt]
      exact readQuoted?_eq_some_iff_literal.mpr ⟨literal, hl, rfl⟩

theorem readAttribute_eq_ok_iff {name : String} :
    Scan.readAttribute text = .ok (name, value, rest) ↔
      ∃ before after literal, IsName name.toList ∧ IsSpace before ∧ IsSpace after ∧
        Literal value literal ∧
        text = name.toList ++ before ++ '=' :: after ++ literal ++ rest := by
  rw [← readAssignment_iff]
  constructor
  · intro h
    unfold Scan.readAttribute at h
    split at h
    · cases h
    · next n r₁ hn =>
      split at h
      · next r₂ hs =>
        split at h
        · next raw r hq =>
          cases h
          rw [String.toList_ofList]
          exact ⟨r₁, r₂, hn, hs, hq⟩
        · cases h
      · cases h
  · rintro ⟨r₁, r₂, hn, hs, hq⟩
    simp only [Scan.readAttribute, hn, hs, hq, String.ofList_toList]

/-- An attribute without its place: its name and the text between its quotes. -/
def pair (raw : Scan.RawAttribute) : List Char × List Char :=
  (raw.name.toList, raw.raw)

/-- The text from the end of a tag on, for a tag that ends properly. -/
def endText : Scan.TagEnd → Option (List Char)
  | .opened rest => some ('>' :: rest)
  | .closed rest => some ('/' :: '>' :: rest)
  | .unfinished | .broken _ _ => none

/-- Where a tag ends there is neither white space nor a name. -/
theorem stopsAt_endText {tagEnd : Scan.TagEnd} (h : endText tagEnd = some tail) :
    StopsAt isBlank tail ∧ StopsAt continuesName tail := by
  cases tagEnd with
  | opened rest =>
    cases h
    exact ⟨stopsAt_cons.mpr (by decide), stopsAt_cons.mpr (by decide)⟩
  | closed rest =>
    cases h
    exact ⟨stopsAt_cons.mpr (by decide), stopsAt_cons.mpr (by decide)⟩
  | unfinished => cases h
  | broken problem place => cases h

/-- The attributes that were read stand in the text in front of the end of the tag. -/
theorem attributes_of_readAttributes (h : endText (Scan.readAttributes text).2 = some tail) :
    ∃ body space, text = body ++ space ++ tail ∧ IsSpace space ∧
      Attributes ((Scan.readAttributes text).1.map pair) body := by
  fun_induction Scan.readAttributes text with
  | case1 => cases h
  | case2 text rest hs =>
    cases h
    obtain ⟨space, hsp, he, -⟩ := exists_space_append text
    exact ⟨[], space, by rw [← hs]; exact he, hsp, .nil⟩
  | case3 text rest hs =>
    cases h
    obtain ⟨space, hsp, he, -⟩ := exists_space_append text
    exact ⟨[], space, by rw [← hs]; exact he, hsp, .nil⟩
  | case4 => cases h
  | case5 text c rest _ _ hs hc name raw tail' hr _ _ _ attributes tagEnd he ih =>
    rw [he] at ih
    obtain ⟨body, space, rfl, hsp, hatt⟩ := ih h
    obtain ⟨first, hf, htext, -⟩ := exists_space_append text
    obtain ⟨before, after, literal, hn, hb, ha, hl, heq⟩ := readAttribute_eq_ok_iff.mp hr
    rw [hs] at htext
    have hne : first ≠ [] := by
      rintro rfl
      rw [htext, nil_append, startsBlank, Bool.and_eq_true] at hc
      rw [not_isBlank_of_startsName hc.1] at hc
      exact absurd hc.2 Bool.false_ne_true
    rw [heq] at htext
    refine ⟨first ++ name.toList ++ before ++ '=' :: after ++ literal ++ body, space, ?_, hsp, ?_⟩
    · rw [htext]
      simp
    · exact .cons hf hne hn hb ha hl hatt
  | case6 => cases h

theorem readAttributes_cons {name : String} (hs : skipBlanks text = c :: rest)
    (hc : startsName c = true) (hb : startsBlank text = true)
    (hr : Scan.readAttribute (c :: rest) = .ok (name, value, tail)) :
    Scan.readAttributes text = (⟨c :: rest, name, value⟩ :: (Scan.readAttributes tail).1,
      (Scan.readAttributes tail).2) := by
  rw [Scan.readAttributes]
  split
  · next he => rw [he] at hs; cases hs
  · next he =>
    rw [he] at hs
    cases hs
    exact absurd hc (by decide)
  · next he =>
    rw [he] at hs
    cases hs
    exact absurd hc (by decide)
  · next c' rest' _ _ he =>
    rw [he] at hs
    cases hs
    rw [if_pos (by rw [hc, hb]; rfl)]
    split
    · next problem he' => rw [he'] at hr; cases hr
    · next name' raw' tail' he' =>
      rw [he'] at hr
      cases hr
      rfl

theorem readAttributes_of_attributes {attributes : List (List Char × List Char)}
    {tagEnd : Scan.TagEnd} (ha : Attributes attributes body) (hs : IsSpace space)
    (ht : endText tagEnd = some tail) :
    ∃ raws, Scan.readAttributes (body ++ space ++ tail) = (raws, tagEnd) ∧
      raws.map pair = attributes := by
  induction ha with
  | nil =>
    have hskip := skipBlanks_append hs (stopsAt_endText ht).1
    refine ⟨[], ?_, rfl⟩
    rw [nil_append, Scan.readAttributes]
    cases tagEnd with
    | opened rest =>
      cases ht
      split <;> simp_all
    | closed rest =>
      cases ht
      split <;> simp_all
    | unfinished => cases ht
    | broken problem place => cases ht
  | @cons first name before after value literal text more hsp hne hn hb ha hv _ ih =>
    obtain ⟨raws, hraws, hmap⟩ := ih
    have hread : Scan.readAttribute (name ++ before ++ '=' :: after ++ literal ++
        (text ++ space ++ tail)) = .ok (String.ofList name, value, text ++ space ++ tail) := by
      refine readAttribute_eq_ok_iff.mpr ⟨before, after, literal, ?_, hb, ha, hv, ?_⟩
      · rw [String.toList_ofList]
        exact hn
      · rw [String.toList_ofList]
    have hbody : first ++ name ++ before ++ '=' :: after ++ literal ++ text ++ space ++ tail =
        first ++ (name ++ before ++ '=' :: after ++ literal ++ (text ++ space ++ tail)) := by simp
    obtain ⟨c, n, rfl, hc, -⟩ := hn
    obtain ⟨b, bs, rfl⟩ := exists_cons_of_ne_nil hne
    have hstop : StopsAt isBlank (c :: n ++ before ++ '=' :: after ++ literal ++
        (text ++ space ++ tail)) := stopsAt_cons.mpr (not_isBlank_of_startsName hc)
    have hskip := skipBlanks_append hsp hstop
    rw [hbody, readAttributes_cons hskip hc (hsp b mem_cons_self) hread, hraws]
    refine ⟨_, rfl, ?_⟩
    rw [map_cons, hmap, pair, String.toList_ofList]

theorem readEndTag_eq_ok_iff {name : String} :
    Scan.readEndTag text = .ok (name, rest) ↔
      ∃ space, IsName name.toList ∧ IsSpace space ∧ text = name.toList ++ space ++ '>' :: rest := by
  constructor
  · intro h
    unfold Scan.readEndTag at h
    split at h
    · cases h
    · next n r hn =>
      split at h
      · next r' hs =>
        cases h
        obtain ⟨rfl, hname, -⟩ := readName?_eq_some_iff.mp hn
        obtain ⟨space, hsp, hr, -⟩ := exists_space_append r
        refine ⟨space, by rw [String.toList_ofList]; exact hname, hsp, ?_⟩
        rw [String.toList_ofList, append_assoc, ← hs, ← hr]
      · cases h
  · rintro ⟨space, hname, hsp, rfl⟩
    have hstop : StopsAt continuesName (space ++ '>' :: rest) :=
      stopsAt_space_append hsp (stopsAt_cons.mpr (by decide))
    have hn := readName?_eq_some_iff.mpr ⟨append_assoc _ _ _, hname, hstop⟩
    have hs : skipBlanks (space ++ '>' :: rest) = '>' :: rest :=
      skipBlanks_append hsp (stopsAt_cons.mpr (by decide))
    simp only [Scan.readEndTag, hn, hs, String.ofList_toList]

/-! ## Markup that ends with a mark -/

theorem readUpTo_eq_ok_iff {mark : String} {problem : Problem} (hm : mark.toList ≠ [])
    (hu : Unbordered mark.toList) :
    Scan.readUpTo mark problem text = .ok (inside, rest) ↔
      text = inside ++ mark.toList ++ rest ∧ ¬ mark.toList <:+: inside := by
  rw [← breakOn_eq_some_iff hm hu, Scan.readUpTo]
  cases breakOn mark.toList text with
  | none => simp
  | some found => simp

theorem readCData_eq_ok_iff :
    Scan.readCData text = .ok (inside, rest) ↔
      text = inside ++ "]]>".toList ++ rest ∧ ¬ "]]>".toList <:+: inside :=
  readUpTo_eq_ok_iff (by decide) (by decide)

/-- A comment that does not contain `--` and does not end with a hyphen ends at the first `-->`. -/
theorem readComment_eq_ok_iff :
    Scan.readComment text = .ok (inside, rest) ↔
      text = inside ++ "-->".toList ++ rest ∧ ¬ "-->".toList <:+: inside :=
  readUpTo_eq_ok_iff (by decide) (by decide)

/-- A mark that does not begin with white space lies behind it. -/
theorem infix_space_append_iff {m : Char} {mark : List Char} (hm : isBlank m = false)
    (hs : IsSpace space) : m :: mark <:+: space ++ text ↔ m :: mark <:+: text := by
  induction space with
  | nil => rfl
  | cons c space ih =>
    have hc := hs c mem_cons_self
    have hne : ¬ m :: mark <+: c :: (space ++ text) := by
      intro hp
      rw [cons_prefix_cons] at hp
      rw [hp.1, hc] at hm
      cases hm
    rw [cons_append, infix_cons_iff, ih fun x hx => hs x (mem_cons_of_mem _ hx)]
    simp [hne]

/-- Data behind white space, as instructions have it, up to a mark. -/
theorem breakOn_skipBlanks_iff {data : List Char} :
    breakOn "?>".toList (skipBlanks text) = some (data, rest) ↔
      ∃ body, text = body ++ "?>".toList ++ rest ∧ ¬ "?>".toList <:+: body ∧
        data = skipBlanks body := by
  rw [breakOn_eq_some_iff (by decide) (by decide)]
  constructor
  · rintro ⟨he, hi⟩
    obtain ⟨space, hs, htext, hstop⟩ := exists_space_append text
    refine ⟨space ++ data, ?_, ?_, ?_⟩
    · rw [htext, he]
      simp
    · exact fun h => hi ((infix_space_append_iff (by decide) hs).mp h)
    · refine (skipBlanks_append hs ?_).symm
      cases data with
      | nil => exact stopsAt_nil _
      | cons c data =>
        rw [he] at hstop
        exact stopsAt_cons.mpr (stopsAt_cons.mp hstop)
  · rintro ⟨body, rfl, hi, rfl⟩
    obtain ⟨space, hs, hbody, hstop⟩ := exists_space_append body
    have hstop' : StopsAt isBlank (skipBlanks body ++ "?>".toList ++ rest) := by
      cases hb : skipBlanks body with
      | nil => exact stopsAt_cons.mpr (by decide)
      | cons c data =>
        rw [hb] at hstop
        exact stopsAt_cons.mpr (stopsAt_cons.mp hstop)
    constructor
    · have h := skipBlanks_append hs hstop'
      rw [← append_assoc, ← append_assoc, ← hbody] at h
      exact h
    · intro h
      refine hi ?_
      rw [hbody]
      exact (infix_space_append_iff (by decide) hs).mpr h

/-- **Instructions**: a target, and data that white space sets off. -/
theorem readInstruction_eq_ok_iff {data : List Char} {target : String} :
    Scan.readInstruction text = .ok ((target, data), rest) ↔
      ∃ body, IsName target.toList ∧ asciiLower target.toList ≠ "xml".toList ∧
        (body = [] ∨ startsBlank body = true) ∧ ¬ "?>".toList <:+: body ∧
        text = target.toList ++ body ++ "?>".toList ++ rest ∧ data = skipBlanks body := by
  constructor
  · intro h
    unfold Scan.readInstruction at h
    split at h
    · cases h
    · next name r hn =>
      split at h
      · cases h
      · next hx =>
        split at h
        · cases h
        · next d tail hb =>
          split at h
          · cases h
          · next hspace =>
            cases h
            obtain ⟨rfl, hname, -⟩ := readName?_eq_some_iff.mp hn
            obtain ⟨body, rfl, hi, rfl⟩ := breakOn_skipBlanks_iff.mp hb
            rw [String.toList_ofList]
            refine ⟨body, hname, by simpa using hx, ?_, hi, by simp, rfl⟩
            cases body with
            | nil => exact Or.inl rfl
            | cons c body =>
              cases hc : isBlank c with
              | true => exact Or.inr hc
              | false => simp [skipBlanks, startsBlank, hc] at hspace
  · rintro ⟨body, hname, hx, hs, hi, rfl, rfl⟩
    -- the name ends where the body or the closing mark begins
    have hstop : StopsAt continuesName (body ++ "?>".toList ++ rest) := by
      cases body with
      | nil => exact stopsAt_cons.mpr (by decide)
      | cons c body =>
        rcases hs with hs | hs
        · cases hs
        · exact stopsAt_cons.mpr (not_continuesName_of_isBlank hs)
    have hn : readName? (target.toList ++ body ++ "?>".toList ++ rest) =
        some (target.toList, body ++ "?>".toList ++ rest) :=
      readName?_eq_some_iff.mpr ⟨by simp, hname, hstop⟩
    have hb : breakOn "?>".toList (skipBlanks (body ++ "?>".toList ++ rest)) =
        some (skipBlanks body, rest) := breakOn_skipBlanks_iff.mpr ⟨body, rfl, hi, rfl⟩
    have hspace : (!(skipBlanks body).isEmpty && !startsBlank (body ++ "?>".toList ++ rest)) =
        false := by
      cases body with
      | nil => rfl
      | cons c body =>
        rcases hs with hs | hs
        · cases hs
        · have hc : startsBlank (c :: body ++ "?>".toList ++ rest) = true := hs
          rw [hc, Bool.not_true, Bool.and_false]
    have hx' : (asciiLower target.toList == "xml".toList) = false := by simpa using hx
    simp only [Scan.readInstruction, hn, hx', hb, hspace, String.ofList_toList, Bool.false_eq_true,
      if_false]

/-! ## The XML declaration -/

theorem readPseudoAttribute?_eq_some_iff {value : String} :
    Scan.readPseudoAttribute? text = some (key, value, rest) ↔
      ∃ before after literal, IsName key.toList ∧ IsSpace before ∧ IsSpace after ∧
        Literal value.toList literal ∧
        text = key.toList ++ before ++ '=' :: after ++ literal ++ rest := by
  rw [← readAssignment_iff]
  constructor
  · intro h
    unfold Scan.readPseudoAttribute? at h
    split at h
    · cases h
    · next n r₁ hn =>
      split at h
      · next r₂ hs =>
        obtain ⟨⟨raw, r⟩, hq, he⟩ := Option.map_eq_some_iff.mp h
        cases he
        rw [String.toList_ofList, String.toList_ofList]
        exact ⟨r₁, r₂, hn, hs, hq⟩
      · cases h
  · rintro ⟨r₁, r₂, hn, hs, hq⟩
    simp only [Scan.readPseudoAttribute?, hn, hs, hq, Option.map_some, String.ofList_toList]

/-- The keys that can be set are those of an XML declaration, and setting one does not unset
another. -/
theorem set?_eq_some {value : String} (h : d.set? key value = some e) :
    key.toList ∈ declarationKeys ∧
      (e.version.isSome ↔ d.version.isSome ∨ key.toList = "version".toList) := by
  unfold Scan.XmlDeclaration.set? at h
  split at h <;> cases h <;> simp [declarationKeys]

theorem isSome_set? {key : List Char} (hk : key ∈ declarationKeys) (d : Scan.XmlDeclaration)
    (value : String) : ∃ e, d.set? (String.ofList key) value = some e := by
  simp only [declarationKeys, mem_cons, not_mem_nil, or_false] at hk
  rcases hk with rfl | rfl | rfl <;> exact ⟨_, rfl⟩

theorem isName_of_declarationKey {key : List Char} (h : key ∈ declarationKeys) : IsName key := by
  rw [← isName_iff]
  simp only [declarationKeys, mem_cons, not_mem_nil, or_false] at h
  rcases h with rfl | rfl | rfl <;> decide

theorem readPseudoAttributes?_cons {value : String} (hs : skipBlanks text = c :: rest)
    (hr : Scan.readPseudoAttribute? (c :: rest) = some (key, value, tail))
    (he : d.set? key value = some e) :
    Scan.readPseudoAttributes? d text = Scan.readPseudoAttributes? e tail := by
  rw [Scan.readPseudoAttributes?]
  split
  · next hnil => rw [hnil] at hs; cases hs
  · next c' rest' hcons =>
    rw [hcons] at hs
    cases hs
    split
    · next hnone => rw [hnone] at hr; cases hr
    · next key' value' tail' hsome =>
      rw [hsome] at hr
      cases hr
      split
      · next hnone => rw [hnone] at he; cases he
      · next e' hsome' =>
        rw [hsome'] at he
        cases he
        rfl

/-- Pseudo-attributes set one after the other. -/
def setAll (d : Scan.XmlDeclaration) (items : List (List Char × List Char)) :
    Option Scan.XmlDeclaration :=
  items.foldlM (fun d item => d.set? (String.ofList item.1) (String.ofList item.2)) d

theorem setAll_cons {key : List Char}
    (h : d.set? (String.ofList key) (String.ofList value) = some e)
    (items : List (List Char × List Char)) : setAll d ((key, value) :: items) = setAll e items := by
  rw [setAll, foldlM_cons, h]
  rfl

theorem PseudoAttributes.keys (h : PseudoAttributes items text) :
    ∀ item ∈ items, item.1 ∈ declarationKeys := by
  induction h with
  | nil => exact forall_mem_nil _
  | cons hs hk hb ha hv rest ih => exact forall_mem_cons.mpr ⟨hk, ih⟩

/-- **The pseudo-attributes of an XML declaration.** -/
theorem readPseudoAttributes?_eq_some_iff :
    Scan.readPseudoAttributes? d text = some e ↔
      ∃ items, PseudoAttributes items text ∧ setAll d items = some e := by
  constructor
  · intro he
    fun_induction Scan.readPseudoAttributes? d text with
    | case1 d text hs =>
      obtain ⟨space, hsp, htext, -⟩ := exists_space_append text
      rw [hs, append_nil] at htext
      exact ⟨[], .nil (htext ▸ hsp), he⟩
    | case2 => cases he
    | case3 => cases he
    | case4 d text c rest hs key value tail hr e' hset _ _ _ ih =>
      obtain ⟨items, hitems, hall⟩ := ih he
      obtain ⟨space, hsp, htext, -⟩ := exists_space_append text
      obtain ⟨before, after, literal, hn, hb, ha, hl, heq⟩ :=
        readPseudoAttribute?_eq_some_iff.mp hr
      refine ⟨(key.toList, value.toList) :: items, ?_, ?_⟩
      · rw [htext, hs, heq]
        have := PseudoAttributes.cons hsp (set?_eq_some hset).1 hb ha hl hitems
        simpa using this
      · rw [setAll_cons (by rwa [String.ofList_toList, String.ofList_toList])]
        exact hall
  · rintro ⟨items, hitems, hall⟩
    induction hitems generalizing d with
    | @nil space hs =>
      have hskip : skipBlanks space = [] := by
        simpa using skipBlanks_append hs (stopsAt_nil isBlank)
      rw [Scan.readPseudoAttributes?]
      split
      · exact hall
      · next hcons => rw [hcons] at hskip; cases hskip
    | @cons space key before after value literal text more hs hk hb ha hl _ ih =>
      obtain ⟨e', hset⟩ := isSome_set? hk d (String.ofList value)
      have hname := isName_of_declarationKey hk
      have hread : Scan.readPseudoAttribute? (key ++ before ++ '=' :: after ++ literal ++ text) =
          some (String.ofList key, String.ofList value, text) := by
        refine readPseudoAttribute?_eq_some_iff.mpr ⟨before, after, literal, ?_, hb, ha, ?_, ?_⟩
        · rw [String.toList_ofList]; exact hname
        · rw [String.toList_ofList]; exact hl
        · rw [String.toList_ofList]
      have hbody : space ++ key ++ before ++ '=' :: after ++ literal ++ text =
          space ++ (key ++ before ++ '=' :: after ++ literal ++ text) := by simp
      obtain ⟨c, n, rfl, hc, -⟩ := hname
      have hstop : StopsAt isBlank (c :: n ++ before ++ '=' :: after ++ literal ++ text) :=
        stopsAt_cons.mpr (not_isBlank_of_startsName hc)
      have hskip := skipBlanks_append hs hstop
      rw [hbody, readPseudoAttributes?_cons hskip hread hset]
      exact ih (setAll_cons hset more ▸ hall)

/-- Every key of a declaration can be set, and the version is one of them. -/
theorem exists_setAll (h : ∀ item ∈ items, item.1 ∈ declarationKeys) (d : Scan.XmlDeclaration) :
    ∃ e, setAll d items = some e ∧
      (e.version.isSome ↔ d.version.isSome ∨ "version".toList ∈ items.map Prod.fst) := by
  induction items generalizing d with
  | nil => exact ⟨d, rfl, by simp⟩
  | cons item items ih =>
    obtain ⟨key, value⟩ := item
    obtain ⟨hk, hitems⟩ := forall_mem_cons.mp h
    obtain ⟨e, hset⟩ := isSome_set? hk d (String.ofList value)
    obtain ⟨e', he', hv⟩ := ih hitems e
    refine ⟨e', (setAll_cons hset items).trans he', ?_⟩
    rw [hv, (set?_eq_some hset).2, String.toList_ofList, map_cons, mem_cons, or_assoc,
      @eq_comm _ "version".toList]

theorem xmlDeclaration?_eq_some_iff :
    Scan.xmlDeclaration? text = some inside ↔
      text = "<?xml".toList ++ inside ∧ startsBlank inside = true := by
  rw [Scan.xmlDeclaration?]
  constructor
  · intro h
    split at h
    · next rest ha =>
      split at h
      · next hb =>
        cases h
        exact ⟨after?_eq ha, hb⟩
      · cases h
    · cases h
  · rintro ⟨rfl, hb⟩
    rw [after?_append]
    simp [hb]

theorem startsBlank_append (h : startsBlank text = true) : startsBlank (text ++ rest) = true := by
  cases text with
  | nil => cases h
  | cons c text => exact h

theorem readXmlDeclaration_eq_ok_iff :
    Scan.readXmlDeclaration inside = .ok (d, rest) ↔
      ∃ body, breakOn "?>".toList inside = some (body, rest) ∧
        Scan.readPseudoAttributes? {} body = some d := by
  rw [Scan.readXmlDeclaration]
  cases breakOn "?>".toList inside with
  | none => simp
  | some found =>
    obtain ⟨body, tail⟩ := found
    cases hp : Scan.readPseudoAttributes? {} body with
    | none => simp [hp]
    | some d => simp [hp, and_comm]

/-- **The XML declaration** of a text that begins with one. -/
theorem exists_declaration_iff :
    (∃ inside d, Scan.xmlDeclaration? text = some inside ∧
        Scan.readXmlDeclaration inside = .ok (d, rest) ∧ d.version.isSome) ↔
      ∃ declaration, Declaration declaration ∧ text = declaration ++ rest := by
  constructor
  · rintro ⟨inside, d, hx, hr, hv⟩
    obtain ⟨rfl, hblank⟩ := xmlDeclaration?_eq_some_iff.mp hx
    obtain ⟨body, hb, hp⟩ := readXmlDeclaration_eq_ok_iff.mp hr
    obtain ⟨rfl, hi⟩ := (breakOn_eq_some_iff (by decide) (by decide)).mp hb
    obtain ⟨items, hitems, hall⟩ := readPseudoAttributes?_eq_some_iff.mp hp
    obtain ⟨d', hd', hver⟩ := exists_setAll hitems.keys {}
    obtain rfl := Option.some.inj (hall.symm.trans hd')
    refine ⟨"<?xml".toList ++ body ++ "?>".toList, .mk ?_ hi hitems ?_, by simp⟩
    · cases body with
      | nil => cases hblank
      | cons c body => exact hblank
    · simpa using hver.mp hv
  · rintro ⟨declaration, hd, rfl⟩
    cases hd with
    | @mk body items hs he hi hv =>
      obtain ⟨d, hall, hver⟩ := exists_setAll hi.keys {}
      have hd := readPseudoAttributes?_eq_some_iff.mpr ⟨items, hi, hall⟩
      refine ⟨body ++ "?>".toList ++ rest, d, ?_, ?_, hver.mpr (.inr hv)⟩
      · exact xmlDeclaration?_eq_some_iff.mpr
          ⟨by simp, startsBlank_append (startsBlank_append hs)⟩
      · exact readXmlDeclaration_eq_ok_iff.mpr
          ⟨body, (breakOn_eq_some_iff (by decide) (by decide)).mpr ⟨rfl, he⟩, hd⟩

end Xml.Grammar
