import Xml.Encoding.Decode
import Xml.Proofs.Scan.Lexical

/-!
# The search for an encoding

The encoding of an XML declaration is looked for by the first word `encoding` in it, wherever that
stands. `announced` says what that comes to in terms of the pseudo-attributes.
-/

namespace Xml.Grammar

open Text List

/-- What stands behind a text without `b` comes before the `b`. -/
theorem exists_eq_append_cons {a b : Char} (hne : a ≠ b) {before rest text tail : List Char}
    (hb : b ∉ before) (h : before ++ a :: rest = text ++ b :: tail) :
    ∃ more, text = before ++ a :: more := by
  induction before generalizing text with
  | nil =>
    cases text with
    | nil => exact absurd (List.cons.inj h).1 hne
    | cons c text => exact ⟨text, by rw [(List.cons.inj h).1]; rfl⟩
  | cons c before ih =>
    cases text with
    | nil => exact absurd (List.cons.inj h).1 (ne_of_not_mem_cons hb).symm
    | cons d text =>
      obtain ⟨rfl, heq⟩ := List.cons.inj h
      obtain ⟨more, rfl⟩ := ih (not_mem_of_not_mem_cons hb) heq
      exact ⟨more, rfl⟩

/-- A character that is neither blank nor in the key does not stand in front of the equals sign. -/
theorem not_mem_assignment {space key before : List Char} (hs : IsSpace space) (hb : IsSpace before)
    {c : Char} (hc : isBlank c = false) (hkey : c ∉ key) : c ∉ space ++ key ++ before := by
  simp only [mem_append, not_or]
  exact ⟨⟨hs.not_mem hc, hkey⟩, hb.not_mem hc⟩

/-- A quote among pseudo-attributes stands behind an equals sign. -/
theorem PseudoAttributes.mem_of_quote {items : List (List Char × List Char)} {text : List Char}
    (h : PseudoAttributes items text) {q : Char} (hq : q = '"' ∨ q = '\'') {value rest : List Char}
    (htext : text = value ++ q :: rest) : '=' ∈ value := by
  have hblank : isBlank q = false := by rcases hq with rfl | rfl <;> decide
  cases h with
  | nil hs =>
    exact absurd (htext ▸ mem_append_right _ mem_cons_self) (hs.not_mem hblank)
  | @cons space key before after _ literal text more hs hk hb ha hv rest =>
    have hkey : q ∉ key := by
      simp only [declarationKeys, mem_cons, not_mem_nil, or_false] at hk
      rcases hk with rfl | rfl | rfl <;> rcases hq with rfl | rfl <;> decide
    have hne : '=' ≠ q := by rcases hq with rfl | rfl <;> decide
    rw [append_assoc, append_assoc] at htext
    obtain ⟨more, rfl⟩ := exists_eq_append_cons hne (not_mem_assignment hs hb hblank hkey) htext
    exact mem_append_right _ mem_cons_self

end Xml.Grammar

namespace Xml.Encoding

open Text Grammar List

variable {c q : Char} {text before value rest : List Char} {items : List (List Char × List Char)}

/-- What is read behind the word `encoding`. -/
def encodingBehind (rest : List Char) : Option String :=
  match trimLeft rest with
  | '=' :: rest => (readQuoted? (trimLeft rest)).map fun (value, _) => String.ofList value
  | _ => none

theorem encodingBehind_eq_some_iff {label : String} :
    encodingBehind rest = some label ↔
      ∃ inner value tail, trimLeft rest = '=' :: inner ∧
        readQuoted? (trimLeft inner) = some (value, tail) ∧ String.ofList value = label := by
  rw [encodingBehind]
  split
  · next inner h => simp [h]
  · next h => simpa using fun inner heq => absurd heq (h inner)

theorem encodingIn?_eq (text : List Char) :
    encodingIn? text =
      (breakOn "encoding".toList text).bind fun found => encodingBehind found.2 := by
  rw [encodingIn?]
  cases breakOn "encoding".toList text <;> rfl

theorem unbordered_encoding : Unbordered "encoding".toList := by decide

theorem encodingIn?_append (hb : ¬ "encoding".toList <:+: before) (rest : List Char) :
    encodingIn? (before ++ "encoding".toList ++ rest) = encodingBehind rest := by
  rw [encodingIn?_eq, breakOn_append (by decide) unbordered_encoding hb]
  rfl

theorem encodingIn?_append_cons (hc : c ∉ "encoding".toList) (hb : ¬ "encoding".toList <:+: before)
    (rest : List Char) : encodingIn? (before ++ c :: rest) = encodingIn? rest := by
  rw [encodingIn?_eq, encodingIn?_eq, breakOn_append_cons (by decide) unbordered_encoding hc hb]
  cases breakOn "encoding".toList rest <;> rfl

/-! ## White space -/

theorem isSpace_of_isBlank (h : isBlank c = true) : isSpace c = true := by
  simp only [isBlank, Bool.or_eq_true, beq_iff_eq] at h
  rcases h with ((rfl | rfl) | rfl) | rfl <;> decide

theorem trimLeft_append_of_isSpace {w : List Char} (hw : IsSpace w) (rest : List Char) :
    trimLeft (w ++ rest) = trimLeft rest :=
  dropWhile_append_of_pos fun c hc => isSpace_of_isBlank (hw c hc)

theorem trimLeft_append_cons (hc : isSpace c = false) (text rest : List Char) :
    trimLeft (text ++ c :: rest) = trimLeft text ++ c :: rest := by
  induction text with
  | nil => exact dropWhile_cons_of_neg (by simp [hc])
  | cons d text ih =>
    cases hd : isSpace d with
    | true =>
      rw [cons_append, trimLeft, trimLeft, dropWhile_cons_of_pos hd,
        dropWhile_cons_of_pos hd]
      exact ih
    | false =>
      rw [cons_append, trimLeft, trimLeft, dropWhile_cons_of_neg (by simp [hd]),
        dropWhile_cons_of_neg (by simp [hd])]
      rfl

theorem not_isSpace_of_quote (hq : q = '"' ∨ q = '\'') : isSpace q = false := by
  rcases hq with rfl | rfl <;> decide

/-! ## Labels -/

/-- The characters that stand around values. -/
def isDelimiter (c : Char) : Bool :=
  c == '=' || c == '"' || c == '\''

theorem isDelimiter_of_quote (hq : q = '"' ∨ q = '\'') : isDelimiter q = true := by
  rcases hq with rfl | rfl <;> decide

theorem mem_trimLeft (hc : isSpace c = false) : c ∈ text → c ∈ trimLeft text := by
  intro h
  obtain ⟨l, r, rfl⟩ := append_of_mem h
  rw [trimLeft_append_cons hc]
  exact mem_append_right _ mem_cons_self

theorem mem_trim (hc : isSpace c = false) (h : c ∈ text) : c ∈ trim text :=
  mem_reverse.mpr (mem_trimLeft hc (mem_reverse.mpr (mem_trimLeft hc h)))

/-- A label without any of these characters, as all labels are that name something. -/
def PlainLabel (label : String) : Prop :=
  ∀ c ∈ label.toList, isDelimiter c = false

instance (label : String) : Decidable (PlainLabel label) :=
  List.decidableBAll (fun c => isDelimiter c = false) label.toList

/-- White space around a label and its capitals do not matter for that. -/
theorem PlainLabel.of_labelKey {label : String} (h : PlainLabel (labelKey label)) :
    PlainLabel label := by
  intro c hmem
  rw [Bool.eq_false_iff]
  intro hc
  have hlower : c ∈ (labelKey label).toList := by
    rw [labelKey, String.toList_ofList]
    simp only [isDelimiter, Bool.or_eq_true, beq_iff_eq] at hc
    refine mem_map.mpr ⟨c, mem_trim ?_ hmem, ?_⟩ <;> rcases hc with (rfl | rfl) | rfl <;> decide
  rw [h c hlower] at hc
  cases hc

/-! ## Pseudo-attributes -/

/-- What the search for the word `encoding` comes upon: the value of that key, or something inside
another value that has the word in it. -/
def announced : List (List Char × List Char) → Option String
  | [] => none
  | (key, value) :: more =>
    if key = "encoding".toList then some (String.ofList value)
    else if contains "encoding".toList value then encodingIn? value
    else announced more

theorem not_infix_of_not_mem (h : 'g' ∉ text) : ¬ "encoding".toList <:+: text :=
  fun hi => h (hi.subset (by decide))

theorem not_infix_of_isSpace {w : List Char} (hw : IsSpace w) : ¬ "encoding".toList <:+: w :=
  not_infix_of_not_mem (hw.not_mem (by decide))

theorem encodingBehind_assignment {after literal : List Char} (hb : IsSpace before)
    (ha : IsSpace after) (hl : Literal value literal) (text : List Char) :
    encodingBehind (before ++ '=' :: after ++ literal ++ text) = some (String.ofList value) := by
  have hread : readQuoted? (trimLeft (after ++ (literal ++ text))) = some (value, text) := by
    rw [trimLeft_append_of_isSpace ha]
    refine readQuoted?_eq_some_iff_literal.mpr ⟨literal, hl, ?_⟩
    cases hl with
    | mk hq _ => exact dropWhile_cons_of_neg (by simp [not_isSpace_of_quote hq])
  have htrim : trimLeft (before ++ '=' :: after ++ literal ++ text) =
      '=' :: (after ++ (literal ++ text)) := by
    rw [append_assoc, append_assoc, trimLeft_append_of_isSpace hb]
    exact dropWhile_cons_of_neg (by decide)
  rw [encodingBehind, htrim]
  simp only [hread]
  rfl

/-- A literal that goes beyond the quote at the end of a value has a quote or an equals sign in
it. -/
theorem readQuoted?_append_quote (h : PseudoAttributes items text) (hq : q = '"' ∨ q = '\'')
    {inner : List Char} (hinner : q ∉ inner)
    (hread : readQuoted? (inner ++ q :: text) = some (value, rest))
    (hvalue : ∀ c ∈ value, isDelimiter c = false) :
    ∃ rest, readQuoted? inner = some (value, rest) := by
  obtain ⟨p, hp, hpv, heq⟩ := readQuoted?_eq_some_iff.mp hread
  cases inner with
  | nil =>
    obtain ⟨rfl, htext⟩ := List.cons.inj heq
    exact absurd (hvalue '=' (h.mem_of_quote hq htext)) (by decide)
  | cons d inner =>
    obtain ⟨rfl, hrest⟩ := List.cons.inj heq
    have hqv : q ∉ value := fun hmem => by
      have := hvalue q hmem
      rw [isDelimiter_of_quote hq] at this
      cases this
    obtain ⟨more, rfl⟩ := exists_eq_append_cons (ne_of_not_mem_cons hinner).symm hqv hrest.symm
    exact ⟨more, readQuoted?_eq_some_iff.mpr ⟨_, hp, hpv, rfl⟩⟩

/-- **A value with the word in it**: what is read there does not reach beyond the value. -/
theorem encodingBehind_append_quote (h : PseudoAttributes items text) (hq : q = '"' ∨ q = '\'')
    (hrest : q ∉ rest)
    (hknown : ∀ label, encodingBehind (rest ++ q :: text) = some label → PlainLabel label) :
    encodingBehind (rest ++ q :: text) = encodingBehind rest := by
  have hsp := not_isSpace_of_quote hq
  ext label
  constructor
  · intro hbehind
    have hlabel := hknown label hbehind
    obtain ⟨inner, value, tail, htrim, hread, rfl⟩ := encodingBehind_eq_some_iff.mp hbehind
    rw [trimLeft_append_cons hsp] at htrim
    cases hinner : trimLeft rest with
    | nil =>
      rw [hinner] at htrim
      obtain ⟨rfl, -⟩ := List.cons.inj htrim
      simp at hq
    | cons c inside =>
      rw [hinner] at htrim
      obtain ⟨rfl, rfl⟩ := List.cons.inj htrim
      have hinside : q ∉ trimLeft inside := fun hm =>
        hrest ((dropWhile_sublist _).subset
          (hinner ▸ mem_cons_of_mem _ ((dropWhile_sublist _).subset hm)))
      rw [append_eq, trimLeft_append_cons hsp] at hread
      obtain ⟨tail, hread⟩ := readQuoted?_append_quote h hq hinside hread
        fun c hc => hlabel c (by rwa [String.toList_ofList])
      exact encodingBehind_eq_some_iff.mpr ⟨inside, value, tail, hinner, hread, rfl⟩
  · intro hbehind
    obtain ⟨inner, value, tail, htrim, hread, rfl⟩ := encodingBehind_eq_some_iff.mp hbehind
    refine encodingBehind_eq_some_iff.mpr
      ⟨inner ++ q :: text, value, tail ++ q :: text, ?_, ?_, rfl⟩
    · rw [trimLeft_append_cons hsp, htrim]
      rfl
    · rw [trimLeft_append_cons hsp]
      exact readQuoted?_append hread _

theorem encodingIn?_append_quote (h : PseudoAttributes items text) (hq : q = '"' ∨ q = '\'')
    (hvalue : q ∉ value) (hword : "encoding".toList <:+: value)
    (hknown : ∀ label, encodingIn? (value ++ q :: text) = some label → PlainLabel label) :
    encodingIn? (value ++ q :: text) = encodingIn? value := by
  obtain ⟨before, rest, rfl, hb⟩ := exists_eq_append_of_infix (by decide) unbordered_encoding hword
  have hrest : q ∉ rest := fun hm => hvalue (mem_append_right _ hm)
  rw [append_assoc (before ++ "encoding".toList), encodingIn?_append hb] at hknown ⊢
  rw [encodingIn?_append hb]
  exact encodingBehind_append_quote h hq hrest hknown

/-- The search goes through another pseudo-attribute up to its value. -/
theorem encodingIn?_assignment {space key after : List Char} (hs : IsSpace space)
    (hk : key ∈ declarationKeys) (hkey : key ≠ "encoding".toList) (hb : IsSpace before)
    (ha : IsSpace after) (hq : q ∉ "encoding".toList) (rest : List Char) :
    encodingIn? (space ++ key ++ before ++ '=' :: (after ++ q :: rest)) = encodingIn? rest := by
  have hg : 'g' ∉ key := by
    simp only [declarationKeys, mem_cons, not_mem_nil, or_false] at hk
    rcases hk with rfl | rfl | rfl
    · decide
    · exact absurd rfl hkey
    · decide
  rw [encodingIn?_append_cons (by decide)
      (not_infix_of_not_mem (not_mem_assignment hs hb (by decide) hg)),
    encodingIn?_append_cons hq (not_infix_of_isSpace ha)]

/-- **The search for the word among pseudo-attributes**, if what it comes upon is a label. -/
theorem encodingIn?_eq_announced (h : PseudoAttributes items text)
    (hknown : ∀ label, encodingIn? text = some label → PlainLabel label) :
    encodingIn? text = announced items := by
  induction h with
  | nil hs =>
    rw [encodingIn?_eq, (breakOn_eq_none_iff (by decide)).mpr (not_infix_of_isSpace hs)]
    rfl
  | @cons space key before after value literal text more hs hk hb ha hv hrest ih =>
    rw [announced]
    by_cases hkey : key = "encoding".toList
    · have hbody : space ++ key ++ before ++ '=' :: after ++ literal ++ text =
          space ++ "encoding".toList ++ (before ++ '=' :: after ++ literal ++ text) := by
        simp [hkey]
      rw [if_pos hkey, hbody, encodingIn?_append (not_infix_of_isSpace hs),
        encodingBehind_assignment hb ha hv]
    · cases hv with
      | @mk q hq hout =>
        have hmark : q ∉ "encoding".toList := by rcases hq with rfl | rfl <;> decide
        have hbody : space ++ key ++ before ++ '=' :: after ++ (q :: value ++ [q]) ++ text =
            space ++ key ++ before ++ '=' :: (after ++ q :: (value ++ q :: text)) := by simp
        rw [hbody, encodingIn?_assignment hs hk hkey hb ha hmark] at hknown ⊢
        rw [if_neg hkey]
        by_cases hword : "encoding".toList <:+: value
        · rw [if_pos ((contains_iff (by decide) _).mpr hword)]
          exact encodingIn?_append_quote hrest hq hout hword hknown
        · rw [encodingIn?_append_cons hmark hword] at hknown ⊢
          rw [if_neg fun h => hword ((contains_iff (by decide) _).mp h)]
          exact ih hknown

end Xml.Encoding
