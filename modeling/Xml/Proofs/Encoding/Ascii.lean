import Xml.Proofs.Encoding.Search
import Xml.Proofs.Scan.Newlines
import Xml.Proofs.Scan.Readable
import Xml.Proofs.Scan.Tokens

/-!
# Documents in ASCII

Bytes of ASCII give the same text in every encoding but UTF-16, and a document that names UTF-16 in
an XML declaration in ASCII is not read: two of its bytes make one character, and a document does not
begin with that one. So an accepted document in ASCII is its bytes one by one.

* `declared?_of_opening` — what the search for an encoding looks at
* `decode_of_accepted` — the text of an accepted document
-/

namespace Xml.Encoding

open Text List

variable {bytes : List UInt8} {text inside : List Char} {order : ByteOrder}

def IsAscii (bytes : List UInt8) : Prop :=
  ∀ byte ∈ bytes, byte ≠ 0 ∧ byte < 0x80

instance (bytes : List UInt8) : Decidable (IsAscii bytes) :=
  inferInstanceAs (Decidable (∀ byte ∈ bytes, _))

def textOf (bytes : List UInt8) : List Char :=
  bytes.map latin1Char

theorem decodeUtf8From_ascii (h : IsAscii bytes) (passed : List Char) :
    decodeUtf8From passed bytes = .ok (passed.reverse ++ textOf bytes) := by
  induction bytes generalizing passed with
  | nil =>
    rw [decodeUtf8From, textOf, map_nil, append_nil]
  | cons a rest ih =>
    obtain ⟨ha, hrest⟩ := forall_mem_cons.mp h
    have hnext : nextUtf8? (a :: rest) = some (latin1Char a, rest) := if_pos ha.2
    rw [decodeUtf8From]
    split
    · next c tail hc =>
      rw [hnext] at hc
      cases hc
      rw [ih hrest]
      simp [textOf]
    · next hc =>
      rw [hnext] at hc
      cases hc

theorem decodeUtf8_ascii (h : IsAscii bytes) : decodeUtf8 bytes = .ok (textOf bytes) :=
  decodeUtf8From_ascii h []

/-! ## Character sets -/

/-- The labels of ISO-2022-JP, where escapes make other characters of bytes of ASCII. -/
def escapingLabels : List String :=
  ["iso-2022-jp", "csiso2022jp"]

/-- What becomes of ASCII under a label: the characters of its bytes, or those of UTF-16, or what
the escapes in it tell. -/
inductive Reading (label : String) (bytes : List UInt8) (text : List Char) : Prop where
  | plain (h : text = textOf bytes)
  | utf16 (order : ByteOrder) (h : decodeUtf16 order bytes = some text)
  | escaped (hl : label ∈ escapingLabels) (h : 0x1B ∈ bytes)

/-- What is known of the character sets from outside: which characters do not come up in a label, and
how they read ASCII. -/
structure Charsets.KeepsAscii (charsets : Charsets) : Prop where
  label : ∀ {label charset}, charsets label = some charset → PlainLabel label
  reading : ∀ {label charset bytes text}, charsets label = some charset → IsAscii bytes →
    charset.decode? bytes = some text → Reading label bytes text

theorem windows1252Char_ascii {byte : UInt8} (h : byte < 0x80) :
    windows1252Char byte = latin1Char byte := by
  have hlt : byte.toNat < 0x80 := UInt8.lt_iff_toNat_lt.mp h
  rw [windows1252Char, if_neg (by omega), latin1Char]

theorem Charsets.western_eq_some {label : String} {charset : Charset}
    (h : western label = some charset) :
    PlainLabel label ∧ (charset = .utf8 ∨ charset = .windows1252 ∨ charset = .replacement ∨
      ∃ order, charset = .utf16 order) := by
  unfold western at h
  split at h
  all_goals cases h
  all_goals exact ⟨by decide, by simp⟩

theorem Charsets.western_keepsAscii : Charsets.western.KeepsAscii where
  label h := (western_eq_some h).1
  reading {label charset bytes text} h hascii hd := by
    obtain ⟨-, rfl | rfl | rfl | ⟨order, rfl⟩⟩ := western_eq_some h
    · have hutf8 : (decodeUtf8 bytes).toOption = some text := hd
      rw [decodeUtf8_ascii hascii] at hutf8
      exact .plain (Option.some.inj hutf8).symm
    · refine .plain ((Option.some.inj hd).symm.trans ?_)
      exact map_congr_left fun b hb => windows1252Char_ascii (hascii b hb).2
    · cases bytes with
      | nil => exact .plain (Option.some.inj hd).symm
      | cons b bytes => cases hd
    · exact .utf16 order hd

variable {charsets : Charsets} {label : String}

theorem decodeAsUtf8_ascii (h : IsAscii bytes) : decodeAsUtf8 bytes = .ok (textOf bytes) := by
  rw [decodeAsUtf8, decodeUtf8_ascii h]
  rfl

theorem Charset.decode_eq_ok {charset : Charset} (hname : charset.name ≠ "UTF-8")
    (h : charset.decode bytes = .ok text) : charset.decode? bytes = some text := by
  rw [Charset.decode, if_neg (by simpa using hname)] at h
  split at h
  · next found hfound => rw [hfound, Except.ok.inj h]
  · cases h

/-- **ASCII under a label that is known.** -/
theorem decodeLabeled_ascii (hcharsets : charsets.KeepsAscii) (h : IsAscii bytes)
    (hd : decodeLabeled charsets label bytes = .ok text) :
    PlainLabel label ∧ Reading (labelKey label) bytes text := by
  suffices hkey : PlainLabel (labelKey label) ∧ Reading (labelKey label) bytes text from
    ⟨hkey.1.of_labelKey, hkey.2⟩
  have hall : bytes.all (· < 0x80) = true := by simpa using fun b hb => (h b hb).2
  unfold decodeLabeled at hd
  rw [decodeAsUtf8_ascii h, if_pos hall] at hd
  generalize labelKey label = key at hd ⊢
  split at hd
  case h_9 => exact ⟨by decide, .utf16 .little (Charset.decode_eq_ok (by decide) hd)⟩
  case h_10 =>
    split at hd
    · next charset hcharset =>
      refine ⟨hcharsets.label hcharset, ?_⟩
      by_cases hname : charset.name = "UTF-8"
      · rw [Charset.decode, if_pos (by simpa using hname), decodeAsUtf8_ascii h] at hd
        exact .plain (Except.ok.inj hd).symm
      · exact hcharsets.reading hcharset h (Charset.decode_eq_ok hname hd)
    · cases hd
  -- UTF-8, ASCII and Latin-1
  all_goals exact ⟨by decide, .plain (Except.ok.inj hd).symm⟩

theorem detect_ascii (h : IsAscii bytes) : detect bytes = .utf8 := by
  unfold detect
  split
  case h_5 => rfl
  all_goals simp [IsAscii] at h

/-- **ASCII that can be decoded**: a label that is declared is a plain one, and the text is that of
the bytes one by one, unless the label makes something else of them. -/
theorem decode_ascii (hcharsets : charsets.KeepsAscii) (h : IsAscii bytes)
    (hd : decode bytes none charsets = .ok text) :
    (∀ label, declared? bytes = some label → PlainLabel label) ∧
      (text = textOf bytes ∨
        ∃ label, declared? bytes = some label ∧ Reading (labelKey label) bytes text) := by
  unfold decode at hd
  split at hd
  · simp [IsAscii] at h
  · simp [IsAscii] at h
  · simp [IsAscii] at h
  · rw [detect_ascii h] at hd
    cases hlabel : declared? bytes with
    | none =>
      simp only [hlabel, Option.or_none, decodeAsUtf8_ascii h] at hd
      cases hd
      exact ⟨fun _ h => (by cases h), .inl rfl⟩
    | some label =>
      simp only [hlabel, Option.some_or] at hd
      obtain ⟨hplain, hreading⟩ := decodeLabeled_ascii hcharsets h hd
      refine ⟨fun l hl => ?_, .inr ⟨label, rfl, hreading⟩⟩
      cases hl
      exact hplain

/-! ## The place of the search -/

/-- The text begins with `<?xml`, and `inside` stands between that and the next `?>`. -/
def Opening (text inside : List Char) : Prop :=
  ∃ rest, text = "<?xml".toList ++ inside ++ "?>".toList ++ rest ∧ ¬ "?>".toList <:+: inside

theorem breakOn_of_opening (h : Opening text inside) :
    ∃ rest tail, after? "<?xml".toList text = some rest ∧
      breakOn "?>".toList rest = some (inside, tail) := by
  obtain ⟨tail, rfl, hi⟩ := h
  refine ⟨inside ++ "?>".toList ++ tail, tail, ?_, breakOn_append (by decide) (by decide) hi tail⟩
  rw [append_assoc, append_assoc, after?_append, ← append_assoc]

theorem Opening.unique {other : List Char} (h : Opening text inside) (h' : Opening text other) :
    inside = other := by
  obtain ⟨rest, tail, hr, hb⟩ := breakOn_of_opening h
  obtain ⟨rest', tail', hr', hb'⟩ := breakOn_of_opening h'
  cases hr.symm.trans hr'
  exact congrArg Prod.fst (Option.some.inj (hb.symm.trans hb'))

theorem opening_take_iff :
    Opening (text.take 512) inside ↔ Opening text inside ∧ inside.length ≤ 505 := by
  constructor
  · rintro ⟨rest, h, hi⟩
    refine ⟨⟨rest ++ text.drop 512, ?_, hi⟩, ?_⟩
    · rw [← append_assoc, ← h, take_append_drop]
    · have hlen := congrArg List.length h
      simp at hlen
      omega
  · rintro ⟨⟨rest, rfl, hi⟩, hle⟩
    have hlen : ("<?xml".toList ++ inside ++ "?>".toList).length = inside.length + 7 := by
      simp
    refine ⟨rest.take (505 - inside.length), ?_, hi⟩
    rw [take_append, hlen, take_of_length_le (by omega)]
    congr 2
    omega

/-- The search looks at what stands behind `<?xml`, if it ends among the first bytes. -/
theorem declared?_of_opening (hascii : IsAscii bytes) (h : Opening (textOf bytes) inside)
    (hle : inside.length ≤ 505) : declared? bytes = encodingIn? inside := by
  obtain ⟨rest, tail, hr, hb⟩ := breakOn_of_opening (opening_take_iff.mpr ⟨h, hle⟩)
  rw [textOf, ← map_take] at hr
  have hinside : textOf ((bytes.drop 5).take inside.length) = inside := by
    obtain ⟨tail, htext, -⟩ := h
    rw [textOf, map_take, map_drop, ← textOf, htext, append_assoc, append_assoc,
      drop_left' (by decide), take_left]
  have hdecode : decodeUtf8 ((bytes.drop 5).take inside.length) = .ok inside := by
    rw [decodeUtf8_ascii fun b hb => hascii b (mem_of_mem_drop (mem_of_mem_take hb)),
      hinside]
  simp only [declared?, hr, hb, hdecode]

theorem exists_opening_of_declared? {label : String} (h : declared? bytes = some label) :
    ∃ inside, Opening (textOf bytes) inside ∧ inside.length ≤ 505 := by
  unfold declared? at h
  dsimp only at h
  split at h
  · cases h
  · next rest hr =>
    split at h
    · cases h
    · next inside tail hb =>
      obtain ⟨rfl, hi⟩ := (breakOn_eq_some_iff (by decide) (by decide)).mp hb
      refine ⟨inside, opening_take_iff.mp ⟨tail, ?_, hi⟩⟩
      rw [textOf, ← map_take, after?_eq hr, append_assoc, append_assoc,
        append_assoc]

theorem toNat_latin1Char (byte : UInt8) : (latin1Char byte).toNat = byte.toNat := by
  have hvalid : byte.toNat.isValidChar := by
    have := byte.toNat_lt
    rw [Nat.isValidChar]
    omega
  rw [latin1Char, Char.ofNat, dif_pos hvalid]
  rfl

theorem eq_of_latin1Char_eq {a b : UInt8} (h : latin1Char a = latin1Char b) : a = b := by
  rw [← UInt8.toNat_inj, ← toNat_latin1Char, ← toNat_latin1Char, h]

theorem exists_eq_of_declared? {label : String} (h : declared? bytes = some label) :
    ∃ rest, bytes = 0x3C :: 0x3F :: rest := by
  obtain ⟨inside, ⟨tail, htext, -⟩, -⟩ := exists_opening_of_declared? h
  obtain ⟨a, bytes, rfl⟩ := exists_cons_of_ne_nil (l := bytes) (by rintro rfl; cases htext)
  obtain ⟨ha, htext⟩ := List.cons.inj htext
  obtain ⟨b, bytes, rfl⟩ := exists_cons_of_ne_nil (l := bytes) (by rintro rfl; cases htext)
  obtain ⟨hb, -⟩ := List.cons.inj htext
  have ha' : a = 0x3C := eq_of_latin1Char_eq ha
  have hb' : b = 0x3F := eq_of_latin1Char_eq hb
  exact ⟨bytes, by rw [ha', hb']⟩

/-! ## UTF-16 -/

theorem prefix_decodeUtf16From {passed : List Char}
    (h : decodeUtf16From order passed bytes = some text) : passed.reverse <+: text := by
  fun_induction decodeUtf16From order passed bytes with
  | case1 passed => exact Option.some.inj h ▸ prefix_rfl
  | case2 => cases h
  | case3 passed a b unit hhigh c d rest low hlow code ih =>
    exact (prefix_append _ _).trans (reverse_cons ▸ ih h)
  | case4 => cases h
  | case5 => cases h
  | case6 => cases h
  | case7 passed a b rest unit hhigh hlow ih =>
    exact (prefix_append _ _).trans (reverse_cons ▸ ih h)

theorem decodeUtf16From_cons {a b : UInt8} (hhigh : isHighSurrogate (order.unit a b) = false)
    (hlow : isLowSurrogate (order.unit a b) = false) (passed : List Char) (rest : List UInt8) :
    decodeUtf16From order passed (a :: b :: rest) =
      decodeUtf16From order (Char.ofNat (order.unit a b) :: passed) rest := by
  rw [decodeUtf16From.eq_def]
  simp only [hhigh, hlow]
  rfl

/-- The first two characters of a declaration make one of UTF-16 that no document begins with. -/
theorem exists_cons_of_decodeUtf16 {rest : List UInt8}
    (h : decodeUtf16 order (0x3C :: 0x3F :: rest) = some text) :
    ∃ c more, text = c :: more ∧ c ∈ ['\u3F3C', '\u3C3F'] := by
  have hunit : isHighSurrogate (order.unit 0x3C 0x3F) = false ∧
      isLowSurrogate (order.unit 0x3C 0x3F) = false ∧
      Char.ofNat (order.unit 0x3C 0x3F) ∈ ['\u3F3C', '\u3C3F'] := by
    cases order <;> decide
  rw [decodeUtf16, decodeUtf16From_cons hunit.1 hunit.2.1] at h
  obtain ⟨more, rfl⟩ := prefix_decodeUtf16From h
  exact ⟨_, more, rfl, hunit.2.2⟩

end Xml.Encoding

namespace Xml

open Scan Text

/-- A document does not begin with character data. -/
theorem fatal_scanText_of_text {c : Char} (hblank : isBlank c = false) (hlt : c ≠ '<')
    (hamp : c ≠ '&') (rest : List Char) (options : ParseOptions) (files : Files) :
    (scanText (c :: rest) options files).fatal ≠ none := by
  intro h
  obtain ⟨s, hrun, -⟩ := scanText_of_success h
  have hx : xmlDeclaration? (c :: rest) = none := by
    rw [Option.eq_none_iff_forall_ne_some]
    intro inside hinside
    exact hlt (List.cons.inj (Grammar.xmlDeclaration?_eq_some_iff.mp hinside).1).1
  rw [document, hx] at hrun
  have hrun : (content ⟨c :: rest, options, files⟩ 0 (c :: rest) >>= fun _ => flush >>= fun _ =>
      checkEnd ⟨c :: rest, options, files⟩) { events := #[.startDocument] } = .ok () s := hrun
  obtain ⟨_, s₁, hcontent, -⟩ := bind_eq_ok hrun
  rw [content_cons, step, if_neg (by simpa using hlt), if_neg (by simpa using hamp)] at hcontent
  split at hcontent
  · next rest' s₂ hstep =>
    obtain ⟨-, htake⟩ := returning_eq_ok hstep
    have hspace := isSpace_of_takeText rfl htake c List.mem_cons_self
    rw [hblank] at hspace
    cases hspace
  · cases hcontent

/-- **An accepted document in ASCII** is read byte by byte, or it declares an encoding with escapes
and has one in it. If it declares an encoding, the label is a plain one. -/
theorem decode_of_accepted {bytes : List UInt8} (hascii : Encoding.IsAscii bytes)
    {options : ParseOptions} {files : Files} (hcharsets : files.charsets.KeepsAscii)
    (h : (scanBytes bytes none options files).fatal = none) :
    ∃ text, Encoding.decode bytes none files.charsets = .ok text ∧
      (∀ label, Encoding.declared? bytes = some label → Encoding.PlainLabel label) ∧
      (text = Encoding.textOf bytes ∨ ∃ label, Encoding.declared? bytes = some label ∧
        Encoding.labelKey label ∈ Encoding.escapingLabels ∧ 0x1B ∈ bytes) := by
  cases hd : Encoding.decode bytes none files.charsets with
  | error e =>
    rw [scanBytes, hd] at h
    cases h
  | ok text =>
    obtain ⟨hplain, hreading⟩ := Encoding.decode_ascii hcharsets hascii hd
    refine ⟨text, rfl, hplain, ?_⟩
    obtain htext | ⟨label, hlabel, hreading⟩ := hreading
    · exact .inl htext
    cases hreading with
    | plain htext => exact .inl htext
    | escaped hkey hescape => exact .inr ⟨label, hlabel, hkey, hescape⟩
    | utf16 order hutf16 =>
      obtain ⟨rest, rfl⟩ := Encoding.exists_eq_of_declared? hlabel
      obtain ⟨c, more, rfl, hc⟩ := Encoding.exists_cons_of_decodeUtf16 hutf16
      have hclass : isBlank c = false ∧ c ≠ '<' ∧ c ≠ '&' ∧ c ≠ '\r' := by
        simp only [List.mem_cons, List.not_mem_nil, or_false] at hc
        rcases hc with rfl | rfl <;> decide
      obtain ⟨hblank, hlt, hamp, hcr⟩ := hclass
      rw [scanBytes, hd] at h
      dsimp only at h
      rw [normalizeNewlines_cons fun heq => absurd heq hcr, if_neg (by simpa using hcr)] at h
      exact absurd h (fatal_scanText_of_text hblank hlt hamp _ _ _)

end Xml
