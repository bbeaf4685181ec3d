import Xml.Proofs.Scan.Bytes
import Xml.Proofs.Text.Readers
import Xml.Text.Cursor

/-!
# Characters and their bytes

What a search by bytes finds in the UTF-8 form of a text, said of its characters. An ASCII
character is one byte below 0x80, any other character has only bytes from 0x80 on. So a test that
treats all bytes from 0x80 on alike is a test of characters (`Respects`). Bytes behind the first one
begin no character, so the bytes of a mark are found where its characters are (`offsetOf_encode`).
-/

namespace Xml.Bounds

open Text List

/-! ## The bytes of a text -/

def encode (text : List Char) : List UInt8 :=
  text.flatMap String.utf8EncodeChar

@[simp] theorem encode_nil : encode [] = [] := rfl

@[simp] theorem encode_cons (c : Char) (text : List Char) :
    encode (c :: text) = String.utf8EncodeChar c ++ encode text := rfl

@[simp] theorem encode_append (text more : List Char) :
    encode (text ++ more) = encode text ++ encode more := by
  simp [encode]

@[simp] theorem length_encode (text : List Char) : (encode text).length = byteSize text := by
  induction text with
  | nil => rfl
  | cons c text ih => rw [encode_cons, length_append, ih, byteSize_cons,
      String.length_utf8EncodeChar]

theorem loop_toList (bytes : ByteArray) (i : Nat) (passed : List UInt8) :
    ByteArray.toList.loop bytes i passed = passed.reverse ++ bytes.data.toList.drop i := by
  fun_induction ByteArray.toList.loop bytes i passed with
  | case1 i passed hlt ih =>
    have hget : bytes.get! i = bytes.data.toList[i] := by
      simp [ByteArray.get!, getElem!_pos bytes.data i hlt]
    rw [ih, hget, reverse_cons, append_assoc, singleton_append,
      getElem_cons_drop]
  | case2 i passed hge =>
    rw [drop_eq_nil_of_le (Nat.le_of_not_lt hge), append_nil]

theorem toList_toUTF8 (text : String) : text.toUTF8.toList = encode text.toList := by
  have hbytes := String.toByteArray_ofList (l := text.toList)
  rw [String.ofList_toList] at hbytes
  rw [ByteArray.toList, loop_toList]
  simp [encode, hbytes, List.utf8Encode]

theorem textOf_encode (text : List Char) : Cursor.textOf (encode text) = String.ofList text := by
  have hbytes : (⟨(encode text).toArray⟩ : ByteArray) = (String.ofList text).toByteArray := by
    rw [String.toByteArray_ofList, List.utf8Encode, encode]
    ext1
    simp
  rw [Cursor.textOf, hbytes, String.fromUTF8?, dif_pos (String.isValidUTF8 _)]
  rfl

/-! ## Bytes of one character -/

theorem exists_utf8EncodeChar (c : Char) : ∃ b bytes, String.utf8EncodeChar c = b :: bytes :=
  exists_cons_of_ne_nil String.utf8EncodeChar_ne_nil

def byte (c : Char) : UInt8 :=
  UInt8.ofNat c.toNat

def IsAscii (c : Char) : Prop :=
  c.toNat < 0x80
deriving Decidable

theorem utf8EncodeChar_ascii {c : Char} (h : IsAscii c) : String.utf8EncodeChar c = [byte c] := by
  rw [String.utf8EncodeChar]
  exact if_pos (Nat.le_of_lt_succ h)

theorem IsAscii.utf8Size {c : Char} (h : IsAscii c) : c.utf8Size = 1 := by
  rw [← String.length_utf8EncodeChar, utf8EncodeChar_ascii h, length_singleton]

theorem toNat_byte {c : Char} (h : IsAscii c) : (byte c).toNat = c.toNat :=
  UInt8.toNat_ofNat_of_lt' (Nat.lt_trans h (by decide))

theorem le_of_mem_utf8EncodeChar {c : Char} (h : ¬ IsAscii c) {b : UInt8}
    (hb : b ∈ String.utf8EncodeChar c) : 0x80 ≤ b.toNat := by
  have high {n : Nat} (hle : 0x80 ≤ n) (hlt : n < 0x100) : 0x80 ≤ (UInt8.ofNat n).toNat := by
    rwa [UInt8.toNat_ofNat_of_lt' hlt]
  have hlow : ¬ c.val.toNat ≤ 127 := fun hle => h (Nat.lt_succ_of_le hle)
  simp only [String.utf8EncodeChar, hlow, if_false] at hb
  split at hb
  · simp only [mem_cons, not_mem_nil, or_false] at hb
    rcases hb with rfl | rfl <;> exact high (by omega) (by omega)
  · split at hb
    · simp only [mem_cons, not_mem_nil, or_false] at hb
      rcases hb with rfl | rfl | rfl <;> exact high (by omega) (by omega)
    · simp only [mem_cons, not_mem_nil, or_false] at hb
      rcases hb with rfl | rfl | rfl | rfl <;> exact high (by omega) (by omega)

/-! ## Tests of bytes that are tests of characters -/

/-- A test of bytes gives the same for all bytes of a character, and what `q` gives for it. -/
def Respects (p : UInt8 → Bool) (q : Char → Bool) : Prop :=
  ∀ c, ∀ b ∈ String.utf8EncodeChar c, p b = q c

section Respects

variable {p : UInt8 → Bool} {q : Char → Bool}

/-- It is enough to look at ASCII characters and, at once, at all bytes from 0x80 on. -/
theorem Respects.of_high (high : Bool)
    (hascii : ∀ c, IsAscii c → p (byte c) = q c) (hbytes : ∀ b : UInt8, 0x80 ≤ b.toNat → p b = high)
    (hchars : ∀ c, ¬ IsAscii c → q c = high) : Respects p q := by
  intro c b hb
  by_cases hc : IsAscii c
  · rw [utf8EncodeChar_ascii hc, mem_singleton] at hb
    rw [hb, hascii c hc]
  · rw [hbytes b (le_of_mem_utf8EncodeChar hc hb), hchars c hc]

theorem respects_beq {a : Char} (ha : IsAscii a) : Respects (· == byte a) (· == a) := by
  have hlt : a.toNat < 0x80 := ha
  refine .of_high false ?_ ?_ ?_
  · intro c hc
    have hiff : byte c = byte a ↔ c = a := by
      constructor
      · intro h
        have hnat := congrArg UInt8.toNat h
        rw [toNat_byte hc, toNat_byte ha] at hnat
        exact Char.toNat_inj.mp hnat
      · exact congrArg byte
    rw [Bool.eq_iff_iff, beq_iff_eq, beq_iff_eq, hiff]
  · intro b hb
    refine beq_false_of_ne fun h => ?_
    rw [h, toNat_byte ha] at hb
    omega
  · intro c hc
    exact beq_false_of_ne fun h => hc (h ▸ ha)

theorem Respects.or {p' : UInt8 → Bool} {q' : Char → Bool} (h : Respects p q)
    (h' : Respects p' q') : Respects (fun b => p b || p' b) (fun c => q c || q' c) := by
  intro c b hb
  simp only [h c b hb, h' c b hb]

theorem Respects.not (h : Respects p q) : Respects (fun b => !p b) (fun c => !q c) := by
  intro c b hb
  simp only [h c b hb]

theorem respects_blank : Respects Cursor.isBlankByte isBlank :=
  (((respects_beq (by decide : IsAscii ' ')).or (respects_beq (by decide : IsAscii '\t'))).or
    (respects_beq (by decide : IsAscii '\n'))).or (respects_beq (by decide : IsAscii '\r'))

/-- A test of codes that all codes from 0x80 on pass. -/
theorem respects_code {p : Nat → Bool} (hp : ∀ code, 0x80 ≤ code → p code = true) :
    Respects (fun b => p b.toNat) (fun c => p c.toNat) :=
  .of_high true (fun _ hc => by rw [toNat_byte hc]) (fun b => hp b.toNat)
    (fun c hc => hp c.toNat (Nat.le_of_not_lt hc))

theorem respects_nameStart : Respects (fun b => isNameStart b.toNat) startsName :=
  respects_code fun code h => by simp [isNameStart, h]

theorem respects_nameCode : Respects (fun b => isNameCode b.toNat) continuesName :=
  respects_code fun code h => by simp [isNameCode, isNameStart, h]

theorem Respects.takeWhile (h : Respects p q) (text : List Char) :
    (encode text).takeWhile p = encode (text.takeWhile q) := by
  induction text with
  | nil => rfl
  | cons c text ih =>
    rw [encode_cons, takeWhile_cons]
    cases hq : q c with
    | true =>
      rw [takeWhile_append_of_pos fun b hb => (h c b hb).trans hq, ih]
      rfl
    | false =>
      obtain ⟨b, bytes, hb⟩ := exists_utf8EncodeChar c
      have hp : p b = false := (h c b (by simp [hb])).trans hq
      simp [hb, hp]

theorem Respects.length_takeWhile_reverse (h : Respects p q) (text : List Char) :
    ((encode text).reverse.takeWhile p).length = byteSize (text.reverse.takeWhile q) := by
  induction text using List.reverseRecOn with
  | nil => rfl
  | append_singleton text c ih =>
    have hbytes : (encode (text ++ [c])).reverse =
        (String.utf8EncodeChar c).reverse ++ (encode text).reverse := by
      simp
    have hchars : (text ++ [c]).reverse = c :: text.reverse := by simp
    rw [hbytes, hchars, takeWhile_cons]
    cases hq : q c with
    | true =>
      rw [takeWhile_append_of_pos fun b hb => (h c b (mem_reverse.mp hb)).trans hq,
        length_append, length_reverse, String.length_utf8EncodeChar, ih, if_pos rfl,
        byteSize_cons]
    | false =>
      have hne : (String.utf8EncodeChar c).reverse ≠ [] := by
        simp [String.utf8EncodeChar_ne_nil]
      obtain ⟨b, bytes, hb⟩ := exists_cons_of_ne_nil hne
      have hp : p b = false :=
        (h c b (mem_reverse.mp (hb ▸ mem_cons_self))).trans hq
      simp [hb, hp]

/-- The byte a text begins with passes the test if the character does. -/
theorem Respects.any_head? (h : Respects p q) (text : List Char) :
    (encode text).head?.any p = text.head?.any q := by
  cases text with
  | nil => rfl
  | cons c text =>
    obtain ⟨b, bytes, hb⟩ := exists_utf8EncodeChar c
    have hp : p b = q c := h c b (by simp [hb])
    simp [hb, hp]

end Respects

/-! ## Looking for a mark -/

/-- No character has the bytes that another one begins with. -/
theorem eq_of_utf8EncodeChar_append {a c : Char} {x y : List UInt8}
    (h : String.utf8EncodeChar a ++ x = String.utf8EncodeChar c ++ y) : a = c := by
  have hfirst := congrArg (fun bytes => bytes.toByteArray.utf8DecodeChar? 0) h
  simpa [ByteArray.utf8DecodeChar?_utf8EncodeChar_append] using hfirst

theorem isPrefixOf_encode (mark text : List Char) :
    (encode mark).isPrefixOf (encode text) = mark.isPrefixOf text := by
  rw [Bool.eq_iff_iff, isPrefixOf_iff_prefix, isPrefixOf_iff_prefix]
  induction mark generalizing text with
  | nil => simp
  | cons a mark ih =>
    cases text with
    | nil => simp
    | cons c text =>
      rw [encode_cons, encode_cons, cons_prefix_cons]
      constructor
      · rintro ⟨more, hmore⟩
        rw [append_assoc] at hmore
        obtain rfl := eq_of_utf8EncodeChar_append hmore
        exact ⟨rfl, (ih text).mp ⟨more, append_cancel_left hmore⟩⟩
      · rintro ⟨rfl, hprefix⟩
        exact (prefix_append_right_inj _).mpr ((ih text).mpr hprefix)

/-- The bytes of a character behind its first one begin no character. -/
theorem notMem_of_utf8EncodeChar {a c : Char} {x b : UInt8} {more bytes : List UInt8}
    (ha : String.utf8EncodeChar a = x :: more) (hc : String.utf8EncodeChar c = b :: bytes) :
    x ∉ bytes := by
  intro hmem
  obtain ⟨i, hi, hx⟩ := getElem_of_mem hmem
  have hfirst := UInt8.isUTF8FirstByte_getElem_zero_utf8EncodeChar (c := a)
  have hlt : i + 1 < (String.utf8EncodeChar c).length := by simpa [hc] using hi
  have hlater : (String.utf8EncodeChar c)[i + 1].IsUTF8FirstByte ↔ i + 1 = 0 :=
    UInt8.isUTF8FirstByte_getElem_utf8EncodeChar
  simp only [ha, hc, getElem_cons_zero, getElem_cons_succ, hx] at hfirst hlater
  exact absurd (hlater.mp hfirst) (Nat.succ_ne_zero i)

/-- Bytes that a mark does not begin with are passed. -/
theorem offsetOf_append {b : UInt8} {mark bytes : List UInt8} (h : b ∉ bytes) (passed : Nat)
    (more : List UInt8) :
    Cursor.offsetOf (b :: mark) passed (bytes ++ more) =
      Cursor.offsetOf (b :: mark) (passed + bytes.length) more := by
  induction bytes generalizing passed with
  | nil => rfl
  | cons x bytes ih =>
    obtain ⟨hx, hbytes⟩ := not_or.mp (mt mem_cons.mpr h)
    rw [cons_append, Cursor.offsetOf, if_neg (by simp [hx]), ih hbytes, length_cons]
    congr 1
    omega

/-- **A mark is found by its bytes where it is found by its characters.** -/
theorem offsetOf_encode (mark : List Char) (passed : Nat) (text : List Char) :
    Cursor.offsetOf (encode mark) passed (encode text) =
      (breakOn mark text).map fun found => passed + byteSize found.1 := by
  induction text generalizing passed with
  | nil => cases mark <;> simp [Cursor.offsetOf, breakOn, breakFrom]
  | cons c text ih =>
    obtain ⟨b, bytes, hb⟩ := exists_utf8EncodeChar c
    have hsize : (b :: bytes).length = c.utf8Size := by rw [← hb, String.length_utf8EncodeChar]
    have hprefix := isPrefixOf_encode mark (c :: text)
    rw [encode_cons c, hb, cons_append] at hprefix
    rw [encode_cons c, hb, cons_append, Cursor.offsetOf, hprefix, breakOn_cons, after?]
    cases mark with
    | nil => simp
    | cons a mark =>
      cases (a :: mark).isPrefixOf (c :: text) with
      | true => simp
      | false =>
        -- The mark is not here, and cannot begin inside `c`.
        obtain ⟨x, more, ha⟩ := exists_utf8EncodeChar a
        have hmark : encode (a :: mark) = x :: (more ++ encode mark) := by
          rw [encode_cons, ha, cons_append]
        rw [if_neg Bool.false_ne_true, if_neg Bool.false_ne_true, hmark,
          offsetOf_append (notMem_of_utf8EncodeChar ha hb), ← hmark, ih]
        rw [length_cons] at hsize
        cases breakOn (a :: mark) text with
        | none => rfl
        | some found =>
          simp only [Option.map_some, byteSize_cons]
          congr 1
          omega

end Xml.Bounds
