import Xml.Proofs.Bounds.Encoded

/-!
# Checked accesses

The accesses to a text by byte offsets, each with the check that it stays in the text. A slice has
to begin before it ends, end in the text, and have both ends between characters; a search and a
test for a mark have to begin in the text. Where a check fails there is no result.

A place that is reached by reading characters is a rest of the text. At the cursor of such a place
(`cursorAt`) no check fails, and a reader finds what the reader of rests finds.
-/

namespace Xml.Bounds

open Text List

/-- What a routine gives if all its accesses are in the text, and nothing otherwise. -/
abbrev Checked (α : Type) := Option α

/-! ## Accesses -/

/-- A text can be cut at an offset: it lies between two characters or at an end. -/
def IsCut (text : String) (offset : Nat) : Prop :=
  String.Pos.Raw.IsValid text ⟨offset⟩
deriving Decidable

theorem isCut_iff {text : String} {n : Nat} :
    IsCut text n ↔ ∃ part, part <+: text.toList ∧ n = byteSize part := by
  rw [IsCut, String.Pos.Raw.isValid_iff_exists_append]
  constructor
  · rintro ⟨front, back, rfl, hn⟩
    refine ⟨front.toList, ?_, ?_⟩
    · rw [String.toList_append]
      exact prefix_append _ _
    · rw [byteSize_toList]
      exact congrArg String.Pos.Raw.byteIdx hn
  · rintro ⟨part, ⟨rest, hrest⟩, rfl⟩
    refine ⟨String.ofList part, String.ofList rest, ?_, ?_⟩
    · rw [← String.ofList_append, hrest, String.ofList_toList]
    · rw [String.rawEndPos, utf8ByteSize_ofList]

/-- The text between two offsets. -/
def slice (text : String) (start stop : Nat) : Checked String :=
  if start ≤ stop ∧ stop ≤ text.utf8ByteSize ∧ IsCut text start ∧ IsCut text stop then
    some (Cursor.slice ⟨text, 0⟩ start stop)
  else none

def sliceFrom (text : String) (start : Nat) : Checked String :=
  slice text start text.utf8ByteSize

/-- An answer about the bytes from the position on. -/
def fromHere {α : Type} (c : Cursor) (answer : α) : Checked α :=
  if c.position ≤ c.text.utf8ByteSize then some answer else none

/-- The offset of the next mark in the text from the position on. -/
def findText (c : Cursor) (mark : String) : Checked (Option Nat) := do
  let _ ← sliceFrom c.text c.position
  return c.findText? mark

def startsWith (c : Cursor) (mark : String) : Checked Bool :=
  fromHere c (c.startsWith mark)

/-- The byte at the position is that of an ASCII character. -/
def sees (c : Cursor) (a : Char) : Bool :=
  a.toNat < 0x80 && c.peek == some (byte a)

/-- The byte at the position can begin a name. -/
def seesName (c : Cursor) : Bool :=
  c.peek.any fun b => isNameStart b.toNat

/-! ## Readers -/

def readName (c : Cursor) : Checked (Option (List Char) × Cursor) :=
  match c.readName with
  | (some _, behind) => do
    let name ← slice c.text c.position behind.position
    return (some name.toList, behind)
  | (none, behind) => return (none, behind)

/-- Reads up to the next mark and moves behind it, if there is one. -/
def readUpTo (mark : String) (c : Cursor) : Checked (Option (List Char) × Cursor) := do
  match ← findText c mark with
  | some stop =>
    let inside ← slice c.text c.position stop
    let _ ← sliceFrom c.text (stop + mark.utf8ByteSize)
    return (some inside.toList, c.setPosition (stop + mark.utf8ByteSize))
  | none => return (none, c)

def readQuoted (c : Cursor) : Checked (Option (List Char) × Cursor) :=
  if sees c '"' then readUpTo "\"" (c.advance 1)
  else if sees c '\'' then readUpTo "'" (c.advance 1)
  else return (none, c)

/-- The offset of the next `<` or `&`, or of the end. -/
def findTextEnd (c : Cursor) : Checked Nat :=
  fromHere c (c.position + (c.left.takeWhile fun b => !(b == byte '<' || b == byte '&')).length)

/-- Reads up to the next `<` or `&`. -/
def readText (c : Cursor) : Checked (List Char × Cursor) := do
  let stop ← findTextEnd c
  let text ← slice c.text c.position stop
  return (text.toList, c.setPosition stop)

/-- The offset behind the characters that pass a test. They are looked at one by one; `step` tells
how many bytes are passed for each. -/
def passWhile (p : Char → Bool) (step : Char → Nat) (text : String) : Nat → Nat → Checked Nat
  | 0, _ => none
  | rounds + 1, position => do
    match (← sliceFrom text position).toList with
    | c :: _ =>
      if p c then passWhile p step text rounds (position + step c) else return position
    | [] => return position

def readWhile (p : Char → Bool) (step : Char → Nat) (c : Cursor) :
    Checked (List Char × Cursor) := do
  let stop ← passWhile p step c.text (c.text.utf8ByteSize + 1) c.position
  let text ← slice c.text c.position stop
  return (text.toList, c.setPosition stop)

/-! ## Places -/

/-- The byte offset of the place from which `rest` is still unread. -/
def offset (text : String) (rest : List Char) : Nat :=
  text.utf8ByteSize - byteSize rest

/-- The cursor at the place from which `rest` is still unread. -/
def cursorAt (text : String) (rest : List Char) : Cursor :=
  ⟨text, offset text rest⟩

theorem offset_toList (text : String) : offset text text.toList = 0 := by
  rw [offset, byteSize_toList, Nat.sub_self]

theorem cursorAt_toList (text : String) : cursorAt text text.toList = ⟨text, 0⟩ := by
  rw [cursorAt, offset_toList]

variable {text : String} {rest part tail : List Char}

theorem offset_le (text : String) (rest : List Char) : offset text rest ≤ text.utf8ByteSize :=
  Nat.sub_le _ _

theorem bytes_cursorAt (text : String) (rest : List Char) :
    (cursorAt text rest).bytes = encode text.toList :=
  toList_toUTF8 text

theorem fromHere_cursorAt {α : Type} (answer : α) :
    fromHere (cursorAt text rest) answer = some answer :=
  if_pos (offset_le text rest)

section Places

variable (h : rest <:+ text.toList)
include h

theorem exists_split :
    ∃ before, text = String.ofList (before ++ rest) ∧ offset text rest = byteSize before := by
  obtain ⟨before, hbefore⟩ := h
  have htext : text = String.ofList (before ++ rest) := by rw [hbefore, String.ofList_toList]
  refine ⟨before, htext, ?_⟩
  rw [offset, htext, utf8ByteSize_ofList, byteSize_append, Nat.add_sub_cancel]

theorem offset_of_eq (heq : rest = part ++ tail) :
    offset text rest + byteSize part = offset text tail := by
  have hle := byteSize_le_of_suffix h
  rw [byteSize_toList, heq, byteSize_append] at hle
  rw [offset, offset, heq, byteSize_append]
  omega

theorem suffix_of_eq (heq : rest = part ++ tail) : tail <:+ text.toList :=
  (heq ▸ suffix_append part tail : tail <:+ rest).trans h

theorem isCut_offset : IsCut text (offset text rest) := by
  obtain ⟨before, htext, hoffset⟩ := exists_split h
  rw [hoffset, htext, isCut_iff, String.toList_ofList]
  exact ⟨before, prefix_append _ _, rfl⟩

theorem left_cursorAt : (cursorAt text rest).left = encode rest := by
  obtain ⟨before, htext, hoffset⟩ := exists_split h
  rw [Cursor.left, bytes_cursorAt]
  show List.drop (offset text rest) _ = _
  rw [hoffset, htext, String.toList_ofList, encode_append, ← length_encode, drop_left]

/-- **A slice between two places is there**, and is the part that was read. -/
theorem slice_of_eq (heq : rest = part ++ tail) :
    slice text (offset text rest) (offset text tail) = some (String.ofList part) := by
  have hle : offset text rest ≤ offset text tail := by
    rw [← offset_of_eq h heq]
    exact Nat.le_add_right _ _
  rw [slice, if_pos ⟨hle, offset_le _ _, isCut_offset h, isCut_offset (suffix_of_eq h heq)⟩]
  obtain ⟨before, htext, hoffset⟩ := exists_split h
  have hbytes : Cursor.bytes ⟨text, 0⟩ = encode before ++ (encode part ++ encode tail) := by
    rw [← cursorAt_toList, bytes_cursorAt, htext, String.toList_ofList, encode_append, heq,
      encode_append]
  rw [Cursor.slice, hbytes, ← offset_of_eq h heq, hoffset, ← append_assoc, ← length_encode,
    ← length_encode, ← length_append, take_left, drop_left, textOf_encode]

theorem sliceFrom_offset : sliceFrom text (offset text rest) = some (String.ofList rest) :=
  slice_of_eq h (append_nil rest).symm

/-! ## Moving -/

theorem advance_of_eq (heq : rest = part ++ tail) :
    (cursorAt text rest).advance (byteSize part) = cursorAt text tail := by
  have hmin : min (offset text rest + byteSize part) text.utf8ByteSize = offset text tail := by
    rw [offset_of_eq h heq]
    exact Nat.min_eq_left (offset_le text tail)
  exact congrArg (Cursor.mk text) hmin

theorem skipBlanks_cursorAt :
    (cursorAt text rest).skipBlanks = (startsBlank rest, cursorAt text (skipBlanks rest)) := by
  have hlength : ((cursorAt text rest).left.takeWhile Cursor.isBlankByte).length =
      byteSize (rest.takeWhile isBlank) := by
    rw [left_cursorAt h, respects_blank.takeWhile, length_encode]
  have hsome : (byteSize (rest.takeWhile isBlank) != 0) = startsBlank rest := by
    cases rest with
    | nil => rfl
    | cons c rest => cases hc : isBlank c <;> simp [startsBlank, hc, c.utf8Size_pos.ne']
  rw [Cursor.skipBlanks, hlength, hsome]
  exact congrArg (fun position => (startsBlank rest, Cursor.mk text position))
    (offset_of_eq h takeWhile_append_dropWhile.symm)

/-! ## Looking -/

theorem peek_cursorAt : (cursorAt text rest).peek = (encode rest).head? := by
  rw [← left_cursorAt h, Cursor.left, head?_drop]
  rfl

theorem sees_cursorAt (a : Char) :
    sees (cursorAt text rest) a = (a.toNat < 0x80 && rest.head?.any (· == a)) := by
  rw [sees, peek_cursorAt h]
  by_cases ha : a.toNat < 0x80
  · rw [← (respects_beq ha).any_head? rest]
    cases (encode rest).head? <;> rfl
  · rw [decide_eq_false ha, Bool.false_and, Bool.false_and]

theorem seesName_cursorAt : seesName (cursorAt text rest) = rest.head?.any startsName := by
  rw [seesName, peek_cursorAt h, respects_nameStart.any_head?]

theorem atEnd_cursorAt : (cursorAt text rest).atEnd = rest.isEmpty := by
  obtain ⟨before, htext, hoffset⟩ := exists_split h
  have hle : text.utf8ByteSize ≤ offset text rest ↔ rest = [] := by
    rw [hoffset, htext, utf8ByteSize_ofList, byteSize_append]
    cases rest with
    | nil => simp
    | cons c rest =>
      have hpos := c.utf8Size_pos
      simp only [byteSize_cons, reduceCtorEq, iff_false]
      omega
  rw [Bool.eq_iff_iff, List.isEmpty_iff, ← hle]
  exact decide_eq_true_iff

/-! ## Searching -/

theorem findText_cursorAt (mark : String) :
    findText (cursorAt text rest) mark =
      some ((breakOn mark.toList rest).map fun found => offset text (mark.toList ++ found.2)) := by
  rw [findText]
  show (sliceFrom text (offset text rest)).bind _ = _
  rw [sliceFrom_offset h, Option.bind_some, Cursor.findText?, left_cursorAt h, toList_toUTF8,
    offsetOf_encode]
  cases hfound : breakOn mark.toList rest with
  | none => rfl
  | some found =>
    rw [Option.map_some, Option.map_some,
      ← offset_of_eq h ((breakOn_eq hfound).trans (append_assoc ..))]
    rfl

theorem startsWith_cursorAt (mark : String) :
    startsWith (cursorAt text rest) mark = some (mark.toList.isPrefixOf rest) := by
  rw [startsWith, fromHere_cursorAt, Cursor.startsWith, left_cursorAt h, toList_toUTF8,
    isPrefixOf_encode]

end Places

theorem offset_cons {c : Char} (h : c :: rest <:+ text.toList) :
    offset text (c :: rest) + c.utf8Size = offset text rest := by
  have hadd := offset_of_eq h singleton_append.symm
  rwa [byteSize_cons, byteSize_nil, Nat.add_zero] at hadd

theorem advance_cons {c : Char} (hc : IsAscii c) (h : c :: rest <:+ text.toList) :
    (cursorAt text (c :: rest)).advance 1 = cursorAt text rest := by
  rw [← advance_of_eq h singleton_append.symm, byteSize_cons, hc.utf8Size]
  rfl

/-! ## Reading -/

/-- Whether an ASCII character stands in front, and the rest behind it if it does. -/
def takeChar (a : Char) : List Char → Bool × List Char
  | [] => (false, [])
  | c :: rest => if a.toNat < 0x80 && c == a then (true, rest) else (false, c :: rest)

@[simp] theorem takeChar_cons_self (a : Char) (rest : List Char) :
    takeChar a (a :: rest) = if a.toNat < 0x80 then (true, rest) else (false, a :: rest) := by
  simp [takeChar]

theorem takeChar_of_ne {a : Char} (h : ∀ tail, rest = a :: tail → False) :
    takeChar a rest = (false, rest) := by
  cases rest with
  | nil => rfl
  | cons c rest =>
    have hc : c ≠ a := fun hc => h rest (hc ▸ rfl)
    simp [takeChar, hc]

theorem takeChar_suffix (a : Char) (rest : List Char) : (takeChar a rest).2 <:+ rest := by
  cases rest with
  | nil => exact suffix_rfl
  | cons c rest =>
    rw [takeChar]
    split
    · exact suffix_cons c rest
    · exact suffix_rfl

def takeName (rest : List Char) : Option (List Char) × List Char :=
  (readName? rest).elim (none, rest) fun found => (some found.1, found.2)

/-- What stands up to a mark, if the mark follows. -/
def takeUpTo (mark rest : List Char) : Option (List Char) × List Char :=
  (breakOn mark rest).elim (none, rest) fun found => (some found.1, found.2)

/-- Neither of the characters that end a stretch of text. -/
def isText (c : Char) : Bool :=
  c != '<' && c != '&'

theorem readName_cursorAt (h : rest <:+ text.toList) :
    readName (cursorAt text rest) = some (Prod.map id (cursorAt text) (takeName rest)) := by
  have hleft := left_cursorAt h
  cases rest with
  | nil => simp [readName, Cursor.readName, hleft, takeName, readName?]
  | cons c rest =>
    obtain ⟨b, bytes, hb⟩ := exists_utf8EncodeChar c
    have hstart : isNameStart b.toNat = startsName c := respects_nameStart c b (by simp [hb])
    rw [encode_cons, hb, cons_append] at hleft
    cases hc : startsName c with
    | false => simp [readName, Cursor.readName, hleft, hstart, takeName, readName?, hc]
    | true =>
      -- What may begin a name may continue it, so all bytes of `c` are passed in the same way.
      have hpast : ∀ x ∈ bytes, isNameCode x.toNat = true := by
        intro x hx
        have hcode : isNameCode x.toNat = continuesName c :=
          respects_nameCode c x (by rw [hb]; exact mem_cons_of_mem _ hx)
        rw [startsName] at hc
        rw [hcode, continuesName, isNameCode, hc]
        rfl
      have heq : c :: rest =
          (c :: rest.takeWhile continuesName) ++ rest.dropWhile continuesName := by
        rw [cons_append, takeWhile_append_dropWhile]
      have hlength : (b :: (bytes ++ encode rest).takeWhile fun x => isNameCode x.toNat).length =
          byteSize (c :: rest.takeWhile continuesName) := by
        rw [takeWhile_append_of_pos hpast, respects_nameCode.takeWhile, ← cons_append,
          ← hb, length_append, length_encode, String.length_utf8EncodeChar, byteSize_cons]
      simp only [readName, Cursor.readName, hleft, hstart, hc, if_true, hlength]
      simp [-byteSize_cons, cursorAt, Cursor.setPosition, offset_of_eq h heq, slice_of_eq h heq,
        takeName, readName?, hc]

theorem readUpTo_cursorAt (h : rest <:+ text.toList) (mark : String) :
    readUpTo mark (cursorAt text rest) =
      some (Prod.map id (cursorAt text) (takeUpTo mark.toList rest)) := by
  rw [readUpTo, findText_cursorAt h, takeUpTo]
  cases hb : breakOn mark.toList rest with
  | none => rfl
  | some found =>
    have heq : rest = found.1 ++ (mark.toList ++ found.2) := by simpa using breakOn_eq hb
    have hbehind := offset_of_eq (suffix_of_eq h heq) rfl
    rw [byteSize_toList] at hbehind
    simp [cursorAt, Cursor.setPosition, slice_of_eq h heq, hbehind,
      sliceFrom_offset ((breakOn_suffix hb).trans h)]

theorem readQuoted_cursorAt (h : rest <:+ text.toList) :
    readQuoted (cursorAt text rest) = some (Prod.map id (cursorAt text) (readLiteral rest)) := by
  have hdouble : IsAscii '"' := by decide
  have hsingle : IsAscii '\'' := by decide
  rw [readQuoted, sees_cursorAt h, sees_cursorAt h]
  cases rest with
  | nil => rfl
  | cons c rest =>
    have hinside (mark : String) (hc : IsAscii c) (hmark : mark.toList = [c]) :
        readUpTo mark ((cursorAt text (c :: rest)).advance 1) =
          some (Prod.map id (cursorAt text) (takeUpTo [c] rest)) := by
      rw [advance_cons hc h, ← hmark]
      exact readUpTo_cursorAt ((suffix_cons _ _).trans h) mark
    by_cases hc : c = '"'
    · subst hc
      cases hb : breakOn ['"'] rest <;> simp [readLiteral, hinside "\"" hdouble rfl, takeUpTo, hb]
    by_cases hc' : c = '\''
    · subst hc'
      cases hb : breakOn ['\''] rest <;> simp [readLiteral, hinside "'" hsingle rfl, takeUpTo, hb]
    · simp [readLiteral, hc, hc']

theorem readText_cursorAt (h : rest <:+ text.toList) :
    readText (cursorAt text rest) =
      some (rest.takeWhile isText, cursorAt text (rest.dropWhile isText)) := by
  have hrespects : Respects (fun b => !(b == byte '<' || b == byte '&')) isText := by
    have hor := (respects_beq (by decide : IsAscii '<')).or (respects_beq (by decide : IsAscii '&'))
    intro c b hb
    rw [hor.not c b hb]
    exact Bool.not_or (c == '<') (c == '&')
  have heq := (takeWhile_append_dropWhile (p := isText) (l := rest)).symm
  have hstop : findTextEnd (cursorAt text rest) = some (offset text (rest.dropWhile isText)) := by
    rw [findTextEnd, fromHere_cursorAt, left_cursorAt h, hrespects.takeWhile, length_encode,
      ← offset_of_eq h heq]
    rfl
  rw [readText, hstop]
  simp [cursorAt, Cursor.setPosition, slice_of_eq h heq]

section Spans

variable {p : Char → Bool} {step : Char → Nat} (hs : ∀ c, p c = true → step c = c.utf8Size)
include hs

theorem passWhile_offset {rounds : Nat} (h : rest <:+ text.toList) (hr : byteSize rest < rounds) :
    passWhile p step text rounds (offset text rest) = some (offset text (rest.dropWhile p)) := by
  induction rest generalizing rounds with
  | nil =>
    obtain ⟨n, rfl⟩ := Nat.exists_eq_add_one_of_ne_zero (Nat.ne_zero_of_lt hr)
    simp [passWhile, sliceFrom_offset h]
  | cons c rest ih =>
    obtain ⟨n, rfl⟩ := Nat.exists_eq_add_one_of_ne_zero (Nat.ne_zero_of_lt hr)
    have hpos := c.utf8Size_pos
    rw [byteSize_cons] at hr
    have hmore := ih ((suffix_cons c rest).trans h) (by omega : byteSize rest < n)
    cases hc : p c with
    | true => simp [passWhile, sliceFrom_offset h, hc, hs c hc, offset_cons h, hmore]
    | false => simp [passWhile, sliceFrom_offset h, hc]

theorem readWhile_cursorAt (h : rest <:+ text.toList) :
    readWhile p step (cursorAt text rest) =
      some (rest.takeWhile p, cursorAt text (rest.dropWhile p)) := by
  have hrounds : byteSize rest < text.utf8ByteSize + 1 := by
    rw [← byteSize_toList]
    exact Nat.lt_succ_of_le (byteSize_le_of_suffix h)
  simp [readWhile, cursorAt, Cursor.setPosition, passWhile_offset hs h hrounds,
    slice_of_eq h takeWhile_append_dropWhile.symm]

end Spans

end Xml.Bounds
