import Xml.Proofs.Bounds.Routine
import Xml.Proofs.Encoding.Ascii
import Xml.Scan.State

/-!
# Routines on whole texts

The routines that cut a text at marks they look for: the replacement of references in entity text,
the encoding in a declaration and the external text behind its declaration. Loops run a counted
number of rounds; each round goes on behind a mark, so as many rounds as there are bytes, and one,
are enough.
-/

namespace Xml.Bounds

open Text Routine List
open Encoding (latin1Char)

/-! ## Replacing references -/

/-- Replaces the references that begin with `mark` and have a meaning. -/
def replaceReferences (mark : String) (meaning? : List Char → Option Char) :
    Nat → Routine Id (List Char)
  | 0 => given none
  | rounds + 1 => do
    match ← query (.upTo mark) with
    | none => query .here
    | some before =>
      match (← lookAhead (query (.upTo ";"))).bind meaning? with
      | some c =>
        let _ ← query (.upTo ";")
        return before ++ c :: (← replaceReferences mark meaning? rounds)
      | none => return before ++ mark.toList ++ (← replaceReferences mark meaning? rounds)

/-- Replaces the character references of an entity literal. -/
def expandCharRefs (text : List Char) : Checked (List Char) :=
  (replaceReferences "&#" charRef? (text.length + 1)).alone (String.ofList text)

def decodePredefined (text : List Char) : Checked (List Char) :=
  (replaceReferences "&" predefined? (text.length + 1)).alone (String.ofList text)

/-- `replace` replaces the references that begin with `mark` and have a meaning, character by
character. -/
structure Replaces (mark : List Char) (meaning? : List Char → Option Char)
    (replace : List Char → List Char) : Prop where
  nil : replace [] = []
  pass : ∀ c rest, after? mark (c :: rest) = none → replace (c :: rest) = c :: replace rest
  reference : ∀ inside, replace (mark ++ inside) = (readReference? meaning? inside).elim
    (mark ++ replace inside) fun found => found.1 :: replace found.2

theorem replaces_expandCharRefs : Replaces "&#".toList charRef? Text.expandCharRefs where
  nil := by rw [Text.expandCharRefs]
  pass c rest h := by
    rw [Text.expandCharRefs]
    rintro tail rfl rfl
    cases h
  reference inside := by
    show Text.expandCharRefs ('&' :: '#' :: inside) = _
    rw [Text.expandCharRefs]
    split <;> next h => simp [h]

theorem replaces_decodePredefined : Replaces "&".toList predefined? Text.decodePredefined where
  nil := by rw [Text.decodePredefined]
  pass c rest h := by
    rw [Text.decodePredefined]
    rintro rfl
    cases h
  reference inside := by
    show Text.decodePredefined ('&' :: inside) = _
    rw [Text.decodePredefined]
    split <;> next h => simp [h]

section Replaces

variable {mark : List Char} {meaning? : List Char → Option Char} {replace : List Char → List Char}

theorem Replaces.of_breakOn_eq_none (h : Replaces mark meaning? replace) {text : List Char}
    (hb : breakOn mark text = none) : replace text = text := by
  induction text with
  | nil => exact h.nil
  | cons c text ih =>
    rw [breakOn_cons] at hb
    split at hb
    · cases hb
    · next ha => rw [h.pass _ _ ha, ih (Option.map_eq_none_iff.mp hb)]

theorem Replaces.of_breakOn (h : Replaces mark meaning? replace) (hm : mark ≠ [])
    {text before inside : List Char} (hb : breakOn mark text = some (before, inside)) :
    replace text = before ++ replace (mark ++ inside) := by
  induction text generalizing before with
  | nil =>
    rw [breakOn_nil hm] at hb
    cases hb
  | cons c text ih =>
    have heq := breakOn_eq hb
    rw [breakOn_cons] at hb
    split at hb
    · cases hb
      rw [heq, nil_append, nil_append]
    · next ha =>
      obtain ⟨⟨passed, rest⟩, hfound, hpair⟩ := Option.map_eq_some_iff.mp hb
      cases hpair
      rw [h.pass _ _ ha, ih hfound, cons_append]

end Replaces

/-- **Replacing by slices is replacing by characters.** -/
theorem read_replaceReferences {mark : String} {meaning? : List Char → Option Char}
    {replace : List Char → List Char} (h : Replaces mark.toList meaning? replace)
    (hm : mark.toList ≠ []) {rounds : Nat} {text : List Char} (hr : text.length < rounds) :
    ∃ tail, (replaceReferences mark meaning? rounds).read text = pure (replace text, tail) := by
  induction rounds generalizing text with
  | zero => cases hr
  | succ rounds ih =>
    rw [replaceReferences]
    cases hb : breakOn mark.toList text with
    | none => exact ⟨text, by simp [takeUpTo, hb, h.of_breakOn_eq_none hb]⟩
    | some found =>
      obtain ⟨before, inside⟩ := found
      have hinside : inside.length < rounds := by
        have hlength := congrArg length (breakOn_eq hb)
        have hpos := length_pos_iff.mpr hm
        simp only [length_append] at hlength
        omega
      obtain ⟨tail, hstay⟩ := ih hinside
      rw [h.of_breakOn hm hb, h.reference, readReference?]
      cases hs : breakOn [';'] inside with
      | none => exact ⟨tail, by simp [takeUpTo, hb, hs, hstay]⟩
      | some found =>
        cases hc : meaning? found.1 with
        | none => exact ⟨tail, by simp [takeUpTo, hb, hs, hc, hstay]⟩
        | some c =>
          obtain ⟨tail, hgo⟩ := ih ((breakOn_suffix hs).length_le.trans_lt hinside)
          exact ⟨tail, by simp [takeUpTo, hb, hs, hc, hgo]⟩

theorem alone_replaceReferences {mark : String} {meaning? : List Char → Option Char}
    {replace : List Char → List Char} (h : Replaces mark.toList meaning? replace)
    (hm : mark.toList ≠ []) (text : List Char) :
    (replaceReferences mark meaning? (text.length + 1)).alone (String.ofList text) =
      some (replace text) := by
  obtain ⟨tail, htail⟩ := read_replaceReferences h hm (Nat.lt_succ_self text.length)
  exact alone_of_read (by rw [String.toList_ofList, htail, map_pure])

@[simp] theorem expandCharRefs_eq (text : List Char) :
    expandCharRefs text = some (Text.expandCharRefs text) :=
  alone_replaceReferences replaces_expandCharRefs (by decide) text

@[simp] theorem decodePredefined_eq (text : List Char) :
    decodePredefined text = some (Text.decodePredefined text) :=
  alone_replaceReferences replaces_decodePredefined (by decide) text

/-! ## Bytes that are not decoded yet -/

def sliceBytes (bytes : List UInt8) (start stop : Nat) : Checked (List UInt8) :=
  if start ≤ stop ∧ stop ≤ bytes.length then some ((bytes.take stop).drop start) else none

/-- The value of the pseudo-attribute `encoding` in the text of an XML declaration. -/
def encodingIn : Routine Id (Option String) := do
  match ← query (.upTo "encoding") with
  | none => return none
  | some _ =>
    let _ ← query (.span Encoding.isSpace)
    if ← query (.passes '=') then
      let _ ← query (.span Encoding.isSpace)
      return (← query .quoted).map String.ofList
    else return none

/-- The encoding that an XML declaration in ASCII names. -/
def declared (bytes : List UInt8) : Checked (Option String) :=
  if (encode "<?xml".toList).isPrefixOf bytes then do
    match Cursor.offsetOf (encode "?>".toList) 0 (← sliceBytes bytes 0 (min bytes.length 512)) with
    | none => return none
    | some stop =>
      match Encoding.decodeUtf8 (← sliceBytes bytes 5 stop) with
      | .ok declaration => encodingIn.alone (String.ofList declaration)
      | .error _ => return none
  else return none

theorem encodingIn_eq (declaration : List Char) :
    encodingIn.alone (String.ofList declaration) = some (Encoding.encodingIn? declaration) := by
  refine alone_of_read ?_
  rw [String.toList_ofList]
  fun_cases Encoding.encodingIn? declaration with
  | case1 hb => simp_all [encodingIn, takeUpTo]
  | case2 _ rest hb after hs =>
    simp_all [encodingIn, takeUpTo, readQuoted?, Encoding.trimLeft]
    split <;> simp_all
  | case3 _ rest hb hne =>
    simp_all [encodingIn, takeUpTo, Encoding.trimLeft, takeChar_of_ne]

theorem isPrefixOf_latin1 (mark bytes : List UInt8) :
    mark.isPrefixOf bytes =
      (mark.map latin1Char).isPrefixOf (bytes.map latin1Char) := by
  rw [Bool.eq_iff_iff, isPrefixOf_iff_prefix, isPrefixOf_iff_prefix,
    prefix_map_iff_of_injective fun _ _ => Encoding.eq_of_latin1Char_eq]

/-- Bytes are found where their characters are found, one character for a byte. -/
theorem offsetOf_latin1 {mark : List UInt8} (hm : mark ≠ []) (passed : Nat) (bytes : List UInt8) :
    Cursor.offsetOf mark passed bytes =
      (breakOn (mark.map latin1Char) (bytes.map latin1Char)).map
        fun found => passed + found.1.length := by
  induction bytes generalizing passed with
  | nil => simp [Cursor.offsetOf, hm, breakOn_nil (mt map_eq_nil_iff.mp hm)]
  | cons b bytes ih =>
    rw [Cursor.offsetOf, isPrefixOf_latin1, map_cons, breakOn_cons, after?]
    split
    · rfl
    · cases hb : breakOn (mark.map latin1Char) (bytes.map latin1Char) with
      | none => simp [ih, hb]
      | some found => simp [ih, hb, Nat.add_assoc, Nat.add_comm 1]

/-- The search for the end of a declaration passes over its beginning. -/
theorem breakOn_opening (rest : List Char) :
    breakOn "?>".toList ("<?xml".toList ++ rest) =
      (breakOn "?>".toList rest).map fun found => ("<?xml".toList ++ found.1, found.2) := by
  have hnot : ¬ "?>".toList <:+: "<?xm".toList := by decide
  exact breakOn_append_cons (by decide) (by decide) (by decide : 'l' ∉ "?>".toList) hnot rest

theorem declared_eq (bytes : List UInt8) : declared bytes = some (Encoding.declared? bytes) := by
  have hopen : (encode "<?xml".toList).map latin1Char = "<?xml".toList := by decide
  have hclose : (encode "?>".toList).map latin1Char = "?>".toList := by decide
  have hprefix : (encode "<?xml".toList).isPrefixOf bytes =
      "<?xml".toList.isPrefixOf ((bytes.take 512).map latin1Char) := by
    rw [← hopen, ← isPrefixOf_latin1, Bool.eq_iff_iff, isPrefixOf_iff_prefix,
      isPrefixOf_iff_prefix, prefix_take_iff]
    exact ⟨fun h => ⟨h, by decide⟩, fun h => h.1⟩
  have hfront : sliceBytes bytes 0 (min bytes.length 512) = some (bytes.take 512) := by
    rw [sliceBytes, if_pos ⟨Nat.zero_le _, Nat.min_le_left _ _⟩, drop_zero, Nat.min_comm,
      ← take_eq_take_min]
  rw [declared, hprefix, hfront]
  simp only [Encoding.declared?, after?]
  split
  · next hp =>
    obtain ⟨front, hrest⟩ := isPrefixOf_iff_prefix.mp hp
    simp only [Option.bind_eq_bind, Option.bind_some,
      offsetOf_latin1 (by decide : encode "?>".toList ≠ []), hclose, ← hrest, breakOn_opening,
      drop_left]
    cases hb : breakOn "?>".toList front with
    | none => rfl
    | some found =>
      have hlength := congrArg length hrest
      rw [breakOn_eq hb, length_map, length_take] at hlength
      have hopen : "<?xml".toList.length = 5 := rfl
      have hinside : sliceBytes bytes 5 (0 + ("<?xml".toList ++ found.1).length) =
          some ((bytes.drop 5).take found.1.length) := by
        simp only [length_append] at hlength ⊢
        rw [sliceBytes, if_pos (by omega), drop_take]
        congr 2
        omega
      simp only [Option.map_some, hinside, Option.bind_some]
      cases Encoding.decodeUtf8 ((bytes.drop 5).take found.1.length) with
      | error e => rfl
      | ok declaration => exact encodingIn_eq declaration
  · rfl

/-- The text of bytes. -/
def decode (bytes : List UInt8) (hint : Option String) (charsets : Encoding.Charsets) :
    Checked (Except ParseError (List Char)) :=
  match bytes with
  | 0xEF :: 0xBB :: 0xBF :: _ => Encoding.decodeAsUtf8 <$> sliceBytes bytes 3 bytes.length
  | 0xFF :: 0xFE :: _ => (Encoding.Charset.utf16 .little).decode <$> sliceBytes bytes 2 bytes.length
  | 0xFE :: 0xFF :: _ => (Encoding.Charset.utf16 .big).decode <$> sliceBytes bytes 2 bytes.length
  | _ =>
    match Encoding.detect bytes with
    | .utf16 order => return (Encoding.Charset.utf16 order).decode bytes
    | .utf8 => do
      match (← declared bytes).or hint with
      | none => return Encoding.decodeAsUtf8 bytes
      | some label => return Encoding.decodeLabeled charsets label bytes

theorem decode_eq (bytes : List UInt8) (hint : Option String) (charsets : Encoding.Charsets) :
    decode bytes hint charsets = some (Encoding.decode bytes hint charsets) := by
  unfold decode Encoding.decode
  split
  · simp [sliceBytes]
  · simp [sliceBytes]
  · simp [sliceBytes]
  · simp only [declared_eq, Option.bind_eq_bind, Option.bind_some]
    cases Encoding.detect bytes with
    | utf16 order => rfl
    | utf8 =>
      cases (Encoding.declared? bytes).or hint with
      | none => rfl
      | some label => rfl

/-! ## External text -/

/-- The text of an external file, or why there is none. -/
def readExternal (env : Scan.Env) (systemId : String) : Checked (Except String (List Char)) :=
  match SystemId.resolve? env.options.baseDir systemId with
  | none => return .error "only local files can be loaded"
  | some path =>
    match env.files.read path with
    | .error fault => return .error fault.message
    | .ok bytes => do
      match ← decode bytes none env.files.charsets with
      | .error e => return .error e.describe
      | .ok text => return .ok (normalizeNewlines text)

/-- External text without the declaration it may begin with. -/
def stripTextDeclaration (text : List Char) : Checked (List Char) :=
  alone (do
    if ← lookAhead (query (.starts "<?xml")) then
      let _ ← query (.upTo "?>")
    query .here) (String.ofList text)

@[simp] theorem readExternal_eq (env : Scan.Env) (systemId : String) :
    readExternal env systemId = some (env.readExternal systemId) := by
  fun_cases Scan.Env.readExternal env systemId <;> simp_all [readExternal, decode_eq]

@[simp] theorem stripTextDeclaration_eq (text : List Char) :
    stripTextDeclaration text = some (Scan.stripTextDeclaration text) := by
  refine alone_of_read ?_
  rw [String.toList_ofList]
  fun_cases Scan.stripTextDeclaration text <;> simp_all [takeUpTo]

end Xml.Bounds
