import Xml.Proofs.Bounds.Texts
import Xml.Proofs.Scan.Subset

/-!
# Checked reading of declarations

The loops over a DTD subset go on by one byte where nothing of interest stands, so they pass through
the inside of characters. No byte there is one that a loop looks for, hence all of them are passed
and the next place is the one behind the character (`PassesHigh.char`). A literal that nothing
closes sends the cursor behind the end of the text; the loop ends there without another look.
-/

namespace Xml.Bounds

open Text Routine List Declarations

/-! ## Inside a character -/

variable {c : Cursor} {b : UInt8} {text : String} {rest : List Char}

/-- The bytes of a character behind its first one are not ASCII. -/
theorem peek_inside {c : Char} (h : c :: rest <:+ text.toList) {n : Nat} (hpos : 0 < n)
    (hlt : n < c.utf8Size) :
    ∃ b, (Cursor.mk text (offset text rest - n)).peek = some b ∧ 0x80 ≤ b.toNat := by
  have hc : ¬ IsAscii c := fun hc => by
    rw [hc.utf8Size] at hlt
    omega
  have hlength : c.utf8Size - n < (String.utf8EncodeChar c).length := by
    rw [String.length_utf8EncodeChar]
    omega
  refine ⟨(String.utf8EncodeChar c)[c.utf8Size - n], ?_,
    le_of_mem_utf8EncodeChar hc (getElem_mem hlength)⟩
  have hposition : offset text rest - n = offset text (c :: rest) + (c.utf8Size - n) := by
    rw [← offset_cons h]
    omega
  have hleft := congrArg (·[c.utf8Size - n]?) (left_cursorAt h)
  simp only [Cursor.left, getElem?_drop, encode_cons, getElem?_append_left hlength,
    getElem?_eq_getElem hlength] at hleft
  rw [Cursor.peek, Cursor.peekAt, Nat.add_zero, hposition]
  exact hleft

/-- A loop goes on by one byte wherever it does not see an ASCII character. -/
def PassesHigh {α : Type} (loop : Nat → Cursor → Checked α) : Prop :=
  ∀ rounds c b, c.position ≤ c.text.utf8ByteSize → c.peek = some b → 0x80 ≤ b.toNat →
    loop (rounds + 1) c = loop rounds (c.advance 1)

section Passing

variable {α : Type} {loop : Nat → Cursor → Checked α} (hloop : PassesHigh loop) {c : Char}
include hloop

theorem PassesHigh.inside (h : c :: rest <:+ text.toList) {n : Nat} (hlt : n < c.utf8Size)
    (rounds : Nat) :
    loop (rounds + n) ⟨text, offset text rest - n⟩ = loop rounds (cursorAt text rest) := by
  have hle := offset_le text rest
  have hsum := offset_cons h
  induction n with
  | zero => rfl
  | succ n ih =>
    obtain ⟨b, hpeek, hb⟩ := peek_inside h n.succ_pos hlt
    have hnext : min (offset text rest - (n + 1) + 1) text.utf8ByteSize = offset text rest - n := by
      omega
    rw [← Nat.add_assoc, hloop _ _ b ((Nat.sub_le _ _).trans hle) hpeek hb, Cursor.advance, hnext]
    exact ih (by omega)

/-- **A byte after the other, a character is passed.** -/
theorem PassesHigh.char (h : c :: rest <:+ text.toList) {rounds : Nat}
    (hr : c.utf8Size ≤ rounds + 1) :
    loop rounds ((cursorAt text (c :: rest)).advance 1) =
      loop (rounds + 1 - c.utf8Size) (cursorAt text rest) := by
  have hpos := c.utf8Size_pos
  have hle := offset_le text rest
  have hsum := offset_cons h
  rw [← hloop.inside h (Nat.sub_lt hpos Nat.one_pos)]
  have hrounds : rounds + 1 - c.utf8Size + (c.utf8Size - 1) = rounds := by omega
  have hnext : min (offset text (c :: rest) + 1) text.utf8ByteSize =
      offset text rest - (c.utf8Size - 1) := by omega
  rw [hrounds, Cursor.advance, cursorAt, hnext]

end Passing

theorem byte_ne {a : Char} (ha : IsAscii a) (hb : 0x80 ≤ b.toNat) : byte a ≠ b := by
  rintro rfl
  rw [toNat_byte ha] at hb
  exact absurd ha (Nat.not_lt.mpr hb)

section High

variable (hpeek : c.peek = some b)
include hpeek

theorem sees_eq_false (hb : 0x80 ≤ b.toNat) (a : Char) : sees c a = false := by
  rw [sees, hpeek, Bool.and_eq_false_imp]
  intro ha
  exact beq_false_of_ne fun h => byte_ne (of_decide_eq_true ha) hb (Option.some.inj h).symm

theorem startsWith_eq_false (hb : 0x80 ≤ b.toNat) (hle : c.position ≤ c.text.utf8ByteSize)
    {mark : String} (hm : mark.toList.head?.any (·.toNat < 0x80) = true) :
    startsWith c mark = some false := by
  obtain ⟨a, hhead, ha⟩ := (Option.any_eq_true _ _).mp hm
  obtain ⟨more, hmark⟩ := head?_eq_some_iff.mp hhead
  have ha : IsAscii a := of_decide_eq_true ha
  rw [Cursor.peek, Cursor.peekAt, Nat.add_zero, ← head?_drop] at hpeek
  obtain ⟨left, hleft⟩ := head?_eq_some_iff.mp hpeek
  rw [startsWith, fromHere, if_pos hle, Cursor.startsWith, toList_toUTF8, hmark, encode_cons,
    utf8EncodeChar_ascii ha, Cursor.left, hleft]
  simp [isPrefixOf, byte_ne ha hb]

theorem atEnd_eq_false : c.atEnd = false := by
  have hlt : c.position < c.bytes.length := (List.getElem?_eq_some_iff.mp hpeek).1
  have hsize : c.bytes.length = c.text.utf8ByteSize := by
    rw [show c.bytes = (cursorAt c.text []).bytes from rfl, bytes_cursorAt, length_encode,
      byteSize_toList]
  rw [Cursor.atEnd, decide_eq_false_iff_not]
  omega

end High

/-! ## Loops over bytes -/

/-- How a loop goes on. -/
inductive Step (σ β : Type) where
  /-- Not at all; the result may tell the position. -/
  | stop (result : Nat → β)
  | go (state : σ)
  /-- Behind the end of the text. -/
  | jump (state : σ)
  /-- With the next byte. -/
  | pass

/-- Looks at one position after the other. -/
def loop {σ β : Type} (look : σ → Routine Id (Step σ β)) : Nat → σ → Cursor → Checked β
  | 0, _, _ => none
  | rounds + 1, s, c => do
    match ← (look s).checked c with
    | (.stop result, c) => return result c.position
    | (.go s, c) => loop look rounds s c
    | (.jump s, c) => loop look rounds s (c.setPosition (c.text.utf8ByteSize + 1))
    | (.pass, _) => loop look rounds s (c.advance 1)

section Loop

variable {σ β : Type} {f : σ → List Char → β} {waits : σ → Bool} {s : σ}

/-- A step at a place is in line with the result `f` that the loop is to have. Each step goes on,
or leaves a state that waits. -/
inductive Leads (text : String) (f : σ → List Char → β) (waits : σ → Bool) (s : σ)
    (rest : List Char) : Step σ β → List Char → Prop where
  | stop {result : Nat → β} {tail : List Char} (hf : f s rest = result (offset text tail)) :
      Leads text f waits s rest (.stop result) tail
  | go {s' : σ} {tail : List Char} (hf : f s rest = f s' tail) (hs : tail <:+ rest)
      (hlt : tail.length < rest.length ∨ waits s = true ∧ waits s' = false) :
      Leads text f waits s rest (.go s') tail
  | jump {s' : σ} {tail : List Char} (hf : f s rest = f s' []) (hne : rest ≠ []) :
      Leads text f waits s rest (.jump s') tail
  | pass {c : Char} {behind tail : List Char} (hrest : rest = c :: behind)
      (hf : f s rest = f s behind) : Leads text f waits s rest .pass tail

/-- A routine can be the body of a loop with the result `f`. -/
structure Looks (text : String) (f : σ → List Char → β) (waits : σ → Bool)
    (look : σ → Routine Id (Step σ β)) : Prop where
  high : ∀ s c b, c.position ≤ c.text.utf8ByteSize → c.peek = some b → 0x80 ≤ b.toNat →
    (look s).checked c = some (.pass, c)
  past : ∀ s c, c.atEnd = true →
    ∃ result, (look s).checked c = some (.stop result, c) ∧ ∀ n, result n = f s []
  place : ∀ s rest, ∃ step tail, (look s).read rest = pure (step, tail) ∧
    Leads text f waits s rest step tail

theorem byteSize_lt_of_suffix {tail : List Char} (h : tail <:+ rest)
    (hlt : tail.length < rest.length) : byteSize tail < byteSize rest := by
  obtain ⟨passed, rfl⟩ := h
  cases passed with
  | nil => exact absurd hlt (Nat.lt_irrefl _)
  | cons c passed =>
    have hpos := c.utf8Size_pos
    rw [byteSize_append, byteSize_cons]
    omega

/-- **A loop over bytes has the result that is told by places.** -/
theorem Looks.loop_cursorAt {look : σ → Routine Id (Step σ β)} (hlook : Looks text f waits look)
    {rounds : Nat} (h : rest <:+ text.toList)
    (hr : 2 * byteSize rest + (waits s).toNat < rounds) :
    loop look rounds s (cursorAt text rest) = some (f s rest) := by
  -- A round passes a byte or ends the waiting, so there are at most two for each byte.
  induction rounds using Nat.strong_induction_on generalizing s rest with
  | _ rounds ih =>
    obtain ⟨n, rfl⟩ := Nat.exists_eq_add_one_of_ne_zero (Nat.ne_zero_of_lt hr)
    obtain ⟨step, tail, hread, hleads⟩ := hlook.place s rest
    have hchecked := checked_of_read h hread
    cases hleads with
    | stop hf =>
      rw [loop, hchecked, hf]
      rfl
    | @go s' _ hf hs hlt =>
      have hfewer : 2 * byteSize tail + (waits s').toNat < n := by
        have hle := byteSize_le_of_suffix hs
        have hone := (waits s').toNat_le
        rcases hlt with hlt | ⟨hw, hw'⟩
        · have hless := byteSize_lt_of_suffix hs hlt
          omega
        · rw [hw, Bool.toNat_true] at hr
          rw [hw', Bool.toNat_false]
          omega
      have hmore := ih n (Nat.lt_succ_self n) (hs.trans h) hfewer
      rw [loop, hchecked, hf, ← hmore]
      rfl
    | @jump s' _ hf hne =>
      -- Behind the end the body looks no more at the text.
      obtain ⟨c, behind, rfl⟩ := exists_cons_of_ne_nil hne
      have hpos := c.utf8Size_pos
      rw [byteSize_cons] at hr
      obtain ⟨k, rfl⟩ := Nat.exists_eq_add_one_of_ne_zero (by omega : n ≠ 0)
      obtain ⟨result, hstop, hresult⟩ :=
        hlook.past s' ⟨text, text.utf8ByteSize + 1⟩ (decide_eq_true (Nat.le_succ _))
      have hend : loop look (k + 1) s' ⟨text, text.utf8ByteSize + 1⟩ = some (f s' []) := by
        rw [loop, hstop, ← hresult]
        rfl
      rw [loop, hchecked, hf, ← hend]
      rfl
    | @pass c behind _ hrest hf =>
      subst hrest
      have hpasses : PassesHigh fun rounds c => loop look rounds s c := by
        intro rounds c b hle hpeek hb
        show loop look (rounds + 1) s c = _
        rw [loop, hlook.high s c b hle hpeek hb]
        rfl
      have hpos := c.utf8Size_pos
      rw [byteSize_cons] at hr
      have hpass := hpasses.char h (by omega : c.utf8Size ≤ n + 1)
      have hmore := ih (n + 1 - c.utf8Size) (by omega) (s := s)
        ((suffix_cons c behind).trans h) (by omega)
      rw [loop, hchecked, hf, ← hmore]
      exact hpass

def goBehind (mark : String) (s : σ) (last : Nat → β) :
    Routine Id (Step σ β) := do
  return if (← query (.upTo mark)).isSome then .go s else .stop last

end Loop

/-! ## The end of a subset -/

/-- Looks for the `]` that ends a subset. -/
def subsetLook : Unit → Routine Id (Step Unit (Option Nat))
  | () => do
    if ← query .atEnd then return .stop fun _ => none
    else if ← query (.sees ']') then return .stop some
    else if (← query (.sees '"')) || (← query (.sees '\'')) then
      return if (← query .quoted).isSome then .go () else .stop fun _ => none
    else if ← query (.starts "<!--") then goBehind "-->" () fun _ => none
    else if ← query (.starts "<?") then goBehind "?>" () fun _ => none
    else return .pass

/-- The offset of the `]` that ends the subset a text begins with. -/
def subsetEnd (text : String) : Checked (Option Nat) :=
  loop subsetLook (2 * text.utf8ByteSize + 1) () ⟨text, 0⟩

/-- The offset of the `]` that ends the subset from a place on. -/
def subsetOffset (text : String) (_ : Unit) (rest : List Char) : Option Nat :=
  (subsetEnd? rest).map fun tail => offset text (']' :: tail)

theorem looks_subset (text : String) :
    Looks text (subsetOffset text) (fun _ => false) subsetLook where
  high s c b hle hpeek hb := by
    simp [checked, subsetLook, check_some, atEnd_eq_false hpeek,
      sees_eq_false hpeek hb, startsWith_eq_false hpeek hb hle]
  past s c hend := by
    refine ⟨fun _ => none, by simp [checked, subsetLook, check_some, hend], fun _ => ?_⟩
    rw [subsetOffset, subsetEnd?]
    rfl
  place s rest := by
    fun_cases subsetEnd? rest with
    | case1 =>
      exact ⟨.stop fun _ => none, [], by simp [subsetLook],
        .stop (by simp [subsetOffset, subsetEnd?])⟩
    | case2 c rest hc =>
      exact ⟨.stop some, c :: rest, by simp [subsetLook, hc],
        .stop (by simp [subsetOffset, subsetEnd?_cons, eq_of_beq hc])⟩
    | case3 c rest hc hq _ tail hb =>
      exact ⟨.go (), tail, by simp [subsetLook, readLiteral, *, -Bool.or_eq_true],
        .go (by simp [subsetOffset, subsetEnd?_cons, *])
          ((breakOn_suffix hb).trans (suffix_cons c rest)) (.inl (by simp; omega))⟩
    | case4 c rest hc hq hb =>
      exact ⟨.stop fun _ => none, rest, by simp [subsetLook, readLiteral, *, -Bool.or_eq_true],
        .stop (by simp [subsetOffset, subsetEnd?_cons, *])⟩
    | case5 c rest _ _ inside hmark _ tail hb | case7 c rest _ _ _ inside hmark _ tail hb =>
      exact ⟨.go (), tail, by simp [subsetLook, goBehind, takeUpTo, *, -Bool.or_eq_true,
          -String.reduceToList],
        .go (by simp [subsetOffset, subsetEnd?_cons, *, -Bool.or_eq_true, -String.reduceToList])
          ((breakOn_suffix hb).trans (after?_suffix hmark)) (.inl (by omega))⟩
    -- Nothing closes what begins here.
    | case6 c rest _ _ inside | case8 c rest _ _ _ inside =>
      exact ⟨.stop fun _ => none, inside, by simp [subsetLook, goBehind, takeUpTo, *,
          -Bool.or_eq_true, -String.reduceToList],
        .stop (by simp [subsetOffset, subsetEnd?_cons, *, -Bool.or_eq_true, -String.reduceToList])⟩
    | case9 c rest =>
      exact ⟨.pass, c :: rest, by simp [subsetLook, *, -Bool.or_eq_true, -String.reduceToList],
        .pass rfl (by simp [subsetOffset, subsetEnd?_cons, *, -Bool.or_eq_true,
          -String.reduceToList])⟩

theorem subsetEnd_eq (text : String) :
    subsetEnd text =
      some ((subsetEnd? text.toList).map fun tail => offset text (']' :: tail)) := by
  rw [subsetEnd, ← cursorAt_toList]
  refine (looks_subset text).loop_cursorAt suffix_rfl ?_
  rw [byteSize_toList]
  exact Nat.lt_succ_self _

/-! ## Entity declarations -/

theorem skipBlanks_of_startsBlank {text : List Char} (h : startsBlank text = false) :
    skipBlanks text = text := by
  cases text with
  | nil => rfl
  | cons c rest => exact dropWhile_cons_of_neg (Bool.eq_false_iff.mp h)

/-- The system identifier of an external entity and what follows it. -/
def systemId (name : String) (publicId : Option String) :
    Routine Id (Except DeclarationProblem EntityValue) := do
  match ← query .quoted with
  | none => return .error (.systemIdMissing name)
  | some id =>
    let _ ← query .blanks
    if ← lookAhead (query (.starts "NDATA")) then return .ok .unparsed
    else return .ok (.external publicId (String.ofList id))

def entityValue (name : String) : Routine Id (Except DeclarationProblem EntityValue) := do
  match ← query .quoted with
  | some literal => return .ok (.internal (String.ofList (← given (expandCharRefs literal))))
  | none =>
    if ← query (.starts "SYSTEM") then
      let _ ← query .blanks
      systemId name none
    else if ← query (.starts "PUBLIC") then
      let _ ← query .blanks
      match ← query .quoted with
      | some id =>
        let _ ← query .blanks
        systemId name (some (String.ofList id))
      | none => return .error (.publicIdMissing name)
    else return .error (.valueMissing name)

/-- Whether a `%` marks a parameter entity. -/
def parameterMark : Routine Id Bool := do
  let found ← query (.passes '%')
  if found then
    let _ ← query .blanks
  return found

/-- One entity declaration, read from behind its keyword. -/
def entity : Routine Id (Except DeclarationProblem EntityDeclaration) := do
  if ← query .blanks then
    let isParameter ← parameterMark
    match ← query .name with
    | none => return .error .nameMissing
    | some name =>
      let _ ← query .blanks
      let value ← entityValue (String.ofList name)
      return value.map fun value => ⟨String.ofList name, value, isParameter⟩
  else return .error .spaceMissing

theorem read_systemId (name : String) (publicId : Option String) (rest : List Char) :
    (systemId name publicId).read rest = pure (readSystemId name publicId rest) := by
  fun_cases readSystemId name publicId rest <;> simp_all +zetaDelta [systemId]

theorem read_entityValue (name : String) (rest : List Char) :
    (entityValue name).read rest = pure (readEntityValue name rest) := by
  fun_cases readEntityValue name rest with
  | case1 literal tail hl => simp [entityValue, hl]
  | case2 tail hl behind hs => simp [entityValue, hl, hs, read_systemId, -String.reduceToList]
  | case3 tail hl hs behind hp id last hl' =>
    simp [entityValue, hl, hs, hp, hl', read_systemId, -String.reduceToList]
  | case4 tail hl hs behind hp last hl' =>
    simp [entityValue, hl, hs, hp, hl', -String.reduceToList]
  | case5 tail hl hs hp => simp [entityValue, hl, hs, hp, -String.reduceToList]

theorem read_parameterMark (rest : List Char) :
    parameterMark.read rest = pure (readParameterMark rest) := by
  fun_cases readParameterMark rest with
  | case1 rest => simp [parameterMark]
  | case2 rest hne => simp [parameterMark, takeChar_of_ne hne]

theorem read_entity (rest : List Char) : entity.read rest = pure (readEntity rest) := by
  fun_cases readEntity rest with
  | case1 hs isParameter tail hmark hn =>
    simp [entity, hs, read_parameterMark, hmark, takeName, hn]
  | case2 hs isParameter tail hmark name behind hn value last hvalue =>
    simp [entity, hs, read_parameterMark, hmark, takeName, hn, read_entityValue, hvalue]
  | case3 hs => simp [entity, hs, skipBlanks_of_startsBlank (Bool.eq_false_iff.mpr hs)]

/-! ## All declarations -/

/-- Looks for declarations, or for the end of one. -/
def declarationLook : Reading × Bool →
    Routine Id (Step (Reading × Bool) Reading)
  | (r, false) => do
    if ← query .atEnd then return .stop fun _ => r
    else if ← query (.starts "<!--") then goBehind "-->" (r, false) fun _ => r
    else if ← lookAhead (query (.starts "<?")) then
      goBehind "?>" (r, false) fun _ => r
    else if ← query (.starts "<!ENTITY") then return .go (r.add (← entity), true)
    else if ← lookAhead (query (.starts "<!")) then return .go (r, true)
    else return .pass
  | (r, true) => do
    if ← query .atEnd then return .stop fun _ => r
    else if ← query (.passes '>') then return .go (r, false)
    else if (← query (.sees '"')) || (← query (.sees '\'')) then
      return if (← query .quoted).isSome then .go (r, true) else .jump (r, false)
    else return .pass

/-- Adds the entities that a subset declares to a table. -/
def readDeclarations (text : String) (table : EntityTable) :
    Checked (EntityTable × List DeclarationProblem) := do
  let r ← loop declarationLook (2 * text.utf8ByteSize + 2) ({ table }, false) ⟨text, 0⟩
  return (r.table, r.problems.reverse)

/-- What is read from a place on, behind the end of a declaration or not. -/
def declarationsFrom (state : Reading × Bool) (rest : List Char) :
    Reading :=
  readFrom state.1 (if state.2 then skipDeclaration rest else rest)

theorem declarationsFrom_nil (state : Reading × Bool) :
    declarationsFrom state [] = state.1 := by
  rw [declarationsFrom, skipDeclaration, ite_self, readFrom]

theorem place_of_declaration (text : String) (r : Reading) (rest : List Char) :
    ∃ step tail, (declarationLook (r, false)).read rest = pure (step, tail) ∧
      Leads text declarationsFrom (!·.2) (r, false) rest step tail := by
  fun_cases readFrom r rest with
  | case1 => exact ⟨.stop fun _ => r, [], by simp [declarationLook], .stop (declarationsFrom_nil _)⟩
  | case2 c rest inside hc _ tail hb =>
    exact ⟨.go (r, false), tail,
      by simp [declarationLook, goBehind, takeUpTo, hc, hb, -String.reduceToList],
      .go (by simp [declarationsFrom, readFrom_cons, hc, hb, -String.reduceToList])
        ((breakOn_suffix hb).trans (after?_suffix hc)) (.inl (by omega))⟩
  | case4 c rest hc inside hp _ tail hb =>
    exact ⟨.go (r, false), tail,
      by simp [declarationLook, goBehind, takeUpTo, hc, hp, hb, -String.reduceToList],
      .go (by simp [declarationsFrom, readFrom_cons, hc, hp, hb, -String.reduceToList])
        (breakOn_suffix hb) (.inl (by omega))⟩
  | case3 c rest inside hc hb =>
    exact ⟨.stop fun _ => r, inside,
      by simp [declarationLook, goBehind, takeUpTo, hc, hb, -String.reduceToList],
      .stop (by simp [declarationsFrom, readFrom_cons, hc, hb, -String.reduceToList])⟩
  | case5 c rest hc inside hp hb =>
    exact ⟨.stop fun _ => r, c :: rest,
      by simp [declarationLook, goBehind, takeUpTo, hc, hp, hb, -String.reduceToList],
      .stop (by simp [declarationsFrom, readFrom_cons, hc, hp, hb, -String.reduceToList])⟩
  | case6 c rest hc hp inside he =>
    exact ⟨.go (r.add (readEntity inside).1, true), (readEntity inside).2,
      by simp [declarationLook, read_entity, hc, hp, he, -String.reduceToList],
      .go (by simp [declarationsFrom, readFrom_cons, hc, hp, he, -String.reduceToList])
        ((readEntity_suffix inside).trans (after?_suffix he)) (.inr ⟨rfl, rfl⟩)⟩
  | case7 c rest hc hp he inside hd =>
    exact ⟨.go (r, true), c :: rest,
      by simp [declarationLook, hc, hp, he, hd, -String.reduceToList],
      .go (by simp [declarationsFrom, readFrom_cons, hc, hp, he, hd, -String.reduceToList])
        suffix_rfl (.inr ⟨rfl, rfl⟩)⟩
  | case8 c rest hc hp he hd =>
    exact ⟨.pass, c :: rest, by simp [declarationLook, hc, hp, he, hd, -String.reduceToList],
      .pass rfl (by simp [declarationsFrom, readFrom_cons, hc, hp, he, hd, -String.reduceToList])⟩

theorem place_of_skipping (text : String) (r : Reading) (rest : List Char) :
    ∃ step tail, (declarationLook (r, true)).read rest = pure (step, tail) ∧
      Leads text declarationsFrom (!·.2) (r, true) rest step tail := by
  fun_cases skipDeclaration rest with
  | case1 => exact ⟨.stop fun _ => r, [], by simp [declarationLook], .stop (declarationsFrom_nil _)⟩
  | case2 c rest hc =>
    refine ⟨.go (r, false), rest, by simp [declarationLook, eq_of_beq hc], .go ?_
      (suffix_cons c rest) (.inl (Nat.lt_succ_self _))⟩
    simp [declarationsFrom, skipDeclaration, hc]
  | case3 c rest hc hq _ tail hb =>
    refine ⟨.go (r, true), tail, ?_, .go ?_ ((breakOn_suffix hb).trans (suffix_cons c rest))
      (.inl (by simp; omega))⟩
    · simp [declarationLook, readLiteral, takeChar, hc, hq, hb, -Bool.or_eq_true]
    · rw [declarationsFrom, if_pos rfl, skipDeclaration, if_neg hc, if_pos hq]
      split <;> simp_all [declarationsFrom]
  | case4 c rest hc hq hb =>
    refine ⟨.jump (r, false), rest, ?_, .jump ?_ (cons_ne_nil _ _)⟩
    · simp [declarationLook, readLiteral, takeChar, hc, hq, hb, -Bool.or_eq_true]
    · rw [declarationsFrom, if_pos rfl, skipDeclaration, if_neg hc, if_pos hq]
      split <;> simp_all [declarationsFrom]
  | case5 c rest hc hq =>
    refine ⟨.pass, c :: rest, ?_, .pass rfl ?_⟩
    · simp [declarationLook, takeChar, hc, hq, -Bool.or_eq_true]
    · rw [declarationsFrom, if_pos rfl, skipDeclaration, if_neg hc, if_neg hq]
      rfl

theorem looks_declarations (text : String) :
    Looks text declarationsFrom (!·.2) declarationLook where
  high s c b hle hpeek hb := by
    obtain ⟨r, skipping⟩ := s
    cases skipping <;>
      simp [checked, declarationLook, check_some, atEnd_eq_false hpeek,
        sees_eq_false hpeek hb, startsWith_eq_false hpeek hb hle]
  past s c hend := by
    refine ⟨fun _ => s.1, ?_, fun _ => (declarationsFrom_nil s).symm⟩
    obtain ⟨r, skipping⟩ := s
    cases skipping <;> simp [checked, declarationLook, check_some, hend]
  place
    | (r, false), rest => place_of_declaration text r rest
    | (r, true), rest => place_of_skipping text r rest

theorem readDeclarations_eq (text : String) (table : EntityTable) :
    readDeclarations text table = some (Xml.readDeclarations text.toList table) := by
  have hrounds : 2 * byteSize text.toList + 1 < 2 * text.utf8ByteSize + 2 := by
    rw [byteSize_toList]
    exact Nat.lt_succ_self _
  have hloop := (looks_declarations text).loop_cursorAt (s := ({ table }, false)) suffix_rfl
    hrounds
  rw [cursorAt_toList] at hloop
  rw [readDeclarations, hloop]
  rfl

end Xml.Bounds
