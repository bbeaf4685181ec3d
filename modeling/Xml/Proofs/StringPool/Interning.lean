import Mathlib.Algebra.BigOperators.Group.Finset.Basic
import Mathlib.Algebra.Order.BigOperators.Group.Finset
import Mathlib.Algebra.GroupWithZero.Nat
import Mathlib.Data.List.Nodup
import Xml.StringPool

/-!
# A pool is a list of distinct strings

The buffer, the table of places and the index by hash value are one way to keep a list of distinct
strings that begins with the empty one: the number of a string is its place in the list
(`Holds`). A string that is in the list is found, a new one goes to its end, so numbers that were
given out keep their strings. Nothing is asked of the hash function.

Numbers and places are kept in 32 bits. As long as the distinct strings fit (`Fits`), nothing is
lost by that.
-/

namespace Xml.StringPool

open List

variable {hash : String → UInt64} {pool : StringPool hash} {strings : List String} {text : String}
  {id : Nat}

/-! ## What a pool holds -/

/-- The pool holds the strings of a list, each under its place in it. -/
structure Holds (pool : StringPool hash) (strings : List String) : Prop where
  /-- The buffer is all strings one behind the other. -/
  data : pool.data = String.join strings
  /-- Each string has an entry, and no entry is left over. -/
  size : pool.entries.size = strings.length
  /-- An entry tells how many bytes stand before the string and how many it has. -/
  entry : ∀ before text after, strings = before ++ text :: after →
    pool.entries[before.length]? =
      some ((String.join before).utf8ByteSize, text.utf8ByteSize)
  /-- The index has every number but the first, under the hash value of its string. -/
  bucket : ∀ value id, id ∈ pool.index.getD value [] ↔
    0 < id ∧ ∃ text, strings[id]? = some text ∧ hash text = value
  /-- No string is there twice. -/
  nodup : strings.Nodup
  /-- The first is the empty one. -/
  first : strings[0]? = some ""

theorem holds_empty : Holds (empty : StringPool hash) [""] where
  data := rfl
  size := rfl
  entry := by
    intro before text after h
    obtain ⟨rfl, rfl, rfl⟩ : before = [] ∧ text = "" ∧ after = [] := by
      cases before <;> simp_all
    rfl
  bucket := by
    intro value id
    cases id <;> simp [empty]
  nodup := nodup_singleton ""
  first := rfl

/-- The bytes between two places are the text that stands there. -/
theorem slice?_append (before text after : String) :
    slice? (before ++ (text ++ after)) before.utf8ByteSize
      (before.utf8ByteSize + text.utf8ByteSize) = some text := by
  have hbytes : (before ++ (text ++ after)).toUTF8.extract before.utf8ByteSize
      (before.utf8ByteSize + text.utf8ByteSize) = text.toByteArray := by
    simp only [String.toUTF8, String.toByteArray_append, ← ByteArray.append_assoc]
    have hfront : (before.toByteArray ++ text.toByteArray).extract before.utf8ByteSize
        (before.utf8ByteSize + text.utf8ByteSize) = text.toByteArray :=
      ByteArray.extract_append_eq_right rfl rfl
    rw [ByteArray.extract_append, hfront]
    simp
  have hstop : before.utf8ByteSize + text.utf8ByteSize ≤
      (before ++ (text ++ after)).utf8ByteSize := by
    simp only [String.utf8ByteSize_append]
    omega
  rw [slice?, if_pos hstop, hbytes]
  simp [String.fromUTF8?, String.isValidUTF8, String.fromUTF8]

theorem Holds.get (h : Holds pool strings) (hid : strings[id]? = some text) :
    pool.get id = text := by
  obtain ⟨hlt, hat⟩ := List.getElem?_eq_some_iff.mp hid
  obtain ⟨before, after, hsplit, rfl⟩ :
      ∃ before after, strings = before ++ text :: after ∧ before.length = id := by
    refine ⟨strings.take id, strings.drop (id + 1), ?_, by simp; omega⟩
    rw [← hat, getElem_cons_drop, take_append_drop]
  have hdata : pool.data = String.join before ++ (text ++ String.join after) := by
    rw [h.data, hsplit, String.join_append, String.join_cons]
  simp only [StringPool.get, h.entry before text after hsplit, hdata, slice?_append,
    Option.getD_some]

/-- Two numbers with the same string are the same. -/
theorem Holds.id_unique (h : Holds pool strings) {id' : Nat} (hid : strings[id]? = some text)
    (hid' : strings[id']? = some text) : id = id' := by
  obtain ⟨hlt, -⟩ := List.getElem?_eq_some_iff.mp hid
  exact (getElem?_inj hlt h.nodup).mp (hid.trans hid'.symm)

/-! ## One call -/

/-- Looking up finds the place of a string in the list. A bucket may hold strings other than the
one that is looked for, but never the same one twice. -/
theorem Holds.lookup_eq_some_iff (h : Holds pool strings) :
    pool.lookup text = some id ↔ strings[id]? = some text := by
  by_cases hempty : text = ""
  · subst hempty
    have hzero : pool.lookup "" = some 0 := rfl
    rw [hzero, Option.some.injEq]
    exact ⟨fun heq => heq ▸ h.first, fun hid => h.id_unique h.first hid⟩
  rw [lookup, if_neg (by simpa using hempty)]
  constructor
  · intro hfound
    obtain ⟨-, other, hother, -⟩ := (h.bucket _ _).mp (mem_of_find?_eq_some hfound)
    have hget : pool.get id = text := by simpa using find?_some hfound
    rwa [← hget, h.get hother]
  · intro hid
    have hpos : 0 < id := by
      refine Nat.pos_of_ne_zero fun hzero => hempty ?_
      rw [hzero, h.first, Option.some.injEq] at hid
      exact hid.symm
    have hmem : id ∈ pool.index.getD (hash text) [] :=
      (h.bucket _ _).mpr ⟨hpos, text, hid, rfl⟩
    have hfind : ((pool.index.getD (hash text) []).find? fun id => pool.get id == text).isSome :=
      find?_isSome.mpr ⟨id, hmem, by simpa using h.get hid⟩
    obtain ⟨found, hfound⟩ := Option.isSome_iff_exists.mp hfind
    obtain ⟨-, other, hother, -⟩ := (h.bucket _ _).mp (mem_of_find?_eq_some hfound)
    have hget : pool.get found = text := by simpa using find?_some hfound
    rw [h.get hother] at hget
    rw [hget] at hother
    rw [hfound, h.id_unique hother hid]

theorem Holds.intern_of_getElem? (h : Holds pool strings) (hid : strings[id]? = some text) :
    pool.intern text = (id, pool) := by
  simp only [intern, h.lookup_eq_some_iff.mpr hid]

theorem Holds.intern_new (h : Holds pool strings) (hnew : text ∉ strings)
    (hcount : strings.length < UInt32.size)
    (hbytes : (String.join (strings ++ [text])).utf8ByteSize < UInt32.size) :
    (pool.intern text).1 = strings.length ∧ Holds (pool.intern text).2 (strings ++ [text]) := by
  have hnone : pool.lookup text = none := by
    refine Option.eq_none_iff_forall_ne_some.mpr fun id hid => hnew ?_
    exact mem_of_getElem? (h.lookup_eq_some_iff.mp hid)
  have hjoin : String.join (strings ++ [text]) = pool.data ++ text := by
    rw [String.join_append, h.data, String.join_cons, String.join_nil, String.append_empty]
  rw [hjoin, String.utf8ByteSize_append] at hbytes
  have hid : word pool.entries.size = strings.length := by
    rw [word, h.size, Nat.mod_eq_of_lt hcount]
  have hstart : word pool.data.utf8ByteSize = pool.data.utf8ByteSize :=
    Nat.mod_eq_of_lt (by omega)
  have hlength : word text.utf8ByteSize = text.utf8ByteSize := Nat.mod_eq_of_lt (by omega)
  simp only [intern, hnone, hid, hstart, hlength]
  refine ⟨trivial, ⟨hjoin.symm, by simp [h.size], ?entry, ?bucket, ?nodup, ?first⟩⟩
  case entry =>
    intro before other after hsplit
    rw [Array.getElem?_push]
    -- The entry asked for is the new one or was there before.
    rcases eq_nil_or_concat after with rfl | ⟨after, last, rfl⟩
    · obtain ⟨rfl, hlast⟩ := append_inj' hsplit rfl
      obtain rfl : text = other := by simpa using hlast
      simp [h.size, h.data]
    · have hsplit' : strings ++ [text] = (before ++ other :: after) ++ [last] := by
        simpa using hsplit
      obtain ⟨hold, -⟩ := append_inj' hsplit' rfl
      have hne : before.length ≠ pool.entries.size := by
        rw [h.size, hold]
        simp
      rw [if_neg hne, h.entry before other after hold]
  case bucket =>
    intro value id
    rw [Std.HashMap.getD_insert]
    have hpos : 0 < strings.length := (List.getElem?_eq_some_iff.mp h.first).1
    have hat : ∀ other, (strings ++ [text])[id]? = some other ↔
        strings[id]? = some other ∨ id = strings.length ∧ text = other := by
      intro other
      rcases Nat.lt_trichotomy id strings.length with hlt | rfl | hgt
      · rw [getElem?_append_left hlt]
        simp [Nat.ne_of_lt hlt]
      · simp
      · rw [getElem?_eq_none (by simp; omega), getElem?_eq_none (by omega)]
        simp [Nat.ne_of_gt hgt]
    simp only [hat]
    by_cases hvalue : hash text = value
    · rw [if_pos (by simpa using hvalue), mem_append, ← hvalue, h.bucket]
      grind
    · rw [if_neg (by simpa using hvalue), h.bucket]
      grind
  case nodup => exact nodup_append.mpr ⟨h.nodup, nodup_singleton _, by grind⟩
  case first =>
    rw [getElem?_append_left (List.getElem?_eq_some_iff.mp h.first).1]
    exact h.first

/-! ## Any sequence of calls -/

inductive Call where
  | intern (text : String)
  | lookup (text : String)
  deriving DecidableEq

def Call.run (pool : StringPool hash) : Call → StringPool hash
  | .intern text => (pool.intern text).2
  | .lookup _ => pool

/-- The pool behind calls from an empty one. -/
def after (hash : String → UInt64) (calls : List Call) : StringPool hash :=
  calls.foldl Call.run empty

/-- The strings that calls ask to be kept. -/
def interned (calls : List Call) : Finset String :=
  (calls.filterMap fun
    | .intern text => some text
    | .lookup _ => none).toFinset

/-- There are fewer than 2³² distinct strings to keep, with fewer than 2³² bytes in all. -/
structure Fits (calls : List Call) : Prop where
  count : (interned calls).card < UInt32.size
  bytes : ∑ text ∈ interned calls, text.utf8ByteSize < UInt32.size

/-- The list of strings behind a call. -/
def Call.keep (strings : List String) : Call → List String
  | .intern text => if text ∈ strings then strings else strings ++ [text]
  | .lookup _ => strings

/-- The list of strings behind calls. -/
def kept (calls : List Call) : List String :=
  calls.foldl Call.keep [""]

theorem kept_concat (calls : List Call) (call : Call) :
    kept (calls ++ [call]) = call.keep (kept calls) := by
  simp [kept]

theorem after_concat (calls : List Call) (call : Call) :
    after hash (calls ++ [call]) = call.run (after hash calls) := by
  simp [after]

variable {calls : List Call}

theorem mem_interned : text ∈ interned calls ↔ .intern text ∈ calls := by
  simp only [interned, mem_toFinset, mem_filterMap]
  constructor
  · rintro ⟨call, hmem, hcall⟩
    cases call <;> simp_all
  · exact fun hmem => ⟨_, hmem, rfl⟩

theorem Fits.of_append {more : List Call} (h : Fits (calls ++ more)) : Fits calls := by
  have hsub : interned calls ⊆ interned (calls ++ more) := by
    intro text htext
    rw [mem_interned] at htext ⊢
    exact mem_append_left _ htext
  exact ⟨(Finset.card_le_card hsub).trans_lt h.count,
    (Finset.sum_le_sum_of_subset hsub).trans_lt h.bytes⟩

/-- What is kept is the empty string and, behind it, distinct strings from the calls. -/
theorem exists_kept_eq (calls : List Call) :
    ∃ others, kept calls = "" :: others ∧ (kept calls).Nodup ∧
      ∀ text, text ∈ kept calls ↔ text = "" ∨ .intern text ∈ calls := by
  induction calls using List.reverseRecOn with
  | nil => exact ⟨[], rfl, nodup_singleton "", by simp [kept]⟩
  | append_singleton calls call ih =>
    obtain ⟨others, hkept, hnodup, hmem⟩ := ih
    rw [kept_concat]
    cases call with
    | lookup text => exact ⟨others, hkept, hnodup, by simp [Call.keep, hmem]⟩
    | intern text =>
      rw [Call.keep]
      split
      case isTrue hold =>
        refine ⟨others, hkept, hnodup, fun other => ?_⟩
        rw [hmem] at hold ⊢
        grind
      case isFalse hnew =>
        refine ⟨others ++ [text], by rw [hkept, cons_append], ?_, fun other => ?_⟩
        · exact nodup_append.mpr ⟨hnodup, nodup_singleton _, by grind⟩
        · rw [mem_append, hmem]
          grind

theorem Fits.kept (h : Fits calls) :
    (kept calls).length ≤ UInt32.size ∧
      (String.join (StringPool.kept calls)).utf8ByteSize < UInt32.size := by
  obtain ⟨others, hkept, hnodup, hmem⟩ := exists_kept_eq calls
  rw [hkept] at hnodup hmem ⊢
  obtain ⟨hempty, hothers⟩ := nodup_cons.mp hnodup
  have hsub : others.toFinset ⊆ interned calls := by
    intro text htext
    have htext := mem_toFinset.mp htext
    rw [mem_interned]
    exact ((hmem text).mp (mem_cons_of_mem _ htext)).resolve_left fun heq =>
      hempty (heq ▸ htext)
  have hcount := (Finset.card_le_card hsub).trans_lt h.count
  have hbytes := (Finset.sum_le_sum_of_subset hsub).trans_lt h.bytes
  rw [toFinset_card_of_nodup hothers] at hcount
  rw [sum_toFinset _ hothers] at hbytes
  have hjoin : ∀ strings : List String,
      (String.join strings).utf8ByteSize = (strings.map String.utf8ByteSize).sum := by
    intro strings
    induction strings with
    | nil => rfl
    | cons text more ih => rw [String.join_cons, String.utf8ByteSize_append, ih]; simp
  refine ⟨by rw [length_cons]; omega, ?_⟩
  rw [hjoin, map_cons, sum_cons]
  simpa using hbytes

/-- **Step.** A call that fits keeps pool and list together, and a string that is interned has its
number as place in the list. -/
theorem Holds.step {call : Call} (h : Holds (after hash calls) (kept calls))
    (hfits : Fits (calls ++ [call])) :
    Holds (after hash (calls ++ [call])) (kept (calls ++ [call])) ∧
      ∀ text, call = .intern text →
        (kept (calls ++ [call]))[((after hash calls).intern text).1]? = some text := by
  rw [after_concat]
  have hkept := hfits.kept
  rw [kept_concat] at hkept ⊢
  cases call with
  | lookup text => exact ⟨h, nofun⟩
  | intern text =>
    simp only [Call.run, Call.keep, Call.intern.injEq, forall_eq'] at hkept ⊢
    split at hkept
    case isTrue hold =>
      rw [if_pos hold]
      obtain ⟨id, hid⟩ := mem_iff_getElem?.mp hold
      rw [h.intern_of_getElem? hid]
      exact ⟨h, hid⟩
    case isFalse hnew =>
      rw [if_neg hnew]
      have hcount : (kept calls).length < UInt32.size := by
        have := hkept.1
        rw [length_append] at this
        exact this
      obtain ⟨hid, hholds⟩ := h.intern_new hnew hcount hkept.2
      exact ⟨hholds, by rw [hid, getElem?_concat_length]⟩

/-- **Run.** Behind calls that fit the pool holds what was to be kept. -/
theorem holds_after (hfits : Fits calls) : Holds (after hash calls) (kept calls) := by
  induction calls using List.reverseRecOn with
  | nil => exact holds_empty
  | append_singleton calls call ih => exact ((ih hfits.of_append).step hfits).1

/-- Calls only add to the end of the list. -/
theorem kept_prefix (calls more : List Call) : kept calls <+: kept (calls ++ more) := by
  induction more using List.reverseRecOn with
  | nil => simp
  | append_singleton more call ih =>
    rw [← append_assoc, kept_concat]
    cases call with
    | lookup text => exact ih
    | intern text =>
      rw [Call.keep]
      split
      · exact ih
      · exact ih.trans (prefix_append _ _)

/-- The number that calls, at some point, gave to a string that was to be kept. -/
def Gave (hash : String → UInt64) (calls : List Call) (text : String) (id : Nat) : Prop :=
  ∃ before later, calls = before ++ .intern text :: later ∧
    ((after hash before).intern text).1 = id

/-- A number that was given to a string is its place in the list, from then on. -/
theorem gave_iff (hfits : Fits calls) :
    Gave hash calls text id ↔ .intern text ∈ calls ∧ (kept calls)[id]? = some text := by
  have hplace : ∀ {id}, Gave hash calls text id → (kept calls)[id]? = some text := by
    rintro id ⟨before, later, rfl, rfl⟩
    have hcalls : before ++ .intern text :: later = before ++ [.intern text] ++ later := by simp
    rw [hcalls] at hfits ⊢
    have hholds : Holds (after hash before) (kept before) := holds_after hfits.of_append.of_append
    obtain ⟨more, hmore⟩ := kept_prefix (before ++ [.intern text]) later
    have hid := (hholds.step hfits.of_append).2 text rfl
    rwa [← hmore, getElem?_append_left (List.getElem?_eq_some_iff.mp hid).1]
  constructor
  · intro hgave
    refine ⟨?_, hplace hgave⟩
    obtain ⟨before, later, rfl, -⟩ := hgave
    simp
  · rintro ⟨hmem, hid⟩
    obtain ⟨before, later, hcalls⟩ := append_of_mem hmem
    refine ⟨before, later, hcalls, ?_⟩
    have hholds : Holds (after hash calls) (kept calls) := holds_after hfits
    exact hholds.id_unique (hplace ⟨before, later, hcalls, rfl⟩) hid

/-- **Faithful under any hash function.** Behind calls whose distinct strings fit, whatever values
the hash function takes:

* a string that was kept has the number it was given, and that number has the string;
* a string gets the same number every time, and no number goes to two strings;
* the numbers that are there before some calls have the same strings behind them;
* looking up gives the number of a string exactly if it is the empty one or was kept;
* number 0 is the empty string, and no other number that is there is. -/
theorem pool_faithful (hash : String → UInt64) (calls : List Call) (hfits : Fits calls) :
    let pool := after hash calls
    (∀ text id, Gave hash calls text id → pool.get id = text ∧ pool.intern text = (id, pool)) ∧
      (∀ text id id', Gave hash calls text id → Gave hash calls text id' → id = id') ∧
      (∀ text text' id, Gave hash calls text id → Gave hash calls text' id → text = text') ∧
      (∀ before later, calls = before ++ later → ∀ id < (after hash before).size,
        id < pool.size ∧ pool.get id = (after hash before).get id) ∧
      (∀ text id, pool.lookup text = some id ↔
        text = "" ∧ id = 0 ∨ Gave hash calls text id) ∧
      pool.get 0 = "" ∧ ∀ id, 0 < id → id < pool.size → pool.get id ≠ "" := by
  intro pool
  have h : Holds pool (kept calls) := holds_after hfits
  have hplace : ∀ {text id}, Gave hash calls text id → (kept calls)[id]? = some text :=
    fun hgave => ((gave_iff hfits).mp hgave).2
  refine ⟨?given, ?unique, ?apart, ?stays, ?found, h.get h.first, ?zero⟩
  case given =>
    exact fun text id hgave => ⟨h.get (hplace hgave), h.intern_of_getElem? (hplace hgave)⟩
  case unique => exact fun text id id' hgave hgave' => h.id_unique (hplace hgave) (hplace hgave')
  case apart =>
    intro text text' id hgave hgave'
    exact (h.get (hplace hgave)).symm.trans (h.get (hplace hgave'))
  case stays =>
    rintro before later rfl id hid
    have hbefore : Holds (after hash before) (kept before) := holds_after hfits.of_append
    obtain ⟨more, hmore⟩ := kept_prefix before later
    have hlt : id < (kept before).length := hbefore.size ▸ hid
    have hold : (kept before)[id]? = some (kept before)[id] := List.getElem?_eq_getElem hlt
    have hnew : (kept (before ++ later))[id]? = some (kept before)[id] := by
      rw [← hmore, List.getElem?_append_left hlt, hold]
    refine ⟨?_, by rw [h.get hnew, hbefore.get hold]⟩
    rw [size, h.size]
    exact (List.getElem?_eq_some_iff.mp hnew).1
  case found =>
    intro text id
    obtain ⟨others, -, -, hmem⟩ := exists_kept_eq calls
    rw [h.lookup_eq_some_iff, gave_iff hfits]
    constructor
    · intro hid
      rcases (hmem text).mp (List.mem_of_getElem? hid) with rfl | hcall
      · exact .inl ⟨rfl, h.id_unique hid h.first⟩
      · exact .inr ⟨hcall, hid⟩
    · rintro (⟨rfl, rfl⟩ | ⟨-, hid⟩)
      · exact h.first
      · exact hid
  case zero =>
    intro id hpos hlt hget
    rw [size, h.size] at hlt
    have hid : (kept calls)[id]? = some (kept calls)[id] := List.getElem?_eq_getElem hlt
    rw [h.get hid] at hget
    rw [hget] at hid
    exact Nat.ne_of_gt hpos (h.id_unique hid h.first)

/-- Calls that keep three strings, one of them twice, with two look-ups between. -/
def colliding : List Call :=
  [.intern "ab", .lookup "b", .intern "é", .intern "", .lookup "é", .intern "ab"]

/-- With one hash value for all strings, the strings are still told apart. -/
theorem pool_faithful_colliding :
    Fits colliding ∧ (after (fun _ => 0) colliding).get 2 = "é" ∧
      (after (fun _ => 0) colliding).lookup "ab" = some 1 ∧
      (after (fun _ => 0) colliding).lookup "b" = none := by
  have hfits : Fits colliding := ⟨by decide, by decide⟩
  obtain ⟨hgiven, -, -, -, hfound, -, -⟩ := pool_faithful (fun _ => 0) colliding hfits
  have hlast : Gave (fun _ => 0) colliding "é" 2 := (gave_iff hfits).mpr ⟨by decide, by decide⟩
  have hfirst : Gave (fun _ => 0) colliding "ab" 1 := (gave_iff hfits).mpr ⟨by decide, by decide⟩
  refine ⟨hfits, (hgiven "é" 2 hlast).1, (hfound "ab" 1).mpr (.inr hfirst), ?_⟩
  refine Option.eq_none_iff_forall_ne_some.mpr fun id hid => ?_
  rcases (hfound "b" id).mp hid with ⟨hempty, -⟩ | hgave
  · exact absurd hempty (by decide)
  · exact absurd ((gave_iff hfits).mp hgave).1 (by decide)

end Xml.StringPool
