import Mathlib.Tactic.Simps.Basic
import Xml.Proofs.Bounds.Access

/-!
# Routines over a text

A routine looks at a text only by asking queries at its place, and has effects besides. It can be
carried out with byte offsets, where every access is checked (`Routine.run`), and with rests of the
text, where there is nothing to check (`Routine.read`). Both give the same (`Routine.run_cursorAt`):
a routine of which `read` is known to give a result never fails a check.
-/

namespace Xml.Bounds

open Text List

/-! ## Queries -/

/-- What can be asked at a place, with bytes and with characters; the answer is the same in both
ways. Some queries move on. -/
structure Query (α : Type) where
  run : Cursor → Checked (α × Cursor)
  read : List Char → α × List Char
  read_suffix : ∀ rest, (read rest).2 <:+ rest
  run_cursorAt : ∀ {text : String} {rest}, rest <:+ text.toList →
    run (cursorAt text rest) = some (Prod.map id (cursorAt text) (read rest))

namespace Query

@[simps]
def atEnd : Query Bool where
  run c := return (c.atEnd, c)
  read rest := (rest.isEmpty, rest)
  read_suffix _ := suffix_rfl
  run_cursorAt h := congrArg (fun b => some (b, _)) (atEnd_cursorAt h)

@[simps]
def sees (a : Char) : Query Bool where
  run c := return (Bounds.sees c a, c)
  read rest := (a.toNat < 0x80 && rest.head?.any (· == a), rest)
  read_suffix _ := suffix_rfl
  run_cursorAt h := congrArg (fun b => some (b, _)) (sees_cursorAt h a)

@[simps]
def seesName : Query Bool where
  run c := return (Bounds.seesName c, c)
  read rest := (rest.head?.any startsName, rest)
  read_suffix _ := suffix_rfl
  run_cursorAt h := congrArg (fun b => some (b, _)) (seesName_cursorAt h)

/-- What is left of the text. -/
@[simps]
def here : Query (List Char) where
  run c := return ((← sliceFrom c.text c.position).toList, c)
  read rest := (rest, rest)
  read_suffix _ := suffix_rfl
  run_cursorAt h := by simp [cursorAt, sliceFrom_offset h]

/-- Moves behind a mark that stands here. -/
@[simps]
def starts (mark : String) : Query Bool where
  run c := do
    let found ← startsWith c mark
    return (found, if found then c.advance mark.utf8ByteSize else c)
  read rest := (after? mark.toList rest).elim (false, rest) fun tail => (true, tail)
  read_suffix rest := by
    cases h : after? mark.toList rest with
    | none => exact suffix_rfl
    | some tail => exact after?_suffix h
  run_cursorAt {text rest} h := by
    rw [startsWith_cursorAt h]
    cases ha : after? mark.toList rest with
    | none =>
      rw [Bool.eq_false_iff.mpr fun hp =>
        not_prefix_of_after?_eq_none ha ( isPrefixOf_iff_prefix.mp hp)]
      rfl
    | some tail =>
      have heq := after?_eq ha
      rw [ isPrefixOf_iff_prefix.mpr ⟨tail, heq.symm⟩, ← byteSize_toList]
      simp [advance_of_eq h heq]

/-- Moves behind an ASCII character that stands here. -/
@[simps]
def passes (a : Char) : Query Bool where
  run c := return (Bounds.sees c a, if Bounds.sees c a then c.advance 1 else c)
  read rest := takeChar a rest
  read_suffix := takeChar_suffix a
  run_cursorAt {text rest} h := by
    rw [sees_cursorAt h]
    cases rest with
    | nil => simp [takeChar]
    | cons c rest =>
      by_cases hc : c = a
      · subst hc
        by_cases ha : c.toNat < 0x80
        · simp [ha, advance_cons ha h]
        · simp [ha]
      · simp [takeChar, hc]

@[simps]
def blanks : Query Bool where
  run c := return c.skipBlanks
  read rest := (startsBlank rest, skipBlanks rest)
  read_suffix := skipBlanks_suffix
  run_cursorAt h := congrArg some (skipBlanks_cursorAt h)

@[simps]
def name : Query (Option (List Char)) where
  run := readName
  read := takeName
  read_suffix rest := by
    rw [takeName]
    cases h : readName? rest with
    | none => exact suffix_rfl
    | some found => exact readName?_suffix h
  run_cursorAt := readName_cursorAt

@[simps]
def quoted : Query (Option (List Char)) where
  run := readQuoted
  read := readLiteral
  read_suffix := readLiteral_suffix
  run_cursorAt := readQuoted_cursorAt

@[simps]
def upTo (mark : String) : Query (Option (List Char)) where
  run := readUpTo mark
  read := takeUpTo mark.toList
  read_suffix rest := by
    rw [takeUpTo]
    cases h : breakOn mark.toList rest with
    | none => exact suffix_rfl
    | some found => exact breakOn_suffix h
  run_cursorAt h := readUpTo_cursorAt h mark

@[simps]
def text : Query (List Char) where
  run := readText
  read rest := (rest.takeWhile isText, rest.dropWhile isText)
  read_suffix _ := dropWhile_suffix _
  run_cursorAt := readText_cursorAt

/-- Moves behind the characters that pass a test, by a number of bytes for each. -/
@[simps]
def span (p : Char → Bool) (step : Char → Nat := Char.utf8Size)
    (hs : ∀ c, p c = true → step c = c.utf8Size := by simp) : Query (List Char) where
  run := readWhile p step
  read rest := (rest.takeWhile p, rest.dropWhile p)
  read_suffix _ := dropWhile_suffix _
  run_cursorAt := readWhile_cursorAt hs

end Query

/-! ## Routines -/

/-- A routine with effects in `m`. -/
inductive Routine (m : Type → Type) : Type → Type 1 where
  | done {α : Type} (a : α) : Routine m α
  | ask {α β : Type} (q : Query β) (next : β → Routine m α) : Routine m α
  | act {α β : Type} (effect : m β) (next : β → Routine m α) : Routine m α
  /-- Goes on with what another checked routine gives. -/
  | use {α β : Type} (result : Checked β) (next : β → Routine m α) : Routine m α
  /-- Looks ahead and comes back. -/
  | ahead {α β : Type} (inner : Routine m β) (next : β → Routine m α) : Routine m α
  /-- Looks through another text. -/
  | within {α β : Type} (text : String) (inner : Routine m β) (next : β → Routine m α) : Routine m α

namespace Routine

variable {m : Type → Type} {α β : Type}

/-- One routine after another. -/
def bind (r : Routine m α) (f : α → Routine m β) : Routine m β :=
  match r with
  | .done a => f a
  | .ask q next => .ask q fun b => (next b).bind f
  | .act effect next => .act effect fun b => (next b).bind f
  | .use result next => .use result fun b => (next b).bind f
  | .ahead inner next => .ahead inner fun b => (next b).bind f
  | .within text inner next => .within text inner fun b => (next b).bind f

instance : Monad (Routine m) where
  pure := .done
  bind := bind

def query (q : Query α) : Routine m α :=
  .ask q .done

def perform (effect : m α) : Routine m α :=
  .act effect .done

/-- Takes over what another checked routine gives. -/
def given (result : Checked α) : Routine m α :=
  .use result .done

def lookAhead (r : Routine m α) : Routine m α :=
  .ahead r .done

/-- Looks through another text from its beginning on. -/
def inText (text : List Char) (r : Routine m α) : Routine m α :=
  .within (String.ofList text) r .done

section Semantics

variable [Monad m]

/-- What a checked routine gives, among effects. -/
def check (result : Checked α) : OptionT m α :=
  OptionT.mk (pure result)

def run : {α : Type} → Routine m α → Cursor → OptionT m (α × Cursor)
  | _, .done a, c => pure (a, c)
  | _, .ask q next, c => check (q.run c) >>= fun x => (next x.1).run x.2
  | _, .act effect next, c => OptionT.lift effect >>= fun b => (next b).run c
  | _, .use result next, c => check result >>= fun b => (next b).run c
  | _, .ahead inner next, c => inner.run c >>= fun x => (next x.1).run c
  | _, .within text inner next, c => inner.run ⟨text, 0⟩ >>= fun x => (next x.1).run c

/-- Carries a routine out from a rest of the text on. -/
def read : {α : Type} → Routine m α → List Char → OptionT m (α × List Char)
  | _, .done a, rest => pure (a, rest)
  | _, .ask q next, rest => (next (q.read rest).1).read (q.read rest).2
  | _, .act effect next, rest => OptionT.lift effect >>= fun b => (next b).read rest
  | _, .use result next, rest => check result >>= fun b => (next b).read rest
  | _, .ahead inner next, rest => inner.read rest >>= fun x => (next x.1).read rest
  | _, .within text inner next, rest => inner.read text.toList >>= fun x => (next x.1).read rest

theorem check_some (a : α) : check (some a) = (pure a : OptionT m α) := rfl

@[simp] theorem run_pure (a : α) (c : Cursor) : (pure a : Routine m α).run c = pure (a, c) := rfl

@[simp] theorem read_pure (a : α) (rest : List Char) :
    (pure a : Routine m α).read rest = pure (a, rest) := rfl

@[simp] theorem run_query_bind (q : Query α) (f : α → Routine m β) (c : Cursor) :
    (query q >>= f).run c = check (q.run c) >>= fun x => (f x.1).run x.2 := rfl

@[simp] theorem run_lookAhead_bind (r : Routine m α) (f : α → Routine m β) (c : Cursor) :
    (lookAhead r >>= f).run c = r.run c >>= fun x => (f x.1).run c := rfl

-- Tried first: what follows is looked at only where the answer is known.
@[simp↓] theorem read_query_bind (q : Query α) (f : α → Routine m β) (rest : List Char) :
    (query q >>= f).read rest = (f (q.read rest).1).read (q.read rest).2 := rfl

@[simp] theorem read_query (q : Query α) (rest : List Char) :
    (query q : Routine m α).read rest = pure (q.read rest) := rfl

variable [LawfulMonad m]

/-- **Whatever a routine does, no access fails a check**, and the bytes give what the characters
give. -/
theorem run_cursorAt {text : String} {rest : List Char} (r : Routine m α)
    (h : rest <:+ text.toList) :
    r.run (cursorAt text rest) = Prod.map id (cursorAt text) <$> r.read rest := by
  induction r generalizing text rest with
  | done a => simp [run, read]
  | ask q next ih =>
    rw [run, read, q.run_cursorAt h, check_some, pure_bind]
    exact ih _ ((q.read_suffix rest).trans h)
  | act effect next ih => simp only [run, read, ih _ h, map_bind]
  | use result next ih => simp only [run, read, ih _ h, map_bind]
  | ahead inner next ihInner ih =>
    simp only [run, read, ihInner h, ih _ h, map_bind, bind_map_left, Prod.map_fst, id_eq]
  | within inside inner next ihInner ih =>
    have hinner := ihInner (suffix_rfl : inside.toList <:+ inside.toList)
    rw [cursorAt_toList] at hinner
    simp only [run, read, hinner, ih _ h, map_bind, bind_map_left, Prod.map_fst, id_eq]

@[simp] theorem run_query (q : Query α) (c : Cursor) :
    (query q : Routine m α).run c = check (q.run c) :=
  bind_pure (check (q.run c))

@[simp] theorem read_bind (r : Routine m α) (f : α → Routine m β) (rest : List Char) :
    (r >>= f).read rest = r.read rest >>= fun x => (f x.1).read x.2 := by
  show (r.bind f).read rest = _
  induction r generalizing rest with
  | done a => simp [bind, read]
  | ask q next ih => exact ih _ f _
  | act effect next ih => simp only [bind, read, ih, bind_assoc]
  | use result next ih => simp only [bind, read, ih, bind_assoc]
  | ahead inner next _ ih => simp only [bind, read, ih, bind_assoc]
  | within text inner next _ ih => simp only [bind, read, ih, bind_assoc]

@[simp] theorem read_given_some (a : α) (rest : List Char) :
    (given (some a) : Routine m α).read rest = pure (a, rest) :=
  pure_bind _ _

@[simp] theorem read_perform (effect : m α) (rest : List Char) :
    (perform effect).read rest = (fun a => (a, rest)) <$> OptionT.lift effect :=
  bind_pure_comp _ _

@[simp] theorem read_lookAhead (r : Routine m α) (rest : List Char) :
    (lookAhead r).read rest = (fun x => (x.1, rest)) <$> r.read rest :=
  bind_pure_comp _ _

@[simp] theorem read_inText (text : List Char) (r : Routine m α) (rest : List Char) :
    (inText text r).read rest = (fun x => (x.1, rest)) <$> r.read text := by
  rw [inText, read, String.toList_ofList]
  exact bind_pure_comp _ _

end Semantics

/-- What a routine without effects gives if all its accesses are in the text. -/
def checked (r : Routine Id α) (c : Cursor) : Checked (α × Cursor) :=
  Id.run (r.run c).run

/-- What a routine without effects gives for a whole text. -/
def alone (r : Routine Id α) (text : String) : Checked α :=
  Prod.fst <$> r.checked ⟨text, 0⟩

theorem checked_of_read {text : String} {rest tail : List Char} {r : Routine Id α} {a : α}
    (h : rest <:+ text.toList) (hr : r.read rest = pure (a, tail)) :
    r.checked (cursorAt text rest) = some (a, cursorAt text tail) := by
  rw [checked, run_cursorAt r h, hr]
  rfl

theorem alone_of_read {text : String} {r : Routine Id α} {a : α}
    (hr : Prod.fst <$> r.read text.toList = pure a) : r.alone text = some a := by
  rw [alone, checked, ← cursorAt_toList, run_cursorAt r suffix_rfl]
  refine Eq.trans ?_ hr
  cases r.read text.toList <;> rfl

end Routine

end Xml.Bounds
