import Xml.Proofs.XPath.Lexing

/-!
# Written expressions are read again

The parser goes down from level to level and comes back in loops, one for each level, that take in
what goes on with the expression read so far. So an operand to the left is never read by itself. What
is proved of an expression at a level (`Reads`) is that behind its tokens the loop of that level is
where it would be with the expression in hand. Each kind of expression passes this on from its parts
(`Writable.reads`), and where nothing goes on the loop ends with the expression (`Stops.goesOn`).

With the tokens being read again as well, `parse_text` follows: the text of an expression is parsed
to the expression.
-/

namespace Xml.XPath

open List

variable {predicates : List Expr} {m : Nat} {op : BinaryOp}

variable {α : Type} {e e' left right base operand : Expr} {es : List Expr} {t : Token}
  {ts ts' middle rest : List Token} {n : Nat}

/-! ## The rules of the grammar

What the parser makes of tokens, as one rule for each way to read them. -/

/-- The value was read, and the tokens `rest` are left. -/
def Yields {p : List Token → Prop} (result : Except Fault (α × { rest : List Token // p rest }))
    (value : α) (rest : List Token) : Prop :=
  ∃ h, result = .ok (value, ⟨rest, h⟩)

theorem advance_none (rest : List Token) : advance none rest = .ok (.all rest) := by
  rw [advance, ite_self]

theorem yields_binaryExpr (h : n < levels) (hl : Yields (binaryExpr none (n + 1) ts) left middle)
    (ht : Yields (binaryTail none n left middle) e rest) :
    Yields (binaryExpr none n ts) e rest := by
  obtain ⟨hm, hl⟩ := hl
  obtain ⟨hr, ht⟩ := ht
  refine ⟨Nat.lt_of_le_of_lt hr hm, ?_⟩
  rw [binaryExpr, dif_pos h, hl]
  simp only [bind, Except.bind, ht]
  rfl

theorem yields_binaryTail (h : operatorAt? n t = some op)
    (hr : Yields (binaryExpr none (n + 1) ts) right middle)
    (ht : Yields (binaryTail none n (.binary op left right) middle) e rest) :
    Yields (binaryTail none n left (t :: ts)) e rest := by
  obtain ⟨hm, hr⟩ := hr
  obtain ⟨hr', ht⟩ := ht
  refine ⟨by simp only [length_cons]; omega, ?_⟩
  rw [binaryTail, h]
  simp only [advance_none, bind, Except.bind, AtMost.all, hr, ht]
  rfl

theorem yields_negate (h : Yields (unaryExpr none ts) e rest) :
    Yields (unaryExpr none (.minus :: ts)) (.negate e) rest := by
  obtain ⟨hr, h⟩ := h
  refine ⟨by simp only [length_cons]; omega, ?_⟩
  rw [unaryExpr]
  simp only [advance_none, bind, Except.bind, AtMost.all, h]
  rfl

theorem yields_unaryExpr (hm : t ≠ .minus) (hl : Yields (pathExpr none (t :: ts)) left middle)
    (ht : Yields (unionTail none left middle) e rest) :
    Yields (unaryExpr none (t :: ts)) e rest := by
  obtain ⟨hm, hl⟩ := hl
  obtain ⟨hr, ht⟩ := ht
  refine ⟨Nat.lt_of_le_of_lt hr hm, ?_⟩
  rw [unaryExpr]
  · simp only [bind, Except.bind, hl, ht]
    rfl
  · rintro rest ⟨rfl, -⟩
    contradiction

theorem yields_unionTail (hr : Yields (pathExpr none ts) right middle)
    (ht : Yields (unionTail none (.union left right) middle) e rest) :
    Yields (unionTail none left (.pipe :: ts)) e rest := by
  obtain ⟨hm, hr⟩ := hr
  obtain ⟨hr', ht⟩ := ht
  refine ⟨by simp only [length_cons]; omega, ?_⟩
  rw [unionTail]
  simp only [advance_none, bind, Except.bind, AtMost.all, hr, ht]
  rfl

theorem yields_absolute (hstart : t.startsStep = true)
    (hs : Yields (step none .root (t :: ts)) base middle)
    (ht : Yields (pathTail none base middle) e rest) :
    Yields (pathExpr none (.slash :: t :: ts)) e rest := by
  obtain ⟨hm, hs⟩ := hs
  obtain ⟨hr, ht⟩ := ht
  refine ⟨by simp only [length_cons] at hm ⊢; omega, ?_⟩
  rw [pathExpr]
  simp only [advance_none, bind, Except.bind, AtMost.all, head?_cons, Option.any_some, hstart,
    if_true, hs, ht]
  rfl

theorem yields_top (ht : t.startsStep = false) :
    Yields (pathExpr none (.slash :: t :: ts)) .root (t :: ts) := by
  refine ⟨by simp, ?_⟩
  rw [pathExpr]
  simp only [advance_none, bind, Except.bind, AtMost.all, head?_cons, Option.any_some, ht]
  rfl

theorem yields_relative (hstart : t.startsStep = true)
    (hs : Yields (step none .context (t :: ts)) base middle)
    (ht : Yields (pathTail none base middle) e rest) : Yields (pathExpr none (t :: ts)) e rest := by
  obtain ⟨hm, hs⟩ := hs
  obtain ⟨hr, ht⟩ := ht
  refine ⟨Nat.lt_of_le_of_lt hr hm, ?_⟩
  rw [pathExpr]
  · simp only [head?_cons, Option.any_some, hstart, if_true, bind, Except.bind, hs, ht]
    rfl
  · rintro rest ⟨rfl, -⟩
    cases hstart
  · rintro rest ⟨rfl, -⟩
    cases hstart

def Token.startsPrimary : Token → Bool
  | .number _ | .string _ | .leftParen | .function _ => true
  | _ => false

theorem yields_pathExpr (hstart : t.startsPrimary = true)
    (hf : Yields (filterExpr none (t :: ts)) base middle)
    (ht : Yields (pathTail none base middle) e rest) : Yields (pathExpr none (t :: ts)) e rest := by
  obtain ⟨hm, hf⟩ := hf
  obtain ⟨hr, ht⟩ := ht
  have hstep : t.startsStep = false := by
    cases t <;> simp [Token.startsPrimary, Token.startsStep] at hstart ⊢
  refine ⟨Nat.lt_of_le_of_lt hr hm, ?_⟩
  rw [pathExpr]
  · simp only [head?_cons, Option.any_some, hstep, Bool.false_eq_true, if_false, bind,
      Except.bind, hf, ht]
    rfl
  · rintro rest ⟨rfl, -⟩
    cases hstart
  · rintro rest ⟨rfl, -⟩
    cases hstart

theorem yields_pathTail (hs : Yields (step none base ts) e middle)
    (ht : Yields (pathTail none e middle) e' rest) :
    Yields (pathTail none base (.slash :: ts)) e' rest := by
  obtain ⟨hm, hs⟩ := hs
  obtain ⟨hr, ht⟩ := ht
  refine ⟨by simp only [length_cons]; omega, ?_⟩
  rw [pathTail]
  simp only [advance_none, bind, Except.bind, AtMost.all, hs, ht]
  rfl

theorem yields_filterExpr (hp : Yields (primaryExpr none ts) base middle)
    (ht : Yields (filterTail none base middle) e rest) : Yields (filterExpr none ts) e rest := by
  obtain ⟨hm, hp⟩ := hp
  obtain ⟨hr, ht⟩ := ht
  refine ⟨Nat.lt_of_le_of_lt hr hm, ?_⟩
  rw [filterExpr]
  simp only [bind, Except.bind, hp, ht]
  rfl

theorem yields_predicate (h : Yields (binaryExpr none 0 ts) e (.rightBracket :: rest)) :
    Yields (predicate none ts) e rest := by
  obtain ⟨hm, h⟩ := h
  refine ⟨by simp only [length_cons] at hm; omega, ?_⟩
  rw [predicate]
  simp only [advance_none, bind, Except.bind, AtMost.all, h, expect, if_true]
  rfl

theorem yields_filterTail (hp : Yields (predicate none ts) e middle)
    (ht : Yields (filterTail none (.filter base e) middle) e' rest) :
    Yields (filterTail none base (.leftBracket :: ts)) e' rest := by
  obtain ⟨hm, hp⟩ := hp
  obtain ⟨hr, ht⟩ := ht
  refine ⟨by simp only [length_cons]; omega, ?_⟩
  rw [filterTail]
  simp only [bind, Except.bind, hp, ht]
  rfl

theorem yields_predicateList (hp : Yields (predicate none ts) e middle)
    (ht : Yields (predicateList none middle) es rest) :
    Yields (predicateList none (.leftBracket :: ts)) (e :: es) rest := by
  obtain ⟨hm, hp⟩ := hp
  obtain ⟨hr, ht⟩ := ht
  refine ⟨by simp only [length_cons]; omega, ?_⟩
  rw [predicateList]
  simp only [bind, Except.bind, hp, ht]
  rfl

theorem yields_parenthesized (h : Yields (binaryExpr none 0 ts) e (.rightParen :: rest)) :
    Yields (primaryExpr none (.leftParen :: ts)) e rest := by
  obtain ⟨hm, h⟩ := h
  refine ⟨by simp only [length_cons] at hm ⊢; omega, ?_⟩
  rw [primaryExpr]
  simp only [advance_none, bind, Except.bind, AtMost.all, h, closeParen, expect, if_true]
  rfl

theorem yields_call {name : String} (h : Yields (argumentList none ts) es (.rightParen :: rest)) :
    Yields (primaryExpr none (.function name :: .leftParen :: ts)) (.call name es) rest := by
  obtain ⟨hm, h⟩ := h
  refine ⟨by simp only [length_cons] at hm ⊢; omega, ?_⟩
  rw [primaryExpr]
  simp only [advance_none, bind, Except.bind, pure, Except.pure, AtMost.all, openParen, closeParen,
    expect, if_true, h]

theorem yields_argumentList (ht : t ≠ .rightParen)
    (he : Yields (binaryExpr none 0 (t :: ts)) e middle)
    (hes : Yields (argumentTail none middle) es rest) :
    Yields (argumentList none (t :: ts)) (e :: es) rest := by
  obtain ⟨hm, he⟩ := he
  obtain ⟨hr, hes⟩ := hes
  refine ⟨by omega, ?_⟩
  rw [argumentList]
  · simp only [bind, Except.bind, he, hes]
    rfl
  · rintro rest ⟨rfl, -⟩
    contradiction

theorem yields_argumentTail (he : Yields (binaryExpr none 0 ts) e middle)
    (hes : Yields (argumentTail none middle) es rest) :
    Yields (argumentTail none (.comma :: ts)) (e :: es) rest := by
  obtain ⟨hm, he⟩ := he
  obtain ⟨hr, hes⟩ := hes
  refine ⟨by simp only [length_cons]; omega, ?_⟩
  rw [argumentTail]
  simp only [advance_none, bind, Except.bind, AtMost.all, he, hes]
  rfl

theorem yields_single (value : α) (t : Token) (rest : List Token) :
    Yields (single none value t rest) value rest := by
  refine ⟨by simp, ?_⟩
  rw [single, advance_none]
  rfl

theorem yields_number (value : Float) (rest : List Token) :
    Yields (primaryExpr none (.number value :: rest)) (.number value) rest := by
  rw [primaryExpr]
  exact yields_single _ _ rest

theorem yields_string (text : String) (rest : List Token) :
    Yields (primaryExpr none (.string text :: rest)) (.string text) rest := by
  rw [primaryExpr]
  exact yields_single _ _ rest

theorem yields_nodeType {type : NodeType} {target : Option String}
    (h : Yields (instructionTarget none type ts) target (.rightParen :: rest)) :
    Yields (nodeTest none (.nodeType type :: .leftParen :: ts)) (type.test target) rest := by
  obtain ⟨hm, h⟩ := h
  refine ⟨by simp only [length_cons] at hm ⊢; omega, ?_⟩
  simp only [nodeTest, advance_none, bind, Except.bind, pure, Except.pure, AtMost.all, openParen,
    closeParen, expect, if_true, h]

variable {numeral : Float → List Char} (axis : Axis) (test : NodeTest)

theorem yields_nodeTest (rest : List Token) :
    Yields (nodeTest none (test.tokens ++ rest)) test rest := by
  cases test with
  | any => exact yields_single _ _ rest
  | name localPart => exact yields_single _ _ rest
  | qname qualifier localPart => exact yields_single _ _ rest
  | anyIn qualifier => exact yields_single _ _ rest
  | node => exact yields_nodeType ⟨Nat.le_refl _, rfl⟩
  | text => exact yields_nodeType ⟨Nat.le_refl _, rfl⟩
  | comment => exact yields_nodeType ⟨Nat.le_refl _, rfl⟩
  | instruction target =>
    cases target with
    | none => exact yields_nodeType ⟨Nat.le_refl _, rfl⟩
    | some target =>
      refine yields_nodeType ⟨by simp, ?_⟩
      simp only [instructionTarget, advance_none]
      rfl

theorem Axis.ofName?_name : Axis.ofName? axis.name = some axis := by
  cases axis <;> rfl

theorem yields_step {test : NodeTest} (ht : Yields (nodeTest none ts) test middle)
    (hp : Yields (predicateList none middle) es rest) :
    Yields (step none base (.axis axis.name :: .doubleColon :: ts)) (.path base axis test es)
      rest := by
  obtain ⟨hm, ht⟩ := ht
  obtain ⟨hr, hp⟩ := hp
  refine ⟨by simp only [length_cons]; omega, ?_⟩
  rw [step]
  · simp only [stepAxis, axis.ofName?_name, advance_none, bind, Except.bind, pure, Except.pure,
      AtMost.all, expect, if_true, ht, hp]
  · rintro rest ⟨⟩
  · rintro rest ⟨⟩

/-! ## Where reading stops -/

/-- The level of the expression that goes on with a token, if one does. -/
def Token.joins? : Token → Option Nat
  | .or => some 0
  | .and => some 1
  | .eq | .notEq => some 2
  | .lt | .ltEq | .gt | .gtEq => some 3
  | .plus | .minus => some 4
  | .multiply | .div | .mod => some 5
  | .pipe => some 7
  | .slash | .doubleSlash => some 8
  | .leftBracket => some 9
  | _ => none

/-- No expression of the level, nor one that binds closer, goes on with the tokens. -/
def Stops (n : Nat) (rest : List Token) : Prop :=
  ∀ t, rest.head? = some t → ∀ k, t.joins? = some k → k < n

theorem Stops.mono (h : Stops n rest) (hle : n ≤ m) : Stops m rest :=
  fun t ht k hk => Nat.lt_of_lt_of_le (h t ht k hk) hle

/-- Reading goes on with what is read already. -/
def GoesOn (n : Nat) (e : Expr) (ts : List Token) (e' : Expr) (rest : List Token) : Prop :=
  if n < levels then Yields (binaryTail none n e ts) e' rest
  else if n = 6 then e' = e ∧ rest = ts
  else if n = 7 then Yields (unionTail none e ts) e' rest
  else if n = 8 then Yields (pathTail none e ts) e' rest
  else Yields (filterTail none e ts) e' rest

/-- An expression of at least the level is read. -/
def Parses (n : Nat) (ts : List Token) (e : Expr) (rest : List Token) : Prop :=
  if n < levels then Yields (binaryExpr none n ts) e rest
  else if n = 6 then Yields (unaryExpr none ts) e rest
  else if n = 7 then
    ∃ left middle, Yields (pathExpr none ts) left middle ∧ Yields (unionTail none left middle) e rest
  else if n = 8 then Yields (pathExpr none ts) e rest
  else Yields (filterExpr none ts) e rest

theorem operatorAt?_joins (h : operatorAt? n t = some op) : t.joins? = some n := by
  unfold operatorAt? at h
  split at h
  case h_14 => cases h
  all_goals rfl

/-- **Reading stops where nothing goes on with what is read.** -/
theorem Stops.goesOn (h : Stops n rest) (hn : n ≤ 9) (e : Expr) : GoesOn n e rest e rest := by
  have hnot : ∀ t more, rest = t :: more → t.joins? ≠ some n := by
    rintro t more rfl hjoins
    exact Nat.lt_irrefl n (h t rfl n hjoins)
  have hcases : n < levels ∨ n = 6 ∨ n = 7 ∨ n = 8 ∨ n = 9 := by rw [levels]; omega
  rcases hcases with hlt | rfl | rfl | rfl | rfl
  · rw [GoesOn, if_pos hlt]
    refine ⟨Nat.le_refl _, ?_⟩
    cases rest with
    | nil => rw [binaryTail]; rfl
    | cons t more =>
      have hop : operatorAt? n t = none := by
        cases hop : operatorAt? n t with
        | none => rfl
        | some op => exact absurd (operatorAt?_joins hop) (hnot t more rfl)
      rw [binaryTail, hop]
      rfl
  · exact ⟨rfl, rfl⟩
  · refine ⟨Nat.le_refl _, ?_⟩
    rw [unionTail]
    · rfl
    · rintro more rfl
      exact hnot _ _ rfl rfl
  · refine ⟨Nat.le_refl _, ?_⟩
    rw [pathTail]
    · rfl
    · rintro more rfl
      exact hnot _ _ rfl rfl
    · rintro more rfl
      exact hnot _ _ rfl rfl
  · refine ⟨Nat.le_refl _, ?_⟩
    rw [filterTail]
    · rfl
    · rintro more rfl
      exact hnot _ _ rfl rfl

/-! ## From level to level -/

/-- The token can begin an expression of the level. -/
def Token.begins (n : Nat) : Token → Prop
  | .number _ | .string _ | .leftParen | .function _ => True
  | .slash | .axis _ => n ≤ 8
  | .minus => n ≤ 6
  | _ => False

/-- The tokens begin as an expression of the level does. -/
def Begins (n : Nat) (ts : List Token) : Prop :=
  ∃ t more, ts = t :: more ∧ t.begins n

theorem Begins.mono (h : Begins n ts) (hle : m ≤ n) : Begins m ts := by
  obtain ⟨t, more, rfl, ht⟩ := h
  refine ⟨t, more, rfl, ?_⟩
  cases t with
  | slash => exact Nat.le_trans hle ht
  | axis name => exact Nat.le_trans hle ht
  | minus => exact Nat.le_trans hle ht
  | _ => exact ht

theorem Begins.append (h : Begins n ts) (rest : List Token) : Begins n (ts ++ rest) := by
  obtain ⟨t, more, rfl, ht⟩ := h
  exact ⟨t, more ++ rest, rfl, ht⟩

theorem Begins.enclose (h : Begins e.level ts) (n : Nat) : Begins n (e.enclose n ts) := by
  rw [Expr.enclose]
  split
  · exact ⟨_, _, rfl, trivial⟩
  · next hle => exact h.mono (Nat.le_of_not_lt hle)

/-- Below the levels of the operators stands the minus sign. -/
theorem Parses.binaryExpr (h : Parses n ts e rest) (hn : n ≤ levels) :
    Yields (binaryExpr none n ts) e rest := by
  obtain hlt | rfl := Nat.lt_or_eq_of_le hn
  · rwa [Parses, if_pos hlt] at h
  · rw [XPath.binaryExpr, dif_neg (Nat.lt_irrefl _)]
    exact h

/-- **An expression of a level** is one that binds closer, with what goes on with it. -/
theorem Parses.descend (hn : n < 9) (hb : Begins (n + 1) ts) (h : Parses (n + 1) ts e middle)
    (hg : GoesOn n e middle e' rest) : Parses n ts e' rest := by
  obtain ⟨t, more, rfl, ht⟩ := hb
  have hcases : n < levels ∨ n = 6 ∨ n = 7 ∨ n = 8 := by rw [levels]; omega
  rcases hcases with hlt | rfl | rfl | rfl
  · rw [GoesOn, if_pos hlt] at hg
    rw [Parses, if_pos hlt]
    exact yields_binaryExpr hlt (h.binaryExpr hlt) hg
  · obtain ⟨left, middle', hleft, htail⟩ := h
    obtain ⟨rfl, rfl⟩ := hg
    refine yields_unaryExpr ?_ hleft htail
    rintro rfl
    exact absurd ht (by simp [Token.begins])
  · exact ⟨e, middle, h, hg⟩
  · refine yields_pathExpr ?_ h hg
    cases t <;> simp [Token.begins, Token.startsPrimary] at ht ⊢

theorem Parses.mono (h : Parses n ts e rest) (hn : n ≤ 9) (hb : Begins n ts) (hstop : Stops m rest)
    (hle : m ≤ n) : Parses m ts e rest := by
  induction hle using Nat.decreasingInduction with
  | of_succ k hk ih =>
    have hk9 : k < 9 := Nat.lt_of_lt_of_le hk hn
    exact (ih (hstop.mono (Nat.le_succ k))).descend hk9 (hb.mono hk) (hstop.goesOn (Nat.le_of_lt hk9) e)
  | self => exact h

/-- The tokens are those of an expression of the level: behind them reading is where it would be if
the expression had just been read. -/
def Reads (n : Nat) (e : Expr) (ts : List Token) : Prop :=
  ∀ middle e' rest, Stops (n + 1) middle → GoesOn n e middle e' rest →
    Parses n (ts ++ middle) e' rest

theorem Reads.parses (h : Reads n e ts) (hn : n ≤ 9) (hstop : Stops n rest) :
    Parses n (ts ++ rest) e rest :=
  h rest e rest (hstop.mono (Nat.le_succ n)) (hstop.goesOn hn e)

theorem Reads.mono (h : Reads n e ts) (hn : n ≤ 9) (hb : Begins n ts) (hle : m ≤ n) :
    Reads m e ts := by
  induction hle using Nat.decreasingInduction with
  | of_succ k hk ih =>
    intro middle e' rest hstop hg
    have hk9 : k < 9 := Nat.lt_of_lt_of_le hk hn
    exact (ih.parses hk9 hstop).descend hk9 ((hb.mono hk).append middle) hg
  | self => exact h

/-! ## One rule for each kind of expression -/

theorem reads_primary (h : ∀ rest, Yields (primaryExpr none (ts ++ rest)) e rest) :
    Reads 9 e ts :=
  fun middle _ _ _ hg => yields_filterExpr (h middle) hg

theorem Stops.close (ht : t.joins? = none) (rest : List Token) : Stops 0 (t :: rest) := by
  rintro _ ⟨⟩ k hk
  cases ht.symm.trans hk

theorem Reads.parenthesized (h : Reads 0 e ts) : Reads 9 e (parenthesized ts) := by
  refine reads_primary fun rest => ?_
  rw [XPath.parenthesized, cons_append, cons_append, append_assoc]
  exact yields_parenthesized (h.parses (by decide) (Stops.close rfl rest))

theorem level_le (e : Expr) : e.level ≤ 9 := by
  cases e with
  | binary op left right => cases op <;> simp [Expr.level, BinaryOp.level]
  | _ => simp [Expr.level]

/-- An expression is read at every level once it is read at its own. -/
theorem Reads.enclose (h : Reads e.level e ts) (hb : Begins e.level ts) (hn : n ≤ 9) :
    Reads n e (e.enclose n ts) := by
  rw [Expr.enclose]
  split
  · have hopen : Begins 9 (XPath.parenthesized ts) := ⟨_, _, rfl, trivial⟩
    exact (h.mono (level_le e) hb (Nat.zero_le _)).parenthesized.mono (Nat.le_refl _) hopen hn
  · next hle => exact h.mono (level_le e) hb (Nat.le_of_not_lt hle)

/-- The path without a step is read up to a token that no step begins with. -/
theorem reads_root : Reads 9 .root (parenthesized [.slash]) := by
  refine reads_primary fun rest => ?_
  have htop : Parses 8 (.slash :: .rightParen :: rest) .root (.rightParen :: rest) := yields_top rfl
  have hbegins : Begins 8 (.slash :: .rightParen :: rest) := ⟨_, _, rfl, Nat.le_refl 8⟩
  exact yields_parenthesized
    (htop.mono (by decide) hbegins (Stops.close rfl rest) (Nat.zero_le _))

theorem operatorAt?_token (op : BinaryOp) : operatorAt? op.level op.token = some op := by
  cases op <;> rfl

theorem Reads.binary (hl : Reads op.level left ts) (hr : Reads (op.level + 1) right ts') :
    Reads op.level (.binary op left right) (ts ++ op.token :: ts') := by
  intro middle e' rest hstop hg
  have hlevel : op.level < levels := by cases op <;> decide
  have hop := operatorAt?_token op
  have hright : Parses (op.level + 1) (ts' ++ middle) right middle :=
    hr.parses (Nat.le_trans hlevel (by decide)) hstop
  rw [append_assoc, cons_append]
  refine hl _ e' rest ?_ ?_
  · rintro _ ⟨⟩ k hk
    cases (operatorAt?_joins hop).symm.trans hk
    exact Nat.lt_succ_self _
  · rw [GoesOn, if_pos hlevel] at hg ⊢
    exact yields_binaryTail hop (hright.binaryExpr hlevel) hg

theorem Reads.negate (h : Reads 6 e ts) : Reads 6 (.negate e) (.minus :: ts) := by
  rintro middle e' rest hstop ⟨rfl, rfl⟩
  exact yields_negate (h rest e rest hstop ⟨rfl, rfl⟩)

theorem Reads.union (hl : Reads 7 left ts) (hr : Reads 8 right ts') :
    Reads 7 (.union left right) (ts ++ .pipe :: ts') := by
  intro middle e' rest hstop hg
  have hright : Yields (pathExpr none (ts' ++ middle)) right middle := hr.parses (by decide) hstop
  rw [append_assoc, cons_append]
  refine hl _ e' rest ?_ (yields_unionTail hright hg)
  rintro _ ⟨⟩ k ⟨⟩
  decide

theorem yields_predicates (h : ∀ e ∈ predicates, Reads 0 e e.tokens) (hstop : Stops 9 rest) :
    Yields (predicateList none (predicateTokens predicates ++ rest)) predicates rest := by
  induction predicates with
  | nil =>
    refine ⟨Nat.le_refl _, ?_⟩
    show predicateList none rest = _
    rw [predicateList]
    · rfl
    · rintro more rfl
      exact Nat.lt_irrefl 9 (hstop _ rfl 9 rfl)
  | cons e predicates ih =>
    obtain ⟨hfirst, hothers⟩ := forall_mem_cons.mp h
    rw [predicateTokens, cons_append, cons_append, append_assoc, cons_append]
    refine yields_predicateList (yields_predicate ?_) (ih hothers)
    exact hfirst.parses (by decide) (Stops.close rfl _)

theorem yields_stepTokens (h : ∀ e ∈ predicates, Reads 0 e e.tokens) (hstop : Stops 9 rest) :
    Yields (step none base (stepTokens axis test predicates ++ rest))
      (.path base axis test predicates) rest := by
  rw [stepTokens, cons_append, cons_append, cons_append, cons_append,
    append_assoc]
  exact yields_step axis (yields_nodeTest test _) (yields_predicates h hstop)

theorem reads_relative (h : ∀ e ∈ predicates, Reads 0 e e.tokens) :
    Reads 8 (.path .context axis test predicates) (stepTokens axis test predicates) :=
  fun _ _ _ hstop hg => yields_relative rfl (yields_stepTokens axis test h hstop) hg

theorem reads_absolute (h : ∀ e ∈ predicates, Reads 0 e e.tokens) :
    Reads 8 (.path .root axis test predicates) (.slash :: stepTokens axis test predicates) :=
  fun _ _ _ hstop hg => yields_absolute rfl (yields_stepTokens axis test h hstop) hg

theorem Reads.path (hb : Reads 8 base ts) (axis : Axis) (test : NodeTest)
    (h : ∀ e ∈ predicates, Reads 0 e e.tokens) :
    Reads 8 (.path base axis test predicates)
      (ts ++ [.slash] ++ stepTokens axis test predicates) := by
  intro middle e' rest hstop hg
  rw [append_assoc, append_assoc, singleton_append]
  refine hb _ e' rest ?_ (yields_pathTail (yields_stepTokens axis test h hstop) hg)
  rintro _ ⟨⟩ k ⟨⟩
  decide

theorem Reads.filter (hb : Reads 9 base ts) (hp : Reads 0 e ts') :
    Reads 9 (.filter base e) (ts ++ .leftBracket :: ts' ++ [.rightBracket]) := by
  intro middle e' rest _ hg
  have hinside : Yields (predicate none (ts' ++ .rightBracket :: middle)) e middle :=
    yields_predicate (hp.parses (by decide) (Stops.close rfl _))
  rw [append_assoc, append_assoc, cons_append]
  refine hb _ e' rest ?_ (yields_filterTail hinside hg)
  rintro _ ⟨⟩ k ⟨⟩
  decide

theorem yields_moreArguments {arguments : List Expr} (h : ∀ e ∈ arguments, Reads 0 e e.tokens)
    (rest : List Token) :
    Yields (argumentTail none
      (arguments.flatMap (fun e => .comma :: e.tokens) ++ .rightParen :: rest)) arguments
      (.rightParen :: rest) := by
  induction arguments with
  | nil =>
    refine ⟨Nat.le_refl _, ?_⟩
    show argumentTail none (.rightParen :: rest) = _
    rw [argumentTail]
    · rfl
    · rintro more ⟨⟩
  | cons e arguments ih =>
    obtain ⟨hfirst, hothers⟩ := forall_mem_cons.mp h
    rw [flatMap_cons, cons_append, cons_append, append_assoc]
    refine yields_argumentTail (hfirst.parses (by decide) ?_) (ih hothers)
    cases arguments <;> exact Stops.close rfl _

theorem yields_arguments {arguments : List Expr} (h : ∀ e ∈ arguments, Reads 0 e e.tokens)
    (hb : ∀ e ∈ arguments, Begins 0 e.tokens) (rest : List Token) :
    Yields (argumentList none (argumentTokens arguments ++ .rightParen :: rest)) arguments
      (.rightParen :: rest) := by
  cases arguments with
  | nil =>
    refine ⟨Nat.le_refl _, ?_⟩
    show argumentList none (.rightParen :: rest) = _
    rw [argumentList]
    rfl
  | cons e arguments =>
    obtain ⟨hfirst, hothers⟩ := forall_mem_cons.mp h
    obtain ⟨t, more, htokens, ht⟩ := hb e mem_cons_self
    have hread : Parses 0 (e.tokens ++ (arguments.flatMap (fun e => .comma :: e.tokens) ++
        .rightParen :: rest)) e (arguments.flatMap (fun e => .comma :: e.tokens) ++
        .rightParen :: rest) := by
      refine hfirst.parses (by decide) ?_
      cases arguments <;> exact Stops.close rfl _
    rw [argumentTokens_cons, append_assoc]
    rw [htokens] at hread ⊢
    refine yields_argumentList ?_ hread (yields_moreArguments hothers rest)
    rintro rfl
    exact ht

/-- **Written expressions are read**, each at its own level. -/
theorem Writable.reads (h : Writable numeral e) :
    Reads e.level e e.tokens ∧ Begins e.level e.tokens := by
  have hlower {e : Expr} (h : Reads e.level e e.tokens ∧ Begins e.level e.tokens) :
      Reads 0 e e.tokens := h.1.mono (level_le e) h.2 (Nat.zero_le _)
  induction h with
  | root => exact ⟨reads_root, _, _, rfl, trivial⟩
  | @number value decimal reads => exact ⟨reads_primary (yields_number value), _, _, rfl, trivial⟩
  | @string text quotable => exact ⟨reads_primary (yields_string text), _, _, rfl, trivial⟩
  | @call function arguments known parts ih =>
    refine ⟨reads_primary fun rest => ?_, _, _, rfl, trivial⟩
    rw [Expr.tokens, cons_append, cons_append, cons_append, cons_append,
      append_assoc]
    exact yields_call (yields_arguments (fun e he => hlower (ih e he))
      (fun e he => (ih e he).2.mono (Nat.zero_le _)) rest)
  | @filter base predicate first second ihbase ihpredicate =>
    have hb := ihbase.2.enclose 9
    refine ⟨(ihbase.1.enclose ihbase.2 (Nat.le_refl 9)).filter (hlower ihpredicate), ?_⟩
    rw [Expr.tokens, append_assoc]
    exact hb.append _
  | @relative axis test predicates testing parts ih =>
    rw [Expr.tokens_path]
    exact ⟨reads_relative axis test fun e he => hlower (ih e he), _, _, rfl, Nat.le_refl 8⟩
  | @path base axis test predicates first testing parts ihbase ih =>
    have hparts : ∀ e ∈ predicates, Reads 0 e e.tokens := fun e he => hlower (ih e he)
    rw [Expr.tokens_path]
    obtain ⟨rfl, hstart⟩ | ⟨rfl, hstart⟩ | hstart := base.pathStart_cases base.tokens
    · cases first
    · rw [hstart]
      exact ⟨reads_absolute axis test hparts, _, _, rfl, Nat.le_refl 8⟩
    · rw [hstart]
      refine ⟨(ihbase.1.enclose ihbase.2 (by decide)).path axis test hparts, ?_⟩
      rw [append_assoc]
      exact (ihbase.2.enclose 8).append _
  | @union left right first second ihleft ihright =>
    have hleft : Reads 7 left (left.enclose 7 left.tokens) := ihleft.1.enclose ihleft.2 (by decide)
    exact ⟨hleft.union (ihright.1.enclose ihright.2 (by decide)), (ihleft.2.enclose 7).append _⟩
  | @negate operand first ih =>
    exact ⟨(ih.1.enclose ih.2 (by decide)).negate, _, _, rfl, Nat.le_refl 6⟩
  | @binary op left right first second ihleft ihright =>
    have hlevel : op.level + 1 ≤ 9 := by cases op <;> decide
    have hleft := ihleft.1.enclose ihleft.2 (Nat.le_of_succ_le hlevel)
    exact ⟨hleft.binary (ihright.1.enclose ihright.2 hlevel), (ihleft.2.enclose op.level).append _⟩

/-! ## From text to text -/

theorem Writable.lex (h : Writable numeral e) : lex (e.text numeral) = ⟨e.tokens, none⟩ := by
  have hread := h.readsBack [] continues_nil
  rw [append_nil] at hread
  rw [XPath.lex, Expr.text, String.toList_ofList]
  exact lexFrom_of_spell hread (skipBlanks_spell hread)

/-- **A written expression is read again.** Whatever decimals its numbers are written with, its text
is parsed without a fault, and the result is the expression. -/
theorem parse_text (numeral : Float → List Char) (e : Expr) (h : Writable numeral e) :
    parse (e.text numeral) = .ok e := by
  obtain ⟨hreads, hbegins⟩ := h.reads
  have hend : Stops 0 [] := by rintro t ⟨⟩
  have hparse : Parses 0 (e.tokens ++ []) e [] :=
    (hreads.mono (level_le e) hbegins (Nat.zero_le _)).parses (by decide) hend
  rw [List.append_nil] at hparse
  obtain ⟨hlt, hparse⟩ : Yields (binaryExpr none 0 e.tokens) e [] := hparse
  rw [parse, h.lex, parseTokens]
  split
  · next hnone => cases hnone
  · simp only [bind, Except.bind, hparse]
    rfl

/-- Names of operators and of kinds of nodes as names of elements, operators of several levels, and
the top of the tree with and without a step. -/
def operatorNames : Expr :=
  .binary .div
    (.path .context .child (.name "div") [.path .context .child (.name "and") []])
    (.binary .mul
      (.negate (.binary .sub (.number (Number.readUnsigned false ['2']))
        (.path .context .attribute (.qname "or" "mod") [])))
      (.call "count" [.union .root
        (.path (.path .root .descendant (.name "text") [.string "it's"]) .self .text [])]))

theorem operatorNames_writable : Writable (fun _ => ['2']) operatorNames := by
  have htwo : Writable (fun _ => ['2']) (.number (Number.readUnsigned false ['2'])) :=
    .number ⟨['2'], [], by simp, by simp, .inr ⟨rfl, rfl⟩⟩ rfl
  have hname {axis : Axis} {name : String} (h : IsNCName name) :
      Writable (fun _ => ['2']) (.path .context axis (.name name) []) :=
    .relative h (forall_mem_nil _)
  have hmod : Writable (fun _ => ['2']) (.path .context .attribute (.qname "or" "mod") []) :=
    .relative ⟨by decide, by decide⟩ (forall_mem_nil _)
  have hcount : IsFunctionName "count" := ⟨1, .count, rfl⟩
  refine .binary (.relative (show IsNCName "div" by decide) ?_)
    (.binary (.negate (.binary htwo hmod)) (.call hcount ?_))
  · exact forall_mem_singleton.mpr (hname (by decide))
  · refine forall_mem_singleton.mpr (.union .root (.path (.path .root ?_ ?_) trivial ?_))
    · exact (show IsNCName "text" by decide)
    · exact forall_mem_singleton.mpr (.string (by decide))
    · exact forall_mem_nil _

/-- It is written with its operators and read with its names. -/
theorem operatorNames_read_again :
    operatorNames.text (fun _ => ['2']) =
      "child :: div [ child :: and ] div ( - ( 2 - attribute :: or:mod ) * count ( ( / ) | / descendant :: text [ \"it's\" ] / self :: text ( ) ) )" ∧
    parse (operatorNames.text fun _ => ['2']) = .ok operatorNames :=
  ⟨by decide +kernel, parse_text _ _ operatorNames_writable⟩

end Xml.XPath
