import Mathlib.Data.List.Induction
import Mathlib.Data.List.Nodup
import Xml.XPath.Evaluator

/-!
# What a cache changes

An evaluator gives the answers of one that compiles every expression anew with the prefixes bound
at that time. A program in the cache is the one its text compiles to (`Evaluator.Sound`): binding a
prefix clears the cache, and nothing else changes the table. This is kept by every move of
evaluations that share the cache, so their order does not matter.

* `LawfulProgramCache` — what is assumed of a cache: it may forget, but not mix up
* `cache_invisible` — the answers to a sequence of calls
-/

namespace Xml.XPath

open List

/-! ## Caches -/

inductive CacheUse where
  | find (text : String)
  | put (text : String) (program : Program)
  | clear

/-- A cache after it was used, the latest use first. -/
def ProgramCache.after {σ : Type} [ProgramCache σ] : List CacheUse → σ
  | [] => empty
  | .find text :: earlier => (find? (after earlier) text).2
  | .put text program :: earlier => put (after earlier) text program
  | .clear :: earlier => clear (after earlier)

/-- The program last put under a text since the cache was cleared. -/
def lastPut (text : String) : List CacheUse → Option Program
  | [] => none
  | .find _ :: earlier => lastPut text earlier
  | .put other program :: earlier => if other = text then some program else lastPut text earlier
  | .clear :: _ => none

/-- A cache that finds nothing but what was last put under a text since it was cleared. It may have
forgotten it. -/
class LawfulProgramCache (σ : Type) [ProgramCache σ] : Prop where
  lastPut_of_find? (uses : List CacheUse) (text : String) (program : Program) :
    (ProgramCache.find? (ProgramCache.after uses : σ) text).1 = some program →
      lastPut text uses = some program

theorem lookup_filter {α β : Type} [BEq α] [LawfulBEq α] {p : α × β → Bool} {a : α}
    (h : ∀ b, p (a, b) = true) (l : List (α × β)) : (l.filter p).lookup a = l.lookup a := by
  induction l with
  | nil => rfl
  | cons entry l ih =>
    obtain ⟨key, b⟩ := entry
    by_cases hkey : a = key
    · subst hkey
      rw [filter_cons_of_pos (h b), lookup_cons_self, lookup_cons_self]
    · have hlookup (l : List (α × β)) : ((key, b) :: l).lookup a = l.lookup a := by
        rw [lookup_cons, beq_false_of_ne hkey]
      rw [filter_cons, hlookup]
      split
      · rw [hlookup, ih]
      · exact ih

variable {text : String} (bindings : List (String × String)) (nsPrefix : String)

namespace Cache

theorem lookup_put {cache : Cache} {other : String} {program found : Program}
    (h : (cache.put text program).entries.lookup other = some found) :
    found = program ∧ text = other ∨ text ≠ other ∧ cache.entries.lookup other = some found := by
  have hwhole : ((text, program) :: cache.entries.filter (·.1 != text)).lookup other =
      some found := by
    rw [← take_append_drop capacity (_ :: _), lookup_append]
    exact Option.or_eq_some_iff.mpr (.inl h)
  by_cases hother : other = text
  · subst hother
    rw [lookup_cons_self] at hwhole
    exact .inl ⟨(Option.some.inj hwhole).symm, rfl⟩
  · rw [lookup_cons, beq_false_of_ne hother] at hwhole
    rw [lookup_filter (fun _ => by simpa using hother)] at hwhole
    exact .inr ⟨Ne.symm hother, hwhole⟩

theorem lastPut_of_lookup {uses : List CacheUse} {program : Program}
    (h : (ProgramCache.after uses : Cache).entries.lookup text = some program) :
    lastPut text uses = some program := by
  induction uses generalizing text program with
  | nil => cases h
  | cons use earlier ih =>
    cases use with
    | find other =>
      have hfind : (ProgramCache.after (.find other :: earlier) : Cache) =
          ((ProgramCache.after earlier : Cache).find? other).2 := rfl
      rw [hfind, find?] at h
      split at h
      · next found hfound =>
        rcases lookup_put h with ⟨rfl, rfl⟩ | ⟨-, h⟩
        · exact ih hfound
        · exact ih h
      · exact ih h
    | put other put =>
      rcases lookup_put h with ⟨rfl, rfl⟩ | ⟨hne, h⟩
      · exact if_pos rfl
      · exact (if_neg hne).trans (ih h)
    | clear => cases h

instance : LawfulProgramCache Cache where
  lastPut_of_find? uses text program h := by
    have hfind : ((ProgramCache.after uses : Cache).find? text).1 = some program := h
    rw [find?] at hfind
    split at hfind
    · next found hfound => exact lastPut_of_lookup (hfound.trans hfind)
    · cases hfind

end Cache

/-! ## Programs -/

variable {σ : Type} [ProgramCache σ] {e : Evaluator σ}

namespace Evaluator

/-- Whatever the cache can find is what its text compiles to with the table. -/
def Sound (e : Evaluator σ) : Prop :=
  ∃ uses, e.cache = ProgramCache.after uses ∧
    ∀ text program, lastPut text uses = some program → compile text e.table = .ok program

theorem sound_new (node : NodeRef) : ({ node } : Evaluator σ).Sound :=
  ⟨[], rfl, nofun⟩

theorem Sound.register (h : e.Sound) (nsPrefix uri : String) : (e.register nsPrefix uri).Sound := by
  rw [Evaluator.register]
  split
  · exact h
  · obtain ⟨uses, hcache, -⟩ := h
    exact ⟨.clear :: uses, congrArg ProgramCache.clear hcache, nofun⟩

variable [LawfulProgramCache σ]

/-- **Found or compiled, a program is the same.** -/
theorem Sound.program (h : e.Sound) (text : String) :
    ∃ cache, e.program text = (compile text e.table, { e with cache }) ∧
      ({ e with cache } : Evaluator σ).Sound := by
  obtain ⟨uses, hcache, hsound⟩ := h
  have hfound := @LawfulProgramCache.lastPut_of_find? σ _ _ uses text
  have hused : (ProgramCache.find? e.cache text).2 = ProgramCache.after (.find text :: uses) :=
    congrArg (fun cache => (ProgramCache.find? cache text).2) hcache
  rw [← hcache] at hfound
  rw [Evaluator.program]
  cases hfind : ProgramCache.find? e.cache text with
  | mk found cache =>
    rw [hfind] at hfound hused
    cases found with
    | some program =>
      refine ⟨cache, ?_, .find text :: uses, hused, hsound⟩
      rw [hsound text program (hfound program rfl)]
    | none =>
      dsimp only at hused ⊢
      cases hcompile : compile text e.table with
      | error fault => exact ⟨cache, rfl, .find text :: uses, hused, hsound⟩
      | ok program =>
        refine ⟨ProgramCache.put cache text program, rfl, .put text program :: .find text :: uses,
          congrArg (ProgramCache.put · text program) hused, fun other program' hput => ?_⟩
        rw [lastPut] at hput
        split at hput
        · next heq =>
          subst heq
          rw [hcompile, Option.some.inj hput]
        · exact hsound other program' hput

end Evaluator

/-! ## Answers -/

/-- The program of an expression for a document, compiled anew. -/
def freshProgram (node : NodeRef) (table : PrefixTable) (doc : Document) (text : String) :
    Except Error Program :=
  if node.isIn doc then (compile text table).mapError (.expression · text)
  else .error (.foreignContext node.doc doc.id)

/-- The answer to an expression without a cache: its value in the document from the node on, with
the prefixes of the table. -/
def freshAnswer (node : NodeRef) (table : PrefixTable) (doc : Document) (text : String) :
    Except Error Answer :=
  if node.isIn doc then
    match XPath.evaluate doc ⟨node.id, 1, 1⟩ text table with
    | .ok value => .ok (.ofValue doc value)
    | .error fault => .error (.expression fault text)
  else .error (.foreignContext node.doc doc.id)

theorem freshAnswer_of_ok {doc : Document} {program : Program}
    (h : freshProgram e.node e.table doc text = .ok program) :
    freshAnswer e.node e.table doc text = e.answer doc text program := by
  rw [freshProgram] at h
  split at h
  · next hnode =>
    cases hcompile : compile text e.table with
    | error fault =>
      rw [hcompile] at h
      cases h
    | ok found =>
      rw [hcompile] at h
      cases h
      rw [freshAnswer, if_pos hnode, XPath.evaluate, hcompile]
      rfl
  · cases h

theorem freshAnswer_of_error {node : NodeRef} {table : PrefixTable} {doc : Document} {error : Error}
    (h : freshProgram node table doc text = .error error) :
    freshAnswer node table doc text = .error error := by
  rw [freshProgram] at h
  rw [freshAnswer]
  split at h
  · next hnode =>
    rw [if_pos hnode, XPath.evaluate]
    cases hcompile : compile text table with
    | error fault =>
      rw [hcompile] at h
      exact congrArg Except.error (Except.error.inj h)
    | ok found =>
      rw [hcompile] at h
      cases h
  · next hnode =>
    cases h
    rw [if_neg hnode]

namespace Evaluator

variable [LawfulProgramCache σ]

theorem Sound.prepare (h : e.Sound) (doc : Document) (text : String) :
    ∃ cache, e.prepare doc text = (freshProgram e.node e.table doc text, { e with cache }) ∧
      ({ e with cache } : Evaluator σ).Sound := by
  rw [Evaluator.prepare, freshProgram]
  split
  · obtain ⟨cache, hprogram, hsound⟩ := h.program text
    rw [hprogram]
    refine ⟨cache, ?_, hsound⟩
    cases compile text e.table with
    | ok program => rfl
    | error fault => rfl
  · exact ⟨e.cache, rfl, h⟩

theorem Sound.evaluate (h : e.Sound) (doc : Document) (text : String) :
    ∃ cache, e.evaluate doc text = (freshAnswer e.node e.table doc text, { e with cache }) ∧
      ({ e with cache } : Evaluator σ).Sound := by
  obtain ⟨cache, hprepare, hsound⟩ := h.prepare doc text
  refine ⟨cache, ?_, hsound⟩
  rw [Evaluator.evaluate, hprepare]
  cases hprogram : freshProgram e.node e.table doc text with
  | ok program => rw [freshAnswer_of_ok hprogram]; rfl
  | error error => rw [freshAnswer_of_error hprogram]

end Evaluator

/-! ## Evaluations at a time -/

/-- The moves an evaluation has in front of it at most. -/
def Evaluation.left : Evaluation → Nat
  | .asked .. => 2
  | .compiled .. => 1
  | .answered _ => 0

/-- An evaluation of an expression, with the program and the answer it should have. -/
inductive OnCourse (node : NodeRef) (table : PrefixTable) (doc : Document) (text : String) :
    Evaluation → Prop where
  | asked : OnCourse node table doc text (.asked doc text)
  | compiled {program : Program} (h : freshProgram node table doc text = .ok program) :
      OnCourse node table doc text (.compiled doc text program)
  | answered : OnCourse node table doc text (.answered (freshAnswer node table doc text))

/-- Evaluations of several expressions, each with so many moves left. -/
structure AllOnCourse (node : NodeRef) (table : PrefixTable) (doc : Document) (texts : List String)
    (left : Nat → Nat) (evaluations : List Evaluation) : Prop where
  length : evaluations.length = texts.length
  each : ∀ i text, texts[i]? = some text → ∃ evaluation, evaluations[i]? = some evaluation ∧
    OnCourse node table doc text evaluation ∧ evaluation.left ≤ left i

theorem AllOnCourse.eq_answered {node : NodeRef} {table : PrefixTable} {doc : Document}
    {texts : List String} {left : Nat → Nat} {evaluations : List Evaluation}
    (hc : AllOnCourse node table doc texts left evaluations)
    (hleft : ∀ i < texts.length, left i = 0) :
    evaluations = texts.map fun text => .answered (freshAnswer node table doc text) := by
  refine ext_getElem? fun i => ?_
  rw [getElem?_map]
  cases htext : texts[i]? with
  | none =>
    rw [List.getElem?_eq_none_iff, ← hc.length, ← List.getElem?_eq_none_iff] at htext
    exact htext
  | some text =>
    obtain ⟨evaluation, hevaluation, hcourse, hle⟩ := hc.each i text htext
    rw [hleft i (List.getElem?_eq_some_iff.mp htext).1] at hle
    cases hcourse with
    | asked => cases hle
    | compiled => cases hle
    | answered => exact hevaluation

namespace Evaluator

variable [LawfulProgramCache σ] {doc : Document} {texts : List String} {left : Nat → Nat}
  {evaluations : List Evaluation}

/-- **One move** brings an evaluation nearer to its answer, whatever the others did before. -/
theorem Sound.move (h : e.Sound) {evaluation : Evaluation}
    (hc : OnCourse e.node e.table doc text evaluation) :
    ∃ moved cache, e.move evaluation = (moved, { e with cache }) ∧
      OnCourse e.node e.table doc text moved ∧ moved.left ≤ evaluation.left - 1 ∧
      ({ e with cache } : Evaluator σ).Sound := by
  cases hc with
  | asked =>
    obtain ⟨cache, hprepare, hsound⟩ := h.prepare doc text
    rw [Evaluator.move, hprepare]
    cases hprogram : freshProgram e.node e.table doc text with
    | ok program => exact ⟨_, cache, rfl, .compiled hprogram, Nat.le_refl _, hsound⟩
    | error error =>
      exact ⟨_, cache, rfl, freshAnswer_of_error hprogram ▸ .answered, Nat.zero_le _, hsound⟩
  | compiled hprogram =>
    exact ⟨_, e.cache, rfl, freshAnswer_of_ok hprogram ▸ .answered, Nat.le_refl _, h⟩
  | answered => exact ⟨_, e.cache, rfl, .answered, Nat.le_refl _, h⟩

theorem Sound.moveAt (h : e.Sound) (hc : AllOnCourse e.node e.table doc texts left evaluations)
    (i : Nat) :
    ∃ moved cache, e.moveAt evaluations i = (moved, { e with cache }) ∧
      AllOnCourse e.node e.table doc texts (fun j => left j - [i].count j) moved ∧
      ({ e with cache } : Evaluator σ).Sound := by
  have hstays {j : Nat} (hj : j ≠ i) : left j - [i].count j = left j := by
    rw [count_singleton, if_neg (by simpa using Ne.symm hj), Nat.sub_zero]
  rw [Evaluator.moveAt]
  cases hget : evaluations[i]? with
  | none =>
    refine ⟨evaluations, e.cache, rfl, ⟨hc.length, fun j text hj => ?_⟩, h⟩
    obtain ⟨evaluation, hevaluation, hcourse, hleft⟩ := hc.each j text hj
    have hne : j ≠ i := by
      rintro rfl
      rw [hget] at hevaluation
      cases hevaluation
    exact ⟨evaluation, hevaluation, hcourse, (hstays hne).symm ▸ hleft⟩
  | some evaluation =>
    have hlt : i < evaluations.length := (List.getElem?_eq_some_iff.mp hget).1
    obtain ⟨text, htext⟩ : ∃ text, texts[i]? = some text :=
      ⟨_, getElem?_eq_getElem (hc.length ▸ hlt)⟩
    obtain ⟨found, hfound, hcourse, hleft⟩ := hc.each i text htext
    cases hget.symm.trans hfound
    obtain ⟨moved, cache, hmove, hcourse', hleft', h'⟩ := h.move hcourse
    dsimp only
    rw [hmove]
    refine ⟨evaluations.set i moved, cache, rfl, ⟨by rw [length_set, hc.length], ?_⟩, h'⟩
    intro j other hj
    by_cases hne : j = i
    · subst hne
      cases htext.symm.trans hj
      refine ⟨moved, getElem?_set_self hlt, hcourse', Nat.le_trans hleft' ?_⟩
      rw [count_singleton_self]
      exact Nat.sub_le_sub_right hleft 1
    · obtain ⟨evaluation', hevaluation', hcourse'', hleft''⟩ := hc.each j other hj
      exact ⟨evaluation', (getElem?_set_ne (Ne.symm hne)).trans hevaluation', hcourse'',
        (hstays hne).symm ▸ hleft''⟩

/-- **A schedule** keeps all evaluations on their courses. -/
theorem Sound.moveAll (h : e.Sound) (hc : AllOnCourse e.node e.table doc texts left evaluations)
    (schedule : List Nat) :
    ∃ moved cache, e.moveAll evaluations schedule = (moved, { e with cache }) ∧
      AllOnCourse e.node e.table doc texts (fun j => left j - schedule.count j) moved ∧
      ({ e with cache } : Evaluator σ).Sound := by
  induction schedule generalizing e left evaluations with
  | nil => exact ⟨evaluations, e.cache, rfl, hc, h⟩
  | cons i schedule ih =>
    obtain ⟨moved, cache, hmove, hc', h'⟩ := h.moveAt hc i
    obtain ⟨final, cache', hmoves, hc'', h''⟩ := ih h' hc'
    refine ⟨final, cache', ?_, ?_, h''⟩
    · rw [Evaluator.moveAll, hmove]
      exact hmoves
    · have hcount : (fun j => left j - [i].count j - schedule.count j) =
          fun j => left j - (i :: schedule).count j := by
        funext j
        rw [Nat.sub_sub, ← count_append, singleton_append]
      rwa [hcount] at hc''

/-- **Whatever the order**, every expression has its answer in the end. -/
theorem Sound.evaluateAll (h : e.Sound) (doc : Document) (texts : List String)
    (schedule : List Nat) :
    ∃ cache, e.evaluateAll doc texts schedule =
        (texts.map (freshAnswer e.node e.table doc), { e with cache }) ∧
      ({ e with cache } : Evaluator σ).Sound := by
  have hstart : AllOnCourse e.node e.table doc texts (fun _ => 2) (texts.map (.asked doc)) :=
    ⟨length_map _, fun i text hi => ⟨.asked doc text, by simp [hi], .asked, Nat.le_refl 2⟩⟩
  obtain ⟨moved, cache, hmoves, hc, hsound⟩ :=
    h.moveAll hstart (schedule ++ List.range texts.length ++ List.range texts.length)
  refine ⟨cache, ?_, hsound⟩
  have hmoved : moved = texts.map fun text => .answered (freshAnswer e.node e.table doc text) :=
    hc.eq_answered fun i hi => by
      have hturn : (List.range texts.length).count i = 1 :=
        count_eq_one_of_mem nodup_range (mem_range.mpr hi)
      rw [count_append, count_append, hturn]
      omega
  rw [Evaluator.evaluateAll]
  simp only [hmoves, hmoved, filterMap_map]
  rw [← filterMap_eq_map]
  rfl

end Evaluator

/-! ## Calls -/

/-- What an evaluator is asked to do. The evaluations of several expressions move in the order of a
schedule. -/
inductive Call where
  | register (nsPrefix uri : String)
  | evaluate (doc : Document) (text : String)
  | evaluateAll (doc : Document) (texts : List String) (schedule : List Nat)

def Evaluator.serve (e : Evaluator σ) : Call → List (Except Error Answer) × Evaluator σ
  | .register nsPrefix uri => ([], e.register nsPrefix uri)
  | .evaluate doc text =>
    let (answer, e) := e.evaluate doc text
    ([answer], e)
  | .evaluateAll doc texts schedule => e.evaluateAll doc texts schedule

/-- The answers to calls in turn. -/
def Evaluator.serveAll (e : Evaluator σ) : List Call → List (List (Except Error Answer))
  | [] => []
  | call :: calls =>
    let (answers, e) := e.serve call
    answers :: e.serveAll calls

/-- The table after bindings in turn, of which those of the fixed prefixes do not count. -/
def currentTable (bindings : List (String × String)) : PrefixTable :=
  .ofList (bindings.filter fun b => b.1 != "xml" && b.1 != "xmlns")

/-- The answers to calls, all without a cache. -/
def freshAnswers (node : NodeRef) (bindings : List (String × String)) :
    List Call → List (List (Except Error Answer))
  | [] => []
  | .register nsPrefix uri :: calls => [] :: freshAnswers node (bindings ++ [(nsPrefix, uri)]) calls
  | .evaluate doc text :: calls =>
    [freshAnswer node (currentTable bindings) doc text] :: freshAnswers node bindings calls
  | .evaluateAll doc texts _ :: calls =>
    texts.map (freshAnswer node (currentTable bindings) doc) :: freshAnswers node bindings calls

theorem ofList_append (uri : String) :
    PrefixTable.ofList (bindings ++ [(nsPrefix, uri)]) =
      (PrefixTable.ofList bindings).bind nsPrefix uri := by
  rw [PrefixTable.ofList, foldl_append]
  rfl

theorem table_register {bindings : List (String × String)} (h : e.table = currentTable bindings)
    (nsPrefix uri : String) :
    (e.register nsPrefix uri).table = currentTable (bindings ++ [(nsPrefix, uri)]) := by
  rw [Evaluator.register, currentTable, filter_append]
  by_cases hfixed : nsPrefix = "xml" ∨ nsPrefix = "xmlns"
  · rw [if_pos (by simpa using hfixed), h, currentTable]
    rcases hfixed with rfl | rfl <;> simp
  · rw [not_or] at hfixed
    have hone : [(nsPrefix, uri)].filter (fun b => b.1 != "xml" && b.1 != "xmlns") =
        [(nsPrefix, uri)] := by simp [hfixed]
    rw [if_neg (by simpa using hfixed), hone, ofList_append, h, currentTable]

theorem lookup_ofList :
    (PrefixTable.ofList bindings).entries.lookup nsPrefix = bindings.reverse.lookup nsPrefix := by
  induction bindings using List.reverseRecOn with
  | nil => rfl
  | append_singleton bindings binding ih =>
    obtain ⟨bound, uri⟩ := binding
    rw [ofList_append, PrefixTable.bind, reverse_append, reverse_singleton,
      singleton_append, lookup_append]
    by_cases hbound : nsPrefix = bound
    · subst hbound
      have hnone : (List.filter (·.1 != nsPrefix) (PrefixTable.ofList bindings).entries).lookup
          nsPrefix = none := by
        rw [lookup_eq_none_iff]
        intro entry hentry
        exact bne_iff_ne.mpr (bne_iff_ne.mp (mem_filter.mp hentry).2).symm
      rw [hnone, lookup_cons_self, lookup_cons_self, Option.none_or]
    · have hone (rest : List (String × String)) : ((bound, uri) :: rest).lookup nsPrefix =
          rest.lookup nsPrefix := by rw [lookup_cons, beq_false_of_ne hbound]
      rw [lookup_filter (fun _ => by simpa using hbound), ih, hone, hone, lookup_nil,
        Option.or_none]

theorem resolve_currentTable :
    (currentTable bindings).resolve nsPrefix =
      if nsPrefix = "xml" then .ok Namespace.xmlUri
      else if nsPrefix = "xmlns" then .ok Namespace.xmlnsUri
      else (bindings.reverse.lookup nsPrefix).elim (.error (.undefinedPrefix nsPrefix)) .ok := by
  rw [PrefixTable.resolve]
  by_cases hxml : nsPrefix = "xml"
  · simp [hxml]
  · by_cases hxmlns : nsPrefix = "xmlns"
    · simp [hxmlns]
    · have hlookup : (currentTable bindings).entries.lookup nsPrefix =
          bindings.reverse.lookup nsPrefix := by
        rw [currentTable, lookup_ofList, ← filter_reverse, lookup_filter]
        simp [hxml, hxmlns]
      simp only [hxml, hxmlns, hlookup, beq_iff_eq, if_false]
      cases bindings.reverse.lookup nsPrefix with
      | none => rfl
      | some uri => rfl

theorem Evaluator.Sound.serveAll [LawfulProgramCache σ] (h : e.Sound)
    {bindings : List (String × String)} (ht : e.table = currentTable bindings) (calls : List Call) :
    e.serveAll calls = freshAnswers e.node bindings calls := by
  induction calls generalizing e bindings with
  | nil => rfl
  | cons call calls ih =>
    cases call with
    | register nsPrefix uri =>
      have hnode : (e.register nsPrefix uri).node = e.node := by
        rw [Evaluator.register]
        split <;> rfl
      have hrest := ih (h.register nsPrefix uri) (table_register ht nsPrefix uri)
      rw [hnode] at hrest
      exact congrArg ([] :: ·) hrest
    | evaluate doc text =>
      obtain ⟨cache, heval, hsound⟩ := h.evaluate doc text
      rw [Evaluator.serveAll, Evaluator.serve, heval, freshAnswers, ← ht]
      exact congrArg (_ :: ·) (ih hsound ht)
    | evaluateAll doc texts schedule =>
      obtain ⟨cache, heval, hsound⟩ := h.evaluateAll doc texts schedule
      rw [Evaluator.serveAll, Evaluator.serve, heval, freshAnswers, ← ht]
      exact congrArg (_ :: ·) (ih hsound ht)

/-- **The cache does not show.** Whatever a cache forgets, and in whatever order evaluations at a time
make their moves, the answers to a sequence of calls are those of expressions that are compiled
anew, with the prefixes bound at that time. The fixed prefixes stand for their namespaces, any other
one for what it was last bound to. -/
theorem cache_invisible [LawfulProgramCache σ] (node : NodeRef) (calls : List Call) :
    ({ node } : Evaluator σ).serveAll calls = freshAnswers node [] calls ∧
      ∀ (bindings : List (String × String)) (nsPrefix : String),
        (currentTable bindings).resolve nsPrefix =
          if nsPrefix = "xml" then .ok Namespace.xmlUri
          else if nsPrefix = "xmlns" then .ok Namespace.xmlnsUri
          else (bindings.reverse.lookup nsPrefix).elim (.error (.undefinedPrefix nsPrefix)) .ok :=
  ⟨(Evaluator.sound_new node).serveAll rfl calls, resolve_currentTable⟩

/-- An expression that is asked for with its prefix unbound, bound and bound again, in between by
three evaluations at a time. -/
def movingPrefix (doc : Document) : List Call :=
  [.evaluate doc "q:a", .register "q" "urn:p", .register "xml" "urn:q",
    .evaluateAll doc ["q:a", "q:a", "@xml:lang"] [1, 0, 1, 2, 0], .register "q" "urn:q",
    .evaluate doc "q:a"]

theorem cache_invisible_as_prefix_moves :
    LawfulProgramCache Cache ∧
      ({ node := ⟨0, 0, .document⟩ } : Evaluator Cache).serveAll (movingPrefix (.empty 0)) =
        freshAnswers ⟨0, 0, .document⟩ [] (movingPrefix (.empty 0)) ∧
      (currentTable [("q", "urn:p"), ("xml", "urn:q"), ("q", "urn:q")]).resolve "q" = .ok "urn:q" ∧
      (currentTable [("q", "urn:p"), ("xml", "urn:q"), ("q", "urn:q")]).resolve "xml" =
        .ok Namespace.xmlUri := by
  obtain ⟨hanswers, hresolve⟩ :=
    @cache_invisible Cache _ _ ⟨0, 0, .document⟩ (movingPrefix (.empty 0))
  exact ⟨inferInstance, hanswers, hresolve _ "q", hresolve _ "xml"⟩

end Xml.XPath
