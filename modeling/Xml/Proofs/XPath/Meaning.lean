import Mathlib.Data.List.Basic
import Xml.XPath.Eval

/-!
# The meaning of expressions

What an expression means, read off its syntax: the value of each part from the values of its parts,
from left to right, the first fault being the fault of the whole. The program of an expression puts
just that value on the stack, whatever lies below it and whatever runs next (`runAll_compile`), so a
program has the value of its expression and never misses an operand (`compile_keeps_meaning`).
-/

namespace Xml.XPath

open List

/-! ## The meaning -/

/-- The nodes of a list that a predicate keeps. Each is asked at its place in the list. -/
def chosen (predicate : Context → Except Fault Value) (nodes : List NodeId) :
    Except Fault (List NodeId) := do
  let answers ← (nodes.zipIdx 1).mapM fun (node, place) => do
    let value ← predicate ⟨node, place, nodes.length⟩
    return value.keeps place
  return ((nodes.zip answers).filter (·.2)).map (·.1)

mutual

def Expr.value (table : PrefixTable) (doc : Document) (e : Expr) (ctx : Context) :
    Except Fault Value :=
  match e with
  | .root => .ok (.nodeSet [(doc.lineage ctx.node).getLastD ctx.node])
  | .context => .ok (.nodeSet [ctx.node])
  | .number value => .ok (.number value)
  | .string text => .ok (.string text)
  | .negate operand => do
    let value ← operand.value table doc ctx
    return .number (-value.toNumber doc)
  | .binary op left right => do
    let first ← left.value table doc ctx
    let second ← right.value table doc ctx
    return op.apply doc first second
  | .union left right => do
    let first ← left.value table doc ctx
    let second ← right.value table doc ctx
    unionOf doc first second
  | .path base axis test predicates => do
    let start ← base.value table doc ctx
    let nodes ← start.nodes .stepOn
    let test ← test.resolve table
    let selected ← nodes.mapM fun node =>
      chosenInTurn table doc predicates
        ((axis.nodes doc node).filter (test.accepts doc axis.principal))
    return .nodeSet (doc.sort selected.flatten)
  | .filter base predicate => do
    let start ← base.value table doc ctx
    let nodes ← start.nodes .predicateOn
    let kept ← chosen (fun c => predicate.value table doc c) nodes
    return .nodeSet kept
  | .call name arguments => do
    let function ← Function.resolve name arguments.length
    let values ← valueEach table doc arguments ctx
    function.apply doc ctx values

def valueEach (table : PrefixTable) (doc : Document) (es : List Expr) (ctx : Context) :
    Except Fault (List Value) :=
  match es with
  | [] => .ok []
  | e :: rest => do
    let value ← e.value table doc ctx
    let values ← valueEach table doc rest ctx
    return value :: values

/-- The nodes of a list that several predicates keep, one after the other. -/
def chosenInTurn (table : PrefixTable) (doc : Document) (predicates : List Expr)
    (nodes : List NodeId) : Except Fault (List NodeId) :=
  match predicates with
  | [] => .ok nodes
  | predicate :: rest => do
    let kept ← chosen (fun c => predicate.value table doc c) nodes
    chosenInTurn table doc rest kept

end

variable {table : PrefixTable} {doc : Document} {ctx : Context} {α β : Type}

theorem bind_eq_ok {m : Except Fault α} {f : α → Except Fault β} {b : β}
    (h : (m >>= f) = .ok b) : ∃ a, m = .ok a ∧ f a = .ok b := by
  cases m with
  | error fault => cases h
  | ok a => exact ⟨a, rfl, h⟩

/-! ## Predicates -/

theorem keepFrom_eq (evaluate : Context → Except Fault Value) (size place : Nat)
    (nodes : List NodeId) :
    keepFrom evaluate size place nodes = (do
      let answers ← (nodes.zipIdx place).mapM fun (node, place) => do
        let value ← evaluate ⟨node, place, size⟩
        return value.keeps place
      return ((nodes.zip answers).filter (·.2)).map (·.1)) := by
  induction nodes generalizing place with
  | nil => rfl
  | cons node rest ih =>
    simp only [keepFrom, ih, zipIdx_cons, mapM_cons, bind_assoc, pure_bind]
    refine bind_congr fun value => bind_congr fun answers => ?_
    cases value.keeps place <;> rfl

theorem keep_eq_chosen (evaluate : Context → Except Fault Value) (nodes : List NodeId) :
    keep evaluate nodes = chosen evaluate nodes :=
  keepFrom_eq evaluate nodes.length 1 nodes

/-! ## Programs -/

theorem runAll_append (first second : Program) (stack : List Value) :
    runAll doc ctx (first ++ second) stack =
      runAll doc ctx first stack >>= runAll doc ctx second := by
  induction first generalizing stack with
  | nil => rfl
  | cons op rest ih =>
    simp only [cons_append, runAll, bind_assoc]
    exact bind_congr fun stack => ih stack

theorem runAll_singleton (op : Op) (stack : List Value) :
    runAll doc ctx [op] stack = op.run doc ctx stack := by
  simp only [runAll]
  exact bind_pure _

theorem bind_topOf (m : Except Fault Value) (stack : List Value) :
    (m >>= fun value => topOf (value :: stack)) = m :=
  bind_pure m

theorem length_valueEach {es : List Expr} {values : List Value}
    (h : valueEach table doc es ctx = .ok values) : values.length = es.length := by
  induction es generalizing values with
  | nil =>
    simp only [valueEach, Except.ok.injEq] at h
    rw [← h]
    rfl
  | cons e rest ih =>
    rw [valueEach] at h
    obtain ⟨value, -, h⟩ := bind_eq_ok h
    obtain ⟨tail, htail, h⟩ := bind_eq_ok h
    cases h
    rw [length_cons, length_cons, ih htail]

/-- A call takes its arguments off the stack, the last one first. -/
theorem run_call (function : Function) (values stack : List Value) :
    (Op.call function values.length).run doc ctx (values.reverse ++ stack) = (do
      let result ← function.apply doc ctx values
      return result :: stack) := by
  have hlength : values.length = values.reverse.length := length_reverse.symm
  rw [Op.run, if_neg (by simp), hlength, take_left, drop_left, reverse_reverse]

mutual

/-- The program of an expression pushes the value of the expression, or fails as it does. -/
theorem runAll_compile (e : Expr) {program : Program} (h : e.compile table = .ok program)
    (ctx : Context) (stack : List Value) :
    runAll doc ctx program stack = (do
      let value ← e.value table doc ctx
      return value :: stack) := by
  -- by induction on the syntax; the stack below is arbitrary because operands pile up on it
  cases e with
  | root | context | number value | string text =>
    cases h
    exact runAll_singleton _ stack
  | negate operand =>
    obtain ⟨first, hfirst, h⟩ := bind_eq_ok h
    cases h
    simp only [Expr.value, runAll_append, runAll_compile operand hfirst, runAll_singleton,
      bind_assoc, pure_bind, Op.run]
    rfl
  | binary op left right =>
    obtain ⟨first, hfirst, h⟩ := bind_eq_ok h
    obtain ⟨second, hsecond, h⟩ := bind_eq_ok h
    cases h
    simp only [Expr.value, runAll_append, runAll_compile left hfirst,
      runAll_compile right hsecond, runAll_singleton, bind_assoc, pure_bind, Op.run]
    rfl
  | union left right =>
    obtain ⟨first, hfirst, h⟩ := bind_eq_ok h
    obtain ⟨second, hsecond, h⟩ := bind_eq_ok h
    cases h
    simp only [Expr.value, runAll_append, runAll_compile left hfirst,
      runAll_compile right hsecond, runAll_singleton, bind_assoc, pure_bind, Op.run]
  | path base axis test predicates =>
    obtain ⟨first, hfirst, h⟩ := bind_eq_ok h
    obtain ⟨resolved, htest, h⟩ := bind_eq_ok h
    obtain ⟨programs, hprograms, h⟩ := bind_eq_ok h
    cases h
    simp only [Expr.value, runAll_append, runAll_compile base hfirst, runAll_singleton, bind_assoc,
      pure_bind, Op.run, stepFrom, htest, keepAll_compileEach predicates hprograms]
    rfl
  | filter base predicate =>
    obtain ⟨first, hfirst, h⟩ := bind_eq_ok h
    obtain ⟨second, hsecond, h⟩ := bind_eq_ok h
    cases h
    simp only [Expr.value, runAll_append, runAll_compile base hfirst, runAll_singleton, bind_assoc,
      pure_bind, Op.run, runAll_compile predicate hsecond, bind_topOf, keep_eq_chosen]
  | call name arguments =>
    obtain ⟨function, hfunction, h⟩ := bind_eq_ok h
    obtain ⟨programs, hprograms, h⟩ := bind_eq_ok h
    cases h
    simp only [Expr.value, runAll_append, runAll_compileEach arguments hprograms, runAll_singleton,
      bind_assoc, pure_bind, hfunction]
    cases hvalues : valueEach table doc arguments ctx with
    | error fault => rfl
    | ok values =>
      have hlength := length_valueEach hvalues
      exact hlength ▸ run_call function values stack

/-- The programs of several expressions push their values in turn. -/
theorem runAll_compileEach (es : List Expr) {programs : List Program}
    (h : compileEach table es = .ok programs) (ctx : Context) (stack : List Value) :
    runAll doc ctx programs.flatten stack = (do
      let values ← valueEach table doc es ctx
      return values.reverse ++ stack) := by
  cases es with
  | nil =>
    cases h
    rfl
  | cons e rest =>
    obtain ⟨program, hprogram, h⟩ := bind_eq_ok h
    obtain ⟨others, hothers, h⟩ := bind_eq_ok h
    cases h
    simp only [flatten_cons, valueEach, runAll_append, runAll_compile e hprogram,
      runAll_compileEach rest hothers, bind_assoc, pure_bind, reverse_cons,
      append_assoc, singleton_append]

/-- The programs of several predicates keep the nodes that the predicates keep. -/
theorem keepAll_compileEach (predicates : List Expr) {programs : List Program}
    (h : compileEach table predicates = .ok programs) (nodes : List NodeId) :
    keepAll doc programs nodes = chosenInTurn table doc predicates nodes := by
  cases predicates with
  | nil =>
    cases h
    rfl
  | cons predicate rest =>
    obtain ⟨program, hprogram, h⟩ := bind_eq_ok h
    obtain ⟨others, hothers, h⟩ := bind_eq_ok h
    cases h
    simp only [keepAll, chosenInTurn, runAll_compile predicate hprogram, bind_assoc, pure_bind,
      bind_topOf, keep_eq_chosen, keepAll_compileEach rest hothers]

end

theorem eval_compile {e : Expr} {program : Program} (h : e.compile table = .ok program)
    (doc : Document) (ctx : Context) : program.eval doc ctx = e.value table doc ctx := by
  rw [Program.eval, runAll_compile e h]
  simp only [bind_assoc, pure_bind, bind_topOf]

/-! ## Faults -/

def Fault.isMissingOperand : Fault → Bool
  | .stackUnderflow | .malformedCall _ => true
  | _ => false

/-- Whatever goes wrong, no operand is missing. -/
def Supplied (m : Except Fault α) : Prop :=
  ∀ fault, m = .error fault → fault.isMissingOperand = false

namespace Supplied

theorem ok (a : α) : Supplied (.ok a) := by
  rintro fault ⟨⟩

theorem error {fault : Fault} (h : fault.isMissingOperand = false) :
    Supplied (.error fault : Except Fault α) := by
  rintro fault ⟨⟩
  exact h

theorem bind {m : Except Fault α} {f : α → Except Fault β} (hm : Supplied m)
    (hf : ∀ a, Supplied (f a)) : Supplied (m >>= f) := by
  cases m with
  | error fault =>
    rintro fault ⟨⟩
    exact hm _ rfl
  | ok a => exact hf a

theorem map {m : Except Fault α} (hm : Supplied m) (f : α → β) : Supplied (m.map f) := by
  cases m with
  | error fault =>
    rintro fault ⟨⟩
    exact hm _ rfl
  | ok a => exact .ok (f a)

theorem mapM {f : α → Except Fault β} (hf : ∀ a, Supplied (f a)) (as : List α) :
    Supplied (as.mapM f) := by
  induction as with
  | nil => exact .ok []
  | cons a rest ih =>
    rw [mapM_cons]
    exact (hf a).bind fun b => ih.bind fun bs => .ok (b :: bs)

theorem chosen {predicate : Context → Except Fault Value} (h : ∀ c, Supplied (predicate c))
    (nodes : List NodeId) : Supplied (chosen predicate nodes) :=
  (mapM (fun _ => (h _).bind fun _ => .ok _) _).bind fun _ => .ok _

theorem nodes {fault : ValueType → Fault} (h : ∀ type, (fault type).isMissingOperand = false)
    (value : Value) : Supplied (value.nodes fault) := by
  cases value with
  | nodeSet nodes => exact .ok nodes
  | boolean | number | string => exact .error (h _)

theorem resolve_table (table : PrefixTable) (nsPrefix : String) :
    Supplied (table.resolve nsPrefix) := by
  unfold PrefixTable.resolve
  split
  · exact .ok _
  · split
    · exact .ok _
    · split
      · exact .ok _
      · exact .error rfl

theorem resolve_test (table : PrefixTable) (test : NodeTest) : Supplied (test.resolve table) := by
  unfold NodeTest.resolve
  split
  · exact (resolve_table table _).map _
  · exact (resolve_table table _).map _
  · exact .ok _

theorem resolve_function (name : String) (count : Nat) : Supplied (Function.resolve name count) := by
  unfold Function.resolve
  split
  · exact .error rfl
  · split
    · exact .error rfl
    · split
      · exact .ok _
      · exact .error rfl

theorem unionOf (left right : Value) : Supplied (unionOf doc left right) := by
  unfold XPath.unionOf
  split
  · exact .ok _
  · exact .error rfl

theorem nodesOf (f : Function) (argument : Value) : Supplied (f.nodesOf argument) :=
  nodes (fun _ => rfl) argument

theorem aboutName (f : Function) (arguments : List Value) (what : NodeId → String) :
    Supplied (f.aboutName doc ctx arguments what) := by
  have hnode : Supplied (f.nodeOf ctx arguments) := by
    unfold Function.nodeOf
    split
    · exact .ok _
    · exact (nodesOf f _).map _
  exact hnode.bind fun _ => .ok _

theorem apply (f : Function) (arguments : List Value) : Supplied (f.apply doc ctx arguments) := by
  unfold Function.apply
  split
  all_goals try exact .ok _
  -- what is left takes nodes, or is called with the wrong number of arguments
  · exact (nodesOf _ _).map _
  · exact aboutName _ _ _
  · exact aboutName _ _ _
  · exact aboutName _ _ _
  · exact (nodesOf _ _).map _
  · exact .error rfl

end Supplied

mutual

theorem value_supplied (e : Expr) (ctx : Context) : Supplied (e.value table doc ctx) := by
  cases e with
  | root | context | number value | string text => exact .ok _
  | negate operand => exact (value_supplied operand ctx).bind fun _ => .ok _
  | binary op left right =>
    exact (value_supplied left ctx).bind fun _ => (value_supplied right ctx).bind fun _ => .ok _
  | union left right =>
    exact (value_supplied left ctx).bind fun _ => (value_supplied right ctx).bind fun _ =>
      .unionOf _ _
  | path base axis test predicates =>
    exact (value_supplied base ctx).bind fun _ => (Supplied.nodes (fun _ => rfl) _).bind fun _ =>
      (Supplied.resolve_test table test).bind fun _ =>
        (Supplied.mapM (fun _ => chosenInTurn_supplied predicates _) _).bind fun _ => .ok _
  | filter base predicate =>
    exact (value_supplied base ctx).bind fun _ => (Supplied.nodes (fun _ => rfl) _).bind fun _ =>
      (Supplied.chosen (fun c => value_supplied predicate c) _).bind fun _ => .ok _
  | call name arguments =>
    exact (Supplied.resolve_function name _).bind fun function =>
      (valueEach_supplied arguments ctx).bind fun values => .apply function values

theorem valueEach_supplied (es : List Expr) (ctx : Context) :
    Supplied (valueEach table doc es ctx) := by
  cases es with
  | nil => exact .ok []
  | cons e rest =>
    exact (value_supplied e ctx).bind fun _ => (valueEach_supplied rest ctx).bind fun _ => .ok _

theorem chosenInTurn_supplied (predicates : List Expr) (nodes : List NodeId) :
    Supplied (chosenInTurn table doc predicates nodes) := by
  cases predicates with
  | nil => exact .ok nodes
  | cons predicate rest =>
    exact (Supplied.chosen (fun c => value_supplied predicate c) nodes).bind fun kept =>
      chosenInTurn_supplied rest kept

end

/-! ## Evaluation -/

/-- **A program has the value of its expression, or its fault.** No operand is ever missing, and one
value is left when the program is through. -/
theorem compile_keeps_meaning (text : String) (table : PrefixTable) (program : Program)
    (h : compile text table = .ok program) (doc : Document) (ctx : Context) :
    ∃ e, parse text = .ok e ∧
      program.eval doc ctx = e.value table doc ctx ∧
      (∀ fault, program.eval doc ctx = .error fault →
        fault ≠ .stackUnderflow ∧ ∀ function, fault ≠ .malformedCall function) ∧
      ∀ stack, runAll doc ctx program [] = .ok stack → stack.length = 1 := by
  obtain ⟨e, hparse, hcompile⟩ := bind_eq_ok h
  have heval := eval_compile hcompile doc ctx
  refine ⟨e, hparse, heval, fun fault hfault => ?_, fun stack hstack => ?_⟩
  · have hsupplied := value_supplied e ctx fault (heval.symm.trans hfault)
    constructor
    · rintro rfl
      cases hsupplied
    · rintro function rfl
      cases hsupplied
  · rw [runAll_compile e hcompile] at hstack
    obtain ⟨value, -, hstack⟩ := bind_eq_ok hstack
    cases hstack
    rfl

theorem meaning_of_filtered_union :
    ∃ program, compile "(*[. = 'x'] | //..)[@*]/." {} = .ok program ∧
      ∃ e, parse "(*[. = 'x'] | //..)[@*]/." = .ok e ∧
        program.eval (.empty 0) ⟨0, 1, 1⟩ = e.value {} (.empty 0) ⟨0, 1, 1⟩ ∧
        (∀ fault, program.eval (.empty 0) ⟨0, 1, 1⟩ = .error fault →
          fault ≠ .stackUnderflow ∧ ∀ function, fault ≠ .malformedCall function) ∧
        ∀ stack, runAll (.empty 0) ⟨0, 1, 1⟩ program [] = .ok stack → stack.length = 1 := by
  have h : compile "(*[. = 'x'] | //..)[@*]/." {} = .ok
      [.context,
        .step .child .any [[.context, .step .self .node [], .string "x", .binary .eq]],
        .root, .step .descendantOrSelf .node [], .step .parent .node [], .union,
        .filter [.context, .step .attribute .any []], .step .self .node []] := by
    cbv
  exact ⟨_, h, compile_keeps_meaning _ _ _ h _ _⟩

end Xml.XPath
