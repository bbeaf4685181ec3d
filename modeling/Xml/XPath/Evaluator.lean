import Xml.Error
import Xml.NodeSet
import Xml.XPath.Eval

/-!
# Evaluators

An evaluator holds a context node and a table of prefixes, and remembers the programs of the
expressions it was asked for last. A program depends on the table, so they are all forgotten when a
prefix is bound.

Several expressions can be evaluated at a time. The evaluations share the cache and nothing else:
each gets its program in one move, for which it has the cache to itself, and runs it in another.
-/

namespace Xml.XPath

/-- What an evaluator needs of a cache. To find a program is to use it, so that changes the cache
too. -/
class ProgramCache (σ : Type) where
  empty : σ
  find? : σ → String → Option Program × σ
  put : σ → String → Program → σ
  clear : σ → σ

/-- Programs by the text of their expressions, latest used first. -/
structure Cache where
  entries : List (String × Program) := []

namespace Cache

/-- The number of programs a cache holds at most. -/
def capacity : Nat := 64

/-- Puts a program in front. Of too many the one not used for longest goes. -/
def put (cache : Cache) (text : String) (program : Program) : Cache :=
  ⟨((text, program) :: cache.entries.filter (·.1 != text)).take capacity⟩

/-- The program of an expression, which moves to the front. -/
def find? (cache : Cache) (text : String) : Option Program × Cache :=
  match cache.entries.lookup text with
  | some program => (some program, cache.put text program)
  | none => (none, cache)

@[default_instance]
instance : ProgramCache Cache where
  empty := {}
  find? := find?
  put := put
  clear _ := {}

end Cache

/-- The value of an expression with its nodes as references. -/
inductive Answer where
  | nodeSet (set : NodeSet)
  | boolean (value : Bool)
  | number (value : Float)
  | string (text : String)

namespace Answer

def ofValue (doc : Document) : Value → Answer
  | .nodeSet nodes => .nodeSet (NodeSet.ofIds doc nodes)
  | .boolean value => .boolean value
  | .number value => .number value
  | .string text => .string text

def type : Answer → ValueType
  | .nodeSet _ => .nodeSet
  | .boolean _ => .boolean
  | .number _ => .number
  | .string _ => .string

def nodeSetOf (answer : Answer) (text : String) : Except Error NodeSet :=
  match answer with
  | .nodeSet set => .ok set
  | other => .error (.notNodeSet text other.type)

end Answer

/-- A context node with a table of prefixes. -/
structure Evaluator (σ : Type := Cache) [ProgramCache σ] where
  node : NodeRef
  table : PrefixTable := {}
  cache : σ := ProgramCache.empty

inductive Evaluation where
  | asked (doc : Document) (text : String)
  | compiled (doc : Document) (text : String) (program : Program)
  | answered (answer : Except Error Answer)

def Evaluation.answer? : Evaluation → Option (Except Error Answer)
  | .answered answer => some answer
  | _ => none

namespace Evaluator

variable {σ : Type} [ProgramCache σ]

/-- Binds a prefix. The fixed ones stay as they are. -/
def register (e : Evaluator σ) (nsPrefix uri : String) : Evaluator σ :=
  if nsPrefix == "xml" || nsPrefix == "xmlns" then e
  else { e with table := e.table.bind nsPrefix uri, cache := ProgramCache.clear e.cache }

def registerAll (e : Evaluator σ) (bindings : List (String × String)) : Evaluator σ :=
  bindings.foldl (fun e (nsPrefix, uri) => e.register nsPrefix uri) e

/-- The program of an expression, a remembered one if there is one. -/
def program (e : Evaluator σ) (text : String) : Except Fault Program × Evaluator σ :=
  match ProgramCache.find? e.cache text with
  | (some program, cache) => (.ok program, { e with cache })
  | (none, cache) =>
    match compile text e.table with
    | .ok program => (.ok program, { e with cache := ProgramCache.put cache text program })
    | .error fault => (.error fault, { e with cache })

def prepare (e : Evaluator σ) (doc : Document) (text : String) :
    Except Error Program × Evaluator σ :=
  if e.node.isIn doc then
    match e.program text with
    | (.ok program, e) => (.ok program, e)
    | (.error fault, e) => (.error (.expression fault text), e)
  else (.error (.foreignContext e.node.doc doc.id), e)

def answer (e : Evaluator σ) (doc : Document) (text : String) (program : Program) :
    Except Error Answer :=
  match program.eval doc ⟨e.node.id, 1, 1⟩ with
  | .ok value => .ok (.ofValue doc value)
  | .error fault => .error (.expression fault text)

def evaluate (e : Evaluator σ) (doc : Document) (text : String) :
    Except Error Answer × Evaluator σ :=
  match e.prepare doc text with
  | (.ok program, e) => (e.answer doc text program, e)
  | (.error error, e) => (.error error, e)

def move (e : Evaluator σ) : Evaluation → Evaluation × Evaluator σ
  | .asked doc text =>
    match e.prepare doc text with
    | (.ok program, e) => (.compiled doc text program, e)
    | (.error error, e) => (.answered (.error error), e)
  | .compiled doc text program => (.answered (e.answer doc text program), e)
  | .answered answer => (.answered answer, e)

def moveAt (e : Evaluator σ) (evaluations : List Evaluation) (i : Nat) :
    List Evaluation × Evaluator σ :=
  match evaluations[i]? with
  | some evaluation =>
    let (evaluation, e) := e.move evaluation
    (evaluations.set i evaluation, e)
  | none => (evaluations, e)

def moveAll (e : Evaluator σ) (evaluations : List Evaluation) :
    List Nat → List Evaluation × Evaluator σ
  | [] => (evaluations, e)
  | i :: schedule =>
    let (evaluations, e) := e.moveAt evaluations i
    e.moveAll evaluations schedule

/-- Evaluates several expressions. They move as the schedule says, and then in turn until all are
through. -/
def evaluateAll (e : Evaluator σ) (doc : Document) (texts : List String)
    (schedule : List Nat := []) : List (Except Error Answer) × Evaluator σ :=
  let turns := List.range texts.length
  let (evaluations, e) := e.moveAll (texts.map (.asked doc)) (schedule ++ turns ++ turns)
  (evaluations.filterMap Evaluation.answer?, e)

end Evaluator

end Xml.XPath
