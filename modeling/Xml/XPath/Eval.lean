import Xml.XPath.Axes
import Xml.XPath.Call
import Xml.XPath.Compare
import Xml.XPath.Parser
import Xml.XPath.Program

/-!
# Evaluating programs

A program works on a stack of values, the top one first in the list. Every operation takes its
operands from the stack and leaves one value there, so a program made from an expression never
runs out of operands.
-/

namespace Xml.XPath

def BinaryOp.apply (op : BinaryOp) (doc : Document) (left right : Value) : Value :=
  let arithmetic := fun f : Float → Float → Float =>
    Value.number (f (left.toNumber doc) (right.toNumber doc))
  match op with
  | .or => .boolean (left.toBoolean || right.toBoolean)
  | .and => .boolean (left.toBoolean && right.toBoolean)
  | .add => arithmetic (· + ·)
  | .sub => arithmetic (· - ·)
  | .mul => arithmetic (· * ·)
  | .div => arithmetic (· / ·)
  | .mod => arithmetic Number.remainder
  | op => .boolean (compareValues doc op left right)

def unionOf (doc : Document) (left right : Value) : Except Fault Value :=
  match left, right with
  | .nodeSet l, .nodeSet r => .ok (.nodeSet (doc.sort (l ++ r)))
  | _, _ => .error .unionOfOthers

/-- The value of a predicate keeps the node at a position: a number does if it is the position,
anything else if it is true. -/
def Value.keeps (value : Value) (position : Nat) : Bool :=
  match value with
  | .number x => numberOfNat position == x
  | value => value.toBoolean

def keepFrom (evaluate : Context → Except Fault Value) (size : Nat) :
    Nat → List NodeId → Except Fault (List NodeId)
  | _, [] => .ok []
  | position, node :: rest => do
    let value ← evaluate ⟨node, position, size⟩
    let kept ← keepFrom evaluate size (position + 1) rest
    return if value.keeps position then node :: kept else kept

def keep (evaluate : Context → Except Fault Value) (nodes : List NodeId) :
    Except Fault (List NodeId) :=
  keepFrom evaluate nodes.length 1 nodes

def topOf (stack : List Value) : Except Fault Value :=
  match stack with
  | value :: _ => .ok value
  | [] => .error .stackUnderflow

/-- The nodes a step selects from several nodes, in document order. -/
def stepFrom (doc : Document) (axis : Axis) (test : NodeTest)
    (select : List NodeId → Except Fault (List NodeId)) (nodes : List NodeId) :
    Except Fault Value := do
  let selected ← nodes.mapM fun node =>
    select ((axis.nodes doc node).filter (test.accepts doc axis.principal))
  return .nodeSet (doc.sort selected.flatten)

mutual

def Op.run (doc : Document) (ctx : Context) (op : Op) (stack : List Value) :
    Except Fault (List Value) :=
  match op with
  | .root => .ok (.nodeSet [(doc.lineage ctx.node).getLastD ctx.node] :: stack)
  | .context => .ok (.nodeSet [ctx.node] :: stack)
  | .number value => .ok (.number value :: stack)
  | .string text => .ok (.string text :: stack)
  | .step axis test predicates =>
    match stack with
    | value :: stack => do
      let nodes ← value.nodes .stepOn
      let result ← stepFrom doc axis test (fun selected => keepAll doc predicates selected) nodes
      return result :: stack
    | [] => .error .stackUnderflow
  | .filter predicate =>
    match stack with
    | value :: stack => do
      let nodes ← value.nodes .predicateOn
      let kept ← keep (fun c => do topOf (← runAll doc c predicate [])) nodes
      return .nodeSet kept :: stack
    | [] => .error .stackUnderflow
  | .union =>
    match stack with
    | right :: left :: stack => do
      let result ← unionOf doc left right
      return result :: stack
    | _ => .error .stackUnderflow
  | .binary op =>
    match stack with
    | right :: left :: stack => .ok (op.apply doc left right :: stack)
    | _ => .error .stackUnderflow
  | .negate =>
    match stack with
    | value :: stack => .ok (.number (-value.toNumber doc) :: stack)
    | [] => .error .stackUnderflow
  | .call function count =>
    if stack.length < count then .error (.malformedCall function.label)
    else do
      let result ← function.apply doc ctx (stack.take count).reverse
      return result :: stack.drop count

def runAll (doc : Document) (ctx : Context) (program : List Op) (stack : List Value) :
    Except Fault (List Value) :=
  match program with
  | [] => .ok stack
  | op :: rest => do
    let stack ← op.run doc ctx stack
    runAll doc ctx rest stack

def keepAll (doc : Document) (predicates : List (List Op)) (nodes : List NodeId) :
    Except Fault (List NodeId) :=
  match predicates with
  | [] => .ok nodes
  | predicate :: rest => do
    let kept ← keep (fun c => do topOf (← runAll doc c predicate [])) nodes
    keepAll doc rest kept

end

def Program.eval (program : Program) (doc : Document) (ctx : Context) : Except Fault Value := do
  topOf (← runAll doc ctx program [])

def compile (text : String) (table : PrefixTable) : Except Fault Program := do
  (← parse text).compile table

def evaluate (doc : Document) (ctx : Context) (text : String) (table : PrefixTable) :
    Except Fault Value := do
  let program ← compile text table
  program.eval doc ctx

end Xml.XPath
