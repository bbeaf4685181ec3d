import Xml.XPath.Expr
import Xml.XPath.Value

/-!
# Comparing values

A set of nodes compares as one of its nodes does, if any. Otherwise `=` and `!=` compare as
booleans if one side is a boolean, as numbers if one is a number, and as strings else; the other
comparisons are between numbers.
-/

namespace Xml.XPath

def compareNumbers (op : BinaryOp) (a b : Float) : Bool :=
  match op with
  | .eq => a == b
  | .notEq => a != b
  | .lt => a < b
  | .ltEq => a ≤ b
  | .gt => b < a
  | .gtEq => b ≤ a
  | _ => false

/-- Compares texts, as numbers unless it is for equality. -/
def compareTexts (op : BinaryOp) (a b : String) : Bool :=
  match op with
  | .eq => a == b
  | .notEq => a != b
  | op => compareNumbers op (Number.ofText a) (Number.ofText b)

/-- Compares booleans, as numbers unless it is for equality. -/
def compareBooleans (op : BinaryOp) (a b : Bool) : Bool :=
  match op with
  | .eq => a == b
  | .notEq => a != b
  | op => compareNumbers op (Value.numberOfBoolean a) (Value.numberOfBoolean b)

def BinaryOp.flip : BinaryOp → BinaryOp
  | .lt => .gt
  | .ltEq => .gtEq
  | .gt => .lt
  | .gtEq => .ltEq
  | op => op

def compareNodes (doc : Document) (op : BinaryOp) (nodes : List NodeId) (other : Value) : Bool :=
  match other with
  | .boolean b => compareBooleans op (!nodes.isEmpty) b
  | .number x => nodes.any fun n => compareNumbers op (Number.ofText (doc.textContent n)) x
  | .string s => nodes.any fun n => compareTexts op (doc.textContent n) s
  | .nodeSet others =>
    let texts := others.map doc.textContent
    nodes.any fun n =>
      let text := doc.textContent n
      texts.any (compareTexts op text)

def compareSimple (doc : Document) (op : BinaryOp) (left right : Value) : Bool :=
  match op, left, right with
  | .eq, .boolean _, _ | .notEq, .boolean _, _ | .eq, _, .boolean _ | .notEq, _, .boolean _ =>
    compareBooleans op left.toBoolean right.toBoolean
  | .eq, .string a, .string b | .notEq, .string a, .string b => compareTexts op a b
  | _, _, _ => compareNumbers op (left.toNumber doc) (right.toNumber doc)

def compareValues (doc : Document) (op : BinaryOp) (left right : Value) : Bool :=
  match left, right with
  | .nodeSet nodes, other => compareNodes doc op nodes other
  | other, .nodeSet nodes => compareNodes doc op.flip nodes other
  | left, right => compareSimple doc op left right

end Xml.XPath
