import Xml.Namespace.Scopes
import Xml.XPath.Expr
import Xml.XPath.Function

/-!
# Programs

An expression is made into a program for a stack of values. The prefixes of its name tests are
replaced by namespaces on the way, so that a program is good only for the table of prefixes it was
made with.
-/

namespace Xml.XPath

/-- An operation of a program. -/
inductive Op where
  /-- Pushes the top of the tree of the context node. -/
  | root
  /-- Pushes the context node. -/
  | context
  /-- Takes a step from every node of the set on the stack. Each predicate is a program. -/
  | step (axis : Axis) (test : NodeTest) (predicates : List (List Op))
  /-- Keeps the nodes of the set on the stack for which a predicate holds. -/
  | filter (predicate : List Op)
  | union
  | number (value : Float)
  | string (text : String)
  | call (function : Function) (count : Nat)
  | binary (op : BinaryOp)
  | negate
  deriving Repr

/-- A program. -/
abbrev Program := List Op

/-- The namespaces of the prefixes an expression may use. -/
structure PrefixTable where
  entries : List (String × String) := []
  deriving DecidableEq, Repr

namespace PrefixTable

/-- Binds a prefix, in place of what it was bound to. -/
def bind (table : PrefixTable) (nsPrefix uri : String) : PrefixTable :=
  ⟨table.entries.filter (·.1 != nsPrefix) ++ [(nsPrefix, uri)]⟩

/-- A table with these bindings, the later ones winning. -/
def ofList (entries : List (String × String)) : PrefixTable :=
  entries.foldl (fun table (nsPrefix, uri) => table.bind nsPrefix uri) {}

/-- The namespace of a prefix. Two of them are fixed. -/
def resolve (table : PrefixTable) (nsPrefix : String) : Except Fault String :=
  if nsPrefix == "xml" then .ok Namespace.xmlUri
  else if nsPrefix == "xmlns" then .ok Namespace.xmlnsUri
  else
    match table.entries.lookup nsPrefix with
    | some uri => .ok uri
    | none => .error (.undefinedPrefix nsPrefix)

end PrefixTable

def NodeTest.resolve (table : PrefixTable) : NodeTest → Except Fault NodeTest
  | .qname p l => (table.resolve p).map (.qname · l)
  | .anyIn p => (table.resolve p).map .anyIn
  | test => .ok test

mutual

def Expr.compile (table : PrefixTable) : Expr → Except Fault Program
  | .root => .ok [.root]
  | .context => .ok [.context]
  | .number value => .ok [.number value]
  | .string text => .ok [.string text]
  | .negate operand => do
    let program ← operand.compile table
    return program ++ [.negate]
  | .binary op left right => do
    let first ← left.compile table
    let second ← right.compile table
    return first ++ second ++ [.binary op]
  | .union left right => do
    let first ← left.compile table
    let second ← right.compile table
    return first ++ second ++ [.union]
  | .path base axis test predicates => do
    let program ← base.compile table
    let test ← test.resolve table
    let predicates ← compileEach table predicates
    return program ++ [.step axis test predicates]
  | .filter base predicate => do
    let program ← base.compile table
    let predicate ← predicate.compile table
    return program ++ [.filter predicate]
  | .call name arguments => do
    let function ← Function.resolve name arguments.length
    let programs ← compileEach table arguments
    return programs.flatten ++ [.call function arguments.length]

def compileEach (table : PrefixTable) : List Expr → Except Fault (List Program)
  | [] => .ok []
  | e :: rest => do
    let program ← e.compile table
    let programs ← compileEach table rest
    return program :: programs

end

end Xml.XPath
