/-!
# Expressions

The syntax of expressions. A location path is a chain of steps, each applied to what is to its left;
a relative path begins at the context node. The abbreviations `.`, `..` and `//` are written out as
steps.
-/

namespace Xml.XPath

/-- The directions a step can go. -/
inductive Axis where
  | child
  | descendant
  | descendantOrSelf
  | parent
  | ancestor
  | ancestorOrSelf
  | followingSibling
  | precedingSibling
  | following
  | preceding
  | self
  | attribute
  | namespace
  deriving DecidableEq, Repr

namespace Axis

def ofName? : String → Option Axis
  | "child" => some .child
  | "descendant" => some .descendant
  | "descendant-or-self" => some .descendantOrSelf
  | "parent" => some .parent
  | "ancestor" => some .ancestor
  | "ancestor-or-self" => some .ancestorOrSelf
  | "following-sibling" => some .followingSibling
  | "preceding-sibling" => some .precedingSibling
  | "following" => some .following
  | "preceding" => some .preceding
  | "self" => some .self
  | "attribute" => some .attribute
  | "namespace" => some .namespace
  | _ => none

/-- The nodes of such an axis come nearest first, against document order. -/
def isReverse : Axis → Bool
  | .parent | .ancestor | .ancestorOrSelf | .precedingSibling | .preceding => true
  | _ => false

end Axis

/-- Which nodes of an axis a step takes. In an expression a name is qualified by its prefix, in a
program by its namespace. -/
inductive NodeTest where
  /-- Any node of the kind the axis is about. -/
  | any
  /-- A name in no namespace. -/
  | name (localPart : String)
  | qname (qualifier localPart : String)
  | anyIn (qualifier : String)
  | node
  | text
  | comment
  | instruction (target : Option String)
  deriving DecidableEq, Repr

/-- The operators between two operands. -/
inductive BinaryOp where
  | or
  | and
  | eq
  | notEq
  | lt
  | ltEq
  | gt
  | gtEq
  | add
  | sub
  | mul
  | div
  | mod
  deriving DecidableEq, Repr

inductive Expr where
  /-- The top of the tree of the context node. -/
  | root
  | context
  | union (left right : Expr)
  /-- A step from every node of the base, with its predicates. -/
  | path (base : Expr) (axis : Axis) (test : NodeTest) (predicates : List Expr)
  /-- The nodes of the base for which a predicate holds. -/
  | filter (base predicate : Expr)
  | call (function : String) (arguments : List Expr)
  | binary (op : BinaryOp) (left right : Expr)
  | negate (operand : Expr)
  | number (value : Float)
  | string (text : String)
  deriving Repr

/-- A step `base//…`, from every node of the base and what is below it. -/
def Expr.deep (base : Expr) : Expr :=
  .path base .descendantOrSelf .node []

end Xml.XPath
