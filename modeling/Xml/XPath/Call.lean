import Xml.Name
import Xml.Text.Reading
import Xml.XPath.Function
import Xml.XPath.Value

/-!
# Calling functions

What each function of the library does with its arguments.
-/

namespace Xml.XPath

/-- Where an expression is evaluated: a node, its position among those looked at, and their
number. -/
structure Context where
  node : NodeId
  position : Nat := 1
  size : Nat := 1
  deriving DecidableEq, Repr

def numberOfNat (n : Nat) : Float :=
  Number.nearest Bool.false n 1

/-! ## Strings -/

/-- The words of a text, that is what stands between blanks. -/
def words (text : List Char) : List (List Char) :=
  (text.splitBy fun a b => Text.isBlank a == Text.isBlank b).filter fun w => !Text.allBlank w

def normalizeSpace (text : String) : String :=
  String.ofList ((words text.toList).intersperse [' ']).flatten

/-- Replaces characters by those at the same places of another list, or drops them if that list is
too short. Of a character named twice the first place counts. -/
def translate (text source target : String) : String :=
  String.ofList <| text.toList.filterMap fun c =>
    let place := source.toList.idxOf c
    if place < source.toList.length then target.toList[place]? else some c

/-- The nearest whole number, a half going up. -/
def round (x : Float) : Float :=
  if x.isNaN || x.isInf then x
  else if -0.5 ≤ x && x < 0.0 then -0.0
  else (x + 0.5).floor

/-- The characters whose places, counted from one, are not before `start` and before `stop`. -/
def substring (text : String) (start stop : Float) : String :=
  String.ofList <| (text.toList.zipIdx 1).filterMap fun (c, place) =>
    let place := numberOfNat place
    if start ≤ place && place < stop then some c else none

def substringBefore (text mark : String) : String :=
  match Text.breakOn mark.toList text.toList with
  | some (before, _) => String.ofList before
  | none => ""

def substringAfter (text mark : String) : String :=
  match Text.breakOn mark.toList text.toList with
  | some (_, after) => String.ofList after
  | none => ""

/-! ## Nodes -/

/-- Only elements, attributes and instructions have names here. -/
def hasName (doc : Document) (id : NodeId) : Bool :=
  match doc.kindOf id with
  | some .element | some .attribute | some .instruction => .true
  | _ => .false

/-- The language of a node, from the nearest attribute that tells it, is the given one or a variety
of it. -/
def isInLanguage (doc : Document) (id : NodeId) (language : String) : Bool :=
  match (doc.lineage id).findSome? fun a => doc.attributeValue? a "xml:lang" with
  | none => .false
  | some value =>
    let value := Text.asciiLower value.toList
    let language := Text.asciiLower language.toList
    match Text.after? language value with
    | some [] => .true
    | some (c :: _) => c == '-'
    | none => .false

/-- The sum of the numbers that nodes stand for. The sum of none is the negative zero. -/
def sumOf (doc : Document) (nodes : List NodeId) : Float :=
  nodes.foldl (fun sum n => sum + Number.ofText (doc.textContent n)) (-0.0)

namespace Function

def nodesOf (f : Function) (argument : Value) : Except Fault (List NodeId) :=
  argument.nodes fun _ => .argumentNotNodes f.label

/-- The node a function on names is about: the first of its argument, or the context node. -/
def nodeOf (f : Function) (ctx : Context) (arguments : List Value) :
    Except Fault (Option NodeId) :=
  match arguments with
  | [] => .ok (some ctx.node)
  | argument :: _ => (f.nodesOf argument).map (·.head?)

/-- The text of an argument, or of the context node if there is none. -/
def textOf (doc : Document) (ctx : Context) (arguments : List Value) : String :=
  match arguments with
  | [] => doc.textContent ctx.node
  | argument :: _ => argument.toText doc

/-- Something about the name of a node, empty if it has none. -/
def aboutName (f : Function) (doc : Document) (ctx : Context) (arguments : List Value)
    (what : NodeId → String) : Except Fault Value := do
  let node ← f.nodeOf ctx arguments
  return .string ((node.filter (hasName doc)).elim "" what)

def apply (f : Function) (doc : Document) (ctx : Context) (arguments : List Value) :
    Except Fault Value :=
  match f, arguments with
  | .position, [] => .ok (.number (numberOfNat ctx.position))
  | .last, [] => .ok (.number (numberOfNat ctx.size))
  | .count, [v] => (f.nodesOf v).map fun nodes => .number (numberOfNat nodes.length)
  | .localName, vs => f.aboutName doc ctx vs fun n => Xml.localName (doc.nameOf n)
  | .namespaceUri, vs => f.aboutName doc ctx vs fun n => (doc.namespaceOf n).getD ""
  | .name, vs => f.aboutName doc ctx vs doc.nameOf
  | .string, vs => .ok (.string (textOf doc ctx vs))
  | .concat, vs => .ok (.string (String.join (vs.map (·.toText doc))))
  | .startsWith, [s, mark] =>
    .ok (.boolean ((mark.toText doc).toList.isPrefixOf (s.toText doc).toList))
  | .contains, [s, mark] =>
    .ok (.boolean (Text.contains (mark.toText doc).toList (s.toText doc).toList))
  | .substring, [s, start] =>
    .ok (.string
      (XPath.substring (s.toText doc) (XPath.round (start.toNumber doc)) Number.infinity))
  | .substring, [s, start, length] =>
    let start := XPath.round (start.toNumber doc)
    let stop := start + XPath.round (length.toNumber doc)
    .ok (.string (XPath.substring (s.toText doc) start stop))
  | .substringBefore, [s, mark] =>
    .ok (.string (XPath.substringBefore (s.toText doc) (mark.toText doc)))
  | .substringAfter, [s, mark] =>
    .ok (.string (XPath.substringAfter (s.toText doc) (mark.toText doc)))
  | .stringLength, vs => .ok (.number (numberOfNat (textOf doc ctx vs).length))
  | .normalizeSpace, vs => .ok (.string (XPath.normalizeSpace (textOf doc ctx vs)))
  | .translate, [s, source, target] =>
    .ok (.string (XPath.translate (s.toText doc) (source.toText doc) (target.toText doc)))
  | .boolean, [v] => .ok (.boolean v.toBoolean)
  | .not, [v] => .ok (.boolean (!v.toBoolean))
  | .true, [] => .ok (.boolean Bool.true)
  | .false, [] => .ok (.boolean Bool.false)
  | .lang, [v] => .ok (.boolean (isInLanguage doc ctx.node (v.toText doc)))
  | .number, [] => .ok (.number (Number.ofText (doc.textContent ctx.node)))
  | .number, [v] => .ok (.number (v.toNumber doc))
  | .sum, [v] => (f.nodesOf v).map fun nodes => .number (sumOf doc nodes)
  | .floor, [v] => .ok (.number (v.toNumber doc).floor)
  | .ceiling, [v] => .ok (.number (v.toNumber doc).ceil)
  | .round, [v] => .ok (.number (XPath.round (v.toNumber doc)))
  | f, vs => .error (.argumentCount f.label f.arity vs.length)

end Function

end Xml.XPath
