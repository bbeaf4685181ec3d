import Xml.Document.Walk
import Xml.Text.Escape

/-!
# Writing documents

The markup of a node is written with a stack of things still to be written instead of by recursion,
so that the depth of a document does not matter. A document is written with one of its top nodes a
line and without an XML declaration.
-/

namespace Xml.Document

def declarationMarkup (d : NamespaceDecl) : String :=
  let name := if d.nsPrefix.isEmpty then " xmlns" else " xmlns:" ++ d.nsPrefix
  name ++ "=\"" ++ Text.escapeAttribute d.uri ++ "\""

def attributeMarkup (doc : Document) (id : NodeId) : String :=
  match doc.get? id with
  | some node => node.name ++ "=\"" ++ Text.escapeAttribute node.content ++ "\""
  | none => ""

def openTag (doc : Document) (node : Node) : String :=
  "<" ++ node.name ++ String.join (node.declarations.map declarationMarkup)
    ++ String.join (node.attributes.map fun a => " " ++ doc.attributeMarkup a)

def closeTag (doc : Document) (id : NodeId) : String :=
  "</" ++ doc.nameOf id ++ ">"

/-- The identifiers and the subset of a document type declaration. -/
def doctypeTail (d : Doctype) : String :=
  let ids :=
    match d.publicId, d.systemId with
    | some p, some s => " PUBLIC \"" ++ p ++ "\" \"" ++ s ++ "\""
    | none, some s => " SYSTEM \"" ++ s ++ "\""
    | _, none => ""
  match d.subset with
  | some subset => ids ++ " [" ++ subset ++ "]"
  | none => ids

def leafMarkup (doc : Document) (id : NodeId) (node : Node) : String :=
  match node.kind with
  | .attribute => doc.attributeMarkup id
  | .text => Text.escapeText node.content
  | .cdata => "<![CDATA[" ++ String.ofList (Text.splitCData node.content.toList) ++ "]]>"
  | .comment => "<!--" ++ node.content ++ "-->"
  | .instruction =>
    if node.content.isEmpty then "<?" ++ node.name ++ "?>"
    else "<?" ++ node.name ++ " " ++ node.content ++ "?>"
  | .entityReference => "&" ++ node.name ++ ";"
  | .doctype =>
    "<!DOCTYPE " ++ node.name ++ ((doc.doctype.map doctypeTail).getD "") ++ ">"
  | .element | .document => ""

/-- What is still to be written. -/
inductive Pending where
  | enter (id : NodeId)
  | close (id : NodeId)
  deriving DecidableEq, Repr

/-- Puts the children of a node in front of what is still to be written. They are found from the
last one back, so that the first ends up foremost. -/
def enterChildren (doc : Document) (node : Node) (stack : List Pending) : List Pending :=
  (doc.siblingsBack node.lastChild).foldl (fun stack c => .enter c :: stack) stack

/-- Writes what is on the stack behind what is written. Every node is entered once and closed at
most once, which bounds the steps. -/
def writeFrom (doc : Document) : Nat → List Pending → String → String
  | 0, _, out => out
  | _, [], out => out
  | bound + 1, .close id :: stack, out => doc.writeFrom bound stack (out ++ doc.closeTag id)
  | bound + 1, .enter id :: stack, out =>
    match doc.get? id with
    | none => doc.writeFrom bound stack out
    | some node =>
      match node.kind with
      | .element =>
        let out := out ++ doc.openTag node
        if node.firstChild.isNone then doc.writeFrom bound stack (out ++ "/>")
        else doc.writeFrom bound (doc.enterChildren node (.close id :: stack)) (out ++ ">")
      | .document => doc.writeFrom bound (doc.enterChildren node stack) out
      | _ => doc.writeFrom bound stack (out ++ doc.leafMarkup id node)

def nodeMarkup (doc : Document) (id : NodeId) : String :=
  doc.writeFrom (2 * doc.size + 1) [.enter id] ""

/-- The markup of the document, each of its top nodes on a line. -/
def markup (doc : Document) : String :=
  String.join ((doc.children root).map fun id => doc.nodeMarkup id ++ "\n")

/-- The markup of a node, of the whole document for the document node. -/
def markupOf (doc : Document) (id : NodeId) : String :=
  if id == root then doc.markup else doc.nodeMarkup id

end Xml.Document
