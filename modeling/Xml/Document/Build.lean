import Xml.Document.Link
import Xml.Name
import Xml.Scan.Document

/-!
# Building documents

The events of a scan become the nodes of a document. Nodes are numbered as their events come, an
element directly before its attributes; text next to text is one node. Namespaces are resolved on
the way with the open scopes, and a prefix without a declaration is a problem that does not stop
the reading.
-/

namespace Xml.Document

/-- A document that is being built. -/
structure Builder where
  doc : Document
  /-- The elements that are open, innermost first. -/
  opened : List NodeId := []
  scopes : Namespace.Scopes := .initial
  /-- The CDATA section that is open. -/
  cdata : Option NodeId := none
  /-- The problems met so far that do not stop the reading, latest last. -/
  errors : Array ParseError := #[]

namespace Builder

/-- The node that takes the next child. -/
def current (b : Builder) : NodeId :=
  b.opened.headD root

def append (b : Builder) (node : Node) : NodeId × Builder :=
  let (id, doc) := b.doc.alloc node
  (id, { b with doc := doc.appendChild b.current id })

/-- Notes a problem with a name, whose place is not known here. -/
def nameProblem (b : Builder) (problem : Problem) : Builder :=
  { b with errors := b.errors.push ⟨problem, ⟨0, 0⟩⟩ }

def declarationOf (a : Attribute) : NamespaceDecl :=
  ⟨if a.name == "xmlns" then "" else localName a.name, a.value⟩

/-- The namespace of a prefix, or the problem that it has none. -/
def resolve (b : Builder) (nsPrefix : String) (problem : Problem) : String × Builder :=
  match b.scopes.resolve nsPrefix with
  | some uri => (uri, b)
  | none => ("", b.nameProblem problem)

def addAttribute (element : NodeId) (elementName : String) (b : Builder) (a : Attribute) :
    Builder :=
  let (uri, b) :=
    match QName.ofString a.name with
    | ⟨some p, localPart⟩ => b.resolve p (.unboundAttributePrefix p localPart elementName)
    | ⟨none, _⟩ => ("", b)
  let (id, doc) :=
    b.doc.alloc { kind := .attribute, name := a.name, namespaceUri := uri, content := a.value }
  { b with doc := doc.appendAttribute element id }

/-- Adds an element and opens it. Its own declarations count for its name. -/
def startElement (b : Builder) (name : String) (attributes : List Attribute) : Builder :=
  let isDeclaration := fun a : Attribute => isNamespaceDeclaration a.name
  let declarations := (attributes.filter isDeclaration).map declarationOf
  let scopes := declarations.foldl (fun s d => s.declare d.nsPrefix d.uri) b.scopes.push
  let b := { b with scopes }
  let (uri, b) :=
    match QName.ofString name with
    | ⟨some p, localPart⟩ => b.resolve p (.unboundElementPrefix p localPart)
    | ⟨none, _⟩ => ((scopes.resolve "").getD "", b)
  let (id, b) := b.append { kind := .element, name, namespaceUri := uri, declarations }
  let b := (attributes.filter fun a => !isDeclaration a).foldl (addAttribute id name) b
  { b with opened := id :: b.opened }

def endElement (b : Builder) : Builder :=
  { b with scopes := b.scopes.pop, opened := b.opened.tail }

/-- The text node that takes the next characters: the last child, if it is one. -/
def openText? (b : Builder) : Option NodeId :=
  match (b.doc.get? b.current).bind (·.lastChild) with
  | some last => if b.doc.kindOf last == some .text then some last else none
  | none => none

/-- Adds characters to the open CDATA section, to the text before them, or as a new text. -/
def characters (b : Builder) (text : String) : Builder :=
  match b.cdata.or b.openText? with
  | some id => { b with doc := b.doc.update id fun n => { n with content := n.content ++ text } }
  | none => (b.append { kind := .text, content := text }).2

def add (b : Builder) : Event → Builder
  | .startElement name attributes => b.startElement name attributes
  | .endElement _ => b.endElement
  | .characters text => b.characters text
  | .startCData =>
    let (id, b) := b.append { kind := .cdata }
    { b with cdata := some id }
  | .endCData => { b with cdata := none }
  | .comment text => (b.append { kind := .comment, content := text }).2
  | .instruction target data =>
    (b.append { kind := .instruction, name := target, content := data.getD "" }).2
  | .entityReference name replacement =>
    (b.append { kind := .entityReference, name, content := replacement.getD "" }).2
  | .doctype d =>
    let b := (b.append { kind := .doctype, name := d.name }).2
    { b with doc := { b.doc with doctype := some d } }
  | .error e => { b with errors := b.errors.push e }
  | .startDocument | .endDocument | .xmlDeclaration _ _ _ | .warning _ => b

end Builder

/-- Builds the document of a list of events, together with all problems that did not end the
scan. -/
def ofEvents (id : Nat) (events : List Event) : Document × List ParseError :=
  let doc := learnDeclaration (empty id) ⟨"xmlns", Namespace.xmlnsUri⟩
  let b := events.foldl Builder.add { doc }
  ({ b.doc with edited := false }, b.errors.toList)

/-- The document of a scan. A fatal problem gives none; neither does any other, unless they are to
be recovered from. -/
def ofOutcome (id : Nat) (outcome : Scan.Outcome) (recover : Bool) : Except ParseError Document :=
  match outcome.fatal with
  | some e => .error e
  | none =>
    let (doc, errors) := ofEvents id outcome.events
    if recover then .ok { doc with errors }
    else
      match errors with
      | e :: _ => .error e
      | [] => .ok doc

/-- Reads a document from bytes. The hint names the encoding of bytes that do not. -/
def parse (id : Nat) (bytes : List UInt8) (hint : Option String) (options : ParseOptions)
    (files : Files) : Except ParseError Document :=
  ofOutcome id (scanBytes bytes hint options files) options.recover

end Xml.Document
