import Xml.Scan.Document

/-!
# Streaming

The events of a document for readers that want no tree. Text in CDATA sections is told apart from
other text, a reference left in place comes as the characters it is written with, and processing
instructions and declarations are not passed on.
-/

namespace Xml

inductive SaxEvent where
  | startDocument
  | endDocument
  /-- The attributes are names and values in turn, declarations of namespaces included. -/
  | startElement (name : String) (attributes : List String)
  | endElement (name : String)
  | characters (text : String)
  | cdataBlock (text : String)
  | comment (text : String)
  | error (message : String)
  | warning (message : String)
  deriving DecidableEq, Repr

namespace SaxEvent

/-- The event begins an element. -/
def isStartElement : SaxEvent → Bool
  | .startElement _ _ => true
  | _ => false

def isEndElement : SaxEvent → Bool
  | .endElement _ => true
  | _ => false

end SaxEvent

namespace Sax

def flatten (attributes : List Attribute) : List String :=
  attributes.flatMap fun a => [a.name, a.value]

/-- What an event becomes, and whether a CDATA section is open after it. -/
def pass (inCData : Bool) : Event → Option SaxEvent × Bool
  | .startDocument => (some .startDocument, inCData)
  | .endDocument => (some .endDocument, inCData)
  | .startElement name attributes => (some (.startElement name (flatten attributes)), inCData)
  | .endElement name => (some (.endElement name), inCData)
  | .characters text => (some (if inCData then .cdataBlock text else .characters text), inCData)
  | .startCData => (none, true)
  | .endCData => (none, false)
  | .comment text => (some (.comment text), inCData)
  | .entityReference name (some _) =>
    let text := "&" ++ name ++ ";"
    (some (if inCData then .cdataBlock text else .characters text), inCData)
  | .entityReference _ none => (none, inCData)
  | .error e => (some (.error e.describe), inCData)
  | .warning w => (some (.warning w.message), inCData)
  | .xmlDeclaration _ _ _ => (none, inCData)
  | .doctype _ => (none, inCData)
  | .instruction _ _ => (none, inCData)

def streamFrom (inCData : Bool) : List Event → List SaxEvent
  | [] => []
  | event :: rest =>
    match pass inCData event with
    | (some out, inCData) => out :: streamFrom inCData rest
    | (none, inCData) => streamFrom inCData rest

def stream (events : List Event) : List SaxEvent :=
  streamFrom false events

end Sax

/-- Streams a document: its events and the fatal problem, if there is one. -/
def saxBytes (bytes : List UInt8) (hint : Option String) (options : ParseOptions) (files : Files) :
    List SaxEvent × Option ParseError :=
  let outcome := scanBytes bytes hint options files
  (Sax.stream outcome.events, outcome.fatal)

end Xml
