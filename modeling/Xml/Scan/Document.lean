import Xml.Scan.Content

/-!
# Scanning a document

The whole document: an XML declaration if there is one, then content, and at the end nothing may
be left open. The result is the list of events and the fatal problem, if one ended the scan; that
problem is also the last event.
-/

namespace Xml

open Text

namespace Scan

/-- What the pseudo-attribute `standalone` says. -/
def standaloneValue : Option String → ScanM (Option Bool)
  | none => pure none
  | some "yes" => pure (some true)
  | some "no" => pure (some false)
  | some value => do
    tell (.warning (.standaloneValue value))
    return none

/-- The XML declaration, from behind its `<?xml`. -/
def takeXmlDeclaration (env : Env) (inside : List Char) : ScanM (List Char) :=
  match readXmlDeclaration inside with
  | .error problem => fail env problem env.text
  | .ok (d, rest) =>
    match d.version with
    | none => fail env .versionMissing env.text
    | some version => do
      let standalone ← standaloneValue d.standalone
      tell (.xmlDeclaration version d.encoding standalone)
      return rest

/-- Ends the scan if an element is still open or none was there. -/
def checkEnd (env : Env) : ScanM Unit := do
  let s ← get
  match s.opened with
  | tag :: _ => fail env (.prematureEnd tag) []
  | [] =>
    unless s.seenRoot do
      fail env .emptyDocument []

def document (env : Env) : ScanM Unit := do
  let rest ←
    match xmlDeclaration? env.text with
    | some inside => takeXmlDeclaration env inside
    | none => pure env.text
  content env 0 rest
  flush
  checkEnd env

structure Outcome where
  events : List Event
  fatal : Option ParseError

def run (env : Env) : Outcome :=
  match document env { events := #[.startDocument] } with
  | .ok _ s => ⟨(s.events.push .endDocument).toList, none⟩
  | .error e s => ⟨(s.events.push (.error e)).toList, some e⟩

end Scan

/-- Scans a text that is decoded and has its line ends normalized. -/
def scanText (text : List Char) (options : ParseOptions) (files : Files) : Scan.Outcome :=
  Scan.run ⟨text, options, files⟩

/-- Decodes bytes and scans them. When they cannot be decoded the only event is that problem. -/
def scanBytes (bytes : List UInt8) (hint : Option String) (options : ParseOptions)
    (files : Files) : Scan.Outcome :=
  match Encoding.decode bytes hint files.charsets with
  | .error e => ⟨[.error e], some e⟩
  | .ok text => scanText (normalizeNewlines text) options files

end Xml
