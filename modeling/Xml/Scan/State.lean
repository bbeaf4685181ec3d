import Xml.Event
import Xml.Encoding.Decode
import Xml.Files

/-!
# The state of a scan

A scan runs over a text with the options and files it was given, and changes a `State`: the events
so far, the open elements, character data not yet told, declared entities, and the entities that
are being expanded. A fatal problem ends the scan, and the state reached stays available.

Places are rests of the text. Inside the replacement text of an entity, problems are reported at
the outermost reference, which `State.anchor` keeps.
-/

namespace Xml.Scan

open Text

/-- What a scan is given. -/
structure Env where
  text : List Char
  options : ParseOptions
  files : Files

/-- How far a scan has come. -/
structure State where
  events : Array Event := #[]
  entities : EntityTable := {}
  /-- Names of the open elements, innermost first. -/
  opened : List String := []
  /-- Character data not yet told. -/
  pending : String := ""
  seenRoot : Bool := false
  seenDoctype : Bool := false
  /-- Entities being expanded, innermost first. -/
  expanding : List String := []
  /-- Bytes of replacement text entered so far. -/
  expandedBytes : Nat := 0
  /-- Where the outermost reference being expanded stands. -/
  anchor : List Char := []
  /-- How many elements were open when the current entity was entered. -/
  entityBase : Nat := 0

/-- A part of a scan: it changes the state and may end at a fatal problem. -/
abbrev ScanM := EStateM ParseError State

/-- How deep entities may be nested in each other. -/
def maxEntityDepth : Nat := 40

/-- How many bytes of replacement text one document may bring in. -/
def maxExpansion : Nat := 10000000

def tell (event : Event) : ScanM Unit :=
  modify fun s => { s with events := s.events.push event }

def Env.errorAt (env : Env) (problem : Problem) (place : List Char) : ParseError :=
  ⟨problem, Position.ofRest env.text place⟩

def fail {α : Type} (env : Env) (problem : Problem) (place : List Char) : ScanM α :=
  throw (env.errorAt problem place)

/-- Reports a problem the scan can go on after. -/
def report (env : Env) (problem : Problem) (place : List Char) : ScanM Unit :=
  tell (.error (env.errorAt problem place))

/-- Where a problem is reported: at its own place in the document, at the outermost reference
inside an entity. -/
def State.place (s : State) (depth : Nat) (rest : List Char) : List Char :=
  if depth = 0 then rest else s.anchor

/-- The place a problem at `rest` is reported at. -/
def placeOf (depth : Nat) (rest : List Char) : ScanM (List Char) := do
  return (← get).place depth rest

/-- Ends the scan for a problem at `rest`. -/
def failAt {α : Type} (env : Env) (depth : Nat) (problem : Problem) (rest : List Char) : ScanM α :=
  fun s => fail env problem (s.place depth rest) s

/-- Adds to the character data not yet told. -/
def addText (text : String) : ScanM Unit :=
  modify fun s => { s with pending := s.pending ++ text }

def addChar (c : Char) : ScanM Unit :=
  modify fun s => { s with pending := s.pending.push c }

/-- Tells the character data collected so far, if there is any. -/
def State.flush (s : State) : State :=
  if s.pending.isEmpty then s
  else { s with events := s.events.push (.characters s.pending), pending := "" }

/-- Tells the character data collected so far, if there is any. -/
def flush : ScanM Unit :=
  modify State.flush

/-- Text has to consist of characters a document may hold. -/
def checkChars (env : Env) (site : CharSite) (text place : List Char) : ScanM Unit :=
  match findInvalid? text with
  | some c => fail env (.invalidChar site c.toNat) place
  | none => pure ()

def State.outsideRoot (s : State) : Problem :=
  if s.seenRoot then .contentAfterRoot else .rootExpected

/-- Enters an entity: it must not be under expansion already, and its text counts towards the
limit. -/
def enterEntity (env : Env) (name : String) (size : Nat) : ScanM Unit := do
  let s ← get
  if s.expanding.contains name then
    fail env .entityLoop s.anchor
  set { s with expandedBytes := s.expandedBytes + size }
  if s.expandedBytes + size > maxExpansion then
    fail env .entityAmplification s.anchor
  modify fun s => { s with expanding := name :: s.expanding }

def leaveEntity : ScanM Unit :=
  modify fun s => { s with expanding := s.expanding.tail }

/-- The text of an external file, or why there is none. -/
def Env.readExternal (env : Env) (systemId : String) : Except String (List Char) :=
  match SystemId.resolve? env.options.baseDir systemId with
  | none => .error "only local files can be loaded"
  | some path =>
    match env.files.read path with
    | .error fault => .error fault.message
    | .ok bytes =>
      match Encoding.decode bytes none env.files.charsets with
      | .error e => .error e.describe
      | .ok text => .ok (normalizeNewlines text)

def stripTextDeclaration (text : List Char) : List Char :=
  match after? "<?xml".toList text with
  | none => text
  | some _ =>
    match breakOn "?>".toList text with
    | some (_, rest) => rest
    | none => text

end Xml.Scan
