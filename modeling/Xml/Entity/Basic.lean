import Xml.Text.Reference

/-!
# Document types and entities

What a document type declaration says, and the table of entities declared in its subsets. The
first declaration of a name counts, later ones change nothing.
-/

namespace Xml

/-- A document type declaration. The subset is the text between `[` and `]` as written. -/
structure Doctype where
  name : String
  publicId : Option String := none
  systemId : Option String := none
  subset : Option String := none
  deriving DecidableEq, Repr

/-- What a reference to an entity stands for. -/
inductive EntityValue where
  /-- Replacement text, its character references already replaced. -/
  | internal (text : String)
  /-- Replacement text kept in a file. -/
  | external (publicId : Option String) (systemId : String)
  /-- Not text at all; a reference to it is a mistake. -/
  | unparsed
  deriving DecidableEq, Repr

/-- Declared entities, those for content and those for the declarations themselves. -/
structure EntityTable where
  general : List (String × EntityValue) := []
  parameter : List (String × EntityValue) := []
  deriving Repr

namespace EntityTable

/-- Adds an entry unless the name has one. -/
def insertNew (entries : List (String × EntityValue)) (name : String) (value : EntityValue) :
    List (String × EntityValue) :=
  if (entries.lookup name).isSome then entries else entries ++ [(name, value)]

/-- Adds a declaration; the first one of a name wins. -/
def declare (table : EntityTable) (name : String) (value : EntityValue) (isParameter : Bool) :
    EntityTable :=
  if isParameter then { table with parameter := insertNew table.parameter name value }
  else { table with general := insertNew table.general name value }

def get? (table : EntityTable) (name : String) : Option EntityValue :=
  table.general.lookup name

def size (table : EntityTable) : Nat :=
  table.general.length

end EntityTable

end Xml
