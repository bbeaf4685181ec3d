import Xml.Name
import Xml.Problem

/-!
# Events

What a scan tells its readers, in document order. Text inside a CDATA section comes as
`characters` between `startCData` and `endCData`; an element without content comes as a start
directly followed by its end.
-/

namespace Xml

/-- One thing found in a document. -/
inductive Event where
  | startDocument
  | endDocument
  | xmlDeclaration (version : String) (encoding : Option String) (standalone : Option Bool)
  | doctype (declaration : Doctype)
  | startElement (name : String) (attributes : List Attribute)
  | endElement (name : String)
  | characters (text : String)
  | startCData
  | endCData
  | comment (text : String)
  | instruction (target : String) (data : Option String)
  /-- A reference left in place; the replacement text is absent for an undefined entity. -/
  | entityReference (name : String) (replacement : Option String)
  | error (error : ParseError)
  | warning (warning : Warning)
  deriving DecidableEq, Repr

end Xml
