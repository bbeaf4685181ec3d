import Xml.Entity.Declarations
import Xml.Text.Position

/-!
# Problems of a document

Everything that can be wrong with a document while it is read, as causes, with the wording of each
in one place. A `ParseError` is a problem at a place of the text.
-/

namespace Xml

open Text (Position)

/-- The piece of markup that holds a character no document may hold. -/
inductive CharSite where
  | content
  | attributeValue
  | comment
  | cdata
  deriving DecidableEq, Repr

def CharSite.label : CharSite → String
  | .content => "PCDATA"
  | .attributeValue => "AttValue:"
  | .comment => "Comment"
  | .cdata => "CData section"

/-- What is wrong with a document. -/
inductive Problem where
  | invalidChar (site : CharSite) (code : Nat)
  | emptyDocument
  | prematureEnd (tag : String)
  | contentAfterRoot
  | rootExpected
  | cdataEndInContent
  | badCharRef
  | badEntityRef
  | undefinedEntity (name : String)
  | unparsedEntity (name : String)
  | entityLoop
  | entityAmplification
  | unbalancedEntity (name : String)
  | externalEntityInAttribute (name : String)
  | badElementName
  | unfinishedStartTag (name : String)
  | badAttribute
  | attributeWithoutValue (name : String)
  | attributeNotQuoted
  | lessThanInAttribute
  | attributeRedefined (name : String)
  | endTagWithoutName
  | unfinishedEndTag (name : String)
  | tagMismatch (opened closed : String)
  | unexpectedEndTag (name : String)
  | unfinishedComment
  | doubleHyphen
  | unfinishedCData
  | instructionWithoutTarget
  | misplacedXmlDeclaration
  | unfinishedInstruction (target : String)
  | instructionSpace (target : String)
  | badXmlDeclaration
  | versionMissing
  | misplacedDoctype
  | doctypeSpace
  | doctypeWithoutName
  | systemIdMissing
  | publicIdMissing
  | unfinishedSubset
  | unfinishedDoctype
  | declaration (problem : DeclarationProblem)
  | unboundElementPrefix (qualifier localPart : String)
  | unboundAttributePrefix (qualifier localPart element : String)
  | notUtf8
  | notAscii
  | notEncodedAs (encoding : String)
  | unknownEncoding (label : String)
  deriving DecidableEq, Repr

def Problem.message : Problem → String
  | .invalidChar site code => site.label ++ " invalid Char value " ++ toString code
  | .emptyDocument => "Document is empty"
  | .prematureEnd tag => "Premature end of data in tag " ++ tag
  | .contentAfterRoot => "Extra content at the end of the document"
  | .rootExpected => "Start tag expected, '<' not found"
  | .cdataEndInContent => "Sequence ']]>' not allowed in content"
  | .badCharRef => "xmlParseCharRef: invalid xmlChar value"
  | .badEntityRef => "xmlParseEntityRef: no name"
  | .undefinedEntity name => "Entity '" ++ name ++ "' not defined"
  | .unparsedEntity name => "Entity reference to unparsed entity " ++ name
  | .entityLoop => "Detected an entity reference loop"
  | .entityAmplification => "Maximum entity amplification factor exceeded"
  | .unbalancedEntity name => "Entity '" ++ name ++ "' is not well balanced"
  | .externalEntityInAttribute name => "Attribute references external entity '" ++ name ++ "'"
  | .badElementName => "StartTag: invalid element name"
  | .unfinishedStartTag name => "Couldn't find end of Start Tag " ++ name
  | .badAttribute => "attributes construct error"
  | .attributeWithoutValue name => "Specification mandates value for attribute " ++ name
  | .attributeNotQuoted => "AttValue: \" or ' expected"
  | .lessThanInAttribute => "Unescaped '<' not allowed in attributes values"
  | .attributeRedefined name => "Attribute " ++ name ++ " redefined"
  | .endTagWithoutName => "xmlParseEndTag: '</' not found"
  | .unfinishedEndTag name => "expected '>' at end of tag " ++ name
  | .tagMismatch opened closed =>
    "Opening and ending tag mismatch: " ++ opened ++ " and " ++ closed
  | .unexpectedEndTag name => "Unexpected end tag : " ++ name
  | .unfinishedComment => "Comment not terminated"
  | .doubleHyphen => "Double hyphen within comment"
  | .unfinishedCData => "CData section not finished"
  | .instructionWithoutTarget => "xmlParsePI : no target name"
  | .misplacedXmlDeclaration => "XML declaration allowed only at the start of the document"
  | .unfinishedInstruction target => "PI " ++ target ++ " never end ..."
  | .instructionSpace target => "ParsePI: PI " ++ target ++ " space expected"
  | .badXmlDeclaration => "parsing XML declaration: '?>' expected"
  | .versionMissing => "Malformed declaration expecting version"
  | .misplacedDoctype => "DOCTYPE improperly placed"
  | .doctypeSpace => "Space required after 'DOCTYPE'"
  | .doctypeWithoutName => "xmlParseDocTypeDecl : no DOCTYPE name !"
  | .systemIdMissing => "SYSTEM or PUBLIC, the URI is missing"
  | .publicIdMissing => "xmlParseExternalID: PUBLIC, no Public Identifier"
  | .unfinishedSubset => "DOCTYPE internal subset not finished"
  | .unfinishedDoctype => "DOCTYPE improperly terminated"
  | .declaration problem => problem.message
  | .unboundElementPrefix qualifier localPart =>
    "Namespace prefix " ++ qualifier ++ " on " ++ localPart ++ " is not defined"
  | .unboundAttributePrefix qualifier localPart element =>
    "Namespace prefix " ++ qualifier ++ " for " ++ localPart ++ " on " ++ element
      ++ " is not defined"
  | .notUtf8 => "Input is not proper UTF-8, indicate encoding !"
  | .notAscii => "Input is not proper US-ASCII"
  | .notEncodedAs encoding => "Input is not proper " ++ encoding
  | .unknownEncoding label => "Unsupported encoding " ++ label

/-- A problem and the place it is reported at. -/
structure ParseError where
  problem : Problem
  position : Position
  deriving DecidableEq, Repr

namespace ParseError

def message (e : ParseError) : String :=
  e.problem.message

def describe (e : ParseError) : String :=
  e.message ++ " at line " ++ toString e.position.line ++ ", column " ++ toString e.position.column

end ParseError

/-- Something worth telling that spoils nothing. -/
inductive Warning where
  | standaloneValue (value : String)
  | entityNotLoaded (name : String)
  | entityUnreadable (systemId reason : String)
  | subsetNotLoaded (systemId : String)
  | subsetUnreadable (systemId reason : String)
  | declaration (problem : DeclarationProblem)
  deriving DecidableEq, Repr

def Warning.message : Warning → String
  | .standaloneValue value => "standalone accepts only 'yes' or 'no', got '" ++ value ++ "'"
  | .entityNotLoaded name => "External entity '" ++ name ++ "' not loaded: loading disabled"
  | .entityUnreadable systemId reason =>
    "failed to load external entity \"" ++ systemId ++ "\": " ++ reason
  | .subsetNotLoaded systemId =>
    "External subset \"" ++ systemId ++ "\" not loaded: loading disabled"
  | .subsetUnreadable systemId reason =>
    "failed to load external subset \"" ++ systemId ++ "\": " ++ reason
  | .declaration problem => problem.message

end Xml
