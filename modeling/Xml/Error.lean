import Xml.Document.Error
import Xml.Files
import Xml.Problem
import Xml.XPath.Fault

/-!
# Errors

Everything that can go wrong for a caller of the library, with its class and its wording.
-/

namespace Xml

/-- Why a value handed in cannot be used. -/
inductive ArgumentFault where
  | notDocument
  | notNode
  | notNodeSet
  | notOptions
  | notFlag
  | notText (what : String)
  | notNamespaces
  deriving DecidableEq, Repr

def ArgumentFault.message : ArgumentFault → String
  | .notDocument => "expected a document"
  | .notNode => "expected a node"
  | .notNodeSet => "expected a node set"
  | .notOptions => "options must be a keyword list or a map"
  | .notFlag => "option flags must be booleans"
  | .notText what => "expected a string for " ++ what
  | .notNamespaces => "namespaces must map prefixes to URIs"

inductive Error where
  | parse (error : ParseError)
  | file (fault : FileFault)
  | edit (error : EditError)
  | argument (fault : ArgumentFault)
  /-- An expression cannot be evaluated. -/
  | expression (fault : XPath.Fault) (text : String)
  /-- The value of an expression is no set of nodes. -/
  | notNodeSet (text : String) (type : XPath.ValueType)
  /-- The context node of an expression belongs to another document. -/
  | foreignContext (context doc : Nat)

namespace Error

/-- The class of an error. -/
def errorClass : Error → ErrorClass
  | .parse _ => .parse
  | .file _ => .io
  | .edit e => e.errorClass
  | .argument _ | .foreignContext _ _ => .type
  | .expression _ _ | .notNodeSet _ _ => .xpath

/-- The wording of an error without its class. `docName` tells how to name a document. -/
def detail (docName : Nat → String) : Error → String
  | .parse e => e.describe
  | .file fault => fault.message
  | .edit e => e.message
  | .argument fault => fault.message
  | .expression fault text => fault.message ++ " in '" ++ text ++ "'"
  | .notNodeSet text type => "'" ++ text ++ "' evaluates to a " ++ type.name ++ ", not a node-set"
  | .foreignContext context doc =>
    "context node belongs to " ++ docName context ++ ", not " ++ docName doc

/-- The wording of an error, with documents named by `docName`. -/
def messageWith (docName : Nat → String) (e : Error) : String :=
  e.errorClass.heading ++ e.detail docName

def message (e : Error) : String :=
  e.messageWith fun id => "doc#" ++ toString id

end Error

end Xml
