import Xml.Document.Node

/-!
# Refused operations

Why an operation on nodes is refused, as causes, with the class and the wording of each in one
place.
-/

namespace Xml

/-- The classes of errors that a caller can tell apart. -/
inductive ErrorClass where
  | parse
  | io
  | xpath
  | type
  | state
  | unsupported
  deriving DecidableEq, Repr

namespace ErrorClass

def label : ErrorClass → String
  | .parse => "parse_error"
  | .io => "io_error"
  | .xpath => "xpath_syntax_error"
  | .type => "type_error"
  | .state => "invalid_state"
  | .unsupported => "unsupported_operation"

def heading : ErrorClass → String
  | .parse => "parse error: "
  | .io => "I/O error: "
  | .xpath => "XPath error: "
  | .type => "type error: "
  | .state => "invalid state: "
  | .unsupported => "unsupported operation: "

end ErrorClass

/-- Why an operation on nodes is refused. -/
inductive EditError where
  | foreignNode
  | foreignSet
  | rootNotElement
  | alreadyRoot
  | commentText
  | instructionData
  | rename (kind : NodeKind)
  | setContent (kind : NodeKind)
  | alreadyAttached
  | documentNodeMoved
  | insideItself
  | secondRoot
  | misplaced (child : NodeKind) (parent : Option NodeKind)
  | replacesDescendant
  | siblingOfItself
  | noParent
  | attributeBesideOther
  | rootReplacedByOther
  | atDocumentLevel (kind : NodeKind)
  | copyOfDocumentNode
  | copyWithoutEnd
  deriving DecidableEq, Repr

namespace EditError

def errorClass : EditError → ErrorClass
  | .foreignNode | .foreignSet | .rootNotElement | .commentText | .instructionData
  | .misplaced _ _ | .attributeBesideOther | .atDocumentLevel _ => .type
  | .alreadyRoot | .alreadyAttached | .documentNodeMoved | .insideItself | .secondRoot
  | .replacesDescendant | .siblingOfItself | .noParent | .rootReplacedByOther
  | .copyWithoutEnd => .state
  | .rename _ | .setContent _ | .copyOfDocumentNode => .unsupported

def optionalKind : Option NodeKind → String
  | some kind => "Some(" ++ kind.label ++ ")"
  | none => "None"

def message : EditError → String
  | .foreignNode => "node belongs to another document"
  | .foreignSet => "node sets belong to different documents"
  | .rootNotElement => "document root must be an element"
  | .alreadyRoot => "node is already the document element"
  | .commentText => "comment text cannot contain \"--\" or end with '-'"
  | .instructionData => "processing instruction data cannot contain \"?>\""
  | .rename kind => "cannot rename a node of kind " ++ kind.label
  | .setContent kind => "cannot set the content of a node of kind " ++ kind.label
  | .alreadyAttached => "node already has a parent; reparent it instead"
  | .documentNodeMoved => "the document node cannot be moved"
  | .insideItself => "a node cannot be attached inside its own subtree"
  | .secondRoot => "document already has a root element"
  | .misplaced child parent =>
    "a " ++ child.label ++ " node cannot be placed under " ++ optionalKind parent
  | .replacesDescendant => "a node cannot replace one of its own descendants"
  | .siblingOfItself => "a node cannot become a sibling of itself or its descendants"
  | .noParent => "node has no parent"
  | .attributeBesideOther => "attributes can only be placed next to attributes"
  | .rootReplacedByOther => "the root element can only be replaced by an element"
  | .atDocumentLevel kind => "a " ++ kind.label ++ " node cannot be placed at document level"
  | .copyOfDocumentNode => "the document node cannot be copied"
  | .copyWithoutEnd => "the copy does not come to an end"

end EditError

end Xml
