import Xml.Document.Build
import Xml.Host.Request
import Xml.Sax
import Xml.XPath.Evaluator

/-!
# Serving requests

The documents and sets of nodes that are kept for the user, and what each request does to them. A
reply is a pair of `ok` and a value, or of `error` and its class and message.
-/

namespace Xml.Host

/-- What is kept for the user. A document is known by its place in the list. -/
structure State where
  documents : Array Document := #[]
  sets : Array NodeSet := #[]

abbrev Serve := EStateM Error State

/-- What a term stands for, if it is of the right sort. -/
def demand {α : Type} (fault : ArgumentFault) : Option α → Serve α
  | some a => return a
  | none => throw (.argument fault)

/-! ## What is kept -/

def document (id : Nat) : Serve Document := do
  demand .notDocument (← get).documents[id]?

def nodeSet (id : Nat) : Serve NodeSet := do
  demand .notNodeSet (← get).sets[id]?

def keepDocument (doc : Document) : Serve Term := do
  let s ← get
  set { s with documents := s.documents.push doc }
  return .resource (.document s.documents.size)

def keepSet (nodes : NodeSet) : Serve Term := do
  let s ← get
  set { s with sets := s.sets.push nodes }
  return .resource (.nodeSet s.sets.size)

def editDocument {α : Type} (id : Nat) (change : Document.Edit α) : Serve α := do
  let doc ← document id
  match change doc with
  | .ok a doc =>
    modify fun s => { s with documents := s.documents.setIfInBounds id doc }
    return a
  | .error e doc =>
    modify fun s => { s with documents := s.documents.setIfInBounds id doc }
    throw (.edit e)

def lift {α : Type} : Except EditError α → Serve α
  | .ok a => return a
  | .error e => throw (.edit e)

/-! ## Arguments -/

def theDocument (t : Term) : Serve Nat :=
  demand .notDocument t.document?

def theNode (t : Term) : Serve NodeRef :=
  demand .notNode t.node?

def theSet (t : Term) : Serve (Nat × NodeSet) := do
  let id ← demand .notNodeSet t.nodeSet?
  return (id, ← nodeSet id)

/-- Sets an option from a pair of terms. Pairs that mean nothing are passed over. -/
def setOption (options : ParseOptions) (key value : Term) : Serve ParseOptions :=
  match key with
  | .atom "substitute_entities" => do
    return { options with substituteEntities := ← demand .notFlag value.bool? }
  | .atom "load_external_subsets" => do
    return { options with loadExternal := ← demand .notFlag value.bool? }
  | .atom "recover" => do
    return { options with recover := ← demand .notFlag value.bool? }
  | .atom "base_dir" => do
    return { options with baseDir := some (← demand (.notText "base_dir") value.text?) }
  | _ => return options

/-- The options a term stands for. Later pairs win. -/
def theOptions (t : Term) : Serve ParseOptions := do
  let pairs ← demand .notOptions t.pairs?
  pairs.foldlM (fun options (key, value) => setOption options key value) {}

def theNamespaces (t : Term) : Serve (List (String × String)) := do
  let pairs ← demand .notNamespaces t.pairs?
  demand .notNamespaces <| pairs.mapM fun (key, value) => do return (← key.text?, ← value.text?)

/-- The bytes of an input, and the options to read them with. -/
def load (files : Files) (input : Input) (options : ParseOptions) :
    Serve (List UInt8 × ParseOptions) :=
  let source : Source := match input with
    | .bytes bytes => .memory bytes
    | .file path => .file path
  match source.load files options with
  | .ok loaded => return loaded
  | .error fault => throw (.file fault)

/-! ## Values -/

def eventTerm : SaxEvent → Term
  | .startDocument => .atom "start_document"
  | .endDocument => .atom "end_document"
  | .startElement name attributes =>
    .tuple [.atom "start_element", .text name, .list (attributes.map .text)]
  | .endElement name => .tuple [.atom "end_element", .text name]
  | .characters text => .tuple [.atom "characters", .text text]
  | .cdataBlock text => .tuple [.atom "cdata_block", .text text]
  | .comment text => .tuple [.atom "comment", .text text]
  | .error text => .tuple [.atom "error", .text text]
  | .warning text => .tuple [.atom "warning", .text text]

def answerTerm : XPath.Answer → Serve Term
  | .nodeSet nodes => keepSet nodes
  | .boolean value => return .bool value
  | .number value => return .float value
  | .string text => return .text text

def errorTerm (e : Error) : Term :=
  .tuple [.atom "error", .tuple [.atom e.errorClass.label, .text e.message]]

def okTerm (value : Term) : Term :=
  .tuple [.atom "ok", value]

def Question.answer (q : Question) (doc : Document) (node : NodeRef) : Term :=
  match q with
  | .name => .optional .text (node.name? doc)
  | .parent => .optional .node (node.parent? doc)
  | .child => .optional .node (node.firstChild? doc)
  | .nextSibling => .optional .node (node.nextSibling? doc)
  | .previousSibling => .optional .node (node.previousSibling? doc)
  | .children => .nodes (node.children doc)
  | .content => .text (node.content doc)
  | .type => .optional (fun code => .integer (Int.ofNat code)) (node.kindCode? doc)
  | .blank => .bool (node.isBlank doc)
  | .hasAttribute key => .bool (node.hasAttribute doc key)
  | .attribute key => .optional .node (node.attribute? doc key)
  | .attributes => .textMap (node.attributeTable doc)
  | .attributeNodes => .nodes (node.attributes doc)
  | .namespaces => .textMap (node.namespaceTable doc)
  | .markup => .text (node.markup doc)
  | .internalSubset => .optional .text (node.internalSubset? doc)

def Change.run (c : Change) (node : NodeRef) : Serve Term :=
  let nothing := fun change : Document.Edit Unit => do
    editDocument node.doc change
    return Term.nil
  match c with
  | .setName name => nothing (Document.setName node name)
  | .setContent text => nothing (Document.setContent node text)
  | .setAttribute key value => do
    return .text (← editDocument node.doc (Document.setAttribute node key value))
  | .removeAttribute key => nothing (Document.removeAttribute node key)
  | .unlink => nothing (Document.unlink node)
  | .duplicate => do return .node (← editDocument node.doc (Document.duplicate node))

def Move.change (m : Move) (node other : NodeRef) : Document.Edit Unit :=
  match m with
  | .setParent => Document.setParent node other
  | .reparent => Document.reparent node other
  | .replace => Document.replace node other
  | .addPreviousSibling => Document.addSibling .before node other
  | .addNextSibling => Document.addSibling .after node other

def Combination.apply (c : Combination) (left right : NodeSet) : Except EditError NodeSet :=
  match c with
  | .union => left.union right
  | .intersection => left.intersection right
  | .difference => left.difference right

def evaluatorFor (node namespaces : Term) : Serve (Document × XPath.Evaluator) := do
  let node ← theNode node
  let doc ← document node.doc
  let bindings ← theNamespaces namespaces
  return (doc, XPath.Evaluator.registerAll { node } bindings)

def Request.run (files : Files) : Request → Serve Term
  | .parse input options => do
    let options ← theOptions options
    let (bytes, options) ← load files input options
    match Document.parse (← get).documents.size bytes none options files with
    | .ok doc => keepDocument doc
    | .error e => throw (.parse e)
  | .stream input options => do
    let options ← theOptions options
    let (bytes, options) ← load files input options
    match saxBytes bytes none options files with
    | (events, none) => return .list (events.map eventTerm)
    | (_, some e) => throw (.parse e)
  | .serialize doc => do
    return .text (← document (← theDocument doc)).markup
  | .root doc => do
    let doc ← document (← theDocument doc)
    return .optional .node (doc.rootElement?.bind doc.ref?)
  | .setRoot doc node => do
    let doc ← theDocument doc
    let node ← theNode node
    editDocument doc (Document.setRoot node)
    return .nil
  | .createElement doc name => do
    return .node (← editDocument (← theDocument doc) (Document.createElement name))
  | .createText doc text => do
    return .node (← editDocument (← theDocument doc) (Document.createText text))
  | .ask question node => do
    let node ← theNode node
    return question.answer (← document node.doc) node
  | .identity node => do
    let node ← theNode node
    return .integer (Int.ofNat (node.doc * 0x100000000 + node.id))
  | .encodeSpecial text => return .text (Text.encodeSpecial text)
  | .edit change node => do
    change.run (← theNode node)
  | .move m node other => do
    let other ← theNode other
    let node ← theNode node
    editDocument node.doc (m.change node other)
    return .nil
  | .evaluate node text namespaces => do
    let (doc, evaluator) ← evaluatorFor node namespaces
    match (evaluator.evaluate doc text).1 with
    | .ok answer => answerTerm answer
    | .error e => throw e
  | .evaluateAll node texts namespaces => do
    let (doc, evaluator) ← evaluatorFor node namespaces
    let replies ← (evaluator.evaluateAll doc texts).1.mapM fun
      | .ok answer => do return okTerm (← answerTerm answer)
      | .error e => return errorTerm e
    return .list replies
  | .setLength nodes => do
    let (_, nodes) ← theSet nodes
    return .integer (Int.ofNat nodes.size)
  | .setToList nodes => do
    let (_, nodes) ← theSet nodes
    return .nodes nodes.nodes
  | .setPush nodes node => do
    let (id, nodes) ← theSet nodes
    let nodes ← lift (nodes.push (← theNode node))
    modify fun s => { s with sets := s.sets.setIfInBounds id nodes }
    return .nil
  | .setAt nodes index => do
    let (_, nodes) ← theSet nodes
    return .optional .node (nodes.at? index)
  | .setSlice nodes index count => do
    let (_, nodes) ← theSet nodes
    match nodes.slice? index count with
    | some slice => keepSet slice
    | none => return .nil
  | .setIncludes nodes node => do
    let (_, nodes) ← theSet nodes
    return .bool (nodes.includes (← theNode node))
  | .setDelete nodes node => do
    let (id, nodes) ← theSet nodes
    let (removed, nodes) := nodes.delete (← theNode node)
    modify fun s => { s with sets := s.sets.setIfInBounds id nodes }
    return .optional .node removed
  | .combine combination left right => do
    let (_, left) ← theSet left
    let (_, right) ← theSet right
    keepSet (← lift (combination.apply left right))
  | .unlinkAll nodes => do
    let (_, nodes) ← theSet nodes
    editDocument nodes.doc nodes.unlinkAll
    return .nil

/-- Serves a request and gives the reply. Only the encoding of special characters is replied to with
the bare value. -/
def Request.serve (files : Files) (request : Request) (s : State) : Term × State :=
  match request.run files s with
  | .ok value s =>
    (match request with
    | .encodeSpecial _ => value
    | _ => okTerm value, s)
  | .error e s => (errorTerm e, s)

end Xml.Host
