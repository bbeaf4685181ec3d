import Xml.Document.Edit
import Xml.Host.Term

/-!
# Requests

What a program can ask of the library from outside, and the table of the functions it calls for
that. The arguments that have to be texts, numbers or binaries are read here, from left to right;
the others are looked at when the request is served.
-/

namespace Xml.Host

/-- Questions about one node. -/
inductive Question where
  | name
  | parent
  | child
  | nextSibling
  | previousSibling
  | children
  | content
  | type
  | blank
  | hasAttribute (key : String)
  | attribute (key : String)
  | attributes
  | attributeNodes
  | namespaces
  | markup
  | internalSubset
  deriving DecidableEq, Repr

inductive Change where
  | setName (name : String)
  | setContent (text : String)
  | setAttribute (key value : String)
  | removeAttribute (key : String)
  | unlink
  | duplicate
  deriving DecidableEq, Repr

/-- Changes that involve two nodes. -/
inductive Move where
  | setParent
  | reparent
  | replace
  | addPreviousSibling
  | addNextSibling
  deriving DecidableEq, Repr

/-- Ways to combine two sets of nodes. -/
inductive Combination where
  | union
  | intersection
  | difference
  deriving DecidableEq, Repr

/-- Where a document is read from. -/
inductive Input where
  | bytes (bytes : List UInt8)
  | file (path : String)
  deriving DecidableEq, Repr

inductive Request where
  | parse (input : Input) (options : Term)
  | stream (input : Input) (options : Term)
  | serialize (doc : Term)
  | root (doc : Term)
  | setRoot (doc node : Term)
  | createElement (doc : Term) (name : String)
  | createText (doc : Term) (text : String)
  | ask (question : Question) (node : Term)
  | identity (node : Term)
  | encodeSpecial (text : String)
  | edit (change : Change) (node : Term)
  | move (move : Move) (node other : Term)
  | evaluate (node : Term) (text : String) (namespaces : Term)
  | evaluateAll (node : Term) (texts : List String) (namespaces : Term)
  | setLength (set : Term)
  | setToList (set : Term)
  | setPush (set node : Term)
  | setAt (set : Term) (index : Int)
  | setSlice (set : Term) (index : Int) (count : Nat)
  | setIncludes (set node : Term)
  | setDelete (set node : Term)
  | combine (combination : Combination) (left right : Term)
  | unlinkAll (set : Term)

/-- How long a function may take, and so where it runs. -/
inductive Schedule where
  | normal
  | longComputation
  | longInput
  deriving DecidableEq, Repr

def Schedule.code : Schedule → Nat
  | .normal => 0
  | .longComputation => 1
  | .longInput => 2

/-- A function that can be called from outside. -/
structure Entry where
  name : String
  arity : Nat
  schedule : Schedule
  /-- The request that a call makes, none if an argument is refused. -/
  read : List Term → Option Request

namespace Entry

/-- A function of one term. -/
def ofTerm (name : String) (request : Term → Request) : Entry :=
  ⟨name, 1, .normal, fun
    | [a] => some (request a)
    | _ => none⟩

def ofTerms (name : String) (request : Term → Term → Request) : Entry :=
  ⟨name, 2, .normal, fun
    | [a, b] => some (request a b)
    | _ => none⟩

def ofTermText (name : String) (request : Term → String → Request) : Entry :=
  ⟨name, 2, .normal, fun
    | [a, b] => b.text?.map (request a)
    | _ => none⟩

def ofBytes (name : String) (request : Input → Term → Request) : Entry :=
  ⟨name, 2, .longComputation, fun
    | [a, b] => a.binary?.map fun bytes => request (.bytes bytes) b
    | _ => none⟩

def ofFile (name : String) (request : Input → Term → Request) : Entry :=
  ⟨name, 2, .longInput, fun
    | [a, b] => a.text?.map fun path => request (.file path) b
    | _ => none⟩

def scheduled (e : Entry) (schedule : Schedule) : Entry :=
  { e with schedule }

end Entry

def moduleName : String := "Elixir.RustyTree.Native"

def functions : List Entry :=
  [.ofTermText "create_element" .createElement,
   .ofTermText "create_text" .createText,
   ⟨"encode_special_chars", 1, .normal, fun
     | [a] => a.text?.map .encodeSpecial
     | _ => none⟩,
   .ofTerms "node_add_next_sibling" (.move .addNextSibling),
   .ofTerms "node_add_previous_sibling" (.move .addPreviousSibling),
   .ofTermText "node_attribute" fun node key => .ask (.attribute key) node,
   .ofTerm "node_attribute_nodes" (.ask .attributeNodes),
   .ofTerm "node_attributes" (.ask .attributes),
   .ofTerm "node_blank" (.ask .blank),
   .ofTerm "node_child" (.ask .child),
   .ofTerm "node_children" (.ask .children),
   .ofTerm "node_content" (.ask .content),
   .ofTerm "node_duplicate" (.edit .duplicate),
   .ofTermText "node_has_attribute" fun node key => .ask (.hasAttribute key) node,
   .ofTerm "node_identity" .identity,
   .ofTerm "node_internal_subset" (.ask .internalSubset),
   .ofTerm "node_name" (.ask .name),
   .ofTerm "node_namespaces" (.ask .namespaces),
   .ofTerm "node_next_sibling" (.ask .nextSibling),
   .ofTerm "node_parent" (.ask .parent),
   .ofTerm "node_previous_sibling" (.ask .previousSibling),
   .ofTermText "node_remove_attribute" fun node key => .edit (.removeAttribute key) node,
   .ofTerms "node_reparent" (.move .reparent),
   .ofTerms "node_replace" (.move .replace),
   ⟨"node_set_at", 2, .normal, fun
     | [a, b] => b.signed?.map (.setAt a)
     | _ => none⟩,
   ⟨"node_set_attribute", 3, .normal, fun
     | [a, b, c] => do return .edit (.setAttribute (← b.text?) (← c.text?)) a
     | _ => none⟩,
   .ofTermText "node_set_content" fun node text => .edit (.setContent text) node,
   .ofTerms "node_set_delete" .setDelete,
   .ofTerms "node_set_difference" (.combine .difference),
   .ofTerms "node_set_includes" .setIncludes,
   .ofTerms "node_set_intersection" (.combine .intersection),
   .ofTerm "node_set_length" .setLength,
   .ofTermText "node_set_name" fun node name => .edit (.setName name) node,
   .ofTerms "node_set_parent" (.move .setParent),
   .ofTerms "node_set_push" .setPush,
   ⟨"node_set_slice", 3, .normal, fun
     | [a, b, c] => do return .setSlice a (← b.signed?) (← c.unsigned?)
     | _ => none⟩,
   .ofTerm "node_set_to_list" .setToList,
   .ofTerms "node_set_union" (.combine .union),
   .ofTerm "node_set_unlink_all" .unlinkAll,
   .ofTerm "node_to_markup" (.ask .markup),
   .ofTerm "node_type" (.ask .type),
   .ofTerm "node_unlink" (.edit .unlink),
   .ofBytes "parse" .parse,
   .ofFile "parse_file" .parse,
   .ofTerm "root" .root,
   .ofBytes "sax_parse" .stream,
   .ofFile "sax_parse_file" .stream,
   (Entry.ofTerm "serialize" .serialize).scheduled .longComputation,
   .ofTerms "set_root" .setRoot,
   ⟨"xpath_evaluate", 3, .normal, fun
     | [a, b, c] => do return .evaluate a (← b.text?) c
     | _ => none⟩,
   ⟨"xpath_evaluate_all", 3, .longComputation, fun
     | [a, b, c] => do return .evaluateAll a (← b.texts?) c
     | _ => none⟩]

def find? (name : String) (arity : Nat) : Option Entry :=
  functions.find? fun e => e.name == name && e.arity == arity

end Xml.Host
