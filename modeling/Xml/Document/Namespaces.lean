import Xml.Document.Walk
import Xml.Name

/-!
# Namespaces in a document

The namespace of a name follows from the declarations on the element and its ancestors: the nearest
declaration of the prefix counts. An element without a prefix takes the default namespace, an
attribute without one has none.
-/

namespace Xml.Document

def declared? (doc : Document) (nsPrefix : String) (id : NodeId) : Option String :=
  match doc.get? id with
  | some node =>
    if node.kind == .element then
      (node.declarations.find? (·.nsPrefix == nsPrefix)).map (·.uri)
    else none
  | none => none

/-- The namespace a prefix is bound to at a node, the empty string if it is bound to none. -/
def lookupNamespace? (doc : Document) (id : NodeId) (nsPrefix : String) : Option String :=
  if nsPrefix == "xml" then some Namespace.xmlUri
  else (doc.lineage id).findSome? (doc.declared? nsPrefix)

/-- Adds the declarations of one node to the bindings found further in, of which the first for a
prefix counts. -/
def addDeclarations (bindings : List NamespaceDecl) (declarations : List NamespaceDecl) :
    List NamespaceDecl :=
  declarations.foldl
    (fun found d => if found.any (·.nsPrefix == d.nsPrefix) then found else found ++ [d]) bindings

/-- The bindings in scope at a node, innermost first. A prefix bound to no namespace is left out. -/
def inScope (doc : Document) (id : NodeId) : List NamespaceDecl :=
  let all := (doc.lineage id).foldl (fun found a =>
    addDeclarations found (((doc.get? a).map (·.declarations)).getD [])) []
  all.filter fun d => !d.uri.isEmpty

/-- The namespace that the declarations in scope give a node, empty for none. -/
def namespaceInScope (doc : Document) (id : NodeId) : String :=
  match doc.get? id with
  | none => ""
  | some node =>
    match node.kind, qualifier? node.name with
    | .element, some p => (doc.lookupNamespace? id p).getD ""
    | .element, none => (doc.lookupNamespace? id "").getD ""
    | .attribute, some p => (node.parent.bind fun owner => doc.lookupNamespace? owner p).getD ""
    | _, _ => ""

/-- Sets the namespace of a node to the one the declarations in scope give it. -/
def resolveNamespace (doc : Document) (id : NodeId) : Document :=
  doc.update id fun n => { n with namespaceUri := doc.namespaceInScope id }

/-- Sets the namespaces of a node, of what is below it and of all their attributes. -/
def resolveSubtree (doc : Document) (id : NodeId) : Document :=
  (doc.subtree id).foldl (fun doc d =>
    match doc.get? d with
    | some node =>
      if node.kind == .element then
        node.attributes.foldl resolveNamespace (doc.resolveNamespace d)
      else if node.kind == .attribute then doc.resolveNamespace d
      else doc
    | none => doc) doc

end Xml.Document
