/-!
# Namespace scopes

The bindings of prefixes while a document is read from front to back: each element opens a scope,
its declarations hold inside it, and the innermost one of a prefix counts.

The empty prefix stands for the default namespace, the empty URI for none.
-/

namespace Xml.Namespace

def xmlUri : String := "http://www.w3.org/XML/1998/namespace"

def xmlnsUri : String := "http://www.w3.org/2000/xmlns/"

/-- A prefix bound to a namespace, with the depth of the scope it was declared in. -/
structure Binding where
  nsPrefix : String
  uri : String
  depth : Nat
  deriving DecidableEq, Repr

structure Scopes where
  /-- Latest first. -/
  bindings : List Binding
  depth : Nat
  deriving Repr

namespace Scopes

/-- Outside all elements only the two fixed prefixes are bound. -/
def initial : Scopes :=
  ⟨[⟨"xmlns", xmlnsUri, 0⟩, ⟨"xml", xmlUri, 0⟩], 0⟩

def push (s : Scopes) : Scopes :=
  { s with depth := s.depth + 1 }

/-- Closes the innermost scope and forgets what was declared in it. -/
def pop (s : Scopes) : Scopes :=
  ⟨s.bindings.dropWhile fun b => s.depth ≤ b.depth, s.depth - 1⟩

/-- Declares a prefix in the innermost scope. The two fixed prefixes cannot be declared. -/
def declare (s : Scopes) (nsPrefix uri : String) : Scopes :=
  if nsPrefix == "xml" || nsPrefix == "xmlns" then s
  else { s with bindings := ⟨nsPrefix, uri, s.depth⟩ :: s.bindings }

def resolve (s : Scopes) (nsPrefix : String) : Option String :=
  (s.bindings.find? (·.nsPrefix == nsPrefix)).map (·.uri)

end Scopes

end Xml.Namespace
