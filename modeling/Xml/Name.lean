import Xml.Text.Reading

/-!
# Qualified names

A name may carry a prefix, set off by its first colon. A colon at either end is part of the name,
so `:a` and `a:` have no prefix.
-/

namespace Xml

/-- A name taken apart at its colon. -/
structure QName where
  qualifier : Option String
  localPart : String
  deriving DecidableEq, Repr

/-- Splits a name at its first colon, if both sides are non-empty. -/
def QName.ofString (name : String) : QName :=
  let chars := name.toList
  let before := chars.takeWhile (· != ':')
  match chars.dropWhile (· != ':') with
  | _ :: rest =>
    if before.isEmpty || rest.isEmpty then ⟨none, name⟩
    else ⟨some (String.ofList before), String.ofList rest⟩
  | [] => ⟨none, name⟩

def qualifier? (name : String) : Option String :=
  (QName.ofString name).qualifier

def localName (name : String) : String :=
  (QName.ofString name).localPart

/-- An attribute with this name declares a namespace: `xmlns` or anything that begins with
`xmlns:`. -/
def isNamespaceDeclaration (name : String) : Bool :=
  name == "xmlns" || ("xmlns:".toList).isPrefixOf name.toList

/-- An attribute as it stands in a start tag, its value with references replaced. -/
structure Attribute where
  name : String
  value : String
  deriving DecidableEq, Repr

end Xml
