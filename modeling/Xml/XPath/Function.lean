import Xml.XPath.Fault

/-!
# The function library

The functions an expression can call, their names and the numbers of arguments they take.
-/

namespace Xml.XPath

inductive Function where
  | position
  | last
  | count
  | localName
  | namespaceUri
  | name
  | string
  | concat
  | startsWith
  | contains
  | substring
  | substringBefore
  | substringAfter
  | stringLength
  | normalizeSpace
  | translate
  | boolean
  | not
  | true
  | false
  | lang
  | number
  | sum
  | floor
  | ceiling
  | round
  deriving DecidableEq, Repr

namespace Function

def label : Function → String
  | .position => "position"
  | .last => "last"
  | .count => "count"
  | .localName => "local-name"
  | .namespaceUri => "namespace-uri"
  | .name => "name"
  | .string => "string"
  | .concat => "concat"
  | .startsWith => "starts-with"
  | .contains => "contains"
  | .substring => "substring"
  | .substringBefore => "substring-before"
  | .substringAfter => "substring-after"
  | .stringLength => "string-length"
  | .normalizeSpace => "normalize-space"
  | .translate => "translate"
  | .boolean => "boolean"
  | .not => "not"
  | .true => "true"
  | .false => "false"
  | .lang => "lang"
  | .number => "number"
  | .sum => "sum"
  | .floor => "floor"
  | .ceiling => "ceiling"
  | .round => "round"

def ofName? : String → Option Function
  | "position" => some .position
  | "last" => some .last
  | "count" => some .count
  | "local-name" => some .localName
  | "namespace-uri" => some .namespaceUri
  | "name" => some .name
  | "string" => some .string
  | "concat" => some .concat
  | "starts-with" => some .startsWith
  | "contains" => some .contains
  | "substring" => some .substring
  | "substring-before" => some .substringBefore
  | "substring-after" => some .substringAfter
  | "string-length" => some .stringLength
  | "normalize-space" => some .normalizeSpace
  | "translate" => some .translate
  | "boolean" => some .boolean
  | "not" => some .not
  | "true" => some .true
  | "false" => some .false
  | "lang" => some .lang
  | "number" => some .number
  | "sum" => some .sum
  | "floor" => some .floor
  | "ceiling" => some .ceiling
  | "round" => some .round
  | _ => none

def arity : Function → Arity
  | .position | .last | .true | .false => ⟨0, some 0⟩
  | .count | .boolean | .not | .lang | .sum | .floor | .ceiling | .round => ⟨1, some 1⟩
  | .localName | .namespaceUri | .name | .string | .stringLength | .normalizeSpace | .number =>
    ⟨0, some 1⟩
  | .startsWith | .contains | .substringBefore | .substringAfter => ⟨2, some 2⟩
  | .substring => ⟨2, some 3⟩
  | .translate => ⟨3, some 3⟩
  | .concat => ⟨2, none⟩

/-- The function that a call means, if its name and number of arguments are right. There is no `id`,
because attributes have no types. -/
def resolve (name : String) (count : Nat) : Except Fault Function :=
  if name == "id" then .error .idFunction
  else
    match ofName? name with
    | none => .error (.unknownFunction name)
    | some f =>
      if f.arity.admits count then .ok f else .error (.argumentCount name f.arity count)

end Function

end Xml.XPath
