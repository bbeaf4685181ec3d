import Xml.Text.Reading

/-!
# Parse options and system identifiers

Options are values handed to each parse. A system identifier names a local file or nothing: any
scheme but `file:` is refused, so that no parse reaches out to the network.
-/

namespace Xml

/-- How a document is read. -/
structure ParseOptions where
  /-- Put the replacement text of an entity in place of a reference to it. -/
  substituteEntities : Bool := false
  /-- Read external subsets and entities from files; without it they are empty. -/
  loadExternal : Bool := false
  /-- Go on after recoverable problems and keep them with the document. -/
  recover : Bool := false
  /-- The directory that relative system identifiers start from. -/
  baseDir : Option String := none
  deriving DecidableEq, Repr

namespace Path

/-- A path from the root. -/
def isAbsolute (path : String) : Bool :=
  path.toList.head? == some '/'

/-- A path seen from a directory. An absolute path stays as it is; nothing is simplified. -/
def join (base path : String) : String :=
  if isAbsolute path || base.isEmpty then path
  else if base.toList.getLast? == some '/' then base ++ path
  else base ++ "/" ++ path

/-- The directory a file stands in; a bare file name stands in the empty path. -/
def parent (path : String) : String :=
  let reversed := path.toList.reverse.dropWhile (· == '/')
  let directory := reversed.dropWhile (· != '/')
  match directory.dropWhile (· == '/'), directory with
  | [], [] => ""
  | [], _ => "/"
  | rest, _ => String.ofList rest.reverse

end Path

namespace SystemId

/-- The path part of a system identifier, if it can name a local file. -/
def localPath? (systemId : String) : Option String :=
  let chars := systemId.toList
  match Text.after? "file://".toList chars with
  | some rest => some (String.ofList rest)
  | none =>
    match Text.after? "file:".toList chars with
    | some rest => some (String.ofList rest)
    | none => if Text.contains "://".toList chars then none else some systemId

/-- The file a system identifier names. -/
def resolve? (baseDir : Option String) (systemId : String) : Option String :=
  (localPath? systemId).map fun path =>
    match baseDir with
    | some base => Path.join base path
    | none => path

end SystemId

end Xml
