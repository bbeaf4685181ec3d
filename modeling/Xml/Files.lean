import Xml.Encoding.Charset
import Xml.Options

/-!
# Files

Reading a document may need other files. They are handed in as a function from paths to contents,
together with the character sets that files can be in; `FileTree` gives one for a fixed set of files.
A document is read from memory, from a stream or from a file. Reading a file makes its directory the
base of relative system identifiers, unless the options name one.
-/

namespace Xml

/-- Why a file cannot be read. -/
inductive FileFault where
  | missing
  | notDirectory
  | isDirectory
  /-- A stream broke off, with its own words. -/
  | broken (reason : String)
  deriving DecidableEq, Repr

/-- The wording of a file fault. -/
def FileFault.message : FileFault → String
  | .missing => "No such file or directory (os error 2)"
  | .notDirectory => "Not a directory (os error 20)"
  | .isDirectory => "Is a directory (os error 21)"
  | .broken reason => reason

/-- The files that can be read, and the character sets that bytes can be decoded from. -/
structure Files where
  read : String → Except FileFault (List UInt8)
  charsets : Encoding.Charsets := .western

def Files.none : Files where
  read _ := .error .missing

/-- A fixed set of files. Places are lists of names from the root. -/
structure FileTree where
  files : List (List String × List UInt8)
  /-- Directories that exist even when they hold no file. -/
  directories : List (List String)
  /-- Where relative paths start. -/
  workingDirectory : List String

namespace FileTree

/-- The contents of the file at a place. -/
def file? (tree : FileTree) (place : List String) : Option (List UInt8) :=
  tree.files.lookup place

/-- The place is a directory: it is one of the listed ones, or some file or directory lies below
it. -/
def isDirectory (tree : FileTree) (place : List String) : Bool :=
  tree.directories.any (place.isPrefixOf ·)
    || tree.files.any fun (path, _) => place.isPrefixOf path && place != path

def follow (tree : FileTree) (place : List String) : List String → Except FileFault (List UInt8)
  | [] =>
    match tree.file? place with
    | some bytes => .ok bytes
    | none => .error .isDirectory
  | name :: rest =>
    if (tree.file? place).isSome then .error .notDirectory
    else if name.isEmpty || name == "." then follow tree place rest
    else if name == ".." then follow tree place.dropLast rest
    else
      let next := place ++ [name]
      if (tree.file? next).isSome || tree.isDirectory next then follow tree next rest
      else .error .missing

def parts (path : String) : List String :=
  (path.splitOn "/")

def read (tree : FileTree) : Files where
  read path :=
    if path.isEmpty then .error .missing
    else follow tree (if Path.isAbsolute path then [] else tree.workingDirectory) (parts path)

end FileTree

/-- Where the bytes of a document come from. -/
inductive Source where
  | memory (bytes : List UInt8)
  /-- A stream that breaks off once it has delivered `failAfter` bytes, the read that would find
  its end included. -/
  | stream (bytes : List UInt8) (failAfter : Option Nat)
  | file (path : String)

/-- The bytes of a source and the options to read them with. -/
def Source.load (source : Source) (files : Files) (options : ParseOptions) :
    Except FileFault (List UInt8 × ParseOptions) :=
  match source with
  | .memory bytes => .ok (bytes, options)
  | .stream bytes failAfter =>
    match failAfter with
    | some limit =>
      if limit ≤ bytes.length then .error (.broken "reader failed") else .ok (bytes, options)
    | none => .ok (bytes, options)
  | .file path =>
    match files.read path with
    | .error fault => .error fault
    | .ok bytes =>
      .ok (bytes, { options with baseDir := options.baseDir.or (some (Path.parent path)) })

end Xml
