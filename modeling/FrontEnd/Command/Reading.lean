/-!
# Reading a source

What the command line is told where a source cannot be read, and a tree of files in which paths are
looked up as a file system does: component by component, where every component but the last must
name a directory.
-/

namespace FrontEnd.Command

/-- Why a source cannot be read. -/
inductive ReadError where
  | notFound
  | permissionDenied
  /-- Another reason, by the text of the error itself. -/
  | other (text : String)
  deriving DecidableEq, Repr

namespace ReadError

/-- The error that the system gives by a number and a text about it. A missing file has one number,
a missing permission two. -/
def ofCode (code : UInt32) (text : String) : ReadError :=
  if code = 2 then notFound
  else if code = 1 ∨ code = 13 then permissionDenied
  else other (text ++ " (os error " ++ toString code ++ ")")

/-- The path names a directory. -/
def isDirectory : ReadError := ofCode 21 "Is a directory"

/-- The path goes on after a file. -/
def notDirectory : ReadError := ofCode 20 "Not a directory"

/-- The path, or one component of it, is too long. -/
def nameTooLong : ReadError := ofCode 36 "File name too long"

/-- The text about a path that cannot be read. -/
def message (path : String) : ReadError → String
  | notFound => "cannot find file '" ++ path ++ "'"
  | permissionDenied => "permission denied reading '" ++ path ++ "'"
  | other text => "error reading '" ++ path ++ "': " ++ text

end ReadError

/-- What a path may name. -/
inductive Entry where
  | directory
  | file (bytes : List UInt8)
  deriving DecidableEq, Repr

/-- The directories and files below the working directory, each by the components of its path. A
directory need not be listed where something in it is. -/
structure FileTree where
  directories : List (List String)
  files : List (List String × List UInt8)
  deriving DecidableEq, Repr

namespace FileTree

/-- The longest component of a path, in bytes. -/
def maxComponent : Nat := 255

/-- The longest path, in bytes. -/
def maxPath : Nat := 4095

/-- The components of a relative path. -/
def components (path : String) : List String :=
  (path.splitOn "/").filter fun c => c != "" && c != "."

/-- The tree with the given directories and files. Of two files of one name the later stays. -/
def ofNames (directories : List String) (files : List (String × List UInt8)) : FileTree where
  directories := directories.map components
  files := files.reverse.map fun (name, bytes) => (components name, bytes)

/-- What stands at a place of the tree. -/
def entry? (t : FileTree) (place : List String) : Option Entry :=
  match t.files.lookup place with
  | some bytes => some (.file bytes)
  | none =>
    let listed := t.directories ++ t.files.map (·.1)
    if place.isEmpty || listed.any place.isPrefixOf then some .directory else none

/-- A place that a path can reach: one of the tree, or a directory outside it, of which nothing is
known. -/
inductive Place where
  | inside (path : List String)
  | outside
  deriving DecidableEq, Repr

/-- What stands at a place. -/
def at? (t : FileTree) : Place → Option Entry
  | .inside path => t.entry? path
  | .outside => some .directory

/-- The place above another. -/
def Place.parent : Place → Place
  | .inside (c :: path) => .inside (c :: path).dropLast
  | .inside [] | .outside => .outside

/-- The place that a component leads to from a directory. -/
def child (t : FileTree) (place : Place) (component : String) : Except ReadError Place :=
  if component = "" ∨ component = "." then .ok place
  else if component = ".." then .ok place.parent
  else if component.utf8ByteSize > maxComponent then .error .nameTooLong
  else
    match place with
    | .outside => .error .notFound
    | .inside path =>
      if (t.entry? (path ++ [component])).isSome then .ok (.inside (path ++ [component]))
      else .error .notFound

/-- Follows one component, from a place that must be a directory. -/
def follow (t : FileTree) (place : Place) (component : String) : Except ReadError Place :=
  match t.at? place with
  | some .directory => t.child place component
  | some (.file _) => .error .notDirectory
  | none => .error .notFound

/-- The bytes of the file that a path names. -/
def read (t : FileTree) (path : String) : Except ReadError (List UInt8) := do
  if path = "" then
    throw .notFound
  if path.utf8ByteSize > maxPath then
    throw .nameTooLong
  let start := if path.startsWith "/" then Place.outside else .inside []
  match t.at? (← (path.splitOn "/").foldlM t.follow start) with
  | some (.file bytes) => return bytes
  | some .directory => throw .isDirectory
  | none => throw .notFound

end FileTree

end FrontEnd.Command
