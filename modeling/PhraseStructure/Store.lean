/-!
# Files

Grammars and budgets are kept in files.  A `Store` gives access to files by their paths, in whatever monad the
files live; a `Disk` is a store that is itself a value, a tree of directories and files.

## Main definitions

* `AccessFault`: why a file cannot be read or written.
* `Store`: reading and writing files.
* `Disk`, `Disk.store`: files as a value.
* `Path.parts`, `Path.hasExtension`: the parts of a path.
-/

namespace PhraseStructure

/-- Why a file cannot be read or written. -/
inductive AccessFault where
  /-- There is no such file. -/
  | notFound
  /-- A file is asked for where there is a directory. -/
  | isDirectory
  /-- A directory is asked for where there is a file. -/
  | notDirectory
  /-- Anything else. -/
  | other (text : String)
deriving DecidableEq, Repr

/-- The wording of an access fault. -/
def AccessFault.text : AccessFault → String
  | notFound => "No such file or directory (os error 2)"
  | isDirectory => "Is a directory (os error 21)"
  | notDirectory => "Not a directory (os error 20)"
  | other text => text

/-- Access to files by their paths. -/
structure Store (m : Type → Type) where
  /-- Reads a whole file. -/
  read : String → m (Except AccessFault String)
  /-- Writes a whole file. -/
  write : String → String → m (Except AccessFault Unit)

namespace Path

/-- The names on a path, from the working directory on.  A path from the root begins with an empty name,
which no file has. -/
def parts (path : String) : List String :=
  let names := (path.splitOn "/").foldl (fun names name =>
    if name = "" ∨ name = "." then names
    else if name = ".." then names.drop 1
    else name :: names) []
  if path.startsWith "/" then "" :: names.reverse else names.reverse

/-- Does the name of the file have exactly this extension?  What follows the last dot is the extension, but a
dot at the front of a name begins none. -/
def hasExtension (path extension : String) : Bool :=
  match (parts path).getLast? with
  | none => false
  | some name =>
    let reversed := name.toList.reverse
    let stem := reversed.dropWhile (· ≠ '.')
    reversed.takeWhile (· ≠ '.') = extension.toList.reverse && 1 < stem.length

end Path

/-- What a path can lead to. -/
inductive Entry where
  /-- A file with its text. -/
  | file (content : String)
  /-- A directory. -/
  | directory
deriving DecidableEq, Repr

/-- Files and directories below a working directory, by the names on their paths. -/
structure Disk where
  /-- The entries, most recent first. -/
  entries : List (List String × Entry) := []
deriving DecidableEq, Repr

namespace Disk

/-- What is stored under a path, if anything. -/
def entry? (disk : Disk) (parts : List String) : Option Entry :=
  if parts = [] ∨ parts = [""] then some .directory
  else (disk.entries.find? fun entry => entry.1 = parts).map (·.2)

/-- Fails unless every proper part of a path leads to a directory. -/
def checkParents (disk : Disk) (parts : List String) : Except AccessFault Unit :=
  (List.range parts.length).forM fun n =>
    match disk.entry? (parts.take n) with
    | some .directory => .ok ()
    | some (.file _) => .error .notDirectory
    | none => .error .notFound

/-- Puts an entry under a path. -/
def put (disk : Disk) (path : String) (entry : Entry) : Disk :=
  ⟨(Path.parts path, entry) :: disk.entries⟩

/-- The text of a file. -/
def read (disk : Disk) (path : String) : Except AccessFault String := do
  if path = "" then
    throw .notFound
  disk.checkParents (Path.parts path)
  match disk.entry? (Path.parts path) with
  | some (.file content) => if path.endsWith "/" then throw .notDirectory else return content
  | some .directory => throw .isDirectory
  | none => throw .notFound

/-- The disk with a file written anew. -/
def write (disk : Disk) (path content : String) : Except AccessFault Disk := do
  if path = "" then
    throw .notFound
  disk.checkParents (Path.parts path)
  match disk.entry? (Path.parts path) with
  | some .directory => throw .isDirectory
  | some (.file _) => if path.endsWith "/" then throw .notDirectory else return disk.put path (.file content)
  | none => if path.endsWith "/" then throw .isDirectory else return disk.put path (.file content)

/-- A disk as a store. -/
def store : Store (StateM Disk) where
  read path := do return (← get).read path
  write path content := do
    match (← get).write path content with
    | .error fault => return .error fault
    | .ok disk => do
      set disk
      return .ok ()

end Disk

end PhraseStructure
