import BuildOrder.Path

/-!
# Trees of files

A tree says which files and directories there are. A path is looked up in it one name after the
other, as an operating system does it: each name but the last must be that of a directory, `..`
after a missing directory is an error, and a slash at the end asks for a directory.

* `FileTree.find`: what a path stands for, or why it stands for nothing.
* `FileTree.read`, `FileTree.children`: the content of a file, the names in a directory.
* `FileTree.writeAt`: the tree after a write into a file.
-/

namespace BuildOrder

inductive FileNode where
  | file (content : Bytes)
  | directory
deriving DecidableEq, Repr

/-- Why a path cannot be used. -/
inductive FileFault where
  | notFound
  | notDirectory
  | nameTooLong
  | isDirectory
deriving DecidableEq, Repr

def FileFault.message : FileFault → Bytes
  | notFound => ascii "No such file or directory"
  | notDirectory => ascii "Not a directory"
  | nameTooLong => ascii "File name too long"
  | isDirectory => ascii "Is a directory"

/-- Files and directories by the names that lead to them from the root. A directory on the way to
another entry or to the working directory need not be an entry. -/
structure FileTree where
  entries : List (List Bytes × FileNode)
  /-- Where relative paths start. -/
  workDir : List Bytes := []
deriving DecidableEq, Repr

namespace FileTree

variable (t : FileTree)

/-- The node at the end of the names. -/
def nodeAt (names : List Bytes) : Option FileNode :=
  match t.entries.lookup names with
  | some node => some node
  | none =>
    if names.isPrefixOf t.workDir || t.entries.any (names.isPrefixOf ·.1) then some .directory
    else none

def maxNameLength : Nat := 255

def maxPathLength : Nat := 4095

/-- Follows names from the node that the names in `here` lead to. -/
def follow (here : List Bytes) : List Bytes → Except FileFault (List Bytes)
  | [] => if (t.nodeAt here).isSome then .ok here else .error .notFound
  | name :: rest =>
    match t.nodeAt here with
    | none => .error .notFound
    | some (.file _) => .error .notDirectory
    | some .directory =>
      if name = [] ∨ name = [Byte.dot] then follow here rest
      else if name = Path.parentName then follow here.dropLast rest
      else if maxNameLength < name.length then .error .nameTooLong
      else follow (here ++ [name]) rest

/-- The names that a path lists. A zero byte ends a path. -/
def namesOf (path : Bytes) : Except FileFault (List Bytes) :=
  let path := path.takeWhile (· != 0)
  if path = [] then .error .notFound
  else if maxPathLength < path.length then .error .nameTooLong
  else .ok (path.splitOn Byte.slash)

/-- Where a path starts. -/
def origin (path : Bytes) : List Bytes := if Path.isAbsolute path then [] else t.workDir

/-- The names from the root to what the path stands for. -/
def locate (path : Bytes) : Except FileFault (List Bytes) := do
  t.follow (t.origin path) (← namesOf path)

/-- What a path stands for. -/
def find (path : Bytes) : Except FileFault FileNode := do
  let names ← t.locate path
  match t.nodeAt names with
  | some node => return node
  | none => throw .notFound

def isDirectory (path : Bytes) : Bool :=
  match t.find path with
  | .ok .directory => true
  | _ => false

/-- The content of a file. -/
def read (path : Bytes) : Except FileFault Bytes := do
  match ← t.find path with
  | .file content => return content
  | .directory => throw .isDirectory

/-- The names in a directory, in order. -/
def children (dir : List Bytes) : List Bytes :=
  Bytes.sortedSet ((t.workDir :: t.entries.map (·.1)).filterMap fun names =>
    if dir.isPrefixOf names then names[dir.length]? else none)

/-- The names from the root to a file that can be written: one that is there, or a new one in a
directory that is. -/
def locateForWriting (path : Bytes) : Except FileFault (List Bytes) := do
  let names ← namesOf path
  match t.locate path with
  | .ok found => if t.nodeAt found = some .directory then throw .isDirectory else return found
  | .error .notFound =>
    let last := names.getLastD []
    let dir ← t.follow (t.origin path) names.dropLast
    if t.nodeAt dir ≠ some .directory then throw .notDirectory
    if last = [] then throw .isDirectory
    return dir ++ [last]
  | .error fault => throw fault

/-- The content of the file at the end of the names; nothing if there is none. -/
def contentAt (names : List Bytes) : Bytes :=
  match t.nodeAt names with
  | some (.file content) => content
  | _ => []

/-- The tree with a file of the given content at the end of the names. -/
def put (names : List Bytes) (content : Bytes) : FileTree :=
  { t with entries := (names, .file content) :: t.entries.filter (·.1 != names) }

/-- Writes text over a content from an offset on. Zeros fill a gap before the offset. -/
def overwrite (content : Bytes) (offset : Nat) (text : Bytes) : Bytes :=
  content.take offset ++ List.replicate (offset - content.length) 0 ++ text ++
    content.drop (offset + text.length)

/-- The tree after a text is written into a file, at an offset or at its end. -/
def writeAt (names : List Bytes) (offset : Option Nat) (text : Bytes) : FileTree :=
  let content := t.contentAt names
  t.put names (overwrite content (offset.getD content.length) text)

end FileTree

end BuildOrder
