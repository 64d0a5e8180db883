import BuildOrder.Bytes

/-!
# File paths

A path is cleaned by its text alone: empty components and `.` go, and `..` takes away the component
before it. At the root `..` goes too; at the front of a relative path it stays.

* `Path.clean`: the cleaned text, with no slash at its end, and `.` for the empty path.
* `Path.join`: the cleaned path below a base; an absolute path stands for itself.
* `Path.parent`, `Path.lastName`: the directory of a path and its name there.
-/

namespace BuildOrder.Path

def isAbsolute (path : Bytes) : Bool := path.head? == some Byte.slash

/-- The components of a path, without empty ones. -/
def components (path : Bytes) : List Bytes := (path.splitOn Byte.slash).filter (· != [])

def parentName : Bytes := [Byte.dot, Byte.dot]

/-- Adds a component to those kept so far, the last of them first. -/
def addComponent (absolute : Bool) (kept : List Bytes) (name : Bytes) : List Bytes :=
  if name = [Byte.dot] then kept
  else if name = parentName then
    match kept with
    | [] => if absolute then [] else [parentName]
    | last :: rest => if last = parentName then parentName :: kept else rest
  else name :: kept

/-- The components that cleaning keeps. -/
def cleanComponents (path : Bytes) : List Bytes :=
  ((components path).foldl (addComponent (isAbsolute path)) []).reverse

/-- The text of a path from its components. -/
def ofComponents (absolute : Bool) (names : List Bytes) : Bytes :=
  let text := Bytes.joinWith [Byte.slash] names
  if absolute then Byte.slash :: text
  else if names = [] then [Byte.dot]
  else text

def clean (path : Bytes) : Bytes := ofComponents (isAbsolute path) (cleanComponents path)

/-- The path `rel` seen from `base`, not cleaned. An absolute path replaces the base. -/
def append (base rel : Bytes) : Bytes :=
  if isAbsolute rel then rel
  else if base = [] ∨ base.getLast? = some Byte.slash then base ++ rel
  else base ++ Byte.slash :: rel

/-- The path `rel` seen from `base`, cleaned. -/
def join (base rel : Bytes) : Bytes :=
  if base = [] then clean rel else clean (append base rel)

/-- The text before the last slash, and the text after it. -/
def splitLast (path : Bytes) : Option Bytes × Bytes :=
  let name := (path.reverse.takeWhile (· != Byte.slash)).reverse
  if name.length < path.length then (some (path.take (path.length - name.length - 1)), name)
  else (none, name)

/-- The directory of a path: `.` for a relative path of one component. -/
def parent (path : Bytes) : Bytes :=
  match (splitLast (clean path)).1 with
  | none => [Byte.dot]
  | some [] => [Byte.slash]
  | some dir => dir

/-- The text after the last slash. -/
def lastName (path : Bytes) : Bytes := (splitLast path).2

/-- The directory of a file below a base, if the name is one: it is not empty, absolute or written
as a directory, and it does not lead out of the base. -/
def directoryBelow? (filename : Bytes) : Option Bytes :=
  let cleaned := clean filename
  if filename = [] ∨ isAbsolute filename ∨ filename.getLast? = some Byte.slash then none
  else if cleaned = [Byte.dot] ∨ cleaned = parentName ∨
      (parentName ++ [Byte.slash]).isPrefixOf cleaned then none
  else some (parent cleaned)

/-- The parts of a list between separators, without empty ones. -/
def listItems (sep : UInt8) (list : Bytes) : List Bytes := (list.splitOn sep).filter (· != [])

/-- The directories of a list separated by colons. -/
def rootList (list : Bytes) : List Bytes := listItems 0x3a list

end BuildOrder.Path
