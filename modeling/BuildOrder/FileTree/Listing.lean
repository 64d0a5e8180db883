import BuildOrder.FileTree

/-!
# Listing directories

A lister says what is in a directory. One lists what a tree holds; another only those files of a
given list that lie in the directory, so that a build sees the files it was given and no others.

* `FileTree.listDirectory`: all entries of a directory, by name.
* `FileTree.listNamed`: the entries of a directory that a list of files names, in the list's order.
-/

namespace BuildOrder

structure DirEntry where
  name : Bytes
  isDirectory : Bool
  size : Nat := 0
deriving DecidableEq, Repr

def DirEntry.ofNode (name : Bytes) : FileNode → DirEntry
  | .file content => { name, isDirectory := false, size := content.length }
  | .directory => { name, isDirectory := true }

/-- What is in a directory, or the reason why that cannot be said. -/
abbrev Lister := Bytes → Except Bytes (List DirEntry)

namespace FileTree

variable (t : FileTree)

/-- Lists all of a directory, by name. -/
def listDirectory : Lister := fun dir =>
  match t.locate dir with
  | .error fault => .error (ascii "open " ++ dir ++ ascii ": " ++ fault.message)
  | .ok names =>
    match t.nodeAt names with
    | some .directory =>
      .ok ((t.children names).filterMap fun name =>
        (t.nodeAt (names ++ [name])).map (DirEntry.ofNode name))
    | _ => .error (ascii "open " ++ dir ++ ascii ": " ++ FileFault.notDirectory.message)

/-- Lists those of the named files, given relative to `base`, that lie in a directory. -/
def listNamed (base : Bytes) (filenames : List Bytes) : Lister := fun dir =>
  let here := (filenames.map (Path.join base)).filter (Path.parent · = Path.clean dir)
  here.mapM fun path =>
    match t.find path with
    | .ok node => .ok (DirEntry.ofNode (Path.lastName path) node)
    | .error .notFound | .error .notDirectory =>
      .error (ascii "stat " ++ path ++ ascii ": no such file or directory")
    | .error fault => .error (ascii "stat " ++ path ++ ascii ": " ++ fault.message)

end FileTree

end BuildOrder
