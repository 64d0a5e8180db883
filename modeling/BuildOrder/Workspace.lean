import BuildOrder.Scan

/-!
# Workspaces

A workspace finds the packages that an application imports and does not hold. The usual one looks
below a list of roots.

* `Workspace.ofRoots`: the package of the first root that has its directory.
-/

namespace BuildOrder

structure WorkspaceFile where
  /-- The name in the package's directory. -/
  name : Bytes
  imports : List Bytes
deriving DecidableEq, Repr

structure WorkspacePackage where
  dir : Bytes
  name : Bytes
  files : List WorkspaceFile
deriving DecidableEq, Repr

/-- The imports of all files, in order and each once. -/
def WorkspacePackage.imports (p : WorkspacePackage) : List Bytes :=
  Bytes.sortedSet (p.files.flatMap (·.imports))

/-- Where packages are found by import path, or why one is not there. -/
structure Workspace where
  locate : Bytes → Traced (Except Bytes WorkspacePackage)

namespace Workspace

/-- The directory of an import path below a root, if the path does not lead out of the root's
sources. -/
def directoryIn? (root path : Bytes) : Option Bytes :=
  let src := Path.join root (ascii "src")
  let dir := Path.join src path
  if (src ++ [Byte.slash]).isPrefixOf dir then some dir else none

/-- The directory of an import path below the first root that has one. -/
def firstDirectory? (t : FileTree) (roots : List Bytes) (path : Bytes) : Option Bytes :=
  (roots.filterMap (directoryIn? · path)).find? t.isDirectory

/-- No root has a directory for the path. -/
def notFound (roots : List Bytes) (path : Bytes) : Bytes :=
  let searched := Bytes.joinWith (ascii ":") (roots.dropWhile (· == []))
  ascii "cannot find package " ++ Bytes.quoted path ++ ascii " in any of " ++
    if searched = [] then ascii "(no roots)" else searched

/-- The package that a scan of its directory found. -/
def packageOf (scanned : ScannedPackage) : WorkspacePackage :=
  { dir := scanned.dir
    name := scanned.name
    files := scanned.files.map fun file => ⟨file.name, file.source.importPaths⟩ }

/-- The workspace of a list of roots. -/
def ofRoots (t : FileTree) (context : BuildContext) (roots : List Bytes) : Workspace where
  locate path :=
    match firstDirectory? t roots path with
    | none => pure (.error (notFound roots path))
    | some dir => do
      match ← (scanDirectory t context dir t.listDirectory).run with
      | .error e => return .error e.text
      | .ok none => return .error (ascii "no buildable source files in " ++ dir)
      | .ok (some scanned) =>
        Traced.note .debug "resolve" (ascii "found " ++ path ++ ascii " in " ++ dir)
        return .ok (packageOf scanned)

end Workspace

end BuildOrder
