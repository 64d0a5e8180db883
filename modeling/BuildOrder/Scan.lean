import BuildOrder.BuildError
import BuildOrder.Context
import BuildOrder.FileTree.Listing
import BuildOrder.SourceFile.Load

/-!
# The package of a directory

The source files of a directory that its names and build constraints select make up one package,
if there are any, and all declare the same package name.

* `scanDirectory`: the package of a directory, as a lister shows it.
-/

namespace BuildOrder

structure ScannedFile where
  /-- The name in its directory. -/
  name : Bytes
  source : SourceFile
deriving Repr

structure ScannedPackage where
  dir : Bytes
  /-- The package name that every file declares. -/
  name : Bytes
  files : List ScannedFile
deriving Repr

/-- The entries of a directory are not known. -/
def BuildError.unlisted (dir reason : Bytes) : BuildError :=
  { kind := .io, message := ascii "failed parsing dir " ++ dir ++ ascii ": " ++ reason }

/-- Two files of a directory declare different packages. -/
def BuildError.mixedPackages (dir : Bytes) (first : ScannedFile) (other : ScannedFile) :
    BuildError :=
  { kind := .malformedInput
    message := ascii "found packages " ++ first.source.packageName ++ ascii " (" ++ first.name ++
      ascii ") and " ++ other.source.packageName ++ ascii " (" ++ other.name ++ ascii ") in " ++
      dir }

/-- A source file that could not be parsed. -/
def BuildError.ofSyntax (e : SyntaxError) : BuildError :=
  { kind := .syntaxError, message := e.text }

variable (t : FileTree) (context : BuildContext) (dir : Bytes)

/-- Adds a file to those of its package found before. -/
def addScanned (files : List ScannedFile) (file : ScannedFile) :
    Except BuildError (List ScannedFile) :=
  match files with
  | [] => .ok [file]
  | first :: _ =>
    if file.source.packageName = first.source.packageName then .ok (files ++ [file])
    else .error (.mixedPackages dir first file)

/-- Goes through the entries of a directory, after the files found before. -/
def scanEntries (files : List ScannedFile) : List DirEntry → Attempt BuildError (List ScannedFile)
  | [] => return files
  | entry :: rest => do
    if entry.isDirectory || !context.matchesFileName entry.name then
      scanEntries files rest
    else
      let source ← ExceptT.adapt BuildError.ofSyntax (t.sourceFile (Path.join dir entry.name))
      if context.matchesConstraints source.constraints then
        scanEntries (← liftExcept (addScanned dir files ⟨entry.name, source⟩)) rest
      else
        Traced.note .debug "scan"
          (ascii "excluded by build constraints: " ++ dir ++ ascii "/" ++ entry.name)
        scanEntries files rest

/-- The package of a directory; none if no file is selected. -/
def scanDirectory (lister : Lister) : Attempt BuildError (Option ScannedPackage) := do
  let entries ← liftExcept ((lister dir).mapError (BuildError.unlisted dir))
  match ← scanEntries t context dir [] entries with
  | [] => return none
  | first :: more =>
    let package : ScannedPackage := { dir, name := first.source.packageName, files := first :: more }
    Traced.note .trace "scan" (dir ++ ascii ": package " ++ package.name ++ ascii ", " ++
      Bytes.decimal package.files.length ++ ascii " file(s)")
    return some package

end BuildOrder
