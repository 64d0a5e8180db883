import BuildOrder.Assemble
import BuildOrder.Dependency
import BuildOrder.Exclusion
import BuildOrder.Extract
import BuildOrder.Order
import BuildOrder.Resolve

/-!
# Building an application

The files given are gathered by directory and scanned; each directory makes up a package; external
packages are found; the packages are put in order.

* `Builder.build`: the application of a list of files below a base directory.
* `Application.listing`: the packages in build order, with their files.
-/

namespace BuildOrder

structure BuildOptions where
  /-- The standard import paths that a directory may take. -/
  allowedShadows : List Bytes := []
  /-- The types whose literals need no keys. -/
  exemptions : List Bytes := defaultExemptions
  /-- The pattern of the files that are left out of external packages. -/
  excludePattern : Bytes := []
  context : BuildContext := .host
deriving DecidableEq, Repr

/-- A file name that was given is no name of a file below the base. -/
def BuildError.badFilename (filename : Bytes) : BuildError :=
  { kind := .malformedInput, message := ascii "bad filename " ++ Bytes.quoted filename }

/-- The directory of a file that was given. -/
def checkFilename (filename : Bytes) : Except BuildError Bytes :=
  match Path.directoryBelow? filename with
  | some dir => .ok dir
  | none => .error (.badFilename filename)

/-- What a build has to go by. Without a workspace no external packages are looked for. -/
structure Builder where
  tree : FileTree
  options : BuildOptions
  isStandard : Bytes → Bool
  workspace : Option Workspace := none
  names : Namer

/-- The files of a directory of the application. -/
structure DirectoryFiles where
  dir : Bytes
  files : List FileId
deriving DecidableEq, Repr

namespace Builder

variable (b : Builder)

/-- The name of a file below the base. -/
def relativeName (dir name : Bytes) : Bytes :=
  if dir = topLevel then name else dir ++ [Byte.slash] ++ name

/-- Extracts the files of a directory. -/
def extractAll (dir : Bytes) : List ScannedFile → Attempt BuildError (List File)
  | [] => return []
  | file :: rest => do
    let extracted ←
      extract b.isStandard b.options.exemptions (relativeName dir file.name) file.source
    return extracted :: (← extractAll dir rest)

/-- Scans the directories in turn and adds their files. A directory without files that belong to
the build is passed over. -/
def addDirectories (base : Bytes) (filenames : List Bytes) (app : Application) :
    List Bytes → Attempt BuildError (Application × List DirectoryFiles)
  | [] => return (app, [])
  | dir :: rest => do
    match ← scanDirectory b.tree b.options.context (Path.join base dir)
      (b.tree.listNamed base filenames) with
    | none =>
      Traced.note .debug "scan" (ascii "no buildable files in " ++ dir ++ ascii ", skipping")
      addDirectories base filenames app rest
    | some scanned =>
      let files ← b.extractAll dir scanned.files
      let ids := (List.range files.length).map (app.files.length + ·)
      let (app, others) ← addDirectories base filenames (app.addFiles files) rest
      return (app, ⟨dir, ids⟩ :: others)

def assembler : Assembler :=
  { isStandard := b.isStandard, allowedShadows := b.options.allowedShadows, names := b.names }

/-- Makes packages of the directories in turn, after some names were drawn. -/
def assembleAll (app : Application) (drawn : Nat) :
    List DirectoryFiles → Attempt BuildError Application
  | [] => return app
  | d :: rest => do
    let (attempt, drawn) := b.assembler.assemble app d.dir d.files drawn
    assembleAll (← attempt) drawn rest

/-- Finds the external packages, if there is a workspace. -/
def resolveExternal (app : Application) : Attempt BuildError Application :=
  match b.workspace with
  | none => return app
  | some workspace => do
    let exclusion ← liftExcept (Exclusion.compile b.options.excludePattern)
    let resolver : Resolver :=
      { workspace, isStandard := b.isStandard, isExcluded := exclusion.excludes }
    let (resolution, result) ← resolver.resolve app
    liftExcept result
    return resolution.app

/-- Builds the application made of the given files, which are relative to `base`. -/
def build (base : Bytes) (filenames : List Bytes) : Attempt BuildError Application := do
  let dirs ← liftExcept (filenames.mapM checkFilename)
  let (app, directories) ← b.addDirectories base filenames {} (Bytes.sortedSet dirs)
  let app ← b.assembleAll app 0 directories
  let app ← b.resolveExternal app
  let app ← app.buildDependencies
  let (app, result) ← app.sort
  liftExcept result
  Traced.note .info "graph" (ascii "built " ++ Bytes.decimal app.packages.length ++
    ascii " package(s) from " ++ Bytes.decimal app.files.length ++ ascii " file(s)")
  return app

end Builder

namespace Application

variable (app : Application)

/-- The lines of a package: its import path, whether it runs code at start, the directory of an
external one, and its files. -/
def packageListing (id : PackageId) : Bytes :=
  match app.package? id with
  | none => []
  | some p =>
    p.importPath ++ (if app.roots.contains id then ascii " [init]" else []) ++
      (match p.baseDir with
        | some dir => ascii " (" ++ dir ++ ascii ")"
        | none => []) ++
      [Byte.newline] ++
      (app.filesOf p).flatMap fun f => ascii "    " ++ f.name ++ [Byte.newline]

/-- The packages in build order. -/
def listing : Bytes := app.order.flatMap app.packageListing

end Application

end BuildOrder
