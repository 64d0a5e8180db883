import BuildOrder.Application
import BuildOrder.ImportPath
import BuildOrder.LiteralTags
import BuildOrder.Scan

/-!
# From source files to files of an application

A source file becomes a file of the application if its import paths are legal and its literals of
standard types have keys.

* `extract`: the file, or the first fault; all faulty literals make up one error.
* `extractFrom`: the same for a file below a base directory.
-/

namespace BuildOrder

/-- An import path in a file is not legal. -/
def BuildError.badImport (filename : Bytes) (spec : ImportSpec) (fault : ImportFault) :
    BuildError :=
  { kind := .invalidImportPath
    message := ascii "bad import " ++ Bytes.quoted spec.path ++ ascii " in " ++ filename
    details := [⟨spec.location, fault.message⟩] }

def BuildError.untagged (filename : Bytes) (details : List Diagnostic) : BuildError :=
  { kind := .untaggedLiteral
    message := ascii "composite struct literals with untagged fields in " ++ filename
    details }

/-- The first import that is not legal, and why. -/
def firstBadImport? (specs : List ImportSpec) : Option (ImportSpec × ImportFault) :=
  specs.findSome? fun spec =>
    match ImportPath.check spec.path with
    | .ok () => none
    | .error fault => some (spec, fault)

variable (isStandard : Bytes → Bool) (exempt : List Bytes)

/-- The file of an application that a source file makes, under the given name. -/
def extract (filename : Bytes) (source : SourceFile) : Attempt BuildError File := do
  if let some (spec, fault) := firstBadImport? source.importSpecs then
    throw (.badImport filename spec fault)
  let violations ← checkLiterals isStandard exempt source
  if violations ≠ [] then
    Traced.note .debug "extract" (filename ++ ascii ": " ++ Bytes.decimal violations.length ++
      ascii " untagged literal(s)")
    throw (.untagged filename violations)
  let file : File :=
    { name := filename
      packageName := source.packageName
      imports := source.importPaths
      hasInit := source.hasInit }
  Traced.note .trace "extract" (filename ++ ascii ": package " ++ file.packageName ++ ascii ", " ++
    Bytes.decimal file.imports.length ++ ascii " import(s)" ++
    if file.hasInit then ascii ", init" else [])
  return file

/-- The file of an application that a name below a base directory stands for. -/
def extractFrom (t : FileTree) (base filename : Bytes) : Attempt BuildError File := do
  let source ← ExceptT.adapt BuildError.ofSyntax (t.sourceFile (Path.join base filename))
  extract isStandard exempt filename source

end BuildOrder
