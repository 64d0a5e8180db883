import BuildOrder.Application
import BuildOrder.BuildError
import BuildOrder.Trace

/-!
# Packages of directories

The files of a directory make up a package whose import path is the directory. Files at the top
level get an import path drawn from a sequence of names.

* `chooseName`: the first name drawn that is free, within a bounded number of draws.
* `assemble`: the application with the package of a directory, or why it cannot have it.
-/

namespace BuildOrder

/-- The import path of the program's entry point, which no package may have. -/
def reservedPath : Bytes := ascii "main"

/-- The directory of the files at the top level. -/
def topLevel : Bytes := [Byte.dot]

def maxNameAttempts : Nat := 16

/-- The names drawn for the top-level package, one after the other. -/
abbrev Namer := Nat → Bytes

namespace Namer

/-- Draws from a list of names over and over. -/
def cycle (names : List Bytes) : Namer := fun n => names.getD (n % names.length) []

/-- Draws `main` and five digits from a pseudo-random sequence. -/
def ofSeed (seed : Nat) : Namer := fun n =>
  let number := ((seed + n) * 6364136223846793005 + 1442695040888963407) / 65536 % 100000
  let digits := Bytes.decimal number
  ascii "main" ++ List.replicate (5 - digits.length) 0x30 ++ digits

end Namer

/-- The first of at most `attempts` names that is not taken, after `drawn` names were drawn before,
and how many names are drawn then. -/
def chooseName (names : Namer) (taken : Bytes → Bool) (drawn : Nat) : Nat → Option Bytes × Nat
  | 0 => (none, drawn)
  | attempts + 1 =>
    if taken (names drawn) then chooseName names taken (drawn + 1) attempts
    else (some (names drawn), drawn + 1)

/-- What decides on the packages of directories. -/
structure Assembler where
  isStandard : Bytes → Bool
  /-- The standard import paths that a directory may take. -/
  allowedShadows : List Bytes
  names : Namer

/-- The import path of a directory: with slashes, whatever the directory is written with. -/
def pathOfDirectory (dir : Bytes) : Bytes :=
  dir.map fun b => if b = Byte.backslash then Byte.slash else b

namespace BuildError

def noFreeName : BuildError :=
  { kind := .malformedInput
    message := ascii "cannot choose a unique import path for the top-level package" }

def reserved : BuildError :=
  { kind := .reservedIdentifier, message := ascii "top-level main package is forbidden" }

def shadowed (path : Bytes) : BuildError :=
  { kind := .shadowNotAllowed
    message := ascii "package " ++ Bytes.quoted path ++
      ascii " has the same name as a standard package" }

def malformed (message : Bytes) : BuildError := { kind := .malformedInput, message }

end BuildError

namespace Assembler

variable (a : Assembler) (app : Application)

/-- The import path for a directory, and how many names are drawn then. -/
def importPath (dir : Bytes) (drawn : Nat) : Option Bytes × Nat :=
  if dir = topLevel then chooseName a.names app.contains drawn maxNameAttempts
  else (some (pathOfDirectory dir), drawn)

/-- The package of a directory under an import path. -/
def package (path : Bytes) (files : List FileId) : Package :=
  { importPath := path
    files
    hasInit := files.any fun id => (app.file? id).any (·.hasInit)
    isShadow := a.isStandard path }

def describe (dir : Bytes) (p : Package) : Bytes :=
  ascii "package " ++ p.importPath ++ ascii " from " ++ dir ++ ascii " (" ++
    Bytes.decimal p.files.length ++ ascii " file(s)" ++
    (if p.hasInit then ascii ", init" else []) ++
    (if p.isShadow then ascii ", shadow" else []) ++ ascii ")"

/-- The application with the package of a directory under an import path. -/
def add (dir path : Bytes) (files : List FileId) : Attempt BuildError Application := do
  if path = reservedPath then throw .reserved
  let standard ← Traced.ask a.isStandard path
  if standard ∧ path ∉ a.allowedShadows then throw (.shadowed path)
  let p := a.package app path files
  Traced.note .debug "assemble" (describe dir p)
  liftExcept ((app.addPackage? p).mapError BuildError.malformed)

/-- The application with the package of a directory, and how many names are drawn then. -/
def assemble (dir : Bytes) (files : List FileId) (drawn : Nat) :
    Attempt BuildError Application × Nat :=
  match a.importPath app dir drawn with
  | (none, drawn) => (throw .noFreeName, drawn)
  | (some path, drawn) => (a.add app dir path files, drawn)

end Assembler

end BuildOrder
