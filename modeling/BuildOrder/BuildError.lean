import BuildOrder.Source

/-!
# Build errors

A build ends with one error: its kind, a message, the places it concerns, and for a cycle the
packages on it.

* `BuildError.cyclic`: the error of a dependency cycle.
* `BuildError.text`: the message and the places, a line each.
-/

namespace BuildOrder

inductive ErrorKind where
  /-- A file name or directory that was supplied is unusable. -/
  | malformedInput
  | syntaxError
  /-- An import path is not legal. -/
  | invalidImportPath
  /-- Literals of standard types have elements without keys. -/
  | untaggedLiteral
  /-- A package has the import path of the program's entry point. -/
  | reservedIdentifier
  /-- A package has the import path of a standard package and may not. -/
  | shadowNotAllowed
  /-- An external package has lost all its files. -/
  | fullyExcluded
  | cyclicDependency
  | io
  | invalidConfig
deriving DecidableEq, Repr

namespace ErrorKind

def all : List ErrorKind :=
  [malformedInput, syntaxError, invalidImportPath, untaggedLiteral, reservedIdentifier,
    shadowNotAllowed, fullyExcluded, cyclicDependency, io, invalidConfig]

def name : ErrorKind → Bytes
  | malformedInput => ascii "malformed-input"
  | syntaxError => ascii "syntax-error"
  | invalidImportPath => ascii "invalid-import-path"
  | untaggedLiteral => ascii "literal-tagging-violation"
  | reservedIdentifier => ascii "reserved-identifier"
  | shadowNotAllowed => ascii "name-shadow-not-allowed"
  | fullyExcluded => ascii "external-package-fully-excluded"
  | cyclicDependency => ascii "cyclic-dependency"
  | io => ascii "io-error"
  | invalidConfig => ascii "invalid-config"

end ErrorKind

/-- A remark on a place in a source file. -/
structure Diagnostic where
  location : Location
  message : Bytes
deriving DecidableEq, Repr

def Diagnostic.text (d : Diagnostic) : Bytes :=
  if d.location.file = [] then d.message else d.location.text ++ ascii ": " ++ d.message

structure BuildError where
  kind : ErrorKind
  message : Bytes
  details : List Diagnostic := []
  /-- The import paths on a cycle, the first of them repeated at the end. -/
  cycle : List Bytes := []
deriving DecidableEq, Repr

namespace BuildError

def cyclic (cycle : List Bytes) : BuildError :=
  { kind := .cyclicDependency
    message := ascii "cyclic dependency graph: " ++ Bytes.joinWith (ascii " -> ") cycle
    cycle }

def text (e : BuildError) : Bytes :=
  e.message ++ e.details.flatMap fun d => Byte.newline :: d.text

end BuildError

end BuildOrder
