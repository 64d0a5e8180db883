import BuildOrder.BuildError
import BuildOrder.Path
import BuildOrder.SourceFile
import BuildOrder.Trace

/-!
# Literals of standard types need keys

A composite literal of a type from the standard library must name the fields it sets, so that it
survives a new field. Types that are no structs are exempt.

* `LiteralCheck.visit`: a step of the check, which goes through a file once and learns the local
  names of imports on the way.
* `checkLiterals`: a diagnostic for each literal that breaks the rule, in source order.
-/

namespace BuildOrder

/-- The standard types that are no structs, as `import-path.Type`. -/
def defaultExemptions : List Bytes :=
  ["appengine/datastore.PropertyList", "appengine.MultiError", "net.IP", "net.IPMask",
    "net.HardwareAddr", "sort.IntSlice", "sort.StringSlice", "sort.Float64Slice",
    "go/scanner.ErrorList", "image/color.Palette", "database/sql.RawBytes",
    "unicode.SpecialCase"].map ascii

/-- The name by which a file refers to an import, if by one: the local name, or else the last
element of the path. -/
def ImportSpec.localName? (spec : ImportSpec) : Option Bytes :=
  match spec.name with
  | some name => if name = [Byte.dot] then none else some name
  | none => some (Path.lastName spec.path)

/-- A check of a file that is going on: the standard imports met so far by their local names, the
last one first, and what was found. -/
structure LiteralCheck where
  names : List (Bytes × Bytes) := []
  diagnostics : List Diagnostic := []
deriving DecidableEq, Repr

/-- What is wrong with a literal, given the standard imports by their names. -/
def CompositeLit.untagged? (names : List (Bytes × Bytes)) (exempt : List Bytes)
    (lit : CompositeLit) : Option Diagnostic :=
  if lit.type.qualifier = [] then none
  else
    match names.lookup lit.type.qualifier with
    | none => none
    | some path =>
      let type := path ++ [Byte.dot] ++ lit.type.name
      if exempt.contains type || lit.elements.all (·.keyed) then none
      else some
        { location := lit.location
          message := ascii "composite struct literal " ++ type ++ ascii " with untagged fields" }

namespace LiteralCheck

variable (c : LiteralCheck)

/-- After a standard import, which takes its local name from any before it. -/
def addImport (spec : ImportSpec) : LiteralCheck :=
  match spec.localName? with
  | some name => { c with names := (name, spec.path) :: c.names }
  | none => c

/-- After a literal. -/
def addLiteral (exempt : List Bytes) (lit : CompositeLit) : LiteralCheck :=
  { c with diagnostics := c.diagnostics ++ (lit.untagged? c.names exempt).toList }

/-- After what a reader of the file meets next. -/
def visit (isStandard : Bytes → Bool) (exempt : List Bytes) :
    SourceFile.Event → Traced LiteralCheck
  | .importSpec spec => do
    if ← Traced.ask isStandard spec.path then return c.addImport spec
    else return c
  | .func _ => return c
  | .literal lit => return c.addLiteral exempt lit

end LiteralCheck

/-- The diagnostics of a file: one for each literal that has elements without keys and a standard
type that is not exempt. -/
def checkLiterals (isStandard : Bytes → Bool) (exempt : List Bytes) (file : SourceFile) :
    Traced (List Diagnostic) := do
  let c ← file.walk.foldlM (LiteralCheck.visit · isStandard exempt) {}
  return c.diagnostics

end BuildOrder
