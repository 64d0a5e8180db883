import BuildOrder.Application
import BuildOrder.Trace

/-!
# The dependency graph

A package depends on the packages of the application that its files import.

* `Application.withDependencies`: the application with its dependency lists, each in increasing
  order of import paths.
-/

namespace BuildOrder.Application

variable (app : Application)

/-- The packages that the files of a package import. -/
def dependencies (p : Package) : List PackageId :=
  (Bytes.sortedSet ((app.filesOf p).flatMap (·.imports))).filterMap app.find?

def withDependencies : Application :=
  { app with packages := app.packages.map fun p => { p with dependencies := app.dependencies p } }

/-- How many dependencies there are. -/
def edgeCount : Nat := (app.packages.flatMap (·.dependencies)).length

/-- Builds the dependency lists. -/
def buildDependencies : Traced Application := do
  let built := app.withDependencies
  Traced.note .debug "graph" (Bytes.decimal built.packages.length ++ ascii " package(s), " ++
    Bytes.decimal built.edgeCount ++ ascii " edge(s)")
  return built

end BuildOrder.Application
