import BuildOrder.Bytes

/-!
# Applications

An application is made of files and of packages that hold them. Files and packages have numbers,
given in the order in which they come; a package is known by its import path too, and no two have
the same.

* `Application.addFile`, `Application.addPackage?`: how an application grows.
* `Application.find?`: the package of an import path.
-/

namespace BuildOrder

abbrev FileId := Nat

abbrev PackageId := Nat

/-- A source file of a package. -/
structure File where
  /-- Relative to the base of the application, or to its package if that is external. -/
  name : Bytes
  packageName : Bytes
  imports : List Bytes
  hasInit : Bool := false
deriving DecidableEq, Repr

structure Package where
  importPath : Bytes
  files : List FileId
  /-- The directory of an external package. -/
  baseDir : Option Bytes := none
  /-- The packages that this one needs, by import path once the graph is built. -/
  dependencies : List PackageId := []
  hasInit : Bool := false
  /-- The package stands in for a standard one. -/
  isShadow : Bool := false
deriving DecidableEq, Repr

def Package.isExternal (p : Package) : Bool := p.baseDir.isSome

structure Application where
  files : List File := []
  packages : List Package := []
  /-- The packages in the order in which they are to be built. -/
  order : List PackageId := []
  /-- The packages that run code at start. -/
  roots : List PackageId := []
deriving DecidableEq, Repr

namespace Application

variable (app : Application)

/-- The package of an import path. -/
def find? (path : Bytes) : Option PackageId := app.packages.findIdx? (·.importPath == path)

def contains (path : Bytes) : Bool := app.packages.any (·.importPath == path)

def file? (id : FileId) : Option File := app.files[id]?

def package? (id : PackageId) : Option Package := app.packages[id]?

/-- The import path of a package. -/
def pathOf (id : PackageId) : Bytes := ((app.package? id).map (·.importPath)).getD []

def dependenciesOf (id : PackageId) : List PackageId :=
  ((app.package? id).map (·.dependencies)).getD []

/-- The files of a package. -/
def filesOf (p : Package) : List File := p.files.filterMap app.file?

/-- The imports of a package's files, in order. -/
def importsOf (id : PackageId) : List Bytes :=
  match app.package? id with
  | none => []
  | some p => (app.filesOf p).flatMap (·.imports)

/-- The import paths in build order. -/
def orderedPaths : List Bytes := app.order.map app.pathOf

/-- The application with one file more, which gets the next number. -/
def addFile (file : File) : Application := { app with files := app.files ++ [file] }

def addFiles (files : List File) : Application := { app with files := app.files ++ files }

/-- The application with one package more, at the end of the order. A package that runs code at
start becomes a root. -/
def register (package : Package) : Application :=
  let id := app.packages.length
  { app with
    packages := app.packages ++ [package]
    order := app.order ++ [id]
    roots := if package.hasInit then app.roots ++ [id] else app.roots }

/-- The application with one package more, unless its import path is taken. -/
def addPackage? (package : Package) : Except Bytes Application :=
  if app.contains package.importPath then
    .error (ascii "package " ++ package.importPath ++ ascii " registered twice")
  else .ok (app.register package)

end Application

end BuildOrder
