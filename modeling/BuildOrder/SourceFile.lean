import BuildOrder.Source

/-!
# Source files as the build sees them

Of a source file the build keeps its package clause, its imports, the signatures of its functions
and its composite literals with their nesting; statements and expressions are not kept.

* `SourceFile.importPaths`, `SourceFile.hasInit`: what a package takes from its files.
* `SourceFile.walk`: imports, functions and literals in source order, a literal before the
  literals inside it.
-/

namespace BuildOrder

/-- An import: its local name if one is written (`.` and `_` included), and the path. -/
structure ImportSpec where
  name : Option Bytes
  path : Bytes
  location : Location
deriving DecidableEq, Repr

/-- The type written before a literal's brace: `name`, `qualifier.name`, or nothing. -/
structure LiteralType where
  qualifier : Bytes := []
  name : Bytes := []
deriving DecidableEq, Repr

/-- One element of a literal: whether a key is written, and the literals inside it. -/
structure LiteralElement (α : Type) where
  keyed : Bool
  nested : List α
deriving DecidableEq, Repr

/-- A composite literal; its place is that of the first token of its type. -/
inductive CompositeLit where
  | mk (type : LiteralType) (location : Location) (elements : List (LiteralElement CompositeLit))
deriving Repr

namespace CompositeLit

def type : CompositeLit → LiteralType
  | mk type _ _ => type

def location : CompositeLit → Location
  | mk _ location _ => location

def elements : CompositeLit → List (LiteralElement CompositeLit)
  | mk _ _ elements => elements

mutual

/-- A literal and the literals inside it, outer ones first. -/
def preorder : CompositeLit → List CompositeLit
  | mk type location elements => mk type location elements :: preorderElements elements

def preorderElements : List (LiteralElement CompositeLit) → List CompositeLit
  | [] => []
  | ⟨_, nested⟩ :: rest => preorderAll nested ++ preorderElements rest

/-- The literals of a forest, outer ones first. -/
def preorderAll : List CompositeLit → List CompositeLit
  | [] => []
  | lit :: rest => preorder lit ++ preorderAll rest

end

end CompositeLit

structure FuncDecl where
  name : Bytes
  hasReceiver : Bool
  /-- The entries of the parameter list, separated by commas. -/
  paramCount : Nat
  resultCount : Nat
  hasBody : Bool
  /-- The literals in the body. -/
  literals : List CompositeLit
  location : Location
deriving Repr

/-- The function is a package initializer. -/
def FuncDecl.isInit (f : FuncDecl) : Bool :=
  f.name == ascii "init" && !f.hasReceiver && f.paramCount == 0 && f.resultCount == 0

/-- The declarations that introduce values and types. -/
inductive ValueKeyword where
  | var
  | const
  | type
deriving DecidableEq, Repr

inductive Decl where
  | imports (specs : List ImportSpec)
  | func (decl : FuncDecl)
  | value (keyword : ValueKeyword) (literals : List CompositeLit)
deriving Repr

structure SourceFile where
  filename : Bytes
  packageName : Bytes
  packageLocation : Location
  /-- The build constraints, without the words that introduce them. -/
  constraints : List Bytes
  decls : List Decl
deriving Repr

namespace SourceFile

def importSpecs (file : SourceFile) : List ImportSpec :=
  file.decls.flatMap fun
    | .imports specs => specs
    | _ => []

def importPaths (file : SourceFile) : List Bytes := file.importSpecs.map (·.path)

def hasInit (file : SourceFile) : Bool :=
  file.decls.any fun
    | .func f => f.isInit
    | _ => false

/-- What a reader of the whole file meets. -/
inductive Event where
  | importSpec (spec : ImportSpec)
  | func (decl : FuncDecl)
  | literal (lit : CompositeLit)
deriving Repr

def Decl.events : Decl → List Event
  | .imports specs => specs.map .importSpec
  | .func f => .func f :: (CompositeLit.preorderAll f.literals).map .literal
  | .value _ literals => (CompositeLit.preorderAll literals).map .literal

/-- Imports, functions and literals in source order. -/
def walk (file : SourceFile) : List Event := file.decls.flatMap Decl.events

end SourceFile

end BuildOrder
