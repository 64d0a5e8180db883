import BuildOrder.Build

/-!
# Configurations

What a command is told by a configuration file and by its options.

* `Config.options`: the build options that a configuration asks for.
* `Config.validate`: why a configuration cannot be used.
-/

namespace BuildOrder

structure Config where
  /-- The directory that the files given are relative to. -/
  baseDir : Bytes := [Byte.dot]
  /-- The root of the standard library; if empty, nothing is standard. -/
  stdlibRoot : Bytes := []
  allowedShadows : List Bytes := []
  /-- The roots of the workspace; without any, external packages are not looked for. -/
  roots : List Bytes := []
  exclude : Bytes := []
  /-- The types that are exempt beside the built-in ones. -/
  exempt : List Bytes := []
  /-- The target system; if empty, the host's. -/
  os : Bytes := []
  arch : Bytes := []
  tags : Option (List Bytes) := none
deriving DecidableEq, Repr

/-- Why a configuration cannot be used. -/
inductive ConfigFault where
  | emptyBase
  | exclusion (error : BuildError)
deriving DecidableEq, Repr

def ConfigFault.message : ConfigFault → Bytes
  | emptyBase => ascii "empty base directory"
  | exclusion e => e.message

namespace Config

variable (c : Config)

def hasWorkspace : Bool := !c.roots.isEmpty

def validate : Except ConfigFault Unit := do
  if c.baseDir = [] then throw .emptyBase
  let _ ← (Exclusion.compile c.exclude).mapError .exclusion

def context : BuildContext :=
  let host := BuildContext.host
  { host with
    os := if c.os = [] then host.os else c.os
    arch := if c.arch = [] then host.arch else c.arch
    tags := match c.tags with
      | none => host.tags
      | some tags => Bytes.sortedSet tags }

def options : BuildOptions :=
  { allowedShadows := Bytes.sortedSet c.allowedShadows
    exemptions := Bytes.sortedSet (defaultExemptions ++ c.exempt)
    excludePattern := c.exclude
    context := c.context }

end Config

end BuildOrder
