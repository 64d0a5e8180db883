import BuildOrder.Bytes

/-!
# Build contexts

A build is for one operating system, one architecture and one compiler, with further tags. File
names and constraint lines select the files that belong to it.

* `BuildContext.matchesFileName`: a name ending in `_os`, `_arch` or `_os_arch` is for that target.
* `BuildContext.matchesConstraint`: a line holds if one of its options does, and an option if all
  its terms do.
-/

namespace BuildOrder

def knownSystems : List Bytes :=
  ["aix", "android", "darwin", "dragonfly", "freebsd", "hurd", "illumos", "ios", "js", "linux",
    "nacl", "netbsd", "openbsd", "plan9", "solaris", "wasip1", "windows", "zos"].map ascii

def knownArchitectures : List Bytes :=
  ["386", "amd64", "amd64p32", "arm", "armbe", "arm64", "arm64be", "loong64", "mips", "mipsle",
    "mips64", "mips64le", "ppc", "ppc64", "ppc64le", "riscv", "riscv64", "s390", "s390x",
    "sparc64", "wasm"].map ascii

def isKnownSystem (word : Bytes) : Bool := knownSystems.contains word

def isKnownArchitecture (word : Bytes) : Bool := knownArchitectures.contains word

structure BuildContext where
  os : Bytes
  arch : Bytes
  compiler : Bytes := ascii "gc"
  tags : List Bytes := []
  /-- How the names of source files end. -/
  extension : Bytes := ascii ".go"
deriving DecidableEq, Repr

namespace BuildContext

/-- The context of a build that names no target. -/
def host : BuildContext :=
  { os := ascii "linux", arch := ascii "amd64", tags := [ascii "appengine"] }

variable (c : BuildContext)

/-- The word holds: it names the target, the compiler or a tag. -/
def matchesTag (word : Bytes) : Bool :=
  word != [] && (word == c.os || word == c.arch || word == c.compiler || c.tags.contains word)

/-- The name of a source file without its extension, if it is one: it does not start with an
underscore or a point, and something stands before its extension. -/
def stem? (name : Bytes) : Option Bytes :=
  if name.head? = some 0x5f ∨ name.head? = some Byte.dot then none
  else if c.extension.length < name.length ∧ c.extension.isSuffixOf name then
    some (name.take (name.length - c.extension.length))
  else none

/-- The target that the words at the end of a file name ask for is the context's. The last word
comes first. -/
def matchesTarget : List Bytes → Bool
  | [] => true
  | last :: before =>
    if isKnownArchitecture last && before.head?.any isKnownSystem then
      before.head? == some c.os && last == c.arch
    else if isKnownSystem last then last == c.os
    else if isKnownArchitecture last then last == c.arch
    else true

/-- A file of this name belongs to the build. What stands before the first underscore of the name
asks for no target. -/
def matchesFileName (name : Bytes) : Bool :=
  match c.stem? name with
  | none => false
  | some stem =>
    if (ascii "_test").isSuffixOf stem then false
    else
      match (Bytes.cutAt 0x5f stem).2 with
      | none => true
      | some words => c.matchesTarget (words.splitOn 0x5f).reverse

/-- A tag, or a tag that must not hold after an exclamation mark. -/
def matchesTerm (term : Bytes) : Bool :=
  match term with
  | [] => false
  | b :: word => if b = 0x21 then !c.matchesTag word else c.matchesTag term

/-- A constraint line holds if all terms of one of its options do. A line without options never
holds. -/
def matchesConstraint (line : Bytes) : Bool :=
  ((line.splitOn 0x20).filter (· != [])).any fun option =>
    (option.splitOn 0x2c).all c.matchesTerm

def matchesConstraints (lines : List Bytes) : Bool := lines.all c.matchesConstraint

end BuildContext

end BuildOrder
