import BuildOrder.FileTree

/-!
# The standard library

Which import paths are standard is a question to an oracle. The usual one looks for a directory
under a root; asked through a memory, it is asked once for each path.

* `Stdlib.ofRoot`: the oracle of a library root.
* `Memory.ask`: a question through the memory, with counts of hits and misses.
-/

namespace BuildOrder.Stdlib

/-- The path stands for a directory below `src` in the root. A standard path has no point in it,
and without a root nothing is standard. -/
def ofRoot (t : FileTree) (root path : Bytes) : Bool :=
  if root = [] ∨ path = [] ∨ Byte.dot ∈ path then false
  else t.isDirectory (Path.append (Path.append root (ascii "src")) path)

/-- Answers kept from earlier questions, the latest first, and the counts of questions. -/
structure Memory where
  answers : List (Bytes × Bool) := []
  hits : Nat := 0
  misses : Nat := 0
deriving DecidableEq, Repr

/-- Asks about a path: from memory if the path is there, else the oracle `inner`, which is given
the number of questions it was asked before. -/
def Memory.ask (inner : Nat → Bytes → Bool) (m : Memory) (path : Bytes) : Bool × Memory :=
  match m.answers.lookup path with
  | some answer => (answer, { m with hits := m.hits + 1 })
  | none =>
    let answer := inner m.misses path
    (answer, { m with answers := (path, answer) :: m.answers, misses := m.misses + 1 })

end BuildOrder.Stdlib
