import BuildOrder.Bytes

/-!
# Build constraints in source text

A build constraint is a line `// +build …` in the comments above the package clause. It counts
where a blank line directly follows the run of comment lines it stands in, so that it is told from
the comment of the clause.

* `buildConstraints`: the constraints of a source text, without `// +build`.
-/

namespace BuildOrder

/-- What may surround the words of a comment line. -/
def isBlank (b : UInt8) : Bool := b == 0x20 || b == 0x09 || b == 0x0d

def trimBlanks (s : Bytes) : Bytes := Bytes.trim isBlank s

/-- The lines of a text. A newline at its end starts no further line. -/
def linesOf (content : Bytes) : List Bytes :=
  let pieces := content.splitOn Byte.newline
  if pieces.getLast? = some [] then pieces.dropLast else pieces

/-- The constraint that a comment holds, given without its slashes. -/
def constraint? (comment : Bytes) : Option Bytes :=
  match Bytes.afterBeginning? (ascii "+build") (trimBlanks comment) with
  | some [] => some []
  | some (b :: words) => if b = 0x20 ∨ b = 0x09 then some (trimBlanks words) else none
  | none => none

/-- The constraints in the lines, after a run of comment lines that holds those of `block`. -/
def constraintsFrom (block : List Bytes) : List Bytes → List Bytes
  | [] => []
  | line :: rest =>
    let line := trimBlanks line
    if line = [] then block ++ constraintsFrom [] rest
    else
      match Bytes.afterBeginning? (ascii "//") line with
      | none => []
      | some comment => constraintsFrom (block ++ (constraint? comment).toList) rest

def buildConstraints (content : Bytes) : List Bytes := constraintsFrom [] (linesOf content)

end BuildOrder
