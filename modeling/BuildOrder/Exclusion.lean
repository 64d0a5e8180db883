import BuildOrder.BuildError
import BuildOrder.Pattern.Match
import BuildOrder.Pattern.Parse

/-!
# The exclusion filter

Files of external packages whose `import-path/name` matches a pattern are left out.

* `Exclusion.compile`: the filter of a pattern; none for the empty pattern.
-/

namespace BuildOrder

/-- The pattern is no regular expression. The message ends with what it should be. -/
def BuildError.badExclusion (pattern : Bytes) : BuildError :=
  { kind := .invalidConfig
    message := ascii "bad exclusion pattern " ++ Bytes.quoted pattern ++ ascii ": <regex>" }

/-- What decides which files are left out; without a pattern none are. -/
structure Exclusion where
  pattern : Option Pattern
deriving DecidableEq, Repr

namespace Exclusion

def compile (pattern : Bytes) : Except BuildError Exclusion :=
  if pattern = [] then .ok ⟨none⟩
  else
    match Pattern.parse? pattern with
    | some p => .ok ⟨some p⟩
    | none => .error (.badExclusion pattern)

def excludes (e : Exclusion) (subject : Bytes) : Bool := e.pattern.any (·.matchesIn subject)

end Exclusion

end BuildOrder
