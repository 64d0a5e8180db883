import BuildOrder.Log.Record

/-!
# Log filters

A filter gives each component of the program the least level of the records that it may log.

* `Filter.parse`: the filter of a text like `resolve=trace,graph=debug,*=warn`.
* `Filter.accepts`: a record of a level and component passes.
-/

namespace BuildOrder.Log

structure Filter where
  /-- The least level of the components that have none of their own. -/
  default : Level := .info
  /-- The components that have a level of their own, each once. -/
  levels : List (Bytes × Level) := []
deriving DecidableEq, Repr

namespace Filter

variable (f : Filter)

def setLevel (component : Bytes) (level : Level) : Filter :=
  { f with levels := (component, level) :: f.levels.filter (·.1 != component) }

/-- Adds an entry: `component=level`, `*=level` for all others, or a component alone, which may log
anything. -/
def addEntry (entry : Bytes) : Filter :=
  match Bytes.cutAt 0x3d entry with
  | (component, some level) =>
    if component = ascii "*" then { f with default := .ofName level }
    else f.setLevel component (.ofName level)
  | (component, none) => if component = [] then f else f.setLevel component .trace

/-- The filter of a text. The level of the other components stays if the text gives none. -/
def parse (text : Bytes) : Filter :=
  (text.splitOn 0x2c).foldl addEntry { f with levels := [] }

/-- The least level of the records of a component. -/
def levelOf (component : Bytes) : Level := (f.levels.lookup component).getD f.default

def accepts (level : Level) (component : Bytes) : Bool := f.levelOf component ≤ level

/-- The least of all levels in the filter. -/
def leastLevel : Level := f.levels.foldl (fun least entry => least.least entry.2) f.default

end Filter

end BuildOrder.Log
