import BuildOrder.Log.Logger

/-!
# Logging options

* `LogConfig.ofArguments`: the configuration that arguments and the environment ask for. A level or
  filter among the arguments puts the environment out of force, and a level by name the level by
  verbosity.
-/

namespace BuildOrder.Log

/-- The number of letters in `-v`, `-vv` and so on. -/
def verbosity? : Bytes → Option Nat
  | 0x2d :: v :: rest => if (v :: rest).all (· == 0x76) then some (rest.length + 1) else none
  | _ => none

/-- An option that is about logging. -/
inductive LogOption where
  | level (l : Level)
  | filter (text : Bytes)
  | file (path : Bytes)
  | format (f : Format)
  | quiet
  | verbose (count : Nat)
deriving DecidableEq, Repr

def LogOption.ofArgument? (arg : Bytes) : Option LogOption :=
  match Bytes.optionValue? "--log-level" arg, Bytes.optionValue? "--log-filter" arg,
    Bytes.optionValue? "--log-file" arg, Bytes.optionValue? "--log-format" arg with
  | some value, _, _, _ => some (.level (.ofName value))
  | _, some value, _, _ => some (.filter value)
  | _, _, some value, _ => some (.file value)
  | _, _, _, some value =>
    some (.format (if value = ascii "json" ∨ value = ascii "JSON" then .json else .text))
  | none, none, none, none =>
    if arg = ascii "-q" ∨ arg = ascii "--quiet" then some .quiet
    else if arg = ascii "--verbose" then some (.verbose 1)
    else (verbosity? arg).map .verbose

/-- The argument is about logging. -/
def isLogOption (arg : Bytes) : Bool := (LogOption.ofArgument? arg).isSome

/-- What the options read so far ask for. -/
structure LogRequest where
  config : LogConfig := {}
  hasLevel : Bool := false
  hasFilter : Bool := false
  verbosity : Nat := 0
deriving DecidableEq, Repr

namespace LogRequest

variable (r : LogRequest)

def add : LogOption → LogRequest
  | .level level => { r with config := { r.config with level }, hasLevel := true }
  | .filter filter => { r with config := { r.config with filter }, hasFilter := true }
  | .file file => { r with config := { r.config with file } }
  | .format format => { r with config := { r.config with format } }
  | .quiet => { r with config := { r.config with level := .error }, hasLevel := true }
  | .verbose count => { r with verbosity := max r.verbosity count }

/-- The level of a verbosity. -/
def verboseLevel (count : Nat) : Level :=
  if count = 1 then .info else if count = 2 then .debug else .trace

/-- The configuration, given the text in the environment: a filter if it has an equals sign or a
comma, or else a level. -/
def settle (environment : Bytes) : LogConfig :=
  if !r.hasLevel && 0 < r.verbosity then { r.config with level := verboseLevel r.verbosity }
  else if r.hasLevel || r.hasFilter || environment.isEmpty then r.config
  else if 0x3d ∈ environment ∨ 0x2c ∈ environment then { r.config with filter := environment }
  else { r.config with level := .ofName environment }

end LogRequest

/-- The configuration that the arguments and the environment ask for. -/
def LogConfig.ofArguments (args : List Bytes) (environment : Bytes) : LogConfig :=
  ((args.filterMap LogOption.ofArgument?).foldl LogRequest.add {}).settle environment

end BuildOrder.Log
