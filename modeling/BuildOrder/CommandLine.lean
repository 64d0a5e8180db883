import BuildOrder.Config.Parse
import BuildOrder.Log.Options

/-!
# The command line

A command, options and files. A configuration file named on the command line is read before the
other options, which add to it or replace what it says.

* `CommandLine.parse`: the command line of a list of arguments, or the first fault in it.
-/

namespace BuildOrder

inductive Command where
  /-- Prints the packages of an application in build order. -/
  | order
  /-- Checks each file by itself. -/
  | check
deriving DecidableEq, Repr

def Command.name : Command → Bytes
  | order => ascii "order"
  | check => ascii "check"

def Command.ofName? (name : Bytes) : Option Command :=
  if name = order.name then some order
  else if name = check.name then some check
  else none

structure CommandLine where
  command : Command
  config : Config
  files : List Bytes
deriving DecidableEq, Repr

inductive UsageFault where
  | missingCommand
  | unknownCommand (name : Bytes)
  | notLoaded (fault : Config.LoadFault)
  | unknownOption (arg : Bytes)
  | noFiles
  | invalid (fault : ConfigFault)
deriving DecidableEq, Repr

def UsageFault.message : UsageFault → Bytes
  | missingCommand => ascii "missing command"
  | unknownCommand name => ascii "unknown command '" ++ name ++ ascii "'"
  | notLoaded fault => fault.message
  | unknownOption arg => ascii "unknown option '" ++ arg ++ ascii "'"
  | noFiles => ascii "no input files"
  | invalid fault => fault.message

namespace Config

/-- What the options set, given their values. -/
def flags : List (String × (Bytes → Config → Config)) :=
  [("--base", fun v c => { c with baseDir := v }),
    ("--stdlib-root", fun v c => { c with stdlibRoot := v }),
    ("--allow-shadow", fun v c =>
      { c with allowedShadows := c.allowedShadows ++ Path.listItems 0x2c v }),
    ("--workspace", fun v c => { c with roots := Path.rootList v }),
    ("--exclude", fun v c => { c with exclude := v }),
    ("--literal-exempt", fun v c => { c with exempt := c.exempt ++ Path.listItems 0x2c v }),
    ("--tags", fun v c => { c with tags := some (Path.listItems 0x2c v) }),
    ("--os", fun v c => { c with os := v }),
    ("--arch", fun v c => { c with arch := v })]

/-- The configuration after an option, if the argument is one that sets something. -/
def applyFlag? (c : Config) (arg : Bytes) : Option Config :=
  flags.findSome? fun (flag, set) => (Bytes.optionValue? flag arg).map fun value => set value c

end Config

namespace CommandLine

/-- The path of a configuration file, if the argument names one. -/
def configFile? (arg : Bytes) : Option Bytes := Bytes.optionValue? "--config" arg

/-- Loads the configuration files named by the arguments. The last one counts, but all must be
sound. -/
def loadConfigs (t : FileTree) (c : Config) : List Bytes → Attempt UsageFault Config
  | [] => return c
  | path :: rest => do
    loadConfigs t (← ExceptT.adapt .notLoaded (Config.load t path)) rest

/-- The argument is no option. -/
def isFile (arg : Bytes) : Bool := arg.head? != some 0x2d

/-- Reads the arguments after the command: the configuration they make of the given one, and the
files. Two dashes end the options. -/
def readArguments (c : Config) (files : List Bytes) :
    List Bytes → Except UsageFault (Config × List Bytes)
  | [] => .ok (c, files)
  | arg :: rest =>
    if isFile arg then readArguments c (files ++ [arg]) rest
    else if arg = ascii "--" then .ok (c, files ++ rest)
    else if Log.isLogOption arg || (configFile? arg).isSome then readArguments c files rest
    else
      match c.applyFlag? arg with
      | some c => readArguments c files rest
      | none => .error (.unknownOption arg)

/-- The command line of a list of arguments. -/
def parse (t : FileTree) (args : List Bytes) : Attempt UsageFault CommandLine := do
  match args with
  | [] => throw .missingCommand
  | name :: rest =>
    match Command.ofName? name with
    | none => throw (.unknownCommand name)
    | some command =>
      let config ← loadConfigs t {} (rest.filterMap configFile?)
      let (config, files) ← liftExcept (readArguments config [] rest)
      if files = [] then throw .noFiles
      liftExcept (config.validate.mapError UsageFault.invalid)
      return { command, config, files }

end CommandLine

end BuildOrder
