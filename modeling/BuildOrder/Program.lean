import BuildOrder.CommandLine
import BuildOrder.Stdlib

/-!
# The program

A run of the program as a function: from the arguments, the files and the clock to the exit code
and all that is put out.

* `Program.run`: the exit code and the output of a run.
* `Session.play`: a session after the events of a computation.
-/

namespace BuildOrder

/-- What a run is given. -/
structure Invocation where
  args : List Bytes
  /-- The text in the environment that sets up logging. -/
  logSettings : Bytes := []
  tree : FileTree
  clock : Log.Clock
  /-- The console is a terminal. -/
  terminal : Bool := false
  names : Namer

/-- A run that is going on. -/
structure Session where
  clock : Log.Clock
  logger : Log.Logger
  output : Log.Output
  /-- The import paths that the standard library was asked about. -/
  known : List Bytes := []
deriving Repr

namespace Session

variable (s : Session)

def tree : FileTree := s.output.tree

def print (text : Bytes) : Session := { s with output := s.output.print text }

def complain (text : Bytes) : Session := { s with output := s.output.complain text }

/-- Passes the record that an event leaves to the logger. -/
def playEvent (e : Event) : Session :=
  match Trace.record? true s.known e with
  | (none, known) => { s with known }
  | (some r, known) =>
    let (logger, output) := s.logger.emit s.clock r s.output
    { s with logger, output, known }

def play (events : List Event) : Session := events.foldl playEvent s

def flush : Session :=
  let (logger, output) := s.logger.flush s.output
  { s with logger, output }

end Session

namespace Program

def nameAndVersion : Bytes := ascii "appgraph 0.3.0"

def usage : Bytes :=
  nameAndVersion ++ [Byte.newline] ++ ([
    "",
    "Usage: appgraph <command> [options] <file>...",
    "",
    "Commands:",
    "  order     Print the packages of the application in build order",
    "  check     Validate imports and literals of each file",
    "",
    "Options:",
    "  --base=<dir>             Directory the files are relative to (default .)",
    "  --config=<file>          Read options from a config file first",
    "  --stdlib-root=<dir>      Root of the standard library (<dir>/src/<path>)",
    "  --allow-shadow=<a,b>     Packages allowed to shadow standard ones",
    "  --workspace=<dir[:dir]>  Workspace roots for external packages",
    "  --exclude=<regex>        Drop external files matching path/file",
    "  --literal-exempt=<p.T,>  Types exempt from the literal tagging check",
    "  --tags=<a,b>             Build tags (default appengine)",
    "  --os=<os>, --arch=<arch> Target of the build constraints",
    "  --log-level=<level>      trace, debug, info, warn, error, off",
    "  --log-filter=<spec>      Per-module levels, e.g. resolve=debug",
    "  -v, -vv, -vvv, -q        Verbosity",
    "  --help, -h               Show this help",
    "  --version, -V            Show version"].flatMap fun line => ascii line ++ [Byte.newline])

/-- What the program says of an error. -/
def errorText (message : Bytes) : Bytes := ascii "appgraph: " ++ message ++ [Byte.newline]

def successCode : Nat := 0

def failureCode : Nat := 1

variable (names : Namer) (config : Config) (t : FileTree)

def isStandard : Bytes → Bool := Stdlib.ofRoot t config.stdlibRoot

def builder : Builder :=
  { tree := t
    options := config.options
    isStandard := isStandard config t
    workspace :=
      if config.hasWorkspace then some (Workspace.ofRoots t config.options.context config.roots)
      else none
    names }

/-- The command `order`. -/
def order (files : List Bytes) (s : Session) : Nat × Session :=
  let attempt := ((builder names config s.tree).build config.baseDir files).run
  let s := s.play attempt.events
  match attempt.value with
  | .error e => (failureCode, s.complain (errorText e.text))
  | .ok app => (successCode, s.print app.listing)

/-- Checks one file, and says whether it is sound. -/
def checkFile (name : Bytes) (s : Session) : Bool × Session :=
  let attempt := (extractFrom (isStandard config s.tree) config.options.exemptions s.tree
    config.baseDir name).run
  let s := s.play attempt.events
  match attempt.value with
  | .error e => (false, s.complain (e.text ++ [Byte.newline]))
  | .ok _ => (true, s.play (Traced.note .info "cli" (name ++ ascii ": ok")).events)

/-- Checks files one after the other, and counts those that are not sound. -/
def checkFiles (s : Session) : List Bytes → Nat × Session
  | [] => (0, s)
  | name :: rest =>
    let (sound, s) := checkFile config name s
    let (failures, s) := checkFiles s rest
    (if sound then failures else failures + 1, s)

/-- The command `check`. -/
def check (files : List Bytes) (s : Session) : Nat × Session :=
  let (failures, s) := checkFiles config s files
  let count := Bytes.decimal files.length
  if 0 < failures then
    (failureCode, s.complain (errorText (Bytes.decimal failures ++ ascii " of " ++ count ++
      ascii " file(s) failed")))
  else (successCode, s.print (count ++ ascii " file(s) ok\n"))

/-- Carries out a command line. -/
def execute (line : CommandLine) (s : Session) : Nat × Session :=
  let start := line.command.name ++ ascii ": " ++ Bytes.decimal line.files.length ++
    ascii " file(s) under " ++ line.config.baseDir
  let s := s.play (Traced.note .debug "cli" start).events
  match line.command with
  | .order => order names line.config line.files s
  | .check => check line.config line.files s

/-- Parses the arguments and carries out what they say. -/
def dispatch (args : List Bytes) (s : Session) : Nat × Session :=
  let attempt := (CommandLine.parse s.tree args).run
  let s := s.play attempt.events
  match attempt.value with
  | .error fault =>
    (failureCode,
      (s.complain (errorText fault.message)).complain
        (ascii "Run 'appgraph --help' for usage.\n"))
  | .ok line => execute names line s

/-- The exit code of a run, and the output once all logs are written. -/
def run (i : Invocation) : Nat × Log.Output :=
  let output : Log.Output := { tree := i.tree }
  let first := i.args.headD (ascii "--help")
  if first = ascii "--help" ∨ first = ascii "-h" then (successCode, output.print usage)
  else if first = ascii "--version" ∨ first = ascii "-V" then
    (successCode, output.print (nameAndVersion ++ [Byte.newline]))
  else
    let settings := Log.LogConfig.ofArguments i.args i.logSettings
    let (logger, output) := Log.Logger.init {} settings i.terminal output
    let (code, s) := dispatch i.names i.args { clock := i.clock, logger, output }
    (code, s.flush.output)

end Program

end BuildOrder
