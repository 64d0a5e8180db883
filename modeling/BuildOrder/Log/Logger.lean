import BuildOrder.Log.Filter
import BuildOrder.Log.Sink

/-!
# The logger

A logger passes the records that its level and its filter accept to its sinks. The level is a first
test that spares the look into the filter.

* `Logger.init`: the logger of a configuration, made from the one before it.
* `Logger.accepts`, `Logger.emit`: which records are passed on.
-/

namespace BuildOrder.Log

structure LogConfig where
  level : Level := .warn
  format : Format := .text
  /-- The text of the filter. -/
  filter : Bytes := []
  /-- The path of the log file; none if empty. -/
  file : Bytes := []
  console : Bool := true
  colours : Bool := true
deriving DecidableEq, Repr

structure Logger where
  level : Level := .warn
  filter : Filter := { default := .warn }
  sinks : List Sink := []
deriving Repr

namespace Logger

variable (l : Logger)

def accepts (level : Level) (component : Bytes) : Bool :=
  decide (l.level ≤ level) && l.filter.accepts level component

/-- Passes a record to all sinks. -/
def write (clock : Clock) (r : Record) (o : Output) : Logger × Output :=
  let (sinks, o) := Sink.writeAll clock r l.sinks o
  ({ l with sinks }, o)

/-- Passes a record to all sinks if it is accepted. -/
def emit (clock : Clock) (r : Record) (o : Output) : Logger × Output :=
  if l.accepts r.level r.component then l.write clock r o else (l, o)

def flush (o : Output) : Logger × Output :=
  let (sinks, o) := Sink.flushAll l.sinks o
  ({ l with sinks }, o)

def addSink (s : Sink) : Logger := { l with sinks := l.sinks ++ [s] }

/-- Closes all sinks. -/
def clearSinks (o : Output) : Logger × Output :=
  let (l, o) := l.flush o
  ({ l with sinks := [] }, o)

def setLevel (level : Level) : Logger :=
  { l with level, filter := { l.filter with default := level } }

def setFilter (text : Bytes) : Logger := { l with filter := l.filter.parse text }

/-- The level and filter of a configuration. Without a filter text the levels of single components
stay as they were. -/
def configure (c : LogConfig) : Logger :=
  if c.filter = [] then { l with level := c.level, filter := { l.filter with default := c.level } }
  else
    let filter := l.filter.parse c.filter
    let filter := if filter.default ≤ c.level then filter else { filter with default := c.level }
    { l with level := filter.leastLevel, filter }

/-- The log file of a configuration, if it names one that can be opened, and the output then. -/
def openLogFile (c : LogConfig) (o : Output) : List Sink × Output :=
  if c.file = [] then ([], o)
  else
    match FileSink.openFile? c.file true c.format o with
    | some (s, o) => ([.file (some s)], o)
    | none =>
      ([], o.complain (ascii "warning: could not open log file: " ++ c.file ++ [Byte.newline]))

/-- The logger of a configuration. The console has colours only on a terminal. -/
def init (c : LogConfig) (terminal : Bool) (o : Output) : Logger × Output :=
  let (l, o) := l.clearSinks o
  let console : List Sink := if c.console then [.console c.format (c.colours && terminal)] else []
  let (file, o) := openLogFile c o
  ({ l.configure c with sinks := console ++ file }, o)

end Logger

end BuildOrder.Log
