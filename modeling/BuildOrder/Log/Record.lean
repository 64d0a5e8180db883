import BuildOrder.Bytes

/-!
# Log records

* `Level`: how severe a record is; levels are ordered.
* `Level.ofName`: the level of a name, with `info` for any other text.
* `Record.textLine`, `Record.jsonLine`: the two forms of a line in a log.
-/

namespace BuildOrder.Log

inductive Level where
  | trace
  | debug
  | info
  | warn
  | error
  | fatal
  /-- Above all records: a log at this level stays empty. -/
  | off
deriving DecidableEq, Repr

namespace Level

def all : List Level := [trace, debug, info, warn, error, fatal, off]

def rank : Level → Nat
  | trace => 0
  | debug => 1
  | info => 2
  | warn => 3
  | error => 4
  | fatal => 5
  | off => 6

instance : LE Level := ⟨fun a b => a.rank ≤ b.rank⟩

instance : DecidableLE Level := fun a b => inferInstanceAs (Decidable (a.rank ≤ b.rank))

/-- The less severe of two levels. -/
def least (a b : Level) : Level := if b ≤ a then b else a

def name : Level → Bytes
  | trace => ascii "TRACE"
  | debug => ascii "DEBUG"
  | info => ascii "INFO"
  | warn => ascii "WARN"
  | error => ascii "ERROR"
  | fatal => ascii "FATAL"
  | off => ascii "OFF"

/-- The level of a name in capitals or in small letters; `info` for any other text. -/
def ofName (text : Bytes) : Level :=
  (all.find? fun l => text == l.name || text == l.name.map Byte.toLower).getD info

/-- The terminal sequence that starts the colour of a level. -/
def colour : Level → Bytes
  | trace => 0x1b :: ascii "[90m"
  | debug => 0x1b :: ascii "[36m"
  | info => 0x1b :: ascii "[32m"
  | warn => 0x1b :: ascii "[33m"
  | error => 0x1b :: ascii "[31m"
  | fatal => 0x1b :: ascii "[1;31m"
  | off => []

end Level

structure Record where
  level : Level
  /-- The part of the program that speaks. -/
  component : Bytes
  message : Bytes
deriving DecidableEq, Repr

/-- When a record is written: the time of day as a text line shows it, and the milliseconds since
the epoch that a JSON line shows. -/
structure Clock where
  timeOfDay : Bytes
  milliseconds : Int
deriving DecidableEq, Repr

inductive Format where
  | text
  | json
deriving DecidableEq, Repr

namespace Record

/-- `time LEVEL [component] message`, with the level padded to five columns. -/
def textLine (clock : Clock) (colours : Bool) (r : Record) : Bytes :=
  let level := r.level.name ++ List.replicate (5 - r.level.name.length) 0x20
  let level := if colours then r.level.colour ++ level ++ 0x1b :: ascii "[0m" else level
  clock.timeOfDay ++ ascii " " ++ level ++ ascii " [" ++ r.component ++ ascii "] " ++ r.message ++
    [Byte.newline]

/-- A byte of a message as it is written between the quotes of a JSON string. -/
def escapeByte (b : UInt8) : Bytes :=
  if b = Byte.quote ∨ b = Byte.backslash then [Byte.backslash, b]
  else if b = Byte.newline then ascii "\\n"
  else if b = 0x0d then ascii "\\r"
  else if b = 0x09 then ascii "\\t"
  else [b]

/-- A JSON object on one line. Only the message is escaped. -/
def jsonLine (clock : Clock) (r : Record) : Bytes :=
  ascii "\x7b\"ts\":" ++ Bytes.signedDecimal clock.milliseconds ++ ascii ",\"level\":\"" ++ r.level.name ++
    ascii "\",\"module\":\"" ++ r.component ++ ascii "\",\"msg\":\"" ++
    r.message.flatMap escapeByte ++ ascii "\"\x7d\n"

/-- The line of a record in the given format. -/
def line (format : Format) (clock : Clock) (colours : Bool) (r : Record) : Bytes :=
  match format with
  | .text => r.textLine clock colours
  | .json => r.jsonLine clock

end Record

end BuildOrder.Log
