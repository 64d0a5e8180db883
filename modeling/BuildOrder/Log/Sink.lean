import BuildOrder.FileTree
import BuildOrder.Log.Record

/-!
# Where log records go

A sink writes records to the console, to a file or to several sinks, or keeps them. What is written
to a file waits in a buffer until the buffer is full, a severe record comes or the sink is flushed.

* `Output`: what a program has put out.
* `Sink.write`, `Sink.flush`: the output after a record is written, and after a flush.
-/

namespace BuildOrder.Log

/-- What a program has put out: on its two streams, into files, and to those who keep records. -/
structure Output where
  tree : FileTree
  stdout : Bytes := []
  stderr : Bytes := []
  /-- The records kept, each with the key of the sink that keeps it. -/
  captured : List (Nat × Record) := []
deriving DecidableEq, Repr

def Output.complain (o : Output) (text : Bytes) : Output := { o with stderr := o.stderr ++ text }

def Output.print (o : Output) (text : Bytes) : Output := { o with stdout := o.stdout ++ text }

/-- A file that records are written to. -/
structure FileSink where
  names : List Bytes
  format : Format
  /-- Where the next text goes; at the end of the file if it is only appended to. -/
  offset : Option Nat
  /-- What is not in the file yet. -/
  pending : Bytes := []
deriving DecidableEq, Repr

namespace FileSink

/-- How much text may wait. -/
def bufferSize : Nat := 8191

/-- Opens a file to append to it, or to write it anew. -/
def openFile? (path : Bytes) (append : Bool) (format : Format) (o : Output) :
    Option (FileSink × Output) :=
  match o.tree.locateForWriting path with
  | .error _ => none
  | .ok names =>
    let content := if append then o.tree.contentAt names else []
    some ({ names, format, offset := if append then none else some 0 },
      { o with tree := o.tree.put names content })

/-- Puts a text into the file. -/
def put (s : FileSink) (text : Bytes) (o : Output) : FileSink × Output :=
  ({ s with pending := [], offset := s.offset.map (· + text.length) },
    if text = [] then o else { o with tree := o.tree.writeAt s.names s.offset text })

def flush (s : FileSink) (o : Output) : FileSink × Output := s.put s.pending o

/-- Writes a text. It waits if there is room for it in the buffer. -/
def writeText (s : FileSink) (text : Bytes) (o : Output) : FileSink × Output :=
  if text.length < bufferSize - s.pending.length then
    ({ s with pending := s.pending ++ text }, o)
  else s.put (s.pending ++ text) o

/-- Writes a record. An error is put into the file at once. -/
def write (s : FileSink) (clock : Clock) (r : Record) (o : Output) : FileSink × Output :=
  let (s, o) := s.writeText (r.line s.format clock false) o
  if .error ≤ r.level then s.flush o else (s, o)

end FileSink

inductive Sink where
  | null
  | console (format : Format) (colours : Bool)
  /-- A file, or none if it could not be opened. -/
  | file (sink : Option FileSink)
  /-- Keeps the records under a key. -/
  | capture (key : Nat)
  | all (sinks : List Sink)
deriving Repr

namespace Sink

mutual

def write (clock : Clock) (r : Record) : Sink → Output → Sink × Output
  | null, o => (null, o)
  | console format colours, o => (console format colours, o.complain (r.line format clock colours))
  | file none, o => (file none, o)
  | file (some s), o =>
    let (s, o) := s.write clock r o
    (file (some s), o)
  | capture key, o => (capture key, { o with captured := o.captured ++ [(key, r)] })
  | all sinks, o =>
    let (sinks, o) := writeAll clock r sinks o
    (all sinks, o)

/-- Writes a record to each of the sinks in turn. -/
def writeAll (clock : Clock) (r : Record) : List Sink → Output → List Sink × Output
  | [], o => ([], o)
  | s :: rest, o =>
    let (s, o) := write clock r s o
    let (rest, o) := writeAll clock r rest o
    (s :: rest, o)

end

mutual

def flush : Sink → Output → Sink × Output
  | file (some s), o =>
    let (s, o) := s.flush o
    (file (some s), o)
  | all sinks, o =>
    let (sinks, o) := flushAll sinks o
    (all sinks, o)
  | s, o => (s, o)

/-- Flushes each of the sinks in turn. -/
def flushAll : List Sink → Output → List Sink × Output
  | [], o => ([], o)
  | s :: rest, o =>
    let (s, o) := flush s o
    let (rest, o) := flushAll rest o
    (s :: rest, o)

end

end Sink

end BuildOrder.Log
