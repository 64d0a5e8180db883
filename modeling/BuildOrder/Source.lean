import BuildOrder.Bytes

/-!
# Source text and places in it

A place is given by the line, the column and the offset of a byte, each a 32-bit number, as a
diagnostic shows it.

* `Source.location`: the place of an offset; lines and columns count from one.
* `Source.line`: the text of a line without its terminator.
-/

namespace BuildOrder

/-- A named text. -/
structure Source where
  filename : Bytes
  content : Bytes
deriving DecidableEq, Repr

/-- A place in a file. A line number of zero stands for the file as a whole. -/
structure Location where
  file : Bytes
  line : UInt32 := 0
  column : UInt32 := 0
  offset : UInt32 := 0
deriving DecidableEq, Repr

/-- The place as a diagnostic shows it: `file:line:column`, or the file alone. -/
def Location.text (l : Location) : Bytes :=
  if l.line = 0 then l.file
  else l.file ++ ascii ":" ++ Bytes.decimal l.line.toNat ++ ascii ":" ++
    Bytes.decimal l.column.toNat

namespace Source

variable (s : Source)

def length : Nat := s.content.length

/-- The byte at an offset; zero past the end. -/
def byteAt (offset : Nat) : UInt8 := s.content.getD offset 0

/-- The bytes from `start` up to `stop`, cut at the end of the text. A `stop` before `start`
takes everything from `start` on. -/
def slice (start stop : Nat) : Bytes :=
  if stop < start then s.content.drop start
  else (s.content.drop start).take (stop - start)

/-- The offsets at which lines start, when the first of `content` stands at `pos` and a line
starts there. -/
def startsFrom (pos : Nat) : Bytes → List Nat
  | [] => []
  | b :: rest =>
    if b = Byte.newline then (pos + 1) :: startsFrom (pos + 1) rest
    else startsFrom (pos + 1) rest

/-- The offsets at which lines start: zero, and the offset after each newline. -/
def lineStarts : List Nat := 0 :: startsFrom 0 s.content

def lineCount : UInt32 := s.lineStarts.length.toUInt32

/-- The place of an offset: its line is the last one that starts at or before it. -/
def location (offset : Nat) : Location :=
  let before := s.lineStarts.takeWhile (· ≤ offset)
  { file := s.filename
    line := (before.length - 1).toUInt32 + 1
    column := (offset - before.getLastD 0).toUInt32 + 1
    offset := offset.toUInt32 }

/-- The text of a line, counted from one, without its newline and without a carriage return
before that. The last line, which no newline ends, keeps its carriage return. -/
def line (number : Nat) : Bytes :=
  match number with
  | 0 => []
  | index + 1 =>
    match s.lineStarts[index]?, s.lineStarts[index + 1]? with
    | some start, some next =>
      let text := s.slice start (next - 1)
      if text.getLast? = some 0x0d then text.dropLast else text
    | some start, none => s.content.drop start
    | none, _ => []

end Source

end BuildOrder
