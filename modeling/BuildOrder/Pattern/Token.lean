import BuildOrder.Pattern
import BuildOrder.Pattern.Class

/-!
# The words of a pattern

The text of a pattern is cut into items, operators and brackets. A set in square brackets is one
word, and so is a repetition with the question mark that makes it lazy.

* `Pattern.Word`: the words.
* `Pattern.words?`: the words of a text, if it is made up of words.
-/

namespace BuildOrder.Pattern

inductive Word where
  /-- A pattern that may be repeated. -/
  | item (p : Pattern)
  /-- A condition on a place. -/
  | place (b : Boundary)
  | reference (number : Nat)
  | repetition (times : Times) (greedy : Bool)
  | bar
  | openCapture
  | openPlain
  | openLook (positive : Bool)
  | close
deriving DecidableEq, Repr

/-! ### Escapes -/

/-- What a backslash and the bytes after it stand for. -/
inductive EscapeWord where
  | byte (b : UInt8)
  | members (bytes : List UInt8)
  | boundary (b : Boundary)
  | reference (number : Nat)
deriving DecidableEq, Repr

/-- The greatest count or number that a pattern may hold. -/
def maxNumber : Nat := 2147483647

/-- The value of a run of digits, if it is not too great. -/
def number? (digits : Bytes) : Option Nat :=
  let value := Bytes.valueIn 10 digits
  if value ≤ maxNumber then some value else none

/-- The byte that a letter after a backslash stands for. -/
def controlByte? (b : UInt8) : Option UInt8 :=
  if b = 0x30 then some 0x00
  else if b = 0x62 then some 0x08
  else if b = 0x66 then some 0x0c
  else if b = 0x6e then some 0x0a
  else if b = 0x72 then some 0x0d
  else if b = 0x74 then some 0x09
  else if b = 0x76 then some 0x0b
  else none

/-- The byte that hexadecimal digits stand for: their low eight bits. -/
def hexByte? (count : Nat) (s : Bytes) : Option (EscapeWord × Nat) :=
  let digits := (s.take count).takeWhile Byte.isHexDigit
  if digits.length = count then some (.byte (Bytes.valueIn 16 digits).toUInt8, count) else none

/-- What the byte `b` after a backslash stands for, and how many of the bytes in `s` after it belong
to the escape. In a set, `\b` is a backspace and no word boundary. -/
def escape? (inSet : Bool) (b : UInt8) (s : Bytes) : Option (EscapeWord × Nat) :=
  if b = 0x62 ∧ !inSet then some (.boundary .word, 0)
  else
    match controlByte? b with
    | some value => some (.byte value, 0)
    | none =>
      if b = 0x42 then some (.boundary .notWord, 0)
      else if b = 0x63 then s.head?.map fun letter => (.byte letter, 1)
      else if b = 0x78 then hexByte? 2 s
      else if b = 0x75 then hexByte? 4 s
      else if Byte.isDigit b then
        let more := s.takeWhile Byte.isDigit
        (number? (b :: more)).map fun n => (.reference n, more.length)
      else if Byte.toLower b ∈ ascii "dsw" then
        (byteClass? [b]).map fun members =>
          (.members (if Byte.isUpper b then complement members else members), 0)
      else some (.byte b, 0)

/-! ### Sets -/

/-- One entry of a set. -/
inductive SetEntry where
  | byte (b : UInt8)
  /-- A byte given by its name, which cannot end a range. -/
  | named (b : UInt8)
  | members (bytes : List UInt8)
  | dash
deriving DecidableEq, Repr

/-- The entry of the form `[:name:]`, `[.name.]` or `[=name=]`, after its opening bracket and the
`mark`, and the number of bytes it takes. -/
def namedItem? (mark : UInt8) (s : Bytes) : Option (SetEntry × Nat) :=
  let name := s.takeWhile (· != mark)
  match s.drop name.length with
  | _ :: 0x5d :: _ =>
    let entry :=
      if mark = 0x3a then (byteClass? name).map .members
      else if mark = Byte.dot then (byteNamed? name).map .named
      else (byteNamed? name).map fun b => .members (equivalents b)
    entry.map (·, name.length + 2)
  | _ => none

/-- The entry that starts with the byte `b`, and how many of the bytes in `s` after it belong to
it. -/
def setItem? (b : UInt8) (s : Bytes) : Option (SetEntry × Nat) :=
  if b = 0x2d then some (.dash, 0)
  else if b = Byte.backslash then
    match s with
    | [] => none
    | letter :: rest =>
      match escape? true letter rest with
      | some (.byte value, width) => some (.byte value, width + 1)
      | some (.members bytes, width) => some (.members bytes, width + 1)
      | _ => none
  else if b = 0x5b then
    match s with
    | [] => none
    | mark :: rest =>
      if mark = 0x3a ∨ mark = Byte.dot ∨ mark = 0x3d then
        (namedItem? mark rest).map fun (entry, width) => (entry, width + 1)
      else some (.byte b, 0)
  else some (.byte b, 0)

/-- The entries up to the closing bracket, and the number of bytes they take with it. -/
def setEntries? : Bytes → Option (List SetEntry × Nat)
  | [] => none
  | b :: s =>
    if b = 0x5d then some ([], 1)
    else
      match setItem? b s with
      | none => none
      | some (entry, width) =>
        (setEntries? (s.drop width)).map fun (entries, more) => (entry :: entries, 1 + width + more)
termination_by s => s.length
decreasing_by
  simp only [List.length_drop, List.length_cons]
  omega

/-- What came before in a set: a byte that may start a range, a class, or nothing that a dash
could follow as one. -/
inductive SetState where
  | nothing
  | byte (b : UInt8)
  | members
deriving DecidableEq, Repr

/-- The members of a set. A dash stands for itself at both ends of the set and after a range; it
makes a range between two bytes. -/
def setMembers? (state : SetState) : List SetEntry → Option (List UInt8)
  | [] => some []
  | .byte b :: rest => (setMembers? (.byte b) rest).map (b :: ·)
  | .named b :: rest => (setMembers? (.byte b) rest).map (b :: ·)
  | .members bytes :: rest => (setMembers? .members rest).map (bytes ++ ·)
  | [.dash] => some [0x2d]
  | .dash :: next :: rest =>
    match state, next with
    | .members, _ => none
    | .nothing, _ => (setMembers? (.byte 0x2d) (next :: rest)).map (0x2d :: ·)
    | .byte first, .byte last => do
      return (← byteRange? first last) ++ (← setMembers? .nothing rest)
    | .byte first, .dash => do
      return (← byteRange? first 0x2d) ++ (← setMembers? .nothing rest)
    | .byte _, _ => none

/-- The set after an opening bracket, and the number of bytes it takes. -/
def set? (s : Bytes) : Option (Pattern × Nat) := do
  let negated := s.head? = some 0x5e
  let body := if negated then s.tail else s
  let (entries, width) ← setEntries? body
  let members ← setMembers? .nothing entries
  return (.oneOf (if negated then complement members else members),
    if negated then width + 1 else width)

/-! ### Repetitions -/

/-- The interval after an opening brace, and the number of bytes it takes. -/
def interval? (s : Bytes) : Option (Times × Nat) :=
  let low := s.takeWhile Byte.isDigit
  match s.drop low.length with
  | 0x7d :: _ => do
    guard (low ≠ [])
    let least ← number? low
    return (.interval least (some least), low.length + 1)
  | 0x2c :: rest => do
    guard (low ≠ [])
    let least ← number? low
    let high := rest.takeWhile Byte.isDigit
    guard ((rest.drop high.length).head? = some 0x7d)
    if high = [] then return (.interval least none, low.length + 2)
    let most ← number? high
    guard (least ≤ most)
    return (.interval least (some most), low.length + high.length + 2)
  | _ => none

/-- The repetition that ends `width` bytes into `s`, and the number of bytes it takes with the
question mark that makes it lazy. -/
def repetition (times : Times) (width : Nat) (s : Bytes) : Word × Nat :=
  if (s.drop width).head? = some 0x3f then (.repetition times false, width + 1)
  else (.repetition times true, width)

/-! ### Words -/

/-- The group after an opening parenthesis, and the number of bytes that say what it is. -/
def opening? : Bytes → Option (Word × Nat)
  | 0x3f :: 0x3a :: _ => some (.openPlain, 2)
  | 0x3f :: 0x3d :: _ => some (.openLook true, 2)
  | 0x3f :: 0x21 :: _ => some (.openLook false, 2)
  | 0x3f :: _ => none
  | _ => some (.openCapture, 0)

/-- Any byte but the ends of lines. -/
def anyByte : List UInt8 := bytesWhere fun b => b != Byte.newline && b != 0x0d

/-- The word that starts with the byte `b`, and how many of the bytes in `s` after it belong to
it. -/
def word? (b : UInt8) (s : Bytes) : Option (Word × Nat) :=
  if b = Byte.backslash then
    match s with
    | [] => none
    | letter :: rest =>
      (escape? false letter rest).map fun (escape, width) =>
        match escape with
        | .byte value => (.item (.oneOf [value]), width + 1)
        | .members bytes => (.item (.oneOf bytes), width + 1)
        | .boundary place => (.place place, width + 1)
        | .reference n => (.reference n, width + 1)
  else if b = 0x28 then opening? s
  else if b = 0x29 then some (.close, 0)
  else if b = 0x5b then (set? s).map fun (p, width) => (.item p, width)
  else if b = 0x7b then (interval? s).map fun (times, width) => repetition times width s
  else if b = 0x2a then some (repetition .star 0 s)
  else if b = 0x2b then some (repetition .plus 0 s)
  else if b = 0x3f then some (repetition .optional 0 s)
  else if b = 0x5e then some (.place .start, 0)
  else if b = 0x24 then some (.place .stop, 0)
  else if b = 0x7c then some (.bar, 0)
  else if b = Byte.dot then some (.item (.oneOf anyByte), 0)
  else some (.item (.oneOf [b]), 0)

/-- The words of a text. -/
def words? : Bytes → Option (List Word)
  | [] => some []
  | b :: s =>
    match word? b s with
    | none => none
    | some (word, width) => (words? (s.drop width)).map (word :: ·)
termination_by s => s.length
decreasing_by
  simp only [List.length_drop, List.length_cons]
  omega

end BuildOrder.Pattern
