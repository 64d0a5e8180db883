import BuildOrder.Token

/-!
# Literals in source text

Each reader here takes the text from the first byte of a literal on and says how many bytes the
literal takes.

* `scanNumber`: integer, float and imaginary literals.
* `Escape.read`: the bytes that an escape sequence stands for.
* `scanQuoted`: the text between two quotes, for strings and runes alike.
-/

namespace BuildOrder

/-- The literal or word recognised at the front of a text. -/
structure Lexeme where
  kind : TokenKind
  /-- How many bytes it takes. An escape that the end of the text cuts off counts the byte that
  is missing. -/
  width : Nat
  value : Bytes := []
  width_pos : 0 < width := by omega

/-- The length of the longest run of bytes at the front that satisfy `p`. -/
def runLength (p : UInt8 → Bool) (s : Bytes) : Nat := (s.takeWhile p).length

/-! ### Numbers -/

/-- The bytes of an exponent's sign: one or none. -/
def signWidth : Bytes → Nat
  | b :: _ => if b = 0x2b ∨ b = 0x2d then 1 else 0
  | [] => 0

def isDigitOrUnderscore (b : UInt8) : Bool := Byte.isDigit b || b == 0x5f

/-- What follows `0x`: digits and points, then a binary exponent that may lack its digits. -/
def hexNumber (s : Bytes) : TokenKind × Nat :=
  let body := s.takeWhile fun b => Byte.isHexDigit b || b == 0x5f || b == Byte.dot
  match s.drop body.length with
  | b :: rest =>
    if b = 0x70 ∨ b = 0x50 then
      let sign := signWidth rest
      (.float, body.length + 1 + sign + runLength Byte.isDigit (rest.drop sign))
    else (if Byte.dot ∈ body then .float else .int, body.length)
  | [] => (if Byte.dot ∈ body then .float else .int, body.length)

/-- The digits of a decimal number, with a point and more digits if they are there. -/
def decimalBody (s : Bytes) : TokenKind × Nat :=
  let whole := runLength isDigitOrUnderscore s
  match s.drop whole with
  | b :: rest =>
    if b = Byte.dot then (.float, whole + 1 + runLength isDigitOrUnderscore rest)
    else (.int, whole)
  | [] => (.int, whole)

/-- A decimal number. An exponent needs a digit. -/
def decimalNumber (s : Bytes) : TokenKind × Nat :=
  let (kind, width) := decimalBody s
  match s.drop width with
  | b :: rest =>
    if b = 0x65 ∨ b = 0x45 then
      let sign := signWidth rest
      let digits := runLength Byte.isDigit (rest.drop sign)
      (if digits = 0 then .invalid .noExponentDigits else .float, width + 1 + sign + digits)
    else (kind, width)
  | [] => (kind, width)

/-- A number without the `i` that makes it imaginary. -/
def realNumber (s : Bytes) : TokenKind × Nat :=
  match s with
  | 0x30 :: b :: rest =>
    if b = 0x78 ∨ b = 0x58 then
      let (kind, width) := hexNumber rest
      (kind, 2 + width)
    else if b = 0x62 ∨ b = 0x42 ∨ b = 0x6f ∨ b = 0x4f then
      (.int, 2 + runLength isDigitOrUnderscore rest)
    else decimalNumber s
  | _ => decimalNumber s

/-- The number at the front of a text that starts with a digit, or with a point before a digit. -/
def scanNumber (s : Bytes) : TokenKind × Nat :=
  match realNumber s with
  | (.invalid fault, width) => (.invalid fault, width)
  | (kind, width) =>
    if (s.drop width).head? = some 0x69 then (.imaginary, width + 1) else (kind, width)

theorem decimalNumber_pos {b : UInt8} (s : Bytes) (h : Byte.isDigit b ∨ b = Byte.dot) :
    0 < (decimalNumber (b :: s)).2 := by
  have body : 0 < (decimalBody (b :: s)).2 := by
    rcases h with h | rfl
    · have run : 0 < runLength isDigitOrUnderscore (b :: s) := by
        simp [runLength, isDigitOrUnderscore, h]
      unfold decimalBody
      dsimp only
      split
      · split <;> omega
      · exact run
    · have none : runLength isDigitOrUnderscore (Byte.dot :: s) = 0 := by
        simp [runLength, isDigitOrUnderscore, Byte.isDigit, Byte.dot]
      simp only [decimalBody, none, List.drop_zero, if_true]
      omega
  unfold decimalNumber
  dsimp only
  split
  · split <;> simp only <;> omega
  · exact body

/-- A number takes at least its first byte. -/
theorem scanNumber_pos {b : UInt8} (s : Bytes) (h : Byte.isDigit b ∨ b = Byte.dot) :
    0 < (scanNumber (b :: s)).2 := by
  have real : 0 < (realNumber (b :: s)).2 := by
    have := decimalNumber_pos s h
    unfold realNumber
    split
    · split
      · simp only; omega
      · split
        · simp only; omega
        · exact this
    · exact this
  unfold scanNumber
  split
  · simp_all
  · split
    · simp
    · simp_all

/-! ### Strings and runes -/

/-- What a reader of escape sequences found after a backslash, and how many bytes it read. -/
inductive Escape where
  | text (bytes : Bytes) (width : Nat)
  | unknown (width : Nat)
deriving DecidableEq, Repr

namespace Escape

/-- The byte that a letter after a backslash stands for. -/
def letter? (b : UInt8) : Option UInt8 :=
  if b = 0x61 then some 0x07
  else if b = 0x62 then some 0x08
  else if b = 0x66 then some 0x0c
  else if b = 0x6e then some 0x0a
  else if b = 0x72 then some 0x0d
  else if b = 0x74 then some 0x09
  else if b = 0x76 then some 0x0b
  else if b = Byte.backslash then some Byte.backslash
  else none

/-- The number of digits after the letter of a hexadecimal escape. -/
def hexDigits? (b : UInt8) : Option Nat :=
  if b = 0x78 then some 2
  else if b = 0x75 then some 4
  else if b = 0x55 then some 8
  else none

/-- The escape that starts with the letter `b` and has `count` hexadecimal digits in `s`. -/
def hex (b : UInt8) (count : Nat) (s : Bytes) : Escape :=
  let digits := (s.take count).takeWhile Byte.isHexDigit
  if digits.length < count then .unknown (1 + digits.length)
  else
    let value := Bytes.valueIn 16 digits
    if b = 0x78 then .text [value.toUInt8] (1 + count)
    else if value.isValidChar then .text (Bytes.utf8 (Char.ofNat value)) (1 + count)
    else .unknown (1 + count)

/-- The escape of three octal digits, of which `b` is the first. -/
def octal (b : UInt8) (s : Bytes) : Escape :=
  let digits := (s.take 2).takeWhile Byte.isOctalDigit
  if digits.length < 2 then .unknown (1 + digits.length)
  else
    let value := Bytes.valueIn 8 (b :: digits)
    if value < 256 then .text [value.toUInt8] 3 else .unknown 3

/-- Reads the escape sequence that `s` starts with, after its backslash, in a literal between
`quote`s. -/
def read (quote : UInt8) : Bytes → Escape
  | [] => .unknown 1
  | b :: s =>
    match letter? b, hexDigits? b with
    | some value, _ => .text [value] 1
    | none, some count => hex b count s
    | none, none =>
      if Byte.isOctalDigit b then octal b s
      else if b = quote then .text [b] 1
      else .unknown 1

end Escape

/-- One item of a literal between quotes. -/
inductive Piece where
  | plain (byte : UInt8)
  | escape (bytes : Bytes)
deriving DecidableEq, Repr

namespace Piece

/-- The bytes that the item stands for. -/
def bytes : Piece → Bytes
  | plain b => [b]
  | escape bs => bs

/-- The item starts a character: it is not a later byte of a UTF-8 sequence. -/
def startsCharacter : Piece → Bool
  | plain b => b &&& 0xc0 != 0x80
  | escape _ => true

end Piece

/-- How a literal between quotes ends. -/
inductive QuotedEnd where
  | closed
  | cutOff
  | badEscape
deriving DecidableEq, Repr

/-- A literal between quotes, without its opening quote. -/
structure Quoted where
  pieces : List Piece
  width : Nat
  ending : QuotedEnd
deriving DecidableEq, Repr

def Quoted.cons (piece : Piece) (width : Nat) (q : Quoted) : Quoted :=
  { q with pieces := piece :: q.pieces, width := width + q.width }

/-- Reads up to the closing quote, or to the newline or the end of the text that cuts the literal
off, or through the first escape that has no meaning. -/
def scanQuoted (quote : UInt8) : Bytes → Quoted
  | [] => ⟨[], 0, .cutOff⟩
  | b :: s =>
    if b = Byte.newline then ⟨[], 0, .cutOff⟩
    else if b = quote then ⟨[], 1, .closed⟩
    else if b = Byte.backslash then
      match Escape.read quote s with
      | .unknown width => ⟨[], 1 + width, .badEscape⟩
      | .text bytes width => (scanQuoted quote (s.drop width)).cons (.escape bytes) (1 + width)
    else (scanQuoted quote s).cons (.plain b) 1
termination_by s => s.length
decreasing_by
  · simp only [List.length_drop, List.length_cons]
    omega
  · simp

/-- The string literal after an opening double quote. -/
def scanString (s : Bytes) : Lexeme :=
  let q := scanQuoted Byte.quote s
  match q.ending with
  | .closed => { kind := .string, width := 1 + q.width, value := q.pieces.flatMap Piece.bytes }
  | .cutOff => { kind := .invalid .openString, width := 1 + q.width }
  | .badEscape => { kind := .invalid .badEscape, width := 1 + q.width }

/-- The rune literal after an opening apostrophe: exactly one character. -/
def scanRune (s : Bytes) : Lexeme :=
  let q := scanQuoted Byte.apostrophe s
  match q.ending with
  | .closed =>
    { kind := if q.pieces.countP Piece.startsCharacter = 1 then .rune else .invalid .badRune
      width := 1 + q.width }
  | .cutOff => { kind := .invalid .openRune, width := 1 + q.width }
  | .badEscape => { kind := .invalid .badEscape, width := 1 + q.width }

/-- The raw string literal after an opening back quote. Carriage returns in it do not count. -/
def scanRawString (s : Bytes) : Lexeme :=
  let body := s.takeWhile (· != Byte.backquote)
  if body.length < s.length then
    { kind := .string, width := 2 + body.length, value := body.filter (· != 0x0d) }
  else { kind := .invalid .openRawString, width := 1 + body.length }

end BuildOrder
