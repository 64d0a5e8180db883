import BuildOrder.Bytes

/-!
# Classes of bytes

Patterns name sets of bytes by class (`[:alpha:]`, `\d`), by the names of single bytes
(`[.hyphen.]`), and by the bytes equivalent to one (`[=a=]`). No class has a byte beyond ASCII.

* `byteClass?`: the members of a class.
* `byteNamed?`: the byte of a name.
-/

namespace BuildOrder.Pattern

/-- The bytes that satisfy `p`. -/
def bytesWhere (p : UInt8 → Bool) : List UInt8 :=
  ((List.range 256).map Nat.toUInt8).filter p

/-- All bytes but the given ones. -/
def complement (members : List UInt8) : List UInt8 := bytesWhere (!members.contains ·)

def isGraphic (b : UInt8) : Bool := 0x21 ≤ b && b ≤ 0x7e

def isWordByte (b : UInt8) : Bool := Byte.isAlphanumeric b || b == 0x5f

/-- The classes by their names. -/
def classTable : List (Bytes × (UInt8 → Bool)) :=
  [(ascii "d", Byte.isDigit), (ascii "w", isWordByte), (ascii "s", Byte.isSpace),
    (ascii "alnum", Byte.isAlphanumeric), (ascii "alpha", Byte.isAlpha),
    (ascii "blank", fun b => b == 0x20 || b == 0x09),
    (ascii "cntrl", fun b => b < 0x20 || b == 0x7f), (ascii "digit", Byte.isDigit),
    (ascii "graph", isGraphic), (ascii "lower", Byte.isLower),
    (ascii "print", fun b => b == 0x20 || isGraphic b),
    (ascii "punct", fun b => isGraphic b && !Byte.isAlphanumeric b),
    (ascii "space", Byte.isSpace), (ascii "upper", Byte.isUpper),
    (ascii "xdigit", Byte.isHexDigit)]

/-- The members of a class, whose name is written in letters of either case. -/
def byteClass? (name : Bytes) : Option (List UInt8) :=
  (classTable.lookup (name.map Byte.toLower)).map bytesWhere

/-- The names of the ASCII bytes, in order. -/
def byteNames : List Bytes :=
  ["NUL", "SOH", "STX", "ETX", "EOT", "ENQ", "ACK", "alert", "backspace", "tab", "newline",
    "vertical-tab", "form-feed", "carriage-return", "SO", "SI", "DLE", "DC1", "DC2", "DC3", "DC4",
    "NAK", "SYN", "ETB", "CAN", "EM", "SUB", "ESC", "IS4", "IS3", "IS2", "IS1", "space",
    "exclamation-mark", "quotation-mark", "number-sign", "dollar-sign", "percent-sign",
    "ampersand", "apostrophe", "left-parenthesis", "right-parenthesis", "asterisk", "plus-sign",
    "comma", "hyphen", "period", "slash", "zero", "one", "two", "three", "four", "five", "six",
    "seven", "eight", "nine", "colon", "semicolon", "less-than-sign", "equals-sign",
    "greater-than-sign", "question-mark", "commercial-at", "A", "B", "C", "D", "E", "F", "G", "H",
    "I", "J", "K", "L", "M", "N", "O", "P", "Q", "R", "S", "T", "U", "V", "W", "X", "Y", "Z",
    "left-square-bracket", "backslash", "right-square-bracket", "circumflex", "underscore",
    "grave-accent", "a", "b", "c", "d", "e", "f", "g", "h", "i", "j", "k", "l", "m", "n", "o", "p",
    "q", "r", "s", "t", "u", "v", "w", "x", "y", "z", "left-curly-bracket", "vertical-line",
    "right-curly-bracket", "tilde", "DEL"].map ascii

/-- The byte of a name. -/
def byteNamed? (name : Bytes) : Option UInt8 := (byteNames.idxOf? name).map Nat.toUInt8

/-- The bytes that differ from a byte at most in the case of a letter. -/
def equivalents (b : UInt8) : List UInt8 := bytesWhere (Byte.toLower · == Byte.toLower b)

/-- The place of a byte in the order of signed bytes, in which ranges are written: the bytes beyond
ASCII come first. -/
def signedRank (b : UInt8) : UInt8 := b + 0x80

/-- The bytes between two, if the first does not come after the second. -/
def byteRange? (first last : UInt8) : Option (List UInt8) :=
  if signedRank first ≤ signedRank last then
    some (bytesWhere fun b => signedRank first ≤ signedRank b && signedRank b ≤ signedRank last)
  else none

end BuildOrder.Pattern
