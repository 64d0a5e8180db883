import BuildOrder.Bytes

/-!
# Tokens

The words of a source file: names, literals, keywords, brackets and operators, and the statement
terminators that newlines stand for.

* `TokenKind.describe`: how a message names a kind of token.
* `Token.endsStatement`: after which tokens a newline ends the statement.
-/

namespace BuildOrder

/-- The three pairs of brackets. -/
inductive Bracket where
  | paren
  | square
  | brace
deriving DecidableEq, Repr

inductive Keyword where
  | breakKw | caseKw | chanKw | constKw | continueKw | defaultKw | deferKw | elseKw
  | fallthroughKw | forKw | funcKw | goKw | gotoKw | ifKw | importKw | interfaceKw | mapKw
  | packageKw | rangeKw | returnKw | selectKw | structKw | switchKw | typeKw | varKw
deriving DecidableEq, Repr

namespace Keyword

def all : List Keyword :=
  [breakKw, caseKw, chanKw, constKw, continueKw, defaultKw, deferKw, elseKw, fallthroughKw, forKw,
    funcKw, goKw, gotoKw, ifKw, importKw, interfaceKw, mapKw, packageKw, rangeKw, returnKw,
    selectKw, structKw, switchKw, typeKw, varKw]

def spelling : Keyword → Bytes
  | breakKw => ascii "break"
  | caseKw => ascii "case"
  | chanKw => ascii "chan"
  | constKw => ascii "const"
  | continueKw => ascii "continue"
  | defaultKw => ascii "default"
  | deferKw => ascii "defer"
  | elseKw => ascii "else"
  | fallthroughKw => ascii "fallthrough"
  | forKw => ascii "for"
  | funcKw => ascii "func"
  | goKw => ascii "go"
  | gotoKw => ascii "goto"
  | ifKw => ascii "if"
  | importKw => ascii "import"
  | interfaceKw => ascii "interface"
  | mapKw => ascii "map"
  | packageKw => ascii "package"
  | rangeKw => ascii "range"
  | returnKw => ascii "return"
  | selectKw => ascii "select"
  | structKw => ascii "struct"
  | switchKw => ascii "switch"
  | typeKw => ascii "type"
  | varKw => ascii "var"

def ofSpelling? (word : Bytes) : Option Keyword := all.find? (·.spelling == word)

end Keyword

/-- What is wrong with the text of a token or comment. -/
inductive LexFault where
  | openComment
  | openString
  | openRawString
  | openRune
  | badRune
  | badEscape
  | noExponentDigits
  | strayByte (byte : UInt8)
deriving DecidableEq, Repr

def LexFault.message : LexFault → Bytes
  | openComment => ascii "comment not terminated"
  | openString => ascii "string literal not terminated"
  | openRawString => ascii "raw string literal not terminated"
  | openRune => ascii "rune literal not terminated"
  | badRune => ascii "illegal rune literal"
  | badEscape => ascii "unknown escape sequence"
  | noExponentDigits => ascii "exponent has no digits"
  | strayByte b => ascii "invalid character '" ++ [b] ++ ascii "'"

inductive TokenKind where
  | eof
  | identifier
  | int
  | float
  | imaginary
  | rune
  | string
  | keyword (k : Keyword)
  | opening (b : Bracket)
  | closing (b : Bracket)
  | comma
  | period
  | semicolon
  | colon
  | operator
  | invalid (fault : LexFault)
deriving DecidableEq, Repr

/-- The kind of a word: a keyword, or a name. -/
def TokenKind.ofWord (word : Bytes) : TokenKind :=
  match Keyword.ofSpelling? word with
  | some k => .keyword k
  | none => .identifier

/-- How a message names a kind of token. -/
def TokenKind.describe : TokenKind → Bytes
  | eof => ascii "end of file"
  | identifier => ascii "identifier"
  | int | float | imaginary => ascii "number"
  | rune => ascii "rune literal"
  | string => ascii "string literal"
  | keyword _ => ascii "keyword"
  | opening .paren => ascii "'('"
  | closing .paren => ascii "')'"
  | opening .square => ascii "'['"
  | closing .square => ascii "']'"
  | opening .brace => ascii "'\x7b'"
  | closing .brace => ascii "'\x7d'"
  | comma => ascii "','"
  | period => ascii "'.'"
  | semicolon => ascii "';'"
  | colon => ascii "':'"
  | operator => ascii "operator"
  | invalid _ => ascii "invalid token"

/-- A word of the source. `value` is the text that a string literal denotes, and empty for any
other kind. -/
structure Token where
  kind : TokenKind
  lexeme : Bytes
  offset : Nat
  value : Bytes := []
  /-- A newline stands here for the terminator of a statement. -/
  inserted : Bool := false
deriving DecidableEq, Repr

namespace Token

/-- The terminator that a newline, or the end of the text, stands for. -/
def terminator (offset : Nat) : Token :=
  { kind := .semicolon, lexeme := [Byte.newline], offset, inserted := true }

def endOfFile (offset : Nat) : Token := { kind := .eof, lexeme := [], offset }

/-- A newline after this token ends the statement. -/
def endsStatement (t : Token) : Bool :=
  match t.kind with
  | .identifier | .int | .float | .imaginary | .rune | .string => true
  | .keyword .breakKw | .keyword .continueKw | .keyword .fallthroughKw
  | .keyword .returnKw => true
  | .closing _ => true
  | .operator => t.lexeme == ascii "++" || t.lexeme == ascii "--"
  | _ => false

/-- How a message names the token it did not expect. -/
def describe (t : Token) : Bytes :=
  match t.kind with
  | .semicolon => if t.inserted then ascii "newline" else t.kind.describe
  | .identifier | .operator | .keyword _ =>
    t.kind.describe ++ ascii " '" ++ t.lexeme ++ ascii "'"
  | _ => t.kind.describe

end Token

end BuildOrder
