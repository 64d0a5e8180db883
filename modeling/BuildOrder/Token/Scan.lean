import BuildOrder.Source
import BuildOrder.Token.Literal

/-!
# From source text to tokens

The text is a sequence of gaps and tokens. A gap is white space and comments. Where a gap holds a
newline, or the text ends, after a token that ends a statement, a terminator is inserted.

* `Gap.skip`: the gap at the front of a text.
* `scanToken`: the token at the front of a text, which takes at least one byte.
* `tokenize`: all tokens of a text, the last of them and no other the end of the file, and what is
  wrong with the text, in order.
-/

namespace BuildOrder

/-! ### Gaps -/

/-- The part of a text after a block comment. -/
structure BlockComment where
  rest : Bytes
  pos : Nat
  spansLines : Bool
  closed : Bool
deriving DecidableEq, Repr

/-- Skips the rest of a block comment, after its opening. -/
def BlockComment.skip (pos : Nat) (spansLines : Bool) : Bytes → BlockComment
  | [] => ⟨[], pos, spansLines, false⟩
  | b :: s =>
    if b = 0x2a ∧ s.head? = some Byte.slash then ⟨s.tail, pos + 2, spansLines, true⟩
    else skip (pos + 1) (spansLines || b = Byte.newline) s

theorem BlockComment.skip_length (pos : Nat) (spansLines : Bool) (s : Bytes) :
    (BlockComment.skip pos spansLines s).rest.length ≤ s.length := by
  induction s generalizing pos spansLines with
  | nil => simp [skip]
  | cons b s ih =>
    rw [skip]
    split
    · simp only [List.length_tail, List.length_cons]
      omega
    · have := ih (pos + 1) (spansLines || b = Byte.newline)
      simp only [List.length_cons]
      omega

/-- White space and comments before a token. -/
structure Gap where
  rest : Bytes
  pos : Nat
  /-- Where a statement that ends before the gap is terminated: at the first newline, or after
  the comment that holds it. -/
  lineBreak : Option Nat := none
  /-- Where a comment starts that nothing ends. -/
  openComment : Option Nat := none
deriving DecidableEq, Repr

/-- Skips the gap at the front of a text that stands at `pos`. -/
def Gap.skip (pos : Nat) : Bytes → Gap
  | [] => ⟨[], pos, none, none⟩
  | b :: s =>
    if b = Byte.newline then { Gap.skip (pos + 1) s with lineBreak := some pos }
    else if b = 0x20 ∨ b = 0x09 ∨ b = 0x0d then Gap.skip (pos + 1) s
    else if b = Byte.slash ∧ s.head? = some Byte.slash then
      let width := runLength (· != Byte.newline) s
      Gap.skip (pos + 1 + width) (s.drop width)
    else if b = Byte.slash ∧ s.head? = some 0x2a then
      let comment := BlockComment.skip (pos + 2) false s.tail
      let gap := Gap.skip comment.pos comment.rest
      { gap with
        lineBreak := if comment.spansLines then some comment.pos else gap.lineBreak
        openComment := if comment.closed then gap.openComment else some pos }
    else ⟨b :: s, pos, none, none⟩
termination_by s => s.length
decreasing_by
  · simp
  · simp
  · simp only [List.length_drop, List.length_cons]
    omega
  · have := BlockComment.skip_length (pos + 2) false s.tail
    simp only [List.length_tail, List.length_cons] at *
    omega

theorem Gap.skip_length (pos : Nat) (s : Bytes) : (Gap.skip pos s).rest.length ≤ s.length := by
  fun_induction Gap.skip pos s with
  | case1 => simp
  | case2 _ _ _ ih => exact Nat.le_succ_of_le ih
  | case3 _ _ _ _ _ ih => exact Nat.le_succ_of_le ih
  | case4 _ _ _ _ _ _ _ ih =>
    simp only [List.length_drop, List.length_cons] at *
    omega
  | case5 pos b s _ _ _ _ comment gap ih =>
    have := BlockComment.skip_length (pos + 2) false s.tail
    show (Gap.skip comment.pos comment.rest).rest.length ≤ (b :: s).length
    simp only [comment, List.length_tail, List.length_cons] at *
    omega
  | case6 => simp

/-! ### Tokens -/

/-- A byte that a word may start with: a letter, an underscore, or any byte beyond ASCII. -/
def isWordStart (b : UInt8) : Bool := Byte.isAlpha b || b == 0x5f || 0x80 ≤ b

def isWordByte (b : UInt8) : Bool := isWordStart b || Byte.isDigit b

/-- The operators of several bytes, longer ones before their beginnings. -/
def longOperators : List Bytes :=
  ["<<=", ">>=", "&^=", "...", "&&", "||", "<-", "++", "--", "==", "!=", "<=", ">=", ":=", "+=",
    "-=", "*=", "/=", "%=", "&=", "|=", "^=", "<<", ">>", "&^"].map ascii

/-- The kind of a token of one byte. -/
def kindOfByte (b : UInt8) : TokenKind :=
  if b = 0x28 then .opening .paren
  else if b = 0x29 then .closing .paren
  else if b = 0x5b then .opening .square
  else if b = 0x5d then .closing .square
  else if b = 0x7b then .opening .brace
  else if b = 0x7d then .closing .brace
  else if b = 0x2c then .comma
  else if b = Byte.dot then .period
  else if b = 0x3b then .semicolon
  else if b = 0x3a then .colon
  else if b ∈ ascii "+-*/%&|^<>=!~" then .operator
  else .invalid (.strayByte b)

/-- The longest operator or bracket at the front of `b :: s`. -/
def scanOperator (b : UInt8) (s : Bytes) : Lexeme :=
  match longOperators.find? (·.isPrefixOf (b :: s)) with
  | some (_ :: rest) => { kind := .operator, width := rest.length + 1 }
  | _ => { kind := kindOfByte b, width := 1 }

/-- The token at the front of `b :: s`, where `b` is not in a gap. -/
def scanToken (b : UInt8) (s : Bytes) : Lexeme :=
  if isWordStart b then
    let tail := s.takeWhile isWordByte
    { kind := TokenKind.ofWord (b :: tail), width := tail.length + 1 }
  else if h : Byte.isDigit b ∨ b = Byte.dot ∧ (s.head?.map Byte.isDigit).getD false then
    { kind := (scanNumber (b :: s)).1
      width := (scanNumber (b :: s)).2
      width_pos := scanNumber_pos s (h.imp_right And.left) }
  else if b = Byte.quote then scanString s
  else if b = Byte.backquote then scanRawString s
  else if b = Byte.apostrophe then scanRune s
  else scanOperator b s

/-- The tokens of a text and what is wrong with it, each fault with the offset where the comment
or token starts. -/
structure TokenStream where
  tokens : List Token
  faults : List (LexFault × Nat)
deriving DecidableEq, Repr

namespace TokenStream

def cons (t : Token) (stream : TokenStream) : TokenStream :=
  { tokens := t :: stream.tokens
    faults := match t.kind with
      | .invalid fault => (fault, t.offset) :: stream.faults
      | _ => stream.faults }

/-- Puts before the stream what a gap leaves: the terminator of the statement, and a fault. -/
def afterGap (gap : Gap) (terminated : Option Nat) (stream : TokenStream) : TokenStream :=
  { tokens := (terminated.map Token.terminator).toList ++ stream.tokens
    faults := (gap.openComment.map fun pos => (LexFault.openComment, pos)).toList
      ++ stream.faults }

/-- The tokens of a text that stands at `pos`, after a token that ends a statement or not. -/
def read (ends : Bool) (pos : Nat) (s : Bytes) : TokenStream :=
  let gap := Gap.skip pos s
  have := Gap.skip_length pos s
  match _ : gap.rest with
  | [] =>
    afterGap gap (if ends then some (gap.lineBreak.getD gap.pos) else none)
      ⟨[Token.endOfFile gap.pos], []⟩
  | b :: rest =>
    let lexeme := scanToken b rest
    let token : Token :=
      { kind := lexeme.kind, lexeme := gap.rest.take lexeme.width, offset := gap.pos
        value := lexeme.value }
    afterGap gap (if ends then gap.lineBreak else none)
      ((read token.endsStatement (gap.pos + lexeme.width) (gap.rest.drop lexeme.width)).cons
        token)
termination_by s.length
decreasing_by
  have := (scanToken b rest).width_pos
  simp_all [gap]
  omega

end TokenStream

/-- The tokens of a source text. -/
def tokenize (content : Bytes) : TokenStream := TokenStream.read false 0 content

end BuildOrder
