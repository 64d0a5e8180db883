import BuildOrder.Proofs.Gaps
import Mathlib.Data.List.Forall2
import Mathlib.Tactic.Ring

/-!
# String literals as they are written

A string literal writes bytes and characters one after the other, and each of them can be spelled in
several ways.

* `Bytes.utf8_eq`: a character is cut into the bytes of its UTF-8 encoding.
* `Spells`: the ways to spell a byte or a character between double quotes.
* `Spells.scanQuoted`: what is spelled is read, and nothing after it.
* `tokenize_spelled`: **a literal is one token, and stands for the bytes that were spelled**,
  whatever the choices made for each.
-/

namespace BuildOrder

/-! ### Encodings -/

namespace Bytes

/-- Bits below a mark are added to it. -/
theorem mark_or {i bits : Nat} (mark : Nat) (h : bits < 2 ^ i) :
    2 ^ i * mark ||| bits = bits + 2 ^ i * mark := by
  rw [Nat.add_comm, Nat.two_pow_add_eq_or_of_lt h]

theorem leadByte_eq {mark shift code : UInt32} {i k : Nat} (hshift : shift < 32)
    (hmark : mark.toNat = 2 ^ i * k) (hcode : code.toNat / 2 ^ shift.toNat < 2 ^ i) :
    leadByte mark shift code =
      UInt8.ofNat (code.toNat / 2 ^ shift.toNat % 2 ^ i + mark.toNat) := by
  have hshift : shift.toNat < 32 := hshift
  apply UInt8.toNat.inj
  rw [leadByte, UInt32.toNat_toUInt8, UInt32.toNat_or, UInt32.toNat_shiftRight,
    Nat.mod_eq_of_lt hshift, Nat.shiftRight_eq_div_pow, UInt8.toNat_ofNat', hmark,
    mark_or k hcode, Nat.mod_eq_of_lt hcode]

theorem laterByte_eq {shift : UInt32} (hshift : shift < 32) (code : UInt32) :
    laterByte shift code = UInt8.ofNat (code.toNat / 2 ^ shift.toNat % 64 + 128) := by
  have hshift : shift.toNat < 32 := hshift
  have hmask : code.toNat / 2 ^ shift.toNat &&& 63 = code.toNat / 2 ^ shift.toNat % 64 :=
    Nat.and_two_pow_sub_one_eq_mod _ 6
  have hlt : code.toNat / 2 ^ shift.toNat % 64 < 2 ^ 6 := Nat.mod_lt _ (by decide)
  apply UInt8.toNat.inj
  rw [laterByte, UInt32.toNat_toUInt8, UInt32.toNat_or, UInt32.toNat_and,
    UInt32.toNat_shiftRight, Nat.mod_eq_of_lt hshift, Nat.shiftRight_eq_div_pow,
    UInt8.toNat_ofNat', UInt32.toNat_ofNat, UInt32.toNat_ofNat]
  exact congrArg (· % 2 ^ 8) ((congrArg (128 ||| ·) hmask).trans (mark_or 2 hlt))

/-- **A character is cut into the bytes of its UTF-8 encoding.** -/
theorem utf8_eq (c : Char) : utf8 c = String.utf8EncodeChar c := by
  have hmax : c.val.toNat < 0x110000 := by
    have := c.valid
    unfold UInt32.isValidChar Nat.isValidChar at this
    omega
  have lt_iff (bound : UInt32) {n : Nat} (h : bound.toNat = n + 1) :
      c.val < bound ↔ c.val.toNat ≤ n := by
    rw [UInt32.lt_iff_toNat_lt, h, Nat.lt_succ_iff]
  unfold utf8 String.utf8EncodeChar
  simp only [lt_iff 0x80 rfl, lt_iff 0x800 rfl, lt_iff 0x10000 rfl]
  by_cases h1 : c.val.toNat ≤ 127
  · rw [if_pos h1, if_pos h1]
    rfl
  rw [if_neg h1, if_neg h1, laterByte_eq (by decide)]
  by_cases h2 : c.val.toNat ≤ 2047
  · have hlead : c.val.toNat / 2 ^ 6 < 2 ^ 5 := by omega
    rw [if_pos h2, if_pos h2, leadByte_eq (k := 6) (by decide) rfl hlead]
    simp
  rw [if_neg h2, if_neg h2, laterByte_eq (by decide)]
  by_cases h3 : c.val.toNat ≤ 65535
  · have hlead : c.val.toNat / 2 ^ 12 < 2 ^ 4 := by omega
    rw [if_pos h3, if_pos h3, leadByte_eq (k := 14) (by decide) rfl hlead]
    simp
  · have hlead : c.val.toNat / 2 ^ 18 < 2 ^ 3 := by omega
    rw [if_neg h3, if_neg h3, laterByte_eq (by decide),
      leadByte_eq (k := 30) (by decide) rfl hlead]
    simp

end Bytes

/-! ### Spellings -/

/-- A digit as it is written, from ten on in upper or in lower case. -/
def digit (upper : Bool) (d : Nat) : UInt8 :=
  (if upper then ascii "0123456789ABCDEF" else ascii "0123456789abcdef").getD d 0

/-- The last digits of a number: as many as there are choices between upper and lower case. -/
def numeral (base : Nat) : List Bool → Nat → Bytes
  | [], _ => []
  | upper :: cases, n => digit upper (n / base ^ cases.length % base) :: numeral base cases n

/-- The letters that stand for a byte after a backslash, and the bytes. -/
def escapeLetters : List (UInt8 × UInt8) :=
  (ascii "abfnrtv\\\"").zip [0x07, 0x08, 0x0c, 0x0a, 0x0d, 0x09, 0x0b, 0x5c, 0x22]

/-- What is written between double quotes: a byte, or a character. -/
inductive Item where
  | byte (b : UInt8)
  | character (c : Char)

/-- The bytes that an item stands for. -/
def Item.bytes : Item → Bytes
  | byte b => [b]
  | character c => String.utf8EncodeChar c

/-- The ways to spell an item between double quotes. -/
inductive Spells : Item → Bytes → Prop
  /-- A byte as it is. -/
  | plain {b : UInt8} :
      b ≠ Byte.quote → b ≠ Byte.backslash → b ≠ Byte.newline → Spells (.byte b) [b]
  /-- A byte as a letter: `\n`. -/
  | letter {l b : UInt8} : (l, b) ∈ escapeLetters → Spells (.byte b) [Byte.backslash, l]
  /-- A byte as two hexadecimal digits: `\x0a`. -/
  | hex (b : UInt8) (cases : List Bool) :
      cases.length = 2 → Spells (.byte b) (Byte.backslash :: 0x78 :: numeral 16 cases b.toNat)
  /-- A byte as three octal digits: `\012`. -/
  | octal (b : UInt8) :
      Spells (.byte b) (Byte.backslash :: numeral 8 [false, false, false] b.toNat)
  /-- A character as four hexadecimal digits, if they are enough: `\u000a`. -/
  | short {c : Char} (cases : List Bool) : c.toNat < 0x10000 → cases.length = 4 →
      Spells (.character c) (Byte.backslash :: 0x75 :: numeral 16 cases c.toNat)
  /-- A character as eight hexadecimal digits: `\U0000000a`. -/
  | long (c : Char) (cases : List Bool) : cases.length = 8 →
      Spells (.character c) (Byte.backslash :: 0x55 :: numeral 16 cases c.toNat)

/-! ### Numbers -/

theorem length_numeral (base : Nat) (cases : List Bool) (n : Nat) :
    (numeral base cases n).length = cases.length := by
  induction cases with
  | nil => rfl
  | cons upper cases ih => rw [numeral, List.length_cons, List.length_cons, ih]

/-- The digits of a number are digits. -/
theorem all_numeral {base : Nat} {p : UInt8 → Bool} (hbase : 0 < base)
    (hdigit : ∀ upper, ∀ d < base, p (digit upper d) = true) (cases : List Bool) (n : Nat) :
    ∀ b ∈ numeral base cases n, p b = true := by
  induction cases with
  | nil => nofun
  | cons upper cases ih =>
    intro b hb
    rcases List.mem_cons.1 hb with rfl | hb
    · exact hdigit upper _ (Nat.mod_lt _ hbase)
    · exact ih b hb

/-- A run of digits before another text is found. -/
theorem takeWhile_numeral {base : Nat} {p : UInt8 → Bool} (hbase : 0 < base)
    (hdigit : ∀ upper, ∀ d < base, p (digit upper d) = true) (cases : List Bool) (n : Nat)
    (rest : Bytes) :
    ((numeral base cases n ++ rest).take cases.length).takeWhile p = numeral base cases n := by
  have htake : (numeral base cases n ++ rest).take cases.length = numeral base cases n := by
    rw [← length_numeral base cases n]
    exact List.take_left
  rw [htake]
  have hall : (numeral base cases n ++ []).takeWhile p = numeral base cases n ++ [].takeWhile p :=
    List.takeWhile_append_of_pos (all_numeral hbase hdigit cases n)
  rwa [List.append_nil, List.takeWhile_nil, List.append_nil] at hall

theorem isHexDigit_digit : ∀ upper, ∀ d < 16, Byte.isHexDigit (digit upper d) = true := by decide

theorem isOctalDigit_digit : ∀ upper, ∀ d < 8, Byte.isOctalDigit (digit upper d) = true := by decide

theorem hexValue_digit : ∀ upper, ∀ d < 16, Byte.hexValue (digit upper d) = d := by decide

/-- **The digits of a number have its value**, up to what they leave out. -/
theorem valueIn_numeral {base : Nat} (hbase : 0 < base ∧ base ≤ 16) (cases : List Bool) (n : Nat) :
    Bytes.valueIn base (numeral base cases n) = n % base ^ cases.length := by
  have foldl (v : Nat) : (numeral base cases n).foldl (fun v d => v * base + Byte.hexValue d) v =
      v * base ^ cases.length + n % base ^ cases.length := by
    induction cases generalizing v with
    | nil => simp [numeral, Nat.mod_one]
    | cons upper cases ih =>
      have hlt : n / base ^ cases.length % base < base := Nat.mod_lt _ hbase.1
      rw [numeral, List.foldl_cons, hexValue_digit upper _ (by omega), ih, List.length_cons,
        Nat.mod_pow_succ, Nat.pow_succ]
      ring
  rw [Bytes.valueIn, foldl, Nat.zero_mul, Nat.zero_add]

/-! ### Escapes -/

namespace Escape

theorem read_letter {l b : UInt8} (h : (l, b) ∈ escapeLetters) (s : Bytes) :
    read Byte.quote (l :: s) = .text [b] 1 := by
  -- All letters but the quote itself stand for their byte in every literal.
  have hall : escapeLetters.all (fun e => letter? e.1 = some e.2 ∨ e = (Byte.quote, Byte.quote)) =
      true := by decide
  have hcases := of_decide_eq_true (List.all_eq_true.1 hall _ h)
  rcases hcases with hletter | heq
  · rw [read, hletter]
  · obtain ⟨rfl, rfl⟩ := Prod.mk.inj heq
    rfl

/-- The digits of a number after a letter give the number. -/
theorem hex_numeral {l : UInt8} {cases : List Bool} {n : Nat} (h : n < 16 ^ cases.length)
    (rest : Bytes) :
    hex l cases.length (numeral 16 cases n ++ rest) =
      if l = 0x78 then .text [n.toUInt8] (1 + cases.length)
      else if n.isValidChar then .text (Bytes.utf8 (Char.ofNat n)) (1 + cases.length)
      else .unknown (1 + cases.length) := by
  unfold hex
  dsimp only
  rw [takeWhile_numeral (by decide) isHexDigit_digit, length_numeral, if_neg (Nat.lt_irrefl _),
    valueIn_numeral (by decide), Nat.mod_eq_of_lt h]

theorem read_octal (b : UInt8) (rest : Bytes) :
    read Byte.quote (numeral 8 [false, false, false] b.toNat ++ rest) = .text [b] 3 := by
  have hb : b.toNat < 256 := b.toNat_lt
  have hfirst : ∀ d < 8, letter? (digit false d) = none ∧ hexDigits? (digit false d) = none ∧
      Byte.isOctalDigit (digit false d) = true := by decide
  obtain ⟨hletter, hhex, hoctal⟩ := hfirst (b.toNat / 8 ^ 2 % 8) (Nat.mod_lt _ (by decide))
  have hdigits := takeWhile_numeral (by decide) isOctalDigit_digit [false, false] b.toNat rest
  have hvalue : Bytes.valueIn 8 (numeral 8 [false, false, false] b.toNat) = b.toNat := by
    rw [valueIn_numeral (by decide)]
    exact Nat.mod_eq_of_lt (Nat.lt_trans hb (by decide))
  rw [numeral] at hvalue ⊢
  rw [List.cons_append, read]
  have hlength : (numeral 8 [false, false] b.toNat).length = 2 := rfl
  simp only [List.length_cons, List.length_nil, Nat.zero_add] at hdigits hvalue ⊢
  rw [hletter, hhex]
  dsimp only
  rw [hoctal, if_pos rfl, octal]
  dsimp only
  rw [hdigits, hvalue, hlength, if_neg (Nat.lt_irrefl 2), if_pos hb]
  exact congrArg (text [·] 3) UInt8.ofNat_toNat

theorem read_hex (b : UInt8) {cases : List Bool} (hcases : cases.length = 2) (rest : Bytes) :
    read Byte.quote (0x78 :: (numeral 16 cases b.toNat ++ rest)) = .text [b] 3 := by
  have hfits : b.toNat < 16 ^ cases.length := by
    rw [hcases]
    exact b.toNat_lt
  have hread : read Byte.quote (0x78 :: (numeral 16 cases b.toNat ++ rest)) =
      hex 0x78 2 (numeral 16 cases b.toNat ++ rest) := rfl
  rw [hread, ← hcases, hex_numeral hfits, if_pos rfl, hcases]
  exact congrArg (text [·] 3) UInt8.ofNat_toNat

/-- **A character's number is read as the character.** -/
theorem read_character {l : UInt8} {count : Nat} (hletter : letter? l = none)
    (hcount : hexDigits? l = some count) (hl : l ≠ 0x78) {c : Char} {cases : List Bool}
    (hcases : cases.length = count) (hfits : c.toNat < 16 ^ count) (rest : Bytes) :
    read Byte.quote (l :: (numeral 16 cases c.toNat ++ rest)) =
      .text (String.utf8EncodeChar c) (1 + count) := by
  have hread : read Byte.quote (l :: (numeral 16 cases c.toNat ++ rest)) =
      hex l count (numeral 16 cases c.toNat ++ rest) := by
    rw [read, hletter, hcount]
  have hvalid : c.toNat.isValidChar := c.valid
  subst hcases
  rw [hread, hex_numeral hfits, if_neg hl, if_pos hvalid, Char.ofNat_toNat, Bytes.utf8_eq]

end Escape

/-- A byte as it is, or an escape sequence that is read to its end and no further. -/
theorem Spells.cases {item : Item} {text : Bytes} (h : Spells item text) :
    (∃ b, item = .byte b ∧ text = [b] ∧ b ≠ Byte.quote ∧ b ≠ Byte.backslash ∧ b ≠ Byte.newline) ∨
      ∃ e, text = Byte.backslash :: e ∧
        ∀ rest, Escape.read Byte.quote (e ++ rest) = .text item.bytes e.length := by
  cases h with
  | @plain b hquote hbackslash hnewline =>
    exact Or.inl ⟨b, rfl, rfl, hquote, hbackslash, hnewline⟩
  | letter h => exact Or.inr ⟨_, rfl, fun rest => Escape.read_letter h rest⟩
  | hex b cases hcases =>
    refine Or.inr ⟨_, rfl, fun rest => ?_⟩
    rw [List.cons_append, List.length_cons, length_numeral, hcases]
    exact Escape.read_hex b hcases rest
  | octal b => exact Or.inr ⟨_, rfl, fun rest => Escape.read_octal b rest⟩
  | @short c cases hc hcases =>
    refine Or.inr ⟨_, rfl, fun rest => ?_⟩
    rw [List.cons_append, List.length_cons, length_numeral, hcases]
    exact Escape.read_character rfl rfl (by decide) hcases hc rest
  | long c cases hcases =>
    have hc : c.toNat < 16 ^ 8 := c.val.toNat_lt
    refine Or.inr ⟨_, rfl, fun rest => ?_⟩
    rw [List.cons_append, List.length_cons, length_numeral, hcases]
    exact Escape.read_character rfl rfl (by decide) hcases hc rest

/-! ### Literals -/

/-- **What is spelled is read**, and nothing after it. -/
theorem Spells.scanQuoted {item : Item} {text : Bytes} (h : Spells item text) (rest : Bytes) :
    ∃ piece : Piece, piece.bytes = item.bytes ∧
      BuildOrder.scanQuoted Byte.quote (text ++ rest) =
        (BuildOrder.scanQuoted Byte.quote rest).cons piece text.length := by
  rcases h.cases with ⟨b, rfl, rfl, hquote, hbackslash, hnewline⟩ | ⟨e, rfl, hread⟩
  · refine ⟨.plain b, rfl, ?_⟩
    rw [List.singleton_append, BuildOrder.scanQuoted, if_neg hnewline, if_neg hquote,
      if_neg hbackslash]
    rfl
  · refine ⟨.escape item.bytes, rfl, ?_⟩
    rw [List.cons_append, BuildOrder.scanQuoted, if_neg (by decide), if_neg (by decide),
      if_pos rfl, hread rest]
    dsimp only
    rw [List.drop_left, List.length_cons, Nat.add_comm]

/-- **The items of a literal are read one after the other**, up to the closing quote. -/
theorem scanQuoted_spelled {items : List Item} {texts : List Bytes}
    (h : List.Forall₂ Spells items texts) (rest : Bytes) :
    ∃ pieces : List Piece, pieces.flatMap Piece.bytes = items.flatMap Item.bytes ∧
      scanQuoted Byte.quote (texts.flatten ++ Byte.quote :: rest) =
        ⟨pieces, texts.flatten.length + 1, .closed⟩ := by
  induction h with
  | nil =>
    refine ⟨[], rfl, ?_⟩
    rw [List.flatten_nil, List.nil_append, scanQuoted, if_neg (by decide), if_pos rfl]
    rfl
  | @cons item text items texts hspells _ ih =>
    obtain ⟨pieces, hpieces, hscan⟩ := ih
    obtain ⟨piece, hpiece, hcons⟩ := hspells.scanQuoted (texts.flatten ++ Byte.quote :: rest)
    refine ⟨piece :: pieces, by rw [List.flatMap_cons, hpiece, hpieces, List.flatMap_cons], ?_⟩
    rw [List.flatten_cons, List.append_assoc, hcons, hscan, List.length_append, Nat.add_assoc]
    rfl

/-- **A literal is the token at the front of the text that it starts.** -/
theorem scanToken_spelled {items : List Item} {texts : List Bytes}
    (h : List.Forall₂ Spells items texts) (rest : Bytes) :
    scanToken Byte.quote (texts.flatten ++ Byte.quote :: rest) =
      { kind := .string
        width := (Bytes.quoted texts.flatten).length
        value := items.flatMap Item.bytes
        width_pos := Nat.zero_lt_succ _ } := by
  obtain ⟨pieces, hpieces, hscan⟩ := scanQuoted_spelled h rest
  have hquoted : (Bytes.quoted texts.flatten).length = 1 + (texts.flatten.length + 1) := by
    simp only [Bytes.quoted, List.length_append, List.length_cons, List.length_nil]
    omega
  have hnumber (p : Prop) : ¬ (Byte.isDigit Byte.quote = true ∨ Byte.quote = Byte.dot ∧ p) := by
    rintro (h | ⟨h, -⟩) <;> revert h <;> decide
  have hstring : scanToken Byte.quote (texts.flatten ++ Byte.quote :: rest) =
      scanString (texts.flatten ++ Byte.quote :: rest) := by
    rw [scanToken, if_neg (by decide), dif_neg (hnumber _), if_pos rfl]
  rw [hstring, scanString]
  simp only [hscan, hpieces, hquoted]

/-- Where no gap stands before it, a token is read, and then the text after it. -/
theorem TokenStream.read_token {pos : Nat} {b : UInt8} {s : Bytes}
    (hgap : Gap.skip pos (b :: s) = ⟨b :: s, pos, none, none⟩) (ends : Bool) :
    let lexeme := scanToken b s
    let token : Token :=
      { kind := lexeme.kind, lexeme := (b :: s).take lexeme.width, offset := pos
        value := lexeme.value }
    read ends pos (b :: s) =
      (read token.endsStatement (pos + lexeme.width) ((b :: s).drop lexeme.width)).cons token := by
  rw [read]
  split
  · rename_i h
    rw [hgap] at h
    cases h
  · rename_i h
    rw [hgap] at h
    cases h
    simp only [hgap, afterGap]
    split <;> rfl

/-- **A literal is one token, and stands for the bytes that were spelled**, whatever choices were
made for its items: where it stands alone, and at the front of any text, of which the rest is then
read as if it stood alone after a literal. -/
theorem tokenize_spelled {items : List Item} {texts : List Bytes}
    (h : List.Forall₂ Spells items texts) :
    let literal := Bytes.quoted texts.flatten
    let token (pos : Nat) : Token :=
      { kind := .string, lexeme := literal, offset := pos, value := items.flatMap Item.bytes }
    tokenize literal =
        ⟨[token 0, Token.terminator literal.length, Token.endOfFile literal.length], []⟩ ∧
      ∀ ends pos rest, TokenStream.read ends pos (literal ++ rest) =
        let after := TokenStream.read true (pos + literal.length) rest
        ⟨token pos :: after.tokens, after.faults⟩ := by
  intro literal token
  have hread (ends : Bool) (pos : Nat) (rest : Bytes) :
      TokenStream.read ends pos (literal ++ rest) =
        (TokenStream.read true (pos + literal.length) rest).cons (token pos) := by
    have hliteral : literal ++ rest = Byte.quote :: (texts.flatten ++ Byte.quote :: rest) := by
      simp [literal, Bytes.quoted]
    have hgap : Gap.skip pos (literal ++ rest) = ⟨literal ++ rest, pos, none, none⟩ := by
      rw [hliteral, Gap.skip, if_neg (by decide), if_neg (by decide), if_neg, if_neg]
      · rintro ⟨h, -⟩
        exact absurd h (by decide)
      · rintro ⟨h, -⟩
        exact absurd h (by decide)
    have hlexeme : (literal ++ rest).take literal.length = literal := List.take_left
    have hrest : (literal ++ rest).drop literal.length = rest := List.drop_left
    rw [hliteral] at hgap hlexeme hrest ⊢
    rw [TokenStream.read_token hgap, scanToken_spelled h]
    simp only [literal] at hlexeme hrest ⊢
    rw [hlexeme, hrest]
    rfl
  refine ⟨?_, hread⟩
  have halone := hread false 0 []
  rw [List.append_nil, Nat.zero_add, TokenStream.read_end] at halone
  exact halone

/-- Items that need care: a zero byte, a quote, bytes that are no UTF-8, the last character. -/
def mixedItems : List Item :=
  [.byte 0x00, .byte Byte.quote, .byte 0xff, .byte 0xff, .byte Byte.newline,
    .character (Char.ofNat 0xe9), .character (Char.ofNat 0x10ffff)]

/-- A spelling of each kind. -/
def mixedTexts : List Bytes :=
  [[0x00], ascii "\\\"", ascii "\\xfF", ascii "\\377", ascii "\\n", ascii "\\u00E9",
    ascii "\\U0010ffff"]

theorem spells_mixed : List.Forall₂ Spells mixedItems mixedTexts :=
  .cons (.plain (by decide) (by decide) (by decide)) <|
  .cons (.letter (by decide)) <|
  .cons (.hex 0xff [false, true] rfl) <|
  .cons (.octal 0xff) <|
  .cons (.letter (by decide)) <|
  .cons (.short [true, true, true, true] (by decide) rfl) <|
  .cons (.long _ (List.replicate 8 false) rfl) .nil

theorem tokenize_spelled_mixed :
    List.Forall₂ Spells mixedItems mixedTexts ∧
    tokenize (ascii "\"\x00\\\"\\xfF\\377\\n\\u00E9\\U0010ffff\"") =
      ⟨[{ kind := .string
          lexeme := ascii "\"\x00\\\"\\xfF\\377\\n\\u00E9\\U0010ffff\""
          offset := 0
          value := [0x00, 0x22, 0xff, 0xff, 0x0a, 0xc3, 0xa9, 0xf4, 0x8f, 0xbf, 0xbf] },
        Token.terminator 31, Token.endOfFile 31], []⟩ :=
  ⟨spells_mixed, (tokenize_spelled spells_mixed).1⟩

end BuildOrder
