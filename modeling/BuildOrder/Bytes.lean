/-!
# Byte strings

Source text, import paths and file names are strings of bytes, not of characters: nothing here
assumes that they are valid UTF-8. They are ordered as `List UInt8` is, byte by byte, a proper
prefix first.

* `ascii`: the bytes of a text written in this library.
* `Bytes.trim`, `Bytes.cutAt`, `Bytes.joinWith`: the cuts and joins that the readers share.
* `Bytes.insertOrdered`, `Bytes.sortedSet`: finite sets of byte strings in increasing order.
-/

namespace BuildOrder

/-- A string of bytes. -/
abbrev Bytes := List UInt8

/-- The bytes of an ASCII text. -/
def ascii (s : String) : Bytes := s.toList.map Char.toUInt8

namespace Byte

def newline : UInt8 := 0x0a
def quote : UInt8 := 0x22
def apostrophe : UInt8 := 0x27
def slash : UInt8 := 0x2f
def dot : UInt8 := 0x2e
def backslash : UInt8 := 0x5c
def backquote : UInt8 := 0x60

def isDigit (b : UInt8) : Bool := 0x30 ≤ b && b ≤ 0x39

def isOctalDigit (b : UInt8) : Bool := 0x30 ≤ b && b ≤ 0x37

def isUpper (b : UInt8) : Bool := 0x41 ≤ b && b ≤ 0x5a

def isLower (b : UInt8) : Bool := 0x61 ≤ b && b ≤ 0x7a

def isAlpha (b : UInt8) : Bool := isUpper b || isLower b

def isAlphanumeric (b : UInt8) : Bool := isAlpha b || isDigit b

def isHexDigit (b : UInt8) : Bool :=
  isDigit b || (0x41 ≤ b && b ≤ 0x46) || (0x61 ≤ b && b ≤ 0x66)

/-- The white space of text: space, tab, newline, vertical tab, form feed, carriage return. -/
def isSpace (b : UInt8) : Bool := b == 0x20 || (0x09 ≤ b && b ≤ 0x0d)

/-- The value of a hexadecimal digit. -/
def hexValue (b : UInt8) : Nat :=
  if isDigit b then b.toNat - 0x30
  else if isLower b then b.toNat - 0x57
  else b.toNat - 0x37

def toLower (b : UInt8) : UInt8 := if isUpper b then b + 0x20 else b

end Byte

namespace Bytes

/-- Cuts the bytes that satisfy `p` off the front. -/
def trimLeft (p : UInt8 → Bool) (s : Bytes) : Bytes := s.dropWhile p

/-- Cuts the bytes that satisfy `p` off the end. -/
def trimRight (p : UInt8 → Bool) (s : Bytes) : Bytes := (s.reverse.dropWhile p).reverse

/-- Cuts the bytes that satisfy `p` off both ends. -/
def trim (p : UInt8 → Bool) (s : Bytes) : Bytes := trimRight p (trimLeft p s)

/-- The text before the first `sep`, and the text after it if there is one. -/
def cutAt (sep : UInt8) (s : Bytes) : Bytes × Option Bytes :=
  (s.takeWhile (· != sep), match s.dropWhile (· != sep) with
    | [] => none
    | _ :: rest => some rest)

/-- The text after the given beginning, if `s` has it. -/
def afterBeginning? (beginning s : Bytes) : Option Bytes :=
  if beginning.isPrefixOf s then some (s.drop beginning.length) else none

/-- The value of a command-line option `flag=value`. -/
def optionValue? (flag : String) (arg : Bytes) : Option Bytes :=
  afterBeginning? (ascii flag ++ [0x3d]) arg

theorem afterBeginning?_eq_some {beginning s rest : Bytes} :
    afterBeginning? beginning s = some rest ↔ s = beginning ++ rest := by
  unfold afterBeginning?
  constructor
  · intro h
    split at h
    · rename_i hprefix
      obtain ⟨rest', rfl⟩ := List.isPrefixOf_iff_prefix.1 hprefix
      rw [List.drop_left, Option.some.injEq] at h
      rw [h]
    · cases h
  · rintro rfl
    rw [if_pos (List.isPrefixOf_iff_prefix.2 (List.prefix_append _ _)), List.drop_left]

theorem optionValue?_eq_some {flag : String} {arg value : Bytes} :
    optionValue? flag arg = some value ↔ arg = ascii flag ++ 0x3d :: value := by
  rw [optionValue?, afterBeginning?_eq_some, List.append_assoc]
  rfl

/-- The texts one after the other, with `sep` between them. -/
def joinWith (sep : Bytes) : List Bytes → Bytes
  | [] => []
  | [s] => s
  | s :: t :: rest => s ++ sep ++ joinWith sep (t :: rest)

/-- The decimal digits of a number. -/
def decimal (n : Nat) : Bytes := (Nat.toDigits 10 n).map Char.toUInt8

/-- The decimal digits of an integer, after a minus sign if it is negative. -/
def signedDecimal : Int → Bytes
  | .ofNat n => decimal n
  | .negSucc n => 0x2d :: decimal (n + 1)

/-- The value of a run of digits in the given base. -/
def valueIn (base : Nat) (digits : Bytes) : Nat :=
  digits.foldl (fun v d => v * base + Byte.hexValue d) 0

/-- The first byte of an encoding: the bits of a number from `shift` on, below a mark. -/
def leadByte (mark shift code : UInt32) : UInt8 := (mark ||| code >>> shift).toUInt8

/-- A later byte of an encoding: six bits of a number from `shift` on, below the mark of such a
byte. -/
def laterByte (shift code : UInt32) : UInt8 :=
  (0x80 ||| (code >>> shift &&& 0x3f) : UInt32).toUInt8

/-- The UTF-8 encoding of a character. -/
def utf8 (c : Char) : Bytes :=
  let code := c.val
  if code < 0x80 then [code.toUInt8]
  else if code < 0x800 then [leadByte 0xc0 6 code, laterByte 0 code]
  else if code < 0x10000 then [leadByte 0xe0 12 code, laterByte 6 code, laterByte 0 code]
  else [leadByte 0xf0 18 code, laterByte 12 code, laterByte 6 code, laterByte 0 code]

/-- Puts `x` into a strictly increasing list. -/
def insertOrdered (x : Bytes) : List Bytes → List Bytes
  | [] => [x]
  | y :: ys => if x < y then x :: y :: ys else if x = y then y :: ys else y :: insertOrdered x ys

/-- The members of a list in strictly increasing order. -/
def sortedSet (xs : List Bytes) : List Bytes := xs.foldr insertOrdered []

theorem mem_insertOrdered {x y : Bytes} {ys : List Bytes} :
    x ∈ insertOrdered y ys ↔ x = y ∨ x ∈ ys := by
  induction ys with
  | nil => simp [insertOrdered]
  | cons z zs ih =>
    unfold insertOrdered
    split
    · simp
    split
    · rename_i heq
      simp [heq]
    · rw [List.mem_cons, ih, List.mem_cons]
      exact or_left_comm

theorem pairwise_insertOrdered {x : Bytes} {ys : List Bytes} (h : ys.Pairwise (· < ·)) :
    (insertOrdered x ys).Pairwise (· < ·) := by
  induction ys with
  | nil => simp [insertOrdered]
  | cons y ys ih =>
    obtain ⟨hy, hys⟩ := List.pairwise_cons.1 h
    unfold insertOrdered
    split
    · rename_i hlt
      refine List.pairwise_cons.2 ⟨fun z hz => ?_, h⟩
      rcases List.mem_cons.1 hz with rfl | hz
      · exact hlt
      · exact Std.lt_trans hlt (hy z hz)
    rename_i hlt
    split
    · exact h
    rename_i hne
    refine List.pairwise_cons.2 ⟨fun z hz => ?_, ih hys⟩
    rcases mem_insertOrdered.1 hz with rfl | hz
    · exact Std.lt_of_le_of_ne (Std.not_lt.1 hlt) (Ne.symm hne)
    · exact hy z hz

theorem mem_sortedSet {x : Bytes} {xs : List Bytes} : x ∈ sortedSet xs ↔ x ∈ xs := by
  induction xs with
  | nil => simp [sortedSet]
  | cons y ys ih =>
    rw [sortedSet, List.foldr_cons, mem_insertOrdered, List.mem_cons]
    exact or_congr_right ih

theorem pairwise_sortedSet (xs : List Bytes) : (sortedSet xs).Pairwise (· < ·) := by
  induction xs with
  | nil => simp [sortedSet]
  | cons x xs ih => exact pairwise_insertOrdered ih

theorem nodup_sortedSet (xs : List Bytes) : (sortedSet xs).Nodup := by
  refine (pairwise_sortedSet xs).imp ?_
  rintro x _ hlt rfl
  exact Std.lt_irrefl hlt

/-- The text between double quotes. -/
def quoted (s : Bytes) : Bytes := Byte.quote :: s ++ [Byte.quote]

end Bytes

end BuildOrder
