import BuildOrder.Bytes
import Mathlib.Data.List.Basic

/-!
# JSON texts

The grammar of JSON over the bytes of a text in UTF-8, with the values that are written.

* `Json.Characters`: what is written between the quotes of a string, and the code points it stands
  for.
* `Json.Spells`, `Json.IsText`: the ways to write a value, and a value with blanks around it.
* `Json.Characters.unique`: **a string stands for one list of code points.**
* `Json.Characters.printable`, `Json.IsText.legible`: **a string has no control character as it
  is**, and the whole text none but tabs, newlines and carriage returns.
-/

namespace BuildOrder

/-- A value. A number is kept as it is written, and a string as code points, where half of a pair of
surrogates may stand alone. -/
inductive Json where
  | null
  | bool (b : Bool)
  | number (text : Bytes)
  | string (points : List Nat)
  | array (elements : List Json)
  | object (members : List (List Nat × Json))

namespace Json

/-! ### The grammar -/

/-- What may stand around values and the signs between them. -/
def IsBlank (s : Bytes) : Prop := ∀ b ∈ s, b = 0x20 ∨ b = 0x09 ∨ b = 0x0a ∨ b = 0x0d

def IsDigits (s : Bytes) : Prop := s ≠ [] ∧ ∀ b ∈ s, Byte.isDigit b = true

/-- The digits of a whole number. The first is a zero only if it is alone. -/
def IsWhole (s : Bytes) : Prop := IsDigits s ∧ (s.head? = some 0x30 → s = [0x30])

def IsFraction (s : Bytes) : Prop := s = [] ∨ ∃ digits, IsDigits digits ∧ s = Byte.dot :: digits

def IsExponent (s : Bytes) : Prop :=
  s = [] ∨ ∃ letter sign digits, (letter = 0x65 ∨ letter = 0x45) ∧
    (sign = [] ∨ sign = [0x2b] ∨ sign = [0x2d]) ∧ IsDigits digits ∧ s = letter :: (sign ++ digits)

def IsNumber (s : Bytes) : Prop :=
  ∃ sign whole fraction exponent, (sign = [] ∨ sign = [0x2d]) ∧ IsWhole whole ∧
    IsFraction fraction ∧ IsExponent exponent ∧ s = sign ++ whole ++ fraction ++ exponent

/-- The letters that stand for a character after a backslash, and the characters. -/
def escapeLetters : List (UInt8 × Char) :=
  [(0x22, '"'), (0x5c, '\\'), (0x2f, '/'), (0x62, '\x08'), (0x66, '\x0c'), (0x6e, '\n'),
    (0x72, '\r'), (0x74, '\t')]

/-- What is written between quotes, and the code points it stands for: a character as it is, as a
letter after a backslash, or as four hexadecimal digits, where two halves may be written for one. -/
inductive Characters : Bytes → List Nat → Prop
  | nil : Characters [] []
  | plain {c : Char} {s : Bytes} {points : List Nat} : 0x20 ≤ c.toNat → c ≠ '"' → c ≠ '\\' →
      Characters s points → Characters (String.utf8EncodeChar c ++ s) (c.toNat :: points)
  | letter {l : UInt8} {c : Char} {s : Bytes} {points : List Nat} : (l, c) ∈ escapeLetters →
      Characters s points → Characters (Byte.backslash :: l :: s) (c.toNat :: points)
  | digits {digits s : Bytes} {points : List Nat} : digits.length = 4 →
      (∀ d ∈ digits, Byte.isHexDigit d = true) → Characters s points →
      Characters (Byte.backslash :: 0x75 :: (digits ++ s)) (Bytes.valueIn 16 digits :: points)

/-- Joins the halves of each pair of surrogates. -/
def joinHalves : List Nat → List Nat
  | high :: low :: points =>
    if 0xd800 ≤ high ∧ high < 0xdc00 ∧ 0xdc00 ≤ low ∧ low < 0xe000 then
      (0x10000 + 0x400 * (high - 0xd800) + (low - 0xdc00)) :: joinHalves points
    else high :: joinHalves (low :: points)
  | points => points

/-- A value in a list of them, and the text for it. -/
structure Item where
  value : Json
  before : Bytes := []
  text : Bytes
  after : Bytes := []

/-- A member of an object, and the text for it. -/
structure Member extends Item where
  points : List Nat
  beforeName : Bytes := []
  name : Bytes
  afterName : Bytes := []

def Item.line (i : Item) : Bytes := i.before ++ i.text ++ i.after

def Item.Spaced (i : Item) : Prop := IsBlank i.before ∧ IsBlank i.after

def Member.line (m : Member) : Bytes :=
  m.beforeName ++ Bytes.quoted m.name ++ m.afterName ++ 0x3a :: m.toItem.line

def Member.Spaced (m : Member) : Prop :=
  IsBlank m.beforeName ∧ IsBlank m.afterName ∧ m.toItem.Spaced

/-- The ways to write a value. -/
inductive Spells : Json → Bytes → Prop
  | null : Spells .null (ascii "null")
  | true : Spells (.bool true) (ascii "true")
  | false : Spells (.bool false) (ascii "false")
  | number {s : Bytes} : IsNumber s → Spells (.number s) s
  | string {s : Bytes} {points : List Nat} : Characters s points →
      Spells (.string (joinHalves points)) (Bytes.quoted s)
  | noElements {blank : Bytes} : IsBlank blank → Spells (.array []) (0x5b :: (blank ++ [0x5d]))
  | array {items : List Item} : (∀ i ∈ items, i.Spaced) →
      (∀ i ∈ items, Spells i.value i.text) →
      Spells (.array (items.map Item.value))
        (0x5b :: (Bytes.joinWith [0x2c] (items.map Item.line) ++ [0x5d]))
  | noMembers {blank : Bytes} : IsBlank blank → Spells (.object []) (0x7b :: (blank ++ [0x7d]))
  | object {members : List Member} : (∀ m ∈ members, m.Spaced) →
      (∀ m ∈ members, Characters m.name m.points) →
      (∀ m ∈ members, Spells m.value m.text) →
      Spells (.object (members.map fun m => (joinHalves m.points, m.value)))
        (0x7b :: (Bytes.joinWith [0x2c] (members.map Member.line) ++ [0x7d]))

/-- The text is the value, with blanks around it. -/
def IsText (v : Json) (s : Bytes) : Prop :=
  ∃ before text after, IsBlank before ∧ Spells v text ∧ IsBlank after ∧ s = before ++ text ++ after

/-! ### Characters as they are -/

/-- Decides what holds of all members of a list by going through the list, also where the type is
finite. -/
instance (priority := high) decidableForallMem {α : Type} (p : α → Prop) [DecidablePred p]
    (l : List α) : Decidable (∀ a ∈ l, p a) :=
  List.decidableBAll p l

theorem utf8EncodeChar_ascii {c : Char} (h : c.toNat < 0x80) :
    String.utf8EncodeChar c = [UInt8.ofNat c.toNat] := by
  have hle : c.val.toNat ≤ 127 := Nat.le_of_lt_succ h
  simp only [String.utf8EncodeChar, if_pos hle]
  rfl

/-- The bytes of a character that is not an ASCII one are no ASCII characters either. -/
theorem le_of_mem_utf8EncodeChar {c : Char} (h : 0x80 ≤ c.toNat) :
    ∀ b ∈ String.utf8EncodeChar c, 0x80 ≤ b := by
  have hlt : ¬ c.val.toNat ≤ 127 := Nat.not_le_of_lt h
  have hmarked : ∀ n, 128 ≤ n → n < 256 → (0x80 : UInt8) ≤ UInt8.ofNat n := by
    intro n hle hlt
    rw [UInt8.le_iff_toNat_le, UInt8.toNat_ofNat', Nat.mod_eq_of_lt hlt]
    exact hle
  intro b hb
  simp only [String.utf8EncodeChar, if_neg hlt] at hb
  split at hb
  · simp only [List.mem_cons, List.not_mem_nil, or_false] at hb
    rcases hb with rfl | rfl
    all_goals exact hmarked _ (by omega) (by omega)
  split at hb
  · simp only [List.mem_cons, List.not_mem_nil, or_false] at hb
    rcases hb with rfl | rfl | rfl
    all_goals exact hmarked _ (by omega) (by omega)
  · simp only [List.mem_cons, List.not_mem_nil, or_false] at hb
    rcases hb with rfl | rfl | rfl | rfl
    all_goals exact hmarked _ (by omega) (by omega)

theorem utf8EncodeChar_append_inj {c c' : Char} {s s' : Bytes}
    (h : String.utf8EncodeChar c ++ s = String.utf8EncodeChar c' ++ s') : c = c' ∧ s = s' := by
  have hc : c = c' := by
    -- the decoder reads the first character, whatever follows it
    have hdecode := congrArg (fun s => ByteArray.utf8DecodeChar? s.toByteArray 0) h
    simpa [List.toByteArray_append, ByteArray.utf8DecodeChar?_utf8EncodeChar_append] using hdecode
  subst hc
  exact ⟨rfl, List.append_cancel_left h⟩

/-! ### Strings -/

variable {s : Bytes} {points points' : List Nat}

/-- A character that is written as it is does not start like an escape. -/
theorem utf8EncodeChar_append_ne {c : Char} {s' : Bytes} (hc : c ≠ '\\') :
    String.utf8EncodeChar c ++ s ≠ Byte.backslash :: s' := by
  intro h
  by_cases hascii : c.toNat < 0x80
  · rw [utf8EncodeChar_ascii hascii] at h
    have hbyte := congrArg UInt8.toNat (List.cons.inj h).1
    rw [UInt8.toNat_ofNat', Nat.mod_eq_of_lt (by omega)] at hbyte
    exact hc (Char.toNat_inj.1 hbyte)
  · have hbytes := le_of_mem_utf8EncodeChar (Nat.le_of_not_lt hascii)
    cases hutf8 : String.utf8EncodeChar c with
    | nil => exact String.utf8EncodeChar_ne_nil hutf8
    | cons b bytes =>
      rw [hutf8] at h hbytes
      have hle := hbytes b List.mem_cons_self
      rw [(List.cons.inj h).1] at hle
      exact absurd hle (by decide)

theorem escapeLetters_inj : ∀ e ∈ escapeLetters, e.1 ≠ 0x75 ∧
    ∀ e' ∈ escapeLetters, e.1 = e'.1 → e.2 = e'.2 := by
  decide

/-- **A string stands for one list of code points.** -/
theorem Characters.unique (h : Characters s points) (h' : Characters s points') :
    points = points' := by
  -- by the form of the first character: the texts start alike, so in both it has the same form
  induction h generalizing points' with
  | nil =>
    generalize hs : ([] : Bytes) = s' at h'
    cases h' with
    | nil => rfl
    | plain => simp at hs
    | letter => cases hs
    | digits => cases hs
  | @plain c s points _ _ hc _ ih =>
    generalize hs : String.utf8EncodeChar c ++ s = s' at h'
    cases h' with
    | nil => simp at hs
    | plain _ _ _ h' =>
      obtain ⟨rfl, rfl⟩ := utf8EncodeChar_append_inj hs
      rw [ih h']
    | letter => exact absurd hs (utf8EncodeChar_append_ne hc)
    | digits => exact absurd hs (utf8EncodeChar_append_ne hc)
  | @letter l c s points hl _ ih =>
    generalize hs : Byte.backslash :: l :: s = s' at h'
    cases h' with
    | nil => cases hs
    | plain _ _ hc => exact absurd hs.symm (utf8EncodeChar_append_ne hc)
    | letter hl' h' =>
      obtain ⟨rfl, rfl⟩ := List.cons.inj (List.cons.inj hs).2
      have hc := (escapeLetters_inj _ hl).2 _ hl' rfl
      exact congrArg₂ (fun c points => Char.toNat c :: points) hc (ih h')
    | digits =>
      obtain ⟨rfl, -⟩ := List.cons.inj (List.cons.inj hs).2
      exact absurd rfl (escapeLetters_inj _ hl).1
  | @digits digits s points hlength hhex _ ih =>
    generalize hs : Byte.backslash :: 0x75 :: (digits ++ s) = s' at h'
    cases h' with
    | nil => cases hs
    | plain _ _ hc => exact absurd hs.symm (utf8EncodeChar_append_ne hc)
    | letter hl =>
      obtain ⟨rfl, -⟩ := List.cons.inj (List.cons.inj hs).2
      exact absurd rfl (escapeLetters_inj _ hl).1
    | digits hlength' _ h' =>
      obtain ⟨rfl, rfl⟩ :=
        List.append_inj (List.cons.inj (List.cons.inj hs).2).2 (hlength.trans hlength'.symm)
      rw [ih h']

theorem printable_of_plain {c : Char} (hc : 0x20 ≤ c.toNat) :
    ∀ b ∈ String.utf8EncodeChar c, 0x20 ≤ b := by
  intro b hb
  by_cases hascii : c.toNat < 0x80
  · rw [utf8EncodeChar_ascii hascii] at hb
    rw [List.mem_singleton.1 hb, UInt8.le_iff_toNat_le, UInt8.toNat_ofNat',
      Nat.mod_eq_of_lt (by omega)]
    exact hc
  · have hle := le_of_mem_utf8EncodeChar (Nat.le_of_not_lt hascii) b hb
    exact UInt8.le_trans (by decide) hle

theorem printable_of_isHexDigit {b : UInt8} (h : Byte.isHexDigit b = true) : 0x20 ≤ b := by
  simp only [Byte.isHexDigit, Byte.isDigit, Bool.or_eq_true, Bool.and_eq_true, decide_eq_true_iff,
    UInt8.le_iff_toNat_le] at h ⊢
  have h0 : (0x20 : UInt8).toNat = 0x20 := rfl
  have h1 : (0x30 : UInt8).toNat = 0x30 := rfl
  have h2 : (0x41 : UInt8).toNat = 0x41 := rfl
  have h3 : (0x61 : UInt8).toNat = 0x61 := rfl
  omega

/-- **A string has no control character as it is.** -/
theorem Characters.printable (h : Characters s points) : ∀ b ∈ s, 0x20 ≤ b := by
  induction h with
  | nil => simp
  | plain hc _ _ _ ih => exact List.forall_mem_append.2 ⟨printable_of_plain hc, ih⟩
  | letter hl _ ih =>
    have hletters : ∀ e ∈ escapeLetters, 0x20 ≤ e.1 := by decide
    exact List.forall_mem_cons.2 ⟨by decide, List.forall_mem_cons.2 ⟨hletters _ hl, ih⟩⟩
  | digits _ hhex _ ih =>
    refine List.forall_mem_cons.2 ⟨by decide, List.forall_mem_cons.2 ⟨by decide, ?_⟩⟩
    exact List.forall_mem_append.2 ⟨fun d hd => printable_of_isHexDigit (hhex d hd), ih⟩

/-! ### Whole texts -/

/-- A byte of a text: no control character, but for those that are blank. -/
def IsLegible (b : UInt8) : Prop := 0x20 ≤ b ∨ b = 0x09 ∨ b = 0x0a ∨ b = 0x0d

instance (b : UInt8) : Decidable (IsLegible b) := inferInstanceAs (Decidable (_ ∨ _))

theorem IsBlank.legible (h : IsBlank s) : ∀ b ∈ s, IsLegible b := by
  intro b hb
  rcases h b hb with rfl | h
  · exact Or.inl (by decide)
  · exact Or.inr h

theorem IsDigits.legible (h : IsDigits s) : ∀ b ∈ s, IsLegible b := fun b hb =>
  Or.inl (printable_of_isHexDigit (by rw [Byte.isHexDigit, h.2 b hb]; rfl))

theorem IsNumber.legible (h : IsNumber s) : ∀ b ∈ s, IsLegible b := by
  obtain ⟨sign, whole, fraction, exponent, hsign, hwhole, hfraction, hexponent, rfl⟩ := h
  have hsigns : ∀ b ∈ sign, IsLegible b := by rcases hsign with rfl | rfl <;> decide
  have hfractions : ∀ b ∈ fraction, IsLegible b := by
    rcases hfraction with rfl | ⟨digits, hdigits, rfl⟩
    · simp
    · exact List.forall_mem_cons.2 ⟨by decide, hdigits.legible⟩
  have hexponents : ∀ b ∈ exponent, IsLegible b := by
    rcases hexponent with rfl | ⟨letter, sign, digits, hletter, hsign, hdigits, rfl⟩
    · simp
    · refine List.forall_mem_cons.2 ⟨?_, List.forall_mem_append.2 ⟨?_, hdigits.legible⟩⟩
      · rcases hletter with rfl | rfl <;> decide
      · rcases hsign with rfl | rfl | rfl <;> decide
  simp only [List.forall_mem_append]
  exact ⟨⟨⟨hsigns, hwhole.1.legible⟩, hfractions⟩, hexponents⟩

theorem legible_between {left right : UInt8} (hleft : IsLegible left) (h : ∀ b ∈ s, IsLegible b)
    (hright : IsLegible right) : ∀ b ∈ left :: (s ++ [right]), IsLegible b :=
  List.forall_mem_cons.2 ⟨hleft, List.forall_mem_append.2 ⟨h, List.forall_mem_singleton.2 hright⟩⟩

theorem Characters.legible (h : Characters s points) : ∀ b ∈ Bytes.quoted s, IsLegible b :=
  legible_between (by decide) (fun b hb => Or.inl (h.printable b hb)) (by decide)

theorem legible_joinWith {texts : List Bytes} (h : ∀ s ∈ texts, ∀ b ∈ s, IsLegible b) :
    ∀ b ∈ Bytes.joinWith [0x2c] texts, IsLegible b := by
  induction texts using Bytes.joinWith.induct with
  | case1 => simp [Bytes.joinWith]
  | case2 s => simpa [Bytes.joinWith] using h
  | case3 s t rest ih =>
    obtain ⟨hs, hrest⟩ := List.forall_mem_cons.1 h
    rw [Bytes.joinWith]
    exact List.forall_mem_append.2 ⟨List.forall_mem_append.2 ⟨hs, by decide⟩, ih hrest⟩

theorem Item.legible {i : Item} (hspaced : i.Spaced) (h : ∀ b ∈ i.text, IsLegible b) :
    ∀ b ∈ i.line, IsLegible b :=
  List.forall_mem_append.2 ⟨List.forall_mem_append.2 ⟨hspaced.1.legible, h⟩, hspaced.2.legible⟩

theorem Member.legible {m : Member} (hspaced : m.Spaced) (hname : Characters m.name m.points)
    (h : ∀ b ∈ m.text, IsLegible b) : ∀ b ∈ m.line, IsLegible b := by
  obtain ⟨hbefore, hafter, hitem⟩ := hspaced
  simp only [Member.line, List.forall_mem_append, List.forall_mem_cons]
  exact ⟨⟨⟨hbefore.legible, hname.legible⟩, hafter.legible⟩, by decide, Item.legible hitem h⟩

theorem Spells.legible {v : Json} (h : Spells v s) : ∀ b ∈ s, IsLegible b := by
  induction h with
  | null => decide
  | true => decide
  | false => decide
  | number h => exact h.legible
  | string h => exact h.legible
  | noElements h => exact legible_between (by decide) h.legible (by decide)
  | array hspaced _ ih =>
    refine legible_between (by decide) ?_ (by decide)
    refine legible_joinWith (List.forall_mem_map.2 fun i hi => ?_)
    exact Item.legible (hspaced i hi) (ih i hi)
  | noMembers h => exact legible_between (by decide) h.legible (by decide)
  | object hspaced hnames _ ih =>
    refine legible_between (by decide) ?_ (by decide)
    refine legible_joinWith (List.forall_mem_map.2 fun m hm => ?_)
    exact Member.legible (hspaced m hm) (hnames m hm) (ih m hm)

/-- **A text has no control character but tabs, newlines and carriage returns.** -/
theorem IsText.legible {v : Json} (h : IsText v s) : ∀ b ∈ s, IsLegible b := by
  obtain ⟨before, text, after, hbefore, hv, hafter, rfl⟩ := h
  simp only [List.forall_mem_append]
  exact ⟨⟨hbefore.legible, hv.legible⟩, hafter.legible⟩

end Json

end BuildOrder
