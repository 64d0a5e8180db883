import BuildOrder.Log.Record
import BuildOrder.Proofs.Json

/-!
# Records as JSON lines

* `isNumber_signedDecimal`: the decimal digits of an integer are a JSON number.
* `Record.characters_message`: an escaped message is a JSON string that stands for the message, if
  it has no other control characters than tabs, newlines and carriage returns.
* `Record.jsonLine_spec`: **the line of a record is a JSON object with the message in it if and only
  if the message has no other control characters**; it is one line in any case.
* `Record.exists_notText`: the others are written as they are.
-/

namespace BuildOrder

/-! ### Numbers -/

namespace Json

open Bytes (decimal signedDecimal)

theorem isDigits_decimal (n : Nat) : IsDigits (decimal n) := by
  refine ⟨by simp [decimal, Nat.toDigits_ne_nil], List.forall_mem_map.2 fun c hc => ?_⟩
  have hdigit := Nat.isDigit_of_mem_toDigits (by decide) (by decide) hc
  simp only [Char.isDigit, Bool.and_eq_true, decide_eq_true_iff, ge_iff_le,
    UInt32.le_iff_toNat_le] at hdigit
  have hlast : '9'.val.toNat = 57 := rfl
  have hbyte : c.toUInt8.toNat = c.val.toNat := by
    rw [Char.toUInt8, UInt32.toNat_toUInt8]
    omega
  simp only [Byte.isDigit, Bool.and_eq_true, decide_eq_true_iff, UInt8.le_iff_toNat_le, hbyte]
  exact ⟨hdigit.1, hdigit.2⟩

/-- The digits of a number start with a zero only if it is zero. -/
theorem head_decimal {n : Nat} (hn : 0 < n) : (decimal n).head? ≠ some 0x30 := by
  -- the first digit is that of the number without its last digit
  induction n using Nat.strongRecOn with
  | ind n ih =>
    rw [decimal, Nat.toDigits_eq_if (by decide)]
    split
    · rename_i hlt
      have hdigits : ∀ d < 10, 0 < d → (Nat.digitChar d).toUInt8 ≠ 0x30 := by decide
      simpa using hdigits n hlt hn
    · rename_i hge
      have hne : (Nat.toDigits 10 (n / 10)).map Char.toUInt8 ≠ [] := (isDigits_decimal (n / 10)).1
      rw [List.map_append, List.head?_append_of_ne_nil _ hne]
      exact ih (n / 10) (by omega) (by omega)

theorem isWhole_decimal (n : Nat) : IsWhole (decimal n) := by
  refine ⟨isDigits_decimal n, fun hhead => ?_⟩
  rcases Nat.eq_zero_or_pos n with rfl | hn
  · rfl
  · exact absurd hhead (head_decimal hn)

theorem isNumber_signedDecimal (z : Int) : IsNumber (signedDecimal z) := by
  cases z with
  | ofNat n =>
    exact ⟨[], decimal n, [], [], Or.inl rfl, isWhole_decimal n, Or.inl rfl, Or.inl rfl,
      by simp [signedDecimal]⟩
  | negSucc n =>
    exact ⟨[0x2d], decimal (n + 1), [], [], Or.inr rfl, isWhole_decimal (n + 1), Or.inl rfl,
      Or.inl rfl, by simp [signedDecimal]⟩

/-! ### Strings -/

/-- A byte of a character is an ASCII one only if the character is. -/
theorem toNat_eq_of_mem_utf8EncodeChar {c : Char} {b : UInt8} (hb : b < 0x80)
    (h : b ∈ String.utf8EncodeChar c) : c.toNat = b.toNat := by
  by_cases hascii : c.toNat < 0x80
  · rw [utf8EncodeChar_ascii hascii] at h
    rw [List.mem_singleton.1 h, UInt8.toNat_ofNat', Nat.mod_eq_of_lt (by omega)]
  · exact absurd (le_of_mem_utf8EncodeChar (Nat.le_of_not_lt hascii) b h) (UInt8.not_le.2 hb)

theorem characters_letters {s : Bytes} (h : ∀ b ∈ s, Byte.isAlpha b = true) :
    Characters s (s.map UInt8.toNat) := by
  induction s with
  | nil => exact .nil
  | cons b s ih =>
    obtain ⟨hb, hs⟩ := List.forall_mem_cons.1 h
    have hrange : 0x20 ≤ b.toNat ∧ b.toNat < 0x80 ∧ b.toNat ≠ 0x22 ∧ b.toNat ≠ 0x5c := by
      simp only [Byte.isAlpha, Byte.isUpper, Byte.isLower, Bool.or_eq_true, Bool.and_eq_true,
        decide_eq_true_iff, UInt8.le_iff_toNat_le, UInt8.reduceToNat] at hb
      omega
    obtain ⟨hprintable, hascii, hquote, hbackslash⟩ := hrange
    have hpoint : (Char.ofUInt8 b).toNat = b.toNat := UInt8.toNat_toUInt32 b
    have hbytes : String.utf8EncodeChar (Char.ofUInt8 b) = [b] := by
      rw [utf8EncodeChar_ascii (by omega), hpoint, UInt8.ofNat_toNat]
    have hcharacter := Characters.plain (c := Char.ofUInt8 b) (by omega)
      (fun heq => hquote (by rw [← hpoint, heq]; rfl))
      (fun heq => hbackslash (by rw [← hpoint, heq]; rfl)) (ih hs)
    rw [hbytes, hpoint] at hcharacter
    exact hcharacter

/-- Points that are no surrogates are not joined. -/
theorem joinHalves_eq {points : List Nat} (h : ∀ p ∈ points, p < 0xd800 ∨ 0xe000 ≤ p) :
    joinHalves points = points := by
  induction points with
  | nil => rfl
  | cons p points ih =>
    obtain ⟨hp, hpoints⟩ := List.forall_mem_cons.1 h
    cases points with
    | nil => rfl
    | cons q points => rw [joinHalves, if_neg (by omega), ih hpoints]

end Json

namespace Log

namespace Record

open Json (Characters)

variable {c : Char} {message : List Char}

/-! ### Escaped messages -/

/-- The bytes that are escaped. -/
def escaped : List UInt8 := [Byte.quote, Byte.backslash, Byte.newline, 0x0d, 0x09]

theorem escapeByte_of_notMem {b : UInt8} (h : b ∉ escaped) : escapeByte b = [b] := by
  simp only [escaped, List.mem_cons, List.not_mem_nil, or_false, not_or] at h
  obtain ⟨hquote, hbackslash, hnewline, hreturn, htab⟩ := h
  rw [escapeByte, if_neg (not_or.2 ⟨hquote, hbackslash⟩), if_neg hnewline, if_neg hreturn,
    if_neg htab]

theorem newline_notMem_escapeByte (b : UInt8) : Byte.newline ∉ escapeByte b := by
  by_cases hb : b ∈ escaped
  · have hall : ∀ b ∈ escaped, Byte.newline ∉ escapeByte b := by decide
    exact hall b hb
  · rw [escapeByte_of_notMem hb, List.mem_singleton]
    rintro rfl
    exact hb (by decide)

/-- A character that is not escaped. -/
theorem escape_plain (h : ∀ b ∈ escaped, c.toNat ≠ b.toNat) :
    (String.utf8EncodeChar c).flatMap escapeByte = String.utf8EncodeChar c := by
  have hbytes : ∀ b ∈ String.utf8EncodeChar c, escapeByte b = [b] := by
    intro b hb
    refine escapeByte_of_notMem fun hmem => h b hmem ?_
    have hascii : ∀ b ∈ escaped, b < 0x80 := by decide
    exact Json.toNat_eq_of_mem_utf8EncodeChar (hascii b hmem) hb
  rw [List.flatMap_congr hbytes, List.flatMap_singleton']

/-- The character is no control character, or one that an escape of a letter stands for. -/
def IsPrintable (c : Char) : Prop := 0x20 ≤ c.toNat ∨ c = '\t' ∨ c = '\n' ∨ c = '\r'

instance (c : Char) : Decidable (IsPrintable c) := inferInstanceAs (Decidable (_ ∨ _))

theorem characters_cons {s : Bytes} {points : List Nat} (hc : IsPrintable c)
    (hs : Characters s points) :
    Characters ((String.utf8EncodeChar c).flatMap escapeByte ++ s) (c.toNat :: points) := by
  by_cases hescaped : ∃ b ∈ escaped, c.toNat = b.toNat
  · -- one of the five letters
    obtain ⟨b, hb, hcb⟩ := hescaped
    have hc : c = Char.ofUInt8 b := Char.toNat_inj.1 (hcb.trans (UInt8.toNat_toUInt32 b).symm)
    simp only [escaped, List.mem_cons, List.not_mem_nil, or_false] at hb
    rcases hb with rfl | rfl | rfl | rfl | rfl
    all_goals
      rw [hc]
      exact .letter (by decide) hs
  · have hplain : ∀ b ∈ escaped, c.toNat ≠ b.toNat := fun b hb heq => hescaped ⟨b, hb, heq⟩
    rw [escape_plain hplain]
    refine .plain ?_ ?_ ?_ hs
    · rcases hc with hc | rfl | rfl | rfl
      · exact hc
      · exact absurd rfl (hplain 0x09 (by decide))
      · exact absurd rfl (hplain Byte.newline (by decide))
      · exact absurd rfl (hplain 0x0d (by decide))
    · rintro rfl
      exact hplain Byte.quote (by decide) rfl
    · rintro rfl
      exact hplain Byte.backslash (by decide) rfl

/-- **An escaped message is a string that stands for the message.** -/
theorem characters_message (h : ∀ c ∈ message, IsPrintable c) :
    Characters ((message.flatMap String.utf8EncodeChar).flatMap escapeByte)
      (message.map Char.toNat) := by
  induction message with
  | nil => exact .nil
  | cons c message ih =>
    obtain ⟨hc, hmessage⟩ := List.forall_mem_cons.1 h
    rw [List.flatMap_cons, List.flatMap_append]
    exact characters_cons hc (ih hmessage)

theorem isLegible_ofNat_iff (hc : c.toNat < 0x80) :
    Json.IsLegible (UInt8.ofNat c.toNat) ↔ IsPrintable c := by
  have hbyte : (UInt8.ofNat c.toNat).toNat = c.toNat := by
    rw [UInt8.toNat_ofNat', Nat.mod_eq_of_lt (by omega)]
  have hsame : ∀ b : UInt8, UInt8.ofNat c.toNat = b ↔ c = Char.ofUInt8 b := by
    intro b
    rw [← UInt8.toNat_inj, hbyte, ← Char.toNat_inj]
    exact Iff.of_eq (congrArg _ (UInt8.toNat_toUInt32 b).symm)
  rw [Json.IsLegible, hsame, hsame, hsame, UInt8.le_iff_toNat_le, hbyte]
  exact Iff.rfl

/-- Any other control character is written as it is. -/
theorem exists_of_not_isPrintable (h : ¬ IsPrintable c) :
    ∃ b, (String.utf8EncodeChar c).flatMap escapeByte = [b] ∧ ¬ Json.IsLegible b := by
  have hcontrol : ¬ 0x20 ≤ c.toNat := fun hle => h (Or.inl hle)
  have hascii : c.toNat < 0x80 := by omega
  have hlegible : ¬ Json.IsLegible (UInt8.ofNat c.toNat) := (isLegible_ofNat_iff hascii).not.2 h
  -- what is escaped is legible, so the character is none of these
  have hescaped : ∀ b ∈ escaped, Json.IsLegible b := by decide
  have hplain : ∀ b ∈ escaped, c.toNat ≠ b.toNat := by
    intro b hb heq
    rw [heq, UInt8.ofNat_toNat] at hlegible
    exact hlegible (hescaped b hb)
  exact ⟨_, by rw [escape_plain hplain, Json.utf8EncodeChar_ascii hascii], hlegible⟩

/-! ### Lines -/

variable {clock : Clock} {r : Record}

theorem isAlpha_name (level : Level) : ∀ b ∈ level.name, Byte.isAlpha b = true := by
  cases level <;> decide

/-- What is written between the quotes of the message. -/
def body (r : Record) : Bytes := r.message.flatMap escapeByte

/-- The line of a record without its end. -/
def jsonText (clock : Clock) (r : Record) : Bytes :=
  ascii "\x7b\"ts\":" ++ Bytes.signedDecimal clock.milliseconds ++ ascii ",\"level\":\"" ++
    r.level.name ++ ascii "\",\"module\":\"" ++ r.component ++ ascii "\",\"msg\":" ++
    Bytes.quoted r.body ++ ascii "\x7d"

theorem jsonLine_eq (clock : Clock) (r : Record) :
    r.jsonLine clock = r.jsonText clock ++ [Byte.newline] := by
  simp only [jsonLine, jsonText, body, Bytes.quoted, List.append_assoc, List.cons_append,
    List.nil_append]
  rfl

/-- The members of the object that a line writes. -/
def members (clock : Clock) (r : Record) (message : List Char) : List Json.Member :=
  let points (s : Bytes) := s.map UInt8.toNat
  let member (name : String) (value : Json) (text : Bytes) : Json.Member :=
    { value, text, points := points (ascii name), name := ascii name }
  [member "ts" (.number (Bytes.signedDecimal clock.milliseconds))
      (Bytes.signedDecimal clock.milliseconds),
    member "level" (.string (points r.level.name)) (Bytes.quoted r.level.name),
    member "module" (.string (points r.component)) (Bytes.quoted r.component),
    member "msg" (.string (message.map Char.toNat)) (Bytes.quoted r.body)]

/-- The value that the line of a record stands for. -/
def json (clock : Clock) (r : Record) (message : List Char) : Json :=
  .object ((r.members clock message).map fun m => (m.points, m.value))

theorem jsonText_eq (clock : Clock) (r : Record) (message : List Char) : r.jsonText clock =
    0x7b :: (Bytes.joinWith [0x2c] ((r.members clock message).map Json.Member.line) ++ [0x7d]) := by
  simp only [jsonText, members, List.map_cons, List.map_nil, Bytes.joinWith, Json.Member.line,
    Json.Item.line, Bytes.quoted, List.append_assoc, List.cons_append, List.nil_append,
    List.append_nil]
  rfl

theorem newline_notMem_signedDecimal (z : Int) : Byte.newline ∉ Bytes.signedDecimal z := by
  have hdigits : ∀ n, Byte.newline ∉ Bytes.decimal n := fun n hmem =>
    absurd ((Json.isDigits_decimal n).2 _ hmem) (by decide)
  cases z with
  | ofNat n => exact hdigits n
  | negSucc n =>
    rw [Bytes.signedDecimal, List.mem_cons, not_or]
    exact ⟨by decide, hdigits (n + 1)⟩

theorem newline_notMem_jsonText (clock : Clock)
    (hcomponent : ∀ b ∈ r.component, Byte.isAlpha b = true) :
    Byte.newline ∉ r.jsonText clock := by
  have hletters : ∀ s : Bytes, (∀ b ∈ s, Byte.isAlpha b = true) → Byte.newline ∉ s :=
    fun s hs hmem => absurd (hs _ hmem) (by decide)
  have hbody : Byte.newline ∉ r.body := fun hmem =>
    have ⟨b, _, hb⟩ := List.mem_flatMap.1 hmem
    newline_notMem_escapeByte b hb
  obtain ⟨hstart, hlevel, hmodule, hmsg, hend, hquote⟩ :
      Byte.newline ∉ ascii "\x7b\"ts\":" ∧ Byte.newline ∉ ascii ",\"level\":\"" ∧
        Byte.newline ∉ ascii "\",\"module\":\"" ∧ Byte.newline ∉ ascii "\",\"msg\":" ∧
          Byte.newline ∉ ascii "\x7d" ∧ Byte.newline ≠ Byte.quote := by decide
  have hname := hletters _ (isAlpha_name r.level)
  simp only [jsonText, Bytes.quoted, List.mem_append, List.mem_cons, List.not_mem_nil, or_false,
    not_or]
  exact ⟨⟨⟨⟨⟨⟨⟨⟨hstart, newline_notMem_signedDecimal _⟩, hlevel⟩, hname⟩, hmodule⟩,
    hletters _ hcomponent⟩, hmsg⟩, ⟨hquote, hbody⟩, hquote⟩, hend⟩

theorem spells_letters {s : Bytes} (h : ∀ b ∈ s, Byte.isAlpha b = true) :
    Json.Spells (.string (s.map UInt8.toNat)) (Bytes.quoted s) := by
  have hspells := Json.Spells.string (Json.characters_letters h)
  rwa [Json.joinHalves_eq (List.forall_mem_map.2 fun b _ => Or.inl (by have := b.toNat_lt; omega))]
    at hspells

theorem spells_message (hmessage : r.message = message.flatMap String.utf8EncodeChar)
    (h : ∀ c ∈ message, IsPrintable c) :
    Json.Spells (.string (message.map Char.toNat)) (Bytes.quoted r.body) := by
  have hspells := Json.Spells.string (characters_message h)
  have hwhole : ∀ c ∈ message, c.toNat < 0xd800 ∨ 0xe000 ≤ c.toNat := by
    intro c _
    have hvalid := c.valid
    unfold UInt32.isValidChar Nat.isValidChar at hvalid
    rw [Char.toNat]
    omega
  rwa [Json.joinHalves_eq (List.forall_mem_map.2 hwhole), ← hmessage] at hspells

/-- **The line of a record is a JSON object that has the message in it, if the message has no other
control characters** than those that escapes of a letter stand for. -/
theorem isText_jsonText (clock : Clock) (hcomponent : ∀ b ∈ r.component, Byte.isAlpha b = true)
    (hmessage : r.message = message.flatMap String.utf8EncodeChar)
    (h : ∀ c ∈ message, IsPrintable c) : Json.IsText (r.json clock message) (r.jsonText clock) := by
  have hblank : Json.IsBlank [] := by simp [Json.IsBlank]
  have hspaced : ∀ m ∈ r.members clock message, m.Spaced := by
    simp [members, Json.Member.Spaced, Json.Item.Spaced, hblank]
  have hnames : ∀ m ∈ r.members clock message, Characters m.name m.points := by
    simp only [members, List.forall_mem_cons]
    exact ⟨Json.characters_letters (by decide), Json.characters_letters (by decide),
      Json.characters_letters (by decide), Json.characters_letters (by decide), by simp⟩
  have hvalues : ∀ m ∈ r.members clock message, Json.Spells m.value m.text := by
    simp only [members, List.forall_mem_cons]
    exact ⟨.number (Json.isNumber_signedDecimal _), spells_letters (isAlpha_name r.level),
      spells_letters hcomponent, spells_message hmessage h, by simp⟩
  have hobject := Json.Spells.object hspaced hnames hvalues
  rw [← jsonText_eq] at hobject
  exact ⟨[], r.jsonText clock, [], hblank, hobject, hblank, by simp⟩

theorem isPrintable_of_isText {v : Json}
    (hmessage : r.message = message.flatMap String.utf8EncodeChar)
    (h : Json.IsText v (r.jsonText clock)) : ∀ c ∈ message, IsPrintable c := by
  intro c hc
  by_contra hcontrol
  obtain ⟨b, hescaped, hlegible⟩ := exists_of_not_isPrintable hcontrol
  have hb : b ∈ r.body := by
    rw [body, hmessage, List.flatMap_assoc, List.mem_flatMap]
    exact ⟨c, hc, by rw [hescaped]; exact List.mem_singleton_self b⟩
  refine hlegible (h.legible b ?_)
  simp [jsonText, Bytes.quoted, hb]

/-- What the line of a record ends with. -/
theorem message_suffix (clock : Clock) (r : Record) :
    ascii ",\"msg\":" ++ Bytes.quoted r.body ++ ascii "\x7d" <:+ r.jsonText clock := by
  refine ⟨ascii "\x7b\"ts\":" ++ Bytes.signedDecimal clock.milliseconds ++ ascii ",\"level\":\"" ++
    r.level.name ++ ascii "\",\"module\":\"" ++ r.component ++ [Byte.quote], ?_⟩
  simp only [jsonText, List.append_assoc]
  rfl

/-- **The line of a record is JSON if and only if its message has no control characters other than
tabs, newlines and carriage returns.** It is one line in any case. If it is JSON, it is an object
with the level, the component and the message in it, and the text of the message stands for nothing
else. -/
theorem jsonLine_spec (clock : Clock) (r : Record) {message : List Char}
    (hcomponent : ∀ b ∈ r.component, Byte.isAlpha b = true)
    (hmessage : r.message = message.flatMap String.utf8EncodeChar) :
    ∃ text, r.jsonLine clock = text ++ [Byte.newline] ∧ Byte.newline ∉ text ∧
      ascii ",\"msg\":" ++ Bytes.quoted r.body ++ ascii "\x7d" <:+ text ∧
      ((∃ v, Json.IsText v text) ↔ ∀ c ∈ message, IsPrintable c) ∧
      ((∀ c ∈ message, IsPrintable c) → Json.IsText (r.json clock message) text ∧
        ∀ points, Characters r.body points ↔ points = message.map Char.toNat) := by
  have htext := isText_jsonText clock hcomponent hmessage
  refine ⟨r.jsonText clock, jsonLine_eq clock r, newline_notMem_jsonText clock hcomponent,
    message_suffix clock r, ⟨?_, fun h => ⟨_, htext h⟩⟩, fun h => ⟨htext h, fun points => ?_⟩⟩
  · rintro ⟨v, hv⟩
    exact isPrintable_of_isText hmessage hv
  · have hstands : Characters r.body (message.map Char.toNat) := by
      rw [body, hmessage]
      exact characters_message h
    exact ⟨fun h' => h'.unique hstands, fun h' => h' ▸ hstands⟩

/-- A message with each of the characters that are escaped, and one of two bytes. -/
def pathMessage : List Char := "no \"é\"\r\n\tin C:\\go".toList

def pathRecord : Record where
  level := .error
  component := ascii "resolve"
  message := pathMessage.flatMap String.utf8EncodeChar

theorem jsonLine_spec_path :
    (∀ b ∈ pathRecord.component, Byte.isAlpha b = true) ∧
      pathRecord.message = pathMessage.flatMap String.utf8EncodeChar ∧
      ∃ text, pathRecord.jsonLine ⟨[], 1700000000000⟩ = text ++ [Byte.newline] ∧
        Byte.newline ∉ text ∧ Json.IsText (pathRecord.json ⟨[], 1700000000000⟩ pathMessage) text ∧
          ∀ points, Characters pathRecord.body points ↔ points = pathMessage.map Char.toNat := by
  have hcomponent : ∀ b ∈ pathRecord.component, Byte.isAlpha b = true := by decide
  have hprintable : ∀ c ∈ pathMessage, IsPrintable c := by decide
  obtain ⟨text, hline, hnewline, -, -, htext⟩ :=
    jsonLine_spec ⟨[], 1700000000000⟩ pathRecord hcomponent rfl
  exact ⟨hcomponent, rfl, text, hline, hnewline, htext hprintable⟩

/-- **A line need not be JSON**: the message has a control character that is written as it is. -/
theorem exists_notText : ∃ r : Record, (∀ b ∈ r.component, Byte.isAlpha b = true) ∧
    r.message = ['\x01'].flatMap String.utf8EncodeChar ∧
    ∀ clock text v, r.jsonLine clock = text ++ [Byte.newline] → ¬ Json.IsText v text := by
  have hmessage : [0x01] = ['\x01'].flatMap String.utf8EncodeChar := rfl
  refine ⟨⟨.info, ascii "resolve", [0x01]⟩, by decide, hmessage, fun clock text v hline htext => ?_⟩
  rw [jsonLine_eq] at hline
  rw [← List.append_cancel_right hline] at htext
  exact absurd (isPrintable_of_isText hmessage htext _ List.mem_cons_self) (by decide)

end Record

end Log

end BuildOrder
