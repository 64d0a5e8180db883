import BuildOrder.Config

/-!
# Configuration files

A configuration file has sections, each with keys whose values are strings or arrays of strings:
a small part of TOML. White space and comments may stand between sections, entries and items.

* `Config.parse`: the configuration of a text, or the first fault in it and its line.
* `Config.load`: the configuration of a file.
-/

namespace BuildOrder

/-- What is wrong with a configuration file. -/
inductive SyntaxProblem where
  | expectedString
  | openString
  | expectedArray
  | expectedItem
  | expectedComma
  | openArray
  | expectedKey
  | expectedEquals
  | unknownKey (key owner : Bytes)
  | expectedSection
  | openSection
  | unknownSection (name : Bytes)
deriving DecidableEq, Repr

def SyntaxProblem.message : SyntaxProblem → Bytes
  | expectedString => ascii "Expected string"
  | openString => ascii "Unterminated string"
  | expectedArray => ascii "Expected array"
  | expectedItem => ascii "Expected string in array"
  | expectedComma => ascii "Expected ',' or ']' in array"
  | openArray => ascii "Expected closing bracket"
  | expectedKey => ascii "Expected key"
  | expectedEquals => ascii "Expected '=' after key"
  | unknownKey key name => ascii "Unknown key '" ++ key ++ ascii "' in [" ++ name ++ ascii "]"
  | expectedSection => ascii "Expected section header"
  | openSection => ascii "Expected ']' after section name"
  | unknownSection name => ascii "Unknown section [" ++ name ++ ascii "]"

/-- A problem, the line that was reached, and the text that is left where the reader stops. -/
structure LineFault where
  line : Nat
  problem : SyntaxProblem
  rest : Bytes
deriving DecidableEq, Repr

def LineFault.message (f : LineFault) : Bytes :=
  ascii "Line " ++ Bytes.decimal f.line ++ ascii ": " ++ f.problem.message

namespace Config

/-! ### Blanks -/

/-- The line after a byte. -/
def lineAfter (line : Nat) (b : UInt8) : Nat := if b = Byte.newline then line + 1 else line

/-- Skips white space. -/
def skipSpace (line : Nat) : Bytes → Nat × Bytes
  | [] => (line, [])
  | b :: s => if Byte.isSpace b then skipSpace (lineAfter line b) s else (line, b :: s)

/-- Skips white space and comments. -/
def skipBlanks (inComment : Bool) (line : Nat) : Bytes → Nat × Bytes
  | [] => (line, [])
  | b :: s =>
    if inComment then skipBlanks (b != Byte.newline) (lineAfter line b) s
    else if Byte.isSpace b then skipBlanks false (lineAfter line b) s
    else if b = 0x23 then skipBlanks true line s
    else (line, b :: s)

theorem skipSpace_length (line : Nat) (s : Bytes) : (skipSpace line s).2.length ≤ s.length := by
  induction s generalizing line with
  | nil => simp [skipSpace]
  | cons b s ih =>
    rw [skipSpace]
    split
    · exact Nat.le_succ_of_le (ih _)
    · simp

theorem skipSpace_rest {line line' : Nat} {s rest : Bytes} (h : skipSpace line s = (line', rest)) :
    rest.length ≤ s.length := by
  have := skipSpace_length line s
  rwa [h] at this

theorem skipBlanks_length (inComment : Bool) (line : Nat) (s : Bytes) :
    (skipBlanks inComment line s).2.length ≤ s.length := by
  induction s generalizing inComment line with
  | nil => simp [skipBlanks]
  | cons b s ih =>
    rw [skipBlanks]
    split
    · exact Nat.le_succ_of_le (ih _ _)
    · split
      · exact Nat.le_succ_of_le (ih _ _)
      · split
        · exact Nat.le_succ_of_le (ih _ _)
        · simp

theorem skipBlanks_rest {inComment : Bool} {line line' : Nat} {s rest : Bytes}
    (h : skipBlanks inComment line s = (line', rest)) : rest.length ≤ s.length := by
  have := skipBlanks_length inComment line s
  rwa [h] at this

/-! ### Values -/

/-- The byte that a letter after a backslash stands for; any other byte stands for itself. -/
def unescape (b : UInt8) : UInt8 :=
  if b = 0x6e then Byte.newline
  else if b = 0x74 then 0x09
  else if b = 0x72 then 0x0d
  else b

/-- The text up to the closing quote, and what follows. A newline ends it before that, unless a
backslash stands before the newline; then there is only what is left. -/
def stringBody : Bytes → Except Bytes (Bytes × Bytes)
  | [] => .error []
  | b :: s =>
    if b = Byte.quote then .ok ([], s)
    else if b = Byte.newline then .error (b :: s)
    else if b = Byte.backslash then
      match s with
      | [] => .error []
      | e :: s => (stringBody s).map fun (text, rest) => (unescape e :: text, rest)
    else (stringBody s).map fun (text, rest) => (b :: text, rest)

theorem map_eq_ok {ε α β : Type} {x : Except ε α} {f : α → β} {b : β} :
    x.map f = .ok b ↔ ∃ a, x = .ok a ∧ f a = b := by
  cases x <;> simp [Except.map]

theorem stringBody_length {s text rest : Bytes} (h : stringBody s = .ok (text, rest)) :
    rest.length < s.length := by
  fun_induction stringBody s generalizing text rest with
  | case1 => cases h
  | case2 =>
    simp only [Except.ok.injEq, Prod.mk.injEq] at h
    simp [h.2]
  | case3 => cases h
  | case4 => cases h
  | case5 _ _ _ s ih =>
    simp only [map_eq_ok, Prod.mk.injEq, Prod.exists] at h
    obtain ⟨text', rest', hs, -, rfl⟩ := h
    have := ih hs
    simp only [List.length_cons]
    omega
  | case6 b s _ _ _ ih =>
    simp only [map_eq_ok, Prod.mk.injEq, Prod.exists] at h
    obtain ⟨text', rest', hs, -, rfl⟩ := h
    have := ih hs
    simp only [List.length_cons]
    omega

/-- A value and what follows it, fewer than `bound` bytes, with the line reached. -/
structure Read (α : Type) (bound : Nat) where
  value : α
  line : Nat
  rest : Bytes
  shorter : rest.length < bound

/-- A string in quotes. -/
def readString (line : Nat) (s : Bytes) : Except LineFault (Read Bytes s.length) :=
  match s with
  | [] => .error ⟨line, .expectedString, []⟩
  | b :: s =>
    if b = Byte.quote then
      match h : stringBody s with
      | .error rest => .error ⟨line, .openString, rest⟩
      | .ok (text, rest) => .ok ⟨text, line, rest, by
          have := stringBody_length h
          simp only [List.length_cons]
          omega⟩
    else .error ⟨line, .expectedString, b :: s⟩

/-- What follows an item, the blanks after it and one byte more is shorter than what stood at its
opening quote. -/
theorem length_after_item (b : UInt8) {c : UInt8} {line line' : Nat} {s text rest rest' : Bytes}
    (h : stringBody s = .ok (text, rest)) (h' : skipBlanks false line rest = (line', c :: rest')) :
    rest'.length < (b :: s).length := by
  have := stringBody_length h
  have := skipBlanks_rest h'
  simp only [List.length_cons] at *
  omega

/-- The items up to the closing bracket of an array, from the first one on. -/
def readItems (line : Nat) (s : Bytes) : Except LineFault (Read (List Bytes) s.length) :=
  match s with
  | [] => .error ⟨line, .openArray, []⟩
  | b :: s =>
    if b = 0x5d then .ok ⟨[], line, s, by simp⟩
    else if b ≠ Byte.quote then .error ⟨line, .expectedItem, b :: s⟩
    else
      match h : stringBody s with
      | .error rest => .error ⟨line, .openString, rest⟩
      | .ok (text, rest) =>
        match h' : skipBlanks false line rest with
        | (line, 0x2c :: rest') => do
          let next := skipBlanks false line rest'
          let items ← readItems next.1 next.2
          return ⟨text :: items.value, items.line, items.rest,
            Nat.lt_of_lt_of_le items.shorter (Nat.le_of_lt (Nat.lt_of_le_of_lt
              (skipBlanks_length false line rest') (length_after_item b h h')))⟩
        | (line, 0x5d :: rest') => .ok ⟨[text], line, rest', length_after_item b h h'⟩
        | (line, rest') => .error ⟨line, .expectedComma, rest'⟩
termination_by s.length
decreasing_by
  exact Nat.lt_of_le_of_lt (skipBlanks_length false line rest') (length_after_item b h h')

/-- The items of an array. -/
def readArray (line : Nat) (s : Bytes) : Except LineFault (Read (List Bytes) s.length) :=
  match s with
  | [] => .error ⟨line, .expectedArray, []⟩
  | b :: s =>
    if b = 0x5b then do
      let start := skipBlanks false line s
      let items ← readItems start.1 start.2
      return ⟨items.value, items.line, items.rest, by
        have := skipBlanks_length false line s
        have := items.shorter
        simp only [List.length_cons, start] at *
        omega⟩
    else .error ⟨line, .expectedArray, b :: s⟩

/-! ### Entries -/

/-- What a key sets: a string or a list. -/
inductive Setting where
  | text (set : Bytes → Config → Config)
  | list (set : List Bytes → Config → Config)

/-- The settings by section and key. -/
def settings : List ((Bytes × Bytes) × Setting) :=
  [((ascii "stdlib", ascii "root"), .text fun v c => { c with stdlibRoot := v }),
    ((ascii "stdlib", ascii "allowed-shadows"), .list fun v c => { c with allowedShadows := v }),
    ((ascii "workspace", ascii "roots"), .list fun v c => { c with roots := v }),
    ((ascii "workspace", ascii "exclude"), .text fun v c => { c with exclude := v }),
    ((ascii "literals", ascii "exempt"), .list fun v c => { c with exempt := v }),
    ((ascii "context", ascii "os"), .text fun v c => { c with os := v }),
    ((ascii "context", ascii "arch"), .text fun v c => { c with arch := v }),
    ((ascii "context", ascii "tags"), .list fun v c => { c with tags := some v })]

def sectionNames : List Bytes := ["stdlib", "workspace", "literals", "context"].map ascii

/-- A byte of a section name or key. -/
def isNameByte (b : UInt8) : Bool := Byte.isAlphanumeric b || b == 0x5f || b == 0x2d

/-- The configuration after an entry's value is read. -/
def readValue (setting : Setting) (c : Config) (line : Nat) (s : Bytes) :
    Except LineFault (Read Config s.length) :=
  match setting with
  | .text set => do
    let v ← readString line s
    return ⟨set v.value c, v.line, v.rest, v.shorter⟩
  | .list set => do
    let v ← readArray line s
    return ⟨set v.value c, v.line, v.rest, v.shorter⟩

/-- The configuration after one entry `key = value` of a section. -/
def readEntry (name : Bytes) (c : Config) (line : Nat) (s : Bytes) :
    Except LineFault (Read Config s.length) := do
  let key := s.takeWhile isNameByte
  if key = [] then throw ⟨line, .expectedKey, s⟩
  match h : skipSpace line (s.drop key.length) with
  | (line, 0x3d :: rest) =>
    let start := skipSpace line rest
    match settings.lookup (name, key) with
    | none => throw ⟨start.1, .unknownKey key name, start.2⟩
    | some setting =>
      let read ← readValue setting c start.1 start.2
      return ⟨read.value, read.line, read.rest, by
        have := read.shorter
        have := skipSpace_length line rest
        have := skipSpace_rest h
        simp only [List.length_cons, List.length_drop, start] at *
        omega⟩
  | (line, rest) => throw ⟨line, .expectedEquals, rest⟩

/-- The configuration after the entries of a section, up to the next one. -/
def readEntries (name : Bytes) (c : Config) (line : Nat) (s : Bytes) :
    Except LineFault (Read Config (s.length + 1)) :=
  match h : skipBlanks false line s with
  | (line, []) => .ok ⟨c, line, [], by simp⟩
  | (line, b :: rest) =>
    have := skipBlanks_rest h
    if b = 0x5b then .ok ⟨c, line, b :: rest, by simp only [List.length_cons] at *; omega⟩
    else do
      let entry ← readEntry name c line (b :: rest)
      let more ← readEntries name entry.value entry.line entry.rest
      return ⟨more.value, more.line, more.rest, by
        have := entry.shorter
        have := more.shorter
        simp only [List.length_cons] at *
        omega⟩
termination_by s.length
decreasing_by
  have := entry.shorter
  simp only [List.length_cons] at *
  omega

/-! ### Sections -/

/-- The configuration after the sections of a text. -/
def readSections (c : Config) (line : Nat) (s : Bytes) : Except LineFault Config :=
  match _ : skipBlanks false line s with
  | (_, []) => .ok c
  | (line, b :: rest) =>
    if b ≠ 0x5b then .error ⟨line, .expectedSection, b :: rest⟩
    else
      let name := rest.takeWhile isNameByte
      match _ : rest.drop name.length with
      | [] => .error ⟨line, .openSection, []⟩
      | b' :: body =>
        if b' ≠ 0x5d then .error ⟨line, .openSection, b' :: body⟩
        else if name ∉ sectionNames then .error ⟨line, .unknownSection name, body⟩
        else do
          let read ← readEntries name c line body
          readSections read.value read.line read.rest
termination_by s.length
decreasing_by
  have := read.shorter
  have := skipBlanks_rest ‹skipBlanks false _ s = _›
  have := congrArg List.length ‹rest.drop name.length = _›
  simp only [List.length_cons, List.length_drop] at *
  omega

/-- The configuration of a text. -/
def parse (content : Bytes) : Except LineFault Config := readSections {} 1 content

/-! ### Files -/

/-- Why a configuration file gives no configuration. -/
inductive LoadFault where
  | notReadable (path : Bytes)
  | malformed (path : Bytes) (fault : LineFault)
deriving DecidableEq, Repr

def LoadFault.message : LoadFault → Bytes
  | notReadable path => ascii "cannot open config file " ++ path
  | malformed path fault => path ++ ascii ": " ++ fault.message

/-- The configuration of a file. -/
def load (t : FileTree) (path : Bytes) : Attempt LoadFault Config :=
  match t.read path with
  | .error _ => throw (.notReadable path)
  | .ok content =>
    match parse content with
    | .error fault => throw (.malformed path fault)
    | .ok config => do
      Traced.note .debug "config" (ascii "loaded " ++ path)
      return config

end Config

end BuildOrder
