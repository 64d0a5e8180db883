import BuildOrder.Config.Parse
import Mathlib.Data.List.Basic

/-!
# The line of a fault

A cursor runs over a configuration text byte by byte. It tells the bytes between the words, in a
comment, in a string and after a backslash from each other, and counts lines as the readers do.

* `Cursor.run_line`: the line of a cursor counts every newline but those after a backslash in a
  string.
* `Follows`: a reader gives the line of the cursor, whether it gets a value or stops at a fault;
  from `follows_string` to `follows_entries`, each reader does.
* `parse_faultLine`: **the line that a fault names** counts the newlines before the place where it
  is found, without the escaped ones.
-/

namespace BuildOrder.Config

/-! ### The cursor -/

/-- What a byte of the text is part of. -/
inductive Mode where
  | plain
  | comment
  | string
  | escape
deriving DecidableEq, Repr

def Mode.next : Mode → UInt8 → Mode
  | plain, b => if b = 0x23 then comment else if b = Byte.quote then string else plain
  | comment, b => if b = Byte.newline then plain else comment
  | string, b => if b = Byte.quote then plain else if b = Byte.backslash then escape else string
  | escape, _ => string

/-- How many newlines follow a backslash in a string. -/
def escapedNewlines : Mode → Bytes → Nat
  | _, [] => 0
  | m, b :: s => (if m = .escape ∧ b = Byte.newline then 1 else 0) + escapedNewlines (m.next b) s

/-- What the next byte is part of, and the line that is counted there. -/
structure Cursor where
  mode : Mode
  line : Nat

namespace Cursor

/-- The cursor after a byte. The byte after a backslash is not looked at. -/
def next (c : Cursor) (b : UInt8) : Cursor where
  mode := c.mode.next b
  line := if c.mode = .escape then c.line else lineAfter c.line b

/-- The cursor after a text. -/
def run (c : Cursor) (read : Bytes) : Cursor := read.foldl next c

theorem run_cons (c : Cursor) (b : UInt8) (read : Bytes) :
    c.run (b :: read) = (c.next b).run read := rfl

theorem run_append (c : Cursor) (read read' : Bytes) :
    c.run (read ++ read') = (c.run read).run read' := List.foldl_append

/-- A byte that no backslash precedes. -/
theorem next_of_ne {mode : Mode} (hmode : mode ≠ .escape) (line : Nat) (b : UInt8) :
    next ⟨mode, line⟩ b = ⟨mode.next b, lineAfter line b⟩ := by
  unfold next
  rw [if_neg hmode]

theorem next_line (c : Cursor) (b : UInt8) :
    (c.next b).line + (if c.mode = .escape ∧ b = Byte.newline then 1 else 0) =
      c.line + [b].count Byte.newline := by
  unfold next lineAfter
  by_cases hb : b = Byte.newline
  · subst hb
    by_cases hmode : c.mode = .escape
    · simp [hmode]
    · simp [hmode]
  · simp [hb]

/-- A byte that begins neither a comment nor a string. -/
theorem next_plain {b : UInt8} (hsign : b ≠ 0x23) (hquote : b ≠ Byte.quote) (line : Nat) :
    next ⟨.plain, line⟩ b = ⟨.plain, lineAfter line b⟩ := by
  rw [next_of_ne (by decide), Mode.next, if_neg hsign, if_neg hquote]

/-- **The line counts every newline but the escaped ones.** -/
theorem run_line (c : Cursor) (read : Bytes) :
    (c.run read).line + escapedNewlines c.mode read = c.line + read.count Byte.newline := by
  induction read generalizing c with
  | nil => rfl
  | cons b read ih =>
    have hstep := next_line c b
    have hrest := ih (c.next b)
    have hmode : (c.next b).mode = c.mode.next b := rfl
    have hcount : (b :: read).count Byte.newline =
        [b].count Byte.newline + read.count Byte.newline := by
      rw [← List.count_append, List.singleton_append]
    rw [hmode] at hrest
    rw [run_cons, escapedNewlines, hcount]
    omega

end Cursor

/-- The cursor gets from one place in a text to another. -/
def Reaches (c : Cursor) (s : Bytes) (c' : Cursor) (rest : Bytes) : Prop :=
  ∃ read, s = read ++ rest ∧ c.run read = c'

section Reaches

variable {c c' c'' : Cursor} {s rest rest' : Bytes}

theorem Reaches.refl (c : Cursor) (s : Bytes) : Reaches c s c s := ⟨[], rfl, rfl⟩

theorem Reaches.trans (h : Reaches c s c' rest) (h' : Reaches c' rest c'' rest') :
    Reaches c s c'' rest' := by
  obtain ⟨read, rfl, rfl⟩ := h
  obtain ⟨read', rfl, rfl⟩ := h'
  exact ⟨read ++ read', (List.append_assoc ..).symm, Cursor.run_append c read read'⟩

theorem Reaches.step {b : UInt8} (hnext : c.next b = c') (h : Reaches c' s c'' rest) :
    Reaches c (b :: s) c'' rest := by
  have hb : Reaches c (b :: s) c' s := ⟨[b], rfl, hnext⟩
  exact hb.trans h

/-- Nothing is left to read at the end. -/
theorem Reaches.of_nil (h : Reaches c [] c' rest) : c' = c ∧ rest = [] := by
  obtain ⟨read, hread, rfl⟩ := h
  obtain ⟨rfl, rfl⟩ := List.append_eq_nil_iff.1 hread.symm
  exact ⟨rfl, rfl⟩

end Reaches

/-! ### From word to word -/

section Passes

variable {line line' line'' : Nat} {s rest rest' : Bytes} {fault : LineFault}

/-- From between two words to between two others, or to the end of the text, which may come in a
comment. -/
def Passes (line : Nat) (s : Bytes) (line' : Nat) (rest : Bytes) : Prop :=
  ∃ mode, Reaches ⟨.plain, line⟩ s ⟨mode, line'⟩ rest ∧ (mode = .plain ∨ rest = [])

/-- From between two words to the place of a fault. -/
def Stops (line : Nat) (s : Bytes) (fault : LineFault) : Prop :=
  ∃ mode, Reaches ⟨.plain, line⟩ s ⟨mode, fault.line⟩ fault.rest

theorem Reaches.passes (h : Reaches ⟨.plain, line⟩ s ⟨.plain, line'⟩ rest) :
    Passes line s line' rest := ⟨.plain, h, Or.inl rfl⟩

theorem Passes.refl (line : Nat) (s : Bytes) : Passes line s line s := (Reaches.refl _ _).passes

theorem Passes.trans (h : Passes line s line' rest) (h' : Passes line' rest line'' rest') :
    Passes line s line'' rest' := by
  obtain ⟨mode, hreach, rfl | rfl⟩ := h
  · obtain ⟨mode', hreach', hmode'⟩ := h'
    exact ⟨mode', hreach.trans hreach', hmode'⟩
  · obtain ⟨mode', hreach', -⟩ := h'
    obtain ⟨hcursor, rfl⟩ := hreach'.of_nil
    obtain ⟨-, rfl⟩ := Cursor.mk.inj hcursor
    exact ⟨mode, hreach, Or.inr rfl⟩

theorem Passes.stops (h : Passes line s line' rest) (hstop : Stops line' rest fault) :
    Stops line s fault := by
  obtain ⟨mode, hreach, rfl | rfl⟩ := h
  · obtain ⟨mode', hreach'⟩ := hstop
    exact ⟨mode', hreach.trans hreach'⟩
  · obtain ⟨mode', hreach'⟩ := hstop
    obtain ⟨hcursor, hrest⟩ := hreach'.of_nil
    obtain ⟨-, hline⟩ := Cursor.mk.inj hcursor
    refine ⟨mode, ?_⟩
    rw [hrest, hline]
    exact hreach

/-- A fault that is found between two words. -/
theorem stops_here (line : Nat) (problem : SyntaxProblem) (rest : Bytes) :
    Stops line rest ⟨line, problem, rest⟩ := ⟨.plain, Reaches.refl _ _⟩

/-- A byte that means nothing to the cursor: a bracket, a comma, an equals sign. -/
theorem passes_byte {b : UInt8} (hsign : b ≠ 0x23) (hquote : b ≠ Byte.quote)
    (hnewline : b ≠ Byte.newline) (line : Nat) (s : Bytes) : Passes line (b :: s) line s := by
  have hnext := Cursor.next_plain hsign hquote line
  rw [lineAfter, if_neg hnewline] at hnext
  exact (Reaches.step hnext (Reaches.refl _ _)).passes

theorem not_sign_of_isSpace {b : UInt8} (h : Byte.isSpace b = true) : b ≠ 0x23 ∧ b ≠ Byte.quote := by
  constructor
  · rintro rfl
    exact absurd h (by decide)
  · rintro rfl
    exact absurd h (by decide)

/-- **White space.** -/
theorem passes_skipSpace (line : Nat) (s : Bytes) :
    Passes line s (skipSpace line s).1 (skipSpace line s).2 := by
  induction s generalizing line with
  | nil => exact Passes.refl line []
  | cons b s ih =>
    rw [skipSpace]
    split
    · rename_i hspace
      obtain ⟨hsign, hquote⟩ := not_sign_of_isSpace hspace
      obtain ⟨mode, hreach, hmode⟩ := ih (lineAfter line b)
      exact ⟨mode, hreach.step (Cursor.next_plain hsign hquote line), hmode⟩
    · exact Passes.refl line (b :: s)

/-- White space and comments, from within a comment too. -/
theorem reaches_skipBlanks (inComment : Bool) (line : Nat) (s : Bytes) :
    ∃ mode, Reaches ⟨if inComment then .comment else .plain, line⟩ s
      ⟨mode, (skipBlanks inComment line s).1⟩ (skipBlanks inComment line s).2 ∧
        (mode = .plain ∨ (skipBlanks inComment line s).2 = []) := by
  induction s generalizing inComment line with
  | nil => exact ⟨_, Reaches.refl _ _, Or.inr rfl⟩
  | cons b s ih =>
    rw [skipBlanks]
    split
    · -- in a comment, up to its newline
      rename_i hcomment
      subst hcomment
      obtain ⟨mode, hreach, hmode⟩ := ih (b != Byte.newline) (lineAfter line b)
      refine ⟨mode, hreach.step ?_, hmode⟩
      rw [Cursor.next_of_ne (by decide), Mode.next]
      by_cases hb : b = Byte.newline
      · simp [hb]
      · simp [hb]
    rename_i hcomment
    obtain rfl : inComment = false := by simpa using hcomment
    split
    · -- white space
      rename_i hspace
      obtain ⟨hsign, hquote⟩ := not_sign_of_isSpace hspace
      obtain ⟨mode, hreach, hmode⟩ := ih false (lineAfter line b)
      exact ⟨mode, hreach.step (Cursor.next_plain hsign hquote line), hmode⟩
    split
    · -- the number sign of a comment
      rename_i hsign
      subst hsign
      obtain ⟨mode, hreach, hmode⟩ := ih true line
      exact ⟨mode, hreach.step rfl, hmode⟩
    · exact ⟨.plain, Reaches.refl _ _, Or.inl rfl⟩

/-- **White space and comments.** -/
theorem passes_skipBlanks (line : Nat) (s : Bytes) :
    Passes line s (skipBlanks false line s).1 (skipBlanks false line s).2 :=
  reaches_skipBlanks false line s

theorem passes_of_skipBlanks (h : skipBlanks false line s = (line', rest)) :
    Passes line s line' rest := by
  have := passes_skipBlanks line s
  rwa [h] at this

theorem passes_of_skipSpace (h : skipSpace line s = (line', rest)) : Passes line s line' rest := by
  have := passes_skipSpace line s
  rwa [h] at this

theorem not_sign_of_isNameByte {b : UInt8} (h : isNameByte b = true) :
    b ≠ 0x23 ∧ b ≠ Byte.quote ∧ b ≠ Byte.newline := by
  refine ⟨?_, ?_, ?_⟩
  · rintro rfl
    exact absurd h (by decide)
  · rintro rfl
    exact absurd h (by decide)
  · rintro rfl
    exact absurd h (by decide)

/-- **A key, or the name of a section.** -/
theorem passes_name (line : Nat) (s : Bytes) :
    Passes line s line (s.drop (s.takeWhile isNameByte).length) := by
  induction s with
  | nil => exact Passes.refl line []
  | cons b s ih =>
    rw [List.takeWhile_cons]
    split
    · rename_i hname
      obtain ⟨hsign, hquote, hnewline⟩ := not_sign_of_isNameByte hname
      exact (passes_byte hsign hquote hnewline line s).trans ih
    · exact Passes.refl line (b :: s)

end Passes

/-! ### Strings -/

/-- In a string, the reader keeps the line, whether it comes to the closing quote or not. -/
def KeepsLine (line : Nat) (s : Bytes) : Except Bytes (Bytes × Bytes) → Prop
  | .ok (_, rest) => Reaches ⟨.string, line⟩ s ⟨.plain, line⟩ rest
  | .error rest => ∃ mode, Reaches ⟨.string, line⟩ s ⟨mode, line⟩ rest

theorem KeepsLine.map {line : Nat} (read : Bytes) {s : Bytes} {x : Except Bytes (Bytes × Bytes)}
    {f : Bytes → Bytes} (hread : Reaches ⟨.string, line⟩ (read ++ s) ⟨.string, line⟩ s)
    (h : KeepsLine line s x) :
    KeepsLine line (read ++ s) (x.map fun (text, rest) => (f text, rest)) := by
  cases x with
  | ok body => exact hread.trans h
  | error rest =>
    obtain ⟨mode, hreach⟩ := h
    exact ⟨mode, hread.trans hreach⟩

/-- **A string keeps the line**: it breaks off at a newline, and one that follows a backslash is
not counted. -/
theorem keepsLine_stringBody (line : Nat) (s : Bytes) : KeepsLine line s (stringBody s) := by
  fun_induction stringBody s with
  | case1 => exact ⟨.string, Reaches.refl _ _⟩
  | case2 s =>
    -- the closing quote
    exact Reaches.step rfl (Reaches.refl _ _)
  | case3 => exact ⟨.string, Reaches.refl _ _⟩
  | case4 =>
    -- a backslash at the end
    exact ⟨.escape, Reaches.step rfl (Reaches.refl _ _)⟩
  | case5 e s _ _ ih =>
    have hread := Reaches.step (b := Byte.backslash) (c := ⟨.string, line⟩) rfl
      (Reaches.step (b := e) rfl (Reaches.refl ⟨.string, line⟩ s))
    exact KeepsLine.map [Byte.backslash, e] hread ih
  | case6 b s hquote hnewline hbackslash ih =>
    have hnext : Cursor.next ⟨.string, line⟩ b = ⟨.string, line⟩ := by
      rw [Cursor.next_of_ne (by decide), Mode.next, if_neg hquote, if_neg hbackslash, lineAfter,
        if_neg hnewline]
    exact KeepsLine.map [b] (Reaches.step hnext (Reaches.refl _ _)) ih

/-! ### Readers -/

section Follows

variable {α β : Type} {bound bound' line line' : Nat} {s rest : Bytes}

/-- The reader gives the line that the cursor counts, with the value or with the fault. -/
def Follows (line : Nat) (s : Bytes) : Except LineFault (Read α bound) → Prop
  | .ok r => Passes line s r.line r.rest
  | .error fault => Stops line s fault

theorem Follows.after {x : Except LineFault (Read α bound)} (h : Passes line s line' rest)
    (hx : Follows line' rest x) : Follows line s x := by
  cases x with
  | ok r => exact h.trans hx
  | error fault => exact h.stops hx

theorem Follows.bind {x : Except LineFault (Read α bound)}
    {f : Read α bound → Except LineFault (Read β bound')} (hx : Follows line s x)
    (hf : ∀ r : Read α bound, Follows r.line r.rest (f r)) : Follows line s (x >>= f) := by
  cases x with
  | ok r => exact Follows.after hx (hf r)
  | error fault => exact hx

/-- From the opening quote of a string to what follows it. -/
theorem passes_string {text : Bytes} (h : stringBody s = .ok (text, rest)) (line : Nat) :
    Passes line (Byte.quote :: s) line rest := by
  have hbody := keepsLine_stringBody line s
  rw [h] at hbody
  have hreach : Reaches ⟨.plain, line⟩ (Byte.quote :: s) ⟨.plain, line⟩ rest :=
    Reaches.step rfl hbody
  exact hreach.passes

/-- From the opening quote of a string to where it breaks off. -/
theorem stops_openString (h : stringBody s = .error rest) (line : Nat) :
    Stops line (Byte.quote :: s) ⟨line, .openString, rest⟩ := by
  have hbody := keepsLine_stringBody line s
  rw [h] at hbody
  obtain ⟨mode, hreach⟩ := hbody
  exact ⟨mode, Reaches.step rfl hreach⟩

theorem follows_string (line : Nat) (s : Bytes) : Follows line s (readString line s) := by
  unfold readString
  split
  · exact stops_here line _ []
  split
  · rename_i hquote
    subst hquote
    split
    · rename_i h
      exact stops_openString h line
    · rename_i h
      exact passes_string h line
  · exact stops_here line _ _

theorem follows_items (line : Nat) (s : Bytes) : Follows line s (readItems line s) := by
  fun_induction readItems line s with
  | case1 => exact stops_here _ _ []
  | case2 line s =>
    -- the closing bracket
    exact passes_byte (by decide) (by decide) (by decide) line s
  | case3 => exact stops_here _ _ _
  | case4 line b s _ hquote rest hbody =>
    obtain rfl : b = Byte.quote := not_not.1 hquote
    exact stops_openString hbody line
  | case5 line b s _ hquote text rest hbody line' rest' hskip next ih =>
    -- an item, a comma, and more items
    obtain rfl : b = Byte.quote := not_not.1 hquote
    have hitem := (passes_string hbody line).trans (passes_of_skipBlanks hskip)
    have hcomma : Passes line' (0x2c :: rest') line' rest' :=
      passes_byte (by decide) (by decide) (by decide) line' rest'
    have hitems := Follows.after ((hitem.trans hcomma).trans (passes_skipBlanks line' rest')) ih
    exact hitems.bind fun r => Passes.refl r.line r.rest
  | case6 line b s _ hquote text rest hbody line' rest' hskip =>
    -- the last item
    obtain rfl : b = Byte.quote := not_not.1 hquote
    have hitem := (passes_string hbody line).trans (passes_of_skipBlanks hskip)
    exact hitem.trans (passes_byte (by decide) (by decide) (by decide) line' rest')
  | case7 line b s _ hquote text rest hbody line' rest' _ _ hskip =>
    obtain rfl : b = Byte.quote := not_not.1 hquote
    have hitem := (passes_string hbody line).trans (passes_of_skipBlanks hskip)
    exact hitem.stops (stops_here line' _ rest')

theorem follows_array (line : Nat) (s : Bytes) : Follows line s (readArray line s) := by
  unfold readArray
  split
  · exact stops_here line _ []
  split
  · rename_i b s hopen
    subst hopen
    have hbracket : Passes line (0x5b :: s) line s :=
      passes_byte (by decide) (by decide) (by decide) line s
    have hitems := Follows.after (hbracket.trans (passes_skipBlanks line s)) (follows_items _ _)
    exact hitems.bind fun r => Passes.refl r.line r.rest
  · exact stops_here line _ _

theorem follows_value (setting : Setting) (c : Config) (line : Nat) (s : Bytes) :
    Follows line s (readValue setting c line s) := by
  cases setting with
  | text set => exact (follows_string line s).bind fun r => Passes.refl r.line r.rest
  | list set => exact (follows_array line s).bind fun r => Passes.refl r.line r.rest

theorem follows_entry (name : Bytes) (c : Config) (line : Nat) (s : Bytes) :
    Follows line s (readEntry name c line s) := by
  have hkey := passes_name line s
  unfold readEntry
  dsimp only
  split
  · exact stops_here line _ s
  split
  · rename_i line' rest hspace
    have hequals : Passes line' (0x3d :: rest) line' rest :=
      passes_byte (by decide) (by decide) (by decide) line' rest
    have hstart := (hkey.trans (passes_of_skipSpace hspace)).trans
      (hequals.trans (passes_skipSpace line' rest))
    split
    · exact hstart.stops (stops_here _ _ _)
    · rename_i setting _
      have hvalue := Follows.after hstart (follows_value setting c _ _)
      exact hvalue.bind fun read => Passes.refl read.line read.rest
  · rename_i line' rest _ hspace
    exact (hkey.trans (passes_of_skipSpace hspace)).stops (stops_here line' _ rest)

/-- **The assignments of a section**, up to the next section. -/
theorem follows_entries (name : Bytes) (c : Config) (line : Nat) (s : Bytes) :
    Follows line s (readEntries name c line s) := by
  fun_induction readEntries name c line s with
  | case1 c line s line' hskip => exact passes_of_skipBlanks hskip
  | case2 c line s line' rest hskip => exact passes_of_skipBlanks hskip
  | case3 c line s line' b rest hskip _ _ ih =>
    have hentry := Follows.after (passes_of_skipBlanks hskip)
      (follows_entry name c line' (b :: rest))
    refine hentry.bind fun entry => (ih entry).bind fun more => ?_
    exact Passes.refl more.line more.rest

end Follows

/-! ### Sections -/

/-- The opening bracket of a section, and its name. -/
theorem passes_opening {s rest : Bytes} (h : s.drop (s.takeWhile isNameByte).length = rest)
    (line : Nat) : Passes line (0x5b :: s) line rest := by
  have hbracket : Passes line (0x5b :: s) line s :=
    passes_byte (by decide) (by decide) (by decide) line s
  rw [← h]
  exact hbracket.trans (passes_name line s)

/-- The name of a section in its brackets. -/
theorem passes_header {s body : Bytes}
    (h : s.drop (s.takeWhile isNameByte).length = 0x5d :: body) (line : Nat) :
    Passes line (0x5b :: s) line body := by
  have hbracket : Passes line (0x5d :: body) line body :=
    passes_byte (by decide) (by decide) (by decide) line body
  exact (passes_opening h line).trans hbracket

/-- **A fault among the sections** is found on the line that the cursor counts. -/
theorem stops_sections (c : Config) (line : Nat) (s : Bytes) {fault : LineFault}
    (h : readSections c line s = .error fault) : Stops line s fault := by
  fun_induction readSections c line s with
  | case1 => cases h
  | case2 c line s line' b rest hskip =>
    cases h
    exact (passes_of_skipBlanks hskip).stops (stops_here line' _ _)
  | case3 c line s line' b rest hskip hopen name hname =>
    -- the text ends in the name
    cases h
    obtain rfl : b = 0x5b := not_not.1 hopen
    have hopening := (passes_of_skipBlanks hskip).trans (passes_opening hname line')
    exact hopening.stops (stops_here line' _ [])
  | case4 c line s line' b rest hskip hopen name b' body hname =>
    -- something else than a bracket follows the name
    cases h
    obtain rfl : b = 0x5b := not_not.1 hopen
    have hopening := (passes_of_skipBlanks hskip).trans (passes_opening hname line')
    exact hopening.stops (stops_here line' _ _)
  | case5 c line s line' b rest hskip hopen name b' body hname hclose =>
    -- no section has this name
    cases h
    obtain rfl : b = 0x5b := not_not.1 hopen
    obtain rfl : b' = 0x5d := not_not.1 hclose
    have hheader := (passes_of_skipBlanks hskip).trans (passes_header hname line')
    exact hheader.stops (stops_here line' _ body)
  | case6 c line s line' b rest hskip hopen name b' body hname hclose _ ih =>
    obtain rfl : b = 0x5b := not_not.1 hopen
    obtain rfl : b' = 0x5d := not_not.1 hclose
    have hheader := (passes_of_skipBlanks hskip).trans (passes_header hname line')
    have hentries := Follows.after hheader (follows_entries name c line' body)
    cases hread : readEntries name c line' body with
    | error entryFault =>
      rw [hread] at h hentries
      cases h
      exact hentries
    | ok read =>
      rw [hread] at h hentries
      exact hentries.stops (ih read h)

/-- **The line that a fault names** is one more than the newlines before the place where it is
found, less those that follow a backslash in a string. -/
theorem parse_faultLine {content : Bytes} {fault : LineFault} (h : parse content = .error fault) :
    ∃ read line, content = read ++ fault.rest ∧
      line + escapedNewlines .plain read = 1 + read.count Byte.newline ∧
      fault.message = ascii "Line " ++ Bytes.decimal line ++ ascii ": " ++ fault.problem.message := by
  obtain ⟨mode, read, hcontent, hcursor⟩ := stops_sections {} 1 content h
  have hline := Cursor.run_line ⟨.plain, 1⟩ read
  rw [hcursor] at hline
  exact ⟨read, fault.line, hcontent, hline, rfl⟩

/-- An unknown key on the third line. -/
theorem parse_faultLine_third :
    let content := ascii "[stdlib]\nroot = \"/go\"\nbogus = \"x\"\n"
    let fault : LineFault :=
      ⟨3, .unknownKey (ascii "bogus") (ascii "stdlib"), ascii "\"x\"\n"⟩
    parse content = .error fault ∧
      ∃ read line, content = read ++ fault.rest ∧
        line + escapedNewlines .plain read = 1 + read.count Byte.newline ∧
        fault.message = ascii "Line " ++ Bytes.decimal line ++ ascii ": " ++
          fault.problem.message := by
  intro content fault
  have hfault : parse content = .error fault := by decide +kernel
  exact ⟨hfault, parse_faultLine hfault⟩

/-- An unknown key on the fourth line, after a string with an escaped newline. -/
theorem exists_lineBehind :
    ∃ content read fault, parse content = .error fault ∧ content = read ++ fault.rest ∧
      fault.line ≠ 1 + read.count Byte.newline := by
  refine ⟨ascii "[stdlib]\nroot = \"a\\\nb\"\nbogus = \"x\"\n",
    ascii "[stdlib]\nroot = \"a\\\nb\"\nbogus = ",
    ⟨3, .unknownKey (ascii "bogus") (ascii "stdlib"), ascii "\"x\"\n"⟩, ?_, ?_, ?_⟩
  · decide +kernel
  · decide
  · decide

end BuildOrder.Config
