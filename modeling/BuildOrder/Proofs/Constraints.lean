import BuildOrder.Constraint
import BuildOrder.Proofs.Locations
import Mathlib.Data.List.DropRight
import Mathlib.Data.List.Forall2

/-!
# The constraints that count

Constraints are read in one walk over the lines, which keeps those of a run of comment lines until
it sees what follows the run. What the walk comes to is told here of each line by itself.

* `Lines`, `lines_linesOf`: the lines of a text.
* `constraintsFrom_eq`: what was kept counts if the run that goes on ends at a blank line.
* `buildConstraints_spec`: **the constraints of a text are those of the lines that count**, in
  order.
-/

namespace BuildOrder

/-! ### Lines -/

/-- The lines of a text. Each ends at a newline, and the last may also end with the text, if there
is anything in it. -/
inductive Lines : Bytes → List Bytes → Prop
  | none : Lines [] []
  | last {line : Bytes} : line ≠ [] → Byte.newline ∉ line → Lines line [line]
  | cons {line rest : Bytes} {lines : List Bytes} : Byte.newline ∉ line → Lines rest lines →
      Lines (line ++ Byte.newline :: rest) (line :: lines)

theorem linesOf_cons {line : Bytes} (h : Byte.newline ∉ line) (rest : Bytes) :
    linesOf (line ++ Byte.newline :: rest) = line :: linesOf rest := by
  obtain ⟨first, more, hrest⟩ :=
    List.exists_cons_of_ne_nil (List.splitOn_ne_nil Byte.newline rest)
  simp only [linesOf, List.splitOn_append_cons_self, List.splitOn_eq_singleton h, hrest,
    List.singleton_append, List.getLast?_cons_cons, List.dropLast_cons_cons]
  split <;> rfl

/-- A text is cut into its lines in one way. -/
theorem Lines.linesOf_eq {content : Bytes} {lines : List Bytes} (h : Lines content lines) :
    linesOf content = lines := by
  induction h with
  | none => rfl
  | last hne hline => simp [linesOf, List.splitOn_eq_singleton hline, hne]
  | cons hline _ ih => rw [linesOf_cons hline, ih]

theorem lines_linesOf (content : Bytes) : Lines content (linesOf content) := by
  induction hlength : content.length using Nat.strong_induction_on generalizing content with
  | _ n ih =>
    obtain ⟨line, rest, rfl, hline, rfl | ⟨more, rfl⟩⟩ := Source.exists_lineEnd content
    · rw [List.append_nil]
      by_cases hne : line = []
      · subst hne
        exact Lines.none
      · rw [(Lines.last hne hline).linesOf_eq]
        exact Lines.last hne hline
    · rw [linesOf_cons hline]
      refine Lines.cons hline (ih more.length ?_ more rfl)
      rw [← hlength, List.length_append, List.length_cons]
      omega

/-! ### Trimming -/

section Trim

variable {p : UInt8 → Bool} {blanks s : Bytes}

theorem Bytes.trim_append_left (h : ∀ b ∈ blanks, p b = true) :
    Bytes.trim p (blanks ++ s) = Bytes.trim p s := by
  rw [Bytes.trim, Bytes.trimLeft, List.dropWhile_append_of_pos h]
  rfl

theorem Bytes.trimRight_append (h : ∀ b ∈ blanks, p b = true) :
    Bytes.trimRight p (s ++ blanks) = Bytes.trimRight p s := by
  have hreverse : ∀ b ∈ blanks.reverse, p b = true := fun b hb => h b (List.mem_reverse.1 hb)
  rw [Bytes.trimRight, List.reverse_append, List.dropWhile_append_of_pos hreverse]
  rfl

theorem Bytes.trim_append_right (h : ∀ b ∈ blanks, p b = true) :
    Bytes.trim p (s ++ blanks) = Bytes.trim p s := by
  have hblanks : blanks.dropWhile p = [] := List.dropWhile_eq_nil_iff.2 h
  rw [Bytes.trim, Bytes.trimLeft, List.dropWhile_append, hblanks]
  split
  · rename_i hs
    rw [Bytes.trim, Bytes.trimLeft, List.isEmpty_iff.1 hs]
  · exact Bytes.trimRight_append h

end Trim

/-! ### Kinds of lines -/

/-- A line of blanks alone. -/
def isBlankLine (line : Bytes) : Bool := line.all isBlank

/-- A line that starts with two slashes, blanks apart. -/
def isCommentLine (line : Bytes) : Bool := (ascii "//").isPrefixOf (trimBlanks line)

/-- A line such as may stand above the package clause. -/
def isTopLine (line : Bytes) : Bool := isBlankLine line || isCommentLine line

/-- The line is `// +build` and words, with blanks around its parts; of the words, `payload` is what
stands between the blanks around them. -/
def AsksFor (line payload : Bytes) : Prop :=
  ∃ comment words, trimBlanks line = ascii "//" ++ comment ∧
    trimBlanks comment = ascii "+build" ++ words ∧
    (words = [] ∨ words.head? = some 0x20 ∨ words.head? = some 0x09) ∧ payload = trimBlanks words

/-- What a line asks for. -/
def demand? (line : Bytes) : Option Bytes :=
  (Bytes.afterBeginning? (ascii "//") (trimBlanks line)).bind constraint?

section Kinds

variable {line payload : Bytes}

theorem trimBlanks_eq_nil_iff : trimBlanks line = [] ↔ isBlankLine line = true := by
  rw [isBlankLine, List.all_eq_true]
  constructor
  · intro h
    have hright : ∀ b ∈ line.dropWhile isBlank, isBlank b = true := List.rdropWhile_eq_nil_iff.1 h
    cases hdrop : line.dropWhile isBlank with
    | nil => exact List.dropWhile_eq_nil_iff.1 hdrop
    | cons b rest =>
      -- the first byte that is left is no blank
      have hb := List.head?_dropWhile_not isBlank line
      rw [hdrop] at hright hb
      simp [hright b List.mem_cons_self] at hb
  · intro h
    have hline : line.dropWhile isBlank = [] := List.dropWhile_eq_nil_iff.2 h
    rw [trimBlanks, Bytes.trim, Bytes.trimLeft, hline]
    rfl

theorem not_isCommentLine_of_isBlankLine (h : isBlankLine line = true) :
    isCommentLine line = false := by
  rw [isCommentLine, trimBlanks_eq_nil_iff.2 h]
  rfl

theorem constraint?_eq_some {comment : Bytes} : constraint? comment = some payload ↔
    ∃ words, trimBlanks comment = ascii "+build" ++ words ∧
      (words = [] ∨ words.head? = some 0x20 ∨ words.head? = some 0x09) ∧
      payload = trimBlanks words := by
  have htrim {b : UInt8} (hb : b = 0x20 ∨ b = 0x09) (words : Bytes) :
      trimBlanks (b :: words) = trimBlanks words := by
    have hblank : isBlank b = true := by rcases hb with rfl | rfl <;> rfl
    have hblanks : ∀ b' ∈ [b], isBlank b' = true := by simpa using hblank
    exact Bytes.trim_append_left hblanks
  unfold constraint?
  constructor
  · intro h
    split at h
    · rename_i hwords
      exact ⟨[], Bytes.afterBeginning?_eq_some.1 hwords, Or.inl rfl, (Option.some.inj h).symm⟩
    · rename_i b words hwords
      split at h
      · rename_i hb
        refine ⟨b :: words, Bytes.afterBeginning?_eq_some.1 hwords, Or.inr (by simpa using hb), ?_⟩
        rw [htrim hb, Option.some.inj h]
      · cases h
    · cases h
  · rintro ⟨words, hwords, hend, rfl⟩
    rw [Bytes.afterBeginning?_eq_some.2 hwords]
    cases words with
    | nil => rfl
    | cons b words =>
      have hb : b = 0x20 ∨ b = 0x09 := by simpa using hend
      rw [htrim hb]
      exact if_pos hb

/-- A line asks for one thing at most. -/
theorem demand?_eq_some : demand? line = some payload ↔ AsksFor line payload := by
  simp only [demand?, Option.bind_eq_some_iff, Bytes.afterBeginning?_eq_some, constraint?_eq_some,
    AsksFor, exists_and_left]

theorem AsksFor.isCommentLine (h : AsksFor line payload) : isCommentLine line = true := by
  obtain ⟨comment, words, hline, -⟩ := h
  rw [BuildOrder.isCommentLine, hline]
  exact List.isPrefixOf_iff_prefix.2 (List.prefix_append _ _)

end Kinds

/-! ### The walk -/

/-- The run of comment lines that goes on at the first of these lines ends at a blank line. -/
def isClosed (lines : List Bytes) : Bool := (lines.dropWhile isCommentLine).head?.any isBlankLine

section Walk

variable {line : Bytes} (block lines : List Bytes)

theorem constraintsFrom_blank (h : isBlankLine line = true) :
    constraintsFrom block (line :: lines) = block ++ constraintsFrom [] lines := by
  rw [constraintsFrom, if_pos (trimBlanks_eq_nil_iff.2 h)]

theorem constraintsFrom_comment (h : isCommentLine line = true) :
    constraintsFrom block (line :: lines) =
      constraintsFrom (block ++ (demand? line).toList) lines := by
  have hblank : ¬ trimBlanks line = [] := by
    intro hnil
    rw [not_isCommentLine_of_isBlankLine (trimBlanks_eq_nil_iff.1 hnil)] at h
    cases h
  have hafter : Bytes.afterBeginning? (ascii "//") (trimBlanks line) =
      some ((trimBlanks line).drop 2) := if_pos h
  rw [constraintsFrom, if_neg hblank, demand?, hafter]
  rfl

theorem constraintsFrom_other (h : isTopLine line = false) :
    constraintsFrom block (line :: lines) = [] := by
  obtain ⟨hblank, hcomment⟩ := Bool.or_eq_false_iff.1 h
  have hne : ¬ trimBlanks line = [] := by
    rw [trimBlanks_eq_nil_iff, hblank]
    exact Bool.false_ne_true
  have hafter : Bytes.afterBeginning? (ascii "//") (trimBlanks line) = none := by
    rw [isCommentLine] at hcomment
    rw [Bytes.afterBeginning?, hcomment]
    rfl
  rw [constraintsFrom, if_neg hne, hafter]

theorem isClosed_blank (h : isBlankLine line = true) : isClosed (line :: lines) = true := by
  have hcomment : ¬ isCommentLine line = true := by
    rw [not_isCommentLine_of_isBlankLine h]
    exact Bool.false_ne_true
  rw [isClosed, List.dropWhile_cons_of_neg hcomment]
  exact h

theorem isClosed_comment (h : isCommentLine line = true) :
    isClosed (line :: lines) = isClosed lines := by
  rw [isClosed, List.dropWhile_cons_of_pos h, isClosed]

/-- **What was kept counts if the run of comment lines ends at a blank line.** -/
theorem constraintsFrom_eq : constraintsFrom block lines =
    (if isClosed lines then block else []) ++ constraintsFrom [] lines := by
  induction lines generalizing block with
  | nil => rfl
  | cons line lines ih =>
    by_cases hblank : isBlankLine line = true
    · rw [isClosed_blank lines hblank, if_pos rfl, constraintsFrom_blank _ _ hblank,
        constraintsFrom_blank _ _ hblank, List.nil_append]
    by_cases hcomment : isCommentLine line = true
    · rw [constraintsFrom_comment _ _ hcomment, constraintsFrom_comment _ _ hcomment, ih,
        ih ([] ++ _), isClosed_comment lines hcomment]
      split
      · rw [List.nil_append, List.append_assoc]
      · rfl
    · have htop : isTopLine line = false := by simp [isTopLine, hblank, hcomment]
      have hclosed : isClosed (line :: lines) = false := by
        rw [isClosed, List.dropWhile_cons_of_neg hcomment]
        simpa using hblank
      rw [hclosed, constraintsFrom_other _ _ htop, constraintsFrom_other _ _ htop]
      rfl

/-- What a line adds, if anything: what it asks for, if its run of comment lines ends at a blank
line. -/
def added? (line : Bytes) (lines : List Bytes) : Option Bytes :=
  if isClosed (line :: lines) then demand? line else none

theorem constraintsFrom_top (h : isTopLine line = true) : constraintsFrom [] (line :: lines) =
    (added? line lines).toList ++ constraintsFrom [] lines := by
  rcases Bool.or_eq_true_iff.1 h with hblank | hcomment
  · have hdemand : demand? line = none := by
      rw [demand?, trimBlanks_eq_nil_iff.2 hblank]
      rfl
    rw [constraintsFrom_blank _ _ hblank, added?, hdemand, ite_self]
    rfl
  · rw [constraintsFrom_comment _ _ hcomment, constraintsFrom_eq, added?,
      isClosed_comment _ hcomment, List.nil_append]
    split <;> rfl

end Walk

/-! ### The lines that count -/

/-- The line at this place counts: it stands among the blank lines and the comment lines at the top,
it asks for something, and the run of comment lines that it stands in ends at a blank line. -/
structure Counts (lines : List Bytes) (place : Nat) (payload : Bytes) : Prop where
  atTop : place < (lines.takeWhile isTopLine).length
  asks : ∃ line, lines[place]? = some line ∧ AsksFor line payload
  closed : isClosed (lines.drop place) = true

/-- These are the places of the lines that count, from the top down, and what the lines ask for. -/
structure Counted (lines : List Bytes) (places : List Nat) (payloads : List Bytes) : Prop where
  sorted : places.Pairwise (· < ·)
  counts : List.Forall₂ (Counts lines) places payloads
  complete : ∀ place payload, Counts lines place payload → place ∈ places

section Counts

variable {line payload : Bytes} {lines : List Bytes} {place : Nat} {places : List Nat}
  {payloads : List Bytes}

/-- After a line at the top, the same lines count as without it. -/
theorem counts_succ_iff (h : isTopLine line = true) :
    Counts (line :: lines) (place + 1) payload ↔ Counts lines place payload := by
  have hlength : (List.takeWhile isTopLine (line :: lines)).length =
      (List.takeWhile isTopLine lines).length + 1 := by
    rw [List.takeWhile_cons_of_pos h, List.length_cons]
  constructor
  · rintro ⟨htop, hasks, hclosed⟩
    exact ⟨by omega, hasks, hclosed⟩
  · rintro ⟨htop, hasks, hclosed⟩
    exact ⟨by omega, hasks, hclosed⟩

theorem counts_zero_iff (h : isTopLine line = true) :
    Counts (line :: lines) 0 payload ↔ added? line lines = some payload := by
  constructor
  · rintro ⟨-, ⟨other, hother, hasks⟩, hclosed⟩
    obtain rfl : line = other := Option.some.inj hother
    exact (if_pos hclosed).trans (demand?_eq_some.2 hasks)
  · intro hadded
    rw [added?] at hadded
    split at hadded
    · rename_i hclosed
      refine ⟨?_, ⟨line, rfl, demand?_eq_some.1 hadded⟩, hclosed⟩
      rw [List.takeWhile_cons_of_pos h]
      exact Nat.succ_pos _
    · cases hadded

theorem not_counts_of_other (h : isTopLine line = false) :
    ¬ Counts (line :: lines) place payload := by
  rintro ⟨htop, -, -⟩
  rw [List.takeWhile_cons_of_neg (by simp [h])] at htop
  exact Nat.not_lt_zero _ htop

namespace Counted

theorem none (h : ∀ place payload, ¬ Counts lines place payload) : Counted lines [] [] where
  sorted := List.Pairwise.nil
  counts := List.Forall₂.nil
  complete place payload hcounts := absurd hcounts (h place payload)

theorem shifted (h : Counted lines places payloads) (htop : isTopLine line = true) :
    List.Forall₂ (Counts (line :: lines)) (places.map (· + 1)) payloads :=
  List.forall₂_map_left_iff.2 (h.counts.imp fun _ _ hcounts => (counts_succ_iff htop).2 hcounts)

theorem mem_shifted (h : Counted lines places payloads) (htop : isTopLine line = true)
    (hcounts : Counts (line :: lines) (place + 1) payload) : place + 1 ∈ places.map (· + 1) :=
  List.mem_map_of_mem (h.complete _ _ ((counts_succ_iff htop).1 hcounts))

theorem sorted_shifted (h : Counted lines places payloads) :
    (places.map (· + 1)).Pairwise (· < ·) :=
  h.sorted.map _ fun _ _ hlt => Nat.succ_lt_succ hlt

/-- A line at the top that adds nothing. -/
theorem pass (h : Counted lines places payloads) (htop : isTopLine line = true)
    (hadded : added? line lines = Option.none) :
    Counted (line :: lines) (places.map (· + 1)) payloads where
  sorted := h.sorted_shifted
  counts := h.shifted htop
  complete place payload hcounts := by
    cases place with
    | zero => exact nomatch hadded.symm.trans ((counts_zero_iff htop).1 hcounts)
    | succ place => exact h.mem_shifted htop hcounts

/-- A line at the top that adds what it asks for. -/
theorem take (h : Counted lines places payloads) (htop : isTopLine line = true)
    (hadded : added? line lines = some payload) :
    Counted (line :: lines) (0 :: places.map (· + 1)) (payload :: payloads) where
  sorted := by
    refine List.pairwise_cons.2 ⟨fun place hplace => ?_, h.sorted_shifted⟩
    obtain ⟨before, -, rfl⟩ := List.mem_map.1 hplace
    exact Nat.succ_pos before
  counts := List.Forall₂.cons ((counts_zero_iff htop).2 hadded) (h.shifted htop)
  complete place other hcounts := by
    cases place with
    | zero => exact List.mem_cons_self
    | succ place => exact List.mem_cons_of_mem _ (h.mem_shifted htop hcounts)

end Counted

/-- **What the walk comes to** is told line by line. -/
theorem exists_counted (lines : List Bytes) :
    ∃ places, Counted lines places (constraintsFrom [] lines) := by
  induction lines with
  | nil => exact ⟨[], Counted.none fun _ _ h => absurd h.atTop (Nat.not_lt_zero _)⟩
  | cons line lines ih =>
    obtain ⟨places, hcounted⟩ := ih
    by_cases htop : isTopLine line = true
    · rw [constraintsFrom_top lines htop]
      cases hadded : added? line lines with
      | none => exact ⟨_, hcounted.pass htop hadded⟩
      | some payload => exact ⟨_, hcounted.take htop hadded⟩
    · have hother : isTopLine line = false := by simpa using htop
      rw [constraintsFrom_other [] lines hother]
      exact ⟨[], Counted.none fun _ _ => not_counts_of_other hother⟩

end Counts

/-- **The constraints of a text** are what the lines that count ask for, in order: those that are
`// +build` and words, among the blank lines and comment lines at the top, whose run of comment
lines ends at a blank line. -/
theorem buildConstraints_spec (content : Bytes) :
    ∃ lines places, Lines content lines ∧ Counted lines places (buildConstraints content) := by
  obtain ⟨places, hcounted⟩ := exists_counted (linesOf content)
  exact ⟨linesOf content, places, lines_linesOf content, hcounted⟩

/-- The comment of the clause holds no constraint, and neither does what stands below it. -/
example : buildConstraints
    (ascii "//\t+build linux,386 \r\n// text\n \n// +build a\npackage p\n\n") =
      [ascii "linux,386"] := by
  decide

end BuildOrder
