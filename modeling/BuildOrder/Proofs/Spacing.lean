import BuildOrder.Context
import BuildOrder.Proofs.Constraints

/-!
# Blanks in a constraint

A constraint is read twice: the line that holds it is found and trimmed, and then what it asks for
is cut into options. Blanks of any kind may stand around the options, but only spaces part them.

* `Joined`, `ConstraintLine`: options with spaces between them, and a constraint of options.
* `optionsOf_joined`: the options are read back.
* `constraintLine_iff`: every constraint is of this form.
* `BuildContext.matches_respaced`: **whether constraints hold does not depend on the blanks around
  the options**, nor on how many spaces part them.
* `BuildContext.tab_joins`: a tab between two words makes one of them.
-/

namespace BuildOrder

/-! ### Options -/

/-- The options of a constraint, as they are read. -/
def optionsOf (payload : Bytes) : List Bytes := (payload.splitOn 0x20).filter (· != [])

/-- The words one after the other, with one space or more between them. -/
inductive Joined : List Bytes → Bytes → Prop
  | one (word : Bytes) : Joined [word] word
  | cons {word text : Bytes} {words : List Bytes} (spaces : Nat) : Joined words text →
      Joined (word :: words) (word ++ List.replicate (spaces + 1) 0x20 ++ text)

/-- An option is not empty and has no space in it. Tabs are like other bytes here. -/
def IsOption (word : Bytes) : Prop := word ≠ [] ∧ (0x20 : UInt8) ∉ word

instance (word : Bytes) : Decidable (IsOption word) := inferInstanceAs (Decidable (_ ∧ _))

variable {words : List Bytes} {text payload : Bytes}

theorem optionsOf_append_space (before after : Bytes) :
    optionsOf (before ++ 0x20 :: after) = optionsOf before ++ optionsOf after := by
  rw [optionsOf, List.splitOn_append_cons_self, List.filter_append]
  rfl

theorem optionsOf_spaces (n : Nat) (after : Bytes) :
    optionsOf (List.replicate n 0x20 ++ after) = optionsOf after := by
  induction n with
  | zero => rfl
  | succ n ih =>
    rw [List.replicate_succ, List.cons_append]
    exact (optionsOf_append_space [] _).trans ih

theorem optionsOf_word {word : Bytes} (h : IsOption word) : optionsOf word = [word] := by
  rw [optionsOf, List.splitOn_eq_singleton h.2]
  simp [h.1]

/-- **The options are read back**, however many spaces stand between them. -/
theorem optionsOf_joined (h : Joined words text) (hwords : ∀ word ∈ words, IsOption word) :
    optionsOf text = words := by
  induction h with
  | one word => exact optionsOf_word (hwords word List.mem_cons_self)
  | cons spaces _ ih =>
    obtain ⟨hword, hrest⟩ := List.forall_mem_cons.1 hwords
    rw [List.replicate_succ, List.append_assoc, List.cons_append, optionsOf_append_space,
      optionsOf_spaces, optionsOf_word hword, ih hrest]
    rfl

/-- A byte other than a space goes to the first word. -/
theorem Joined.consByte {b : UInt8} (h : Joined words text) (hwords : ∀ word ∈ words, IsOption word)
    (hb : b ≠ 0x20) : ∃ words, Joined words (b :: text) ∧ ∀ word ∈ words, IsOption word := by
  have hoption {word : Bytes} (hword : IsOption word) : IsOption (b :: word) :=
    ⟨List.cons_ne_nil _ _, by simp [hword.2, hb.symm]⟩
  cases h with
  | one =>
    have hword : IsOption text := hwords text List.mem_cons_self
    exact ⟨_, .one (b :: text), List.forall_mem_singleton.2 (hoption hword)⟩
  | cons spaces hrest =>
    obtain ⟨hword, hwords⟩ := List.forall_mem_cons.1 hwords
    exact ⟨_, .cons spaces hrest, List.forall_mem_cons.2 ⟨hoption hword, hwords⟩⟩

/-- A text that does not end with a space is spaces and options. -/
theorem exists_joined (hne : payload ≠ []) (hlast : payload.getLast? ≠ some 0x20) :
    ∃ spaces words text, payload = List.replicate spaces 0x20 ++ text ∧ Joined words text ∧
      ∀ word ∈ words, IsOption word := by
  induction payload with
  | nil => exact absurd rfl hne
  | cons b rest ih =>
    by_cases hrest : rest = []
    · subst hrest
      have hb : b ≠ 0x20 := by simpa using hlast
      exact ⟨0, [[b]], [b], rfl, .one [b], by simp [IsOption, hb.symm]⟩
    rw [List.getLast?_cons_of_ne_nil hrest] at hlast
    obtain ⟨spaces, words, text, rfl, hjoined, hwords⟩ := ih hrest hlast
    by_cases hb : b = 0x20
    · exact ⟨spaces + 1, words, text, by rw [hb]; rfl, hjoined, hwords⟩
    cases spaces with
    | zero =>
      obtain ⟨words', hjoined', hwords'⟩ := hjoined.consByte hwords hb
      exact ⟨0, words', b :: text, rfl, hjoined', hwords'⟩
    | succ spaces =>
      have hword : IsOption [b] := ⟨List.cons_ne_nil _ _, by simpa using Ne.symm hb⟩
      exact ⟨0, [b] :: words, _, rfl, .cons spaces hjoined,
        List.forall_mem_cons.2 ⟨hword, hwords⟩⟩

/-! ### Trimmed texts -/

/-- No blank stands at either end. -/
def IsTrimmed (s : Bytes) : Prop := s.head?.any isBlank = false ∧ s.getLast?.any isBlank = false

instance (s : Bytes) : Decidable (IsTrimmed s) := inferInstanceAs (Decidable (_ ∧ _))

theorem IsTrimmed.trimBlanks_eq {s : Bytes} (h : IsTrimmed s) : trimBlanks s = s := by
  have hleft : s.dropWhile isBlank = s := by
    cases s with
    | nil => rfl
    | cons b rest =>
      have hb : isBlank b = false := h.1
      exact List.dropWhile_cons_of_neg (by simp [hb])
  have hright : s.rdropWhile isBlank = s := by
    refine List.rdropWhile_eq_self_iff.2 fun hne => ?_
    have hlast := h.2
    rw [List.getLast?_eq_some_getLast hne] at hlast
    exact ne_true_of_eq_false hlast
  rw [trimBlanks, Bytes.trim, Bytes.trimLeft, hleft]
  exact hright

theorem isTrimmed_trimBlanks (s : Bytes) : IsTrimmed (trimBlanks s) := by
  by_cases hne : trimBlanks s = []
  · rw [hne]
    exact ⟨rfl, rfl⟩
  obtain ⟨rest, hrest⟩ : trimBlanks s <+: s.dropWhile isBlank :=
    List.rdropWhile_prefix isBlank (s.dropWhile isBlank)
  have hdrop : s.dropWhile isBlank ≠ [] := hrest ▸ List.append_ne_nil_of_left_ne_nil hne rest
  have hlast : ¬ isBlank ((trimBlanks s).getLast hne) = true :=
    List.rdropWhile_last_not isBlank _ hne
  constructor
  · rw [← List.head?_append_of_ne_nil _ hne, hrest, List.head?_eq_some_head hdrop]
    exact List.head_dropWhile_not isBlank hdrop
  · rw [List.getLast?_eq_some_getLast hne]
    exact eq_false_of_ne_true hlast

/-- A text is its trimmed text with blanks on both sides. -/
theorem exists_trimBlanks (s : Bytes) : ∃ lead trail, s = lead ++ trimBlanks s ++ trail ∧
    isBlankLine lead = true ∧ isBlankLine trail = true := by
  refine ⟨s.takeWhile isBlank, (s.dropWhile isBlank).rtakeWhile isBlank, ?_,
    List.all_takeWhile, List.all_eq_true.2 fun _ => List.mem_rtakeWhile_imp⟩
  have hright : trimBlanks s ++ (s.dropWhile isBlank).rtakeWhile isBlank = s.dropWhile isBlank :=
    List.rdropWhile_append_rtakeWhile
  rw [List.append_assoc, hright, List.takeWhile_append_dropWhile]

/-- Blanks on both sides of a trimmed text go. -/
theorem trimBlanks_between {s lead trail : Bytes} (h : IsTrimmed s)
    (hlead : isBlankLine lead = true) (htrail : isBlankLine trail = true) :
    trimBlanks (lead ++ s ++ trail) = s := by
  rw [trimBlanks, Bytes.trim_append_right (List.all_eq_true.1 htrail),
    Bytes.trim_append_left (List.all_eq_true.1 hlead)]
  exact h.trimBlanks_eq

/-- A trimmed text is its options with spaces between them. -/
theorem joined_optionsOf (h : IsTrimmed payload) (hne : payload ≠ []) :
    Joined (optionsOf payload) payload ∧ ∀ word ∈ optionsOf payload, IsOption word := by
  have hlast : payload.getLast? ≠ some 0x20 := by
    intro hspace
    have hblank := h.2
    rw [hspace] at hblank
    cases hblank
  obtain ⟨spaces, words, text, rfl, hjoined, hwords⟩ := exists_joined hne hlast
  cases spaces with
  | zero =>
    rw [List.replicate_zero, List.nil_append, optionsOf_joined hjoined hwords]
    exact ⟨hjoined, hwords⟩
  | succ spaces => cases h.1

/-! ### Constraint lines -/

/-- What follows `+build` up to the last word: nothing, or a space or a tab, blanks, and the
options. -/
inductive Options : List Bytes → Bytes → Prop
  | bare : Options [] []
  | spaced {gap : UInt8} {blanks text : Bytes} {words : List Bytes} : gap = 0x20 ∨ gap = 0x09 →
      isBlankLine blanks = true → Joined words text → (∀ word ∈ words, IsOption word) →
      IsTrimmed text → Options words (gap :: blanks ++ text)

/-- A line of `// +build` and options. Blanks may stand before the slashes and behind them, and at
the end of the line. -/
def ConstraintLine (words : List Bytes) (line : Bytes) : Prop :=
  ∃ lead middle options trail,
    line = lead ++ (ascii "//" ++ middle ++ (ascii "+build" ++ options)) ++ trail ∧
      isBlankLine lead = true ∧ isBlankLine middle = true ∧ Options words options ∧
      isBlankLine trail = true

theorem Joined.ne_nil (h : Joined words text) (hwords : ∀ word ∈ words, IsOption word) :
    text ≠ [] := by
  intro hnil
  obtain rfl : words = [] := by rw [← optionsOf_joined h hwords, hnil]; rfl
  cases h

theorem IsTrimmed.append {front s : Bytes} (h : IsTrimmed s) (hne : s ≠ []) (hfront : front ≠ [])
    (hhead : front.head?.any isBlank = false) : IsTrimmed (front ++ s) := by
  constructor
  · rwa [List.head?_append_of_ne_nil _ hfront]
  · rw [List.getLast?_append_of_ne_nil _ hne]
    exact h.2

namespace Options

variable {options : Bytes}

theorem isTrimmed (h : Options words options) : IsTrimmed (ascii "+build" ++ options) := by
  cases h with
  | bare => exact ⟨by decide, by decide⟩
  | spaced _ _ hjoined hwords htext =>
    rw [← List.append_assoc]
    exact htext.append (hjoined.ne_nil hwords) (List.cons_ne_nil _ _) rfl

theorem starts (h : Options words options) :
    options = [] ∨ options.head? = some 0x20 ∨ options.head? = some 0x09 := by
  cases h with
  | bare => exact Or.inl rfl
  | spaced hgap => exact Or.inr (by simpa using hgap)

theorem optionsOf_trimBlanks (h : Options words options) :
    optionsOf (trimBlanks options) = words := by
  cases h with
  | bare => rfl
  | @spaced gap blanks text _ hgap hblanks hjoined hwords htext =>
    have hlead : isBlankLine (gap :: blanks) = true := by
      rcases hgap with rfl | rfl
      · exact hblanks
      · exact hblanks
    have htrim : trimBlanks (gap :: blanks ++ text ++ []) = text :=
      trimBlanks_between htext hlead rfl
    rw [List.append_nil] at htrim
    rw [htrim, optionsOf_joined hjoined hwords]

/-- What follows `+build`, once its blanks at the end are put aside. -/
theorem exists_of_gap {gap : UInt8} {rest : Bytes} (hgap : gap = 0x20 ∨ gap = 0x09) :
    ∃ options trail, gap :: rest = options ++ trail ∧ isBlankLine trail = true ∧
      Options (optionsOf (trimBlanks (gap :: rest))) options := by
  by_cases hpayload : trimBlanks (gap :: rest) = []
  · rw [hpayload]
    exact ⟨[], gap :: rest, rfl, trimBlanks_eq_nil_iff.1 hpayload, .bare⟩
  have htrimmed := isTrimmed_trimBlanks (gap :: rest)
  obtain ⟨hjoined, hwords⟩ := joined_optionsOf htrimmed hpayload
  obtain ⟨lead, trail, heq, hlead, htrail⟩ := exists_trimBlanks (gap :: rest)
  cases lead with
  | nil =>
    -- the trimmed text would start with the blank
    rw [List.nil_append] at heq
    have hhead := htrimmed.1
    rw [← List.head?_append_of_ne_nil _ hpayload, ← heq] at hhead
    rcases hgap with rfl | rfl
    · cases hhead
    · cases hhead
  | cons first blanks =>
    obtain rfl : gap = first := by simpa using congrArg List.head? heq
    have hblanks : isBlankLine blanks = true := (Bool.and_eq_true_iff.1 hlead).2
    exact ⟨_, trail, heq, htrail, .spaced hgap hblanks hjoined hwords htrimmed⟩

end Options

/-- **A constraint line asks for its options.** -/
theorem ConstraintLine.asksFor {line : Bytes} (h : ConstraintLine words line) :
    ∃ payload, AsksFor line payload ∧ optionsOf payload = words := by
  obtain ⟨lead, middle, options, trail, rfl, hlead, hmiddle, hoptions, htrail⟩ := h
  have hline : IsTrimmed (ascii "//" ++ middle ++ (ascii "+build" ++ options)) :=
    hoptions.isTrimmed.append (List.cons_ne_nil _ _) (List.cons_ne_nil _ _) rfl
  have hcomment : trimBlanks (middle ++ (ascii "+build" ++ options) ++ []) =
      ascii "+build" ++ options := trimBlanks_between hoptions.isTrimmed hmiddle rfl
  rw [List.append_nil] at hcomment
  refine ⟨trimBlanks options, ⟨middle ++ (ascii "+build" ++ options), options, ?_, hcomment,
    hoptions.starts, rfl⟩, hoptions.optionsOf_trimBlanks⟩
  rw [trimBlanks_between hline hlead htrail, List.append_assoc]

theorem AsksFor.constraintLine {line : Bytes} (h : AsksFor line payload) :
    ConstraintLine (optionsOf payload) line := by
  obtain ⟨comment, words, hline, hcomment, hstart, rfl⟩ := h
  have hoptions : ∃ options trail, words = options ++ trail ∧ isBlankLine trail = true ∧
      Options (optionsOf (trimBlanks words)) options := by
    cases words with
    | nil => exact ⟨[], [], rfl, rfl, .bare⟩
    | cons gap rest => exact Options.exists_of_gap (by simpa using hstart)
  obtain ⟨options, trail, hwords, htrail, hoptions⟩ := hoptions
  obtain ⟨lead, lineTrail, hline', hlead, hlineTrail⟩ := exists_trimBlanks line
  obtain ⟨middle, commentTrail, hcomment', hmiddle, hcommentTrail⟩ := exists_trimBlanks comment
  -- the blanks at the three ends all stand at the end of the line
  refine ⟨lead, middle, options, trail ++ commentTrail ++ lineTrail, ?_, hlead, hmiddle,
    hoptions, ?_⟩
  · rw [hline', hline, hcomment', hcomment]
    conv_lhs => rw [hwords]
    simp only [List.append_assoc]
  · simp only [isBlankLine, List.all_append, Bool.and_eq_true]
    exact ⟨⟨htrail, hcommentTrail⟩, hlineTrail⟩

/-- The constraint lines are the lines that ask for something. -/
theorem constraintLine_iff {line : Bytes} : ConstraintLine words line ↔
    ∃ payload, AsksFor line payload ∧ optionsOf payload = words := by
  constructor
  · exact ConstraintLine.asksFor
  · rintro ⟨payload, h, rfl⟩
    exact h.constraintLine

/-! ### Texts with other blanks -/

/-- The lines are one, or constraints of the same options. -/
inductive Respaced : Bytes → Bytes → Prop
  | same (line : Bytes) : Respaced line line
  | blanks {words : List Bytes} {line line' : Bytes} : ConstraintLine words line →
      ConstraintLine words line' → Respaced line line'

/-- The constraints have the same options. -/
def SameOptions (payload payload' : Bytes) : Prop := optionsOf payload = optionsOf payload'

section Respaced

open List (Forall₂)

variable {line line' : Bytes} {lines lines' block block' : List Bytes}

/-- Lines that differ in their blanks are of one kind and ask for the same options. -/
theorem Respaced.alike (h : Respaced line line') :
    isBlankLine line = isBlankLine line' ∧ isCommentLine line = isCommentLine line' ∧
      Forall₂ SameOptions (demand? line).toList (demand? line').toList := by
  cases h with
  | same => exact ⟨rfl, rfl, List.forall₂_same.2 fun _ _ => rfl⟩
  | blanks hline hline' =>
    obtain ⟨payload, hasks, hoptions⟩ := hline.asksFor
    obtain ⟨payload', hasks', hoptions'⟩ := hline'.asksFor
    have hblank {line payload : Bytes} (hasks : AsksFor line payload) :
        isBlankLine line = false := by
      by_contra h
      have := not_isCommentLine_of_isBlankLine (eq_true_of_ne_false h)
      rw [hasks.isCommentLine] at this
      cases this
    refine ⟨(hblank hasks).trans (hblank hasks').symm,
      hasks.isCommentLine.trans hasks'.isCommentLine.symm, ?_⟩
    rw [demand?_eq_some.2 hasks, demand?_eq_some.2 hasks']
    exact Forall₂.cons (hoptions.trans hoptions'.symm) Forall₂.nil

/-- **The walk keeps constraints of the same options**, from lines that differ in their blanks. -/
theorem constraintsFrom_respaced (hblock : Forall₂ SameOptions block block')
    (h : Forall₂ Respaced lines lines') :
    Forall₂ SameOptions (constraintsFrom block lines) (constraintsFrom block' lines') := by
  induction h generalizing block block' with
  | nil => exact Forall₂.nil
  | @cons line line' lines lines' hline _ ih =>
    obtain ⟨hblank, hcomment, hdemand⟩ := hline.alike
    cases hkind : isBlankLine line with
    | true =>
      rw [constraintsFrom_blank _ _ hkind, constraintsFrom_blank _ _ (hblank ▸ hkind)]
      exact List.rel_append hblock (ih Forall₂.nil)
    | false =>
      cases hkind' : isCommentLine line with
      | true =>
        rw [constraintsFrom_comment _ _ hkind', constraintsFrom_comment _ _ (hcomment ▸ hkind')]
        exact ih (List.rel_append hblock hdemand)
      | false =>
        have htop : isTopLine line = false := by rw [isTopLine, hkind, hkind', Bool.or_self]
        have htop' : isTopLine line' = false := by
          rw [isTopLine, ← hblank, ← hcomment]
          exact htop
        rw [constraintsFrom_other _ _ htop, constraintsFrom_other _ _ htop']
        exact Forall₂.nil

end Respaced

namespace BuildContext

variable (c : BuildContext)

theorem matchesConstraint_of_sameOptions {payload payload' : Bytes}
    (h : SameOptions payload payload') :
    c.matchesConstraint payload = c.matchesConstraint payload' :=
  congrArg (fun options => options.any fun option => (option.splitOn 0x2c).all c.matchesTerm) h

theorem matchesConstraints_of_sameOptions {payloads payloads' : List Bytes}
    (h : List.Forall₂ SameOptions payloads payloads') :
    c.matchesConstraints payloads = c.matchesConstraints payloads' := by
  induction h with
  | nil => rfl
  | cons hpayload _ ih =>
    rw [matchesConstraints, List.all_cons, c.matchesConstraint_of_sameOptions hpayload]
    exact congrArg _ ih

/-- **Whether the constraints of a text hold does not depend on the blanks around their options**,
nor on how many spaces stand between two of them. -/
theorem matches_respaced {content content' : Bytes} {lines lines' : List Bytes}
    (hlines : Lines content lines) (hlines' : Lines content' lines')
    (h : List.Forall₂ Respaced lines lines') :
    c.matchesConstraints (buildConstraints content) =
      c.matchesConstraints (buildConstraints content') := by
  refine c.matchesConstraints_of_sameOptions ?_
  rw [buildConstraints, buildConstraints, hlines.linesOf_eq, hlines'.linesOf_eq]
  exact constraintsFrom_respaced List.Forall₂.nil h

/-- One text has two spaces between its options, the other blanks of all kinds around them. -/
theorem matches_respaced_mixed :
    let line := ascii "// +build plan9,arm64  !cgo"
    let line' := ascii "\t//+build\t plan9,arm64 !cgo \r"
    let content := line ++ ascii "\n\npackage p\n"
    let content' := line' ++ ascii "\n\npackage p\n"
    Lines content [line, [], ascii "package p"] ∧ Lines content' [line', [], ascii "package p"] ∧
      List.Forall₂ Respaced [line, [], ascii "package p"] [line', [], ascii "package p"] ∧
      host.matchesConstraints (buildConstraints content) =
        host.matchesConstraints (buildConstraints content') ∧
      host.matchesConstraints (buildConstraints content) = true := by
  intro line line' content content'
  have hlines : Lines content [line, [], ascii "package p"] := by
    have h := lines_linesOf content
    rwa [show linesOf content = [line, [], ascii "package p"] by decide] at h
  have hlines' : Lines content' [line', [], ascii "package p"] := by
    have h := lines_linesOf content'
    rwa [show linesOf content' = [line', [], ascii "package p"] by decide] at h
  have hjoined (spaces : Nat) : Joined [ascii "plan9,arm64", ascii "!cgo"] _ :=
    Joined.cons spaces (Joined.one (ascii "!cgo"))
  have hoptions : Options [ascii "plan9,arm64", ascii "!cgo"] (0x20 :: [] ++ _) :=
    Options.spaced (Or.inl rfl) rfl (hjoined 1) (by decide) (by decide)
  have hoptions' : Options [ascii "plan9,arm64", ascii "!cgo"] (0x09 :: [0x20] ++ _) :=
    Options.spaced (Or.inr rfl) rfl (hjoined 0) (by decide) (by decide)
  have hline : ConstraintLine [ascii "plan9,arm64", ascii "!cgo"] line :=
    ⟨[], ascii " ", _, [], by decide, by decide, by decide, hoptions, by decide⟩
  have hline' : ConstraintLine [ascii "plan9,arm64", ascii "!cgo"] line' :=
    ⟨ascii "\t", [], _, ascii " \r", by decide, by decide, by decide, hoptions', by decide⟩
  have hrespaced : List.Forall₂ Respaced [line, [], ascii "package p"]
      [line', [], ascii "package p"] :=
    .cons (.blanks hline hline') (.cons (.same _) (.cons (.same _) .nil))
  exact ⟨hlines, hlines', hrespaced, host.matches_respaced hlines hlines' hrespaced, by decide⟩

/-- **A tab between two words makes one of them**, and the constraint another. -/
theorem tab_joins :
    host.matchesConstraints (buildConstraints (ascii "// +build linux darwin\n\npackage p\n")) =
        true ∧
      host.matchesConstraints (buildConstraints (ascii "// +build linux\tdarwin\n\npackage p\n")) =
        false := by
  decide

end BuildContext

end BuildOrder
