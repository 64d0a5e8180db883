import BuildOrder.Token.Scan

/-!
# Gaps between tokens

* `IsGap`: white space and comments, as they may stand between two tokens, and as the last text may
  be.
* `BlockComment.exists_text`: how far a block comment goes.
* `Gap.spans_skip`: **a gap is cut off the front of a text**, and a line break in it is noted.
* `TokenStream.read_end`: what is read where nothing is left.
-/

namespace BuildOrder

/-- The end of a block comment. -/
def commentEnd : Bytes := [0x2a, Byte.slash]

/-- White space and comments. Only the `last` text of all may be cut off within a comment. -/
inductive IsGap (last : Bool) : Bytes → Prop
  | nil : IsGap last []
  | white {b : UInt8} {s : Bytes} :
      b = Byte.newline ∨ b = 0x20 ∨ b = 0x09 ∨ b = 0x0d → IsGap last s → IsGap last (b :: s)
  | lineComment {text s : Bytes} :
      Byte.newline ∉ text → IsGap last (Byte.newline :: s) →
      IsGap last (Byte.slash :: Byte.slash :: (text ++ Byte.newline :: s))
  | blockComment {text s : Bytes} :
      ¬ commentEnd <:+: text → IsGap last s →
      IsGap last (Byte.slash :: 0x2a :: (text ++ (commentEnd ++ s)))
  | openLine {text : Bytes} :
      last = true → Byte.newline ∉ text → IsGap last (Byte.slash :: Byte.slash :: text)
  | openBlock {text : Bytes} :
      last = true → ¬ commentEnd <:+: text → IsGap last (Byte.slash :: 0x2a :: text)

/-- A block comment takes the text up to the first end of a comment, or all of it. -/
theorem BlockComment.exists_text (pos : Nat) (spansLines : Bool) (s : Bytes) :
    ∃ text, ¬ commentEnd <:+: text ∧
      ((skip pos spansLines s).spansLines = true ↔ spansLines = true ∨ Byte.newline ∈ text) ∧
      (((skip pos spansLines s).closed = true ∧
          s = text ++ (commentEnd ++ (skip pos spansLines s).rest) ∧
          (skip pos spansLines s).pos = pos + (text ++ commentEnd).length) ∨
        ((skip pos spansLines s).closed = false ∧ s = text ∧ (skip pos spansLines s).rest = [] ∧
          (skip pos spansLines s).pos = pos + text.length)) := by
  induction s generalizing pos spansLines with
  | nil => exact ⟨[], by simp [commentEnd], by simp [skip], Or.inr ⟨rfl, rfl, rfl, rfl⟩⟩
  | cons b s ih =>
    by_cases hend : b = 0x2a ∧ s.head? = some Byte.slash
    · obtain ⟨rfl, hslash⟩ := hend
      obtain ⟨rest, rfl⟩ := List.head?_eq_some_iff.1 hslash
      refine ⟨[], by simp [commentEnd], ?_, Or.inl ?_⟩ <;> simp [skip, commentEnd]
    · obtain ⟨text, hfree, hspans, hrest⟩ := ih (pos + 1) (spansLines || b = Byte.newline)
      rw [skip, if_neg hend]
      refine ⟨b :: text, ?_, ?_, ?_⟩
      · -- An end of a comment at the front would have been seen.
        rw [List.infix_cons_iff]
        rintro (hstart | hinfix)
        · obtain ⟨rfl, hslash⟩ := List.cons_prefix_cons.1 hstart
          obtain ⟨text, rfl⟩ := hslash
          refine hend ⟨rfl, ?_⟩
          rcases hrest with ⟨-, heq, -⟩ | ⟨-, heq, -⟩ <;> rw [heq] <;> rfl
        · exact hfree hinfix
      · rw [hspans, List.mem_cons, Bool.or_eq_true, decide_eq_true_eq, or_assoc, eq_comm (a := b)]
      · refine hrest.imp ?_ ?_
        · rintro ⟨hclosed, heq, hpos⟩
          refine ⟨hclosed, by rw [List.cons_append, ← heq], ?_⟩
          rw [hpos]
          simp only [List.length_append, List.length_cons]
          omega
        · rintro ⟨hclosed, rfl, hnil, hpos⟩
          refine ⟨hclosed, rfl, hnil, ?_⟩
          rw [hpos, List.length_cons]
          omega

/-- A run of bytes is cut off the front of a text. -/
theorem exists_run (p : UInt8 → Bool) (s : Bytes) :
    ∃ run, s = run ++ s.drop (runLength p s) ∧ run.length = runLength p s ∧
      (∀ b ∈ run, p b = true) ∧ ∀ b ∈ (s.drop (runLength p s)).head?, p b = false := by
  have hdrop : s.drop (runLength p s) = s.dropWhile p := by
    have h : (s.takeWhile p ++ s.dropWhile p).drop (s.takeWhile p).length = s.dropWhile p :=
      List.drop_left
    rwa [List.takeWhile_append_dropWhile] at h
  refine ⟨s.takeWhile p, ?_, rfl, List.all_eq_true.1 List.all_takeWhile, fun b hb => ?_⟩
  · rw [hdrop, List.takeWhile_append_dropWhile]
  · have hhead := List.head?_dropWhile_not p s
    rwa [← hdrop, Option.mem_def.1 hb] at hhead

/-- The gap at the front of the text `s` that stands at `pos` has the bytes `text`. -/
structure Gap.Spans (gap : Gap) (pos : Nat) (s text : Bytes) : Prop where
  eq : s = text ++ gap.rest
  isGap : IsGap gap.rest.isEmpty text
  pos_eq : gap.pos = pos + text.length
  lineBreak : gap.lineBreak.isSome ↔ Byte.newline ∈ text

namespace Gap

/-- A gap that starts with a newline has it. -/
theorem newline_mem {pos : Nat} {s text : Bytes}
    (h : (skip pos (Byte.newline :: s)).Spans pos (Byte.newline :: s) text) :
    ∃ text', text = Byte.newline :: text' := by
  have hmem : Byte.newline ∈ text := h.lineBreak.1 (by simp [skip])
  cases text with
  | nil => cases hmem
  | cons b text' => exact ⟨text', by rw [(List.cons.inj h.eq).1]⟩

/-- A line comment, and the gap after it. -/
theorem spans_line {pos : Nat} {line s text : Bytes} (hline : Byte.newline ∉ line)
    (hstop : ∀ b ∈ s.head?, b = Byte.newline)
    (h : (skip (pos + (2 + line.length)) s).Spans (pos + (2 + line.length)) s text) :
    (skip (pos + (2 + line.length)) s).Spans pos (Byte.slash :: Byte.slash :: (line ++ s))
      (Byte.slash :: Byte.slash :: (line ++ text)) where
  eq := by rw [List.cons_append, List.cons_append, List.append_assoc, ← h.eq]
  isGap := by
    cases s with
    | nil =>
      obtain ⟨rfl, hrest⟩ := List.append_eq_nil_iff.1 h.eq.symm
      rw [List.append_nil, hrest]
      exact .openLine rfl hline
    | cons b s =>
      obtain rfl := hstop b rfl
      obtain ⟨text, rfl⟩ := newline_mem h
      exact .lineComment hline h.isGap
  pos_eq := by
    rw [h.pos_eq]
    simp only [List.length_cons, List.length_append]
    omega
  lineBreak := by
    have hne : Byte.newline ≠ Byte.slash := by decide
    rw [h.lineBreak, List.mem_cons, List.mem_cons, List.mem_append, or_iff_right hne,
      or_iff_right hne, or_iff_right hline]

/-- A block comment, and the gap after it. -/
theorem spans_block {pos : Nat} {s text : Bytes} {lineBreak openComment : Option Nat}
    (comment : BlockComment) (hcomment : comment = BlockComment.skip (pos + 2) false s)
    (h : (skip comment.pos comment.rest).Spans comment.pos comment.rest text)
    (hbreak : lineBreak =
      if comment.spansLines then some comment.pos else (skip comment.pos comment.rest).lineBreak) :
    ∃ text', { skip comment.pos comment.rest with lineBreak, openComment : Gap }.Spans pos
      (Byte.slash :: 0x2a :: s) text' := by
  obtain ⟨inside, hfree, hspans, hrest⟩ := BlockComment.exists_text (pos + 2) false s
  rw [← hcomment] at hspans hrest
  have hlines : lineBreak.isSome ↔ Byte.newline ∈ inside ∨ Byte.newline ∈ text := by
    rw [or_iff_right Bool.false_ne_true] at hspans
    rw [hbreak, ← h.lineBreak, ← hspans]
    cases comment.spansLines <;> simp
  have hmem (tail : Bytes) : Byte.newline ∈ Byte.slash :: 0x2a :: tail ↔ Byte.newline ∈ tail := by
    have hne : Byte.newline ≠ Byte.slash ∧ Byte.newline ≠ 0x2a := by decide
    rw [List.mem_cons, List.mem_cons, or_iff_right hne.1, or_iff_right hne.2]
  rcases hrest with ⟨-, rfl, hpos⟩ | ⟨-, rfl, hnil, hpos⟩
  · have hend : Byte.newline ∉ commentEnd := by decide
    refine ⟨Byte.slash :: 0x2a :: (inside ++ (commentEnd ++ text)), ?_, .blockComment hfree h.isGap,
      ?_, ?_⟩
    · have heq : commentEnd ++ comment.rest =
          commentEnd ++ (text ++ (skip comment.pos comment.rest).rest) := congrArg _ h.eq
      rw [heq]
      simp
    · rw [h.pos_eq, hpos]
      simp only [List.length_cons, List.length_append]
      omega
    · rw [hmem, List.mem_append, List.mem_append, or_iff_right hend]
      exact hlines
  · -- Nothing ends the comment: it takes the text to its end.
    dsimp only
    rw [hnil] at h ⊢
    obtain ⟨rfl, hrest⟩ := List.append_eq_nil_iff.1 h.eq.symm
    refine ⟨Byte.slash :: 0x2a :: s, ?_, ?_, ?_, ?_⟩
    · dsimp only
      rw [hrest, List.append_nil]
    · exact .openBlock (by rw [hrest]; rfl) hfree
    · rw [h.pos_eq, hpos]
      simp only [List.length_cons, List.length_nil]
      omega
    · rw [hmem]
      exact hlines.trans (or_iff_left List.not_mem_nil)

/-- **A gap is cut off the front of a text.** -/
theorem spans_skip (pos : Nat) (s : Bytes) : ∃ text, (skip pos s).Spans pos s text := by
  fun_induction skip pos s with
  | case1 pos => exact ⟨[], rfl, .nil, rfl, by simp⟩
  | case2 pos s _ ih =>
    obtain ⟨text, h⟩ := ih
    refine ⟨Byte.newline :: text, congrArg (Byte.newline :: ·) h.eq, .white (Or.inl rfl) h.isGap,
      h.pos_eq.trans ?_, by simp⟩
    simp only [List.length_cons]
    omega
  | case3 pos b s hb hwhite ih =>
    obtain ⟨text, h⟩ := ih
    refine ⟨b :: text, congrArg (b :: ·) h.eq, .white (Or.inr hwhite) h.isGap,
      h.pos_eq.trans ?_, ?_⟩
    · simp only [List.length_cons]
      omega
    · rw [h.lineBreak, List.mem_cons, or_iff_right (Ne.symm hb)]
  | case4 pos b s hb hwhite hslash width ih =>
    obtain ⟨text, h⟩ := ih
    obtain ⟨rfl, hhead⟩ := hslash
    obtain ⟨line, hline, hwidth, hfree, hstop⟩ := exists_run (· != Byte.newline) s
    obtain ⟨line, rfl⟩ : ∃ line', line = Byte.slash :: line' := by
      cases line with
      | nil =>
        rw [List.nil_append] at hline
        cases hstop _ (hline ▸ hhead)
      | cons b line =>
        rw [hline] at hhead
        exact ⟨line, by rw [Option.some.inj hhead]⟩
    have hfree : Byte.newline ∉ line := fun hmem => by
      simpa using hfree _ (List.mem_cons_of_mem _ hmem)
    have hpos : pos + 1 + width = pos + (2 + line.length) := by
      rw [List.length_cons] at hwidth
      show pos + 1 + runLength (· != Byte.newline) s = _
      omega
    rw [hpos] at h ⊢
    have hspans := spans_line hfree (fun b hb => by simpa using hstop b hb) h
    have heq : Byte.slash :: s = Byte.slash :: Byte.slash :: (line ++ s.drop width) :=
      congrArg (Byte.slash :: ·) hline
    exact ⟨Byte.slash :: Byte.slash :: (line ++ text), heq ▸ hspans⟩
  | case5 pos b s hb hwhite hline hblock comment gap ih =>
    obtain ⟨text, h⟩ := ih
    obtain ⟨rfl, hhead⟩ := hblock
    obtain ⟨s, rfl⟩ := List.head?_eq_some_iff.1 hhead
    exact spans_block comment rfl h rfl
  | case6 pos b s => exact ⟨[], rfl, .nil, rfl, by simp⟩

end Gap

/-- The end of a text: the terminator of a statement that ends there, and the end of the file. -/
theorem TokenStream.read_end (ends : Bool) (pos : Nat) :
    read ends pos [] =
      ⟨(if ends then [Token.terminator pos] else []) ++ [Token.endOfFile pos], []⟩ := by
  rw [read]
  split
  · rw [Gap.skip]
    cases ends <;> rfl
  · rename_i h
    rw [Gap.skip] at h
    cases h

end BuildOrder
