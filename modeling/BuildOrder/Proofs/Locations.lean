import BuildOrder.Source
import Mathlib.Algebra.Ring.Nat
import Mathlib.Data.List.Basic

/-!
# Places in a text

The index of the lines, the place of an offset and the text of a line are told from one cut of the
text: the lines before, what stands before the offset in its line, and what follows.

* `Source.lineStarts_append`: where lines start, before the offset and after it.
* `Source.location_append`, `Source.line_last`, `Source.line_ended`: the place of an offset, and the
  text of its line.
* `Source.location_spec`: **a place counts the newlines before it and the bytes since the last of
  them**, and the byte is found there in the text of its line.
-/

namespace BuildOrder

namespace Source

/-! ### Where lines start -/

theorem startsFrom_append (pos : Nat) (s t : Bytes) :
    startsFrom pos (s ++ t) = startsFrom pos s ++ startsFrom (pos + s.length) t := by
  induction s generalizing pos with
  | nil => rfl
  | cons b s ih =>
    have hpos : pos + 1 + s.length = pos + (b :: s).length := by
      rw [List.length_cons]
      omega
    rw [List.cons_append, startsFrom, startsFrom, ih, hpos]
    split <;> rfl

theorem length_startsFrom (pos : Nat) (s : Bytes) :
    (startsFrom pos s).length = s.count Byte.newline := by
  induction s generalizing pos with
  | nil => rfl
  | cons b s ih =>
    rw [startsFrom]
    split
    · rename_i hb
      rw [hb, List.length_cons, ih, List.count_cons_self]
    · rename_i hb
      rw [ih, List.count_cons_of_ne hb]

theorem startsFrom_of_notMem {s : Bytes} (h : Byte.newline ∉ s) (pos : Nat) :
    startsFrom pos s = [] := by
  rw [← List.length_eq_zero_iff, length_startsFrom, List.count_eq_zero]
  exact h

/-- A line starts after its newline, which is one of the bytes. -/
theorem startsFrom_bounds {pos p : Nat} {s : Bytes} (h : p ∈ startsFrom pos s) :
    pos < p ∧ p ≤ pos + s.length := by
  induction s generalizing pos with
  | nil => cases h
  | cons b s ih =>
    have htail (h : p ∈ startsFrom (pos + 1) s) : pos < p ∧ p ≤ pos + (b :: s).length := by
      have := ih h
      rw [List.length_cons]
      omega
    rw [startsFrom] at h
    split at h
    · rcases List.mem_cons.1 h with rfl | h
      · rw [List.length_cons]
        omega
      · exact htail h
    · exact htail h

/-- The text is made of whole lines. -/
def WholeLines (s : Bytes) : Prop := s = [] ∨ s.getLast? = some Byte.newline

/-- After whole lines, a line starts. -/
theorem WholeLines.getLast?_starts {s : Bytes} (h : WholeLines s) :
    (0 :: startsFrom 0 s).getLast? = some s.length := by
  rcases h with rfl | h
  · rfl
  · obtain ⟨front, rfl⟩ := List.getLast?_eq_some_iff.1 h
    have hlast : startsFrom (0 + front.length) [Byte.newline] = [0 + front.length + 1] := rfl
    rw [startsFrom_append, hlast, ← List.cons_append, List.getLast?_concat, List.length_append,
      Nat.zero_add]
    rfl

/-- A text is cut after its last newline. -/
theorem exists_wholeLines (s : Bytes) :
    ∃ lines part, s = lines ++ part ∧ WholeLines lines ∧ Byte.newline ∉ part ∧
      part.length = (s.reverse.takeWhile (· != Byte.newline)).length := by
  refine ⟨(s.reverse.dropWhile (· != Byte.newline)).reverse,
    (s.reverse.takeWhile (· != Byte.newline)).reverse, ?_, ?_, ?_, List.length_reverse⟩
  · rw [← List.reverse_append, List.takeWhile_append_dropWhile, List.reverse_reverse]
  · have hhead := List.head?_dropWhile_not (· != Byte.newline) s.reverse
    unfold WholeLines
    rw [List.reverse_eq_nil_iff, List.getLast?_reverse]
    cases hdrop : s.reverse.dropWhile (· != Byte.newline) with
    | nil => exact Or.inl rfl
    | cons b t =>
      rw [hdrop] at hhead
      exact Or.inr (congrArg some (by simpa using hhead))
  · intro h
    have hall := List.all_eq_true.1 List.all_takeWhile _ (List.mem_reverse.1 h)
    simp at hall

/-- A text is cut before its first newline. -/
theorem exists_lineEnd (s : Bytes) :
    ∃ part rest, s = part ++ rest ∧ Byte.newline ∉ part ∧
      (rest = [] ∨ ∃ lines, rest = Byte.newline :: lines) := by
  refine ⟨s.takeWhile (· != Byte.newline), s.dropWhile (· != Byte.newline),
    List.takeWhile_append_dropWhile.symm, fun h => ?_, ?_⟩
  · have hall := List.all_eq_true.1 List.all_takeWhile _ h
    simp at hall
  · have hhead := List.head?_dropWhile_not (· != Byte.newline) s
    cases hdrop : s.dropWhile (· != Byte.newline) with
    | nil => exact Or.inl rfl
    | cons b lines =>
      rw [hdrop] at hhead
      obtain rfl : b = Byte.newline := by simpa using hhead
      exact Or.inr ⟨lines, rfl⟩

variable {s : Source} {lines part rest : Bytes}

/-- **Where lines start**, up to a place in a line and after it. -/
theorem lineStarts_append (hcontent : s.content = lines ++ (part ++ rest))
    (hpart : Byte.newline ∉ part) :
    s.lineStarts = (0 :: startsFrom 0 lines) ++ startsFrom (lines.length + part.length) rest := by
  rw [lineStarts, hcontent, startsFrom_append, startsFrom_append, startsFrom_of_notMem hpart,
    Nat.zero_add, List.nil_append, List.cons_append]

/-- The lines that start at or before a place. -/
theorem takeWhile_lineStarts (hcontent : s.content = lines ++ (part ++ rest))
    (hpart : Byte.newline ∉ part) :
    s.lineStarts.takeWhile (· ≤ lines.length + part.length) = 0 :: startsFrom 0 lines := by
  have hbefore : ∀ p ∈ 0 :: startsFrom 0 lines, decide (p ≤ lines.length + part.length) = true := by
    intro p hp
    rw [decide_eq_true_eq]
    rcases List.mem_cons.1 hp with rfl | hp
    · exact Nat.zero_le _
    · have := startsFrom_bounds hp
      omega
  have hafter : (startsFrom (lines.length + part.length) rest).takeWhile
      (· ≤ lines.length + part.length) = [] := by
    cases hstarts : startsFrom (lines.length + part.length) rest with
    | nil => rfl
    | cons p ps =>
      have hp : p ∈ startsFrom (lines.length + part.length) rest := hstarts ▸ List.mem_cons_self
      have hlt := (startsFrom_bounds hp).1
      exact List.takeWhile_cons_of_neg (by simpa using hlt)
  rw [lineStarts_append hcontent hpart, List.takeWhile_append_of_pos hbefore, hafter,
    List.append_nil]

/-! ### Places -/

/-- **The place of an offset.** -/
theorem location_append (hcontent : s.content = lines ++ (part ++ rest)) (hlines : WholeLines lines)
    (hpart : Byte.newline ∉ part) :
    s.location (lines.length + part.length) =
      { file := s.filename
        line := (lines.count Byte.newline).toUInt32 + 1
        column := part.length.toUInt32 + 1
        offset := (lines.length + part.length).toUInt32 } := by
  have hcount : (0 :: startsFrom 0 lines).length - 1 = lines.count Byte.newline := by
    rw [List.length_cons, length_startsFrom, Nat.add_sub_cancel]
  have hlast : (0 :: startsFrom 0 lines).getLastD 0 = lines.length := by
    rw [List.getLastD_eq_getLast?, hlines.getLast?_starts]
    rfl
  unfold location
  rw [takeWhile_lineStarts hcontent hpart]
  dsimp only
  rw [hcount, hlast, Nat.add_sub_cancel_left]

/-! ### Lines -/

section Line

variable (hcontent : s.content = lines ++ (part ++ rest)) (hpart : Byte.newline ∉ part)

include hcontent hpart

/-- The next line starts after the first newline that follows. -/
theorem getElem?_lineStarts_succ : s.lineStarts[lines.count Byte.newline + 1]? =
    (startsFrom (lines.length + part.length) rest).head? := by
  have hlength : (0 :: startsFrom 0 lines).length = lines.count Byte.newline + 1 := by
    rw [List.length_cons, length_startsFrom]
  rw [lineStarts_append hcontent hpart, ← hlength, List.getElem?_append_right (Nat.le_refl _),
    Nat.sub_self, List.head?_eq_getElem?]

variable (hlines : WholeLines lines)

include hlines

/-- The start of a line is found by its number. -/
theorem getElem?_lineStarts : s.lineStarts[lines.count Byte.newline]? = some lines.length := by
  have hlength : lines.count Byte.newline = (0 :: startsFrom 0 lines).length - 1 := by
    rw [List.length_cons, length_startsFrom, Nat.add_sub_cancel]
  rw [lineStarts_append hcontent hpart, List.getElem?_append_left (by simp [length_startsFrom]),
    hlength, ← List.getLast?_eq_getElem?, hlines.getLast?_starts]

/-- **The text of the last line**, which no newline ends. -/
theorem line_last (hrest : rest = []) : s.line (lines.count Byte.newline + 1) = part := by
  subst hrest
  rw [line, getElem?_lineStarts hcontent hpart hlines, getElem?_lineStarts_succ hcontent hpart]
  show s.content.drop lines.length = part
  rw [hcontent, List.drop_left, List.append_nil]

/-- **The text of a line** that a newline ends. -/
theorem line_ended {more : Bytes} (hrest : rest = Byte.newline :: more) :
    s.line (lines.count Byte.newline + 1) =
      if part.getLast? = some 0x0d then part.dropLast else part := by
  subst hrest
  have hnext : (startsFrom (lines.length + part.length) (Byte.newline :: more)).head? =
      some (lines.length + part.length + 1) := rfl
  have hslice : s.slice lines.length (lines.length + part.length + 1 - 1) = part := by
    rw [slice, if_neg (by omega), hcontent, List.drop_left, Nat.add_sub_cancel,
      Nat.add_sub_cancel_left]
    exact List.take_left
  rw [line, getElem?_lineStarts hcontent hpart hlines, getElem?_lineStarts_succ hcontent hpart,
    hnext]
  dsimp only
  rw [hslice]

end Line

/-- The byte at an offset ends its line: it is a newline, or a carriage return before one. -/
def EndsLine (s : Source) (offset : Nat) : Prop :=
  s.content[offset]? = some Byte.newline ∨
    s.content[offset]? = some 0x0d ∧ s.content[offset + 1]? = some Byte.newline

section Byte

variable {tail : Bytes} (hcontent : s.content = lines ++ (part ++ (tail ++ rest)))

include hcontent

theorem getElem?_content (i : Nat) :
    s.content[lines.length + part.length + i]? = (tail ++ rest)[i]? := by
  rw [hcontent, ← List.append_assoc, ← List.length_append, List.getElem?_append_right (by omega),
    Nat.add_sub_cancel_left]

variable (htail : Byte.newline ∉ tail) (hrest : rest = [] ∨ ∃ more, rest = Byte.newline :: more)

include htail hrest

/-- A line is ended by its newline, and by the carriage return before it. -/
theorem endsLine_iff : s.EndsLine (lines.length + part.length) ↔
    rest ≠ [] ∧ (tail = [] ∨ tail = [0x0d]) := by
  have hcurrent := getElem?_content hcontent 0
  have hnext := getElem?_content hcontent 1
  rw [Nat.add_zero] at hcurrent
  rw [EndsLine, hcurrent, hnext]
  cases tail with
  | nil => rcases hrest with rfl | ⟨more, rfl⟩ <;> simp
  | cons c tail =>
    have hc : c ≠ Byte.newline := fun h => htail (h ▸ List.mem_cons_self)
    cases tail with
    | nil => rcases hrest with rfl | ⟨more, rfl⟩ <;> simp [hc]
    | cons d tail =>
      have hd : d ≠ Byte.newline :=
        fun h => htail (h ▸ List.mem_cons_of_mem c List.mem_cons_self)
      simp [hc, hd]

variable (hlines : WholeLines lines) (hpart : Byte.newline ∉ part)

include hlines hpart

/-- **A byte is found in its line**, unless it ends the line. -/
theorem getElem?_line : (s.line (lines.count Byte.newline + 1))[part.length]? =
    if rest ≠ [] ∧ (tail = [] ∨ tail = [0x0d]) then none
    else s.content[lines.length + part.length]? := by
  have hcurrent := getElem?_content hcontent 0
  rw [Nat.add_zero] at hcurrent
  have hwhole : s.content = lines ++ ((part ++ tail) ++ rest) := by
    rw [hcontent, List.append_assoc]
  have hfree : Byte.newline ∉ part ++ tail := by
    rw [List.mem_append, not_or]
    exact ⟨hpart, htail⟩
  rw [hcurrent]
  rcases hrest with rfl | ⟨more, rfl⟩
  · rw [line_last hwhole hfree hlines rfl, if_neg (by simp), List.append_nil,
      List.getElem?_append_right (Nat.le_refl _), Nat.sub_self]
  rw [line_ended hwhole hfree hlines rfl]
  have hended : Byte.newline :: more ≠ [] := List.cons_ne_nil _ _
  cases tail with
  | nil =>
    conv_rhs => rw [if_pos ⟨hended, Or.inl rfl⟩]
    apply List.getElem?_eq_none
    rw [List.append_nil]
    split
    · rw [List.length_dropLast]
      omega
    · exact Nat.le_refl _
  | cons c tail =>
    cases tail with
    | nil =>
      rw [List.getLast?_concat, List.dropLast_concat]
      by_cases hc : c = 0x0d
      · rw [if_pos (congrArg some hc), if_pos ⟨hended, Or.inr (by rw [hc])⟩]
        exact List.getElem?_eq_none (Nat.le_refl _)
      · rw [if_neg (by simpa using hc), if_neg (by simpa using hc)]
        exact List.getElem?_concat_length
    | cons d tail =>
      have hdrop : (part ++ c :: d :: tail).dropLast = part ++ c :: (d :: tail).dropLast := by
        rw [List.dropLast_append_of_ne_nil (List.cons_ne_nil _ _)]
        rfl
      have hfound (t : Bytes) : (part ++ c :: t)[part.length]? = some c := by
        rw [List.getElem?_append_right (Nat.le_refl _), Nat.sub_self]
        rfl
      conv_rhs => rw [if_neg (by simp)]
      rw [hdrop]
      split
      · exact hfound _
      · exact hfound _

end Byte

/-! ### Offsets -/

theorem toNat_toUInt32_add_one {n : Nat} (h : n + 1 < 2 ^ 32) : (n.toUInt32 + 1).toNat = 1 + n := by
  rw [UInt32.toNat_add, Nat.toUInt32, UInt32.toNat_ofNat', UInt32.toNat_one,
    Nat.mod_eq_of_lt (show n < 2 ^ 32 by omega), Nat.mod_eq_of_lt h, Nat.add_comm]

/-- **A place counts the newlines before it and the bytes since the last of them**, from one on, and
in the text of its line the byte stands there, unless it ends the line; then the text ends before
it. -/
theorem location_spec (s : Source) {offset : Nat} (hsize : s.length < 2 ^ 32 - 1)
    (h : offset < s.length) :
    let before := s.content.take offset
    let place := s.location offset
    place.line.toNat = 1 + before.count Byte.newline ∧
    place.column.toNat = 1 + (before.reverse.takeWhile (· != Byte.newline)).length ∧
    (¬ s.EndsLine offset →
      (s.line place.line.toNat)[place.column.toNat - 1]? = s.content[offset]?) ∧
    (s.EndsLine offset → (s.line place.line.toNat).length < place.column.toNat) := by
  intro before place
  obtain ⟨lines, part, hbefore, hlines, hpart, hlength⟩ := exists_wholeLines before
  obtain ⟨tail, rest, hafter, htail, hrest⟩ := exists_lineEnd (s.content.drop offset)
  have hcontent : s.content = lines ++ (part ++ (tail ++ rest)) := by
    rw [← List.take_append_drop offset s.content, ← hafter, ← List.append_assoc, ← hbefore]
  have hoffset : lines.length + part.length = offset := by
    rw [← List.length_append, ← hbefore, List.length_take]
    exact Nat.min_eq_left (Nat.le_of_lt h)
  have hcount : before.count Byte.newline = lines.count Byte.newline := by
    rw [hbefore, List.count_append, List.count_eq_zero.2 hpart, Nat.add_zero]
  have hle : lines.count Byte.newline ≤ lines.length := List.count_le_length
  have hplace := location_append hcontent hlines hpart
  rw [hoffset] at hplace
  have hline : place.line.toNat = 1 + lines.count Byte.newline := by
    rw [show place = _ from hplace]
    exact toNat_toUInt32_add_one (by omega)
  have hcolumn : place.column.toNat = 1 + part.length := by
    rw [show place = _ from hplace]
    exact toNat_toUInt32_add_one (by omega)
  have hbyte := getElem?_line hcontent htail hrest hlines hpart
  have hends := endsLine_iff hcontent htail hrest
  rw [hoffset] at hbyte hends
  rw [hline, hcolumn, hcount, ← hlength, Nat.add_comm 1, Nat.add_comm 1, Nat.add_sub_cancel]
  refine ⟨rfl, rfl, fun hnot => ?_, fun hyes => ?_⟩
  · rw [hbyte, if_neg (mt hends.2 hnot)]
  · rw [if_pos (hends.1 hyes)] at hbyte
    exact Nat.lt_succ_of_le (List.getElem?_eq_none_iff.1 hbyte)

/-- A carriage return ends the first line; the third line starts after an empty one. -/
theorem location_spec_carriage :
    let s : Source := ⟨ascii "p.go", ascii "package a\r\n\nimport \"b\""⟩
    s.length < 2 ^ 32 - 1 ∧ 9 < s.length ∧ s.EndsLine 9 ∧ 13 < s.length ∧ ¬ s.EndsLine 13 ∧
      (s.location 9).line.toNat = 1 ∧ (s.line (s.location 9).line.toNat).length <
        (s.location 9).column.toNat ∧
      (s.location 13).line.toNat = 3 ∧ (s.location 13).column.toNat = 2 ∧
      (s.line (s.location 13).line.toNat)[(s.location 13).column.toNat - 1]? = some 0x6d := by
  intro s
  have hsize : s.length < 2 ^ 32 - 1 := by decide
  have hreturn : 9 < s.length := by decide
  have hm : 13 < s.length := by decide
  have hends : s.EndsLine 9 := Or.inr ⟨by decide, by decide⟩
  have hnot : ¬ s.EndsLine 13 := by
    rintro (h | ⟨h, -⟩)
    · exact absurd h (by decide)
    · exact absurd h (by decide)
  obtain ⟨hline, -, -, hafter⟩ := location_spec s hsize hreturn
  obtain ⟨hline', hcolumn', hfound, -⟩ := location_spec s hsize hm
  exact ⟨hsize, hreturn, hends, hm, hnot, hline, hafter hends, hline', hcolumn', hfound hnot⟩

end Source

end BuildOrder
