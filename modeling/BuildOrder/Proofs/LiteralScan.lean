import BuildOrder.Proofs.Headers

/-!
# What a scan for literals does at each step

* `Reading.scanLiterals_openHeader` and the like: what a scan does with the token at the front.
* `Reading.literalElements_blank`, `Reading.literalElements_unkeyed`,
  `Reading.literalElements_keyed`: what a reader of elements does with the first of them.
* `literalType?_qualified`, `literalType?_eq_some`: the tokens of the type of a literal.
-/

namespace BuildOrder

namespace Reading

variable {r : Reading} {s : LiteralScan} {t : Token} {ts after : List Token}

/-! ### Scanning -/

theorem scanLiterals_openHeader (ht : t.OpensHeader) :
    r.scanLiterals s (t :: ts) = r.scanLiterals s.openHeader ts := by
  rcases ht with ht | ht | ht <;> rw [scanLiterals] <;> simp only [ht]

theorem scanLiterals_func (ht : t.kind = .keyword .funcKw) :
    r.scanLiterals s (t :: ts) = r.skipSignature ts >>= fun after =>
      match afterOpening? .brace after with
      | none => r.scanLiterals s.past after
      | some inside => r.group .brace inside >>= fun parts =>
        r.scanLiterals {} parts.1 >>= fun inner =>
        r.scanLiterals s.past parts.2 >>= fun more => pure (inner ++ more) := by
  rw [scanLiterals]
  simp only [ht]
  split
  · rename_i hskip
    rw [hskip]
    rfl
  · rename_i after hskip
    rw [hskip]
    split <;> rename_i hopen <;> simp only [bind, Except.bind, hopen]
    split <;> rename_i hgroup <;> rw [hgroup]

theorem scanLiterals_opening {b : Bracket} (ht : t.kind = .opening b) :
    r.scanLiterals s (t :: ts) = r.scanLiterals (s.openGroup b) ts := by
  rw [scanLiterals]
  simp only [ht]

theorem scanLiterals_closing {b : Bracket} (ht : t.kind = .closing b) :
    r.scanLiterals s (t :: ts) = r.scanLiterals (s.closeGroup b) ts := by
  rw [scanLiterals]
  simp only [ht]

theorem scanLiterals_period (ht : t.kind = .period) :
    r.scanLiterals s (t :: ts) = r.scanLiterals { s with selected := true } ts := by
  rw [scanLiterals]
  simp only [ht]

theorem scanLiterals_token (hplain : ¬ t.IsBracket) (hheader : ¬ t.OpensHeader)
    (hfunc : t.kind ≠ .keyword .funcKw) (hperiod : t.kind ≠ .period)
    (hname : t.kind ≠ .identifier) : r.scanLiterals s (t :: ts) = r.scanLiterals s.past ts := by
  conv => lhs; rw [scanLiterals]
  split <;> rename_i ht
  · exact absurd (Or.inl ht) hheader
  · exact absurd (Or.inr (Or.inl ht)) hheader
  · exact absurd (Or.inr (Or.inr ht)) hheader
  · exact absurd ht hfunc
  · exact absurd ⟨_, Or.inl ht⟩ hplain
  · exact absurd ⟨_, Or.inr ht⟩ hplain
  · exact absurd ht hperiod
  · exact absurd ht hname
  · rfl

theorem scanLiterals_identifier (ht : t.kind = .identifier) :
    r.scanLiterals s (t :: ts) =
      if s.inHeader then r.scanLiterals s.past ts
      else match literalType? s.selected t ts with
        | none => r.scanLiterals s.past ts
        | some (type, inside) => r.group .brace inside >>= fun parts =>
          r.literalElements parts.1 >>= fun elements =>
          r.scanLiterals s.past parts.2 >>= fun more =>
          pure (.mk type (r.locate t) elements :: more) := by
  rw [scanLiterals]
  simp only [ht]
  split
  · rfl
  · split <;> rename_i htype <;> simp only [htype]
    split <;> rename_i hgroup <;> simp only [bind, Except.bind, hgroup]

theorem scanElement_eq :
    r.scanElement ts = match afterOpening? .brace ts with
      | none => r.scanLiterals {} ts
      | some inside => r.group .brace inside >>= fun parts =>
        r.literalElements parts.1 >>= fun elements =>
        r.scanLiterals {} parts.2 >>= fun more =>
        pure (.mk {} (r.locate (r.front ts)) elements :: more) := by
  rw [scanElement]
  split <;> rename_i hopen <;> simp only [hopen]
  split <;> rename_i hgroup <;> simp only [bind, Except.bind, hgroup]

/-! ### Elements -/

theorem literalElements_blank
    (hblank : (trimTerminators (spanTop .comma 0 (t :: ts)).1).isEmpty = true) :
    r.literalElements (t :: ts) = r.literalElements (spanTop .comma 0 (t :: ts)).2.tail := by
  rw [literalElements, if_pos hblank]

theorem literalElements_unkeyed {entry : List Token}
    (hentry : ¬ (trimTerminators (spanTop .comma 0 (t :: ts)).1).isEmpty = true)
    (hcolon : spanTop .colon 0 (trimTerminators (spanTop .comma 0 (t :: ts)).1) = (entry, [])) :
    r.literalElements (t :: ts) =
      r.scanElement entry >>= fun nested =>
      r.literalElements (spanTop .comma 0 (t :: ts)).2.tail >>= fun more =>
      pure (⟨false, nested⟩ :: more) := by
  rw [literalElements, if_neg hentry]
  split
  · rename_i hsplit
    cases hcolon.symm.trans hsplit
    rfl
  · rename_i hsplit
    cases hcolon.symm.trans hsplit

theorem literalElements_keyed {key value : List Token} {colon : Token}
    (hentry : ¬ (trimTerminators (spanTop .comma 0 (t :: ts)).1).isEmpty = true)
    (hcolon : spanTop .colon 0 (trimTerminators (spanTop .comma 0 (t :: ts)).1) =
      (key, colon :: value)) :
    r.literalElements (t :: ts) =
      r.scanElement key >>= fun inKey =>
      r.scanElement value >>= fun inValue =>
      r.literalElements (spanTop .comma 0 (t :: ts)).2.tail >>= fun more =>
      pure (⟨true, inKey ++ inValue⟩ :: more) := by
  rw [literalElements, if_neg hentry]
  split
  · rename_i hsplit
    cases hcolon.symm.trans hsplit
  · rename_i hsplit
    cases hcolon.symm.trans hsplit
    rfl

/-- Only terminators are cut off. -/
theorem exists_trimTerminators (ts : List Token) :
    ∃ front back, ts = front ++ (trimTerminators ts ++ back) ∧
      (∀ t ∈ front, t.kind = .semicolon) ∧ ∀ t ∈ back, t.kind = .semicolon := by
  have hall {us : List Token} : ∀ t ∈ us.takeWhile (·.kind == .semicolon), t.kind = .semicolon :=
    fun t ht => by simpa using List.all_eq_true.1 List.all_takeWhile t ht
  let rest := ts.dropWhile (·.kind == .semicolon)
  refine ⟨ts.takeWhile (·.kind == .semicolon),
    (rest.reverse.takeWhile (·.kind == .semicolon)).reverse, ?_, hall, fun t ht => ?_⟩
  · have hrest : trimTerminators ts ++ (rest.reverse.takeWhile (·.kind == .semicolon)).reverse =
        rest := by
      rw [trimTerminators, ← List.reverse_append, List.takeWhile_append_dropWhile,
        List.reverse_reverse]
    rw [hrest, List.takeWhile_append_dropWhile]
  · exact hall t (List.mem_reverse.1 ht)

/-! ### The type of a literal -/

theorem literalType?_qualified {point name brace : Token} {inside : List Token}
    (hpoint : point.kind = .period) (hname : name.kind = .identifier)
    (hbrace : brace.kind = .opening .brace) :
    literalType? false t (point :: name :: brace :: inside) =
      some (⟨t.lexeme, name.lexeme⟩, inside) := by
  cases point
  cases name
  cases brace
  cases hpoint
  cases hname
  cases hbrace
  rfl

/-- The tokens of the type of a literal, after the first of them, and its brace. -/
theorem literalType?_eq_some {selected : Bool} {type : LiteralType} {inside : List Token}
    (h : literalType? selected t ts = some (type, inside)) :
    (∃ brace, brace.kind = .opening .brace ∧ ts = brace :: inside) ∨
      ∃ point name brace, point.kind = .period ∧ name.kind = .identifier ∧
        brace.kind = .opening .brace ∧ ts = point :: name :: brace :: inside := by
  unfold literalType? at h
  split at h
  · split at h
    · cases h
    · obtain ⟨-, rfl⟩ := Prod.mk.inj (Option.some.inj h)
      exact Or.inr ⟨_, _, _, rfl, rfl, rfl, rfl⟩
  · obtain ⟨-, rfl⟩ := Prod.mk.inj (Option.some.inj h)
    exact Or.inl ⟨_, rfl, rfl⟩
  · cases h

end Reading

end BuildOrder
