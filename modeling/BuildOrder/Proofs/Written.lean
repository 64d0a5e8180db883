import BuildOrder.Proofs.Nesting

/-!
# Each token stands in the code once

* `Reading.declaration_suffix`: a reader goes on with the tokens after those it read.
* `Reading.Code.isInfix`: **code is one piece of the tokens.**
* `count_tokenize_le_one`: a token that is written in a text is there once.
* `Source.Code.count_le_one`: **so is a bracket in code.**
-/

namespace BuildOrder

namespace Reading

variable {r : Reading} {b : Bracket} {t : Token} {ts inside body rest code : List Token}

/-! ### What a reader goes on with -/

theorem group_suffix (h : r.group b ts = .ok (body, rest)) : rest <:+ ts := by
  obtain ⟨c, -, rfl⟩ := group_split h
  exact ⟨body ++ [c], by simp⟩

theorem afterOpening?_suffix (h : afterOpening? b ts = some inside) : inside <:+ ts := by
  obtain ⟨t, -, rfl⟩ := afterOpening?_eq_some.1 h
  exact List.suffix_cons _ _

theorem declaration_suffix {seenOther : Bool} {d : Parsed Decl (ts.length + 1)}
    (h : r.declaration seenOther t ts = .ok d) : d.rest <:+ ts := by
  rcases declaration_cases h with ⟨-, hpasses⟩ | ⟨-, hrest, -⟩
  · exact hpasses.suffix
  · rw [hrest]
    exact ⟨_, spanTop_append .semicolon 0 ts⟩

theorem group_piece (h : r.group b ts = .ok (body, rest)) : body <:+: ts := by
  obtain ⟨c, -, rfl⟩ := group_split h
  exact ⟨[], c :: rest, by simp⟩

/-- **Code is one piece of the tokens.** -/
theorem Code.isInfix (h : r.Code ts code) : code <:+: ts := by
  induction h with
  | @body t ts inside code rest head _ hhead hopen hgroup =>
    have hsuffix := (afterOpening?_suffix hopen).trans (funcHead_passes hhead).suffix
    exact (group_piece hgroup).trans (hsuffix.trans (List.suffix_cons _ _)).isInfix
  | @grouped t keyword ts inside code rest _ hopen hgroup =>
    exact (group_piece hgroup).trans
      ((afterOpening?_suffix hopen).trans (List.suffix_cons _ _)).isInfix
  | @single t keyword ts _ _ =>
    have hfront : (spanTop .semicolon 0 ts).1 <+: ts := ⟨_, spanTop_append .semicolon 0 ts⟩
    exact hfront.isInfix.trans (List.suffix_cons _ _).isInfix
  | terminator _ _ ih => exact ih.trans (List.suffix_cons _ _).isInfix
  | next hd hnext _ ih =>
    have hsuffix := (endDeclaration_passes hnext).suffix.trans (declaration_suffix hd)
    exact ih.trans (hsuffix.trans (List.suffix_cons _ _)).isInfix

end Reading

/-! ### Tokens that are written -/

/-- Only terminators are inserted. -/
theorem Terminated.kind_eq {ended : Prop} {inserted : List Token}
    (h : Terminated ended inserted) : ∀ t ∈ inserted, t.kind = .semicolon := by
  intro t ht
  by_cases hended : ended
  · obtain ⟨offset, rfl⟩ := h.1 hended
    obtain rfl := List.mem_singleton.1 ht
    rfl
  · rw [h.2 hended] at ht
    cases ht

/-- A token is a terminator, or written, or the end of the file. -/
theorem Lexed.isWritten {before : Option Token} {pos : Nat} {s : Bytes} {ts : List Token}
    (h : Lexed before pos s ts) : ∀ t ∈ ts, t.kind ≠ .semicolon → t.kind ≠ .eof →
      t.isWritten = true := by
  induction h with
  | @last before pos offset gap inserted hgap hterminated =>
    intro t ht hsemicolon heof
    rcases List.mem_append.1 ht with ht | ht
    · exact absurd (hterminated.kind_eq t ht) hsemicolon
    · obtain rfl := List.mem_singleton.1 ht
      exact absurd rfl heof
  | @token before t pos gap s inserted ts hgap hterminated hwritten hoffset hne _ ih =>
    intro u hu hsemicolon heof
    rcases List.mem_append.1 hu with hu | hu
    · exact absurd (hterminated.kind_eq u hu) hsemicolon
    · rcases List.mem_cons.1 hu with rfl | hu
      · exact hwritten
      · exact ih u hu hsemicolon heof

/-- The tokens written in a text are different ones: each has an offset of its own. -/
theorem Tiles.nodup {pos : Nat} {s : Bytes} {ts : List Token} (h : Tiles pos s ts) : ts.Nodup := by
  induction h with
  | last => exact .nil
  | @token pos t gap s ts _ _ hne h ih =>
    refine List.nodup_cons.2 ⟨fun ht => ?_, ih⟩
    have hle := h.le_offset t ht
    have hpos := List.length_pos_iff.2 hne
    rw [Token.stop] at hle
    omega

/-- A token that is no terminator, and not the end of the file, is there once. -/
theorem count_tokenize_le_one (content : Bytes) {t : Token} (hsemicolon : t.kind ≠ .semicolon)
    (heof : t.kind ≠ .eof) : (tokenize content).tokens.count t ≤ 1 := by
  have hlexed := lexed_tokenize content
  by_cases ht : t ∈ (tokenize content).tokens
  · rw [← List.count_filter (hlexed.isWritten t ht hsemicolon heof)]
    exact List.nodup_iff_count.1 hlexed.tiles.nodup t
  · rw [List.count_eq_zero_of_not_mem ht]
    exact Nat.zero_le 1

/-- What stands before a token that is there once. -/
theorem eq_of_count_le_one {ts front front' : List Token} {t : Token} (h : front ++ [t] <+: ts)
    (h' : front' ++ [t] <+: ts) (honce : ts.count t ≤ 1) : front = front' := by
  have shorter {front front' : List Token} (hle : front ++ [t] <+: front' ++ [t])
      (h' : front' ++ [t] <+: ts) : front = front' := by
    rcases List.prefix_concat_iff.1 hle with heq | hfront
    · exact (List.append_inj' heq rfl).1
    · -- The token would stand in `front'`, and after it.
      have hpos := List.count_pos_iff.2 (hfront.subset (List.mem_concat_self (a := t)))
      have hcount := h'.sublist.count_le t
      rw [List.count_append, List.count_singleton_self] at hcount
      omega
  rcases Nat.le_total front.length front'.length with hle | hle
  · exact shorter (List.prefix_of_prefix_length_le h h' (by simpa using hle)) h'
  · exact (shorter (List.prefix_of_prefix_length_le h' h (by simpa using hle)) h).symm

/-- **So is such a token in code.** -/
theorem Source.Code.count_le_one {source : Source} {code : List Token} {t : Token}
    (h : source.Code code) (hsemicolon : t.kind ≠ .semicolon) (heof : t.kind ≠ .eof) :
    code.count t ≤ 1 := by
  obtain ⟨name, rest, hclause, hcode⟩ := h
  have hsublist : code.Sublist (tokenize source.content).tokens :=
    (hcode.isInfix.sublist.trans (Reading.packageClause_passes hclause).suffix.sublist).trans
      (List.dropLast_sublist _)
  exact Nat.le_trans (hsublist.count_le t) (count_tokenize_le_one _ hsemicolon heof)

end BuildOrder
