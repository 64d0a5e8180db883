import BuildOrder.Proofs.Tiling

/-!
# Offsets lie within the text

* `scanToken_fits`: a token takes no more than the text has, unless the text ends within an escape
  sequence, just after its backslash.
* `Gap.skip_bounds`: what a gap leaves stands before its end.
* `placed_read`, `tokenize_offsets`: **tokens and faults stand within the text**, and the end of the
  file at its end, or one byte after it where an escape sequence is cut off.
* `exists_beyond`: a text whose end of file stands beyond its end.
-/

namespace BuildOrder

/-! ### Numbers -/

theorem runLength_le (p : UInt8 → Bool) (s : Bytes) : runLength p s ≤ s.length :=
  (List.takeWhile_prefix p).length_le

/-- What follows a cut is what the cut leaves. -/
theorem length_of_drop {s rest : Bytes} {b : UInt8} {n : Nat} (h : s.drop n = b :: rest) :
    s.length = n + 1 + rest.length := by
  have hlength := congrArg List.length h
  rw [List.length_drop, List.length_cons] at hlength
  omega

/-- An exponent is no longer than the text after its letter. -/
theorem exponent_le (p : UInt8 → Bool) (s : Bytes) :
    signWidth s + runLength p (s.drop (signWidth s)) ≤ s.length := by
  have hsign : signWidth s ≤ s.length := by
    unfold signWidth
    split
    · split <;> simp
    · exact Nat.zero_le _
  have hrun := runLength_le p (s.drop (signWidth s))
  rw [List.length_drop] at hrun
  omega

theorem hexNumber_le (s : Bytes) : (hexNumber s).2 ≤ s.length := by
  have hbody := runLength_le (fun b => Byte.isHexDigit b || b == 0x5f || b == Byte.dot) s
  unfold runLength at hbody
  unfold hexNumber
  dsimp only
  split
  · rename_i b rest hdrop
    have hlength := length_of_drop hdrop
    have hexponent := exponent_le Byte.isDigit rest
    split
    · dsimp only
      omega
    · exact hbody
  · exact hbody

theorem decimalBody_le (s : Bytes) : (decimalBody s).2 ≤ s.length := by
  have hwhole := runLength_le isDigitOrUnderscore s
  unfold decimalBody
  dsimp only
  split
  · rename_i b rest hdrop
    have hlength := length_of_drop hdrop
    have hrun := runLength_le isDigitOrUnderscore rest
    split
    · dsimp only
      omega
    · exact hwhole
  · exact hwhole

theorem decimalNumber_le (s : Bytes) : (decimalNumber s).2 ≤ s.length := by
  have hbody := decimalBody_le s
  unfold decimalNumber
  dsimp only
  split
  · rename_i b rest hdrop
    have hlength := length_of_drop hdrop
    have hexponent := exponent_le Byte.isDigit rest
    split
    · dsimp only
      omega
    · exact hbody
  · exact hbody

theorem realNumber_le (s : Bytes) : (realNumber s).2 ≤ s.length := by
  unfold realNumber
  split
  · rename_i b rest
    have hhex := hexNumber_le rest
    have hrun := runLength_le isDigitOrUnderscore rest
    split
    · simp only [List.length_cons]
      omega
    · split
      · simp only [List.length_cons]
        omega
      · exact decimalNumber_le _
  · exact decimalNumber_le _

theorem scanNumber_le (s : Bytes) : (scanNumber s).2 ≤ s.length := by
  have hreal := realNumber_le s
  unfold scanNumber
  split
  · rename_i heq
    rw [heq] at hreal
    exact hreal
  · rename_i width hkind heq
    rw [heq] at hreal
    split
    · rename_i himaginary
      obtain ⟨rest, hrest⟩ := List.head?_eq_some_iff.1 himaginary
      have hlength := length_of_drop hrest
      dsimp only
      omega
    · exact hreal

/-! ### Escapes -/

namespace Escape

/-- The digits after a letter, and what follows them. -/
theorem exists_digits (p : UInt8 → Bool) (count : Nat) (s : Bytes) :
    ∃ digits rest, s = digits ++ rest ∧ (s.take count).takeWhile p = digits ∧
      digits.length ≤ count ∧ ∀ d ∈ digits, p d = true := by
  have hprefix : (s.take count).takeWhile p <+: s :=
    (List.takeWhile_prefix p).trans (List.take_prefix count s)
  have hlength : ((s.take count).takeWhile p).length ≤ count :=
    Nat.le_trans (runLength_le p (s.take count)) (List.length_take_le count s)
  obtain ⟨rest, hrest⟩ := hprefix
  exact ⟨_, rest, hrest.symm, rfl, hlength, List.all_eq_true.1 List.all_takeWhile⟩

/-- An escape takes no more than there is. -/
def Within (s : Bytes) : Escape → Prop
  | text _ width => width ≤ s.length
  | unknown width => 0 < width ∧ width ≤ s.length ∧ Byte.backslash ∉ s.take width

theorem within_unknown {b : UInt8} (hb : b ≠ Byte.backslash) {digits rest : Bytes}
    (hdigits : Byte.backslash ∉ digits) :
    Within (b :: (digits ++ rest)) (.unknown (1 + digits.length)) := by
  have htake : (b :: (digits ++ rest)).take (1 + digits.length) = b :: digits := by
    rw [Nat.add_comm, List.take_succ_cons]
    exact congrArg _ List.take_left
  refine ⟨by omega, ?_, ?_⟩
  · simp only [List.length_cons, List.length_append]
    omega
  · rw [htake, List.mem_cons, not_or]
    exact ⟨hb.symm, hdigits⟩

theorem within_hex {b : UInt8} (hb : b ≠ Byte.backslash) (count : Nat) (s : Bytes) :
    Within (b :: s) (hex b count s) := by
  obtain ⟨digits, rest, rfl, hdigits, hcount, hall⟩ := exists_digits Byte.isHexDigit count s
  have hfree : Byte.backslash ∉ digits := fun h => absurd (hall _ h) (by decide)
  have hlength : digits.length ≤ (digits ++ rest).length := by simp
  unfold hex
  dsimp only
  rw [hdigits]
  by_cases hshort : digits.length < count
  · rw [if_pos hshort]
    exact within_unknown hb hfree
  obtain rfl : digits.length = count := by omega
  rw [if_neg hshort]
  split
  · show _ ≤ (digits ++ rest).length + 1
    omega
  split
  · show _ ≤ (digits ++ rest).length + 1
    omega
  · exact within_unknown hb hfree

theorem within_octal {b : UInt8} (hb : b ≠ Byte.backslash) (s : Bytes) :
    Within (b :: s) (octal b s) := by
  obtain ⟨digits, rest, rfl, hdigits, hcount, hall⟩ := exists_digits Byte.isOctalDigit 2 s
  have hfree : Byte.backslash ∉ digits := fun h => absurd (hall _ h) (by decide)
  have hlength : digits.length ≤ (digits ++ rest).length := by simp
  unfold octal
  dsimp only
  rw [hdigits]
  by_cases hshort : digits.length < 2
  · rw [if_pos hshort]
    exact within_unknown hb hfree
  have htwo : digits.length = 2 := by omega
  rw [if_neg hshort]
  split
  · show _ ≤ (digits ++ rest).length + 1
    omega
  · have hunknown : Within (b :: (digits ++ rest)) (.unknown (1 + digits.length)) :=
      within_unknown hb hfree
    rwa [htwo] at hunknown

/-- **An escape takes no more than there is**, and no backslash if it means nothing. -/
theorem within_read (quote b : UInt8) (s : Bytes) : Within (b :: s) (read quote (b :: s)) := by
  have hsingle {bytes : Bytes} : Within (b :: s) (.text bytes 1) := by simp [Within]
  rw [read]
  split
  · exact hsingle
  · rename_i hletter hhex
    refine within_hex ?_ _ s
    rintro rfl
    cases hletter
  · rename_i hletter hhex
    have hb : b ≠ Byte.backslash := by
      rintro rfl
      cases hletter
    split
    · exact within_octal hb s
    split
    · exact hsingle
    · have hnone : Byte.backslash ∉ ([] : Bytes) := List.not_mem_nil
      exact within_unknown hb hnone

end Escape

/-! ### Literals -/

/-- The text ends just after a backslash of the token. -/
def CutOff (kind : TokenKind) (lexeme : Bytes) : Prop :=
  kind = .invalid .badEscape ∧ lexeme.getLast? = some Byte.backslash

instance (kind : TokenKind) (lexeme : Bytes) : Decidable (CutOff kind lexeme) :=
  inferInstanceAs (Decidable (_ ∧ _))

/-- A literal takes no more of a text than there is, and does not break off after a backslash; or it
takes the whole text, which ends in a backslash, and the byte that is missing there. -/
def Quoted.Takes (q : Quoted) (s : Bytes) : Prop :=
  (q.width ≤ s.length ∧ (q.ending = .badEscape →
      ∃ c, c ≠ Byte.backslash ∧ (s.take q.width).getLast? = some c)) ∨
    (q.width = s.length + 1 ∧ q.ending = .badEscape ∧ s.getLast? = some Byte.backslash)

/-- A piece at the front leaves the end as it is. -/
theorem Quoted.Takes.cons {q : Quoted} {s : Bytes} (h : q.Takes s) (piece : Piece) (read : Bytes) :
    (q.cons piece read.length).Takes (read ++ s) := by
  have hwidth : (q.cons piece read.length).width = read.length + q.width := rfl
  have hlength : (read ++ s).length = read.length + s.length := List.length_append
  rcases h with ⟨hle, hbad⟩ | ⟨hover, hbad, hlast⟩
  · refine Or.inl ⟨by omega, fun hending => ?_⟩
    obtain ⟨c, hc, hlast⟩ := hbad hending
    refine ⟨c, hc, ?_⟩
    rw [hwidth, List.take_length_add_append, List.getLast?_append, hlast]
    rfl
  · refine Or.inr ⟨by omega, hbad, ?_⟩
    rw [List.getLast?_append, hlast]
    rfl

/-- **A literal takes no more than there is**, but for the byte that an escape misses. -/
theorem scanQuoted_takes (quote : UInt8) (s : Bytes) : (scanQuoted quote s).Takes s := by
  fun_induction scanQuoted quote s with
  | case1 => exact Or.inl ⟨Nat.le_refl 0, nofun⟩
  | case2 => exact Or.inl ⟨Nat.zero_le _, nofun⟩
  | case3 => exact Or.inl ⟨by simp, nofun⟩
  | case4 s width hread hnewline hquote =>
    -- an escape without a meaning ends the literal
    cases s with
    | nil =>
      cases hread
      exact Or.inr ⟨rfl, rfl, rfl⟩
    | cons c s =>
      have hwithin := Escape.within_read quote c s
      rw [hread] at hwithin
      obtain ⟨hpos, hle, hfree⟩ := hwithin
      refine Or.inl ⟨?_, fun _ => ?_⟩
      · simp only [List.length_cons] at hle ⊢
        omega
      · obtain ⟨last, hlast⟩ : ∃ last, ((c :: s).take width).getLast? = some last :=
          Option.isSome_iff_exists.1 (by simp; omega)
        refine ⟨last, fun h => hfree (h ▸ List.mem_of_getLast? hlast), ?_⟩
        rw [Nat.add_comm 1 width, List.take_succ_cons, List.getLast?_cons, hlast]
        rfl
  | case5 s bytes width hread hnewline hquote ih =>
    have hle : width ≤ s.length := by
      cases s with
      | nil => cases hread
      | cons c s =>
        have hwithin := Escape.within_read quote c s
        rwa [hread] at hwithin
    have htakes := ih.cons (.escape bytes) (Byte.backslash :: s.take width)
    rwa [List.cons_append, List.take_append_drop, List.length_cons, List.length_take,
      Nat.min_eq_left hle, Nat.add_comm] at htakes
  | case6 b s hnewline hquote hbackslash ih => exact ih.cons (.plain b) [b]

/-- What a token takes of the text that it starts. -/
def Fits (kind : TokenKind) (width : Nat) (s : Bytes) : Prop :=
  (width ≤ s.length ∧ ¬ CutOff kind (s.take width)) ∨
    (width = s.length + 1 ∧ CutOff kind (s.take width))

theorem fits_of_ne {kind : TokenKind} (hkind : kind ≠ .invalid .badEscape) {width : Nat} {s : Bytes}
    (hwidth : width ≤ s.length) : Fits kind width s :=
  Or.inl ⟨hwidth, fun h => hkind h.1⟩

theorem fits_quoted (b quote : UInt8) (s : Bytes) {kind : TokenKind}
    (hkind : kind = .invalid .badEscape ↔ (scanQuoted quote s).ending = .badEscape) :
    Fits kind (1 + (scanQuoted quote s).width) (b :: s) := by
  have htake : (b :: s).take (1 + (scanQuoted quote s).width) =
      b :: s.take (scanQuoted quote s).width := by
    rw [Nat.add_comm, List.take_succ_cons]
  unfold Fits CutOff
  rw [htake, List.getLast?_cons, List.length_cons, hkind, Option.some.injEq]
  rcases scanQuoted_takes quote s with ⟨hwidth, hbad⟩ | ⟨hwidth, hbad, hlast⟩
  · refine Or.inl ⟨by omega, fun ⟨hending, hlast⟩ => ?_⟩
    obtain ⟨c, hc, hc'⟩ := hbad hending
    rw [hc'] at hlast
    exact hc hlast
  · refine Or.inr ⟨by omega, hbad, ?_⟩
    rw [List.take_of_length_le (by omega), hlast]
    rfl

/-- **A token takes no more than there is**, but for the byte that an escape misses. -/
theorem scanToken_fits (b : UInt8) (s : Bytes) :
    Fits (scanToken b s).kind (scanToken b s).width (b :: s) := by
  have hrun := runLength_le isWordByte s
  unfold runLength at hrun
  unfold scanToken
  split
  · refine fits_of_ne (TokenKind.ofWord_ne (Or.inr rfl) _) ?_
    simp only [List.length_cons]
    omega
  split
  · exact fits_of_ne (scanNumber_ne (Or.inr rfl) _) (scanNumber_le _)
  split
  · rename_i hb
    subst hb
    have hstring : (scanString s).width = 1 + (scanQuoted Byte.quote s).width := by
      unfold scanString
      dsimp only
      split <;> rfl
    rw [hstring]
    refine fits_quoted Byte.quote Byte.quote s ?_
    unfold scanString
    dsimp only
    split <;> rename_i hending <;> simp [hending]
  split
  · unfold scanRawString
    have hbody := runLength_le (· != Byte.backquote) s
    unfold runLength at hbody
    dsimp only
    split
    · refine fits_of_ne (by simp) ?_
      simp only [List.length_cons]
      omega
    · refine fits_of_ne (by simp) ?_
      simp only [List.length_cons]
      omega
  split
  · rename_i hb
    subst hb
    have hrune : (scanRune s).width = 1 + (scanQuoted Byte.apostrophe s).width := by
      unfold scanRune
      dsimp only
      split <;> rfl
    rw [hrune]
    refine fits_quoted Byte.apostrophe Byte.apostrophe s ?_
    unfold scanRune
    dsimp only
    split <;> rename_i hending
    · dsimp only
      split <;> simp [hending]
    · simp [hending]
    · simp [hending]
  · unfold scanOperator
    split
    · rename_i c rest hfind
      have hprefix := List.find?_some hfind
      have hlength := (List.isPrefixOf_iff_prefix.1 hprefix).length_le
      exact fits_of_ne (by simp) hlength
    · refine fits_of_ne (kindOfByte_ne (Or.inr rfl) b) ?_
      simp

/-! ### Gaps -/

theorem BlockComment.le_pos (pos : Nat) (spansLines : Bool) (s : Bytes) :
    pos ≤ (skip pos spansLines s).pos := by
  obtain ⟨text, -, -, h⟩ := exists_text pos spansLines s
  rcases h with ⟨-, -, hpos⟩ | ⟨-, -, -, hpos⟩ <;> omega

namespace Gap

theorem le_pos (pos : Nat) (s : Bytes) : pos ≤ (skip pos s).pos := by
  obtain ⟨text, h⟩ := spans_skip pos s
  have := h.pos_eq
  omega

/-- What is before a place and what is after it make up the text. -/
theorem pos_add_length (pos : Nat) (s : Bytes) :
    (skip pos s).pos + (skip pos s).rest.length = pos + s.length := by
  obtain ⟨text, h⟩ := spans_skip pos s
  have hlength := congrArg List.length h.eq
  rw [List.length_append] at hlength
  have := h.pos_eq
  omega

/-- **What a gap leaves stands before its end.** -/
theorem skip_bounds (pos : Nat) (s : Bytes) :
    (∀ p ∈ (skip pos s).lineBreak, p ≤ (skip pos s).pos) ∧
      ∀ p ∈ (skip pos s).openComment, p < (skip pos s).pos := by
  have hnone (bound : Nat) : (∀ p ∈ (none : Option Nat), p ≤ bound) ∧
      ∀ p ∈ (none : Option Nat), p < bound := by
    constructor
    · intro p hp
      cases hp
    · intro p hp
      cases hp
  fun_induction skip pos s with
  | case1 => exact hnone _
  | case2 pos s _ ih =>
    have hle := le_pos (pos + 1) s
    refine ⟨fun p hp => ?_, ih.2⟩
    cases hp
    show pos ≤ (skip (pos + 1) s).pos
    omega
  | case3 _ _ _ _ _ ih => exact ih
  | case4 _ _ _ _ _ _ _ ih => exact ih
  | case5 pos b s _ _ _ _ comment gap ih =>
    have hcomment : pos + 2 ≤ comment.pos := BlockComment.le_pos (pos + 2) false s.tail
    have hgap : comment.pos ≤ gap.pos := le_pos comment.pos comment.rest
    refine ⟨fun p hp => ?_, fun p hp => ?_⟩
    · dsimp only at hp ⊢
      split at hp
      · cases hp
        exact hgap
      · exact ih.1 p hp
    · dsimp only at hp ⊢
      split at hp
      · exact ih.2 p hp
      · cases hp
        omega
  | case6 => exact hnone _

end Gap

/-! ### Tokens and faults -/

/-- The token is a literal whose last escape sequence the end of the text cuts off. -/
def Token.isCutOff (t : Token) : Bool := decide (CutOff t.kind t.lexeme)

/-- The tokens and faults stand within a text of `n` bytes, and the end of the file at its end, or
one byte after it where an escape sequence is cut off. -/
structure TokenStream.Placed (n : Nat) (stream : TokenStream) : Prop where
  token : ∀ t ∈ stream.tokens, t.kind ≠ .eof → t.offset ≤ n
  fault : ∀ f ∈ stream.faults, f.2 < n
  endOfFile : ∀ t ∈ stream.tokens, t.kind = .eof →
    t.offset = n + if stream.tokens.any Token.isCutOff then 1 else 0

namespace TokenStream.Placed

variable {n : Nat} {stream : TokenStream}

theorem terminator_isCutOff (offset : Nat) : (Token.terminator offset).isCutOff = false := by
  simp [Token.isCutOff, CutOff, Token.terminator]

/-- The end of a text. -/
theorem last : Placed n ⟨[Token.endOfFile n], []⟩ where
  token t ht hkind := by
    obtain rfl := List.mem_singleton.1 ht
    exact absurd rfl hkind
  fault := nofun
  endOfFile t ht _ := by
    obtain rfl := List.mem_singleton.1 ht
    rfl

/-- What a gap leaves. -/
theorem afterGap (h : Placed n stream) {gap : Gap} {terminated : Option Nat}
    (hbreak : ∀ p ∈ terminated, p ≤ n) (hopen : ∀ p ∈ gap.openComment, p < n) :
    Placed n (TokenStream.afterGap gap terminated stream) where
  token t ht hkind := by
    rcases List.mem_append.1 ht with ht | ht
    · obtain ⟨p, hp, rfl⟩ := Option.map_eq_some_iff.1 (Option.mem_toList.1 ht)
      exact hbreak p hp
    · exact h.token t ht hkind
  fault f hf := by
    rcases List.mem_append.1 hf with hf | hf
    · obtain ⟨p, hp, rfl⟩ := Option.map_eq_some_iff.1 (Option.mem_toList.1 hf)
      exact hopen p hp
    · exact h.fault f hf
  endOfFile t ht hkind := by
    have hany : (TokenStream.afterGap gap terminated stream).tokens.any Token.isCutOff =
        stream.tokens.any Token.isCutOff := by
      cases terminated with
      | none => rfl
      | some p => simp [TokenStream.afterGap, terminator_isCutOff]
    rw [hany]
    rcases List.mem_append.1 ht with ht | ht
    · obtain ⟨p, -, rfl⟩ := Option.map_eq_some_iff.1 (Option.mem_toList.1 ht)
      cases hkind
    · exact h.endOfFile t ht hkind

/-- A token before the end of the text. -/
theorem cons (h : Placed n stream) {t : Token} (hkind : t.kind ≠ .eof) (hoffset : t.offset < n)
    (hcut : t.isCutOff = false) : Placed n (stream.cons t) where
  token u hu hne := by
    rcases List.mem_cons.1 hu with rfl | hu
    · exact Nat.le_of_lt hoffset
    · exact h.token u hu hne
  fault f hf := by
    unfold TokenStream.cons at hf
    dsimp only at hf
    split at hf
    · rcases List.mem_cons.1 hf with rfl | hf
      · exact hoffset
      · exact h.fault f hf
    · exact h.fault f hf
  endOfFile u hu hne := by
    have hany : (stream.cons t).tokens.any Token.isCutOff = stream.tokens.any Token.isCutOff := by
      simp [TokenStream.cons, hcut]
    rw [hany]
    rcases List.mem_cons.1 hu with rfl | hu
    · exact absurd hne hkind
    · exact h.endOfFile u hu hne

/-- A token that the end of the text cuts off, after a backslash. -/
theorem cutOff {t : Token} (hkind : t.kind ≠ .eof) (hoffset : t.offset < n)
    (hcut : t.isCutOff = true) : Placed n (TokenStream.cons t ⟨[Token.endOfFile (n + 1)], []⟩) where
  token u hu hne := by
    rcases List.mem_cons.1 hu with rfl | hu
    · exact Nat.le_of_lt hoffset
    · obtain rfl := List.mem_singleton.1 hu
      exact absurd rfl hne
  fault f hf := by
    unfold TokenStream.cons at hf
    dsimp only at hf
    split at hf
    · obtain rfl := List.mem_singleton.1 hf
      exact hoffset
    · cases hf
  endOfFile u hu hne := by
    have hany : (TokenStream.cons t ⟨[Token.endOfFile (n + 1)], []⟩).tokens.any Token.isCutOff := by
      simp [TokenStream.cons, hcut]
    rw [if_pos hany]
    rcases List.mem_cons.1 hu with rfl | hu
    · exact absurd hne hkind
    · obtain rfl := List.mem_singleton.1 hu
      rfl

end TokenStream.Placed

/-- **Tokens and faults stand within the text**, from any place on. -/
theorem TokenStream.placed_read {n : Nat} (ends : Bool) {pos : Nat} {s : Bytes}
    (h : pos + s.length = n) : Placed n (read ends pos s) := by
  fun_induction read ends pos s with
  | case1 ends pos s gap _ hrest =>
    have hpos : gap.pos + gap.rest.length = pos + s.length := Gap.pos_add_length pos s
    have hbounds : (∀ p ∈ gap.lineBreak, p ≤ gap.pos) ∧ ∀ p ∈ gap.openComment, p < gap.pos :=
      Gap.skip_bounds pos s
    rw [hrest, List.length_nil, h, Nat.add_zero] at hpos
    rw [hpos] at hbounds ⊢
    refine Placed.last.afterGap (fun p hp => ?_) hbounds.2
    cases hbreak : gap.lineBreak with
    | none =>
      rw [hbreak] at hp
      split at hp
      · cases hp
        exact Nat.le_refl n
      · cases hp
    | some q =>
      rw [hbreak] at hp
      split at hp
      · cases hp
        exact hbounds.1 q hbreak
      · cases hp
  | case2 ends pos s gap _ b rest hrest lexeme token ih =>
    have hpos : gap.pos + gap.rest.length = pos + s.length := Gap.pos_add_length pos s
    have hbounds : (∀ p ∈ gap.lineBreak, p ≤ gap.pos) ∧ ∀ p ∈ gap.openComment, p < gap.pos :=
      Gap.skip_bounds pos s
    have hkind : token.kind ≠ .eof := scanToken_ne_eof b rest
    have hfits : Fits lexeme.kind lexeme.width gap.rest := by
      rw [hrest]
      exact scanToken_fits b rest
    have hlength : gap.rest.length = rest.length + 1 := by rw [hrest, List.length_cons]
    have hoffset : token.offset < n := by
      show gap.pos < n
      omega
    have hplaced : Placed n ((read token.endsStatement (gap.pos + lexeme.width)
        (gap.rest.drop lexeme.width)).cons token) := by
      rcases hfits with ⟨hwidth, hcut⟩ | ⟨hwidth, hcut⟩
      · refine (ih ?_).cons hkind hoffset (decide_eq_false hcut)
        rw [List.length_drop]
        omega
      · -- The reader stands a byte after the end of the text.
        have hstop : gap.pos + lexeme.width = n + 1 := by omega
        have hends : token.endsStatement = false := by
          unfold Token.endsStatement
          rw [show token.kind = .invalid .badEscape from hcut.1]
        rw [hstop, List.drop_eq_nil_of_le (by omega), hends, read_end]
        exact Placed.cutOff hkind hoffset (decide_eq_true hcut)
    refine hplaced.afterGap (fun p hp => ?_) fun p hp => ?_
    · split at hp
      · have := hbounds.1 p hp
        omega
      · cases hp
    · have := hbounds.2 p hp
      omega

/-- **Tokens and faults stand within the text.** The end of the file stands at its end, or one byte
after it where the last token is a literal whose escape sequence has nothing after its backslash. -/
theorem tokenize_offsets (content : Bytes) :
    let stream := tokenize content
    (∀ t ∈ stream.tokens, t.kind ≠ .eof → t.offset ≤ content.length) ∧
    (∀ f ∈ stream.faults, f.2 < content.length) ∧
    ∀ t ∈ stream.tokens, t.kind = .eof →
      t.offset = content.length + if stream.tokens.any Token.isCutOff then 1 else 0 := by
  have hplaced : (tokenize content).Placed content.length :=
    TokenStream.placed_read false (Nat.zero_add _)
  exact ⟨hplaced.token, hplaced.fault, hplaced.endOfFile⟩

/-- **A text whose end of file stands beyond its end**: a quote and a backslash. -/
theorem exists_beyond : ∃ t ∈ (tokenize (ascii "\"\\")).tokens,
    t.kind = .eof ∧ t.offset = (ascii "\"\\").length + 1 := by
  refine ⟨Token.endOfFile 3, ?_, rfl, rfl⟩
  have htokens : (tokenize (ascii "\"\\")).tokens =
      [{ kind := .invalid .badEscape, lexeme := ascii "\"\\", offset := 0 },
        Token.endOfFile 3] := by
    decide +kernel
  rw [htokens]
  exact List.mem_cons_of_mem _ List.mem_cons_self

end BuildOrder
