import BuildOrder.Proofs.Gaps

/-!
# Tokens tile the text

* `scanToken_ne_eof`: no token of a text is the end of the file.
* `Lexed`, `lexed_read`: **gaps, tokens and inserted terminators** come one after the other, from
  any place of a text on.
* `Tiles`, `tokenize_tiles`: **the tokens written in a text and the gaps between them make it up**,
  and the end of the file comes last and once.
* `Token.Ends`: the kinds of tokens that end a statement.
* `tokenize_terminates`: **a terminator is inserted after a statement that a line break or the end
  of the text ends**, one, and nowhere else.
-/

namespace BuildOrder

/-! ### Tokens -/

theorem TokenKind.ofWord_ne {k : TokenKind} (hk : k = .eof ∨ k = .invalid .badEscape)
    (word : Bytes) : ofWord word ≠ k := by
  unfold ofWord
  split <;> rcases hk with rfl | rfl <;> nofun

theorem kindOfByte_ne {k : TokenKind} (hk : k = .eof ∨ k = .invalid .badEscape) (b : UInt8) :
    kindOfByte b ≠ k := by
  unfold kindOfByte
  repeat' apply iteInduction (motive := (· ≠ k)) <;> intro
  all_goals rcases hk with rfl | rfl <;> nofun

theorem realNumber_kind (s : Bytes) :
    (realNumber s).1 ∈ [TokenKind.int, .float, .invalid .noExponentDigits] := by
  have body (s : Bytes) :
      (decimalBody s).1 ∈ [TokenKind.int, .float, .invalid .noExponentDigits] := by
    unfold decimalBody
    dsimp only
    repeat' split
    all_goals simp
  have decimal (s : Bytes) :
      (decimalNumber s).1 ∈ [TokenKind.int, .float, .invalid .noExponentDigits] := by
    unfold decimalNumber
    dsimp only
    repeat' split
    all_goals first | exact body s | simp
  have hex (s : Bytes) : (hexNumber s).1 ∈ [TokenKind.int, .float, .invalid .noExponentDigits] := by
    unfold hexNumber
    dsimp only
    repeat' split
    all_goals simp
  unfold realNumber
  split
  · split
    · exact hex _
    · split
      · simp
      · exact decimal _
  · exact decimal _

/-- The kinds of numbers. -/
theorem scanNumber_kind (s : Bytes) :
    (scanNumber s).1 ∈ [TokenKind.imaginary, .int, .float, .invalid .noExponentDigits] := by
  have h := List.mem_cons_of_mem TokenKind.imaginary (realNumber_kind s)
  unfold scanNumber
  split
  · rename_i heq
    rwa [heq] at h
  · rename_i heq
    rw [heq] at h
    split
    · exact List.mem_cons_self
    · exact h

theorem scanNumber_ne {k : TokenKind} (hk : k = .eof ∨ k = .invalid .badEscape) (s : Bytes) :
    (scanNumber s).1 ≠ k := by
  intro h
  have hmem := scanNumber_kind s
  rw [h] at hmem
  rcases hk with rfl | rfl <;> simp at hmem

/-- No token of a text is the end of the file. -/
theorem scanToken_ne_eof (b : UInt8) (s : Bytes) : (scanToken b s).kind ≠ .eof := by
  unfold scanToken
  split
  · exact TokenKind.ofWord_ne (Or.inl rfl) _
  · split
    · exact scanNumber_ne (Or.inl rfl) _
    · split
      · unfold scanString
        dsimp only
        split <;> nofun
      · split
        · unfold scanRawString
          dsimp only
          split <;> nofun
        · split
          · unfold scanRune
            dsimp only
            split
            · dsimp only
              split <;> nofun
            · nofun
            · nofun
          · unfold scanOperator
            split
            · nofun
            · exact kindOfByte_ne (Or.inl rfl) b

/-- The token is written in the text: it is no terminator that a line break stands for, and not the
end of the file. -/
def Token.isWritten (t : Token) : Bool := !t.inserted && t.kind != .eof

theorem Token.isWritten_iff {t : Token} :
    t.isWritten = true ↔ t.inserted = false ∧ t.kind ≠ .eof := by
  simp [isWritten]

/-- The offset after the token. -/
def Token.stop (t : Token) : Nat := t.offset + t.lexeme.length

/-- The terminator of a statement is inserted, if it ends there. -/
def Terminated (ended : Prop) (inserted : List Token) : Prop :=
  (ended → ∃ offset, inserted = [Token.terminator offset]) ∧ (¬ ended → inserted = [])

/-- The tokens of a text that stands at `pos`, after the token `before`: a gap and a token after
the other, with the terminators inserted. -/
inductive Lexed : Option Token → Nat → Bytes → List Token → Prop
  | last {before : Option Token} {pos offset : Nat} {gap : Bytes} {inserted : List Token} :
      IsGap true gap → Terminated (before.any Token.endsStatement) inserted →
      Lexed before pos gap (inserted ++ [Token.endOfFile offset])
  | token {before : Option Token} {t : Token} {pos : Nat} {gap s : Bytes}
      {inserted ts : List Token} :
      IsGap false gap →
      Terminated (before.any Token.endsStatement ∧ Byte.newline ∈ gap) inserted →
      t.isWritten → t.offset = pos + gap.length → t.lexeme ≠ [] → Lexed (some t) t.stop s ts →
      Lexed before pos (gap ++ (t.lexeme ++ s)) (inserted ++ t :: ts)

/-- The terminator before a token, or none. -/
theorem terminated_toList {ended : Prop} {offset : Option Nat} (h : ended ↔ offset.isSome) :
    Terminated ended (offset.map Token.terminator).toList := by
  cases offset with
  | none => exact ⟨fun hended => absurd (h.1 hended) nofun, fun _ => rfl⟩
  | some offset => exact ⟨fun _ => ⟨offset, rfl⟩, fun hended => absurd (h.2 rfl) hended⟩

/-- **Gaps and tokens make up the text**, from any place on. Where it is at its end, the place does
not matter. -/
theorem lexed_read {before : Option Token} {ends : Bool} {pos pos' : Nat} {s : Bytes}
    (hends : ends = before.any Token.endsStatement) (hpos : pos' = pos ∨ s = []) :
    Lexed before pos s (TokenStream.read ends pos' s).tokens := by
  fun_induction TokenStream.read ends pos' s generalizing before pos with
  | case1 ends pos' s gap _ =>
    rename_i hrest
    obtain ⟨text, hgap⟩ : ∃ text, gap.Spans pos' s text := Gap.spans_skip pos' s
    have heq := hgap.eq
    have hisGap := hgap.isGap
    rw [hrest] at heq hisGap
    rw [List.append_nil] at heq
    subst heq
    refine .last hisGap (terminated_toList ?_)
    rw [← hends, Option.isSome_ite]
  | case2 ends pos' s gap _ b rest hrest lexeme =>
    rename_i token ih
    obtain ⟨text, hgap⟩ : ∃ text, gap.Spans pos' s text := Gap.spans_skip pos' s
    have heq := hgap.eq
    have hisGap := hgap.isGap
    rw [hrest] at heq hisGap
    obtain rfl : pos' = pos := hpos.resolve_right (by rw [heq]; simp)
    have hlexeme : token.lexeme = gap.rest.take lexeme.width := rfl
    have hne : token.lexeme ≠ [] := by
      have := lexeme.width_pos
      rw [hlexeme, hrest]
      cases hwidth : lexeme.width with
      | zero => omega
      | succ n => nofun
    -- Where the text ends within an escape sequence, the reader goes a byte too far.
    have hstop : gap.pos + lexeme.width = token.stop ∨ gap.rest.drop lexeme.width = [] := by
      rw [Token.stop, hlexeme, List.length_take, List.drop_eq_nil_iff]
      show _ = gap.pos + _ ∨ _
      omega
    have hwritten : token.isWritten := Token.isWritten_iff.2 ⟨rfl, scanToken_ne_eof b rest⟩
    have hended : before.any Token.endsStatement ∧ Byte.newline ∈ text ↔
        (if ends = true then gap.lineBreak else none).isSome := by
      rw [← hends, ← hgap.lineBreak]
      split
      · exact and_iff_right ‹_›
      · exact ⟨fun h => absurd h.1 ‹_›, nofun⟩
    have hlexed := Lexed.token hisGap (terminated_toList hended) hwritten hgap.pos_eq hne
      (ih rfl hstop)
    rwa [hlexeme, List.take_append_drop, ← hgap.eq] at hlexed

theorem lexed_tokenize (content : Bytes) : Lexed none 0 content (tokenize content).tokens :=
  lexed_read rfl (Or.inl rfl)

/-! ### Tiling -/

/-- Tokens and the gaps between them, one after the other, make up a text that stands at `pos`. -/
inductive Tiles : Nat → Bytes → List Token → Prop
  | last {pos : Nat} {gap : Bytes} : IsGap true gap → Tiles pos gap []
  | token {pos : Nat} {t : Token} {gap s : Bytes} {ts : List Token} :
      IsGap false gap → t.offset = pos + gap.length → t.lexeme ≠ [] → Tiles t.stop s ts →
      Tiles pos (gap ++ (t.lexeme ++ s)) (t :: ts)

theorem Terminated.congr {ended ended' : Prop} {inserted : List Token}
    (h : Terminated ended inserted) (heq : ended ↔ ended') : Terminated ended' inserted :=
  ⟨fun hended => h.1 (heq.2 hended), fun hended => h.2 (mt heq.1 hended)⟩

/-- Terminators are inserted. -/
theorem Terminated.inserted {ended : Prop} {inserted : List Token}
    (h : Terminated ended inserted) : ∀ t ∈ inserted, t.inserted = true ∧ t.kind ≠ .eof := by
  intro t ht
  by_cases hended : ended
  · obtain ⟨offset, rfl⟩ := h.1 hended
    obtain rfl := List.mem_singleton.1 ht
    exact ⟨rfl, nofun⟩
  · rw [h.2 hended] at ht
    cases ht

theorem Terminated.filter_isWritten {ended : Prop} {inserted : List Token}
    (h : Terminated ended inserted) : inserted.filter Token.isWritten = [] :=
  List.filter_eq_nil_iff.2 fun t ht => by simp [Token.isWritten, (h.inserted t ht).1]

namespace Lexed

variable {before : Option Token} {pos : Nat} {s : Bytes} {ts : List Token}

theorem tiles (h : Lexed before pos s ts) : Tiles pos s (ts.filter Token.isWritten) := by
  induction h with
  | last hgap hterminated =>
    rw [List.filter_append, hterminated.filter_isWritten]
    exact .last hgap
  | token hgap hterminated hwritten hoffset hne _ ih =>
    rw [List.filter_append, hterminated.filter_isWritten, List.nil_append,
      List.filter_cons_of_pos hwritten]
    exact .token hgap hoffset hne ih

/-- The end of the file comes last, and once. -/
theorem exists_endOfFile (h : Lexed before pos s ts) :
    ∃ front offset, ts = front ++ [Token.endOfFile offset] ∧ ∀ t ∈ front, t.kind ≠ .eof := by
  induction h with
  | @last before pos offset gap inserted hgap hterminated =>
    exact ⟨inserted, offset, rfl, fun t ht => (hterminated.inserted t ht).2⟩
  | @token before t pos gap s inserted ts hgap hterminated hwritten hoffset hne _ ih =>
    obtain ⟨front, offset, rfl, hfront⟩ := ih
    refine ⟨inserted ++ t :: front, offset, by simp, fun u hu => ?_⟩
    rcases List.mem_append.1 hu with hu | hu
    · exact (hterminated.inserted u hu).2
    · rcases List.mem_cons.1 hu with rfl | hu
      · exact (Token.isWritten_iff.1 hwritten).2
      · exact hfront u hu

end Lexed

namespace Tiles

variable {pos : Nat} {s : Bytes} {ts : List Token}

theorem le_offset (h : Tiles pos s ts) : ∀ t ∈ ts, pos ≤ t.offset := by
  induction h with
  | last => nofun
  | @token pos t gap s ts _ hoffset _ _ ih =>
    intro u hu
    rcases List.mem_cons.1 hu with rfl | hu
    · omega
    · have := ih u hu
      rw [Token.stop] at this
      omega

/-- The tokens are in order and do not overlap. -/
theorem pairwise (h : Tiles pos s ts) : ts.Pairwise fun t u => t.stop ≤ u.offset := by
  induction h with
  | last => exact .nil
  | token _ _ _ h ih => exact List.pairwise_cons.2 ⟨h.le_offset, ih⟩

/-- Each token has some bytes, and they stand at its offset. -/
theorem lexeme_prefix {content : Bytes} (h : Tiles pos s ts) (hcontent : content.drop pos = s) :
    ∀ t ∈ ts, t.lexeme ≠ [] ∧ t.lexeme <+: content.drop t.offset := by
  induction h with
  | last => nofun
  | @token pos t gap s ts _ hoffset hne _ ih =>
    have hdrop : content.drop t.offset = t.lexeme ++ s := by
      rw [hoffset, ← List.drop_drop, hcontent]
      exact List.drop_left
    intro u hu
    rcases List.mem_cons.1 hu with rfl | hu
    · exact ⟨hne, by rw [hdrop]; exact List.prefix_append _ _⟩
    · refine ih ?_ u hu
      rw [Token.stop, ← List.drop_drop, hdrop]
      exact List.drop_left

end Tiles

/-- **No byte is lost, and none is read twice.** The tokens end with the end of the file, which
comes nowhere else. Those written in the text and the gaps between them make it up; each of them has some
bytes, which stand at its offset, and they are in order and do not overlap. -/
theorem tokenize_tiles (content : Bytes) :
    let written := (tokenize content).tokens.filter Token.isWritten
    (∃ front offset, (tokenize content).tokens = front ++ [Token.endOfFile offset] ∧
      ∀ t ∈ front, t.kind ≠ .eof) ∧
    Tiles 0 content written ∧
    (∀ t ∈ written, t.lexeme ≠ [] ∧ t.lexeme <+: content.drop t.offset) ∧
    written.Pairwise fun t u => t.stop ≤ u.offset := by
  intro written
  have hlexed := lexed_tokenize content
  have htiles : Tiles 0 content written := hlexed.tiles
  exact ⟨hlexed.exists_endOfFile, htiles, htiles.lexeme_prefix rfl, htiles.pairwise⟩

/-! ### Terminators -/

/-- The bytes of a text before a token, after another one or from the start. -/
def bytesBetween (content : Bytes) (before : Option Token) (t : Token) : Bytes :=
  let start := (before.map Token.stop).getD 0
  (content.drop start).take (t.offset - start)

/-- A token that is written, with what is inserted before it, is found where the tokens are cut. -/
theorem split_inserted {inserted ts front mid back : List Token} {t u : Token}
    (hinserted : ∀ x ∈ inserted, x.inserted = true) (ht : t.inserted = false)
    (hfront : ∀ x ∈ front.getLast?, x.inserted = false) (hmid : ∀ x ∈ mid, x.inserted = true)
    (hu : u.inserted = false) (h : inserted ++ t :: ts = front ++ (mid ++ u :: back)) :
    (front = [] ∧ mid = inserted ∧ u = t) ∨
      ∃ front', front = inserted ++ t :: front' ∧ ts = front' ++ (mid ++ u :: back) := by
  -- Of the terminators inserted, none is the last of the tokens in front.
  have hnil {c : List Token} (hc : inserted = front ++ c) : front = [] := by
    cases hlast : front.getLast? with
    | none => exact List.getLast?_eq_none_iff.1 hlast
    | some x =>
      have hmem : x ∈ inserted := hc ▸ List.mem_append_left _ (List.mem_of_getLast? hlast)
      cases (hinserted x hmem).symm.trans (hfront x hlast)
  have hstart (hfront : front = []) : front = [] ∧ mid = inserted ∧ u = t := by
    subst hfront
    have hspan (ahead rest : List Token) (x : Token) (hahead : ∀ y ∈ ahead, y.inserted = true)
        (hx : x.inserted = false) :
        (ahead ++ x :: rest).takeWhile Token.inserted = ahead ∧
          (ahead ++ x :: rest).dropWhile Token.inserted = x :: rest := by
      rw [List.takeWhile_append_of_pos hahead, List.dropWhile_append_of_pos hahead]
      simp [hx]
    have hleft := hspan inserted ts t hinserted ht
    have hright := hspan mid back u hmid hu
    rw [h, List.nil_append] at hleft
    exact ⟨rfl, hright.1.symm.trans hleft.1,
      (List.cons.inj (hright.2.symm.trans hleft.2)).1⟩
  rcases List.append_eq_append_iff.1 h with ⟨c, hc, hts⟩ | ⟨c, hc, -⟩
  · cases c with
    | nil => exact Or.inl (hstart (hnil (c := []) (by simpa using hc.symm)))
    | cons x front' =>
      obtain ⟨rfl, hrest⟩ := List.cons.inj hts
      exact Or.inr ⟨front', hc, hrest⟩
  · exact Or.inl (hstart (hnil hc))

/-- **Where a terminator is inserted**, from any place of a text on. -/
theorem Lexed.terminated {content : Bytes} {before : Option Token} {pos : Nat} {s : Bytes}
    {ts front mid back : List Token} {u : Token} (h : Lexed before pos s ts)
    (hpos : pos = (before.map Token.stop).getD 0) (hcontent : content.drop pos = s)
    (hts : ts = front ++ (mid ++ u :: back)) (hfront : ∀ x ∈ front.getLast?, x.inserted = false)
    (hmid : ∀ x ∈ mid, x.inserted = true) (hu : u.inserted = false) :
    Terminated ((front.getLast?.or before).any Token.endsStatement ∧
      (u.kind = .eof ∨ Byte.newline ∈ bytesBetween content (front.getLast?.or before) u)) mid := by
  induction h generalizing front with
  | @last before pos offset gap inserted hgap hterminated =>
    rcases split_inserted (fun x hx => (hterminated.inserted x hx).1) rfl hfront hmid hu hts with
      ⟨rfl, rfl, rfl⟩ | ⟨front', -, hrest⟩
    · exact hterminated.congr (and_iff_left (Or.inl rfl)).symm
    · simp at hrest
  | @token before t pos gap s inserted ts hgap hterminated hwritten hoffset hne _ ih =>
    obtain ⟨hinserted, hkind⟩ := Token.isWritten_iff.1 hwritten
    have hall : ∀ x ∈ inserted, x.inserted = true := fun x hx => (hterminated.inserted x hx).1
    rcases split_inserted hall hinserted hfront hmid hu hts with
      ⟨rfl, rfl, rfl⟩ | ⟨front', rfl, hrest⟩
    · have hbetween : bytesBetween content before u = gap := by
        rw [bytesBetween, ← hpos, hcontent, hoffset, Nat.add_sub_cancel_left]
        exact List.take_left
      refine hterminated.congr (and_congr_right fun _ => ?_)
      rw [List.getLast?_nil, Option.none_or, hbetween, or_iff_right hkind]
    · have hdrop : content.drop t.stop = s := by
        rw [Token.stop, hoffset, Nat.add_assoc, ← List.drop_drop, hcontent, ← List.append_assoc,
          ← List.length_append]
        exact List.drop_left
      have hlast : (inserted ++ t :: front').getLast? = front'.getLast?.or (some t) := by
        rw [List.getLast?_append, List.getLast?_cons]
        cases front'.getLast? <;> rfl
      rw [hlast] at hfront ⊢
      rw [Option.or_assoc, Option.some_or]
      refine ih rfl hdrop hrest fun x hx => hfront x ?_
      rw [Option.mem_def.1 hx]
      rfl

/-- The tokens after which a statement may end: names, literals, four keywords, two operators and
closing brackets. -/
inductive Token.Ends (t : Token) : Prop
  | name : t.kind = .identifier → t.Ends
  | literal : t.kind ∈ [.int, .float, .imaginary, .rune, .string] → t.Ends
  | keyword {k : Keyword} : t.kind = .keyword k →
      k ∈ [.breakKw, .continueKw, .fallthroughKw, .returnKw] → t.Ends
  | step : t.kind = .operator → t.lexeme = ascii "++" ∨ t.lexeme = ascii "--" → t.Ends
  | closing {b : Bracket} : t.kind = .closing b → t.Ends

theorem Token.endsStatement_iff {t : Token} : t.endsStatement = true ↔ t.Ends := by
  unfold endsStatement
  constructor
  · intro h
    cases hkind : t.kind with
    | identifier => exact Ends.name hkind
    | int | float | imaginary | rune | string => exact Ends.literal (by simp [hkind])
    | keyword k =>
      rw [hkind] at h
      refine Ends.keyword hkind ?_
      cases k <;> simp at h ⊢
    | operator =>
      rw [hkind] at h
      exact Ends.step hkind (by simpa using h)
    | closing b => exact Ends.closing hkind
    | eof | opening | comma | period | semicolon | colon | invalid => simp [hkind] at h
  · intro h
    cases h with
    | name hkind => rw [hkind]
    | literal hkind =>
      simp only [List.mem_cons, List.not_mem_nil, or_false] at hkind
      rcases hkind with hkind | hkind | hkind | hkind | hkind <;> rw [hkind]
    | keyword hkind hk =>
      simp only [List.mem_cons, List.not_mem_nil, or_false] at hk
      rcases hk with rfl | rfl | rfl | rfl <;> rw [hkind]
    | step hkind hlexeme =>
      rw [hkind]
      simpa using hlexeme
    | closing hkind => rw [hkind]

/-- **A terminator is inserted after a statement that a line break or the end of the text ends**,
one, and nowhere else: between two tokens that are written, or before the first, or before the end
of the file. -/
theorem tokenize_terminates {content : Bytes} {front mid back : List Token} {t : Token}
    (h : (tokenize content).tokens = front ++ (mid ++ t :: back))
    (hfront : ∀ u ∈ front.getLast?, u.inserted = false) (hmid : ∀ u ∈ mid, u.inserted = true)
    (ht : t.inserted = false) :
    Terminated ((∃ u ∈ front.getLast?, u.Ends) ∧
      (t.kind = .eof ∨ Byte.newline ∈ bytesBetween content front.getLast? t)) mid := by
  have hterminated := (lexed_tokenize content).terminated rfl rfl h hfront hmid ht
  rw [Option.or_none] at hterminated
  refine hterminated.congr (and_congr_left fun _ => ?_)
  rw [Option.any_eq_true]
  exact exists_congr fun u => and_congr_right fun _ => Token.endsStatement_iff

/-- A sum of two names after another name, with comments and line breaks between them. -/
def brokenText : Bytes := ascii "x /*\n*/ // b\n y +\n z"

def brokenName (name : String) (offset : Nat) : Token :=
  { kind := .identifier, lexeme := ascii name, offset }

def brokenSign : Token := { kind := .operator, lexeme := ascii "+", offset := 16 }

/-- A terminator stands after the first comment, which has a line break; none after the sign, as a
sum does not end there. -/
theorem tokenize_terminates_broken :
    (tokenize brokenText).tokens = [brokenName "x" 0, Token.terminator 7, brokenName "y" 14,
      brokenSign, brokenName "z" 19, Token.terminator 20, Token.endOfFile 20] ∧
    ((brokenName "x" 0).Ends ∧
      Byte.newline ∈ bytesBetween brokenText (some (brokenName "x" 0)) (brokenName "y" 14) ∧
      Terminated ((∃ u ∈ some (brokenName "x" 0), u.Ends) ∧ ((brokenName "y" 14).kind = .eof ∨
        Byte.newline ∈ bytesBetween brokenText (some (brokenName "x" 0)) (brokenName "y" 14)))
        [Token.terminator 7]) ∧
    (¬ brokenSign.Ends ∧
      Byte.newline ∈ bytesBetween brokenText (some brokenSign) (brokenName "z" 19) ∧
      Terminated ((∃ u ∈ some brokenSign, u.Ends) ∧ ((brokenName "z" 19).kind = .eof ∨
        Byte.newline ∈ bytesBetween brokenText (some brokenSign) (brokenName "z" 19)))
        []) := by
  have htokens : (tokenize brokenText).tokens = [brokenName "x" 0, Token.terminator 7,
      brokenName "y" 14, brokenSign, brokenName "z" 19, Token.terminator 20,
      Token.endOfFile 20] := by
    decide +kernel
  have hsign : ¬ brokenSign.Ends := by
    rw [← Token.endsStatement_iff]
    decide
  refine ⟨htokens, ⟨Token.Ends.name rfl, by decide, ?_⟩, hsign, by decide, ?_⟩
  · exact @tokenize_terminates _ [_] [_] _ _ htokens (by decide) (by decide) rfl
  · exact @tokenize_terminates _ [_, _, _, _] [] _ _ htokens (by decide) (by decide) rfl

end BuildOrder
