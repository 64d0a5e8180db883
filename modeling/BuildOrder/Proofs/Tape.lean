import BuildOrder.Proofs.Matching

/-!
# Tokens by their places

The readers of groups, types and signatures are given the tokens that they may read, and cannot go
past these. Here they are given all tokens of a file and two places, and may go anywhere.

* `Tape`: the tokens of a file, each at its place.
* `Tape.closeAt`, `Tape.typeEnd`, `Tape.signatureEnd`: where a group is closed, and where a type and
  a signature end, wherever the range ends that is read.
* `Nested.tail`, `Nested.of_append`: what is left of nested tokens, at both ends.
* `Tape.Closed`, `Tape.Balanced`: a range whose groups are closed in it, and one whose brackets all
  match. `Tape.Closed.group`: **a group of a closed range is closed in it**, and has matching
  brackets inside.
* `Tape.Counts`: a counter of open groups that is right; `Tape.Counts.next`: **it stays so**.
  `Tape.Balanced.cut`: a separator outside groups cuts a range in two.
* `Tape.Closed.skips`: **neither a type nor a signature reaches past the end of a closed range.**
  Both end where the readers do that are given the tokens of the range.
-/

namespace BuildOrder

/-- The balance of brackets after a token. -/
def Token.balanceAfter (t : Token) (n : Int) : Int :=
  match t.kind with
  | .opening _ => n + 1
  | .closing _ => n - 1
  | _ => n

theorem Token.balanceAfter_plain {t : Token} {n : Int} (ht : ¬ t.IsBracket) :
    t.balanceAfter n = n := by
  rw [balanceAfter]
  split
  · rename_i c hc
    exact absurd ⟨c, Or.inl hc⟩ ht
  · rename_i c hc
    exact absurd ⟨c, Or.inr hc⟩ ht
  · rfl

/-- The tokens of a file, each at its place, and the end of the file after them. -/
structure Tape where
  reading : Reading
  tokens : List Token
  isEnd : reading.endOfFile.kind = .eof
  notEnd : ∀ t ∈ tokens, t.kind ≠ .eof

/-- The tokens of a text. -/
def Source.tape (source : Source) : Tape where
  reading := source.reader
  tokens := (tokenize source.content).tokens.dropLast
  isEnd := by
    obtain ⟨front, offset, htokens, -⟩ := (lexed_tokenize source.content).exists_endOfFile
    simp [Source.reader, Source.reading, htokens, Token.endOfFile]
  notEnd := by
    obtain ⟨front, offset, htokens, hfront⟩ := (lexed_tokenize source.content).exists_endOfFile
    rw [htokens, List.dropLast_concat]
    exact hfront

/-! ### What is left of nested tokens -/

namespace Nested

variable {t : Token} {ts xs ys strays : List Token}

/-- **What nested tokens begin with**: a token that is no bracket, a group, or a stray bracket. -/
theorem cons_cases (h : Nested (t :: ts) strays) :
    (¬ t.IsBracket ∧ Nested ts strays) ∨
      (∃ b inside last more, t.kind = .opening b ∧ Nested inside [] ∧ last.kind = .closing b ∧
        Nested more strays ∧ ts = inside ++ last :: more) ∨
      ∃ b others, t.kind = .closing b ∧ strays = t :: others ∧ Nested ts others := by
  cases h with
  | token ht h => exact Or.inl ⟨ht, h⟩
  | group ht hinside hlast h => exact Or.inr (Or.inl ⟨_, _, _, _, ht, hinside, hlast, h, rfl⟩)
  | stray ht h => exact Or.inr (Or.inr ⟨_, _, ht, rfl, h⟩)

/-- Without the first token, the bracket that closes its group is a stray one. -/
theorem opened {b : Bracket} (h : Nested (t :: ts) strays) (ht : t.kind = .opening b) :
    ∃ last, Nested ts (last :: strays) := by
  rcases h.cons_cases with ⟨hplain, -⟩ | ⟨c, inside, last, more, -, hinside, hlast, hmore, rfl⟩ |
    ⟨c, others, hc, -⟩
  · exact absurd ⟨b, Or.inl ht⟩ hplain
  · exact ⟨last, hinside.append (.stray hlast hmore)⟩
  · cases ht.symm.trans hc

/-- What is left of nested tokens is nested. -/
theorem tail (h : Nested (t :: ts) strays) : ∃ others, Nested ts others := by
  rcases t.bracket_cases with ⟨b, ht⟩ | ⟨b, ht⟩ | ht
  · obtain ⟨last, h⟩ := h.opened ht
    exact ⟨_, h⟩
  all_goals
    rcases h.cons_cases with ⟨-, h⟩ | ⟨c, _, _, _, hc, -⟩ | ⟨_, others, -, -, h⟩
  · exact ⟨_, h⟩
  · cases ht.symm.trans hc
  · exact ⟨_, h⟩
  · exact ⟨_, h⟩
  · exact absurd ⟨c, Or.inl hc⟩ ht
  · exact ⟨_, h⟩

theorem suffix (h : Nested (xs ++ ys) strays) : ∃ others, Nested ys others := by
  induction xs generalizing strays with
  | nil => exact ⟨strays, h⟩
  | cons x xs ih =>
    obtain ⟨others, h⟩ := h.tail
    exact ih h

/-- Which brackets are stray is a matter of the tokens. -/
theorem strays_unique {others : List Token} (h : Nested ts strays) (h' : Nested ts others) :
    strays = others :=
  h.strayClosers_eq.symm.trans h'.strayClosers_eq

/-- **Without nested tokens at the end**, tokens have the same brackets that are stray. -/
theorem of_append (h : Nested (xs ++ ys) strays) (hys : Nested ys []) : Nested xs strays := by
  induction hlength : xs.length using Nat.strongRecOn generalizing xs strays with
  | ind n ih =>
    subst hlength
    cases xs with
    | nil =>
      rw [h.strays_unique hys]
      exact .nil
    | cons t xs =>
      rw [List.cons_append] at h
      rcases h.cons_cases with ⟨ht, h⟩ | ⟨b, inside, last, more, ht, hinside, hlast, hmore, heq⟩ |
        ⟨b, others, ht, rfl, hrest⟩
      · exact .token ht (ih _ (Nat.lt_succ_self _) h rfl)
      · rcases List.append_eq_append_iff.1 heq with ⟨back, hinside', hys'⟩ | ⟨back, hxs, hmore'⟩
        · -- the group would be closed among the tokens at the end, by a bracket that is stray there
          rw [hinside'] at hinside
          obtain ⟨others, hback⟩ := hinside.suffix
          rw [hys'] at hys
          have hnil := hys.strays_unique (hback.append (.stray hlast hmore))
          simp at hnil
        · cases back with
          | nil =>
            rw [List.nil_append] at hmore'
            rw [← hmore'] at hys
            have hnil := hys.strays_unique (.stray hlast hmore)
            cases hnil
          | cons u back =>
            obtain ⟨rfl, rfl⟩ := List.cons.inj hmore'
            rw [hxs]
            refine .group ht hinside hlast (ih _ ?_ hmore rfl)
            rw [hxs]
            simp only [List.length_append, List.length_cons]
            omega
      · exact .stray ht (ih _ (Nat.lt_succ_self _) hrest rfl)

end Nested

namespace Tape

section

variable (T : Tape)

/-! ### Places -/

/-- The token at a place. Past the last one, it is the end of the file. -/
def token (i : Nat) : Token := T.tokens.getD i T.reading.endOfFile

def kind (i : Nat) : TokenKind := (T.token i).kind

/-- The tokens from the place `first` on, up to `last`. -/
def slice (first last : Nat) : List Token := (T.tokens.take last).drop first

/-- The place of the bracket that closes the group of kind `b` opened at the place `i`. -/
def closeAt (b : Bracket) (i : Nat) : Except SyntaxError Nat :=
  (T.reading.group b (T.tokens.drop (i + 1))).map fun parts => i + 1 + parts.1.length

theorem lt_closeAt {b : Bracket} {i close : Nat} (h : T.closeAt b i = .ok close) : i < close := by
  unfold closeAt at h
  cases hgroup : T.reading.group b (T.tokens.drop (i + 1)) with
  | error e =>
    rw [hgroup] at h
    cases h
  | ok parts =>
    rw [hgroup] at h
    have hclose : i + 1 + parts.1.length = close := Except.ok.inj h
    omega

mutual

/-- The place after the type at `i`, in a range that ends at `last`. -/
def typeEnd (i last : Nat) : Except SyntaxError Nat :=
  if i < last then
    match T.kind i with
    | .opening .brace | .semicolon | .comma | .eof | .closing _ => .ok i
    | .keyword .structKw | .keyword .interfaceKw =>
      if T.kind (i + 1) = .opening .brace then
        match _closed : T.closeAt .brace (i + 1) with
        | .error e => .error e
        | .ok close => typeEnd (close + 1) last
      else typeEnd (i + 1) last
    | .keyword .funcKw => signatureEnd (i + 1) last
    | .opening b =>
      match _closed : T.closeAt b i with
      | .error e => .error e
      | .ok close => typeEnd (close + 1) last
    | _ => typeEnd (i + 1) last
  else .ok i
termination_by 2 * (last - i)
decreasing_by
  · have := T.lt_closeAt _closed
    omega
  · omega
  · omega
  · have := T.lt_closeAt _closed
    omega
  · omega

/-- The place after the signature without a name at `i`, in a range that ends at `last`. -/
def signatureEnd (i last : Nat) : Except SyntaxError Nat :=
  if i < last ∧ T.kind i = .opening .paren then
    match _closed : T.closeAt .paren i with
    | .error e => .error e
    | .ok close =>
      if close + 1 < last ∧ T.kind (close + 1) = .opening .paren then
        (T.closeAt .paren (close + 1)).map (· + 1)
      else typeEnd (close + 1) last
  else typeEnd i last
termination_by 2 * (last - i) + 1
decreasing_by
  · have := T.lt_closeAt _closed
    omega
  · omega

end

end

variable {T : Tape} {i j k first last close : Nat} {n : Int} {b : Bracket} {t : Token}
  {front back strays : List Token}

/-! ### Slices -/

theorem slice_eq_nil (h : last ≤ first) : T.slice first last = [] := by
  refine List.drop_eq_nil_of_le ?_
  rw [List.length_take]
  omega

theorem length_slice (h : last ≤ T.tokens.length) : (T.slice first last).length = last - first := by
  rw [slice, List.length_drop, List.length_take, Nat.min_eq_left h]

theorem token_eq (h : i < T.tokens.length) : T.token i = T.tokens[i] := by
  rw [token, List.getD_eq_getElem?_getD, List.getElem?_eq_getElem h, Option.getD_some]

/-- Past the last token, there is the end of the file. -/
theorem kind_of_length_le (h : T.tokens.length ≤ i) : T.kind i = .eof := by
  rw [kind, token, List.getD_eq_getElem?_getD, List.getElem?_eq_none h]
  exact T.isEnd

theorem lt_length_of_kind {kind : TokenKind} (h : T.kind i = kind) (hkind : kind ≠ .eof) :
    i < T.tokens.length :=
  Nat.lt_of_not_le fun hle => hkind (h.symm.trans (kind_of_length_le hle))

/-- A slice begins with the token at its first place. -/
theorem slice_cons (h : first < last) (hlast : last ≤ T.tokens.length) :
    T.slice first last = T.token first :: T.slice (first + 1) last := by
  have hfirst : first < (T.tokens.take last).length := by
    rw [List.length_take]
    omega
  rw [slice, List.drop_eq_getElem_cons hfirst, List.getElem_take, token_eq (by omega)]
  rfl

theorem slice_append (h : first ≤ i) (hlast : i ≤ last) :
    T.slice first i ++ T.slice i last = T.slice first last := by
  have htake : T.tokens.take i = (T.tokens.take last).take i := by
    rw [List.take_take, Nat.min_eq_left hlast]
  obtain ⟨k, rfl⟩ := Nat.exists_eq_add_of_le h
  rw [slice, slice, slice, htake, List.drop_take, Nat.add_sub_cancel_left, ← List.drop_drop,
    List.take_append_drop]

theorem slice_append_drop (h : first ≤ last) :
    T.slice first last ++ T.tokens.drop last = T.tokens.drop first := by
  obtain ⟨k, rfl⟩ := Nat.exists_eq_add_of_le h
  rw [slice, List.drop_take, Nat.add_sub_cancel_left, ← List.drop_drop, List.take_append_drop]

/-- The parts of a slice are slices. -/
theorem slice_eq_append (hfirst : first ≤ last) (hlast : last ≤ T.tokens.length)
    (h : T.slice first last = front ++ back) :
    first + front.length ≤ last ∧ T.slice first (first + front.length) = front ∧
      T.slice (first + front.length) last = back := by
  have hlength := congrArg List.length h
  rw [length_slice hlast, List.length_append] at hlength
  have hle : first + front.length ≤ last := by omega
  have happend : T.slice first _ ++ T.slice _ last = _ :=
    slice_append (Nat.le_add_right first front.length) hle
  have hfront : (T.slice first (first + front.length)).length = front.length := by
    rw [length_slice (by omega)]
    omega
  exact ⟨hle, List.append_inj (happend.trans h) hfront⟩

/-- Where a token stands in a slice, and what is around it. -/
theorem slice_eq_append_cons (hfirst : first ≤ last) (hlast : last ≤ T.tokens.length)
    (h : T.slice first last = front ++ t :: back) :
    first + front.length < last ∧ T.slice first (first + front.length) = front ∧
      T.token (first + front.length) = t ∧ T.slice (first + front.length + 1) last = back := by
  obtain ⟨hle, hfront, hback⟩ := slice_eq_append hfirst hlast h
  have hlt : first + front.length < last := by
    refine Nat.lt_of_le_of_ne hle fun hend => ?_
    rw [hend, slice_eq_nil (Nat.le_refl _)] at hback
    cases hback
  rw [slice_cons hlt hlast] at hback
  obtain ⟨htoken, hrest⟩ := List.cons.inj hback
  exact ⟨hlt, hfront, htoken, hrest⟩

theorem tail_slice : (T.slice first last).tail = T.slice (first + 1) last := by
  rw [slice, slice, List.tail_drop]

/-- The slice up to the last place is all that is left. -/
theorem slice_length : T.slice first T.tokens.length = T.tokens.drop first := by
  rw [slice, List.take_length]

/-! ### Closed ranges -/

/-- The groups of a range are closed in it, and none opens where it ends. There may be closing
brackets outside its groups. -/
structure Closed (T : Tape) (first last : Nat) : Prop where
  le : first ≤ last
  le_length : last ≤ T.tokens.length
  nested : ∃ strays, Nested (T.slice first last) strays
  ends : ∀ b, T.kind last ≠ .opening b

/-- A range, which may be empty, whose brackets all match, and where none opens where it ends. -/
structure Balanced (T : Tape) (first last : Nat) : Prop where
  le_length : last ≤ T.tokens.length
  nested : Nested (T.slice first last) []
  ends : ∀ b, T.kind last ≠ .opening b

theorem Balanced.closed (h : T.Balanced first last) (hle : first ≤ last) : T.Closed first last :=
  ⟨hle, h.le_length, ⟨[], h.nested⟩, h.ends⟩

theorem not_opening_of_kind {kind : TokenKind} (h : T.kind i = kind)
    (hkind : ∀ b, kind ≠ .opening b) (b : Bracket) : T.kind i ≠ .opening b :=
  fun hb => hkind b (h.symm.trans hb)

namespace Closed

/-- What is left of such a range is one. -/
theorem drop (h : T.Closed first last) (hfirst : first ≤ i) (hlast : i ≤ last) :
    T.Closed i last := by
  obtain ⟨strays, hnested⟩ := h.nested
  rw [← slice_append hfirst hlast] at hnested
  exact ⟨hlast, h.le_length, hnested.suffix, h.ends⟩

/-- **A group of such a range is closed in it.** Where it is closed does not depend on what comes
after the range. -/
theorem group (h : T.Closed i last) (hlt : i < last) (hb : T.kind i = .opening b) :
    ∃ close, T.closeAt b i = .ok close ∧ i < close ∧ close < last ∧ T.Balanced (i + 1) close ∧
      T.reading.group b (T.slice (i + 1) last) =
        .ok (T.slice (i + 1) close, T.slice (close + 1) last) := by
  obtain ⟨strays, hnested⟩ := h.nested
  have hlength := h.le_length
  rw [slice_cons hlt h.le_length] at hnested
  rcases hnested.cons_cases with ⟨hplain, -⟩ |
    ⟨c, inside, closer, more, hc, hinside, hcloser, -, heq⟩ | ⟨c, others, hc, -⟩
  · exact absurd ⟨b, Or.inl hb⟩ hplain
  · obtain rfl := TokenKind.opening.inj (hc.symm.trans hb)
    obtain ⟨hclose, hslice, rfl, rfl⟩ := slice_eq_append_cons hlt hlength heq
    have hgroup : T.reading.group c (T.slice (i + 1) last) =
        .ok (inside, T.slice (i + 1 + inside.length + 1) last) := by
      rw [heq]
      exact Reading.group_append_nested hinside hcloser
    have hall : T.reading.group c (T.tokens.drop (i + 1)) =
        .ok (inside, T.slice (i + 1 + inside.length + 1) last ++ T.tokens.drop last) := by
      rw [← slice_append_drop hlt]
      exact Reading.group_append hgroup
    refine ⟨i + 1 + inside.length, ?_, by omega, hclose, ⟨by omega, ?_, ?_⟩, ?_⟩
    · rw [closeAt, hall]
      rfl
    · rwa [hslice]
    · exact not_opening_of_kind hcloser nofun
    · rwa [hslice]
  · cases hb.symm.trans hc

end Closed

/-- **A group that is closed has matching brackets inside.** -/
theorem closeAt_eq_ok {close : Nat} (hi : T.kind i = .opening b)
    (h : T.closeAt b i = .ok close) :
    T.Balanced (i + 1) close ∧ i < close ∧ T.reading.group b (T.tokens.drop (i + 1)) =
        .ok (T.slice (i + 1) close, T.tokens.drop (close + 1)) := by
  have hlt := lt_length_of_kind hi nofun
  unfold closeAt at h
  cases hgroup : T.reading.group b (T.tokens.drop (i + 1)) with
  | error e =>
    rw [hgroup] at h
    cases h
  | ok parts =>
    rw [hgroup] at h
    obtain rfl : i + 1 + parts.1.length = close := Except.ok.inj h
    obtain ⟨closer, hcloser, hdrop⟩ := Reading.group_split hgroup
    rw [← slice_length] at hdrop
    obtain ⟨hclose, hinside, rfl, hrest⟩ := slice_eq_append_cons hlt (Nat.le_refl _) hdrop
    rw [slice_length] at hrest
    refine ⟨⟨Nat.le_of_lt hclose, ?_, not_opening_of_kind hcloser nofun⟩, by omega, ?_⟩
    · rw [hinside]
      exact (Reading.group_nested hgroup).1
    · rw [hinside, hrest]

/-- A group that is read at a place is closed at another one. -/
theorem exists_closeAt {inside rest : List Token}
    (hi : T.kind i = .opening b)
    (h : T.reading.group b (T.tokens.drop (i + 1)) = .ok (inside, rest)) :
    ∃ close, T.closeAt b i = .ok close ∧ T.slice (i + 1) close = inside := by
  have hclose : T.closeAt b i = .ok (i + 1 + inside.length) := by
    rw [closeAt, h]
    rfl
  obtain ⟨-, -, hgroup⟩ := closeAt_eq_ok hi hclose
  exact ⟨_, hclose, (Prod.mk.inj (Except.ok.inj (hgroup.symm.trans h))).1⟩

/-! ### Counters of open groups -/

/-- The tokens of a range are nested, but for brackets that close as many groups as are counted. -/
def Counts (T : Tape) (first last : Nat) (n : Int) : Prop :=
  ∃ strays, Nested (T.slice first last) strays ∧ n = strays.length

namespace Counts

theorem nonneg (h : T.Counts first last n) : 0 ≤ n := by
  obtain ⟨strays, -, rfl⟩ := h
  exact Int.natCast_nonneg _

theorem nested (h : T.Counts first last 0) : Nested (T.slice first last) [] := by
  obtain ⟨strays, hnested, hzero⟩ := h
  obtain rfl := List.eq_nil_of_length_eq_zero (Int.natCast_eq_zero.1 hzero.symm)
  exact hnested

/-- At the end of the range, no group is open. -/
theorem eq_zero (h : T.Counts first last n) (hle : last ≤ first) : n = 0 := by
  obtain ⟨strays, hnested, rfl⟩ := h
  rw [slice_eq_nil hle] at hnested
  cases hnested
  rfl

/-- **A counter keeps count.** Where it goes down, a group is closed that was counted. -/
theorem next (h : T.Counts i last n) (hlt : i < last) (hlast : last ≤ T.tokens.length) :
    T.Counts (i + 1) last ((T.token i).balanceAfter n) ∧
      ((T.token i).balanceAfter n).toNat = (T.token i).depthAfter n.toNat := by
  obtain ⟨strays, hnested, rfl⟩ := h
  rw [slice_cons hlt hlast] at hnested
  rcases (T.token i).bracket_cases with ⟨b, ht⟩ | ⟨b, ht⟩ | ht
  · obtain ⟨closer, hrest⟩ := hnested.opened ht
    simp only [Token.balanceAfter, Token.depthAfter, ht]
    exact ⟨⟨_, hrest, by simp⟩, by omega⟩
  · rcases hnested.cons_cases with ⟨hplain, -⟩ | ⟨c, _, _, _, hc, -⟩ | ⟨c, others, -, rfl, hrest⟩
    · exact absurd ⟨b, Or.inr ht⟩ hplain
    · cases ht.symm.trans hc
    · simp only [Token.balanceAfter, Token.depthAfter, ht]
      exact ⟨⟨others, hrest, by simp⟩, by omega⟩
  · rcases hnested.cons_cases with ⟨-, hrest⟩ | ⟨c, _, _, _, hc, -⟩ | ⟨c, _, hc, -⟩
    · rw [Token.balanceAfter_plain ht, Token.depthAfter_plain ht]
      exact ⟨⟨strays, hrest, rfl⟩, rfl⟩
    · exact absurd ⟨c, Or.inl hc⟩ ht
    · exact absurd ⟨c, Or.inr hc⟩ ht

end Counts

theorem Balanced.counts (h : T.Balanced first last) : T.Counts first last 0 := ⟨[], h.nested, rfl⟩

/-- **A separator outside groups cuts a range in two** whose brackets match. -/
theorem Balanced.cut {stop : TokenKind} (h : T.Balanced first last) (hfirst : first ≤ i)
    (hlast : i ≤ last) (hcount : T.Counts i last 0) (hi : i = last ∨ T.kind i = stop)
    (hstop : ∀ b, stop ≠ .opening b ∧ stop ≠ .closing b) :
    T.Balanced first i ∧ T.Balanced (i + 1) last := by
  have hlength := h.le_length
  have hbefore : Nested (T.slice first i) [] := by
    have hnested := h.nested
    rw [← slice_append hfirst hlast] at hnested
    exact hnested.of_append hcount.nested
  by_cases hlt : i < last
  · have hkind : T.kind i = stop := hi.resolve_left (Nat.ne_of_lt hlt)
    have hnext := (hcount.next hlt hlength).1
    rw [Token.balanceAfter_plain (Token.not_isBracket hkind hstop)] at hnext
    exact ⟨⟨by omega, hbefore, not_opening_of_kind hkind fun b => (hstop b).1⟩,
      ⟨hlength, hnext.nested, h.ends⟩⟩
  · obtain rfl : i = last := by omega
    refine ⟨⟨hlength, hbefore, h.ends⟩, hlength, ?_, h.ends⟩
    rw [slice_eq_nil (Nat.le_succ i)]
    exact .nil

/-! ### Types and signatures -/

/-- What the readers of types and signatures find at a place. -/
def skipEnd (T : Tape) : Reading.Phrase → Nat → Nat → Except SyntaxError Nat
  | .type => T.typeEnd
  | .signature => T.signatureEnd

theorem typeEnd_last (h : last ≤ i) : T.typeEnd i last = .ok i := by
  rw [typeEnd, if_neg (by omega)]

theorem typeEnd_stop (hlt : i < last) (ht : (T.token i).EndsType) : T.typeEnd i last = .ok i := by
  have ht : T.kind i = .opening .brace ∨ T.kind i = .semicolon ∨ T.kind i = .comma ∨
      ∃ b, T.kind i = .closing b := ht
  rw [typeEnd, if_pos hlt]
  rcases ht with ht | ht | ht | ⟨b, ht⟩ <;> simp only [ht]

theorem typeEnd_func (hlt : i < last) (ht : T.kind i = .keyword .funcKw) :
    T.typeEnd i last = T.signatureEnd (i + 1) last := by
  rw [typeEnd, if_pos hlt]
  simp only [ht]

theorem typeEnd_fields (hlt : i < last) (ht : (T.token i).HasFields) : T.typeEnd i last =
    if T.kind (i + 1) = .opening .brace then
      T.closeAt .brace (i + 1) >>= fun close => T.typeEnd (close + 1) last
    else T.typeEnd (i + 1) last := by
  have ht : T.kind i = .keyword .structKw ∨ T.kind i = .keyword .interfaceKw := ht
  conv => lhs; rw [typeEnd, if_pos hlt]
  rcases ht with ht | ht
  all_goals
    simp only [ht]
    split
    · split <;> rename_i hclose <;> rw [hclose] <;> rfl
    · rfl

theorem typeEnd_group (hlt : i < last) (ht : T.kind i = .opening b) (hb : b ≠ .brace) :
    T.typeEnd i last = T.closeAt b i >>= fun close => T.typeEnd (close + 1) last := by
  conv => lhs; rw [typeEnd, if_pos hlt]
  cases b with
  | brace => exact absurd rfl hb
  | paren | square =>
    simp only [ht]
    split <;> rename_i hclose <;> rw [hclose] <;> rfl

theorem typeEnd_token (hlt : i < last) (hstop : ¬ (T.token i).EndsType) (hend : T.kind i ≠ .eof)
    (hbracket : ¬ (T.token i).IsBracket) (hfunc : T.kind i ≠ .keyword .funcKw)
    (hfields : ¬ (T.token i).HasFields) : T.typeEnd i last = T.typeEnd (i + 1) last := by
  conv => lhs; rw [typeEnd, if_pos hlt]
  split <;> rename_i ht
  · exact absurd (Or.inl ht) hstop
  · exact absurd (Or.inr (Or.inl ht)) hstop
  · exact absurd (Or.inr (Or.inr (Or.inl ht))) hstop
  · exact absurd ht hend
  · exact absurd (Or.inr (Or.inr (Or.inr ⟨_, ht⟩))) hstop
  · exact absurd (Or.inl ht) hfields
  · exact absurd (Or.inr ht) hfields
  · exact absurd ht hfunc
  · exact absurd ⟨_, Or.inl ht⟩ hbracket
  · rfl

theorem signatureEnd_eq : T.signatureEnd i last =
    if i < last ∧ T.kind i = .opening .paren then
      T.closeAt .paren i >>= fun close =>
      if close + 1 < last ∧ T.kind (close + 1) = .opening .paren then
        (T.closeAt .paren (close + 1)).map (· + 1)
      else T.typeEnd (close + 1) last
    else T.typeEnd i last := by
  conv => lhs; rw [signatureEnd]
  split
  · split <;> rename_i hclose <;> rw [hclose] <;> rfl
  · rfl

/-- Before the end of a file, no token is the end. -/
theorem kind_ne_eof (h : i < T.tokens.length) : T.kind i ≠ .eof := by
  rw [kind, token_eq h]
  exact T.notEnd _ (List.getElem_mem h)

/-- A group at the front of a slice is opened at its first place. -/
theorem afterOpening?_slice (hlast : last ≤ T.tokens.length) :
    afterOpening? b (T.slice first last) =
      if first < last ∧ T.kind first = .opening b then some (T.slice (first + 1) last)
      else none := by
  by_cases hlt : first < last
  · rw [slice_cons hlt hlast, afterOpening?]
    simp only [hlt, true_and]
    rfl
  · rw [slice_eq_nil (by omega), if_neg (fun h => hlt h.1)]
    rfl

theorem afterOpening?_drop {inside : List Token} :
    afterOpening? b (T.tokens.drop i) = some inside ↔
      T.kind i = .opening b ∧ inside = T.tokens.drop (i + 1) := by
  rw [← slice_length, afterOpening?_slice (Nat.le_refl _), slice_length]
  constructor
  · intro h
    split at h
    · rename_i hopen
      exact ⟨hopen.2, (Option.some.inj h).symm⟩
    · cases h
  · rintro ⟨hopen, rfl⟩
    exact if_pos ⟨lt_length_of_kind hopen nofun, hopen⟩

/-- A phrase at the place `i` ends in the range, and where the reader does that is given the tokens
of the range. -/
def SkipsAt (T : Tape) (phrase : Reading.Phrase) (i last : Nat) : Prop :=
  ∃ j, i ≤ j ∧ j ≤ last ∧ T.skipEnd phrase i last = .ok j ∧
    T.reading.skip phrase (T.slice i last) = .ok (T.slice j last)

/-- What is found further on is found here, if the reader goes on there. -/
theorem SkipsAt.sooner {p q : Reading.Phrase} (h : T.SkipsAt q k last) (hk : i ≤ k)
    (hend : T.skipEnd p i last = T.skipEnd q k last)
    (hskip : T.reading.skip p (T.slice i last) = T.reading.skip q (T.slice k last)) :
    T.SkipsAt p i last := by
  obtain ⟨j, hj, hlast, hjend, hjskip⟩ := h
  exact ⟨j, Nat.le_trans hk hj, hlast, hend.trans hjend, hskip.trans hjskip⟩

namespace Closed

/-- One step of the reader of a type. -/
theorem skipsAt_type (h : T.Closed i last)
    (later : ∀ k phrase, i < k → k ≤ last → T.SkipsAt phrase k last) :
    T.SkipsAt .type i last := by
  have hlength := h.le_length
  by_cases hempty : last ≤ i
  · refine ⟨i, Nat.le_refl _, h.le, typeEnd_last hempty, ?_⟩
    rw [slice_eq_nil hempty]
    exact Reading.skipType.eq_1 _
  have hlt : i < last := Nat.lt_of_not_le hempty
  have hcons : T.slice i last = T.token i :: T.slice (i + 1) last := slice_cons hlt hlength
  by_cases hstop : (T.token i).EndsType
  · refine ⟨i, Nat.le_refl _, h.le, typeEnd_stop hlt hstop, ?_⟩
    rw [hcons]
    exact Reading.skipType_stop hstop
  by_cases hfunc : T.kind i = .keyword .funcKw
  · refine (later (i + 1) .signature (Nat.lt_succ_self i) hlt).sooner (Nat.le_succ i)
      (typeEnd_func hlt hfunc) ?_
    rw [hcons]
    exact Reading.skipType_func hfunc
  by_cases hbracket : (T.token i).IsBracket
  · obtain ⟨b, hb | hb⟩ := hbracket
    · have hbrace : b ≠ .brace := fun heq => hstop (Or.inl (heq ▸ hb))
      obtain ⟨close, hclose, hi, hlast, -, hgroup⟩ := h.group hlt hb
      refine (later (close + 1) .type (by omega) hlast).sooner (by omega) ?_ ?_
      · exact (typeEnd_group hlt hb hbrace).trans (by rw [hclose]; rfl)
      · rw [hcons]
        exact (Reading.skipType_group hb hbrace).trans (by rw [hgroup]; rfl)
    · exact absurd (Or.inr (Or.inr (Or.inr ⟨b, hb⟩))) hstop
  have next := later (i + 1) .type (Nat.lt_succ_self i) hlt
  by_cases hfields : (T.token i).HasFields
  · have hskip : T.reading.skipType (T.token i :: T.slice (i + 1) last) = _ :=
      Reading.skipType_fields hfields
    have hend : T.skipEnd .type i last = _ := typeEnd_fields hlt hfields
    by_cases hopen : T.kind (i + 1) = .opening .brace
    · -- no group opens where the range ends, so this one opens in it
      have hnext : i + 1 < last := Nat.lt_of_le_of_ne hlt fun heq => h.ends .brace (heq ▸ hopen)
      obtain ⟨close, hclose, hi, hlast, -, hgroup⟩ := (h.drop (Nat.le_succ i) hlt).group hnext hopen
      rw [if_pos hopen, hclose] at hend
      rw [← hcons, afterOpening?_slice hlength, if_pos ⟨hnext, hopen⟩] at hskip
      simp only [hgroup] at hskip
      exact (later (close + 1) .type (by omega) hlast).sooner (by omega) hend hskip
    · rw [if_neg hopen] at hend
      rw [← hcons, afterOpening?_slice hlength, if_neg fun hat => hopen hat.2] at hskip
      exact next.sooner (Nat.le_succ i) hend hskip
  · refine next.sooner (Nat.le_succ i)
      (typeEnd_token hlt hstop (kind_ne_eof (by omega)) hbracket hfunc hfields) ?_
    rw [hcons]
    exact Reading.skipType_token hstop hbracket hfunc hfields

/-- One step of the reader of a signature. -/
theorem skipsAt_signature (h : T.Closed i last)
    (later : ∀ k phrase, i < k → k ≤ last → T.SkipsAt phrase k last) :
    T.SkipsAt .signature i last := by
  have hlength := h.le_length
  have hend : T.skipEnd .signature i last = _ := signatureEnd_eq
  have hskip : T.reading.skip .signature (T.slice i last) = _ := Reading.skipSignature_eq
  rw [afterOpening?_slice hlength] at hskip
  by_cases hopen : i < last ∧ T.kind i = .opening .paren
  · obtain ⟨close, hclose, hi, hlast, -, hgroup⟩ := h.group hopen.1 hopen.2
    rw [if_pos hopen, hclose, ok_bind] at hend
    rw [if_pos hopen] at hskip
    simp only [hgroup, ok_bind, afterOpening?_slice hlength] at hskip
    by_cases hagain : close + 1 < last ∧ T.kind (close + 1) = .opening .paren
    · obtain ⟨close', hclose', hi', hlast', -, hgroup'⟩ :=
        (h.drop (by omega) hlast).group hagain.1 hagain.2
      rw [if_pos hagain, hclose'] at hend
      rw [if_pos hagain] at hskip
      simp only [hgroup'] at hskip
      exact ⟨close' + 1, by omega, hlast', hend, hskip⟩
    · rw [if_neg hagain] at hend hskip
      exact (later (close + 1) .type (by omega) hlast).sooner (by omega) hend hskip
  · rw [if_neg hopen] at hend hskip
    exact (h.skipsAt_type later).sooner (Nat.le_refl i) hend hskip

/-- **Neither a type nor a signature reaches past the end of such a range**, and both end where the
readers do that are given its tokens. -/
theorem skips (h : T.Closed i last) (phrase : Reading.Phrase) : T.SkipsAt phrase i last := by
  induction hn : last - i using Nat.strongRecOn generalizing i phrase with
  | ind n ih =>
    have later (k : Nat) (q : Reading.Phrase) (hk : i < k) (hlast : k ≤ last) :
        T.SkipsAt q k last :=
      ih (last - k) (by omega) (h.drop (Nat.le_of_lt hk) hlast) q rfl
    cases phrase with
    | type => exact h.skipsAt_type later
    | signature => exact h.skipsAt_signature later

end Closed

end Tape

end BuildOrder
