import BuildOrder.Proofs.CallStack

/-!
# What the calls answer

* `Tape.Returns`: a call that comes to its end; `Tape.Returns.reaches`: **it does so after some
  steps, whoever waits for it.**
* `Tape.exists_separator`: a search for a comma or colon stops where one in the tokens of the range
  does.
* `Tape.answersCode`, `Tape.answersElement`, `Tape.answersElements`: each reader comes to its end,
  if the others do in smaller ranges.
* `Tape.answersBelow`: **all of them come to their ends in all closed ranges**, and answer what the
  readers find that are given the tokens.
* `Tape.Starts`: the scans that declarations start; `Tape.Starts.closed`: their ranges are closed.
* `Tape.Starts.exists_of_body`, `Tape.Starts.exists_of_tokens`: there are no others.
* `Tape.Starts.scan_ends`: **each of them comes to an end**, in ranges that are strictly inside each
  other, and with counters that are never below zero.
-/

namespace BuildOrder

/-! ### Declarations that are read -/

namespace Reading

variable {r : Reading} {t : Token} {ts inside rest code : List Token} {seenOther : Bool}
  {literals : List CompositeLit}

/-- A function with a body is read if its head and its body are. -/
theorem declaration_of_body {head : Parsed FuncDecl (ts.length + 1)}
    (ht : t.kind = .keyword .funcKw) (hhead : r.funcHead t ts = .ok head)
    (hopen : afterOpening? .brace head.rest = some inside)
    (hgroup : r.group .brace inside = .ok (code, rest))
    (hscan : r.scanLiterals {} code = .ok literals) :
    ∃ d, r.declaration seenOther t ts = .ok d ∧ d.value.literals = literals := by
  have hfunc : r.declaration seenOther t ts = r.funcDecl t ts := by
    rw [declaration]
    simp only [ht]
  rw [hfunc, funcDecl, hhead, ok_bind, optionalGroup_some hopen hgroup, ok_bind, Option.getD_some,
    hscan, ok_bind]
  exact ⟨_, rfl, rfl⟩

/-- A declaration of variables, constants or types is read if what it is made of is. -/
theorem declaration_of_tokens {keyword : ValueKeyword}
    {tokens : Parsed (List Token) (ts.length + 1)} (ht : t.kind = .keyword keyword.keyword)
    (htokens : r.valueTokens ts = .ok tokens)
    (hscan : r.scanLiterals {} tokens.value = .ok literals) :
    ∃ d, r.declaration seenOther t ts = .ok d ∧ d.value.literals = literals := by
  have hvalue : r.declaration seenOther t ts = r.valueDecl keyword ts := by
    rw [declaration]
    cases keyword <;> simp only [ht, ValueKeyword.keyword]
  rw [hvalue, valueDecl, htokens, ok_bind, hscan, ok_bind]
  exact ⟨_, rfl, rfl⟩

theorem valueTokens_of_group (hopen : afterOpening? .paren ts = some inside)
    (hgroup : r.group .paren inside = .ok (code, rest)) :
    ∃ tokens, r.valueTokens ts = .ok tokens ∧ tokens.value = code := by
  rw [valueTokens, optionalGroup_some hopen hgroup]
  exact ⟨_, rfl, rfl⟩

theorem valueTokens_of_terminator (hopen : afterOpening? .paren ts = none)
    (hskip : r.skipToTerminator ts = .ok rest) :
    ∃ tokens, r.valueTokens ts = .ok tokens ∧
      tokens.value = ts.take (ts.length - rest.length) := by
  rw [valueTokens, optionalGroup_none hopen, ok_bind]
  dsimp only
  split
  · rename_i hfail
    cases hskip.symm.trans hfail
  · rename_i found hfound
    obtain rfl := Except.ok.inj (hskip.symm.trans hfound)
    exact ⟨_, rfl, rfl⟩

/-- Where no element stands before a comma, what comes after it is read. -/
theorem literalElements_empty
    (h : trimTerminators (spanTop .comma 0 ts).1 = []) :
    r.literalElements ts = r.literalElements (spanTop .comma 0 ts).2.tail := by
  cases ts with
  | nil => rfl
  | cons t ts => exact literalElements_blank (List.isEmpty_iff.2 h)

end Reading

namespace Tape

variable {T : Tape} {c : Call} {f : Frame} {i j k first last : Nat} {n : Int} {b : Bracket}
  {s : LiteralScan} {found : List CompositeLit}

/-! ### Calls that come to an end -/

/-- A call comes to its end with some literals, and so do all calls that it makes. -/
inductive Returns (T : Tape) : Frame → List CompositeLit → Prop
  | done {f : Frame} {found : List CompositeLit} : T.move f = .done found → Returns T f found
  | go {f : Frame} {p : Point} {found : List CompositeLit} : T.move f = .go p →
      Returns T ⟨f.call, p⟩ found → Returns T f found
  | call {f callee : Frame} {resume : List CompositeLit → Point} {inner found : List CompositeLit} :
      T.move f = .call callee resume → Returns T callee inner →
      Returns T ⟨f.call, resume inner⟩ found → Returns T f found

/-- **Such a call ends after some steps, whoever waits for it.** -/
theorem Returns.reaches (h : T.Returns f found) : ∀ callers, ∃ p,
    T.Reaches ⟨f, callers⟩ ⟨⟨f.call, p⟩, callers⟩ ∧ T.move ⟨f.call, p⟩ = .done found := by
  induction h with
  | @done f found hmove => exact fun callers => ⟨f.point, .refl, hmove⟩
  | @go f p found hmove _ ih =>
    intro callers
    obtain ⟨q, hsteps, hend⟩ := ih callers
    have hstep : T.advance ⟨f, callers⟩ = .inl ⟨⟨f.call, p⟩, callers⟩ := by
      rw [advance, hmove]
    exact ⟨q, .head hstep hsteps, hend⟩
  | @call f callee resume inner found hmove _ _ ihCallee ihRest =>
    intro callers
    obtain ⟨q, hinner, hinnerEnd⟩ := ihCallee (⟨f.call, resume⟩ :: callers)
    obtain ⟨p, hsteps, hend⟩ := ihRest callers
    have hcall : T.advance ⟨f, callers⟩ = .inl ⟨callee, ⟨f.call, resume⟩ :: callers⟩ := by
      rw [advance, hmove]
    have hanswer : T.advance ⟨⟨callee.call, q⟩, ⟨f.call, resume⟩ :: callers⟩ =
        .inl ⟨⟨f.call, resume inner⟩, callers⟩ := by
      rw [advance, hinnerEnd]
    exact ⟨p, .head hcall (hinner.trans (.head hanswer hsteps)), hend⟩

/-- What comes before the separator is given by what comes from there on. -/
theorem spanTop_slice {stop : TokenKind} {depth : Nat} (hik : i ≤ k) (hk : k ≤ last)
    (h : (spanTop stop depth (T.slice i last)).2 = T.slice k last) :
    spanTop stop depth (T.slice i last) = (T.slice i k, T.slice k last) := by
  have happend := (spanTop_append stop depth (T.slice i last)).trans (slice_append hik hk).symm
  rw [h] at happend
  exact Prod.ext (List.append_cancel_right happend) h

/-- **A search stops at the separator that is found with the tokens at hand**, with its counter at
zero. -/
theorem exists_separator {stop : TokenKind} {mk : Nat → Int → Point}
    (hmk : ∀ i n, i < last → ¬ (n = 0 ∧ T.kind i = stop) →
      T.move ⟨c, mk i n⟩ = .go (mk (i + 1) ((T.token i).balanceAfter n)))
    (hlength : last ≤ T.tokens.length) (hle : i ≤ last) (hcount : T.Counts i last n) :
    ∃ k, i ≤ k ∧ k ≤ last ∧ (k = last ∨ T.kind k = stop) ∧ T.Counts k last 0 ∧
      spanTop stop n.toNat (T.slice i last) = (T.slice i k, T.slice k last) ∧
      ∀ found, T.Returns ⟨c, mk k 0⟩ found → T.Returns ⟨c, mk i n⟩ found := by
  induction hm : last - i generalizing i n with
  | zero =>
    obtain rfl := hcount.eq_zero (by omega)
    have hend : i = last := by omega
    refine ⟨i, Nat.le_refl _, hle, Or.inl hend, hcount, ?_, fun _ => id⟩
    rw [slice_eq_nil (Nat.le_of_eq hend.symm), slice_eq_nil (Nat.le_refl _)]
    rfl
  | succ m ih =>
    have hlt : i < last := by omega
    by_cases hstop : n = 0 ∧ T.kind i = stop
    · obtain ⟨rfl, hkind⟩ := hstop
      refine ⟨i, Nat.le_refl _, hle, Or.inr hkind, hcount, ?_, fun _ => id⟩
      rw [slice_cons hlt hlength, slice_eq_nil (Nat.le_refl _)]
      exact Reading.spanTop_stop hkind
    · obtain ⟨hnext, hdepth⟩ := hcount.next hlt hlength
      obtain ⟨k, hik, hk, hat, hzero, hspan, hreturns⟩ := ih hlt hnext (by omega)
      refine ⟨k, by omega, hk, hat, hzero, spanTop_slice (by omega) hk ?_, fun found h =>
        .go (hmk i n hlt hstop) (hreturns found h)⟩
      have hnat : ¬ (n.toNat = 0 ∧ (T.token i).kind = stop) := by
        have := hcount.nonneg
        exact fun h => hstop ⟨by omega, h.2⟩
      rw [slice_cons hlt hlength, Reading.spanTop_pass hnat, ← hdepth, hspan]

/-! ### What the readers answer -/

/-- A scan of code from a place on comes to its end, with what the reader finds that is given the
tokens. -/
def AnswersCode (T : Tape) (i last : Nat) : Prop :=
  ∀ s found c, c.last = last → ∃ more, T.reading.scanLiterals s (T.slice i last) = .ok more ∧
    T.Returns ⟨c, .code i s found⟩ (found ++ more)

/-- The same of the reader of a key or value. -/
def AnswersElement (T : Tape) (first last : Nat) : Prop :=
  ∃ found, T.reading.scanElement (T.slice first last) = .ok found ∧
    T.Returns (Frame.element first last) found

/-- The same of the reader of the elements of a literal, where one of them may start. -/
def AnswersElements (T : Tape) (i last : Nat) : Prop :=
  ∀ (loop : ElementLoop) c, c.last = last → loop.start = i → loop.index = i → loop.depth = 0 →
    ∃ more, T.reading.literalElements (T.slice i last) = .ok more ∧
      T.Returns ⟨c, .elements loop⟩ [.mk loop.type loop.location (loop.elements ++ more)]

/-- The readers come to their ends in all ranges below a size. A reader that may be called for the
range of another one has the smaller size there. -/
structure AnswersBelow (T : Tape) (n : Nat) : Prop where
  code : ∀ {i last}, 3 * (last - i) < n → T.Closed i last → T.AnswersCode i last
  element : ∀ {first last}, 3 * (last - first) + 1 < n → T.Closed first last →
    T.AnswersElement first last
  elements : ∀ {i last}, 3 * (last + 1 - i) + 2 < n → T.Balanced i last →
    T.AnswersElements i last

theorem AnswersBelow.mono {m n : Nat} (h : T.AnswersBelow n) (hle : m ≤ n) : T.AnswersBelow m where
  code hlt := h.code (Nat.lt_of_lt_of_le hlt hle)
  element hlt := h.element (Nat.lt_of_lt_of_le hlt hle)
  elements hlt := h.elements (Nat.lt_of_lt_of_le hlt hle)

/-- The elements of a literal are read from the first token after its brace on. -/
theorem AnswersElements.literal {brace close : Nat} (h : T.AnswersElements (brace + 1) close)
    (type : LiteralType) (start : Nat) :
    ∃ elements, T.reading.literalElements (T.slice (brace + 1) close) = .ok elements ∧
      T.Returns (T.literalFrame type start brace close)
        [.mk type (T.reading.locate (T.token start)) elements] :=
  h { type, location := T.reading.locate (T.token start), start := brace + 1, index := brace + 1 }
    (T.literalFrame type start brace close).call rfl rfl rfl rfl

/-- A scan of code comes to its end, as there is less to be read after each step. -/
theorem answersCode (h : T.AnswersBelow (3 * (last - i))) (hclosed : T.Closed i last) :
    T.AnswersCode i last := by
  intro s found c hc
  have hmove : T.move ⟨c, .code i s found⟩ = T.codeMove last i s found := hc ▸ rfl
  have hstep := codeStep hclosed s found
  generalize T.codeMove last i s found = m at hmove hstep
  cases hstep with
  | done hend =>
    refine ⟨[], ?_, ?_⟩
    · rw [slice_eq_nil (Nat.le_of_eq hend.symm), Reading.scanLiterals]
    · rw [List.append_nil]
      exact .done hmove
  | @next j s' hi hlast hscan =>
    obtain ⟨more, hmore, hreturns⟩ :=
      h.code (by omega) (hclosed.drop (Nat.le_of_lt hi) hlast) s' found c hc
    exact ⟨more, hscan.trans hmore, .go hmove hreturns⟩
  | @function j close hi hlt hclose hbody hscan =>
    obtain ⟨inner, hinner, hcallee⟩ :=
      h.code (by omega) (hbody.closed hlt) {} [] (Frame.code (j + 1) close).call rfl
    obtain ⟨more, hmore, hreturns⟩ :=
      h.code (by omega) (hclosed.drop (by omega) hclose) s.past (found ++ inner) c hc
    refine ⟨inner ++ more, ?_, ?_⟩
    · rw [hscan, hinner, ok_bind, hmore]
      rfl
    · rw [← List.append_assoc]
      exact .call hmove hcallee hreturns
  | @literal type brace close hbrace hlt hclose hbody hscan =>
    obtain ⟨elements, helements, hcallee⟩ := (h.elements (by omega) hbody).literal type i
    let literal := CompositeLit.mk type (T.reading.locate (T.token i)) elements
    obtain ⟨more, hmore, hreturns⟩ :=
      h.code (by omega) (hclosed.drop (by omega) hclose) s.past (found ++ [literal]) c hc
    refine ⟨literal :: more, ?_, ?_⟩
    · rw [hscan, helements, ok_bind, hmore]
      rfl
    · rw [List.append_cons]
      exact .call hmove hcallee hreturns

/-- A key or value comes to its end: a literal without a written type, if there is one, and code. -/
theorem answersElement (h : T.AnswersBelow (3 * (last - first) + 1))
    (hclosed : T.Closed first last) : T.AnswersElement first last := by
  have hlength := hclosed.le_length
  have hscan : T.reading.scanElement (T.slice first last) = _ := Reading.scanElement_eq
  rw [afterOpening?_slice hlength] at hscan
  -- what is left is code, after what has been found
  have rest {i : Nat} (found : List CompositeLit) (hi : first ≤ i) (hlast : i ≤ last) :
      ∃ more, T.reading.scanLiterals {} (T.slice i last) = .ok more ∧
        T.Returns ⟨⟨.element, first, last⟩, .rest i found⟩ (found ++ more) := by
    obtain ⟨more, hmore, hcallee⟩ :=
      h.code (by omega) (hclosed.drop hi hlast) {} [] (Frame.code i last).call rfl
    exact ⟨more, hmore, .call rfl hcallee (.done rfl)⟩
  have hmove : T.move (Frame.element first last) = T.elementMove first last := rfl
  unfold elementMove at hmove
  by_cases hopen : first < last ∧ T.kind first = .opening .brace
  · obtain ⟨close, hclose, hlater, hcloseLast, hbody, hgroup⟩ := hclosed.group hopen.1 hopen.2
    rw [if_pos hopen] at hscan
    rw [if_pos hopen, hclose] at hmove
    dsimp only at hscan
    obtain ⟨elements, helements, hcallee⟩ := (h.elements (by omega) hbody).literal {} first
    obtain ⟨more, hmore, hrest⟩ := rest [.mk {} (T.reading.locate (T.token first)) elements]
      (by omega) hcloseLast
    refine ⟨_, ?_, .call hmove hcallee hrest⟩
    rw [hscan, hgroup, ok_bind, helements, ok_bind, hmore, slice_cons hopen.1 hlength]
    rfl
  · rw [if_neg hopen] at hscan hmove
    obtain ⟨more, hmore, hrest⟩ := rest [] (Nat.le_refl _) hclosed.le
    exact ⟨more, hscan.trans hmore, .go hmove hrest⟩

/-- **An element comes to its end** with all of its parts. It is the first of those that the reader
finds that is given the tokens. -/
theorem exists_element (h : T.AnswersBelow (3 * (last - first) + 2))
    (hbalanced : T.Balanced first last) (hlt : first < last) (c : Call) (loop : ElementLoop) :
    ∃ e, (∀ ts, trimTerminators (spanTop .comma 0 ts).1 = T.slice first last →
        T.reading.literalElements ts =
          T.reading.literalElements (spanTop .comma 0 ts).2.tail >>= fun more =>
          pure (e :: more)) ∧
      ∀ found, T.Returns ⟨c, .elements (loop.add e)⟩ found →
        T.Returns ⟨c, .colon loop first last first 0⟩ found := by
  have hlength := hbalanced.le_length
  have hmk (i : Nat) (n : Int) (hi : i < last) (hnone : ¬ (n = 0 ∧ T.kind i = .colon)) :
      T.move ⟨c, .colon loop first last i n⟩ =
        .go (.colon loop first last (i + 1) ((T.token i).balanceAfter n)) :=
    (if_pos hi).trans (if_neg hnone)
  obtain ⟨k, hfirst, hk, hat, hzero, hspan, hreturns⟩ :=
    exists_separator hmk hlength (Nat.le_of_lt hlt) hbalanced.counts
  obtain ⟨hkey, hvalue⟩ := hbalanced.cut hfirst hk hzero hat fun b => ⟨nofun, nofun⟩
  obtain ⟨inKey, hinKey, hkeyReturns⟩ := h.element (by omega) (hkey.closed hfirst)
  -- between commas, the tokens of the element are all that is looked at
  have hcons {ts : List Token}
      (hts : trimTerminators (spanTop .comma 0 ts).1 = T.slice first last) :
      ¬ (trimTerminators (spanTop .comma 0 ts).1).isEmpty = true ∧ ∃ t us, ts = t :: us := by
    have hsome : ¬ (trimTerminators (spanTop .comma 0 ts).1).isEmpty = true := by
      rw [hts, slice_cons hlt hlength]
      exact nofun
    cases ts with
    | nil => exact absurd rfl hsome
    | cons t us => exact ⟨hsome, t, us, rfl⟩
  by_cases hcolon : k < last
  · -- the key ends at a colon, and a value follows
    have hkind : T.kind k = .colon := hat.resolve_left (Nat.ne_of_lt hcolon)
    obtain ⟨inValue, hinValue, hvalueReturns⟩ := h.element (by omega) (hvalue.closed hcolon)
    refine ⟨⟨true, inKey ++ inValue⟩, fun ts hts => ?_, fun found hrest => hreturns found ?_⟩
    · obtain ⟨hsome, t, us, rfl⟩ := hcons hts
      have hsplit : spanTop .colon 0 (trimTerminators (spanTop .comma 0 (t :: us)).1) =
          (T.slice first k, T.token k :: T.slice (k + 1) last) := by
        rw [hts, ← slice_cons hcolon hlength]
        exact hspan
      rw [Reading.literalElements_keyed hsome hsplit, hinKey, ok_bind, hinValue, ok_bind]
    · have hmove : T.move ⟨c, .colon loop first last k 0⟩ =
          .call (Frame.element first k) fun inKey => .value loop inKey (k + 1) last :=
        (if_pos hcolon).trans (if_pos ⟨rfl, hkind⟩)
      exact .call hmove hkeyReturns (.call rfl hvalueReturns hrest)
  · obtain rfl : k = last := by omega
    refine ⟨⟨false, inKey⟩, fun ts hts => ?_, fun found hrest => hreturns found ?_⟩
    · obtain ⟨hsome, t, us, rfl⟩ := hcons hts
      have hsplit : spanTop .colon 0 (trimTerminators (spanTop .comma 0 (t :: us)).1) =
          (T.slice first k, []) := by
        rw [hts, ← slice_eq_nil (Nat.le_refl k)]
        exact hspan
      rw [Reading.literalElements_unkeyed hsome hsplit, hinKey, ok_bind]
    · have hmove : T.move ⟨c, .colon loop first k k 0⟩ =
          .call (Frame.element first k) fun nested => .elements (loop.add ⟨false, nested⟩) :=
        if_neg hcolon
      exact .call hmove hkeyReturns hrest

/-- The elements of a literal come to their end, by the first of them. -/
theorem answersElements (h : T.AnswersBelow (3 * (last + 1 - i) + 2))
    (hbalanced : T.Balanced i last) : T.AnswersElements i last := by
  rintro ⟨type, location, elements, start, index, depth⟩ c hc hstart hindex hdepth
  obtain rfl : start = i := hstart
  obtain rfl : index = start := hindex
  obtain rfl : depth = 0 := hdepth
  obtain rfl := hc
  have hlength := hbalanced.le_length
  by_cases hle : index ≤ c.last
  · have hmk (j : Nat) (n : Int) (hj : j < c.last) (hnone : ¬ (n = 0 ∧ T.kind j = .comma)) :
        T.move ⟨c, .elements ⟨type, location, elements, index, j, n⟩⟩ =
          .go (.elements ⟨type, location, elements, index, j + 1,
            (T.token j).balanceAfter n⟩) :=
      (if_pos (Nat.le_of_lt hj)).trans (if_neg fun hat => hat.elim (Nat.ne_of_lt hj) hnone)
    obtain ⟨k, hik, hk, hat, hzero, hspan, hreturns⟩ :=
      exists_separator hmk hlength hle hbalanced.counts
    let a := T.afterTerminators index k
    let b := T.beforeTerminators a k
    obtain ⟨(ha : index ≤ a), (hab : a ≤ b), (hb : b ≤ k), hentry, hrest⟩ :=
      hbalanced.element hik hk hzero hat
    have htrim : trimTerminators (spanTop .comma 0 (T.slice index c.last)).1 = T.slice a b := by
      rw [show spanTop .comma 0 (T.slice index c.last) = _ from hspan]
      exact slice_trimmed (Nat.le_trans hk hlength)
    have htail : (spanTop .comma 0 (T.slice index c.last)).2.tail = T.slice (k + 1) c.last := by
      rw [show spanTop .comma 0 (T.slice index c.last) = _ from hspan]
      exact tail_slice
    have hmove : T.move ⟨c, .elements ⟨type, location, elements, index, k, 0⟩⟩ =
        if a = b then .go (.elements ⟨type, location, elements, k + 1, k + 1, 0⟩)
        else .go (.colon ⟨type, location, elements, k + 1, k + 1, 0⟩ a b a 0) :=
      (if_pos hk).trans (if_pos (hat.imp_right fun hkind => ⟨rfl, hkind⟩))
    by_cases hempty : a = b
    · rw [if_pos hempty] at hmove
      obtain ⟨more, hmore, hnext⟩ := h.elements (by omega) hrest
        ⟨type, location, elements, k + 1, k + 1, 0⟩ c rfl rfl rfl rfl
      refine ⟨more, ?_, hreturns _ (.go hmove hnext)⟩
      rw [slice_eq_nil (Nat.le_of_eq hempty.symm)] at htrim
      rw [Reading.literalElements_empty htrim, htail, hmore]
    · rw [if_neg hempty] at hmove
      have hsize : 3 * (b - a) + 2 ≤ 3 * (c.last + 1 - index) + 2 := by omega
      obtain ⟨e, hread, hcolon⟩ := exists_element (h.mono hsize) hentry
        (Nat.lt_of_le_of_ne hab hempty) c ⟨type, location, elements, k + 1, k + 1, 0⟩
      obtain ⟨more, hmore, hnext⟩ := h.elements (by omega) hrest
        ⟨type, location, elements ++ [e], k + 1, k + 1, 0⟩ c rfl rfl rfl rfl
      refine ⟨e :: more, ?_, hreturns _ (.go hmove (hcolon _ ?_))⟩
      · rw [hread _ htrim, htail, hmore]
        rfl
      · rw [List.append_cons]
        exact hnext
  · refine ⟨[], ?_, .done ?_⟩
    · rw [slice_eq_nil (by omega), Reading.literalElements]
    · rw [List.append_nil]
      exact if_neg hle

/-- **All readers come to their ends**, in all ranges that are closed. -/
theorem answersBelow (n : Nat) : T.AnswersBelow n := by
  induction n with
  | zero => exact ⟨nofun, nofun, nofun⟩
  | succ n ih =>
    exact ⟨fun hlt => answersCode (ih.mono (Nat.le_of_lt_succ hlt)),
      fun hlt => answersElement (ih.mono (Nat.le_of_lt_succ hlt)),
      fun hlt => answersElements (ih.mono (Nat.le_of_lt_succ hlt))⟩

/-! ### The scans that declarations start -/

/-- The declaration at a place starts a scan of code for a range: the body of a function, or what a
declaration of variables, constants or types is made of, in parentheses or up to the terminator. -/
inductive Starts (T : Tape) (i : Nat) : Nat → Nat → Prop
  | body {j close : Nat} {head : Parsed FuncDecl ((T.tokens.drop (i + 1)).length + 1)} :
      T.kind i = .keyword .funcKw →
      T.reading.funcHead (T.token i) (T.tokens.drop (i + 1)) = .ok head →
      head.rest = T.tokens.drop j → T.kind j = .opening .brace → T.closeAt .brace j = .ok close →
      Starts T i (j + 1) close
  | grouped {keyword : ValueKeyword} {close : Nat} : T.kind i = .keyword keyword.keyword →
      T.kind (i + 1) = .opening .paren → T.closeAt .paren (i + 1) = .ok close →
      Starts T i (i + 2) close
  | single {keyword : ValueKeyword} {rest : List Token} : T.kind i = .keyword keyword.keyword →
      T.kind (i + 1) ≠ .opening .paren →
      T.reading.skipToTerminator (T.tokens.drop (i + 1)) = .ok rest →
      Starts T i (i + 1) (T.tokens.length - rest.length)

/-- **Before the terminator outside groups, there is a closed range.** -/
theorem closed_single {rest : List Token} (hi : i ≤ T.tokens.length)
    (h : T.reading.skipToTerminator (T.tokens.drop i) = .ok rest) :
    T.Closed i (T.tokens.length - rest.length) ∧
      (T.tokens.drop i).take ((T.tokens.drop i).length - rest.length) =
        T.slice i (T.tokens.length - rest.length) := by
  obtain ⟨passed, strays, hpassed, hdrop⟩ := Reading.skipToTerminator_nested h
  have hlength := congrArg List.length hdrop
  rw [List.length_drop, List.length_append] at hlength
  have hlast : T.tokens.length - rest.length = i + passed.length := by omega
  have hall : T.slice i T.tokens.length = passed ++ rest := slice_length.trans hdrop
  obtain ⟨hle, hslice, hrest⟩ := slice_eq_append hi (Nat.le_refl _) hall
  rw [hlast]
  refine ⟨⟨Nat.le_add_right _ _, hle, ⟨strays, by rwa [hslice]⟩, ?_⟩, ?_⟩
  · -- at the end of the range stands the terminator, or the end of the file
    by_cases hlt : i + passed.length < T.tokens.length
    · rw [slice_cons hlt (Nat.le_refl _)] at hrest
      have hterminator := (Reading.skipToTerminator_ok h).symm.trans hrest.symm
      exact not_opening_of_kind (Reading.spanTop_snd_eq_cons hterminator) nofun
    · exact not_opening_of_kind (kind_of_length_le (Nat.le_of_not_lt hlt)) nofun
  · rw [hslice, hdrop, List.length_append, Nat.add_sub_cancel, List.take_left]

namespace Starts

/-- A declaration of variables, constants or types is scanned in such a range. -/
theorem exists_of_tokens {keyword : ValueKeyword}
    {tokens : Parsed (List Token) ((T.tokens.drop (i + 1)).length + 1)}
    (ht : T.kind i = .keyword keyword.keyword)
    (h : T.reading.valueTokens (T.tokens.drop (i + 1)) = .ok tokens) :
    ∃ first last, T.Starts i first last ∧ T.slice first last = tokens.value := by
  rcases Reading.valueTokens_ok h with ⟨inside, hopen, hgroup⟩ | ⟨hnone, hskip, -⟩
  · obtain ⟨hkind, rfl⟩ := afterOpening?_drop.1 hopen
    obtain ⟨close, hclose, hvalue⟩ := exists_closeAt hkind hgroup
    exact ⟨i + 2, close, .grouped ht hkind hclose, hvalue⟩
  · have hkind : T.kind (i + 1) ≠ .opening .paren := fun hopen => by
      cases hnone.symm.trans (afterOpening?_drop.2 ⟨hopen, rfl⟩)
    obtain ⟨tokens', htokens', hvalue⟩ := Reading.valueTokens_of_terminator hnone hskip
    obtain rfl := Except.ok.inj (h.symm.trans htokens')
    rw [(closed_single (lt_length_of_kind ht nofun) hskip).2] at hvalue
    exact ⟨i + 1, _, .single ht hkind hskip, hvalue.symm⟩

/-- The body of a function is scanned in such a range. -/
theorem exists_of_body {code : List Token}
    {head : Parsed FuncDecl ((T.tokens.drop (i + 1)).length + 1)}
    {body : Parsed (Option (List Token)) (head.rest.length + 1)}
    (ht : T.kind i = .keyword .funcKw)
    (hhead : T.reading.funcHead (T.token i) (T.tokens.drop (i + 1)) = .ok head)
    (hbody : T.reading.optionalGroup .brace head.rest = .ok body)
    (hcode : body.value = some code) :
    ∃ first last, T.Starts i first last ∧ T.slice first last = code := by
  obtain ⟨j, hrest⟩ : ∃ j, head.rest = T.tokens.drop j :=
    ⟨_, List.suffix_iff_eq_drop.1 ((Reading.funcHead_passes hhead).suffix.trans
      (List.drop_suffix _ _))⟩
  rcases Reading.optionalGroup_ok hbody with ⟨-, hnone, -⟩ | ⟨inside, code', hopen, hgroup, hsome⟩
  · cases hnone.symm.trans hcode
  · obtain rfl := Option.some.inj (hsome.symm.trans hcode)
    rw [hrest] at hopen
    obtain ⟨hkind, rfl⟩ := afterOpening?_drop.1 hopen
    obtain ⟨close, hclose, hvalue⟩ := exists_closeAt hkind hgroup
    exact ⟨j + 1, close, .body ht hhead hrest hkind hclose, hvalue⟩

/-- **The range of such a scan is closed.** -/
theorem closed (h : T.Starts i first last) : T.Closed first last := by
  cases h with
  | body _ _ _ hopen hclose =>
    obtain ⟨hbody, hlt, -⟩ := closeAt_eq_ok hopen hclose
    exact hbody.closed hlt
  | grouped _ hopen hclose =>
    obtain ⟨hinside, hlt, -⟩ := closeAt_eq_ok hopen hclose
    exact hinside.closed hlt
  | single hkeyword _ hskip =>
    exact (closed_single (lt_length_of_kind hkeyword nofun) hskip).1

/-- **What is found in the range are the literals of the declaration.** -/
theorem exists_declaration (h : T.Starts i first last) (seenOther : Bool)
    (hscan : T.reading.scanLiterals {} (T.slice first last) = .ok found) :
    ∃ d, T.reading.declaration seenOther (T.token i) (T.tokens.drop (i + 1)) = .ok d ∧
      d.value.literals = found := by
  cases h with
  | body hkeyword hhead hrest hopen hclose =>
    obtain ⟨-, -, hgroup⟩ := closeAt_eq_ok hopen hclose
    have hinside := afterOpening?_drop.2 ⟨hopen, rfl⟩
    rw [← hrest] at hinside
    exact Reading.declaration_of_body hkeyword hhead hinside hgroup hscan
  | grouped hkeyword hopen hclose =>
    obtain ⟨-, -, hgroup⟩ := closeAt_eq_ok hopen hclose
    obtain ⟨tokens, htokens, hvalue⟩ :=
      Reading.valueTokens_of_group (afterOpening?_drop.2 ⟨hopen, rfl⟩) hgroup
    exact Reading.declaration_of_tokens hkeyword htokens (hvalue ▸ hscan)
  | single hkeyword hopen hskip =>
    have hnone : afterOpening? .paren (T.tokens.drop (i + 1)) = none :=
      Option.eq_none_iff_forall_ne_some.2 fun _ h => hopen (afterOpening?_drop.1 h).1
    obtain ⟨tokens, htokens, hvalue⟩ := Reading.valueTokens_of_terminator hnone hskip
    rw [(closed_single (lt_length_of_kind hkeyword nofun) hskip).2] at hvalue
    exact Reading.declaration_of_tokens hkeyword htokens (hvalue ▸ hscan)

end Starts

/-! ### A whole scan -/

/-- The first call answers with what the reader finds that is given the tokens. -/
theorem Closed.exists_answer (h : T.Closed first last) :
    ∃ found x, T.reading.scanLiterals {} (T.slice first last) = .ok found ∧
      T.Reaches ⟨Frame.code first last, []⟩ x ∧ T.advance x = .inr (.ok found) := by
  obtain ⟨found, hscan, hreturns⟩ :=
    (answersBelow _).code (Nat.lt_succ_self _) h {} [] (Frame.code first last).call rfl
  obtain ⟨p, hsteps, hend⟩ := hreturns.reaches []
  refine ⟨found, _, hscan, hsteps, ?_⟩
  rw [advance, hend]
  rfl

/-- What is reached is on the way to the end, as there is one step from each state. -/
theorem Reaches.to_end {x y z : State} {answer : Except SyntaxError (List CompositeLit)}
    (hz : T.Reaches x z) (hend : T.advance z = .inr answer) (hy : T.Reaches x y) :
    T.Reaches y z := by
  have hunique : Relator.RightUnique fun a b => T.advance a = .inl b :=
    fun _ _ _ h h' => Sum.inl.inj (h.symm.trans h')
  rcases Relation.ReflTransGen.total_of_right_unique hunique hy hz with h | h
  · exact h
  · rcases h.cases_head with rfl | ⟨next, hnext, -⟩
    · exact .refl
    · cases hend.symm.trans hnext

/-- **The scan for literals that a declaration starts comes to an end**, whatever the tokens of the
text are: from each state that it comes to, it goes on to its answer, the literals of the
declaration. On the way, a call of a reader inside a call of the same one is for a range strictly
inside, a scan of code goes forward, neither a type nor a signature goes back or past the end of the
range, and no counter gets below zero. -/
theorem Starts.scan_ends {source : Source} (h : source.tape.Starts i first last)
    (seenOther : Bool) :
    ∃ d, source.reader.declaration seenOther (source.tape.token i)
          (source.tape.tokens.drop (i + 1)) = .ok d ∧
      ∀ x, source.tape.Reaches ⟨Frame.code first last, []⟩ x →
        (∃ y, source.tape.Reaches x y ∧
          source.tape.advance y = .inr (.ok d.value.literals)) ∧
        x.Bounded source.tape := by
  obtain ⟨found, y, hscan, hy, hend⟩ := h.closed.exists_answer
  obtain ⟨d, hd, rfl⟩ := h.exists_declaration seenOther hscan
  exact ⟨d, hd, fun x hx => ⟨⟨y, hy.to_end hend hx, hend⟩, (h.closed.sound.reaches hx).bounded⟩⟩

/-- A variable with a closing parenthesis too many, and a literal with others inside. -/
def nestedLiterals : Source where
  filename := ascii "p.go"
  content := ascii "var x = ) T\x7ba: U\x7b1\x7d, \x7b2, 3\x7d\x7d\n"

/-- The parenthesis is in the range that is scanned, outside the groups. -/
theorem scan_ends_nested : nestedLiterals.tape.Starts 0 1 19 ∧
    ∃ d, nestedLiterals.reader.declaration false (nestedLiterals.tape.token 0)
          (nestedLiterals.tape.tokens.drop 1) = .ok d ∧
      ∀ x, nestedLiterals.tape.Reaches ⟨Frame.code 1 19, []⟩ x →
        (∃ y, nestedLiterals.tape.Reaches x y ∧
          nestedLiterals.tape.advance y = .inr (.ok d.value.literals)) ∧
        x.Bounded nestedLiterals.tape := by
  have hkeyword : nestedLiterals.tape.kind 0 = .keyword ValueKeyword.var.keyword := by
    decide +kernel
  have hopen : nestedLiterals.tape.kind 1 ≠ .opening .paren := by decide +kernel
  have hlength : nestedLiterals.tape.tokens.length = 20 := by decide +kernel
  have hrest : (nestedLiterals.tape.reading.skipToTerminator
      (nestedLiterals.tape.tokens.drop 1)).toOption.map List.length = some 1 := by decide +kernel
  obtain ⟨rest, hskip, hone⟩ := Option.map_eq_some_iff.1 hrest
  have hstarts := Starts.single hkeyword hopen (eq_ok_of_toOption hskip)
  rw [hlength, hone] at hstarts
  exact ⟨hstarts, hstarts.scan_ends false⟩

end Tape

end BuildOrder
