import BuildOrder.Proofs.Groups

/-!
# Headers of statements

A scan for literals keeps the depths at which the header of a statement is open. What such a header
is does not depend on the scan: it starts at a keyword, and goes on over all that does not open its
block.

* `Reading.HeaderAt`, `Reading.HeaderOpen`: how far a header goes; and that one is open, within some
  brackets.
* `Reading.HeaderAt.of_plain`: without brackets and functions in it, it goes up to the first brace.
* `Reading.Visible`: a place that no signature and no header of a statement hides.
* `Reading.Tracks`: the depths of a scan are those of headers that are open.
* `Tracks.token`, `Tracks.openHeader`, `Tracks.opening`, `Tracks.closing`, `Tracks.signature`,
  `Tracks.body`, `Tracks.group`: **each step of a scan keeps track of the headers.**
-/

namespace BuildOrder

/-- The header of a statement starts at the token. -/
def Token.OpensHeader (t : Token) : Prop :=
  t.kind = .keyword .ifKw ∨ t.kind = .keyword .forKw ∨ t.kind = .keyword .switchKw

instance (t : Token) : Decidable t.OpensHeader :=
  inferInstanceAs (Decidable (_ ∨ _ ∨ _))

theorem Token.OpensHeader.not_bracket {t : Token} (h : t.OpensHeader) : ¬ t.IsBracket := by
  rcases h with h | h | h <;> exact Token.not_isBracket h (by simp)

theorem Token.OpensHeader.not_func {t : Token} (h : t.OpensHeader) :
    t.kind ≠ .keyword .funcKw := by
  rcases h with h | h | h <;> rw [h] <;> nofun

namespace Reading

/-- How far a header goes that starts before the tokens `ts`, with how many brackets open: on over
all tokens, up to the brace of its block, which stands outside brackets; signatures, the bodies of
function literals and, within brackets, groups in braces are passed over. -/
inductive HeaderAt (r : Reading) (ts : List Token) : Nat → List Token → Prop
  | start : HeaderAt r ts 0 ts
  | token {e : Nat} {t : Token} {rest : List Token} : HeaderAt r ts e (t :: rest) →
      ¬ t.IsBracket → t.kind ≠ .keyword .funcKw → HeaderAt r ts e rest
  | opening {e : Nat} {t : Token} {b : Bracket} {rest : List Token} : HeaderAt r ts e (t :: rest) →
      t.kind = .opening b → (b = .brace → e ≠ 0) → HeaderAt r ts (e + 1) rest
  | closing {e : Nat} {t : Token} {b : Bracket} {rest : List Token} :
      HeaderAt r ts (e + 1) (t :: rest) → t.kind = .closing b → HeaderAt r ts e rest
  | group {e : Nat} {t : Token} {rest body after : List Token} : HeaderAt r ts e (t :: rest) →
      t.kind = .opening .brace → e ≠ 0 → r.group .brace rest = .ok (body, after) →
      HeaderAt r ts e after
  | signature {e : Nat} {t : Token} {rest after : List Token} : HeaderAt r ts e (t :: rest) →
      t.kind = .keyword .funcKw → r.Skips .signature rest after → HeaderAt r ts e after
  | body {e : Nat} {t : Token} {rest after inside body last : List Token} :
      HeaderAt r ts e (t :: rest) → t.kind = .keyword .funcKw → r.Skips .signature rest after →
      afterOpening? .brace after = some inside → r.group .brace inside = .ok (body, last) →
      HeaderAt r ts e last

/-- After the tokens `sofar` a header is open, with as many brackets in it. -/
def HeaderOpen (r : Reading) (sofar rest : List Token) (e : Nat) : Prop :=
  ∃ pre t mid, sofar = pre ++ t :: mid ∧ t.OpensHeader ∧ r.HeaderAt (mid ++ rest) e rest

variable {r : Reading}

/-- No signature and no header hides what stands after the tokens `before`: the types in the
signatures before it end there, it is in no header, and the headers before it have ended where a
bracket closes or another one starts. -/
structure Visible (r : Reading) (before here : List Token) : Prop where
  signature : ∀ pre t mid, before = pre ++ t :: mid → t.kind = .keyword .funcKw →
    ∃ rest, r.Skips .signature (mid ++ here) rest ∧ here.length ≤ rest.length
  header : ¬ r.HeaderOpen before here 0
  closed : ∀ pre t mid, before = pre ++ t :: mid → (∃ b, t.kind = .closing b) ∨ t.OpensHeader →
    ¬ r.HeaderOpen pre (t :: mid ++ here) 0

/-- A header without brackets and functions goes up to the first brace after it. -/
theorem HeaderAt.of_plain {front block rest : List Token} {brace : Token} {e : Nat}
    (hfront : ∀ u ∈ front, ¬ u.IsBracket ∧ u.kind ≠ .keyword .funcKw)
    (hbrace : brace.kind = .opening .brace) (h : r.HeaderAt (front ++ brace :: block) e rest) :
    e = 0 ∧ ∃ back, back <:+ front ∧ rest = back ++ brace :: block := by
  have head {t : Token} {rest : List Token} (hne : t ≠ brace)
      (h : ∃ back, back <:+ front ∧ t :: rest = back ++ brace :: block) :
      t ∈ front ∧ ∃ back, back <:+ front ∧ rest = back ++ brace :: block := by
    obtain ⟨back, hsuffix, heq⟩ := h
    cases back with
    | nil => exact absurd (List.cons.inj heq).1 hne
    | cons u back =>
      obtain ⟨rfl, rfl⟩ := List.cons.inj heq
      exact ⟨hsuffix.subset List.mem_cons_self, back, (List.suffix_cons _ _).trans hsuffix, rfl⟩
  have func {t : Token} {rest : List Token} (ht : t.kind = .keyword .funcKw)
      (h : ∃ back, back <:+ front ∧ t :: rest = back ++ brace :: block) : False := by
    have hne : t ≠ brace := by
      rintro rfl
      cases ht.symm.trans hbrace
    exact (hfront t (head hne h).1).2 ht
  induction h with
  | start => exact ⟨rfl, front, List.suffix_refl _, rfl⟩
  | @token _ t _ _ ht _ ih =>
    have hne : t ≠ brace := by
      rintro rfl
      exact ht ⟨.brace, Or.inl hbrace⟩
    exact ⟨ih.1, (head hne ih.2).2⟩
  | @opening _ t _ _ _ ht hb ih =>
    obtain ⟨rfl, hrest⟩ := ih
    have hne : t ≠ brace := by
      rintro rfl
      cases ht.symm.trans hbrace
      exact hb rfl rfl
    exact absurd ⟨_, Or.inl ht⟩ (hfront _ (head hne hrest).1).1
  | closing _ _ ih => exact absurd ih.1 (Nat.succ_ne_zero _)
  | group _ _ he _ ih => exact absurd ih.1 he
  | signature _ ht _ ih => exact (func ht ih.2).elim
  | body _ ht _ _ _ ih => exact (func ht ih.2).elim

/-- In its block, such a header is not open. -/
theorem not_headerOpen_of_plain {sofar front block rest : List Token} {t brace : Token} {e : Nat}
    (heq : sofar ++ rest = t :: (front ++ brace :: block))
    (hfront : ∀ u ∈ front, ¬ u.IsBracket ∧ u.kind ≠ .keyword .funcKw)
    (hbrace : brace.kind = .opening .brace)
    (honly : ∀ u ∈ front ++ brace :: block, ¬ u.OpensHeader)
    (hsofar : front.length + 1 < sofar.length) : ¬ r.HeaderOpen sofar rest e := by
  rintro ⟨pre, u, mid, rfl, hu, hat⟩
  cases pre with
  | nil =>
    obtain ⟨rfl, hrest⟩ := List.cons.inj heq
    have hrest : mid ++ rest = front ++ brace :: block := hrest
    rw [hrest] at hat
    obtain ⟨-, back, -, rfl⟩ := hat.of_plain hfront hbrace
    have hlength := congrArg List.length hrest
    simp only [List.nil_append, List.length_append, List.length_cons] at hlength hsofar
    omega
  | cons v pre =>
    obtain ⟨-, hrest⟩ := List.cons.inj heq
    refine honly u ?_ hu
    have hrest : pre ++ u :: mid ++ rest = front ++ brace :: block := hrest
    rw [← hrest]
    simp

/-- The depths that a scan keeps, the innermost first, are those of headers that are open. -/
structure Tracks (r : Reading) (s : LiteralScan) (sofar rest : List Token) : Prop where
  decreasing : s.headers.Pairwise (· > ·)
  le : ∀ n ∈ s.headers, n ≤ s.depth
  opened : ∀ n ∈ s.headers, r.HeaderOpen sofar rest (s.depth - n)

variable {s : LiteralScan} {t : Token} {b : Bracket} {e e' : Nat}
  {sofar passed rest inside block after : List Token}

/-- A header that is open goes on over what is passed. -/
theorem HeaderOpen.pass (h : r.HeaderOpen sofar (passed ++ rest) e)
    (hpass : ∀ ts, r.HeaderAt ts e (passed ++ rest) → r.HeaderAt ts e' rest) :
    r.HeaderOpen (sofar ++ passed) rest e' := by
  obtain ⟨pre, t, mid, rfl, ht, hat⟩ := h
  refine ⟨pre, t, mid ++ passed, by simp, ht, ?_⟩
  rw [List.append_assoc]
  exact hpass _ hat

namespace Tracks

/-- A scan that starts anew keeps track of no header. -/
theorem start : r.Tracks {} sofar rest := ⟨List.Pairwise.nil, nofun, nofun⟩

section Steps

variable (h : r.Tracks s sofar (passed ++ rest))

include h

/-- What is passed at one depth. -/
theorem pass (hpass : ∀ n ∈ s.headers, ∀ ts,
      r.HeaderAt ts (s.depth - n) (passed ++ rest) → r.HeaderAt ts (s.depth - n) rest) :
    r.Tracks s.past (sofar ++ passed) rest :=
  ⟨h.decreasing, h.le, fun n hn => (h.opened n hn).pass (hpass n hn)⟩

/-- Outside headers, all headers that are open are further out. -/
theorem lt_depth (hout : s.inHeader = false) : ∀ n ∈ s.headers, n < s.depth := by
  intro n hn
  have hne : n ≠ s.depth := by
    rintro rfl
    -- a header at this depth would be the innermost
    cases hheaders : s.headers with
    | nil =>
      rw [hheaders] at hn
      cases hn
    | cons first others =>
      have hfirst : first ≤ s.depth := h.le first (hheaders ▸ List.mem_cons_self)
      have hdecreasing := hheaders ▸ h.decreasing
      rw [hheaders] at hn
      rcases List.mem_cons.1 hn with heq | hothers
      · rw [LiteralScan.inHeader, hheaders, heq] at hout
        simp at hout
      · have := (List.pairwise_cons.1 hdecreasing).1 _ hothers
        omega
  have := h.le n hn
  omega

/-- In a header, those further out are. -/
theorem lt_depth_tail (hin : s.inHeader = true) : ∀ n ∈ s.headers.tail, n < s.depth := by
  intro n hn
  cases hheaders : s.headers with
  | nil =>
    rw [hheaders] at hn
    cases hn
  | cons first others =>
    have hfirst : first = s.depth := by simpa [LiteralScan.inHeader, hheaders] using hin
    rw [hheaders] at hn
    have hdecreasing := hheaders ▸ h.decreasing
    have := (List.pairwise_cons.1 hdecreasing).1 n hn
    omega

/-- Where a scan is in a header, one is open. -/
theorem headerOpen (hin : s.inHeader = true) : r.HeaderOpen sofar (passed ++ rest) 0 := by
  have hmem : s.depth ∈ s.headers := by
    have hhead : s.headers.head? = some s.depth := by simpa [LiteralScan.inHeader] using hin
    exact List.mem_of_head? hhead
  simpa using h.opened _ hmem

/-- Where none is, those kept are further out. -/
theorem lt_of_not_headerOpen (hnone : ¬ r.HeaderOpen sofar (passed ++ rest) 0) :
    ∀ n ∈ s.headers, n < s.depth :=
  h.lt_depth (Bool.eq_false_iff.2 fun hin => hnone (h.headerOpen hin))

end Steps

/-- A token that is no bracket. -/
theorem token (h : r.Tracks s sofar (t :: rest)) (ht : ¬ t.IsBracket)
    (hfunc : t.kind ≠ .keyword .funcKw) : r.Tracks s.past (sofar ++ [t]) rest := by
  have h : r.Tracks s sofar ([t] ++ rest) := h
  exact h.pass fun _ _ _ hat => hat.token ht hfunc

/-- A header that starts where none is open. -/
theorem openHeader (h : r.Tracks s sofar (t :: rest)) (ht : t.OpensHeader)
    (hnone : ¬ r.HeaderOpen sofar (t :: rest) 0) :
    r.Tracks s.openHeader (sofar ++ [t]) rest := by
  have hlt : ∀ n ∈ s.headers, n < s.depth := by
    have h : r.Tracks s sofar ([t] ++ rest) := h
    exact h.lt_of_not_headerOpen hnone
  refine ⟨List.pairwise_cons.2 ⟨hlt, h.decreasing⟩, ?_, ?_⟩
  · intro n hn
    rcases List.mem_cons.1 hn with rfl | hn
    · exact Nat.le_refl _
    · exact h.le n hn
  · intro n hn
    rcases List.mem_cons.1 hn with rfl | hn
    · refine ⟨sofar, t, [], rfl, ht, ?_⟩
      rw [LiteralScan.openHeader, Nat.sub_self]
      exact .start
    · exact (h.token ht.not_bracket ht.not_func).opened n hn

/-- A bracket opens; a brace outside brackets opens the block of the header. -/
theorem opening (h : r.Tracks s sofar (t :: rest)) (ht : t.kind = .opening b) :
    r.Tracks (s.openGroup b) (sofar ++ [t]) rest := by
  have h' : r.Tracks s sofar ([t] ++ rest) := h
  have hsub : ∀ n ∈ (s.openGroup b).headers, n ∈ s.headers := by
    intro n hn
    rw [LiteralScan.openGroup] at hn
    dsimp only at hn
    split at hn
    · exact List.mem_of_mem_tail hn
    · exact hn
  -- What stays open at a brace is further out.
  have hbrace : b = .brace → ∀ n ∈ (s.openGroup b).headers, n < s.depth := by
    rintro rfl n hn
    rw [LiteralScan.openGroup] at hn
    dsimp only at hn
    split at hn
    · rename_i hin
      exact h'.lt_depth_tail hin.2 n hn
    · rename_i hin
      exact h'.lt_depth (by simpa using hin) n hn
  refine ⟨?_, fun n hn => Nat.le_succ_of_le (h.le n (hsub n hn)), fun n hn => ?_⟩
  · rw [LiteralScan.openGroup]
    dsimp only
    split
    · exact h.decreasing.sublist (List.tail_sublist _)
    · exact h.decreasing
  · have hle := h.le n (hsub n hn)
    have hdepth : (s.openGroup b).depth - n = s.depth - n + 1 := Nat.succ_sub hle
    rw [hdepth]
    refine (h'.opened n (hsub n hn)).pass fun ts hat => hat.opening ht fun hb => ?_
    have := hbrace hb n hn
    omega

/-- A bracket closes, where no header is open outside brackets. -/
theorem closing (h : r.Tracks s sofar (t :: rest)) (ht : t.kind = .closing b)
    (hnone : ¬ r.HeaderOpen sofar (t :: rest) 0) :
    r.Tracks (s.closeGroup b) (sofar ++ [t]) rest := by
  have h' : r.Tracks s sofar ([t] ++ rest) := h
  have hlt := h'.lt_of_not_headerOpen hnone
  refine ⟨h.decreasing, fun n hn => Nat.le_sub_one_of_lt (hlt n hn), fun n hn => ?_⟩
  refine (h'.opened n hn).pass fun ts hat => HeaderAt.closing ?_ ht
  have hdepth : s.depth - n = (s.closeGroup b).depth - n + 1 := by
    have := hlt n hn
    rw [LiteralScan.closeGroup]
    dsimp only
    omega
  rwa [← hdepth]

/-- A signature. -/
theorem signature (h : r.Tracks s sofar (t :: (passed ++ rest))) (ht : t.kind = .keyword .funcKw)
    (hskips : r.Skips .signature (passed ++ rest) rest) :
    r.Tracks s.past (sofar ++ t :: passed) rest := by
  have h : r.Tracks s sofar ((t :: passed) ++ rest) := h
  exact h.pass fun _ _ _ hat => hat.signature ht hskips

/-- A function literal, up to the end of its body. -/
theorem body (h : r.Tracks s sofar (t :: (passed ++ rest))) (ht : t.kind = .keyword .funcKw)
    (hskips : r.Skips .signature (passed ++ rest) after)
    (hopen : afterOpening? .brace after = some inside)
    (hgroup : r.group .brace inside = .ok (block, rest)) :
    r.Tracks s.past (sofar ++ t :: passed) rest := by
  have h : r.Tracks s sofar ((t :: passed) ++ rest) := h
  exact h.pass fun _ _ _ hat => hat.body ht hskips hopen hgroup

/-- A literal outside headers, from its brace on. -/
theorem group (h : r.Tracks s sofar (t :: (passed ++ rest))) (hout : s.inHeader = false)
    (ht : t.kind = .opening .brace) (hgroup : r.group .brace (passed ++ rest) = .ok (block, rest)) :
    r.Tracks s.past (sofar ++ t :: passed) rest := by
  have h : r.Tracks s sofar ((t :: passed) ++ rest) := h
  have hlt := h.lt_depth hout
  refine h.pass fun n hn _ hat => hat.group ht ?_ hgroup
  have := hlt n hn
  omega

end Tracks

end Reading

end BuildOrder
