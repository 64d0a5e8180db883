import BuildOrder.Proofs.Nesting
import Mathlib.Order.Bounds.Defs

/-!
# The bracket that closes a group

The reader of a group keeps the brackets that are open, and stops at the first token that fits none
of them or closes the last. That it finds the right bracket is a matter of the brackets alone.

* `WellNested`, `brackets`: the well-nested words of the three pairs of brackets, and the brackets
  among tokens.
* `Nested.wellNested`, `nested_of_wellNested`: tokens without a stray bracket are those whose
  brackets are such a word.
* `Reading.group_append_nested`: what is nested is passed, up to the bracket that closes the group.
* `ClosesAt`: the brackets from one place to another are well nested, and the last closes the first.
* `Reading.group_isLeast`: **a group reaches to the first place where it is closed**, and it cannot
  be read if and only if there is none.
-/

namespace BuildOrder

/-! ### Words of brackets -/

/-- A word of brackets that is well nested. -/
inductive WellNested : List TokenKind → Prop
  | nil : WellNested []
  | group {b : Bracket} {inside after : List TokenKind} : WellNested inside → WellNested after →
      WellNested (.opening b :: (inside ++ .closing b :: after))

/-- The token as a letter of a word of brackets. -/
def Token.bracket? (t : Token) : Option TokenKind := if t.IsBracket then some t.kind else none

/-- The brackets among the tokens. -/
def brackets (ts : List Token) : List TokenKind := ts.filterMap Token.bracket?

variable {t : Token} {ts : List Token} {kind : TokenKind} {word word' : List TokenKind}

theorem Token.bracket?_eq_none : t.bracket? = none ↔ ¬ t.IsBracket := by
  unfold bracket?
  split <;> simp [*]

theorem Token.bracket?_eq_some : t.bracket? = some kind ↔ t.IsBracket ∧ t.kind = kind := by
  unfold bracket?
  split <;> simp [*]

theorem brackets_append (ts more : List Token) :
    brackets (ts ++ more) = brackets ts ++ brackets more :=
  List.filterMap_append

theorem brackets_cons_plain (ht : ¬ t.IsBracket) : brackets (t :: ts) = brackets ts :=
  List.filterMap_cons_none (Token.bracket?_eq_none.2 ht)

theorem brackets_cons (ht : t.IsBracket) : brackets (t :: ts) = t.kind :: brackets ts :=
  List.filterMap_cons_some (Token.bracket?_eq_some.2 ⟨ht, rfl⟩)

theorem brackets_eq_nil : brackets ts = [] ↔ ∀ t ∈ ts, ¬ t.IsBracket := by
  simp only [brackets, List.filterMap_eq_nil_iff, Token.bracket?_eq_none]

/-- A word of brackets is cut between the tokens. -/
theorem brackets_eq_append (h : brackets ts = word ++ word') :
    ∃ front back, ts = front ++ back ∧ brackets front = word ∧ brackets back = word' :=
  List.filterMap_eq_append_iff.1 h

/-- The first bracket comes after tokens that are none. -/
theorem brackets_eq_cons (h : brackets ts = kind :: word) :
    ∃ front t back, ts = front ++ t :: back ∧ (∀ u ∈ front, ¬ u.IsBracket) ∧ t.kind = kind ∧
      brackets back = word := by
  obtain ⟨front, t, back, rfl, hfront, ht, hback⟩ := List.filterMap_eq_cons_iff.1 h
  exact ⟨front, t, back, rfl, fun u hu => Token.bracket?_eq_none.1 (hfront u hu),
    (Token.bracket?_eq_some.1 ht).2, hback⟩

/-! ### Nested tokens -/

/-- **The brackets of tokens that are nested are a well-nested word.** -/
theorem Nested.wellNested (h : Nested ts []) : WellNested (brackets ts) := by
  generalize hstrays : ([] : List Token) = strays at h
  induction h with
  | nil => exact .nil
  | token ht _ ih =>
    rw [brackets_cons_plain ht]
    exact ih hstrays
  | @group b t last inside ts strays ht _ hlast _ ihInside ih =>
    rw [brackets_cons ⟨b, Or.inl ht⟩, brackets_append, brackets_cons ⟨b, Or.inr hlast⟩, ht, hlast]
    exact .group (ihInside rfl) (ih hstrays)
  | stray => cases hstrays

theorem nested_of_plain (h : ∀ t ∈ ts, ¬ t.IsBracket) : Nested ts [] := by
  induction ts with
  | nil => exact .nil
  | cons t ts ih =>
    exact .token (h t List.mem_cons_self) (ih fun u hu => h u (List.mem_cons_of_mem _ hu))

/-- **Tokens are nested if their brackets are a well-nested word.** -/
theorem nested_of_wellNested (h : WellNested word) : ∀ {ts : List Token}, brackets ts = word →
    Nested ts [] := by
  induction h with
  | nil => exact fun hts => nested_of_plain (brackets_eq_nil.1 hts)
  | @group b inside after _ _ ihInside ihAfter =>
    intro ts hts
    obtain ⟨front, t, ts, rfl, hfront, ht, hts⟩ := brackets_eq_cons hts
    obtain ⟨body, ts, rfl, hbody, hts⟩ := brackets_eq_append hts
    obtain ⟨plain, last, ts, rfl, hplain, hlast, hts⟩ := brackets_eq_cons hts
    have hinside : Nested (body ++ plain) [] := (ihInside hbody).append (nested_of_plain hplain)
    have hgroup := Nested.group ht hinside hlast (ihAfter hts)
    rw [List.append_assoc] at hgroup
    exact (nested_of_plain hfront).append hgroup

/-! ### The reader of a group -/

namespace Reading

variable {r : Reading} {b : Bracket} {outer : List Bracket} {last : Token}
  {body inside rest : List Token}

/-- What is nested is passed, whatever groups are open. -/
theorem closeGroup_append_nested (h : Nested body []) (ts : List Token) :
    r.closeGroup b outer (body ++ ts) =
      (r.closeGroup b outer ts).map fun parts => (body ++ parts.1, parts.2) := by
  generalize hstrays : ([] : List Token) = strays at h
  induction h generalizing b outer ts with
  | nil =>
    rw [List.nil_append]
    cases r.closeGroup b outer ts <;> rfl
  | token ht _ ih =>
    rw [List.cons_append, closeGroup_plain ht, ih ts hstrays]
    cases r.closeGroup b outer ts <;> rfl
  | @group c t last inside more strays ht _ hlast _ ihInside ih =>
    -- what is inside is passed with one more group open, which its own bracket closes
    rw [List.cons_append, List.append_assoc, List.cons_append, closeGroup_opening ht,
      ihInside _ rfl, closeGroup_closing hlast, ih ts hstrays]
    cases r.closeGroup b outer ts with
    | error e => rfl
    | ok parts => simp [Except.map, consInside]
  | stray => cases hstrays

theorem group_append_nested (hbody : Nested body []) (hlast : last.kind = .closing b) :
    r.group b (body ++ last :: rest) = .ok (body, rest) := by
  rw [group, closeGroup_append_nested hbody, closeGroup_closing_last hlast]
  simp [Except.map]

end Reading

/-! ### Where a group is closed -/

/-- The brackets from the first place to the last are well nested, and the last of them closes the
first. -/
def ClosesAt (ts : List Token) (first last : Nat) : Prop :=
  last < ts.length ∧ ∃ b inside, WellNested inside ∧
    brackets ((ts.take (last + 1)).drop first) = .opening b :: (inside ++ [.closing b])

theorem exists_cut {i : Nat} (ht : ts[i]? = some t) :
    ∃ front tail, ts = front ++ t :: tail ∧ front.length = i := by
  obtain ⟨hi, rfl⟩ := List.getElem?_eq_some_iff.1 ht
  refine ⟨ts.take i, ts.drop (i + 1), ?_, List.length_take_of_le (Nat.le_of_lt hi)⟩
  rw [List.getElem_cons_drop, List.take_append_drop]

theorem closesAt_iff {front tail : List Token} {c : Nat} :
    ClosesAt (front ++ t :: tail) front.length c ↔
      ∃ k ≤ tail.length, c = front.length + k ∧ ∃ b inside, WellNested inside ∧
        brackets (t :: tail.take k) = .opening b :: (inside ++ [.closing b]) := by
  have hslice : ∀ k, ((front ++ t :: tail).take (front.length + k + 1)).drop front.length =
      t :: tail.take k := by
    intro k
    rw [Nat.add_assoc, List.take_length_add_append, List.drop_left, List.take_succ_cons]
  constructor
  · rintro ⟨hc, b, inside, hinside, hbrackets⟩
    obtain ⟨k, rfl⟩ : ∃ k, c = front.length + k := by
      refine Nat.exists_eq_add_of_le (Nat.le_of_not_lt fun hlt => ?_)
      rw [List.drop_eq_nil_of_le (by simp; omega)] at hbrackets
      cases hbrackets
    rw [hslice] at hbrackets
    rw [List.length_append, List.length_cons] at hc
    exact ⟨k, by omega, rfl, b, inside, hinside, hbrackets⟩
  · rintro ⟨k, hk, rfl, b, inside, hinside, hbrackets⟩
    refine ⟨?_, b, inside, hinside, by rw [hslice, hbrackets]⟩
    rw [List.length_append, List.length_cons]
    omega

namespace Reading

variable {r : Reading} {b : Bracket} {i c : Nat} {inside rest : List Token}

/-- The group that is read is closed where it ends. -/
theorem closesAt_of_group (r : Reading) (ht : ts[i]? = some t) (hb : t.kind = .opening b)
    (h : r.group b (ts.drop (i + 1)) = .ok (inside, rest)) :
    ClosesAt ts i (i + 1 + inside.length) := by
  obtain ⟨front, tail, rfl, rfl⟩ := exists_cut ht
  rw [← List.drop_drop, List.drop_left, List.drop_succ_cons, List.drop_zero] at h
  obtain ⟨last, hlast, rfl⟩ := group_split h
  refine closesAt_iff.2 ⟨inside.length + 1, by simp, by omega, b, brackets inside,
    (group_nested h).1.wellNested, ?_⟩
  have htake : (inside ++ last :: rest).take (inside.length + 1) = inside ++ [last] := by
    rw [List.take_length_add_append, List.take_succ_cons, List.take_zero]
  rw [htake, brackets_cons ⟨b, Or.inl hb⟩, brackets_append, brackets_cons ⟨b, Or.inr hlast⟩, hb,
    hlast]
  rfl

/-- Where the brackets close the group, it can be read, and it ends no later. -/
theorem exists_group_of_closesAt (r : Reading) (ht : ts[i]? = some t) (hb : t.kind = .opening b)
    (h : ClosesAt ts i c) : ∃ inside rest, r.group b (ts.drop (i + 1)) = .ok (inside, rest) ∧
      i + 1 + inside.length ≤ c := by
  obtain ⟨front, tail, rfl, rfl⟩ := exists_cut ht
  rw [← List.drop_drop, List.drop_left, List.drop_succ_cons, List.drop_zero]
  obtain ⟨k, -, rfl, b', word, hword, hbrackets⟩ := closesAt_iff.1 h
  rw [brackets_cons ⟨b, Or.inl hb⟩, hb] at hbrackets
  obtain ⟨hopening, hbrackets⟩ := List.cons.inj hbrackets
  obtain rfl := TokenKind.opening.inj hopening
  -- what stands before the closing bracket is nested, with the tokens that are no brackets
  obtain ⟨body, back, hback, hbody, hclosing⟩ := brackets_eq_append hbrackets
  obtain ⟨plain, last, after, rfl, hplain, hlast, -⟩ := brackets_eq_cons hclosing
  have hnested := (nested_of_wellNested hword hbody).append (nested_of_plain hplain)
  have htail : tail = (body ++ plain) ++ last :: (after ++ tail.drop k) := by
    have happend := List.take_append_drop k tail
    rw [hback] at happend
    simpa using happend.symm
  refine ⟨body ++ plain, after ++ tail.drop k, ?_, ?_⟩
  · conv => lhs; rw [htail]
    exact group_append_nested hnested hlast
  · have hlength := congrArg List.length hback
    simp only [List.length_take, List.length_append, List.length_cons] at hlength ⊢
    omega

/-- A token at the end that is no bracket closes no group. -/
theorem group_append_plain {u : Token} (hu : ¬ u.IsBracket) :
    r.group b (ts ++ [u]) = .ok (inside, rest) ↔
      ∃ rest', rest = rest' ++ [u] ∧ r.group b ts = .ok (inside, rest') := by
  constructor
  · intro h
    obtain ⟨last, hlast, hsplit⟩ := group_split h
    refine group_of_append h (List.length_pos_iff.2 ?_)
    rintro rfl
    have hlast' := (List.append_inj' hsplit rfl).2
    rw [List.singleton_inj.1 hlast'] at hu
    exact hu ⟨b, Or.inr hlast⟩
  · rintro ⟨rest', rfl, h⟩
    exact group_append h

section

variable (r : Reading) (ht : ts[i]? = some t) (hb : t.kind = .opening b)
include ht hb

/-- What is read is what stands before the first place where the group is closed. -/
theorem group_eq_ok_iff : r.group b (ts.drop (i + 1)) = .ok (inside, rest) ↔
    IsLeast {c | ClosesAt ts i c} (i + 1 + inside.length) ∧
      ∃ last, ts.drop (i + 1) = inside ++ last :: rest := by
  constructor
  · intro h
    obtain ⟨last, -, hsplit⟩ := group_split h
    refine ⟨⟨r.closesAt_of_group ht hb h, fun c hc => ?_⟩, last, hsplit⟩
    obtain ⟨inside', rest', h', hle⟩ := r.exists_group_of_closesAt ht hb hc
    obtain ⟨rfl, -⟩ := Prod.mk.inj (Except.ok.inj (h.symm.trans h'))
    exact hle
  · rintro ⟨⟨hcloses, hleast⟩, last, hsplit⟩
    obtain ⟨inside', rest', h, hle⟩ := r.exists_group_of_closesAt ht hb hcloses
    obtain ⟨last', -, hsplit'⟩ := group_split h
    -- where the reader ends is a place of these too, so it is the least
    have hle' := hleast (r.closesAt_of_group ht hb h)
    obtain ⟨rfl, hrest⟩ := List.append_inj (hsplit.symm.trans hsplit') (by omega)
    obtain ⟨-, rfl⟩ := List.cons.inj hrest
    exact h

theorem exists_group_iff : (∃ inside rest, r.group b (ts.drop (i + 1)) = .ok (inside, rest)) ↔
    ∃ c, ClosesAt ts i c := by
  constructor
  · rintro ⟨inside, rest, h⟩
    exact ⟨_, r.closesAt_of_group ht hb h⟩
  · rintro ⟨c, hc⟩
    obtain ⟨inside, rest, h, -⟩ := r.exists_group_of_closesAt ht hb hc
    exact ⟨inside, rest, h⟩

end

/-- **A group reaches to the first place where it is closed**, and it cannot be read if and only if
there is none. -/
theorem group_isLeast (r : Reading) (content : Bytes) {i : Nat} {b : Bracket}
    (hopen : (tokenize content).tokens[i]?.map Token.kind = some (.opening b)) :
    (∀ inside rest,
      r.group b ((tokenize content).tokens.dropLast.drop (i + 1)) = .ok (inside, rest) ↔
        IsLeast {c | ClosesAt (tokenize content).tokens i c} (i + 1 + inside.length) ∧
          ∃ last, (tokenize content).tokens.dropLast.drop (i + 1) = inside ++ last :: rest) ∧
    ((∃ e, r.group b ((tokenize content).tokens.dropLast.drop (i + 1)) = .error e) ↔
      ∀ c, ¬ ClosesAt (tokenize content).tokens i c) := by
  obtain ⟨t, ht, hb⟩ := Option.map_eq_some_iff.1 hopen
  obtain ⟨front, offset, htokens, -⟩ := (lexed_tokenize content).exists_endOfFile
  have hkind : (Token.endOfFile offset).kind = .eof := rfl
  have hend : ¬ (Token.endOfFile offset).IsBracket := Token.not_isBracket hkind (by simp)
  rw [htokens] at ht ⊢
  rw [List.dropLast_concat]
  have hi : i < front.length := by
    refine Nat.lt_of_not_le fun hle => ?_
    rw [List.getElem?_append_right hle] at ht
    obtain rfl := List.mem_singleton.1 (List.mem_of_getElem? ht)
    exact hend ⟨b, Or.inl hb⟩
  have hdrop : (front ++ [Token.endOfFile offset]).drop (i + 1) =
      front.drop (i + 1) ++ [Token.endOfFile offset] := List.drop_append_of_le_length hi
  constructor
  · intro inside rest
    -- the end of the file stays behind what is left
    have happend : r.group b (front.drop (i + 1)) = .ok (inside, rest) ↔
        r.group b (front.drop (i + 1) ++ [Token.endOfFile offset]) =
          .ok (inside, rest ++ [Token.endOfFile offset]) := by
      rw [group_append_plain hend]
      simp
    rw [happend, ← hdrop, r.group_eq_ok_iff ht hb, hdrop]
    simp only [← List.cons_append, ← List.append_assoc, List.append_cancel_right_eq]
  · rw [← not_exists, ← r.exists_group_iff ht hb]
    simp only [hdrop, group_append_plain hend]
    cases r.group b (front.drop (i + 1)) with
    | error e => simp
    | ok parts => exact iff_of_false nofun fun h => h ⟨parts.1, _, parts.2, rfl, rfl⟩

/-- A function with an index in a call in its body. -/
def nestedSource : Source where
  filename := ascii "p.go"
  content := ascii "package p\nfunc f(a [2]int) \x7b\n\tg(h[0])\n\x7d\n"

/-- A call that is closed before the index in it. -/
def crossedSource : Source where
  filename := ascii "p.go"
  content := ascii "package p\nvar x = g(h[0)]\n"

/-- The body is closed by the brace after the brackets in it; the call is not closed at all. -/
theorem group_isLeast_nested :
    ((tokenize nestedSource.content).tokens[12]?.map Token.kind = some (.opening .brace) ∧
      (nestedSource.reader.group .brace
        ((tokenize nestedSource.content).tokens.dropLast.drop 13)).isOk = true ∧
      IsLeast {c | ClosesAt (tokenize nestedSource.content).tokens 12 c} 21) ∧
    (tokenize crossedSource.content).tokens[7]?.map Token.kind = some (.opening .paren) ∧
      ∀ c, ¬ ClosesAt (tokenize crossedSource.content).tokens 7 c := by
  have hnested : (tokenize nestedSource.content).tokens[12]?.map Token.kind =
      some (.opening .brace) := by decide +kernel
  have hcrossed : (tokenize crossedSource.content).tokens[7]?.map Token.kind =
      some (.opening .paren) := by decide +kernel
  have hlength : (nestedSource.reader.group .brace
      ((tokenize nestedSource.content).tokens.dropLast.drop 13)).toOption.map (·.1.length) =
        some 8 := by decide +kernel
  have hfails : (crossedSource.reader.group .paren
      ((tokenize crossedSource.content).tokens.dropLast.drop 8)).toOption = none := by
    decide +kernel
  obtain ⟨⟨inside, rest⟩, hgroup, hinside⟩ := Option.map_eq_some_iff.1 hlength
  have hgroup := eq_ok_of_toOption hgroup
  refine ⟨⟨hnested, by rw [hgroup]; rfl, ?_⟩, hcrossed, ?_⟩
  · have hleast := (((group_isLeast nestedSource.reader _ hnested).1 inside rest).1 hgroup).1
    have hinside : inside.length = 8 := hinside
    rwa [hinside] at hleast
  · refine (group_isLeast crossedSource.reader _ hcrossed).2.1 ?_
    cases hgroup : crossedSource.reader.group .paren
        ((tokenize crossedSource.content).tokens.dropLast.drop 8) with
    | error e => exact ⟨e, rfl⟩
    | ok parts => simp [hgroup, Except.toOption] at hfails

end Reading

end BuildOrder
