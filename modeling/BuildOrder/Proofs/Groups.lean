import BuildOrder.SourceFile.Literals

/-!
# What groups, types and signatures are made of

* `Reading.closeGroup_cons`: what a reader of groups does with the token at the front.
* `Reading.group_split`: **a group is cut out of its tokens**: the inside, the closing bracket, the
  rest.
* `Reading.group_append`, `Reading.group_of_append`: a reader of a group does not look at what comes
  after it.
* `Reading.spanTop_group`: **a separator is looked for after a group**, not in it.
* `Reading.Skips`, `Reading.skips_of_skip`, `Reading.skip_of_skips`: what the readers of types and
  signatures pass over.
* `Reading.Skips.of_append`: a type or a signature that ends before the last tokens is one without
  them.
-/

namespace BuildOrder

/-- A computation that goes well has gone well at its first step, and from there. -/
theorem bind_eq_ok {ε α β : Type} {x : Except ε α} {f : α → Except ε β} {b : β} :
    x >>= f = .ok b ↔ ∃ a, x = .ok a ∧ f a = .ok b := by
  cases x with
  | error e => exact ⟨nofun, by rintro ⟨_, ⟨⟩, _⟩⟩
  | ok a => exact ⟨fun h => ⟨a, rfl, h⟩, by rintro ⟨_, ⟨⟩, h⟩; exact h⟩

theorem eq_ok_of_toOption {ε α : Type} {x : Except ε α} {a : α} (h : x.toOption = some a) :
    x = .ok a := by
  cases x with
  | error e => cases h
  | ok a' => rw [Option.some.inj h]

theorem ok_bind {ε α β : Type} (a : α) (f : α → Except ε β) : (Except.ok a >>= f) = f a := rfl

instance {p : Bracket → Prop} [DecidablePred p] : Decidable (∃ b, p b) :=
  decidable_of_iff (p .paren ∨ p .square ∨ p .brace) <| by
    constructor
    · rintro (h | h | h) <;> exact ⟨_, h⟩
    · rintro ⟨b, h⟩
      cases b
      · exact Or.inl h
      · exact Or.inr (Or.inl h)
      · exact Or.inr (Or.inr h)

/-- The token opens a group or closes one. -/
def Token.IsBracket (t : Token) : Prop := ∃ b, t.kind = .opening b ∨ t.kind = .closing b

instance (t : Token) : Decidable t.IsBracket :=
  inferInstanceAs (Decidable (∃ _, _ ∨ _))

/-- A token of another kind is no bracket. -/
theorem Token.not_isBracket {t : Token} {kind : TokenKind} (ht : t.kind = kind)
    (hkind : ∀ b, kind ≠ .opening b ∧ kind ≠ .closing b) : ¬ t.IsBracket := by
  rintro ⟨b, hb | hb⟩
  · exact (hkind b).1 (ht.symm.trans hb)
  · exact (hkind b).2 (ht.symm.trans hb)

/-- A token opens a group, closes one, or does neither. -/
theorem Token.bracket_cases (t : Token) :
    (∃ b, t.kind = .opening b) ∨ (∃ b, t.kind = .closing b) ∨ ¬ t.IsBracket := by
  by_cases hopen : ∃ b, t.kind = .opening b
  · exact Or.inl hopen
  by_cases hclose : ∃ b, t.kind = .closing b
  · exact Or.inr (Or.inl hclose)
  refine Or.inr (Or.inr ?_)
  rintro ⟨b, h | h⟩
  · exact hopen ⟨b, h⟩
  · exact hclose ⟨b, h⟩

/-- The number of brackets open after a token. -/
def Token.depthAfter (t : Token) (depth : Nat) : Nat :=
  match t.kind with
  | .opening _ => depth + 1
  | .closing _ => depth - 1
  | _ => depth

theorem Token.depthAfter_plain {t : Token} {depth : Nat} (ht : ¬ t.IsBracket) :
    t.depthAfter depth = depth := by
  rw [depthAfter]
  split
  · rename_i c hc
    exact absurd ⟨c, Or.inl hc⟩ ht
  · rename_i c hc
    exact absurd ⟨c, Or.inr hc⟩ ht
  · rfl

/-- The tokens after an opening bracket at the front. -/
theorem afterOpening?_eq_some {b : Bracket} {ts inside : List Token} :
    afterOpening? b ts = some inside ↔ ∃ t, t.kind = .opening b ∧ ts = t :: inside := by
  cases ts with
  | nil => simp [afterOpening?]
  | cons t ts =>
    rw [afterOpening?]
    constructor
    · intro h
      split at h
      · rename_i ht
        exact ⟨t, ht, by rw [Option.some.inj h]⟩
      · cases h
    · rintro ⟨u, hu, heq⟩
      obtain ⟨rfl, rfl⟩ := List.cons.inj heq
      rw [if_pos hu]

theorem afterOpening?_append {b : Bracket} {ts : List Token} (tail : List Token) (h : ts ≠ []) :
    afterOpening? b (ts ++ tail) = (afterOpening? b ts).map (· ++ tail) := by
  obtain ⟨t, rest, rfl⟩ := List.exists_cons_of_ne_nil h
  rw [List.cons_append, afterOpening?, afterOpening?]
  split <;> rfl

namespace Reading

variable {r : Reading} {b : Bracket} {outer : List Bracket} {t : Token}
  {ts inside rest tail : List Token}

/-! ### Groups -/

theorem map_consInside {x : Except SyntaxError (List Token × List Token)} :
    x.map (consInside t) = .ok (inside, rest) ↔
      ∃ inside', x = .ok (inside', rest) ∧ inside = t :: inside' := by
  cases x with
  | error e => simp [Except.map]
  | ok parts =>
    obtain ⟨inside', rest'⟩ := parts
    simp only [Except.map, consInside, Except.ok.injEq, Prod.mk.injEq]
    constructor
    · rintro ⟨rfl, rfl⟩
      exact ⟨inside', ⟨rfl, rfl⟩, rfl⟩
    · rintro ⟨_, ⟨rfl, rfl⟩, rfl⟩
      exact ⟨rfl, rfl⟩

theorem closeGroup_opening {c : Bracket} (ht : t.kind = .opening c) :
    r.closeGroup b outer (t :: ts) = (r.closeGroup c (b :: outer) ts).map (consInside t) := by
  simp only [closeGroup, ht]

theorem closeGroup_plain (ht : ¬ t.IsBracket) :
    r.closeGroup b outer (t :: ts) = (r.closeGroup b outer ts).map (consInside t) := by
  conv => lhs; unfold closeGroup
  split
  · rename_i c hc
    exact absurd ⟨c, Or.inl hc⟩ ht
  · rename_i c hc
    exact absurd ⟨c, Or.inr hc⟩ ht
  · rfl

/-- **What a reader of groups does with the token at the front**, if all goes well: it is the
bracket that closes the outermost group; or it is inside, and the reader goes on with one group
more, one group less, or the same groups. -/
theorem closeGroup_cons (h : r.closeGroup b outer (t :: ts) = .ok (inside, rest)) :
    (t.kind = .closing b ∧ outer = [] ∧ inside = [] ∧ rest = ts) ∨
      ∃ inside', inside = t :: inside' ∧
        ((∃ c, t.kind = .opening c ∧ r.closeGroup c (b :: outer) ts = .ok (inside', rest)) ∨
          (∃ next others, t.kind = .closing b ∧ outer = next :: others ∧
            r.closeGroup next others ts = .ok (inside', rest)) ∨
          (¬ t.IsBracket ∧ r.closeGroup b outer ts = .ok (inside', rest))) := by
  rcases t.bracket_cases with ⟨c, hc⟩ | ⟨c, hc⟩ | hplain
  · rw [closeGroup_opening hc, map_consInside] at h
    obtain ⟨inside', hnext, rfl⟩ := h
    exact Or.inr ⟨inside', rfl, Or.inl ⟨c, hc, hnext⟩⟩
  · simp only [closeGroup, hc] at h
    split at h
    · rename_i heq
      subst heq
      cases outer with
      | nil =>
        simp only [Except.ok.injEq, Prod.mk.injEq] at h
        exact Or.inl ⟨hc, rfl, h.1.symm, h.2.symm⟩
      | cons next others =>
        obtain ⟨inside', hnext, rfl⟩ := map_consInside.1 h
        exact Or.inr ⟨inside', rfl, Or.inr (Or.inl ⟨next, others, hc, rfl, hnext⟩)⟩
    · cases h
  · rw [closeGroup_plain hplain, map_consInside] at h
    obtain ⟨inside', hnext, rfl⟩ := h
    exact Or.inr ⟨inside', rfl, Or.inr (Or.inr ⟨hplain, hnext⟩)⟩

/-- The bracket that closes the last open group. -/
theorem closeGroup_closing_last (ht : t.kind = .closing b) :
    r.closeGroup b [] (t :: ts) = .ok ([], ts) := by
  simp only [closeGroup, ht, if_true]

/-- The bracket that closes another group. -/
theorem closeGroup_closing {next : Bracket} {others : List Bracket} (ht : t.kind = .closing b) :
    r.closeGroup b (next :: others) (t :: ts) =
      (r.closeGroup next others ts).map (consInside t) := by
  simp only [closeGroup, ht, if_true]

theorem closeGroup_split (h : r.closeGroup b outer ts = .ok (inside, rest)) :
    ∃ t, t.kind = .closing ((b :: outer).getLast (List.cons_ne_nil _ _)) ∧
      ts = inside ++ t :: rest := by
  induction ts generalizing b outer inside with
  | nil => simp [closeGroup] at h
  | cons t ts ih =>
    rcases closeGroup_cons h with ⟨ht, rfl, rfl, rfl⟩ |
      ⟨inside', rfl, ⟨c, -, hnext⟩ | ⟨next, others, -, rfl, hnext⟩ | ⟨-, hnext⟩⟩
    · exact ⟨t, ht, rfl⟩
    · obtain ⟨u, hu, rfl⟩ := ih hnext
      exact ⟨u, by rwa [List.getLast_cons_cons] at hu, rfl⟩
    · obtain ⟨u, hu, rfl⟩ := ih hnext
      exact ⟨u, by rwa [List.getLast_cons_cons], rfl⟩
    · obtain ⟨u, hu, rfl⟩ := ih hnext
      exact ⟨u, hu, rfl⟩

/-- **A group is cut out of its tokens.** -/
theorem group_split (h : r.group b ts = .ok (inside, rest)) :
    ∃ t, t.kind = .closing b ∧ ts = inside ++ t :: rest :=
  closeGroup_split h

theorem closeGroup_append (h : r.closeGroup b outer ts = .ok (inside, rest)) :
    r.closeGroup b outer (ts ++ tail) = .ok (inside, rest ++ tail) := by
  induction ts generalizing b outer inside with
  | nil => simp [closeGroup] at h
  | cons t ts ih =>
    rw [List.cons_append]
    rcases closeGroup_cons h with ⟨ht, rfl, rfl, rfl⟩ |
      ⟨inside', rfl, ⟨c, ht, hnext⟩ | ⟨next, others, ht, rfl, hnext⟩ | ⟨ht, hnext⟩⟩
    · exact closeGroup_closing_last ht
    · rw [closeGroup_opening ht, ih hnext]
      rfl
    · rw [closeGroup_closing ht, ih hnext]
      rfl
    · rw [closeGroup_plain ht, ih hnext]
      rfl

/-- More tokens after a group change nothing. -/
theorem group_append (h : r.group b ts = .ok (inside, rest)) :
    r.group b (ts ++ tail) = .ok (inside, rest ++ tail) :=
  closeGroup_append h

theorem closeGroup_of_append (h : r.closeGroup b outer (ts ++ tail) = .ok (inside, rest))
    (hrest : tail.length ≤ rest.length) :
    ∃ rest', rest = rest' ++ tail ∧ r.closeGroup b outer ts = .ok (inside, rest') := by
  induction ts generalizing b outer inside with
  | nil =>
    have hlt := r.closeGroup_length h
    rw [List.nil_append] at hlt
    omega
  | cons t ts ih =>
    rw [List.cons_append] at h
    rcases closeGroup_cons h with ⟨ht, rfl, rfl, rfl⟩ |
      ⟨inside', rfl, ⟨c, ht, hnext⟩ | ⟨next, others, ht, rfl, hnext⟩ | ⟨ht, hnext⟩⟩
    · exact ⟨ts, rfl, closeGroup_closing_last ht⟩
    · obtain ⟨rest', hrest', hshort⟩ := ih hnext
      exact ⟨rest', hrest', by rw [closeGroup_opening ht, hshort]; rfl⟩
    · obtain ⟨rest', hrest', hshort⟩ := ih hnext
      exact ⟨rest', hrest', by rw [closeGroup_closing ht, hshort]; rfl⟩
    · obtain ⟨rest', hrest', hshort⟩ := ih hnext
      exact ⟨rest', hrest', by rw [closeGroup_plain ht, hshort]; rfl⟩

/-- A group that ends before the last tokens is a group without them. -/
theorem group_of_append (h : r.group b (ts ++ tail) = .ok (inside, rest))
    (hrest : tail.length ≤ rest.length) :
    ∃ rest', rest = rest' ++ tail ∧ r.group b ts = .ok (inside, rest') :=
  closeGroup_of_append h hrest

/-! ### Separators outside groups -/

theorem spanTop_stop {stop : TokenKind} (ht : t.kind = stop) :
    spanTop stop 0 (t :: ts) = ([], t :: ts) := by
  rw [spanTop, if_pos ⟨rfl, ht⟩]

theorem spanTop_pass {stop : TokenKind} {depth : Nat} (h : ¬ (depth = 0 ∧ t.kind = stop)) :
    (spanTop stop depth (t :: ts)).2 = (spanTop stop (t.depthAfter depth) ts).2 := by
  rw [spanTop, if_neg h]
  rfl

theorem spanTop_snd_eq_cons {stop : TokenKind} {depth : Nat}
    (h : (spanTop stop depth ts).2 = t :: rest) : t.kind = stop := by
  induction ts generalizing depth with
  | nil => cases h
  | cons u ts ih =>
    by_cases hstop : depth = 0 ∧ u.kind = stop
    · obtain ⟨rfl, hu⟩ := hstop
      rw [spanTop_stop hu] at h
      obtain ⟨rfl, -⟩ := List.cons.inj h
      exact hu
    · rw [spanTop_pass hstop] at h
      exact ih h

/-- Where the search for a separator ends before the end, there is one. -/
theorem spanTop_eq_cons {stop : TokenKind} {depth : Nat} {before : List Token}
    (h : spanTop stop depth ts = (before, t :: rest)) :
    ts = before ++ t :: rest ∧ t.kind = stop :=
  ⟨by simpa only [h] using (spanTop_append stop depth ts).symm,
    spanTop_snd_eq_cons (congrArg Prod.snd h)⟩

theorem spanTop_closeGroup {stop : TokenKind}
    (h : r.closeGroup b outer ts = .ok (inside, rest)) :
    (spanTop stop (outer.length + 1) ts).2 = (spanTop stop 0 rest).2 := by
  induction ts generalizing b outer inside with
  | nil => simp [closeGroup] at h
  | cons t ts ih =>
    rw [spanTop_pass (by omega)]
    rcases closeGroup_cons h with ⟨ht, rfl, rfl, rfl⟩ |
      ⟨inside', rfl, ⟨c, ht, hnext⟩ | ⟨next, others, ht, rfl, hnext⟩ | ⟨ht, hnext⟩⟩
    · simp only [Token.depthAfter, ht]
      rfl
    · simp only [Token.depthAfter, ht]
      exact ih hnext
    · simp only [Token.depthAfter, ht]
      exact ih hnext
    · rw [Token.depthAfter_plain ht]
      exact ih hnext

/-- **A separator is looked for after a group**, not in it. -/
theorem spanTop_group {stop : TokenKind} (ht : t.kind = .opening b) (hstop : t.kind ≠ stop)
    (h : r.group b ts = .ok (inside, rest)) :
    (spanTop stop 0 (t :: ts)).2 = (spanTop stop 0 rest).2 := by
  rw [spanTop_pass fun hat => hstop hat.2]
  simp only [Token.depthAfter, ht]
  exact spanTop_closeGroup h

/-! ### Types and signatures -/

/-- What the reader of types and that of signatures read. -/
inductive Phrase where
  | type
  | signature
deriving DecidableEq, Repr

/-- The tokens after a type or a signature. -/
def skip (r : Reading) : Phrase → List Token → Except SyntaxError (List Token)
  | .type => r.skipType
  | .signature => r.skipSignature

end Reading

/-- A type ends before the token. -/
def Token.EndsType (t : Token) : Prop :=
  t.kind = .opening .brace ∨ t.kind = .semicolon ∨ t.kind = .comma ∨ ∃ b, t.kind = .closing b

/-- A brace after the token belongs to a type. -/
def Token.HasFields (t : Token) : Prop :=
  t.kind = .keyword .structKw ∨ t.kind = .keyword .interfaceKw

namespace Reading

/-- The tokens that follow a type, and those that follow a signature: a type goes on over groups and
all other tokens up to one that ends it; a signature is parameters, and then results in parentheses
or a type. -/
inductive Skips (r : Reading) : Phrase → List Token → List Token → Prop
  | done : Skips r .type [] []
  | stop {t : Token} {ts : List Token} : t.EndsType → Skips r .type (t :: ts) (t :: ts)
  | func {t : Token} {ts rest : List Token} :
      t.kind = .keyword .funcKw → Skips r .signature ts rest → Skips r .type (t :: ts) rest
  | fields {t : Token} {ts inside body after rest : List Token} :
      t.HasFields → afterOpening? .brace ts = some inside →
      r.group .brace inside = .ok (body, after) → Skips r .type after rest →
      Skips r .type (t :: ts) rest
  | group {t : Token} {b : Bracket} {ts body after rest : List Token} :
      t.kind = .opening b → b ≠ .brace → r.group b ts = .ok (body, after) →
      Skips r .type after rest → Skips r .type (t :: ts) rest
  | token {t : Token} {ts rest : List Token} :
      ¬ t.EndsType → ¬ t.IsBracket → t.kind ≠ .keyword .funcKw →
      (t.HasFields → afterOpening? .brace ts = none) → Skips r .type ts rest →
      Skips r .type (t :: ts) rest
  | type {ts rest : List Token} :
      afterOpening? .paren ts = none → Skips r .type ts rest → Skips r .signature ts rest
  | params {ts inside body after rest : List Token} :
      afterOpening? .paren ts = some inside → r.group .paren inside = .ok (body, after) →
      afterOpening? .paren after = none → Skips r .type after rest → Skips r .signature ts rest
  | results {ts inside body after inside' body' rest : List Token} :
      afterOpening? .paren ts = some inside → r.group .paren inside = .ok (body, after) →
      afterOpening? .paren after = some inside' → r.group .paren inside' = .ok (body', rest) →
      Skips r .signature ts rest

variable {r : Reading} {phrase : Phrase} {t : Token} {ts rest tail : List Token}

theorem skipType_stop (ht : t.EndsType) : r.skipType (t :: ts) = .ok (t :: ts) := by
  rcases ht with ht | ht | ht | ⟨b, ht⟩ <;> simp only [skipType, ht]

theorem skipType_func (ht : t.kind = .keyword .funcKw) :
    r.skipType (t :: ts) = r.skipSignature ts := by
  simp only [skipType, ht]

theorem skipType_fields (ht : t.HasFields) : r.skipType (t :: ts) =
    match afterOpening? .brace ts with
    | none => r.skipType ts
    | some inside => r.group .brace inside >>= fun parts => r.skipType parts.2 := by
  rcases ht with ht | ht
  all_goals
    simp only [skipType, ht]
    split
    · rename_i hopen
      simp only [hopen]
    · rename_i inside hopen
      simp only [hopen]
      split <;> rename_i hgroup <;> simp only [hgroup] <;> rfl

theorem skipType_group {b : Bracket} (ht : t.kind = .opening b) (hb : b ≠ .brace) :
    r.skipType (t :: ts) = r.group b ts >>= fun parts => r.skipType parts.2 := by
  cases b with
  | brace => exact absurd rfl hb
  | paren | square =>
    simp only [skipType, ht]
    split <;> rename_i hgroup <;> rw [hgroup] <;> rfl

theorem skipType_token (hstop : ¬ t.EndsType) (hbracket : ¬ t.IsBracket)
    (hfunc : t.kind ≠ .keyword .funcKw) (hfields : ¬ t.HasFields) :
    r.skipType (t :: ts) = r.skipType ts := by
  conv => lhs; rw [skipType]
  split
  · rename_i ht
    exact absurd (Or.inl ht) hstop
  · rename_i ht
    exact absurd (Or.inr (Or.inl ht)) hstop
  · rename_i ht
    exact absurd (Or.inr (Or.inr (Or.inl ht))) hstop
  · rename_i b ht
    exact absurd (Or.inr (Or.inr (Or.inr ⟨b, ht⟩))) hstop
  · rename_i ht
    exact absurd (Or.inl ht) hfields
  · rename_i ht
    exact absurd (Or.inr ht) hfields
  · rename_i ht
    exact absurd ht hfunc
  · rename_i b _ ht
    exact absurd ⟨b, Or.inl ht⟩ hbracket
  · rfl

theorem skipSignature_eq : r.skipSignature ts =
    match afterOpening? .paren ts with
    | none => r.skipType ts
    | some inside => r.group .paren inside >>= fun parts =>
      match afterOpening? .paren parts.2 with
      | none => r.skipType parts.2
      | some results => (r.group .paren results).map Prod.snd := by
  rw [skipSignature]
  split
  · rename_i hopen
    simp only [hopen]
  · rename_i inside hopen
    simp only [hopen]
    split <;> rename_i hgroup <;> simp only [hgroup] <;> rfl

/-- **What the readers of types and signatures pass over.** -/
theorem skips_of_skip (h : r.skip phrase ts = .ok rest) : r.Skips phrase ts rest := by
  induction hlength : ts.length using Nat.strongRecOn generalizing phrase ts rest with
  | ind n ih =>
    subst hlength
    have type {rest : List Token} (h : r.skipType ts = .ok rest) : r.Skips .type ts rest := by
      cases ts with
      | nil =>
        rw [skipType] at h
        obtain rfl := Except.ok.inj h
        exact .done
      | cons t ts =>
        have shorter {phrase : Phrase} {after rest : List Token} (hafter : after.length ≤ ts.length)
            (h : r.skip phrase after = .ok rest) : r.Skips phrase after rest :=
          ih _ (Nat.lt_succ_of_le hafter) h rfl
        by_cases hstop : t.EndsType
        · rw [skipType_stop hstop] at h
          obtain rfl := Except.ok.inj h
          exact .stop hstop
        by_cases hfunc : t.kind = .keyword .funcKw
        · rw [skipType_func hfunc] at h
          exact .func hfunc (shorter (Nat.le_refl _) h)
        by_cases hbracket : t.IsBracket
        · obtain ⟨b, ht | ht⟩ := hbracket
          · have hb : b ≠ .brace := fun heq => hstop (Or.inl (heq ▸ ht))
            rw [skipType_group ht hb] at h
            obtain ⟨⟨body, after⟩, hgroup, h⟩ := bind_eq_ok.1 h
            have hlt := r.group_length hgroup
            exact .group ht hb hgroup (shorter (by omega) h)
          · exact absurd (Or.inr (Or.inr (Or.inr ⟨b, ht⟩))) hstop
        by_cases hfields : t.HasFields
        · rw [skipType_fields hfields] at h
          split at h
          · rename_i hopen
            exact .token hstop hbracket hfunc (fun _ => hopen)
              (shorter (Nat.le_refl _) h)
          · rename_i inside hopen
            obtain ⟨⟨body, after⟩, hgroup, h⟩ := bind_eq_ok.1 h
            have hinside := afterOpening?_length hopen
            have hlt := r.group_length hgroup
            exact .fields hfields hopen hgroup (shorter (by omega) h)
        · rw [skipType_token hstop hbracket hfunc hfields] at h
          exact .token hstop hbracket hfunc (fun ht => absurd ht hfields)
            (shorter (Nat.le_refl _) h)
    cases phrase with
    | type => exact type h
    | signature =>
      have h : r.skipSignature ts = .ok rest := h
      rw [skipSignature_eq] at h
      split at h
      · rename_i hparams
        exact .type hparams (type h)
      · rename_i inside hparams
        obtain ⟨⟨body, after⟩, hgroup, h⟩ := bind_eq_ok.1 h
        have hinside := afterOpening?_length hparams
        have hlt := r.group_length hgroup
        split at h
        · rename_i hresults
          exact .params hparams hgroup hresults (ih _ (by omega) h rfl)
        · rename_i inside' hresults
          cases hgroup' : r.group .paren inside' with
          | error e =>
            rw [hgroup'] at h
            cases h
          | ok parts =>
            rw [hgroup'] at h
            obtain rfl := Except.ok.inj h
            exact .results hparams hgroup hresults hgroup'

theorem skip_of_skips (h : r.Skips phrase ts rest) : r.skip phrase ts = .ok rest := by
  induction h with
  | done => exact skipType.eq_1 r
  | stop ht => exact skipType_stop ht
  | func ht _ ih => exact (skipType_func ht).trans ih
  | fields ht hopen hgroup _ ih =>
    refine (skipType_fields ht).trans ?_
    rw [hopen]
    exact bind_eq_ok.2 ⟨_, hgroup, ih⟩
  | group ht hb hgroup _ ih =>
    exact (skipType_group ht hb).trans (bind_eq_ok.2 ⟨_, hgroup, ih⟩)
  | @token t ts rest hstop hbracket hfunc hopen _ ih =>
    by_cases hfields : t.HasFields
    · refine (skipType_fields hfields).trans ?_
      rw [hopen hfields]
      exact ih
    · exact (skipType_token hstop hbracket hfunc hfields).trans ih
  | type hparams _ ih =>
    refine skipSignature_eq.trans ?_
    rw [hparams]
    exact ih
  | params hparams hgroup hresults _ ih =>
    refine skipSignature_eq.trans ?_
    rw [hparams]
    refine bind_eq_ok.2 ⟨_, hgroup, ?_⟩
    simp only [hresults]
    exact ih
  | results hparams hgroup hresults hgroup' =>
    refine skipSignature_eq.trans ?_
    rw [hparams]
    refine bind_eq_ok.2 ⟨_, hgroup, ?_⟩
    simp only [hresults, hgroup']
    rfl

/-- What follows is the end of the tokens. -/
theorem Skips.suffix (h : r.Skips phrase ts rest) : rest <:+ ts := by
  have inside {b : Bracket} {ts inside body after : List Token}
      (hopen : afterOpening? b ts = some inside) (hgroup : r.group b inside = .ok (body, after)) :
      after <:+ ts := by
    obtain ⟨t, -, rfl⟩ := afterOpening?_eq_some.1 hopen
    obtain ⟨c, -, rfl⟩ := group_split hgroup
    exact ⟨t :: body ++ [c], by simp⟩
  induction h with
  | done => exact List.suffix_refl _
  | stop _ => exact List.suffix_refl _
  | func _ _ ih => exact ih.trans (List.suffix_cons _ _)
  | fields _ hopen hgroup _ ih =>
    exact (ih.trans (inside hopen hgroup)).trans (List.suffix_cons _ _)
  | @group t b ts body after rest _ _ hgroup _ ih =>
    obtain ⟨c, -, rfl⟩ := group_split hgroup
    exact ih.trans ⟨t :: body ++ [c], by simp⟩
  | token _ _ _ _ _ ih => exact ih.trans (List.suffix_cons _ _)
  | type _ _ ih => exact ih
  | params hparams hgroup _ _ ih => exact ih.trans (inside hparams hgroup)
  | results hparams hgroup hresults hgroup' =>
    exact (inside hresults hgroup').trans (inside hparams hgroup)

/-- A group at the front that ends before the last tokens is one without them. -/
theorem opened_of_append {b : Bracket} {inside body after : List Token}
    (hopen : afterOpening? b (ts ++ tail) = some inside)
    (hgroup : r.group b inside = .ok (body, after)) (hafter : tail.length ≤ after.length) :
    ∃ inside' after', afterOpening? b ts = some inside' ∧
      r.group b inside' = .ok (body, after') ∧ after = after' ++ tail := by
  have hinside := afterOpening?_length hopen
  have hlt := r.group_length hgroup
  have hts : ts ≠ [] := by
    rintro rfl
    rw [List.nil_append] at hinside
    omega
  rw [afterOpening?_append tail hts, Option.map_eq_some_iff] at hopen
  obtain ⟨inside', hopen, rfl⟩ := hopen
  obtain ⟨after', rfl, hcut⟩ := group_of_append hgroup hafter
  exact ⟨inside', after', hopen, hcut, rfl⟩

theorem afterOpening?_of_append {b : Bracket} (h : afterOpening? b (ts ++ tail) = none) :
    afterOpening? b ts = none := by
  by_cases hts : ts = []
  · rw [hts]
    rfl
  · rwa [afterOpening?_append tail hts, Option.map_eq_none_iff] at h

theorem Skips.length_le (h : r.Skips phrase ts rest) : rest.length ≤ ts.length :=
  h.suffix.length_le

/-- **A type or a signature that ends before the last tokens is one without them.** -/
theorem Skips.of_append {all rest : List Token} (h : r.Skips phrase all rest) :
    ∀ {ts : List Token}, all = ts ++ tail → tail.length < rest.length →
      ∃ rest', rest = rest' ++ tail ∧ r.Skips phrase ts rest' := by
  -- The tail is shorter than what is left, so the token at the front is not of the tail.
  have front {t : Token} {all ts : List Token} (heq : t :: all = ts ++ tail)
      (hlt : tail.length < (t :: all).length) : ∃ ts', ts = t :: ts' ∧ all = ts' ++ tail := by
    cases ts with
    | nil =>
      rw [heq, List.nil_append] at hlt
      omega
    | cons u ts' =>
      obtain ⟨rfl, rfl⟩ := List.cons.inj heq
      exact ⟨ts', rfl, rfl⟩
  induction h with
  | done =>
    intro ts _ hlt
    simp at hlt
  | stop ht =>
    intro ts heq hlt
    obtain ⟨ts, rfl, rfl⟩ := front heq hlt
    exact ⟨_, rfl, .stop ht⟩
  | func ht hskips ih =>
    intro ts heq hlt
    have hle := hskips.length_le
    obtain ⟨ts, rfl, rfl⟩ := front heq (by rw [List.length_cons]; omega)
    obtain ⟨rest', rfl, hshort⟩ := ih rfl hlt
    exact ⟨rest', rfl, .func ht hshort⟩
  | fields ht hopen hgroup hskips ih =>
    intro ts heq hlt
    have hle := hskips.length_le
    have hinside := afterOpening?_length hopen
    have hgt := r.group_length hgroup
    obtain ⟨ts, rfl, rfl⟩ := front heq (by rw [List.length_cons]; omega)
    obtain ⟨inside', after', hopen', hcut, rfl⟩ := opened_of_append hopen hgroup (by omega)
    obtain ⟨rest', rfl, hshort⟩ := ih rfl hlt
    exact ⟨rest', rfl, .fields ht hopen' hcut hshort⟩
  | group ht hb hgroup hskips ih =>
    intro ts heq hlt
    have hle := hskips.length_le
    have hgt := r.group_length hgroup
    obtain ⟨ts, rfl, rfl⟩ := front heq (by rw [List.length_cons]; omega)
    obtain ⟨after', rfl, hcut⟩ := group_of_append hgroup (by omega)
    obtain ⟨rest', rfl, hshort⟩ := ih rfl hlt
    exact ⟨rest', rfl, .group ht hb hcut hshort⟩
  | token hstop hbracket hfunc hopen hskips ih =>
    intro ts heq hlt
    have hle := hskips.length_le
    obtain ⟨ts, rfl, rfl⟩ := front heq (by rw [List.length_cons]; omega)
    obtain ⟨rest', rfl, hshort⟩ := ih rfl hlt
    exact ⟨rest', rfl, .token hstop hbracket hfunc
      (fun ht => afterOpening?_of_append (hopen ht)) hshort⟩
  | type hparams _ ih =>
    rintro ts rfl hlt
    obtain ⟨rest', rfl, hshort⟩ := ih rfl hlt
    exact ⟨rest', rfl, .type (afterOpening?_of_append hparams) hshort⟩
  | params hparams hgroup hresults hskips ih =>
    rintro ts rfl hlt
    have hle := hskips.length_le
    obtain ⟨inside', after', hparams', hcut, rfl⟩ := opened_of_append hparams hgroup (by omega)
    obtain ⟨rest', rfl, hshort⟩ := ih rfl hlt
    exact ⟨rest', rfl, .params hparams' hcut (afterOpening?_of_append hresults) hshort⟩
  | results hparams hgroup hresults hgroup' =>
    rintro ts rfl hlt
    have hinside := afterOpening?_length hresults
    have hgt := r.group_length hgroup'
    obtain ⟨inside', after', hparams', hcut, rfl⟩ := opened_of_append hparams hgroup (by omega)
    obtain ⟨results', rest', hresults', hcut', rfl⟩ :=
      opened_of_append hresults hgroup' (Nat.le_of_lt hlt)
    exact ⟨rest', rfl, .results hparams' hcut hresults' hcut'⟩

end Reading

end BuildOrder
