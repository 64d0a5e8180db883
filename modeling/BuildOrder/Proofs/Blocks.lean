import BuildOrder.Proofs.Prefixed

/-!
# The blocks of statements

* `Reading.HeaderText`: the text of a header, token by token and group by group.
* `HeaderText.comes`: **a scan goes through the text of a header**, and is as far in headers and
  brackets as it was before.
* `Reading.comes_block`: **after the header a scan is in the block**, whose brace is that of no
  literal.
* `Reading.mem_step`, `Reading.comes_or_swallowed`: **a scan comes to each statement**, unless a
  signature reaches past its keyword.
* `SourceFile.block_brace`: **the brace that opens the block of a statement is that of no
  literal**, if the header has no braces outside brackets, or does not end with a name;
  `SourceFile.exists_reported_block`: otherwise it can be, and is reported.
-/

namespace BuildOrder

namespace Reading

variable {r : Reading} {s : LiteralScan} {c d : Spot} {b : Bracket} {braces within : Bool}
  {t kw : Token} {ts inside body after rest code : List Token}

/-! ### Headers -/

/-- The text of a header goes from some tokens on to others: tokens, groups in brackets, signatures
and function literals. The flag says whether a group in braces may be outside the brackets, and
outside function literals no other header starts. -/
inductive HeaderText (r : Reading) : Bool → List Token → List Token → Prop
  | done {braces : Bool} {ts : List Token} : HeaderText r braces ts ts
  | token {braces : Bool} {t : Token} {ts rest : List Token} :
      ¬ t.IsBracket → ¬ t.OpensHeader → t.kind ≠ .keyword .funcKw → HeaderText r braces ts rest →
      HeaderText r braces (t :: ts) rest
  | group {braces : Bool} {t last : Token} {b : Bracket} {ts body after rest : List Token} :
      t.kind = .opening b → (b = .brace → braces = true) → r.group b ts = .ok (body, after) →
      HeaderText r true ts (last :: after) → last.kind = .closing b →
      HeaderText r braces after rest → HeaderText r braces (t :: ts) rest
  | signature {braces : Bool} {t : Token} {ts after rest : List Token} :
      t.kind = .keyword .funcKw → r.Skips .signature ts after →
      afterOpening? .brace after = none → HeaderText r braces after rest →
      HeaderText r braces (t :: ts) rest
  | function {braces : Bool} {t : Token} {ts after inside body last rest : List Token} :
      t.kind = .keyword .funcKw → r.Skips .signature ts after →
      afterOpening? .brace after = some inside → r.group .brace inside = .ok (body, last) →
      HeaderText r braces last rest → HeaderText r braces (t :: ts) rest

/-- What follows a header is a bracket. The block of a statement does not follow a name, where
braces may be outside the brackets of the header. -/
structure Ends (braces : Bool) (ts rest : List Token) : Prop where
  bracket : ∀ t ∈ rest.head?, t.IsBracket
  name : braces = true → ∀ brace ∈ rest.head?, brace.kind = .opening .brace →
    ∀ t, t :: rest <:+ ts → t.kind ≠ .identifier

theorem Ends.of_suffix (h : Ends braces ts rest) (hsuffix : after <:+ ts) :
    Ends braces after rest :=
  ⟨h.bracket, fun hbraces brace hbrace hkind t ht =>
    h.name hbraces brace hbrace hkind t (ht.trans hsuffix)⟩

/-- Before the bracket that closes a group. -/
theorem Ends.closing {last : Token} (hlast : last.kind = .closing b) :
    Ends braces ts (last :: after) := by
  constructor
  · rintro t ⟨⟩
    exact ⟨b, Or.inr hlast⟩
  · rintro - t ⟨⟩ hbrace
    cases hlast.symm.trans hbrace

/-- A token at the front is of the header, if it is no bracket. -/
theorem HeaderText.of_token (h : HeaderText r braces (t :: ts) rest)
    (hrest : ∀ u ∈ rest.head?, u.IsBracket) (ht : ¬ t.IsBracket)
    (hfunc : t.kind ≠ .keyword .funcKw) : HeaderText r braces ts rest := by
  cases h with
  | done => exact absurd (hrest t rfl) ht
  | token _ _ _ hnext => exact hnext
  | group hkind _ _ _ _ _ => exact absurd ⟨_, Or.inl hkind⟩ ht
  | signature hkind _ _ _ => exact absurd hkind hfunc
  | function hkind _ _ _ _ => exact absurd hkind hfunc

/-- A brace at the front opens a group of the header, if it is not what follows the header. -/
theorem HeaderText.of_brace {brace : Token} (h : HeaderText r braces (brace :: inside) rest)
    (hne : rest ≠ brace :: inside) (hbrace : brace.kind = .opening .brace) :
    ∃ body after, r.group .brace inside = .ok (body, after) ∧ HeaderText r braces after rest := by
  cases h with
  | done => exact absurd rfl hne
  | token hplain _ _ _ => exact absurd ⟨_, Or.inl hbrace⟩ hplain
  | group hkind _ hgroup _ _ hafter =>
    cases hkind.symm.trans hbrace
    exact ⟨_, _, hgroup, hafter⟩
  | signature hkind _ _ _ => cases hkind.symm.trans hbrace
  | function hkind _ _ _ _ => cases hkind.symm.trans hbrace

/-- A literal in the text of a header ends there: its brace is not the one after the header, which
follows no name. -/
theorem HeaderText.literal {type : LiteralType} (h : HeaderText r true ts rest)
    (hends : Ends true (t :: ts) rest) (ht : t.kind = .identifier)
    (hsome : s.literalAt? t ts = some (type, inside)) :
    ∃ body after, r.group .brace inside = .ok (body, after) ∧ after <:+ ts ∧
      HeaderText r true after rest := by
  have inner {u brace : Token} (hu : u.kind = .identifier) (hbrace : brace.kind = .opening .brace)
      (hsuffix : u :: brace :: inside <:+ t :: ts)
      (hnext : HeaderText r true (brace :: inside) rest) :
      ∃ body after, r.group .brace inside = .ok (body, after) ∧ after <:+ inside ∧
        HeaderText r true after rest := by
    have hne : rest ≠ brace :: inside := by
      rintro rfl
      exact hends.name rfl brace rfl hbrace u hsuffix hu
    obtain ⟨body, after, hgroup, hafter⟩ := hnext.of_brace hne hbrace
    exact ⟨body, after, hgroup, group_suffix hgroup, hafter⟩
  have hinside : inside <:+ ts ∧ ∃ body after, r.group .brace inside = .ok (body, after) ∧
      after <:+ inside ∧ HeaderText r true after rest := by
    rcases (literalAt?_eq_some hsome).2 with ⟨brace, hbrace, rfl, -⟩ |
      ⟨point, name, brace, -, hpoint, hname, hbrace, rfl, -⟩
    · exact ⟨List.suffix_cons _ _, inner ht hbrace (List.suffix_refl _) h⟩
    · have h := h.of_token hends.bracket (Token.not_isBracket hpoint (by simp))
        (by rw [hpoint]; nofun)
      have h := h.of_token hends.bracket (Token.not_isBracket hname (by simp))
        (by rw [hname]; nofun)
      exact ⟨⟨[point, name, brace], rfl⟩, inner hname hbrace ⟨[t, point], rfl⟩ h⟩
  obtain ⟨hsuffix, body, after, hgroup, hafter, hnext⟩ := hinside
  exact ⟨body, after, hgroup, hafter.trans hsuffix, hnext⟩

/-! ### The way through a header -/

/-- Two scans with the same headers and depth are one after the next token. -/
theorem past_eq_past {s s' : LiteralScan} :
    s'.past = s.past ↔ s'.headers = s.headers ∧ s'.depth = s.depth := by
  cases s
  cases s'
  simp [LiteralScan.past]

/-- A scan stands in a header: within brackets in it, or outside them. -/
def InHeaderText (within : Bool) (s : LiteralScan) : Prop :=
  ∃ n, s.headers.head? = some n ∧ if within then n < s.depth else n = s.depth

theorem InHeaderText.congr {s' : LiteralScan} (h : InHeaderText within s)
    (heq : s'.past = s.past) : InHeaderText within s' := by
  obtain ⟨hheaders, hdepth⟩ := past_eq_past.1 heq
  rwa [InHeaderText, hheaders, hdepth]

theorem InHeaderText.inHeader (h : InHeaderText within s) : s.inHeader = !within := by
  obtain ⟨n, hhead, hn⟩ := h
  cases within with
  | true =>
    have hn : n < s.depth := hn
    simp [LiteralScan.inHeader, hhead]
    omega
  | false =>
    have hn : n = s.depth := hn
    simp [LiteralScan.inHeader, hhead, hn]

/-- A group in a header leaves it open. -/
theorem InHeaderText.openGroup (h : InHeaderText within s) (hb : b = .brace → within = true) :
    (s.openGroup b).headers = s.headers ∧ InHeaderText true (s.openGroup b) := by
  have hheaders : (s.openGroup b).headers = s.headers := by
    refine if_neg fun ⟨hbrace, hheader⟩ => ?_
    rw [h.inHeader, hb hbrace] at hheader
    cases hheader
  obtain ⟨n, hhead, hn⟩ := h
  refine ⟨hheaders, n, by rw [hheaders, hhead], ?_⟩
  have hle : n ≤ s.depth := by
    split at hn <;> omega
  exact Nat.lt_succ_of_le hle

/-- **A scan goes through the text of a header.** Neither the headers nor the depth have changed
then, if the scan was in the header, or within brackets in it. -/
theorem HeaderText.comes (h : HeaderText r braces ts rest) (hends : Ends braces ts rest)
    (hs : braces = false → InHeaderText false s) (haccepts : r.Accepts ⟨.code s, ts⟩) :
    ∃ s', (InHeaderText braces s → s'.past = s.past) ∧
      r.Comes ⟨.code s, ts⟩ ⟨.code s', rest⟩ := by
  -- A literal takes a group of the text at once, so the induction is on its length.
  induction hlength : ts.length using Nat.strongRecOn generalizing braces s ts rest with
  | ind n ih =>
    subst hlength
    -- The scan goes on with what is left of the header.
    have goOn {s₁ : LiteralScan} {t : Token} {tail after : List Token} (hts : ts = t :: tail)
        (hcomes : r.Comes ⟨.code s, ts⟩ ⟨.code s₁, after⟩)
        (hs₁ : InHeaderText braces s → s₁.past = s.past) (hsuffix : after <:+ tail)
        (hafter : HeaderText r braces after rest) :
        ∃ s', (InHeaderText braces s → s'.past = s.past) ∧
          r.Comes ⟨.code s, ts⟩ ⟨.code s', rest⟩ := by
      subst hts
      have hs₁' (hbraces : braces = false) : InHeaderText false s₁ := by
        subst hbraces
        exact (hs rfl).congr (hs₁ (hs rfl))
      obtain ⟨s', hs', hcomes'⟩ := ih _ (Nat.lt_succ_of_le hsuffix.length_le) hafter
        (hends.of_suffix (hsuffix.trans (List.suffix_cons _ _))) hs₁' (hcomes.accepts haccepts) rfl
      exact ⟨s', fun hin => (hs' (hin.congr (hs₁ hin))).trans (hs₁ hin), hcomes.trans hcomes'⟩
    cases h with
    | done => exact ⟨s, fun _ => rfl, .refl⟩
    | @token _ t ts _ hplain hheader hfunc hnext =>
      have pass {s₁ : LiteralScan}
          (hstep : r.step ⟨.code s, t :: ts⟩ = { next := [⟨.code s₁, ts⟩] })
          (hs₁ : s₁.past = s.past) :=
        goOn rfl (.one hstep) (fun _ => hs₁) (List.suffix_refl _) hnext
      by_cases hperiod : t.kind = .period
      · exact pass (step_period hperiod) rfl
      by_cases hname : t.kind = .identifier
      · cases hsome : s.literalAt? t ts with
        | none =>
          have hstep : r.step ⟨.code s, t :: ts⟩ = _ := step_name hname
          rw [hsome] at hstep
          exact pass hstep rfl
        | some parts =>
          obtain ⟨type, inside⟩ := parts
          obtain ⟨elements, body, last, hgroup, hstep⟩ := step_literal haccepts hname hsome
          -- Outside brackets there would be no literal in a header.
          obtain rfl : braces = true := by
            cases braces with
            | true => rfl
            | false => cases (literalAt?_eq_some hsome).1.symm.trans (hs rfl).inHeader
          obtain ⟨body', after, hgroup', hsuffix, hafter⟩ := hnext.literal hends hname hsome
          obtain ⟨rfl, rfl⟩ := Prod.mk.inj (Except.ok.inj (hgroup.symm.trans hgroup'))
          exact goOn rfl (.second hstep) (fun _ => rfl) hsuffix hafter
      · exact pass (step_token hplain hheader hfunc hperiod hname) rfl
    | @group _ t last b ts body after _ ht hb hgroup hinside hlast hafter =>
      -- Into the group, through it, and out of it.
      have hin : r.Comes ⟨.code s, t :: ts⟩ ⟨.code (s.openGroup b), ts⟩ :=
        .one (step_opening ht)
      obtain ⟨s₁, hs₁, hthrough⟩ := ih _ (Nat.lt_succ_self _) hinside (.closing hlast) nofun
        (hin.accepts haccepts) rfl
      have hout : r.Comes ⟨.code s₁, last :: after⟩ ⟨.code (s₁.closeGroup b), after⟩ :=
        .one (step_closing hlast)
      refine goOn rfl ((hin.trans hthrough).trans hout) (fun hs => ?_) (group_suffix hgroup) hafter
      obtain ⟨hheaders, hopened⟩ := hs.openGroup hb
      obtain ⟨hheaders₁, hdepth₁⟩ := past_eq_past.1 (hs₁ hopened)
      refine past_eq_past.2 ⟨hheaders₁.trans hheaders, ?_⟩
      rw [LiteralScan.closeGroup, hdepth₁]
      exact Nat.add_sub_cancel _ _
    | signature ht hskips hopen hafter =>
      exact goOn rfl (.one (step_signature ht (skip_of_skips hskips) hopen)) (fun _ => rfl)
        hskips.suffix hafter
    | function ht hskips hopen hgroup hafter =>
      have hsuffix := ((group_suffix hgroup).trans (afterOpening?_suffix hopen)).trans hskips.suffix
      exact goOn rfl (.second (step_function ht (skip_of_skips hskips) hopen hgroup)) (fun _ => rfl)
        hsuffix hafter

/-- **After the header of a statement, a scan is in its block**, and the brace before the block is
that of no literal. -/
theorem comes_block {block : List Token} {brace : Token} (haccepts : r.Accepts c)
    (honce : c.tokens.count brace ≤ 1) (hcomes : r.Comes c ⟨.code s, kw :: ts⟩)
    (hkw : kw.OpensHeader) (hheader : HeaderText r braces ts (brace :: block))
    (hbrace : brace.kind = .opening .brace)
    (hname : braces = true → ∀ t, t :: brace :: block <:+ ts → t.kind ≠ .identifier) :
    (∃ s', r.Comes c ⟨.code s', block⟩ ∧
        (braces = false → s' = { s.past with depth := s.depth + 1 })) ∧
      ∀ site ∈ r.sites c, site.brace ≠ brace := by
  have hopened := hcomes.trans (.one (step_openHeader hkw))
  have hread := hopened.accepts haccepts
  have hin : InHeaderText false s.openHeader := ⟨s.depth, rfl, rfl⟩
  have hends : Ends braces ts (brace :: block) := by
    refine ⟨?_, fun hbraces _ _ _ => hname hbraces⟩
    rintro t ⟨⟩
    exact ⟨.brace, Or.inl hbrace⟩
  obtain ⟨s₁, hs₁, hthrough⟩ := hheader.comes hends (fun _ => hin) hread
  have hbefore := hopened.trans hthrough
  have hstep : r.step ⟨.code s₁, brace :: block⟩ = _ := step_opening hbrace
  refine ⟨⟨_, hbefore.trans (.one hstep), fun hbraces => ?_⟩, fun site hsite heq => ?_⟩
  · subst hbraces
    have hheader : s₁.inHeader = true := (hin.congr (hs₁ hin)).inHeader
    obtain ⟨hheaders, hdepth⟩ := past_eq_past.1 (hs₁ hin)
    rw [LiteralScan.openGroup, if_pos ⟨rfl, hheader⟩, hheaders, hdepth]
    rfl
  · -- Such a literal would be in the block, where the brace is not.
    subst heq
    have hsite := hbefore.mem_sites honce List.mem_cons_self hsite
    rw [sites_eq, hstep] at hsite
    have hblock : site.brace ∈ block := brace_mem (by simpa using hsite)
    have hcount : (site.brace :: block).count site.brace ≤ 1 :=
      Nat.le_trans (hbefore.sublist.count_le site.brace) honce
    rw [List.count_cons_self] at hcount
    have := List.count_pos_iff.2 hblock
    omega

/-! ### Where a scan comes -/

/-- A signature that the reader comes to reaches past the token. -/
def Swallowed (r : Reading) (c : Spot) (t : Token) : Prop :=
  ∃ s u passed after, r.Comes c ⟨.code s, u :: (passed ++ after)⟩ ∧ u.kind = .keyword .funcKw ∧
    r.skipSignature (passed ++ after) = .ok after ∧ t ∈ passed

theorem mem_group (hgroup : r.group b inside = .ok (body, rest)) (ht : t ∈ inside)
    (hplain : ¬ t.IsBracket) : t ∈ body ∨ t ∈ rest := by
  obtain ⟨c, hc, rfl⟩ := group_split hgroup
  rcases List.mem_append.1 ht with ht | ht
  · exact Or.inl ht
  rcases List.mem_cons.1 ht with rfl | ht
  · exact absurd ⟨b, Or.inr hc⟩ hplain
  · exact Or.inr ht

/-- Between the elements of a literal there are separators only. -/
theorem mem_entry (ht : t ∈ ts) (hcomma : t.kind ≠ .comma) (hsemicolon : t.kind ≠ .semicolon) :
    t ∈ trimTerminators (spanTop .comma 0 ts).1 ∨ t ∈ (spanTop .comma 0 ts).2.tail := by
  rw [← spanTop_append .comma 0 ts] at ht
  rcases List.mem_append.1 ht with ht | ht
  · obtain ⟨front, back, hentry, hfront, hback⟩ := exists_trimTerminators (spanTop .comma 0 ts).1
    rw [hentry] at ht
    rcases List.mem_append.1 ht with ht | ht
    · exact absurd (hfront t ht) hsemicolon
    rcases List.mem_append.1 ht with ht | ht
    · exact Or.inl ht
    · exact absurd (hback t ht) hsemicolon
  · cases hrest : (spanTop .comma 0 ts).2 with
    | nil =>
      rw [hrest] at ht
      cases ht
    | cons comma others =>
      rw [hrest] at ht
      rcases List.mem_cons.1 ht with rfl | ht
      · exact absurd (spanTop_snd_eq_cons hrest) hcomma
      · exact Or.inr ht

/-- **The start of a header is where the reader is, or in what it reads next**, or in a
signature. -/
theorem mem_step (haccepts : r.Accepts c) (ht : t ∈ c.tokens) (hkw : t.OpensHeader) :
    (∃ s ts, c = ⟨.code s, t :: ts⟩) ∨ (∃ d ∈ (r.step c).next, t ∈ d.tokens) ∨ r.Swallowed c t := by
  obtain ⟨lits, hread⟩ := haccepts
  have front {s : LiteralScan} {u : Token} {ts : List Token} {x : ReadStep}
      (ht : t ∈ u :: ts) (h : t ∈ ts → (∃ d ∈ x.next, t ∈ d.tokens) ∨
        r.Swallowed ⟨.code s, u :: ts⟩ t) :
      (∃ s' ts', Spot.mk (.code s) (u :: ts) = ⟨.code s', t :: ts'⟩) ∨
        (∃ d ∈ x.next, t ∈ d.tokens) ∨ r.Swallowed ⟨.code s, u :: ts⟩ t := by
    rcases List.mem_cons.1 ht with rfl | ht
    · exact Or.inl ⟨s, ts, rfl⟩
    · exact Or.inr (h ht)
  have other {u : Token} {kind : TokenKind} {ts : List Token} (ht : t ∈ u :: ts)
      (hu : u.kind = kind) (hkind : kind ≠ .keyword .ifKw ∧ kind ≠ .keyword .forKw ∧
        kind ≠ .keyword .switchKw) : t ∈ ts := by
    refine (List.mem_cons.1 ht).resolve_left ?_
    rintro rfl
    exact Token.not_opensHeader hu hkind hkw
  have entry {ts : List Token} (ht : t ∈ ts) :
      t ∈ trimTerminators (spanTop .comma 0 ts).1 ∨ t ∈ (spanTop .comma 0 ts).2.tail := by
    apply mem_entry ht <;> rcases hkw with ht | ht | ht <;> simp [ht]
  have grouped {b : Bracket} {inside body rest : List Token} {reader reader' : LiteralReader}
      (hgroup : r.group b inside = .ok (body, rest)) (ht : t ∈ inside) :
      ∃ d ∈ [Spot.mk reader body, ⟨reader', rest⟩], t ∈ d.tokens := by
    rcases mem_group hgroup ht hkw.not_bracket with ht | ht
    · exact ⟨_, List.mem_cons_self, ht⟩
    · exact ⟨_, List.mem_cons_of_mem _ (List.mem_singleton_self _), ht⟩
  fun_cases step r c with
  | case1 | case15 => cases ht
  | case2 | case7 | case8 | case9 | case10 | case12 =>
    exact front ht fun ht => Or.inl ⟨_, List.mem_singleton_self _, ht⟩
  | case3 s u ts hheader hu e hskip =>
    simp only [read, scanLiterals_func hu, hskip] at hread
    cases hread
  | case4 s u ts hheader hu after hskip hopen =>
    obtain ⟨passed, rfl⟩ := skipSignature_suffix hskip
    refine front ht fun ht => ?_
    rcases List.mem_append.1 ht with ht | ht
    · exact Or.inr ⟨s, u, passed, after, .refl, hu, hskip, ht⟩
    · exact Or.inl ⟨_, List.mem_singleton_self _, ht⟩
  | case5 s u ts hheader hu after hskip inside hopen e hgroup =>
    simp only [read, scanLiterals_func hu, hskip, ok_bind, hopen, hgroup] at hread
    cases hread
  | case6 s u ts hheader hu after hskip inside hopen body rest hgroup =>
    obtain ⟨passed, rfl⟩ := skipSignature_suffix hskip
    obtain ⟨brace, hbrace, rfl⟩ := afterOpening?_eq_some.1 hopen
    refine front ht fun ht => ?_
    rcases List.mem_append.1 ht with ht | ht
    · exact Or.inr ⟨s, u, passed, _, .refl, hu, hskip, ht⟩
    · exact Or.inl (grouped hgroup (other ht hbrace (by simp)))
  | case11 s u ts hheader hu type inside hsome =>
    obtain ⟨body, rest, elements, more, hgroup, -, -, -, hstep⟩ :=
      literalStep_of_read (firstBrace u ts) (.code s.past) hread (scanLiterals_literal hu hsome)
    rw [hstep]
    refine front ht fun ht => Or.inl (grouped hgroup ?_)
    rcases (literalAt?_eq_some hsome).2 with ⟨brace, hbrace, rfl, -⟩ |
      ⟨point, name, brace, -, hpoint, hname, hbrace, rfl, -⟩
    · exact other ht hbrace (by simp)
    · exact other (other (other ht hpoint (by simp)) hname (by simp)) hbrace (by simp)
  | case13 ts hopen => exact Or.inr (Or.inl ⟨_, List.mem_singleton_self _, ht⟩)
  | case14 ts inside hopen =>
    have helement : r.read ⟨.element, ts⟩ = r.group .brace inside >>= fun parts =>
        r.literalElements parts.1 >>= fun elements =>
        r.read ⟨.code {}, parts.2⟩ >>= fun more =>
        pure (.mk {} (r.locate (r.front ts)) elements :: more) := by
      simp only [read, scanElement_eq, hopen]
    obtain ⟨body, rest, elements, more, hgroup, -, -, -, hstep⟩ :=
      literalStep_of_read (r.front ts) (.code {}) hread helement
    obtain ⟨brace, hbrace, rfl⟩ := afterOpening?_eq_some.1 hopen
    rw [hstep]
    exact Or.inr (Or.inl (grouped hgroup (other ht hbrace (by simp))))
  | case16 u ts hblank =>
    rcases entry ht with ht | ht
    · rw [List.isEmpty_iff.1 hblank] at ht
      cases ht
    · exact Or.inr (Or.inl ⟨_, List.mem_singleton_self _, ht⟩)
  | case17 u ts hentry first hcolon =>
    refine Or.inr (Or.inl ?_)
    rcases entry ht with ht | ht
    · rw [← spanTop_eq_nil hcolon] at ht
      exact ⟨_, List.mem_cons_self, ht⟩
    · exact ⟨_, List.mem_cons_of_mem _ (List.mem_singleton_self _), ht⟩
  | case18 u ts hentry key colon value hcolon =>
    obtain ⟨heq, hkind⟩ := spanTop_eq_cons hcolon
    refine Or.inr (Or.inl ?_)
    rcases entry ht with ht | ht
    · rw [heq] at ht
      rcases List.mem_append.1 ht with ht | ht
      · exact ⟨_, List.mem_cons_self, ht⟩
      · exact ⟨_, List.mem_cons_of_mem _ List.mem_cons_self, other ht hkind (by simp)⟩
    · exact ⟨_, List.mem_cons_of_mem _ (List.mem_cons_of_mem _ (List.mem_singleton_self _)), ht⟩

/-- **A scan comes to the start of a header**, unless a signature reaches past it. -/
theorem comes_or_swallowed (haccepts : r.Accepts c) (ht : t ∈ c.tokens) (hkw : t.OpensHeader) :
    (∃ s ts, r.Comes c ⟨.code s, t :: ts⟩) ∨ r.Swallowed c t := by
  induction hsize : c.size using Nat.strongRecOn generalizing c with
  | ind n ih =>
    subst hsize
    rcases mem_step haccepts ht hkw with ⟨s, ts, rfl⟩ | ⟨d, hd, ht⟩ | hswallowed
    · exact Or.inl ⟨s, ts, .refl⟩
    · have hcomes : r.Comes c d := .single hd
      rcases ih _ (size_lt_of_mem_step c d hd) (hcomes.accepts haccepts) ht rfl with
        ⟨s, ts, hnext⟩ | ⟨s, u, passed, after, hnext, hrest⟩
      · exact Or.inl ⟨s, ts, hcomes.trans hnext⟩
      · exact Or.inr ⟨s, u, passed, after, hcomes.trans hnext, hrest⟩
    · exact Or.inr hswallowed

/-- Tokens of the text of a header. -/
theorem HeaderText.tokens {front : List Token}
    (hfront : ∀ t ∈ front, ¬ t.IsBracket ∧ ¬ t.OpensHeader ∧ t.kind ≠ .keyword .funcKw)
    (h : HeaderText r braces ts rest) : HeaderText r braces (front ++ ts) rest := by
  induction front with
  | nil => exact h
  | cons t front ih =>
    obtain ⟨hplain, hheader, hfunc⟩ := hfront t List.mem_cons_self
    exact .token hplain hheader hfunc (ih fun u hu => hfront u (List.mem_cons_of_mem _ hu))

/-- The body of a function is code. -/
theorem Code.of_head {func brace : Token} {last : List Token} (hfunc : func.kind = .keyword .funcKw)
    (hhead : (r.funcHead func ts).toOption.map (·.rest) = some (brace :: inside))
    (hbrace : brace.kind = .opening .brace)
    (hgroup : (r.group .brace inside).toOption = some (code, last)) : r.Code (func :: ts) code := by
  obtain ⟨head, hsome, hrest⟩ := Option.map_eq_some_iff.1 hhead
  refine .body hfunc (eq_ok_of_toOption hsome) ?_ (eq_ok_of_toOption hgroup)
  rw [hrest]
  exact if_pos hbrace

end Reading

/-! ### Source files -/

namespace SourceFile

/-- **The brace that opens the block of a statement is that of no literal**, if the header has no
group in braces outside brackets, or does not end with a name. The literals of code are those of its
declaration, and a scan comes to the statement unless a signature reaches past its keyword. After
the header it is in the block, and the header is no longer open. -/
theorem block_brace {source : Source} {file : SourceFile} {code : List Token} {keyword : Token}
    (h : SourceFile.parse source = .ok file) (hcode : source.Code code) (hmem : keyword ∈ code)
    (hkeyword : keyword.OpensHeader)
    (hseen : ¬ source.reader.Swallowed ⟨.code {}, code⟩ keyword) :
    (∃ d ∈ file.decls, (source.sites code).map LiteralSite.literal =
      CompositeLit.preorderAll d.literals) ∧
    (∃ s ts, source.reader.Comes ⟨.code {}, code⟩ ⟨.code s, keyword :: ts⟩) ∧
    ∀ s ts braces brace block,
      source.reader.Comes ⟨.code {}, code⟩ ⟨.code s, keyword :: ts⟩ →
      source.reader.HeaderText braces ts (brace :: block) → brace.kind = .opening .brace →
      (braces = true → ∀ t, t :: brace :: block <:+ ts → t.kind ≠ .identifier) →
      (∀ site ∈ source.sites code, site.brace ≠ brace) ∧
        ∃ s', source.reader.Comes ⟨.code {}, code⟩ ⟨.code s', block⟩ ∧
          (braces = false → s' = { s.past with depth := s.depth + 1 }) := by
  obtain ⟨haccepts, hdecl⟩ := exists_sites h hcode
  refine ⟨hdecl, (Reading.comes_or_swallowed haccepts hmem hkeyword).resolve_right hseen,
    fun s ts braces brace block hcomes hheader hbrace hname => ?_⟩
  have honce : code.count brace ≤ 1 := hcode.count_le_one (by simp [hbrace]) (by simp [hbrace])
  obtain ⟨hblock, hsites⟩ :=
    Reading.comes_block haccepts honce hcomes hkeyword hheader hbrace hname
  exact ⟨hsites, hblock⟩

/-- A loop over a slice that is written in its header. -/
def loopSource : Source where
  filename := ascii "p.go"
  content := ascii "package p\n" ++
    ascii "func f() \x7b\n\tfor _, x := range []int\x7b1, 2\x7d \x7b\n\t\tg(x)\n\t\x7d\n\x7d\n"

def loopBrace : Token := written (.opening .brace) "\x7b" 52

def loopBlock : List Token :=
  [written .identifier "g" 56, written (.opening .paren) "(" 57, written .identifier "x" 58,
    written (.closing .paren) ")" 59, Token.terminator 60, written (.closing .brace) "\x7d" 62,
    Token.terminator 63]

/-- The elements of the slice, and what follows them. -/
def loopElements : List Token := [written .int "1" 46, written .comma "," 47, written .int "2" 49]

def loopAfter : List Token := written (.closing .brace) "\x7d" 50 :: loopBrace :: loopBlock

def loopHeader : List Token :=
  [written .identifier "_" 26, written .comma "," 27, written .identifier "x" 29,
      written .operator ":=" 31, written (.keyword .rangeKw) "range" 34] ++
    written (.opening .square) "[" 40 :: written (.closing .square) "]" 41 ::
      ([written .identifier "int" 42] ++
        written (.opening .brace) "\x7b" 45 :: (loopElements ++ loopAfter))

def loopCode : List Token := written (.keyword .forKw) "for" 22 :: loopHeader

/-- The function up to its body, after its keyword. -/
def loopHead : List Token :=
  [written .identifier "f" 15, written (.opening .paren) "(" 16, written (.closing .paren) ")" 17,
    written (.opening .brace) "\x7b" 19]

def loopEnd : List Token := [written (.closing .brace) "\x7d" 64, Token.terminator 65]

theorem code_loop : loopSource.Code loopCode := by
  have hclause : (loopSource.reader.packageClause
      (tokenize loopSource.content).tokens.dropLast).toOption =
      some (written .identifier "p" 8, written (.keyword .funcKw) "func" 10 ::
        (loopHead ++ loopCode ++ loopEnd)) := by
    decide +kernel
  have hhead : (loopSource.reader.funcHead (written (.keyword .funcKw) "func" 10)
      (loopHead ++ loopCode ++ loopEnd)).toOption.map (·.rest) =
      some (written (.opening .brace) "\x7b" 19 :: (loopCode ++ loopEnd)) := by
    decide +kernel
  have hbody : (loopSource.reader.group .brace (loopCode ++ loopEnd)).toOption =
      some (loopCode, loopEnd.tail) := by
    decide +kernel
  exact ⟨_, _, eq_ok_of_toOption hclause, .of_head rfl hhead rfl hbody⟩

theorem headerText_loop :
    loopSource.reader.HeaderText true loopHeader (loopBrace :: loopBlock) := by
  have helements : loopSource.reader.group .brace (loopElements ++ loopAfter) =
      .ok (loopElements, loopBrace :: loopBlock) :=
    eq_ok_of_toOption (by decide +kernel)
  exact .tokens (by decide +kernel)
    (.group rfl nofun (Reading.closeGroup_closing_last rfl) .done rfl
      (.tokens (by decide +kernel)
        (.group rfl (fun _ => rfl) helements (.tokens (by decide +kernel) .done) rfl .done)))

/-- The brace of the slice closes the header, and that of the block follows no name. -/
theorem block_brace_loop :
    ∃ file, SourceFile.parse loopSource = .ok file ∧ loopSource.Code loopCode ∧
      (∀ site ∈ loopSource.sites loopCode, site.brace ≠ loopBrace) ∧
      ∃ s, loopSource.reader.Comes ⟨.code {}, loopCode⟩ ⟨.code s, loopBlock⟩ := by
  have hparse : (SourceFile.parse loopSource).toOption.isSome := by decide +kernel
  obtain ⟨file, hfile⟩ := Option.isSome_iff_exists.1 hparse
  have hfile := eq_ok_of_toOption hfile
  have hseen : ¬ loopSource.reader.Swallowed ⟨.code {}, loopCode⟩
      (written (.keyword .forKw) "for" 22) := by
    rintro ⟨s, u, passed, after, hcomes, hu, -⟩
    have hfree : ∀ u ∈ loopCode, u.kind ≠ .keyword .funcKw := by decide +kernel
    exact hfree u (hcomes.sublist.subset List.mem_cons_self) hu
  have hname : ∀ t, t :: loopBrace :: loopBlock <:+ loopHeader → t.kind ≠ .identifier := by
    intro t ht
    have hlast : loopAfter <:+ loopHeader := ⟨loopHeader.take 12, by decide +kernel⟩
    have heq := (List.suffix_of_suffix_length_le ht hlast (Nat.le_refl _)).eq_of_length rfl
    rw [(List.cons.inj heq).1]
    nofun
  obtain ⟨-, -, hblock⟩ :=
    block_brace hfile code_loop List.mem_cons_self (Or.inr (Or.inl rfl)) hseen
  obtain ⟨hsites, s, hcomes, -⟩ :=
    hblock _ _ _ _ _ .refl headerText_loop rfl fun _ => hname
  exact ⟨file, hfile, code_loop, hsites, s, hcomes⟩

/-- A statement whose header has a slice in it, and ends with a name. -/
def debugSource : Source where
  filename := ascii "p.go"
  content := ascii "package p\nimport \"net/http\"\n" ++
    ascii "func f() \x7b\n\tif x := []int\x7b1\x7d; http.Debug \x7b\n\t\tg(x)\n\t\x7d\n\x7d\n"

def debugBrace : Token := written (.opening .brace) "\x7b" 69

def debugBlock : List Token :=
  [written .identifier "g" 73, written (.opening .paren) "(" 74, written .identifier "x" 75,
    written (.closing .paren) ")" 76, Token.terminator 77, written (.closing .brace) "\x7d" 79,
    Token.terminator 80]

/-- The header after the slice. -/
def debugAfter : List Token :=
  [written .semicolon ";" 56, written .identifier "http" 58, written .period "." 62,
    written .identifier "Debug" 63]

def debugHeader : List Token :=
  [written .identifier "x" 43, written .operator ":=" 45] ++
    written (.opening .square) "[" 48 :: written (.closing .square) "]" 49 ::
      ([written .identifier "int" 50] ++
        written (.opening .brace) "\x7b" 53 :: written .int "1" 54 ::
          written (.closing .brace) "\x7d" 55 :: (debugAfter ++ debugBrace :: debugBlock))

def debugCode : List Token := written (.keyword .ifKw) "if" 40 :: debugHeader

/-- The function up to its body, after its keyword. -/
def debugHead : List Token :=
  [written .identifier "f" 33, written (.opening .paren) "(" 34, written (.closing .paren) ")" 35,
    written (.opening .brace) "\x7b" 37]

def debugEnd : List Token := [written (.closing .brace) "\x7d" 81, Token.terminator 82]

theorem code_debug : debugSource.Code debugCode := by
  have hclause : (debugSource.reader.packageClause
      (tokenize debugSource.content).tokens.dropLast).toOption.map Prod.snd =
      some (written (.keyword .importKw) "import" 10 ::
        { written .string "\"net/http\"" 17 with value := ascii "net/http" } ::
        Token.terminator 27 :: written (.keyword .funcKw) "func" 28 ::
        (debugHead ++ debugCode ++ debugEnd)) := by
    decide +kernel
  have hhead : (debugSource.reader.funcHead (written (.keyword .funcKw) "func" 28)
      (debugHead ++ debugCode ++ debugEnd)).toOption.map (·.rest) =
      some (written (.opening .brace) "\x7b" 37 :: (debugCode ++ debugEnd)) := by
    decide +kernel
  have hbody : (debugSource.reader.group .brace (debugCode ++ debugEnd)).toOption =
      some (debugCode, debugEnd.tail) := by
    decide +kernel
  obtain ⟨⟨name, rest⟩, hclause, hrest⟩ := Option.map_eq_some_iff.1 hclause
  refine ⟨name, rest, eq_ok_of_toOption hclause, ?_⟩
  obtain rfl := hrest.symm
  exact @Reading.Code.next debugSource.reader _ _ _ _ _ rfl rfl (.of_head rfl hhead rfl hbody)

theorem headerText_debug :
    debugSource.reader.HeaderText true debugHeader (debugBrace :: debugBlock) := by
  have hslice : debugSource.reader.group .brace (written .int "1" 54 ::
      written (.closing .brace) "\x7d" 55 :: (debugAfter ++ debugBrace :: debugBlock)) =
      .ok ([written .int "1" 54], debugAfter ++ debugBrace :: debugBlock) :=
    eq_ok_of_toOption (by decide +kernel)
  exact .tokens (by decide +kernel)
    (.group rfl nofun (Reading.closeGroup_closing_last rfl) .done rfl
      (.tokens (by decide +kernel)
        (.group rfl (fun _ => rfl) hslice (.token (by decide) (by decide) nofun .done) rfl
          (.tokens (by decide +kernel) .done))))

def debugReport : Diagnostic where
  location := debugSource.location 58
  message := ascii "composite struct literal net/http.Debug with untagged fields"

/-- The brace of the slice closes the header, so that the name after it and the block of the
statement are taken for a literal, and it is reported. -/
theorem exists_reported_block :
    ∃ file, SourceFile.parse debugSource = .ok file ∧ debugSource.Code debugCode ∧
      debugCode.head?.map Token.kind = some (.keyword .ifKw) ∧
      debugSource.reader.HeaderText true debugCode.tail (debugBrace :: debugBlock) ∧
      (∃ site ∈ debugSource.sites debugCode, site.brace = debugBrace ∧
        site.literal.type = ⟨ascii "http", ascii "Debug"⟩ ∧
        untaggedReport site.literal (ascii "net/http") = debugReport) ∧
      (checkLiterals (fun _ => true) [] file).value = [debugReport] := by
  obtain ⟨file, hfile, hsite, hreports⟩ :=
    @exists_reported_site debugSource debugCode debugBrace
      ⟨ascii "http", ascii "Debug"⟩ (ascii "net/http") debugReport (by decide +kernel)
      (by decide +kernel)
  exact ⟨file, hfile, code_debug, rfl, headerText_debug, hsite, hreports⟩

end SourceFile

end BuildOrder
