import BuildOrder.Proofs.Qualified
import BuildOrder.Proofs.Tiling

/-!
# How brackets nest

A group is read up to the bracket that closes it, so all brackets inside are nested. One reader goes
by opening brackets only: the search for the terminator of a declaration of variables, constants or
types that stands without parentheses. It steps over a closing bracket like over any other token.

* `Nested`, `strayClosers`: tokens whose brackets are nested, but for closing ones outside all
  groups, and which those are.
* `Reading.group_nested`: **the brackets inside a group are nested.**
* `Reading.Passes`: a reader goes over tokens whose brackets are nested; one lemma for each reader.
* `Reading.declaration_cases`: so does that of a declaration, but for the one without parentheses.
* `SourceFile.brackets_nested`: **the brackets of a file are nested, but for closing ones that stand
  outside all groups**, and these are those of declarations without parentheses.
* `SourceFile.exists_stray`: a file with such a bracket is accepted.
-/

namespace BuildOrder

/-- Tokens whose groups are closed by the bracket of their kind, in order. The second list holds the
closing brackets that stand outside all groups. -/
inductive Nested : List Token → List Token → Prop
  | nil : Nested [] []
  | token {t : Token} {ts strays : List Token} :
      ¬ t.IsBracket → Nested ts strays → Nested (t :: ts) strays
  | group {b : Bracket} {t last : Token} {inside ts strays : List Token} :
      t.kind = .opening b → Nested inside [] → last.kind = .closing b → Nested ts strays →
      Nested (t :: (inside ++ last :: ts)) strays
  | stray {b : Bracket} {t : Token} {ts strays : List Token} :
      t.kind = .closing b → Nested ts strays → Nested (t :: ts) (t :: strays)

/-- The closing brackets that stand outside all groups, of which `depth` are open. -/
def strayClosers (depth : Nat) : List Token → List Token
  | [] => []
  | t :: ts =>
    if depth = 0 ∧ ∃ b, t.kind = .closing b then t :: strayClosers depth ts
    else strayClosers (t.depthAfter depth) ts

namespace Nested

variable {ts more strays others : List Token}

theorem append (h : Nested ts strays) (hmore : Nested more others) :
    Nested (ts ++ more) (strays ++ others) := by
  induction h with
  | nil => exact hmore
  | token ht _ ih => exact .token ht ih
  | @group b t last inside ts strays ht hinside hlast _ _ ih =>
    rw [List.cons_append, List.append_assoc, List.cons_append]
    exact .group ht hinside hlast ih
  | stray ht _ ih => exact .stray ht ih

/-- Counting the open groups finds the closing brackets outside them. Inside a group there are none,
so the count may start at any depth. -/
theorem strayClosers_append (h : Nested ts strays) {depth : Nat} (hdepth : strays = [] ∨ depth = 0)
    (rest : List Token) : strayClosers depth (ts ++ rest) = strays ++ strayClosers depth rest := by
  induction h generalizing depth rest with
  | nil => rfl
  | @token t ts strays ht _ ih =>
    have hclose : ¬ ∃ b, t.kind = .closing b := by
      rintro ⟨b, hb⟩
      exact ht ⟨b, Or.inr hb⟩
    rw [List.cons_append, strayClosers, if_neg (fun h => hclose h.2), Token.depthAfter_plain ht]
    exact ih hdepth rest
  | @group b t last inside ts strays ht _ hlast _ ihInside ih =>
    have hup : t.depthAfter depth = depth + 1 := by simp only [Token.depthAfter, ht]
    have hdown : last.depthAfter (depth + 1) = depth := by
      simp only [Token.depthAfter, hlast, Nat.add_sub_cancel]
    rw [List.cons_append, strayClosers, if_neg (by simp [ht]), hup, List.append_assoc,
      List.cons_append, ihInside (Or.inl rfl), List.nil_append, strayClosers, if_neg (by omega),
      hdown]
    exact ih hdepth rest
  | @stray b t ts strays ht _ ih =>
    obtain rfl := hdepth.resolve_left (List.cons_ne_nil _ _)
    rw [List.cons_append, strayClosers, if_pos ⟨rfl, b, ht⟩, ih (Or.inr rfl)]
    rfl

theorem strayClosers_eq (h : Nested ts strays) : strayClosers 0 ts = strays := by
  simpa [strayClosers] using h.strayClosers_append (Or.inr rfl) []

end Nested

namespace Reading

variable {r : Reading} {b : Bracket} {outer : List Bracket} {t : Token} {phrase : Phrase}
  {ts mid inside body rest code : List Token} {seenOther : Bool}

/-! ### What a reader goes over -/

/-- The tokens go on after the bracket that closes a group of kind `b`. -/
def Closes (b : Bracket) (ts rest : List Token) : Prop :=
  ∃ inside last, Nested inside [] ∧ last.kind = .closing b ∧ ts = inside ++ last :: rest

/-- The tokens go on after some whose brackets are nested. -/
def Passes (ts rest : List Token) : Prop := ∃ passed, Nested passed [] ∧ ts = passed ++ rest

/-- What is passed up to the closing bracket is inside the group. -/
theorem Passes.closes (h : Passes ts mid) (hmid : Closes b mid rest) : Closes b ts rest := by
  obtain ⟨passed, hpassed, rfl⟩ := h
  obtain ⟨inside, last, hinside, hlast, rfl⟩ := hmid
  exact ⟨passed ++ inside, last, hpassed.append hinside, hlast, (List.append_assoc _ _ _).symm⟩

namespace Passes

theorem refl (ts : List Token) : Passes ts ts := ⟨[], .nil, rfl⟩

theorem trans (h : Passes ts mid) (h' : Passes mid rest) : Passes ts rest := by
  obtain ⟨passed, hpassed, rfl⟩ := h
  obtain ⟨passed', hpassed', rfl⟩ := h'
  exact ⟨passed ++ passed', hpassed.append hpassed', (List.append_assoc _ _ _).symm⟩

theorem token (ht : ¬ t.IsBracket) : Passes (t :: ts) ts := ⟨[t], .token ht .nil, rfl⟩

theorem group (ht : t.kind = .opening b) (h : Closes b ts rest) : Passes (t :: ts) rest := by
  obtain ⟨inside, last, hinside, hlast, rfl⟩ := h
  exact ⟨t :: (inside ++ [last]), .group ht hinside hlast .nil, by simp⟩

theorem opened (hopen : afterOpening? b ts = some inside) (h : Closes b inside rest) :
    Passes ts rest := by
  obtain ⟨t, ht, rfl⟩ := afterOpening?_eq_some.1 hopen
  exact group ht h

theorem suffix (h : Passes ts rest) : rest <:+ ts := by
  obtain ⟨passed, -, rfl⟩ := h
  exact List.suffix_append _ _

end Passes

/-- The outermost of the groups open is inside the others, up to the bracket that closes it. -/
theorem closeGroup_nested (h : r.closeGroup b outer ts = .ok (inside, rest)) :
    ∃ body last mid, Nested body [] ∧ last.kind = .closing b ∧ ts = body ++ last :: mid ∧
      (outer = [] ∧ inside = body ∧ rest = mid ∨
        ∃ next others inside', outer = next :: others ∧ inside = body ++ last :: inside' ∧
          r.closeGroup next others mid = .ok (inside', rest)) := by
  induction hlength : ts.length using Nat.strongRecOn generalizing b outer ts inside with
  | ind n ih =>
    subst hlength
    cases ts with
    | nil => simp [closeGroup] at h
    | cons t ts =>
      rcases closeGroup_cons h with ⟨ht, rfl, rfl, rfl⟩ |
        ⟨inside', rfl, ⟨c, ht, hnext⟩ | ⟨next, others, ht, rfl, hnext⟩ | ⟨ht, hnext⟩⟩
      · exact ⟨[], t, rest, .nil, ht, rfl, Or.inl ⟨rfl, rfl, rfl⟩⟩
      · -- the group that opens here, and then what the group it is in goes on with
        obtain ⟨body, last, mid, hbody, hlast, rfl, ⟨hnil, -⟩ | ⟨_, _, inside', hcons, rfl, hmid⟩⟩ :=
          ih _ (Nat.lt_succ_self _) hnext rfl
        · cases hnil
        obtain ⟨rfl, rfl⟩ := List.cons.inj hcons
        obtain ⟨body', last', mid', hbody', hlast', rfl, hrest⟩ :=
          ih mid.length (by simp; omega) hmid rfl
        refine ⟨t :: (body ++ last :: body'), last', mid', .group ht hbody hlast hbody', hlast',
          by simp, ?_⟩
        rcases hrest with ⟨rfl, rfl, rfl⟩ | ⟨next, others, inside', rfl, rfl, hrest⟩
        · exact Or.inl ⟨rfl, by simp, rfl⟩
        · exact Or.inr ⟨next, others, inside', rfl, by simp, hrest⟩
      · exact ⟨[], t, ts, .nil, ht, rfl, Or.inr ⟨next, others, inside', rfl, rfl, hnext⟩⟩
      · obtain ⟨body, last, mid, hbody, hlast, rfl, hrest⟩ := ih _ (Nat.lt_succ_self _) hnext rfl
        refine ⟨t :: body, last, mid, .token ht hbody, hlast, rfl, ?_⟩
        rcases hrest with ⟨rfl, rfl, rfl⟩ | ⟨next, others, inside'', rfl, rfl, hrest⟩
        · exact Or.inl ⟨rfl, rfl, rfl⟩
        · exact Or.inr ⟨next, others, inside'', rfl, rfl, hrest⟩

/-- **The brackets inside a group are nested.** -/
theorem group_nested (h : r.group b ts = .ok (body, rest)) :
    Nested body [] ∧ Closes b ts rest := by
  obtain ⟨body', last, mid, hbody, hlast, rfl, ⟨-, rfl, rfl⟩ | ⟨_, _, _, hnil, -⟩⟩ :=
    closeGroup_nested h
  · exact ⟨hbody, body, last, hbody, hlast, rfl⟩
  · cases hnil

theorem Skips.passes (h : r.Skips phrase ts rest) : Passes ts rest := by
  induction h with
  | done => exact .refl []
  | stop _ => exact .refl _
  | func ht _ ih => exact (Passes.token (Token.not_isBracket ht (by simp))).trans ih
  | fields ht hopen hgroup _ ih =>
    have hplain : ¬ Token.IsBracket _ :=
      ht.elim (Token.not_isBracket · (by simp)) (Token.not_isBracket · (by simp))
    exact ((Passes.token hplain).trans (.opened hopen (group_nested hgroup).2)).trans ih
  | group ht _ hgroup _ ih => exact (Passes.group ht (group_nested hgroup).2).trans ih
  | token _ ht _ _ _ ih => exact (Passes.token ht).trans ih
  | type _ _ ih => exact ih
  | params hopen hgroup _ _ ih => exact (Passes.opened hopen (group_nested hgroup).2).trans ih
  | results hparams hgroup hresults hgroup' =>
    exact (Passes.opened hparams (group_nested hgroup).2).trans
      (.opened hresults (group_nested hgroup').2)

/-- The token that was expected is at the front. -/
theorem expect_ok {kind : TokenKind} {expectation : Expectation} {p : Parsed Token ts.length}
    (h : r.expect kind expectation ts = .ok p) : p.value.kind = kind ∧ ts = p.value :: p.rest := by
  cases ts with
  | nil => cases h
  | cons t ts =>
    by_cases ht : t.kind = kind
    · simp only [expect, if_pos ht] at h
      obtain rfl := Except.ok.inj h
      exact ⟨ht, rfl⟩
    · simp only [expect, if_neg ht] at h
      cases h

theorem expect_passes {kind : TokenKind} {expectation : Expectation}
    {p : Parsed Token ts.length} (hkind : ∀ b, kind ≠ .opening b ∧ kind ≠ .closing b)
    (h : r.expect kind expectation ts = .ok p) : Passes ts p.rest := by
  obtain ⟨ht, hts⟩ := expect_ok h
  exact ⟨[p.value], .token (Token.not_isBracket ht hkind) .nil, hts⟩

theorem optionalGroup_passes {p : Parsed (Option (List Token)) (ts.length + 1)}
    (h : r.optionalGroup b ts = .ok p) : Passes ts p.rest := by
  rcases optionalGroup_ok h with ⟨-, -, hrest⟩ | ⟨inside, body, hopen, hgroup, -⟩
  · rw [hrest]
    exact .refl ts
  · exact .opened hopen (group_nested hgroup).2

theorem endDeclaration_passes {p : Parsed Unit (ts.length + 1)}
    (h : r.endDeclaration ts = .ok p) : Passes ts p.rest := by
  cases ts with
  | nil =>
    obtain rfl := Except.ok.inj h
    exact .refl _
  | cons t ts =>
    by_cases ht : t.kind = .semicolon
    · simp only [endDeclaration, if_pos ht] at h
      obtain rfl := Except.ok.inj h
      exact .token (Token.not_isBracket ht (by simp))
    · simp only [endDeclaration, if_neg ht] at h
      cases h

theorem passes_dropWhile (ts : List Token) :
    Passes ts (ts.dropWhile fun t => t.kind == .semicolon) := by
  induction ts with
  | nil => exact .refl []
  | cons t ts ih =>
    rw [List.dropWhile_cons]
    split
    · rename_i ht
      exact (Passes.token (Token.not_isBracket (beq_iff_eq.1 ht) (by simp))).trans ih
    · exact .refl _

theorem packageClause_passes {name : Token} (h : r.packageClause ts = .ok (name, rest)) :
    Passes ts rest := by
  obtain ⟨clause, hclause, h⟩ := bind_eq_ok.1 h
  obtain ⟨name', hname, h⟩ := bind_eq_ok.1 h
  split at h
  · cases h
  · obtain ⟨last, hlast, h⟩ := bind_eq_ok.1 h
    obtain ⟨-, rfl⟩ := Prod.mk.inj (Except.ok.inj h)
    exact (((passes_dropWhile ts).trans (expect_passes (by simp) hclause)).trans
      (expect_passes (by simp) hname)).trans (endDeclaration_passes hlast)

theorem importName_passes (ts : List Token) : Passes ts (importName ts).rest := by
  cases ts with
  | nil => exact .refl []
  | cons t ts =>
    simp only [importName]
    split
    · rename_i ht
      exact .token (Token.not_isBracket ht (by simp))
    split
    · rename_i ht
      exact .token (Token.not_isBracket ht (by simp))
    · exact .refl _

theorem importSpec_passes {p : Parsed ImportSpec ts.length} (h : r.importSpec ts = .ok p) :
    Passes ts p.rest := by
  obtain ⟨path, hpath, h⟩ := bind_eq_ok.1 h
  obtain rfl := Except.ok.inj h
  exact (importName_passes ts).trans (expect_passes (by simp) hpath)

theorem importGroup_closes {ts : List Token} {p : Parsed (List ImportSpec) (ts.length + 1)}
    (h : r.importGroup ts = .ok p) : Closes .paren ts p.rest := by
  rcases importGroup_ok h with ⟨t, ht, hts, -⟩ | ⟨t, rest, specs, ht, hts, hspecs, -, hrest⟩ |
    ⟨spec, specs, hspec, hspecs, -, hrest⟩
  · exact ⟨[], t, .nil, ht, hts⟩
  · have hplain : ¬ t.IsBracket := Token.not_isBracket ht (by simp)
    have hpasses : Passes ts rest := ⟨[t], .token hplain .nil, hts⟩
    rw [hrest]
    exact hpasses.closes (importGroup_closes hspecs)
  · rw [hrest]
    exact (importSpec_passes hspec).closes (importGroup_closes hspecs)
termination_by ts.length
decreasing_by
  · simp [hts]
  · exact spec.shorter

theorem importDecl_passes {d : Parsed Decl (ts.length + 1)} (h : r.importDecl ts = .ok d) :
    Passes ts d.rest := by
  rcases importDecl_ok h with ⟨inside, specs, hopen, hspecs, -, hrest⟩ | ⟨spec, hspec, -, hrest⟩
  · rw [hrest]
    exact .opened hopen (importGroup_closes hspecs)
  · rw [hrest]
    exact importSpec_passes hspec

theorem results_passes {p : Parsed Nat (ts.length + 1)} (h : r.results ts = .ok p) :
    Passes ts p.rest := by
  obtain ⟨listed, hlisted, h⟩ := bind_eq_ok.1 h
  split at h
  · obtain rfl := Except.ok.inj h
    exact optionalGroup_passes hlisted
  · split at h
    · cases h
    · rename_i hskip
      obtain rfl := Except.ok.inj h
      have hskips : r.Skips .type _ _ := skips_of_skip hskip
      exact hskips.passes

theorem funcHead_passes {p : Parsed FuncDecl (ts.length + 1)} (h : r.funcHead t ts = .ok p) :
    Passes ts p.rest := by
  obtain ⟨receiver, name, typeParams, params, results, hreceiver, hname, htypeParams, hparams,
    hresults, hrest, -⟩ := funcHead_ok h
  rw [hrest]
  exact ((((optionalGroup_passes hreceiver).trans (expect_passes (by simp) hname)).trans
    (optionalGroup_passes htypeParams)).trans (optionalGroup_passes hparams)).trans
    (results_passes hresults)

theorem funcDecl_passes {d : Parsed Decl (ts.length + 1)} (h : r.funcDecl t ts = .ok d) :
    Passes ts d.rest := by
  obtain ⟨head, body, literals, hhead, hbody, -, -, hrest⟩ := funcDecl_ok h
  rw [hrest]
  exact (funcHead_passes hhead).trans (optionalGroup_passes hbody)

/-! ### Declarations without parentheses -/

/-- A search for the terminator goes over groups, and over closing brackets outside them. -/
theorem skipToTerminator_nested {ts rest : List Token} (h : r.skipToTerminator ts = .ok rest) :
    ∃ passed strays, Nested passed strays ∧ ts = passed ++ rest := by
  match ts, h with
  | [], h =>
    rw [skipToTerminator] at h
    obtain rfl := Except.ok.inj h
    exact ⟨[], [], .nil, rfl⟩
  | t :: ts, h =>
    rcases skipToTerminator_cons h with
      ⟨-, rfl⟩ | ⟨b, body, after, ht, hgroup, hnext⟩ | ⟨-, hopen, hnext⟩
    · exact ⟨[], [], .nil, rfl⟩
    · obtain ⟨passed, strays, hpassed, rfl⟩ := skipToTerminator_nested hnext
      obtain ⟨-, inside, last, hinside, hlast, rfl⟩ := group_nested hgroup
      exact ⟨t :: (inside ++ last :: passed), strays, .group ht hinside hlast hpassed, by simp⟩
    · -- a closing bracket is stepped over, and no group is open here
      obtain ⟨passed, strays, hpassed, rfl⟩ := skipToTerminator_nested hnext
      rcases t.bracket_cases with ⟨b, ht⟩ | ⟨b, ht⟩ | ht
      · exact absurd ht (hopen b)
      · exact ⟨t :: passed, t :: strays, .stray ht hpassed, rfl⟩
      · exact ⟨t :: passed, strays, .token ht hpassed, rfl⟩
termination_by ts.length
decreasing_by
  · have := r.group_length hgroup
    simp only [List.length_cons]
    omega
  · simp

/-- The token starts a declaration of variables, constants or types without parentheses. -/
def StartsSingle (t : Token) (ts : List Token) : Prop :=
  (∃ keyword : ValueKeyword, t.kind = .keyword keyword.keyword) ∧ afterOpening? .paren ts = none

/-- In parentheses, what a declaration is made of is nested; without them, there may be closing
brackets outside all groups. -/
theorem valueDecl_cases {keyword : ValueKeyword} {d : Parsed Decl (ts.length + 1)}
    (h : r.valueDecl keyword ts = .ok d) :
    (afterOpening? .paren ts ≠ none ∧ Passes ts d.rest) ∨
      (afterOpening? .paren ts = none ∧ d.rest = (spanTop .semicolon 0 ts).2 ∧
        ∃ strays, Nested (spanTop .semicolon 0 ts).1 strays) := by
  obtain ⟨tokens, literals, htokens, -, -, hrest⟩ := valueDecl_ok h
  rw [hrest]
  rcases valueTokens_ok htokens with ⟨inside, hopen, hgroup⟩ | ⟨hopen, hskip, -⟩
  · exact Or.inl ⟨by simp [hopen], .opened hopen (group_nested hgroup).2⟩
  · obtain ⟨passed, strays, hpassed, happend⟩ := skipToTerminator_nested hskip
    have hspan := spanTop_append .semicolon 0 ts
    rw [← skipToTerminator_ok hskip] at hspan
    have hcode := List.append_cancel_right (hspan.trans happend)
    exact Or.inr ⟨hopen, skipToTerminator_ok hskip, strays, hcode ▸ hpassed⟩

/-- **The brackets of a declaration are nested**, unless it is one of variables, constants or types
without parentheses: then they are up to the terminator, but for closing ones outside all groups. -/
theorem declaration_cases {d : Parsed Decl (ts.length + 1)}
    (h : r.declaration seenOther t ts = .ok d) :
    (¬ StartsSingle t ts ∧ Passes ts d.rest) ∨
      (StartsSingle t ts ∧ d.rest = (spanTop .semicolon 0 ts).2 ∧
        ∃ strays, Nested (spanTop .semicolon 0 ts).1 strays) := by
  rcases declaration_ok h with ⟨ht, -, himport⟩ | ⟨ht, hfunc⟩ | ⟨keyword, ht, hvalue⟩
  · refine Or.inl ⟨?_, importDecl_passes himport⟩
    rintro ⟨⟨keyword, hkeyword⟩, -⟩
    cases keyword <;> cases ht.symm.trans hkeyword
  · refine Or.inl ⟨?_, funcDecl_passes hfunc⟩
    rintro ⟨⟨keyword, hkeyword⟩, -⟩
    cases keyword <;> cases ht.symm.trans hkeyword
  · rcases valueDecl_cases hvalue with ⟨hopen, hpasses⟩ | ⟨hopen, hrest, hnested⟩
    · exact Or.inl ⟨fun hsingle => hopen hsingle.2, hpasses⟩
    · exact Or.inr ⟨⟨⟨keyword, ht⟩, hopen⟩, hrest, hnested⟩

theorem declaration_not_isBracket {d : Parsed Decl (ts.length + 1)}
    (h : r.declaration seenOther t ts = .ok d) : ¬ t.IsBracket := by
  rcases declaration_ok h with ⟨ht, -⟩ | ⟨ht, -⟩ | ⟨keyword, ht, -⟩
  all_goals exact Token.not_isBracket ht (by simp)

/-! ### All declarations -/

/-- What the declarations without parentheses are made of. -/
inductive Single (r : Reading) : List Token → List Token → Prop
  | here {t : Token} {ts : List Token} :
      StartsSingle t ts → Single r (t :: ts) (spanTop .semicolon 0 ts).1
  | terminator {t : Token} {ts code : List Token} :
      t.kind = .semicolon → Single r ts code → Single r (t :: ts) code
  | next {t : Token} {ts code : List Token} {d : Parsed Decl (ts.length + 1)}
      {next : Parsed Unit (d.rest.length + 1)} :
      r.declaration false t ts = .ok d → r.endDeclaration d.rest = .ok next →
      Single r next.rest code → Single r (t :: ts) code

theorem single_terminator_iff (ht : t.kind = .semicolon) :
    r.Single (t :: ts) code ↔ r.Single ts code := by
  constructor
  · intro h
    cases h with
    | here hstart =>
      obtain ⟨⟨keyword, hkeyword⟩, -⟩ := hstart
      cases ht.symm.trans hkeyword
    | terminator _ h => exact h
    | next hd =>
      rcases declaration_ok hd with ⟨ht', -⟩ | ⟨ht', -⟩ | ⟨keyword, ht', -⟩
      all_goals cases ht.symm.trans ht'
  · exact .terminator ht

theorem single_cons_iff {d : Parsed Decl (ts.length + 1)} {next : Parsed Unit (d.rest.length + 1)}
    (ht : t.kind ≠ .semicolon) (hd : r.declaration seenOther t ts = .ok d)
    (hnext : r.endDeclaration d.rest = .ok next) :
    r.Single (t :: ts) code ↔
      (StartsSingle t ts ∧ code = (spanTop .semicolon 0 ts).1) ∨ r.Single next.rest code := by
  have hd' := declaration_unseen hd
  constructor
  · intro h
    cases h with
    | here hstart => exact Or.inl ⟨hstart, rfl⟩
    | terminator ht' => exact absurd ht' ht
    | next hd'' hnext' h =>
      obtain rfl := Except.ok.inj (hd'.symm.trans hd'')
      obtain rfl := Except.ok.inj (hnext.symm.trans hnext')
      exact Or.inr h
  · rintro (⟨hstart, rfl⟩ | h)
    · exact .here hstart
    · exact .next hd' hnext h

/-- **The brackets of a list of declarations are nested**, but for the closing ones that stand
outside all groups of a declaration without parentheses. -/
theorem declarations_nested : ∀ {decls : List Decl}, r.declarations seenOther ts = .ok decls →
    ∃ strays, Nested ts strays ∧
      ∀ u, u ∈ strays ↔ ∃ code, r.Single ts code ∧ u ∈ strayClosers 0 code := by
  induction seenOther, ts using declarations.induct with
  | case1 seenOther =>
    intro decls _
    refine ⟨[], .nil, fun u => ?_⟩
    constructor
    · intro hu
      cases hu
    · rintro ⟨code, hsingle, -⟩
      cases hsingle
  | case2 seenOther t ts ht ih =>
    intro decls h
    rcases declarations_cons h with ⟨-, h⟩ | ⟨-, -, -, hne, -⟩
    · obtain ⟨strays, hnested, hstrays⟩ := ih h
      refine ⟨strays, .token (Token.not_isBracket ht (by simp)) hnested, fun u => ?_⟩
      simp only [hstrays, single_terminator_iff ht]
    · exact absurd ht hne
  | case3 seenOther t ts ht ih =>
    intro decls h
    rcases declarations_cons h with ⟨ht', -⟩ | ⟨d, next, decls', -, hd, hnext, hdecls', -⟩
    · exact absurd ht' ht
    obtain ⟨strays, hnested, hstrays⟩ := ih d next hdecls'
    obtain ⟨ended, hended, hrest⟩ := endDeclaration_passes hnext
    have hplain := declaration_not_isBracket hd
    simp only [single_cons_iff ht hd hnext]
    rcases declaration_cases hd with ⟨hstart, passed, hpassed, hts⟩ | ⟨hstart, hspan, own, hown⟩
    · -- nothing is left over from the declaration
      refine ⟨strays, ?_, fun u => ?_⟩
      · rw [hts, hrest]
        exact .token hplain (hpassed.append (hended.append hnested))
      · simp [hstart, hstrays]
    · -- what is left over from the declaration comes first
      have hts := spanTop_append .semicolon 0 ts
      refine ⟨own ++ strays, ?_, fun u => ?_⟩
      · rw [← hts, ← hspan, hrest]
        exact .token hplain (hown.append (hended.append hnested))
      · rw [List.mem_append, hstrays, ← hown.strayClosers_eq]
        constructor
        · rintro (hu | ⟨code, hcode, hu⟩)
          · exact ⟨_, Or.inl ⟨hstart, rfl⟩, hu⟩
          · exact ⟨code, Or.inr hcode, hu⟩
        · rintro ⟨code, ⟨-, rfl⟩ | hcode, hu⟩
          · exact Or.inl hu
          · exact Or.inr ⟨code, hcode, hu⟩

end Reading

/-- The tokens are what a declaration of variables, constants or types without parentheses is made
of. -/
def Source.Single (source : Source) (code : List Token) : Prop :=
  ∃ name rest, source.reader.packageClause (tokenize source.content).tokens.dropLast =
    .ok (name, rest) ∧ source.reader.Single rest code

namespace SourceFile

/-- **The brackets of a source file are nested**: each group is closed by a bracket of its kind, and
the closing brackets outside all groups are those that declarations without parentheses have outside
their own. -/
theorem brackets_nested {source : Source} {file : SourceFile}
    (h : SourceFile.parse source = .ok file) :
    Nested (tokenize source.content).tokens (strayClosers 0 (tokenize source.content).tokens) ∧
      ∀ t, t ∈ strayClosers 0 (tokenize source.content).tokens ↔
        ∃ code, source.Single code ∧ t ∈ strayClosers 0 code := by
  obtain ⟨name, rest, hclause, hdecls⟩ := parse_ok h
  obtain ⟨strays, hnested, hstrays⟩ := Reading.declarations_nested hdecls
  obtain ⟨front, hfront, htokens⟩ := Reading.packageClause_passes hclause
  have hlexed := lexed_tokenize source.content
  obtain ⟨before, offset, hall, -⟩ := hlexed.exists_endOfFile
  have hkind : (Token.endOfFile offset).kind = .eof := rfl
  have hend : ¬ (Token.endOfFile offset).IsBracket := Token.not_isBracket hkind (by simp)
  -- neither the package clause nor the end of the file has a closing bracket left over
  have hfile : Nested (tokenize source.content).tokens strays := by
    rw [hall, List.dropLast_concat] at htokens
    rw [hall, htokens, ← List.append_nil strays]
    exact (hfront.append hnested).append (.token hend .nil)
  rw [hfile.strayClosers_eq]
  refine ⟨hfile, fun t => (hstrays t).trans ?_⟩
  constructor
  · rintro ⟨code, hcode, ht⟩
    exact ⟨code, ⟨name, rest, hclause, hcode⟩, ht⟩
  · rintro ⟨code, ⟨name', rest', hclause', hcode⟩, ht⟩
    obtain ⟨rfl, rfl⟩ := Prod.mk.inj (Except.ok.inj (hclause.symm.trans hclause'))
    exact ⟨code, hcode, ht⟩

/-- A variable with a closing parenthesis too many, and a function. -/
def straySource : Source where
  filename := ascii "p.go"
  content := ascii "package p\nvar x = f(a) )\nfunc g() \x7b h[0] \x7d\n"

def strayToken : Token := written (.closing .paren) ")" 23

theorem strayClosers_straySource :
    strayClosers 0 (tokenize straySource.content).tokens = [strayToken] := by
  decide +kernel

theorem exists_parse_straySource : ∃ file, SourceFile.parse straySource = .ok file := by
  have hparse : (SourceFile.parse straySource).toOption.isSome := by decide +kernel
  obtain ⟨file, hfile⟩ := Option.isSome_iff_exists.1 hparse
  exact ⟨file, eq_ok_of_toOption hfile⟩

/-- The closing bracket is that of the variable, and the others are nested. -/
theorem brackets_nested_stray : (∃ file, SourceFile.parse straySource = .ok file) ∧
    Nested (tokenize straySource.content).tokens [strayToken] ∧
    ∃ code, straySource.Single code ∧ strayToken ∈ strayClosers 0 code := by
  obtain ⟨file, hfile⟩ := exists_parse_straySource
  obtain ⟨hnested, hstrays⟩ := brackets_nested hfile
  rw [strayClosers_straySource] at hnested hstrays
  exact ⟨⟨file, hfile⟩, hnested, (hstrays strayToken).1 List.mem_cons_self⟩

/-- **A file with a closing bracket outside all groups is accepted.** -/
theorem exists_stray : ∃ source file, SourceFile.parse source = .ok file ∧
    ¬ Nested (tokenize source.content).tokens [] := by
  obtain ⟨file, hfile⟩ := exists_parse_straySource
  refine ⟨straySource, file, hfile, fun hnested => ?_⟩
  cases strayClosers_straySource.symm.trans hnested.strayClosers_eq

end SourceFile

end BuildOrder
