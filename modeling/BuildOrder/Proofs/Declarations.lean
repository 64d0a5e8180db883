import BuildOrder.Proofs.Groups
import BuildOrder.SourceFile.Parse

/-!
# The declarations of a source file

* `Reading.importGroup_ok` to `Reading.declaration_ok`, `Reading.declarations_cons`: what a
  declaration of each kind, and a list of them, is made of.
* `SourceFile.parse_ok`: what a source file is made of.
* `SourceFile.exists_importsFirst`: **imports stand before all other declarations.**
* `Reading.Code`: the tokens of a function body, or of a declaration of variables, constants or
  types.
* `Reading.exists_decl`: **such tokens are scanned for literals as a whole.**
-/

namespace BuildOrder

namespace CompositeLit

theorem preorderAll_append (lits more : List CompositeLit) :
    preorderAll (lits ++ more) = preorderAll lits ++ preorderAll more := by
  induction lits with
  | nil => rfl
  | cons lit lits ih =>
    rw [List.cons_append, preorderAll, preorderAll, ih, List.append_assoc]

theorem mem_preorderElements {lit : CompositeLit}
    {elements : List (LiteralElement CompositeLit)} :
    lit ∈ preorderElements elements ↔ ∃ e ∈ elements, lit ∈ preorderAll e.nested := by
  induction elements with
  | nil => simp [preorderElements]
  | cons e elements ih =>
    rw [preorderElements, List.mem_append, ih]
    simp

end CompositeLit

/-- The declaration brings imports. -/
def Decl.isImport : Decl → Bool
  | .imports _ => true
  | _ => false

/-- The imports that a declaration brings. -/
def Decl.specs : Decl → List ImportSpec
  | .imports specs => specs
  | _ => []

/-- The literals of a declaration that are inside no other. -/
def Decl.literals : Decl → List CompositeLit
  | .imports _ => []
  | .func f => f.literals
  | .value _ literals => literals

/-- The literals of a file, outer ones first. -/
def SourceFile.literals (file : SourceFile) : List CompositeLit :=
  CompositeLit.preorderAll (file.decls.flatMap Decl.literals)

theorem SourceFile.importSpecs_eq (file : SourceFile) :
    file.importSpecs = file.decls.flatMap Decl.specs := by
  refine congrArg (List.flatMap · file.decls) (funext fun d => ?_)
  cases d <;> rfl

/-- The keyword that introduces a declaration of values or types. -/
def ValueKeyword.keyword : ValueKeyword → Keyword
  | var => .varKw
  | const => .constKw
  | type => .typeKw

namespace Reading

variable {r : Reading} {t : Token} {ts rest code : List Token} {seenOther : Bool}

/-! ### One declaration -/

theorem optionalGroup_none {b : Bracket} (h : afterOpening? b ts = none) :
    r.optionalGroup b ts = .ok ⟨none, ts, Nat.lt_succ_self _⟩ := by
  unfold optionalGroup
  split
  · rfl
  · rename_i hopen
    cases h.symm.trans hopen

theorem optionalGroup_some {b : Bracket} {inside body : List Token}
    (h : afterOpening? b ts = some inside) (h' : r.group b inside = .ok (body, rest)) :
    r.optionalGroup b ts = .ok ⟨some body, rest, r.group_lt h h'⟩ := by
  unfold optionalGroup
  split
  · rename_i hopen
    cases h.symm.trans hopen
  · rename_i hopen
    obtain rfl := Option.some.inj (h.symm.trans hopen)
    split
    · rename_i hgroup
      cases h'.symm.trans hgroup
    · rename_i hgroup
      obtain ⟨rfl, rfl⟩ := Prod.mk.inj (Except.ok.inj (h'.symm.trans hgroup))
      rfl

/-- What is read where a group may stand. -/
theorem optionalGroup_ok {b : Bracket} {p : Parsed (Option (List Token)) (ts.length + 1)}
    (h : r.optionalGroup b ts = .ok p) :
    (afterOpening? b ts = none ∧ p.value = none ∧ p.rest = ts) ∨
      ∃ inside body, afterOpening? b ts = some inside ∧ r.group b inside = .ok (body, p.rest) ∧
        p.value = some body := by
  unfold optionalGroup at h
  split at h
  · rename_i hopen
    obtain rfl := Except.ok.inj h
    exact Or.inl ⟨hopen, rfl, rfl⟩
  · rename_i inside hopen
    split at h
    · cases h
    · rename_i body rest hgroup
      obtain rfl := Except.ok.inj h
      exact Or.inr ⟨inside, body, hopen, hgroup, rfl⟩

/-- A group of imports ends here, or goes on after a terminator or an import. -/
theorem importGroup_ok {p : Parsed (List ImportSpec) (ts.length + 1)}
    (h : r.importGroup ts = .ok p) :
    (∃ t, t.kind = .closing .paren ∧ ts = t :: p.rest ∧ p.value = []) ∨
      (∃ t rest specs, t.kind = .semicolon ∧ ts = t :: rest ∧ r.importGroup rest = .ok specs ∧
        p.value = specs.value ∧ p.rest = specs.rest) ∨
      ∃ spec specs, r.importSpec ts = .ok spec ∧ r.importGroup spec.rest = .ok specs ∧
        p.value = spec.value :: specs.value ∧ p.rest = specs.rest := by
  cases ts with
  | nil =>
    rw [importGroup] at h
    cases h
  | cons t rest =>
    by_cases hclose : t.kind = .closing .paren
    · rw [importGroup, if_pos hclose] at h
      obtain rfl := Except.ok.inj h
      exact Or.inl ⟨t, hclose, rfl, rfl⟩
    by_cases hend : t.kind = .semicolon
    · rw [importGroup, if_neg hclose, if_pos hend] at h
      obtain ⟨specs, hspecs, h⟩ := bind_eq_ok.1 h
      obtain rfl := Except.ok.inj h
      exact Or.inr (Or.inl ⟨t, rest, specs, hend, rfl, hspecs, rfl, rfl⟩)
    · rw [importGroup, if_neg hclose, if_neg hend] at h
      obtain ⟨spec, hspec, h⟩ := bind_eq_ok.1 h
      dsimp only at h
      split at h
      · obtain ⟨specs, hspecs, h⟩ := bind_eq_ok.1 h
        obtain rfl := Except.ok.inj h
        exact Or.inr (Or.inr ⟨spec, specs, hspec, hspecs, rfl, rfl⟩)
      · cases h

theorem importDecl_ok {d : Parsed Decl (ts.length + 1)} (h : r.importDecl ts = .ok d) :
    (∃ inside specs, afterOpening? .paren ts = some inside ∧ r.importGroup inside = .ok specs ∧
      d.value = .imports specs.value ∧ d.rest = specs.rest) ∨
      ∃ spec, r.importSpec ts = .ok spec ∧ d.value = .imports [spec.value] ∧
        d.rest = spec.rest := by
  unfold importDecl at h
  split at h
  · rename_i inside hopen
    obtain ⟨specs, hspecs, h⟩ := bind_eq_ok.1 h
    obtain rfl := Except.ok.inj h
    exact Or.inl ⟨inside, specs, hopen, hspecs, rfl, rfl⟩
  · obtain ⟨spec, hspec, h⟩ := bind_eq_ok.1 h
    obtain rfl := Except.ok.inj h
    exact Or.inr ⟨spec, hspec, rfl, rfl⟩

theorem importDecl_isImport {d : Parsed Decl (ts.length + 1)} (h : r.importDecl ts = .ok d) :
    d.value.isImport = true := by
  rcases importDecl_ok h with ⟨inside, specs, -, -, hvalue, -⟩ | ⟨spec, -, hvalue, -⟩
  all_goals
    rw [hvalue]
    rfl

/-- What a function has before its body: a receiver, the name, type parameters, parameters and
results. -/
theorem funcHead_ok {p : Parsed FuncDecl (ts.length + 1)} (h : r.funcHead t ts = .ok p) :
    ∃ receiver name typeParams params results, r.optionalGroup .paren ts = .ok receiver ∧
      r.expect .identifier .functionName receiver.rest = .ok name ∧
      r.optionalGroup .square name.rest = .ok typeParams ∧
      r.optionalGroup .paren typeParams.rest = .ok params ∧
      r.results params.rest = .ok results ∧ p.rest = results.rest ∧
      p.value.location = r.locate t := by
  obtain ⟨receiver, hreceiver, h⟩ := bind_eq_ok.1 h
  obtain ⟨name, hname, h⟩ := bind_eq_ok.1 h
  obtain ⟨typeParams, htypeParams, h⟩ := bind_eq_ok.1 h
  obtain ⟨params, hparams, h⟩ := bind_eq_ok.1 h
  split at h
  · cases h
  · obtain ⟨results, hresults, h⟩ := bind_eq_ok.1 h
    obtain rfl := Except.ok.inj h
    exact ⟨receiver, name, typeParams, params, results, hreceiver, hname, htypeParams, hparams,
      hresults, rfl, rfl⟩

theorem funcDecl_ok {d : Parsed Decl (ts.length + 1)} (h : r.funcDecl t ts = .ok d) :
    ∃ head body literals, r.funcHead t ts = .ok head ∧ r.optionalGroup .brace head.rest = .ok body ∧
      r.scanLiterals {} (body.value.getD []) = .ok literals ∧
      d.value = .func { head.value with hasBody := body.value.isSome, literals } ∧
      d.rest = body.rest := by
  obtain ⟨head, hhead, h⟩ := bind_eq_ok.1 h
  obtain ⟨body, hbody, h⟩ := bind_eq_ok.1 h
  obtain ⟨literals, hliterals, h⟩ := bind_eq_ok.1 h
  obtain rfl := Except.ok.inj h
  exact ⟨head, body, literals, hhead, hbody, hliterals, rfl, rfl⟩

theorem valueDecl_ok {keyword : ValueKeyword} {d : Parsed Decl (ts.length + 1)}
    (h : r.valueDecl keyword ts = .ok d) :
    ∃ tokens literals, r.valueTokens ts = .ok tokens ∧
      r.scanLiterals {} tokens.value = .ok literals ∧ d.value = .value keyword literals ∧
      d.rest = tokens.rest := by
  obtain ⟨tokens, htokens, h⟩ := bind_eq_ok.1 h
  obtain ⟨literals, hliterals, h⟩ := bind_eq_ok.1 h
  obtain rfl := Except.ok.inj h
  exact ⟨tokens, literals, htokens, hliterals, rfl, rfl⟩

/-- **What a declaration starts with**, if it can be read. -/
theorem declaration_ok {d : Parsed Decl (ts.length + 1)}
    (h : r.declaration seenOther t ts = .ok d) :
    (t.kind = .keyword .importKw ∧ seenOther = false ∧ r.importDecl ts = .ok d) ∨
      (t.kind = .keyword .funcKw ∧ r.funcDecl t ts = .ok d) ∨
      ∃ keyword : ValueKeyword, t.kind = .keyword keyword.keyword ∧
        r.valueDecl keyword ts = .ok d := by
  unfold declaration at h
  split at h
  · rename_i ht
    split at h
    · cases h
    · rename_i hseen
      exact Or.inl ⟨ht, by simpa using hseen, h⟩
  · rename_i ht
    exact Or.inr (Or.inl ⟨ht, h⟩)
  · rename_i ht
    exact Or.inr (Or.inr ⟨.var, ht, h⟩)
  · rename_i ht
    exact Or.inr (Or.inr ⟨.const, ht, h⟩)
  · rename_i ht
    exact Or.inr (Or.inr ⟨.type, ht, h⟩)
  · cases h

/-- A declaration brings imports if and only if it starts with the keyword for them, and then no
other has been seen. -/
theorem declaration_isImport {d : Parsed Decl (ts.length + 1)}
    (h : r.declaration seenOther t ts = .ok d) :
    d.value.isImport = (t.kind == .keyword .importKw) ∧
      (seenOther = true → d.value.isImport = false) := by
  rcases declaration_ok h with ⟨ht, rfl, himport⟩ | ⟨ht, h⟩ | ⟨keyword, ht, h⟩
  · refine ⟨?_, nofun⟩
    rw [importDecl_isImport himport, ht]
    rfl
  · obtain ⟨head, body, literals, -, -, -, hvalue, -⟩ := funcDecl_ok h
    rw [hvalue, ht]
    exact ⟨rfl, fun _ => rfl⟩
  · obtain ⟨tokens, literals, -, -, hvalue, -⟩ := valueDecl_ok h
    rw [hvalue, ht]
    cases keyword <;> exact ⟨rfl, fun _ => rfl⟩

/-! ### All declarations -/

/-- **What is left of a list of declarations** after a terminator, or after a declaration and its
end. -/
theorem declarations_cons {decls : List Decl}
    (h : r.declarations seenOther (t :: ts) = .ok decls) :
    (t.kind = .semicolon ∧ r.declarations seenOther ts = .ok decls) ∨
      ∃ d next decls', t.kind ≠ .semicolon ∧ r.declaration seenOther t ts = .ok d ∧
        r.endDeclaration d.rest = .ok next ∧
        r.declarations (seenOther || t.kind != .keyword .importKw) next.rest = .ok decls' ∧
        decls = d.value :: decls' := by
  rw [declarations] at h
  split at h
  · exact Or.inl ⟨‹_›, h⟩
  · obtain ⟨d, hd, h⟩ := bind_eq_ok.1 h
    obtain ⟨next, hnext, h⟩ := bind_eq_ok.1 h
    obtain ⟨decls', hdecls', h⟩ := bind_eq_ok.1 h
    exact Or.inr ⟨d, next, decls', ‹_›, hd, hnext, hdecls', (Except.ok.inj h).symm⟩

/-- Imports come first, and once another declaration was seen there are none. -/
theorem declarations_importsFirst : ∀ {decls : List Decl},
    r.declarations seenOther ts = .ok decls →
    ∃ front back, decls = front ++ back ∧ (∀ d ∈ front, d.isImport = true) ∧
      (∀ d ∈ back, d.isImport = false) ∧ (seenOther = true → front = []) := by
  induction seenOther, ts using declarations.induct with
  | case1 seenOther =>
    intro decls h
    rw [declarations] at h
    obtain rfl := Except.ok.inj h
    exact ⟨[], [], rfl, nofun, nofun, fun _ => rfl⟩
  | case2 seenOther t ts ht ih =>
    intro decls h
    rcases declarations_cons h with ⟨-, h⟩ | ⟨-, -, -, hne, -⟩
    · exact ih h
    · exact absurd ht hne
  | case3 seenOther t ts ht ih =>
    intro decls h
    rcases declarations_cons h with ⟨ht', -⟩ | ⟨d, next, decls', -, hd, -, hdecls', rfl⟩
    · exact absurd ht' ht
    obtain ⟨front, back, rfl, hfront, hback, hseen⟩ := ih d next hdecls'
    obtain ⟨hkind, hother⟩ := declaration_isImport hd
    cases himport : d.value.isImport with
    | true =>
      refine ⟨d.value :: front, back, rfl, ?_, hback, fun hseen => ?_⟩
      · simpa [himport] using hfront
      · exact absurd himport (by rw [hother hseen]; nofun)
    | false =>
      have hne : (t.kind != .keyword .importKw) = true := by
        rw [bne, ← hkind, himport]
        rfl
      obtain rfl := hseen (by rw [hne, Bool.or_true])
      refine ⟨[], d.value :: back, rfl, nofun, ?_, fun _ => rfl⟩
      simpa [himport] using hback

/-! ### Code -/

/-- What a search for the terminator does with the token at the front. -/
theorem skipToTerminator_cons (h : r.skipToTerminator (t :: ts) = .ok rest) :
    (t.kind = .semicolon ∧ rest = t :: ts) ∨
      (∃ b body after, t.kind = .opening b ∧ r.group b ts = .ok (body, after) ∧
        r.skipToTerminator after = .ok rest) ∨
      (t.kind ≠ .semicolon ∧ (∀ b, t.kind ≠ .opening b) ∧ r.skipToTerminator ts = .ok rest) := by
  rw [skipToTerminator] at h
  split at h
  · rename_i ht
    exact Or.inl ⟨ht, (Except.ok.inj h).symm⟩
  · rename_i b ht
    split at h
    · cases h
    · rename_i body after hgroup
      exact Or.inr (Or.inl ⟨b, body, after, ht, hgroup, h⟩)
  · rename_i hne hopen
    exact Or.inr (Or.inr ⟨hne, hopen, h⟩)

/-- The tokens from the terminator on are what a search for it finds. -/
theorem skipToTerminator_ok {ts rest : List Token} (h : r.skipToTerminator ts = .ok rest) :
    rest = (spanTop .semicolon 0 ts).2 := by
  match ts, h with
  | [], h =>
    rw [skipToTerminator] at h
    exact (Except.ok.inj h).symm
  | t :: ts, h =>
    rcases skipToTerminator_cons h with
      ⟨ht, rfl⟩ | ⟨b, body, after, ht, hgroup, hnext⟩ | ⟨hne, hopen, hnext⟩
    · rw [spanTop_stop ht]
    · rw [spanTop_group ht (by simp [ht]) hgroup]
      exact skipToTerminator_ok hnext
    · have hdepth : t.depthAfter 0 = 0 := by
        rcases t.bracket_cases with ⟨b, ht⟩ | ⟨b, ht⟩ | ht
        · exact absurd ht (hopen b)
        · simp only [Token.depthAfter, ht]
        · exact Token.depthAfter_plain ht
      rw [spanTop_pass fun hat => hne hat.2, hdepth]
      exact skipToTerminator_ok hnext
termination_by ts.length
decreasing_by
  · have := r.group_length hgroup
    simp only [List.length_cons]
    omega
  · simp

/-- **The code of a list of declarations**: the body of a function, or what a declaration of
variables, constants or types is made of, in parentheses or up to the terminator. -/
inductive Code (r : Reading) : List Token → List Token → Prop
  | body {t : Token} {ts inside code rest : List Token} {head : Parsed FuncDecl (ts.length + 1)} :
      t.kind = .keyword .funcKw → r.funcHead t ts = .ok head →
      afterOpening? .brace head.rest = some inside → r.group .brace inside = .ok (code, rest) →
      Code r (t :: ts) code
  | grouped {t : Token} {keyword : ValueKeyword} {ts inside code rest : List Token} :
      t.kind = .keyword keyword.keyword → afterOpening? .paren ts = some inside →
      r.group .paren inside = .ok (code, rest) → Code r (t :: ts) code
  | single {t : Token} {keyword : ValueKeyword} {ts : List Token} :
      t.kind = .keyword keyword.keyword → afterOpening? .paren ts = none →
      Code r (t :: ts) (spanTop .semicolon 0 ts).1
  | terminator {t : Token} {ts code : List Token} :
      t.kind = .semicolon → Code r ts code → Code r (t :: ts) code
  | next {t : Token} {ts code : List Token} {d : Parsed Decl (ts.length + 1)}
      {next : Parsed Unit (d.rest.length + 1)} :
      r.declaration false t ts = .ok d → r.endDeclaration d.rest = .ok next →
      Code r next.rest code → Code r (t :: ts) code

/-- A declaration of variables, constants or types is made of the group at the front, or of what
stands before the terminator. -/
theorem valueTokens_ok {tokens : Parsed (List Token) (ts.length + 1)}
    (h : r.valueTokens ts = .ok tokens) :
    (∃ inside, afterOpening? .paren ts = some inside ∧
      r.group .paren inside = .ok (tokens.value, tokens.rest)) ∨
      (afterOpening? .paren ts = none ∧ r.skipToTerminator ts = .ok tokens.rest ∧
        tokens.value = (spanTop .semicolon 0 ts).1) := by
  obtain ⟨grouped, hgrouped, h⟩ := bind_eq_ok.1 h
  rcases optionalGroup_ok hgrouped with ⟨hopen, hvalue, -⟩ | ⟨inside, body, hopen, hgroup, hvalue⟩
  · simp only [hvalue] at h
    split at h
    · cases h
    rename_i after hskip
    obtain rfl := Except.ok.inj h
    refine Or.inr ⟨hopen, hskip, ?_⟩
    have happend := spanTop_append .semicolon 0 ts
    rw [← skipToTerminator_ok hskip] at happend
    have hlength := congrArg List.length happend
    rw [List.length_append] at hlength
    have htake : ts.length - after.length = (spanTop .semicolon 0 ts).1.length := by omega
    have hleft : ((spanTop .semicolon 0 ts).1 ++ after).take (spanTop .semicolon 0 ts).1.length =
        (spanTop .semicolon 0 ts).1 := List.take_left
    rw [happend, ← htake] at hleft
    exact hleft
  · simp only [hvalue] at h
    obtain rfl := Except.ok.inj h
    exact Or.inl ⟨inside, hopen, hgroup⟩

theorem valueTokens_grouped {inside : List Token} {tokens : Parsed (List Token) (ts.length + 1)}
    (hopen : afterOpening? .paren ts = some inside)
    (hgroup : r.group .paren inside = .ok (code, rest))
    (h : r.valueTokens ts = .ok tokens) : tokens.value = code := by
  rcases valueTokens_ok h with ⟨inside', hopen', hgroup'⟩ | ⟨hnone, -⟩
  · obtain rfl := Option.some.inj (hopen.symm.trans hopen')
    exact (Prod.mk.inj (Except.ok.inj (hgroup'.symm.trans hgroup))).1
  · cases hopen.symm.trans hnone

theorem valueTokens_single {tokens : Parsed (List Token) (ts.length + 1)}
    (hopen : afterOpening? .paren ts = none) (h : r.valueTokens ts = .ok tokens) :
    tokens.value = (spanTop .semicolon 0 ts).1 := by
  rcases valueTokens_ok h with ⟨inside, hsome, -⟩ | ⟨-, -, hvalue⟩
  · cases hopen.symm.trans hsome
  · exact hvalue

/-- A declaration of variables, constants or types is among those read. -/
theorem exists_valueDecl {keyword : ValueKeyword} {decls : List Decl}
    (ht : t.kind = .keyword keyword.keyword)
    (h : r.declarations seenOther (t :: ts) = .ok decls) :
    ∃ d ∈ decls, ∃ tokens, r.valueTokens ts = .ok tokens ∧
      r.scanLiterals {} tokens.value = .ok d.literals := by
  rcases declarations_cons h with ⟨ht', -⟩ | ⟨d, next, decls', -, hd, -, -, rfl⟩
  · cases ht.symm.trans ht'
  rcases declaration_ok hd with ⟨ht', -⟩ | ⟨ht', -⟩ | ⟨keyword', -, hvalue⟩
  · cases keyword <;> cases ht.symm.trans ht'
  · cases keyword <;> cases ht.symm.trans ht'
  · obtain ⟨tokens, literals, htokens, hliterals, heq, -⟩ := valueDecl_ok hvalue
    exact ⟨d.value, List.mem_cons_self, tokens, htokens, by rw [heq]; exact hliterals⟩

/-- A declaration is the same whether or not others have been seen. -/
theorem declaration_unseen {d : Parsed Decl (ts.length + 1)}
    (h : r.declaration seenOther t ts = .ok d) : r.declaration false t ts = .ok d := by
  rcases declaration_ok h with ⟨-, rfl, -⟩ | ⟨ht, hfunc⟩ | ⟨keyword, ht, hvalue⟩
  · exact h
  · rw [declaration]
    simp only [ht]
    exact hfunc
  · rw [declaration]
    cases keyword <;> simp only [ht, ValueKeyword.keyword] <;> exact hvalue

/-- **Code is scanned for literals as a whole.** -/
theorem exists_decl (hcode : r.Code ts code) : ∀ {seenOther : Bool} {decls : List Decl},
    r.declarations seenOther ts = .ok decls →
    ∃ d ∈ decls, r.scanLiterals {} code = .ok d.literals := by
  induction hcode with
  | @body t ts inside code rest head ht hhead hopen hgroup =>
    intro seenOther decls h
    rcases declarations_cons h with ⟨ht', -⟩ | ⟨d, next, decls', -, hd, -, -, rfl⟩
    · cases ht.symm.trans ht'
    rcases declaration_ok hd with ⟨ht', -⟩ | ⟨-, hfunc⟩ | ⟨keyword, ht', -⟩
    · cases ht.symm.trans ht'
    · obtain ⟨head', body, literals, hhead', hbody, hliterals, hvalue, -⟩ := funcDecl_ok hfunc
      obtain rfl := Except.ok.inj (hhead.symm.trans hhead')
      obtain rfl := Except.ok.inj ((optionalGroup_some hopen hgroup).symm.trans hbody)
      exact ⟨d.value, List.mem_cons_self, by rw [hvalue]; exact hliterals⟩
    · cases keyword <;> cases ht.symm.trans ht'
  | @grouped t keyword ts inside code rest ht hopen hgroup =>
    intro seenOther decls h
    obtain ⟨d, hmem, tokens, htokens, hscan⟩ := exists_valueDecl ht h
    obtain rfl := valueTokens_grouped hopen hgroup htokens
    exact ⟨d, hmem, hscan⟩
  | @single t keyword ts ht hopen =>
    intro seenOther decls h
    obtain ⟨d, hmem, tokens, htokens, hscan⟩ := exists_valueDecl ht h
    rw [valueTokens_single hopen htokens] at hscan
    exact ⟨d, hmem, hscan⟩
  | terminator ht _ ih =>
    intro seenOther decls h
    rcases declarations_cons h with ⟨-, h⟩ | ⟨d, next, decls', hne, -⟩
    · exact ih h
    · exact absurd ht hne
  | @next t ts code d next hd hnext _ ih =>
    intro seenOther decls h
    rcases declarations_cons h with ⟨ht, -⟩ | ⟨d', next', decls', -, hd', hnext', hdecls', rfl⟩
    · rw [declaration] at hd
      simp only [ht] at hd
      cases hd
    · obtain rfl := Except.ok.inj (hd.symm.trans (declaration_unseen hd'))
      obtain rfl := Except.ok.inj (hnext.symm.trans hnext')
      obtain ⟨d', hmem, hscan⟩ := ih hdecls'
      exact ⟨d', List.mem_cons_of_mem _ hmem, hscan⟩

end Reading

/-- **What a source file is made of**: the package clause, and the declarations after it. -/
theorem SourceFile.parse_ok {source : Source} {file : SourceFile}
    (h : SourceFile.parse source = .ok file) :
    ∃ name rest, (source.reading (tokenize source.content)).packageClause
        (tokenize source.content).tokens.dropLast = .ok (name, rest) ∧
      (source.reading (tokenize source.content)).declarations false rest = .ok file.decls := by
  dsimp only [SourceFile.parse] at h
  split at h
  · cases h
  obtain ⟨⟨name, rest⟩, hclause, h⟩ := bind_eq_ok.1 h
  obtain ⟨decls, hdecls, h⟩ := bind_eq_ok.1 h
  obtain rfl := Except.ok.inj h
  exact ⟨name, rest, hclause, hdecls⟩

/-- **Imports stand before all other declarations.** -/
theorem SourceFile.exists_importsFirst {source : Source} {file : SourceFile}
    (h : SourceFile.parse source = .ok file) :
    ∃ front back, file.decls = front ++ back ∧ (∀ d ∈ front, d.isImport = true) ∧
      ∀ d ∈ back, d.isImport = false := by
  obtain ⟨name, rest, -, hdecls⟩ := parse_ok h
  obtain ⟨front, back, heq, hfront, hback, -⟩ :=
    Reading.declarations_importsFirst hdecls
  exact ⟨front, back, heq, hfront, hback⟩

end BuildOrder
