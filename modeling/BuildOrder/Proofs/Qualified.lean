import BuildOrder.Proofs.Declarations
import BuildOrder.Proofs.LiteralScan

/-!
# Literals of qualified types are found

* `Reading.QualifiedLiteral`: a literal in code whose type has a qualifier, with no signature before
  it that reaches past it, and in no header of a statement.
* `Reading.QualifiedLiteral.Within.split`: a separator stands before such a literal or after it.
* `Reading.QualifiedLiteral.Follows`: a scan is on its way to the literal; each of its steps keeps
  to that, or enters a group that has the literal in it.
* `Reading.QualifiedLiteral.finds`: **a scan that is on its way to the literal finds it.**
* `SourceFile.qualified_found`: **every such literal of a source file is among its literals**, at
  its place and with its type.
-/

namespace BuildOrder

/-- A name after the tokens is selected from what they end with: a point, or an index or type in
square brackets. -/
def Selects (ts : List Token) : Prop :=
  ∃ t ∈ ts.getLast?, t.kind = .period ∨ t.kind = .closing .square

instance (ts : List Token) : Decidable (Selects ts) :=
  decidable_of_iff (ts.getLast?.any fun t => t.kind = .period ∨ t.kind = .closing .square) <| by
    rw [Selects, Option.any_eq_true]
    simp

/-- The token may be part of a qualified type or the brace after it. -/
def Token.InLiteralType (t : Token) : Prop :=
  t.kind = .identifier ∨ t.kind = .period ∨ t.kind = .opening .brace

/-- A separator is not. -/
theorem Token.not_inLiteralType {t : Token} {kind : TokenKind} (ht : t.kind = kind)
    (hkind : kind ≠ .identifier ∧ kind ≠ .period ∧ kind ≠ .opening .brace) :
    ¬ t.InLiteralType := by
  rw [InLiteralType, ht]
  rintro (h | h | h)
  · exact hkind.1 h
  · exact hkind.2.1 h
  · exact hkind.2.2 h

namespace Reading

variable {r : Reading} {s : LiteralScan} {t : Token} {ts after : List Token}

/-! ### A literal in code -/

/-- A literal in code whose type has a qualifier: the tokens of the type and the brace after it,
where the name of the package is not selected from anything and nothing before it hides it. -/
structure QualifiedLiteral (r : Reading) (code : List Token) where
  before : List Token
  qualifier : Token
  point : Token
  name : Token
  brace : Token
  after : List Token
  eq : code = before ++ qualifier :: point :: name :: brace :: after
  qualifier_kind : qualifier.kind = .identifier
  point_kind : point.kind = .period
  name_kind : name.kind = .identifier
  brace_kind : brace.kind = .opening .brace
  free : ¬ Selects before
  visible : r.Visible before (qualifier :: point :: name :: brace :: after)

namespace QualifiedLiteral

variable {code : List Token} (p : r.QualifiedLiteral code)

/-- The tokens from the literal on. -/
def here : List Token := p.qualifier :: p.point :: p.name :: p.brace :: p.after

/-- The type that is written. -/
def type : LiteralType := ⟨p.qualifier.lexeme, p.name.lexeme⟩

/-- The literal is in the forest, at its place and with its type. -/
def Found (lits : List CompositeLit) : Prop :=
  ∃ lit ∈ CompositeLit.preorderAll lits,
    lit.location = r.locate p.qualifier ∧ lit.type = p.type

variable {p} {lits more : List CompositeLit} {sofar front back tail inside body rest : List Token}
  {b : Bracket}

theorem Found.append_left (h : p.Found lits) : p.Found (lits ++ more) := by
  obtain ⟨lit, hmem, hlit⟩ := h
  rw [Found, CompositeLit.preorderAll_append]
  exact ⟨lit, List.mem_append_left _ hmem, hlit⟩

theorem Found.append_right (h : p.Found more) : p.Found (lits ++ more) := by
  obtain ⟨lit, hmem, hlit⟩ := h
  rw [Found, CompositeLit.preorderAll_append]
  exact ⟨lit, List.mem_append_right _ hmem, hlit⟩

theorem Found.cons {lit : CompositeLit} (h : p.Found more) : p.Found (lit :: more) := by
  have h : p.Found ([lit] ++ more) := h.append_right
  exact h

/-- The literal is the first of the forest. -/
theorem Found.self {elements : List (LiteralElement CompositeLit)} :
    p.Found (.mk p.type (r.locate p.qualifier) elements :: more) := by
  refine ⟨.mk p.type (r.locate p.qualifier) elements, ?_, rfl, rfl⟩
  rw [CompositeLit.preorderAll, CompositeLit.preorder, List.cons_append]
  exact List.mem_cons_self

/-- The literal is inside another one. -/
theorem Found.nested {type : LiteralType} {location : Location}
    {elements : List (LiteralElement CompositeLit)}
    (h : ∃ e ∈ elements, p.Found e.nested) : p.Found (.mk type location elements :: more) := by
  obtain ⟨e, he, lit, hmem, hlit⟩ := h
  refine ⟨lit, ?_, hlit⟩
  rw [CompositeLit.preorderAll, CompositeLit.preorder, List.cons_append]
  exact List.mem_cons_of_mem _ (List.mem_append_left _
    (CompositeLit.mem_preorderElements.2 ⟨e, he, hmem⟩))

/-! ### Where the literal is -/

/-- The literal is within the tokens `ts` of the code, which follow the tokens `sofar` and are
followed by `tail`. -/
structure Within (p : r.QualifiedLiteral code) (sofar ts tail : List Token) : Prop where
  eq : sofar ++ (ts ++ tail) = code
  le : sofar.length ≤ p.before.length
  lt : p.before.length + 4 ≤ sofar.length + ts.length

theorem code_eq : p.before ++ p.here = code := p.eq.symm

theorem within : p.Within [] code [] where
  eq := by simp
  le := Nat.zero_le _
  lt := by
    have := congrArg List.length p.eq
    simp only [List.length_append, List.length_cons] at this
    simp only [List.length_nil]
    omega

namespace Within

/-- What stands between the tokens so far and the literal. -/
theorem exists_between (h : p.Within sofar ts tail) :
    ∃ mid, p.before = sofar ++ mid ∧ ts ++ tail = mid ++ p.here := by
  have heq := h.eq.trans (code_eq (p := p)).symm
  rcases List.append_eq_append_iff.1 heq with ⟨mid, hbefore, hts⟩ | ⟨mid, rfl, hhere⟩
  · exact ⟨mid, hbefore, hts⟩
  · have hle := h.le
    rw [List.length_append] at hle
    obtain rfl : mid = [] := List.eq_nil_of_length_eq_zero (by omega)
    exact ⟨[], by simp, hhere.symm⟩

/-- The literal starts with the token at the front, or it comes after it. -/
theorem cases (h : p.Within sofar (t :: ts) tail) :
    (sofar = p.before ∧ t = p.qualifier ∧ ∃ inside, ts = p.point :: p.name :: p.brace :: inside) ∨
      (p.Within (sofar ++ [t]) ts tail ∧
        ∃ mid, p.before = sofar ++ t :: mid ∧ ts ++ tail = mid ++ p.here) := by
  obtain ⟨mid, hbefore, hts⟩ := h.exists_between
  have hlt := h.lt
  rw [hbefore, List.length_append, List.length_cons] at hlt
  cases mid with
  | nil =>
    obtain ⟨rfl, hrest⟩ := List.cons.inj hts
    refine Or.inl ⟨by rw [hbefore, List.append_nil], rfl, ?_⟩
    -- The other three tokens are not of the tail.
    obtain ⟨b, c, d, inside, rfl⟩ : ∃ b c d inside, ts = b :: c :: d :: inside := by
      match ts, hlt with
      | b :: c :: d :: inside, _ => exact ⟨b, c, d, inside, rfl⟩
      | [], hlt | [_], hlt | [_, _], hlt =>
        simp only [List.length_cons, List.length_nil] at hlt
        omega
    obtain ⟨rfl, hname⟩ := List.cons.inj hrest
    obtain ⟨rfl, hbrace⟩ := List.cons.inj hname
    obtain ⟨rfl, -⟩ := List.cons.inj hbrace
    exact ⟨inside, rfl⟩
  | cons u mid =>
    obtain ⟨rfl, hrest⟩ := List.cons.inj hts
    refine Or.inr ⟨⟨?_, ?_, ?_⟩, mid, hbefore, hrest⟩
    · simpa using h.eq
    · rw [hbefore, List.length_append, List.length_append]
      simp
    · rw [hbefore, List.length_append, List.length_append]
      simp only [List.length_cons, List.length_nil] at hlt ⊢
      omega

/-- A token that is no name is passed. -/
theorem cons (h : p.Within sofar (t :: ts) tail) (ht : t.kind ≠ .identifier) :
    p.Within (sofar ++ [t]) ts tail := by
  rcases h.cases with ⟨-, rfl, -⟩ | ⟨h, -⟩
  · exact absurd p.qualifier_kind ht
  · exact h

/-- There is a name. -/
theorem exists_identifier (h : p.Within sofar ts tail) : ∃ t ∈ ts, t.kind = .identifier := by
  induction ts generalizing sofar with
  | nil =>
    have hle := h.le
    have hlt := h.lt
    rw [List.length_nil] at hlt
    omega
  | cons t ts ih =>
    rcases h.cases with ⟨-, rfl, -⟩ | ⟨h, -⟩
    · exact ⟨p.qualifier, List.mem_cons_self, p.qualifier_kind⟩
    · obtain ⟨u, hu, hkind⟩ := ih h
      exact ⟨u, List.mem_cons_of_mem _ hu, hkind⟩

/-- **A token that is not of a literal's type separates the code**: the literal is before it, or
after it. -/
theorem split (h : p.Within sofar (front ++ t :: back) tail) (ht : ¬ t.InLiteralType) :
    p.Within sofar front (t :: back ++ tail) ∨ p.Within (sofar ++ front ++ [t]) back tail := by
  induction front generalizing sofar with
  | nil =>
    rw [List.append_nil]
    exact Or.inr (h.cons fun hkind => ht (Or.inl hkind))
  | cons u front ih =>
    rcases h.cases with ⟨rfl, rfl, inside, hts⟩ | ⟨hnext, -⟩
    · -- The tokens of the type and the brace stand before `t`.
      left
      refine ⟨?_, Nat.le_refl _, ?_⟩
      · simpa using h.eq
      · match front, hts with
        | [], hts =>
          obtain ⟨rfl, -⟩ := List.cons.inj hts
          exact absurd (Or.inr (Or.inl p.point_kind)) ht
        | [_], hts =>
          obtain ⟨rfl, -⟩ := List.cons.inj (List.cons.inj hts).2
          exact absurd (Or.inl p.name_kind) ht
        | [_, _], hts =>
          obtain ⟨rfl, -⟩ := List.cons.inj (List.cons.inj (List.cons.inj hts).2).2
          exact absurd (Or.inr (Or.inr p.brace_kind)) ht
        | _ :: _ :: _ :: _, _ =>
          simp only [List.length_cons]
          omega
    · rcases ih hnext with hfront | hback
      · left
        refine ⟨by simpa using h.eq, h.le, ?_⟩
        have hlt := hfront.lt
        simp only [List.length_append, List.length_cons, List.length_nil] at hlt ⊢
        omega
      · right
        simpa using hback

/-- Tokens none of which is a name are passed. -/
theorem append (h : p.Within sofar (front ++ back) tail)
    (hfront : ∀ t ∈ front, t.kind ≠ .identifier) : p.Within (sofar ++ front) back tail := by
  induction front generalizing sofar with
  | nil => simpa using h
  | cons t front ih =>
    have hnext := ih (h.cons (hfront t List.mem_cons_self)) fun u hu =>
      hfront u (List.mem_cons_of_mem _ hu)
    simpa using hnext

/-- Terminators at both ends are passed. -/
theorem trim (h : p.Within sofar ts tail) :
    ∃ front back, p.Within (sofar ++ front) (trimTerminators ts) (back ++ tail) := by
  obtain ⟨front, back, hts, hfront, hback⟩ := exists_trimTerminators ts
  rw [hts] at h
  have h := h.append fun t ht => by
    rw [hfront t ht]
    nofun
  refine ⟨front, back, ?_⟩
  cases back with
  | nil => simpa using h
  | cons t back =>
    have ht : t.kind = .semicolon := hback t List.mem_cons_self
    rcases h.split (Token.not_inLiteralType ht (by simp)) with h | h
    · exact h
    · obtain ⟨u, hu, hkind⟩ := h.exists_identifier
      cases (hback u (List.mem_cons_of_mem _ hu)).symm.trans hkind

/-- The literal is in a group, or after it. -/
theorem group (h : p.Within sofar inside tail) (hgroup : r.group b inside = .ok (body, rest)) :
    ∃ c, inside = body ++ c :: rest ∧
      (p.Within sofar body (c :: rest ++ tail) ∨ p.Within (sofar ++ body ++ [c]) rest tail) := by
  obtain ⟨c, hc, rfl⟩ := group_split hgroup
  exact ⟨c, rfl, h.split (Token.not_inLiteralType hc (by simp))⟩

/-- The literal is in the first element of a list of them, or in the others. -/
theorem element (h : p.Within sofar ts tail) :
    (∃ sofar' tail', p.Within sofar' (trimTerminators (spanTop .comma 0 ts).1) tail') ∨
      ∃ sofar', p.Within sofar' (spanTop .comma 0 ts).2.tail tail := by
  rw [← spanTop_append .comma 0 ts] at h
  cases hrest : (spanTop .comma 0 ts).2 with
  | nil =>
    rw [hrest, List.append_nil] at h
    obtain ⟨front, back, h⟩ := h.trim
    exact Or.inl ⟨_, _, h⟩
  | cons comma others =>
    rw [hrest] at h
    have hkind := spanTop_snd_eq_cons hrest
    rcases h.split (Token.not_inLiteralType hkind (by simp)) with h | h
    · obtain ⟨front, back, h⟩ := h.trim
      exact Or.inl ⟨_, _, h⟩
    · exact Or.inr ⟨_, h⟩

/-- **No signature reaches past the literal.** -/
theorem signature (h : p.Within sofar (t :: ts) tail) (ht : t.kind = .keyword .funcKw)
    (hskip : r.skipSignature ts = .ok after) :
    ∃ passed, ts = passed ++ after ∧ p.Within (sofar ++ t :: passed) after tail ∧
      r.Skips .signature (ts ++ tail) (after ++ tail) := by
  rcases h.cases with ⟨-, rfl, -⟩ | ⟨hnext, mid, hbefore, hmid⟩
  · cases ht.symm.trans p.qualifier_kind
  obtain ⟨last, hskips, hle⟩ := p.visible.signature sofar t mid hbefore ht
  have hskips : r.Skips .signature (ts ++ tail) last := hmid ▸ hskips
  have hle : p.here.length ≤ last.length := hle
  have hlength := congrArg List.length hmid
  have hbound := hnext.lt
  rw [hbefore] at hbound
  simp only [List.length_append, List.length_cons, List.length_nil] at hlength hbound
  -- The signature ends within the tokens, so that it is one without the tail.
  obtain ⟨last', rfl, hshort⟩ := hskips.of_append rfl (by omega)
  obtain rfl : last' = after := by
    have heq : Except.ok last' = Except.ok after := (skip_of_skips hshort).symm.trans hskip
    exact Except.ok.inj heq
  obtain ⟨passed, rfl⟩ := hshort.suffix
  refine ⟨passed, rfl, ⟨by simpa using h.eq, ?_, ?_⟩, hskips⟩
  · rw [hbefore]
    simp only [List.length_append, List.length_cons] at hlength hle ⊢
    omega
  · rw [hbefore]
    simp only [List.length_append, List.length_cons] at hbound ⊢
    omega

end Within

/-! ### What a scan finds -/

/-- A scan has come as far as the tokens `sofar`, and the literal is yet to come. -/
structure Follows (p : r.QualifiedLiteral code) (s : LiteralScan) (sofar ts tail : List Token) :
    Prop where
  within : p.Within sofar ts tail
  tracks : r.Tracks s sofar (ts ++ tail)
  selects : s.selected = true → Selects sofar

namespace Follows

/-- A scan that starts anew. -/
theorem start (h : p.Within sofar ts tail) : p.Follows {} sofar ts tail :=
  ⟨h, .start, nofun⟩

/-- A header that is open there would hide the literal, or never end. -/
theorem not_headerOpen (h : p.Follows s sofar (t :: ts) tail)
    (ht : (∃ b, t.kind = .closing b) ∨ t.OpensHeader) :
    ¬ r.HeaderOpen sofar (t :: ts ++ tail) 0 := by
  rcases h.within.cases with ⟨-, rfl, -⟩ | ⟨-, mid, hbefore, hmid⟩
  · rcases ht with ⟨b, ht⟩ | ht | ht | ht <;> cases ht.symm.trans p.qualifier_kind
  · rw [List.cons_append, hmid]
    exact p.visible.closed sofar t mid hbefore ht

theorem past (h : p.Follows s sofar (t :: ts) tail) (hnext : p.Within (sofar ++ [t]) ts tail)
    (ht : ¬ t.IsBracket) (hfunc : t.kind ≠ .keyword .funcKw) :
    p.Follows s.past (sofar ++ [t]) ts tail :=
  ⟨hnext, h.tracks.token ht hfunc, nofun⟩

/-- A name is passed. -/
theorem passName (h : p.Follows s sofar (t :: ts) tail) (hnext : p.Within (sofar ++ [t]) ts tail)
    (ht : t.kind = .identifier) : p.Follows s.past (sofar ++ [t]) ts tail :=
  h.past hnext (Token.not_isBracket ht (by simp)) (by rw [ht]; nofun)

/-- At the literal, the scan has met nothing that a name is selected from. -/
theorem selected_eq_false (h : p.Follows s p.before ts tail) : s.selected = false :=
  Bool.eq_false_iff.2 fun hselected => p.free (h.selects hselected)

theorem openHeader (h : p.Follows s sofar (t :: ts) tail) (ht : t.OpensHeader) :
    p.Follows s.openHeader (sofar ++ [t]) ts tail := by
  refine ⟨h.within.cons ?_, h.tracks.openHeader ht (h.not_headerOpen (Or.inr ht)), nofun⟩
  rcases ht with ht | ht | ht <;> rw [ht] <;> nofun

theorem openGroup (h : p.Follows s sofar (t :: ts) tail) (ht : t.kind = .opening b) :
    p.Follows (s.openGroup b) (sofar ++ [t]) ts tail :=
  ⟨h.within.cons (by rw [ht]; nofun), h.tracks.opening ht, nofun⟩

theorem closeGroup (h : p.Follows s sofar (t :: ts) tail) (ht : t.kind = .closing b) :
    p.Follows (s.closeGroup b) (sofar ++ [t]) ts tail := by
  refine ⟨h.within.cons (by rw [ht]; nofun),
    h.tracks.closing ht (h.not_headerOpen (Or.inl ⟨b, ht⟩)), fun hselected => ?_⟩
  obtain rfl : b = .square := by simpa [LiteralScan.closeGroup] using hselected
  exact ⟨t, by simp, Or.inr ht⟩

theorem period (h : p.Follows s sofar (t :: ts) tail) (ht : t.kind = .period) :
    p.Follows { s with selected := true } (sofar ++ [t]) ts tail := by
  have hplain : ¬ t.IsBracket := Token.not_isBracket ht (by simp)
  have htracks : r.Tracks s.past (sofar ++ [t]) (ts ++ tail) :=
    h.tracks.token hplain (by rw [ht]; nofun)
  exact ⟨h.within.cons (by rw [ht]; nofun), ⟨htracks.decreasing, htracks.le, htracks.opened⟩,
    fun _ => ⟨t, by simp, Or.inl ht⟩⟩

/-- In a header, a name is passed: the literal is in none. -/
theorem name_inHeader (h : p.Follows s sofar (t :: ts) tail) (ht : t.kind = .identifier)
    (hin : s.inHeader = true) : p.Follows s.past (sofar ++ [t]) ts tail := by
  rcases h.within.cases with ⟨rfl, -⟩ | ⟨hnext, -⟩
  · have hopen := h.tracks.headerOpen hin
    have hhere : t :: ts ++ tail = p.here :=
      List.append_cancel_left (h.within.eq.trans code_eq.symm)
    rw [hhere] at hopen
    exact absurd hopen p.visible.header
  · exact h.passName hnext ht

/-- A name that starts no type of a literal is passed. -/
theorem name (h : p.Follows s sofar (t :: ts) tail) (ht : t.kind = .identifier)
    (htype : literalType? s.selected t ts = none) : p.Follows s.past (sofar ++ [t]) ts tail := by
  rcases h.within.cases with ⟨rfl, rfl, inside, rfl⟩ | ⟨hnext, -⟩
  · rw [h.selected_eq_false, literalType?_qualified p.point_kind p.name_kind p.brace_kind] at htype
    cases htype
  · exact h.passName hnext ht

/-- A signature is passed. -/
theorem signature (h : p.Follows s sofar (t :: ts) tail) (ht : t.kind = .keyword .funcKw)
    (hskip : r.skipSignature ts = .ok after) : ∃ sofar', p.Follows s.past sofar' after tail := by
  obtain ⟨passed, rfl, hwithin, hskips⟩ := h.within.signature ht hskip
  have htracks := h.tracks
  rw [List.append_assoc] at hskips
  rw [List.cons_append, List.append_assoc] at htracks
  exact ⟨sofar ++ t :: passed, hwithin, htracks.signature ht hskips, nofun⟩

/-- The literal is in the body of a function literal, or the body is passed. -/
theorem functionLiteral (h : p.Follows s sofar (t :: ts) tail) (ht : t.kind = .keyword .funcKw)
    (hskip : r.skipSignature ts = .ok after) (hopen : afterOpening? .brace after = some inside)
    (hgroup : r.group .brace inside = .ok (body, rest)) :
    (∃ sofar' tail', p.Within sofar' body tail') ∨ ∃ sofar', p.Follows s.past sofar' rest tail := by
  obtain ⟨passed, rfl, hwithin, hskips⟩ := h.within.signature ht hskip
  obtain ⟨brace, hbrace, rfl⟩ := afterOpening?_eq_some.1 hopen
  have hinside := hwithin.cons (by rw [hbrace]; nofun)
  obtain ⟨c, rfl, hbody | hrest⟩ := hinside.group hgroup
  · exact Or.inl ⟨_, _, hbody⟩
  · right
    have htracks := h.tracks
    have heq : passed ++ brace :: (body ++ c :: rest) ++ tail =
        (passed ++ brace :: (body ++ [c])) ++ (rest ++ tail) := by simp
    rw [heq] at hskips
    rw [List.cons_append, heq] at htracks
    exact ⟨sofar ++ t :: (passed ++ brace :: (body ++ [c])), by simpa using hrest,
      htracks.body ht hskips (afterOpening?_eq_some.2 ⟨brace, hbrace, rfl⟩) (group_append hgroup),
      nofun⟩

/-- The literal is between the braces of another one, or those are passed. -/
theorem group (h : p.Follows s sofar (t :: inside) tail) (hout : ¬ s.inHeader = true)
    (ht : t.kind = .opening .brace) (hgroup : r.group .brace inside = .ok (body, rest)) :
    (∃ sofar' tail', p.Within sofar' body tail') ∨ ∃ sofar', p.Follows s.past sofar' rest tail := by
  have hinside := h.within.cons (by rw [ht]; nofun)
  obtain ⟨c, rfl, hbody | hrest⟩ := hinside.group hgroup
  · exact Or.inl ⟨_, _, hbody⟩
  · right
    have htracks := h.tracks
    have hgroup : r.group .brace (body ++ c :: rest ++ tail) = .ok (body, rest ++ tail) :=
      group_append hgroup
    have heq : body ++ c :: rest ++ tail = (body ++ [c]) ++ (rest ++ tail) := by simp
    rw [heq] at hgroup
    rw [List.cons_append, heq] at htracks
    exact ⟨sofar ++ t :: (body ++ [c]), by simpa using hrest,
      htracks.group (Bool.eq_false_iff.2 hout) ht hgroup, nofun⟩

/-- **A literal is this one, or has it inside, or is passed.** -/
theorem literal {type : LiteralType} (h : p.Follows s sofar (t :: ts) tail)
    (ht : t.kind = .identifier) (hout : ¬ s.inHeader = true)
    (htype : literalType? s.selected t ts = some (type, inside))
    (hgroup : r.group .brace inside = .ok (body, rest)) :
    (t = p.qualifier ∧ type = p.type) ∨ (∃ sofar' tail', p.Within sofar' body tail') ∨
      ∃ sofar', p.Follows s.past sofar' rest tail := by
  rcases h.within.cases with ⟨rfl, rfl, after, rfl⟩ | ⟨hnext, -⟩
  · -- At its place the type is read as it is written.
    left
    rw [h.selected_eq_false, literalType?_qualified p.point_kind p.name_kind p.brace_kind] at htype
    exact ⟨rfl, (Prod.mk.inj (Option.some.inj htype)).1.symm⟩
  right
  have hpast := h.passName hnext ht
  rcases literalType?_eq_some htype with
    ⟨brace, hbrace, rfl⟩ | ⟨point, name, brace, hpoint, hname, hbrace, rfl⟩
  · exact hpast.group hout hbrace hgroup
  · have hpast := hpast.past (hpast.within.cons (by rw [hpoint]; nofun))
      (Token.not_isBracket hpoint (by simp)) (by rw [hpoint]; nofun)
    have hwithin : p.Within (sofar ++ [t] ++ [point] ++ [name]) (brace :: inside) tail := by
      rcases hpast.within.cases with ⟨-, -, after, heq⟩ | ⟨hwithin, -⟩
      · obtain ⟨rfl, -⟩ := List.cons.inj heq
        cases hbrace.symm.trans p.point_kind
      · exact hwithin
    exact (hpast.passName hwithin hname).group hout hbrace hgroup

end Follows

/-- A scan of the tokens finds the literal, wherever they stand in the code. -/
def ScanFinds (p : r.QualifiedLiteral code) (s : LiteralScan) (ts : List Token) : Prop :=
  ∀ sofar tail lits, p.Follows s sofar ts tail → r.scanLiterals s ts = .ok lits → p.Found lits

/-- So do the readers of the elements of a literal. -/
def ElementsFind (p : r.QualifiedLiteral code) (ts : List Token) : Prop :=
  ∀ sofar tail elements, p.Within sofar ts tail → r.literalElements ts = .ok elements →
    ∃ e ∈ elements, p.Found e.nested

/-- So does the reader of a key or a value. -/
def ElementFinds (p : r.QualifiedLiteral code) (ts : List Token) : Prop :=
  ∀ sofar tail lits, p.Within sofar ts tail → r.scanElement ts = .ok lits → p.Found lits

/-! ### One step of a scan -/

namespace ScanFinds

/-- At the end of the tokens no literal is yet to come. -/
theorem nil : p.ScanFinds s [] := by
  intro sofar tail lits h _
  obtain ⟨t, ht, -⟩ := h.within.exists_identifier
  cases ht

/-- Of a scan that fails nothing is asked. -/
theorem of_error {e : SyntaxError} (h : r.scanLiterals s ts = .error e) : p.ScanFinds s ts := by
  intro sofar tail lits _ hscan
  rw [h] at hscan
  cases hscan

/-- A step that passes tokens and keeps on the way to the literal. -/
theorem step {next : LiteralScan} (hstep : r.scanLiterals s ts = r.scanLiterals next rest)
    (hnext : ∀ sofar tail, p.Follows s sofar ts tail → ∃ sofar', p.Follows next sofar' rest tail)
    (ih : p.ScanFinds next rest) : p.ScanFinds s ts := by
  intro sofar tail lits h hscan
  obtain ⟨sofar', hfollows⟩ := hnext sofar tail h
  rw [hstep] at hscan
  exact ih _ _ _ hfollows hscan

theorem openHeader (ht : t.OpensHeader) (ih : p.ScanFinds s.openHeader ts) :
    p.ScanFinds s (t :: ts) :=
  step (scanLiterals_openHeader ht) (fun _ _ h => ⟨_, h.openHeader ht⟩) ih

/-- A function type, or a function whose body is elsewhere. -/
theorem signature (ht : t.kind = .keyword .funcKw) (hskip : r.skipSignature ts = .ok after)
    (hopen : afterOpening? .brace after = none) (ih : p.ScanFinds s.past after) :
    p.ScanFinds s (t :: ts) := by
  refine step ?_ (fun _ _ h => h.signature ht hskip) ih
  simp only [scanLiterals_func ht, hskip, ok_bind, hopen]

/-- A function literal: its body is scanned anew, and then what follows. -/
theorem functionLiteral (ht : t.kind = .keyword .funcKw) (hskip : r.skipSignature ts = .ok after)
    (hopen : afterOpening? .brace after = some inside)
    (hgroup : r.group .brace inside = .ok (body, rest)) (ihBody : p.ScanFinds {} body)
    (ihRest : p.ScanFinds s.past rest) : p.ScanFinds s (t :: ts) := by
  intro sofar tail lits h hscan
  simp only [scanLiterals_func ht, hskip, ok_bind, hopen, hgroup] at hscan
  obtain ⟨inner, hinner, hscan⟩ := bind_eq_ok.1 hscan
  obtain ⟨more, hmore, hscan⟩ := bind_eq_ok.1 hscan
  obtain rfl := Except.ok.inj hscan
  rcases h.functionLiteral ht hskip hopen hgroup with ⟨sofar', tail', hbody⟩ | ⟨sofar', hnext⟩
  · exact (ihBody _ _ _ (.start hbody) hinner).append_left
  · exact (ihRest _ _ _ hnext hmore).append_right

theorem openGroup (ht : t.kind = .opening b) (ih : p.ScanFinds (s.openGroup b) ts) :
    p.ScanFinds s (t :: ts) :=
  step (scanLiterals_opening ht) (fun _ _ h => ⟨_, h.openGroup ht⟩) ih

theorem closeGroup (ht : t.kind = .closing b) (ih : p.ScanFinds (s.closeGroup b) ts) :
    p.ScanFinds s (t :: ts) :=
  step (scanLiterals_closing ht) (fun _ _ h => ⟨_, h.closeGroup ht⟩) ih

theorem period (ht : t.kind = .period) (ih : p.ScanFinds { s with selected := true } ts) :
    p.ScanFinds s (t :: ts) :=
  step (scanLiterals_period ht) (fun _ _ h => ⟨_, h.period ht⟩) ih

theorem name_inHeader (ht : t.kind = .identifier) (hin : s.inHeader = true)
    (ih : p.ScanFinds s.past ts) : p.ScanFinds s (t :: ts) := by
  refine step ?_ (fun _ _ h => ⟨_, h.name_inHeader ht hin⟩) ih
  rw [scanLiterals_identifier ht, if_pos hin]

/-- A name that starts no type of a literal. -/
theorem name (ht : t.kind = .identifier) (hout : ¬ s.inHeader = true)
    (htype : literalType? s.selected t ts = none) (ih : p.ScanFinds s.past ts) :
    p.ScanFinds s (t :: ts) := by
  refine step ?_ (fun _ _ h => ⟨_, h.name ht htype⟩) ih
  simp only [scanLiterals_identifier ht, if_neg hout, htype]

/-- A literal: it is the one, or its elements are read, and then what follows. -/
theorem literal {type : LiteralType} (ht : t.kind = .identifier) (hout : ¬ s.inHeader = true)
    (htype : literalType? s.selected t ts = some (type, inside))
    (hgroup : r.group .brace inside = .ok (body, rest)) (ihBody : p.ElementsFind body)
    (ihRest : p.ScanFinds s.past rest) : p.ScanFinds s (t :: ts) := by
  intro sofar tail lits h hscan
  simp only [scanLiterals_identifier ht, if_neg hout, htype, hgroup, ok_bind] at hscan
  obtain ⟨elements, helements, hscan⟩ := bind_eq_ok.1 hscan
  obtain ⟨more, hmore, hscan⟩ := bind_eq_ok.1 hscan
  obtain rfl := Except.ok.inj hscan
  rcases h.literal ht hout htype hgroup with ⟨rfl, rfl⟩ | ⟨sofar', tail', hbody⟩ | ⟨sofar', hnext⟩
  · exact .self
  · exact .nested (ihBody _ _ _ hbody helements)
  · exact (ihRest _ _ _ hnext hmore).cons

/-- Any other token. -/
theorem token (hbracket : ¬ t.IsBracket) (hheader : ¬ t.OpensHeader)
    (hfunc : t.kind ≠ .keyword .funcKw) (hperiod : t.kind ≠ .period) (hname : t.kind ≠ .identifier)
    (ih : p.ScanFinds s.past ts) : p.ScanFinds s (t :: ts) := by
  refine step (scanLiterals_token hbracket hheader hfunc hperiod hname) (fun _ _ h => ?_) ih
  exact ⟨_, h.past (h.within.cons hname) hbracket hfunc⟩

end ScanFinds

/-! ### One element of a literal -/

namespace ElementsFind

theorem nil : p.ElementsFind [] := by
  intro sofar tail elements h _
  obtain ⟨t, ht, -⟩ := h.exists_identifier
  cases ht

/-- An element of no tokens is passed. -/
theorem blank (hblank : (trimTerminators (spanTop .comma 0 (t :: ts)).1).isEmpty = true)
    (ih : p.ElementsFind (spanTop .comma 0 (t :: ts)).2.tail) : p.ElementsFind (t :: ts) := by
  intro sofar tail elements h hscan
  rw [literalElements_blank hblank] at hscan
  rcases h.element with ⟨sofar', tail', hentry⟩ | ⟨sofar', hrest⟩
  · rw [List.isEmpty_iff.1 hblank] at hentry
    obtain ⟨u, hu, -⟩ := hentry.exists_identifier
    cases hu
  · exact ih _ _ _ hrest hscan

/-- An element without a key: the literal is in its value, or after it. -/
theorem unkeyed {value : List Token}
    (hentry : ¬ (trimTerminators (spanTop .comma 0 (t :: ts)).1).isEmpty = true)
    (hcolon : spanTop .colon 0 (trimTerminators (spanTop .comma 0 (t :: ts)).1) = (value, []))
    (ihValue : p.ElementFinds value) (ihRest : p.ElementsFind (spanTop .comma 0 (t :: ts)).2.tail) :
    p.ElementsFind (t :: ts) := by
  intro sofar tail elements h hscan
  rw [literalElements_unkeyed hentry hcolon] at hscan
  obtain ⟨nested, hnested, hscan⟩ := bind_eq_ok.1 hscan
  obtain ⟨more, hmore, hscan⟩ := bind_eq_ok.1 hscan
  obtain rfl := Except.ok.inj hscan
  rcases h.element with ⟨sofar', tail', hentry⟩ | ⟨sofar', hrest⟩
  · have hvalue : value = trimTerminators (spanTop .comma 0 (t :: ts)).1 := by
      have happend := spanTop_append .colon 0 (trimTerminators (spanTop .comma 0 (t :: ts)).1)
      rwa [hcolon, List.append_nil] at happend
    rw [← hvalue] at hentry
    exact ⟨_, List.mem_cons_self, ihValue _ _ _ hentry hnested⟩
  · obtain ⟨el, hmem, hfound⟩ := ihRest _ _ _ hrest hmore
    exact ⟨el, List.mem_cons_of_mem _ hmem, hfound⟩

/-- An element with a key: the colon is no part of the literal, so that it is in the key, in the
value, or after both. -/
theorem keyed {key value : List Token} {colon : Token}
    (hentry : ¬ (trimTerminators (spanTop .comma 0 (t :: ts)).1).isEmpty = true)
    (hcolon : spanTop .colon 0 (trimTerminators (spanTop .comma 0 (t :: ts)).1) =
      (key, colon :: value))
    (ihKey : p.ElementFinds key) (ihValue : p.ElementFinds value)
    (ihRest : p.ElementsFind (spanTop .comma 0 (t :: ts)).2.tail) : p.ElementsFind (t :: ts) := by
  intro sofar tail elements h hscan
  rw [literalElements_keyed hentry hcolon] at hscan
  obtain ⟨inKey, hinKey, hscan⟩ := bind_eq_ok.1 hscan
  obtain ⟨inValue, hinValue, hscan⟩ := bind_eq_ok.1 hscan
  obtain ⟨more, hmore, hscan⟩ := bind_eq_ok.1 hscan
  obtain rfl := Except.ok.inj hscan
  rcases h.element with ⟨sofar', tail', hentry⟩ | ⟨sofar', hrest⟩
  · obtain ⟨heq, hkind⟩ := spanTop_eq_cons hcolon
    rw [heq] at hentry
    refine ⟨_, List.mem_cons_self, ?_⟩
    rcases hentry.split (Token.not_inLiteralType hkind (by simp)) with hkey | hvalue
    · exact (ihKey _ _ _ hkey hinKey).append_left
    · exact (ihValue _ _ _ hvalue hinValue).append_right
  · obtain ⟨el, hmem, hfound⟩ := ihRest _ _ _ hrest hmore
    exact ⟨el, List.mem_cons_of_mem _ hmem, hfound⟩

end ElementsFind

namespace ElementFinds

/-- A key or a value without a brace at its front is scanned as code is. -/
theorem unbraced (hopen : afterOpening? .brace ts = none) (ih : p.ScanFinds {} ts) :
    p.ElementFinds ts := by
  intro sofar tail lits h hscan
  simp only [scanElement_eq, hopen] at hscan
  exact ih _ _ _ (.start h) hscan

theorem of_error {e : SyntaxError} (hopen : afterOpening? .brace ts = some inside)
    (hgroup : r.group .brace inside = .error e) : p.ElementFinds ts := by
  intro sofar tail lits h hscan
  simp only [scanElement_eq, hopen, hgroup] at hscan
  cases hscan

/-- One with a brace at its front is a literal without a type. -/
theorem braced (hopen : afterOpening? .brace ts = some inside)
    (hgroup : r.group .brace inside = .ok (body, rest)) (ihBody : p.ElementsFind body)
    (ihRest : p.ScanFinds {} rest) : p.ElementFinds ts := by
  intro sofar tail lits h hscan
  simp only [scanElement_eq, hopen, hgroup, ok_bind] at hscan
  obtain ⟨elements, helements, hscan⟩ := bind_eq_ok.1 hscan
  obtain ⟨more, hmore, hscan⟩ := bind_eq_ok.1 hscan
  obtain rfl := Except.ok.inj hscan
  obtain ⟨brace, hbrace, rfl⟩ := afterOpening?_eq_some.1 hopen
  obtain ⟨c, rfl, hbody | hrest⟩ := (h.cons (by simp [hbrace])).group hgroup
  · exact .nested (ihBody _ _ _ hbody helements)
  · exact (ihRest _ _ _ (.start hrest) hmore).cons

end ElementFinds

/-- **The literal is found**, by induction along the scan: each step has the literal before it, in
the group that it enters, or after what it passes. -/
theorem finds (p : r.QualifiedLiteral code) :
    (∀ s ts, p.ScanFinds s ts) ∧ (∀ ts, p.ElementsFind ts) ∧ ∀ ts, p.ElementFinds ts := by
  apply scanLiterals.mutual_induct r p.ScanFinds p.ElementsFind p.ElementFinds
  · exact fun s => ScanFinds.nil
  -- headers
  · exact fun s t ts ht => ScanFinds.openHeader (Or.inl ht)
  · exact fun s t ts ht => ScanFinds.openHeader (Or.inr (Or.inl ht))
  · exact fun s t ts ht => ScanFinds.openHeader (Or.inr (Or.inr ht))
  -- functions
  · intro s t ts ht e hskip
    exact ScanFinds.of_error (by rw [scanLiterals_func ht, hskip]; rfl)
  · exact fun s t ts ht after hskip hopen => ScanFinds.signature ht hskip hopen
  · intro s t ts ht after hskip inside hopen e hgroup
    exact ScanFinds.of_error
      (by simp only [scanLiterals_func ht, hskip, ok_bind, hopen, hgroup]; rfl)
  · intro s t ts ht after hskip inside hopen body rest hgroup
    exact ScanFinds.functionLiteral ht hskip hopen hgroup
  -- brackets and points
  · exact fun s t ts b ht => ScanFinds.openGroup ht
  · exact fun s t ts b ht => ScanFinds.closeGroup ht
  · exact fun s t ts ht => ScanFinds.period ht
  -- names: in a header, of no literal, and of one
  · exact fun s t ts ht hin => ScanFinds.name_inHeader ht hin
  · exact fun s t ts ht hout htype => ScanFinds.name ht hout htype
  · intro s t ts ht hout type inside htype e hgroup
    exact ScanFinds.of_error
      (by simp only [scanLiterals_identifier ht, if_neg hout, htype, hgroup]; rfl)
  · intro s t ts ht hout type inside htype body rest hgroup
    exact ScanFinds.literal ht hout htype hgroup
  -- all other tokens
  · intro s t ts hif hfor hswitch hfunc hopen hclose hperiod hname
    refine ScanFinds.token ?_ ?_ hfunc hperiod hname
    · rintro ⟨b, hb⟩
      exact hb.elim (hopen b) (hclose b)
    · exact fun ht => ht.elim hif fun ht => ht.elim hfor hswitch
  -- the elements of a literal: none, a blank one, one without a key, and one with a key
  · exact ElementsFind.nil
  · exact fun t ts hblank => ElementsFind.blank hblank
  · exact fun t ts hentry value hcolon => ElementsFind.unkeyed hentry hcolon
  · exact fun t ts hentry key colon value hcolon => ElementsFind.keyed hentry hcolon
  -- a key or a value: without a brace, and with one
  · exact fun ts hopen => ElementFinds.unbraced hopen
  · exact fun ts inside hopen e hgroup => ElementFinds.of_error hopen hgroup
  · exact fun ts inside hopen body rest hgroup => ElementFinds.braced hopen hgroup

end QualifiedLiteral

end Reading

/-- What the readers of a source go by. -/
def Source.reader (source : Source) : Reading := source.reading (tokenize source.content)

/-- The tokens are code of the source: the body of a function, or of a declaration of variables,
constants or types. -/
def Source.Code (source : Source) (code : List Token) : Prop :=
  ∃ name rest, source.reader.packageClause (tokenize source.content).tokens.dropLast =
    .ok (name, rest) ∧ source.reader.Code rest code

namespace SourceFile

/-- **No literal of a qualified type is lost**, at any depth, unless a header hides it, or a signature
does, which goes on as far as a type is read: it is among the literals of the file, at its place and
with its type. -/
theorem qualified_found {source : Source} {file : SourceFile} {code : List Token}
    (h : SourceFile.parse source = .ok file) (hcode : source.Code code)
    (p : source.reader.QualifiedLiteral code) :
    ∃ lit ∈ file.literals, lit.location = source.location p.qualifier.offset ∧
      lit.type = ⟨p.qualifier.lexeme, p.name.lexeme⟩ := by
  obtain ⟨name, rest, hclause, hdecls⟩ := parse_ok h
  obtain ⟨name', rest', hclause', hcode⟩ := hcode
  have hsame : Except.ok (name', rest') = Except.ok (name, rest) := hclause'.symm.trans hclause
  obtain ⟨rfl, rfl⟩ := Prod.mk.inj (Except.ok.inj hsame)
  obtain ⟨d, hd, hscan⟩ := Reading.exists_decl hcode hdecls
  have hfound : p.Found d.literals := p.finds.1 {} code [] [] _ (.start p.within) hscan
  obtain ⟨before, after, hsplit⟩ := List.append_of_mem hd
  have hall : p.Found (file.decls.flatMap Decl.literals) := by
    rw [hsplit, List.flatMap_append, List.flatMap_cons]
    exact hfound.append_left.append_right
  exact hall

/-- A function with a literal in another one, in a function literal, in the block of a statement. -/
def deepSource : Source where
  filename := ascii "p.go"
  content := ascii "package p\n" ++
    ascii "func f() \x7b if x \x7b g(func() \x7b R\x7bQ.T\x7b1\x7d\x7d \x7d) \x7d \x7d\n"

def written (kind : TokenKind) (lexeme : String) (offset : Nat) : Token :=
  { kind, lexeme := ascii lexeme, offset }

/-- The function up to its body. -/
def deepHead : List Token :=
  [written (.keyword .funcKw) "func" 10, written .identifier "f" 15,
    written (.opening .paren) "(" 16, written (.closing .paren) ")" 17,
    written (.opening .brace) "\x7b" 19]

/-- The body before the literal, which starts with `Q`. -/
def deepBefore : List Token :=
  [written (.keyword .ifKw) "if" 21, written .identifier "x" 24,
    written (.opening .brace) "\x7b" 26, written .identifier "g" 28,
    written (.opening .paren) "(" 29, written (.keyword .funcKw) "func" 30,
    written (.opening .paren) "(" 34, written (.closing .paren) ")" 35,
    written (.opening .brace) "\x7b" 37, written .identifier "R" 39,
    written (.opening .brace) "\x7b" 40]

def deepAfter : List Token :=
  [written .int "1" 45, written (.closing .brace) "\x7d" 46, written (.closing .brace) "\x7d" 47,
    written (.closing .brace) "\x7d" 49, written (.closing .paren) ")" 50,
    written (.closing .brace) "\x7d" 52]

def deepHere : List Token :=
  written .identifier "Q" 41 :: written .period "." 42 :: written .identifier "T" 43 ::
    written (.opening .brace) "\x7b" 44 :: deepAfter

def deepEnd : List Token := [written (.closing .brace) "\x7d" 54, Token.terminator 55]

theorem tokens_deep : (tokenize deepSource.content).tokens.dropLast =
    [written (.keyword .packageKw) "package" 0, written .identifier "p" 8, Token.terminator 9] ++
      deepHead ++ deepBefore ++ deepHere ++ deepEnd := by
  decide +kernel

theorem code_deep : deepSource.Code (deepBefore ++ deepHere) := by
  have hhead : (deepSource.reader.funcHead (written (.keyword .funcKw) "func" 10)
      (deepHead.tail ++ deepBefore ++ deepHere ++ deepEnd)).toOption.map (·.rest) =
      some (deepHead.drop 4 ++ deepBefore ++ deepHere ++ deepEnd) := by
    decide +kernel
  obtain ⟨head, hsome, hrest⟩ := Option.map_eq_some_iff.1 hhead
  have hgroup : (deepSource.reader.group .brace
      (deepBefore ++ deepHere ++ deepEnd)).toOption =
      some (deepBefore ++ deepHere, deepEnd.tail) := by
    decide +kernel
  refine ⟨written .identifier "p" 8, deepHead ++ deepBefore ++ deepHere ++ deepEnd,
    eq_ok_of_toOption ?_, .body rfl (eq_ok_of_toOption hsome) ?_ (eq_ok_of_toOption hgroup)⟩
  · rw [tokens_deep]
    decide +kernel
  · rw [hrest]
    rfl

/-- The literal stands in the block of the statement, and the function literal has no results. -/
theorem visible_deep : deepSource.reader.Visible deepBefore deepHere := by
  have hblock {sofar rest : List Token} (heq : sofar ++ rest = deepBefore ++ deepHere)
      (hsofar : 2 < sofar.length) : ¬ deepSource.reader.HeaderOpen sofar rest 0 := by
    have hcode : deepBefore ++ deepHere = written (.keyword .ifKw) "if" 21 ::
        ([written .identifier "x" 24] ++ written (.opening .brace) "\x7b" 26 ::
          (deepBefore.drop 3 ++ deepHere)) := rfl
    exact Reading.not_headerOpen_of_plain (heq.trans hcode) (by decide +kernel) rfl
      (by decide +kernel) hsofar
  have hindex {pre mid : List Token} {t : Token} (heq : deepBefore = pre ++ t :: mid) :
      pre.length < 11 ∧ deepBefore[pre.length]? = some t ∧
        deepBefore.drop (pre.length + 1) = mid := by
    refine ⟨?_, by rw [heq]; simp, by rw [heq]; simp⟩
    have hlength : deepBefore.length = 11 := rfl
    rw [← hlength, heq]
    simp
  refine ⟨fun pre t mid heq ht => ?_, hblock rfl (by decide), fun pre t mid heq ht => ?_⟩
  · obtain ⟨hlt, hget, rfl⟩ := hindex heq
    have honly : ∀ i < 11, ∀ u ∈ deepBefore[i]?, u.kind = .keyword .funcKw → i = 5 := by
      decide +kernel
    rw [honly _ hlt t hget ht]
    have hskip : (deepSource.reader.skip .signature
        (deepBefore.drop 6 ++ deepHere)).toOption =
        some (deepBefore.drop 8 ++ deepHere) := by
      decide +kernel
    exact ⟨_, Reading.skips_of_skip (eq_ok_of_toOption hskip), by decide +kernel⟩
  · obtain ⟨hlt, hget, -⟩ := hindex heq
    by_cases hsofar : 2 < pre.length
    · refine hblock ?_ hsofar
      rw [← List.append_assoc, ← heq]
    · have hfirst : ∀ i ≤ 2, ∀ u ∈ deepBefore[i]?,
          ((∃ b, u.kind = .closing b) ∨ u.OpensHeader) → i = 0 := by
        decide +kernel
      rintro ⟨pre', u, mid', rfl, -⟩
      have hzero := hfirst _ (Nat.le_of_not_lt hsofar) t hget ht
      simp at hzero

theorem qualified_found_deep :
    ∃ file, SourceFile.parse deepSource = .ok file ∧
      deepSource.Code (deepBefore ++ deepHere) ∧
      ∃ lit ∈ file.literals, lit.location = deepSource.location 41 ∧
        lit.type = ⟨ascii "Q", ascii "T"⟩ := by
  have hparse : (SourceFile.parse deepSource).toOption.isSome := by decide +kernel
  obtain ⟨file, hfile⟩ := Option.isSome_iff_exists.1 hparse
  have hfile := eq_ok_of_toOption hfile
  exact ⟨file, hfile, code_deep, qualified_found hfile code_deep
    { before := deepBefore
      qualifier := written .identifier "Q" 41
      point := written .period "." 42
      name := written .identifier "T" 43
      brace := written (.opening .brace) "\x7b" 44
      after := deepAfter
      eq := rfl
      qualifier_kind := rfl
      point_kind := rfl
      name_kind := rfl
      brace_kind := rfl
      free := by decide +kernel
      visible := visible_deep }⟩

/-- A variable of a function type without results, and a literal that it is set to. -/
def bodilessSource : Source where
  filename := ascii "p.go"
  content := ascii "package p\nvar f func() = Q.T\x7b1\x7d\n"

def bodilessBefore : List Token :=
  [written .identifier "f" 14, written (.keyword .funcKw) "func" 16,
    written (.opening .paren) "(" 20, written (.closing .paren) ")" 21,
    written .operator "=" 23]

def bodilessHere : List Token :=
  [written .identifier "Q" 25, written .period "." 26, written .identifier "T" 27,
    written (.opening .brace) "\x7b" 28, written .int "1" 29, written (.closing .brace) "\x7d" 30]

/-- A result type is looked for past the `=`, so that the literal is taken for the end of the type
and for a body: it is lost, though it is in no header and not within the type as it is written. -/
theorem qualified_lost :
    ∃ file, SourceFile.parse bodilessSource = .ok file ∧
      bodilessSource.Code (bodilessBefore ++ bodilessHere) ∧
      ¬ Selects bodilessBefore ∧ (∀ t ∈ bodilessBefore, ¬ t.OpensHeader) ∧
      file.literals = [] := by
  have hliterals : (SourceFile.parse bodilessSource).toOption.map
      (fun file => file.literals.map CompositeLit.type) = some [] := by
    decide +kernel
  obtain ⟨file, hfile, hnone⟩ := Option.map_eq_some_iff.1 hliterals
  refine ⟨file, eq_ok_of_toOption hfile, ?_, by decide, by decide, List.map_eq_nil_iff.1 hnone⟩
  have hclause : (bodilessSource.reader.packageClause
      (tokenize bodilessSource.content).tokens.dropLast).toOption =
      some (written .identifier "p" 8, written (.keyword .varKw) "var" 10 ::
        (bodilessBefore ++ bodilessHere ++ [Token.terminator 31])) := by
    decide +kernel
  have hcode : (spanTop .semicolon 0
      (bodilessBefore ++ bodilessHere ++ [Token.terminator 31])).1 =
      bodilessBefore ++ bodilessHere := by
    decide +kernel
  refine ⟨_, _, eq_ok_of_toOption hclause, ?_⟩
  rw [← hcode]
  exact @Reading.Code.single bodilessSource.reader _ .var _ rfl rfl

end SourceFile

end BuildOrder
