import BuildOrder.Proofs.Qualified
import Mathlib.Data.List.Basic
import Mathlib.Logic.Relation

/-!
# Where literals are read

The readers of literals call each other: a scan of code reads the elements of a literal, and an
element may be code. Their calls are steps between spots here, so that a fact about all of them is
one about a step.

* `Reading.step`: what comes of the tokens of a spot; `Reading.step_sublist`: **the tokens read
  next, and the brace of a literal, are different ones** of them.
* `Reading.sites`: the literals of a spot, each with the brace before its elements.
* `Reading.sites_recorded`: **they are the literals that the reader of the spot finds.**
* `Reading.Comes`, `Reading.mem_sites`: a literal is of a spot if the reader comes to where it
  starts.
* `Comes.mem_sites`: **a literal whose brace is read later is found later**, as each token is there
  once.
* `SourceFile.exists_sites`: **the literals of code are those of its declaration.**
-/

namespace BuildOrder

/-- What reads tokens for literals: a scan of code, the reader of a key or value of a literal, or
that of its elements. -/
inductive LiteralReader where
  | code (s : LiteralScan)
  | element
  | elements
deriving DecidableEq, Repr

/-- Tokens that are read for literals, and what reads them. -/
structure Spot where
  reader : LiteralReader
  tokens : List Token
deriving DecidableEq, Repr

/-- A literal, and the brace before its elements. -/
structure LiteralSite where
  literal : CompositeLit
  brace : Token
deriving Repr

/-- What comes of a spot: the literal that starts there, if one does, and what is read next. -/
structure ReadStep where
  site : Option LiteralSite := none
  next : List Spot := []
deriving Repr

/-- The tokens that a step is about: the brace of the literal, and those read next. -/
def ReadStep.tokens (x : ReadStep) : List Token :=
  (x.site.map LiteralSite.brace).toList ++ x.next.flatMap Spot.tokens

/-- The type of the literal that starts at the name `t`, and the tokens after its brace. There is
none in a header. -/
def LiteralScan.literalAt? (s : LiteralScan) (t : Token) (ts : List Token) :
    Option (LiteralType × List Token) :=
  if s.inHeader then none else literalType? s.selected t ts

/-- The first opening brace after the token `t`. -/
def firstBrace (t : Token) (ts : List Token) : Token :=
  (ts.find? fun u => u.kind == .opening .brace).getD t

theorem CompositeLit.preorderElements_eq (elements : List (LiteralElement CompositeLit)) :
    preorderElements elements = preorderAll (elements.flatMap LiteralElement.nested) := by
  induction elements with
  | nil => rfl
  | cons e elements ih => rw [preorderElements, ih, List.flatMap_cons, preorderAll_append]

/-- A token of another kind starts no header. -/
theorem Token.not_opensHeader {t : Token} {kind : TokenKind} (ht : t.kind = kind)
    (hkind : kind ≠ .keyword .ifKw ∧ kind ≠ .keyword .forKw ∧ kind ≠ .keyword .switchKw) :
    ¬ t.OpensHeader := by
  rintro (h | h | h)
  · exact hkind.1 (ht.symm.trans h)
  · exact hkind.2.1 (ht.symm.trans h)
  · exact hkind.2.2 (ht.symm.trans h)

namespace Reading

section

variable (r : Reading)

/-- A literal, whose elements stand after its brace, and what is read after it. -/
def literalStep (type : LiteralType) (start brace : Token) (after : LiteralReader)
    (inside : List Token) : ReadStep :=
  match r.group .brace inside with
  | .error _ => {}
  | .ok (body, rest) =>
    match r.literalElements body with
    | .error _ => {}
    | .ok elements =>
      { site := some ⟨.mk type (r.locate start) elements, brace⟩
        next := [⟨.elements, body⟩, ⟨after, rest⟩] }

/-- One step of the readers of literals. -/
def step (c : Spot) : ReadStep :=
  match c with
  | ⟨.code _, []⟩ => {}
  | ⟨.code s, t :: ts⟩ =>
    if t.OpensHeader then { next := [⟨.code s.openHeader, ts⟩] }
    else
      match t.kind with
      | .keyword .funcKw =>
        match r.skipSignature ts with
        | .error _ => {}
        | .ok after =>
          match afterOpening? .brace after with
          | none => { next := [⟨.code s.past, after⟩] }
          | some inside =>
            match r.group .brace inside with
            | .error _ => {}
            | .ok (body, rest) => { next := [⟨.code {}, body⟩, ⟨.code s.past, rest⟩] }
      | .opening b => { next := [⟨.code (s.openGroup b), ts⟩] }
      | .closing b => { next := [⟨.code (s.closeGroup b), ts⟩] }
      | .period => { next := [⟨.code { s with selected := true }, ts⟩] }
      | .identifier =>
        match s.literalAt? t ts with
        | none => { next := [⟨.code s.past, ts⟩] }
        | some (type, inside) => r.literalStep type t (firstBrace t ts) (.code s.past) inside
      | _ => { next := [⟨.code s.past, ts⟩] }
  | ⟨.element, ts⟩ =>
    match afterOpening? .brace ts with
    | none => { next := [⟨.code {}, ts⟩] }
    | some inside => r.literalStep {} (r.front ts) (r.front ts) (.code {}) inside
  | ⟨.elements, []⟩ => {}
  | ⟨.elements, t :: ts⟩ =>
    if (trimTerminators (spanTop .comma 0 (t :: ts)).1).isEmpty then
      { next := [⟨.elements, (spanTop .comma 0 (t :: ts)).2.tail⟩] }
    else
      match spanTop .colon 0 (trimTerminators (spanTop .comma 0 (t :: ts)).1) with
      | (entry, []) =>
        { next := [⟨.element, entry⟩, ⟨.elements, (spanTop .comma 0 (t :: ts)).2.tail⟩] }
      | (key, _ :: value) =>
        { next := [⟨.element, key⟩, ⟨.element, value⟩,
            ⟨.elements, (spanTop .comma 0 (t :: ts)).2.tail⟩] }

end

variable {r : Reading} {c d : Spot} {s : LiteralScan} {t : Token}
  {ts inside body rest after : List Token}

/-! ### What a step is made of -/

/-- A literal can be read, or nothing can. -/
theorem literalStep_cases (type : LiteralType) (start brace : Token) (after : LiteralReader)
    (inside : List Token) :
    r.literalStep type start brace after inside = {} ∨
      ∃ body rest elements, r.group .brace inside = .ok (body, rest) ∧
        r.literalElements body = .ok elements ∧
        r.literalStep type start brace after inside =
          { site := some ⟨.mk type (r.locate start) elements, brace⟩
            next := [⟨.elements, body⟩, ⟨after, rest⟩] } := by
  unfold literalStep
  split
  · exact Or.inl rfl
  · rename_i body rest hgroup
    split
    · exact Or.inl rfl
    · rename_i elements helements
      exact Or.inr ⟨body, rest, elements, hgroup, helements, rfl⟩

/-- The tokens of the type of a literal, after the first of them, and its brace. -/
theorem literalAt?_eq_some {type : LiteralType} (h : s.literalAt? t ts = some (type, inside)) :
    s.inHeader = false ∧
      ((∃ brace, brace.kind = .opening .brace ∧ ts = brace :: inside ∧
          type = ⟨[], t.lexeme⟩ ∧ firstBrace t ts = brace) ∨
        ∃ point name brace, s.selected = false ∧ point.kind = .period ∧
          name.kind = .identifier ∧ brace.kind = .opening .brace ∧
          ts = point :: name :: brace :: inside ∧ type = ⟨t.lexeme, name.lexeme⟩ ∧
          firstBrace t ts = brace) := by
  unfold LiteralScan.literalAt? at h
  split at h
  · cases h
  rename_i hout
  refine ⟨Bool.eq_false_iff.2 hout, ?_⟩
  unfold literalType? at h
  split at h
  · split at h
    · cases h
    · rename_i hselected
      obtain ⟨rfl, rfl⟩ := Prod.mk.inj (Option.some.inj h)
      exact Or.inr ⟨_, _, _, Bool.eq_false_iff.2 hselected, rfl, rfl, rfl, rfl, rfl, rfl⟩
  · obtain ⟨rfl, rfl⟩ := Prod.mk.inj (Option.some.inj h)
    exact Or.inl ⟨_, rfl, rfl, rfl, rfl⟩
  · cases h

/-- A name before a brace is the type of a literal. -/
theorem literalAt?_named {brace : Token} (t : Token) (inside : List Token)
    (hout : s.inHeader = false) (hbrace : brace.kind = .opening .brace) :
    s.literalAt? t (brace :: inside) = some (⟨[], t.lexeme⟩, inside) ∧
      firstBrace t (brace :: inside) = brace := by
  refine ⟨?_, by simp [firstBrace, hbrace]⟩
  cases brace
  cases hbrace
  rw [LiteralScan.literalAt?, hout]
  rfl

theorem literalAt?_qualified {point name brace : Token} (t : Token) (inside : List Token)
    (hout : s.inHeader = false)
    (hselected : s.selected = false) (hpoint : point.kind = .period)
    (hname : name.kind = .identifier) (hbrace : brace.kind = .opening .brace) :
    s.literalAt? t (point :: name :: brace :: inside) =
        some (⟨t.lexeme, name.lexeme⟩, inside) ∧
      firstBrace t (point :: name :: brace :: inside) = brace := by
  refine ⟨?_, by simp [firstBrace, hpoint, hname, hbrace]⟩
  rw [LiteralScan.literalAt?, hout, hselected]
  exact literalType?_qualified hpoint hname hbrace

/-- A name that is selected is no qualifier. -/
theorem literalAt?_selected {point : Token} (hselected : s.selected = true)
    (hpoint : point.kind = .period) : s.literalAt? t (point :: ts) = none := by
  cases hsome : s.literalAt? t (point :: ts) with
  | none => rfl
  | some parts =>
    rcases (literalAt?_eq_some hsome).2 with ⟨brace, hbrace, heq, -⟩ | ⟨-, -, -, hfalse, -⟩
    · obtain ⟨rfl, -⟩ := List.cons.inj heq
      cases hpoint.symm.trans hbrace
    · cases hselected.symm.trans hfalse

theorem literalAt?_sublist {type : LiteralType} (h : s.literalAt? t ts = some (type, inside)) :
    (firstBrace t ts :: inside).Sublist ts := by
  rcases (literalAt?_eq_some h).2 with
    ⟨brace, -, rfl, -, hbrace⟩ | ⟨point, name, brace, -, -, -, -, rfl, -, hbrace⟩
  · rw [hbrace]
  · rw [hbrace]
    exact ((List.Sublist.refl _).cons _).cons _

theorem skipSignature_suffix (h : r.skipSignature ts = .ok rest) : rest <:+ ts := by
  have hskips : r.Skips .signature ts rest := skips_of_skip h
  exact hskips.suffix

theorem group_sublist {b : Bracket} (h : r.group b ts = .ok (body, rest)) :
    (body ++ rest).Sublist ts := by
  obtain ⟨c, -, rfl⟩ := group_split h
  exact (List.Sublist.refl _).append (List.sublist_cons_self _ _)

theorem literalStep_sublist (type : LiteralType) (start brace : Token) (after : LiteralReader)
    (inside : List Token) :
    (r.literalStep type start brace after inside).tokens.Sublist (brace :: inside) := by
  rcases literalStep_cases (r := r) type start brace after inside with
    heq | ⟨body, rest, elements, hgroup, -, heq⟩ <;> rw [heq]
  · exact List.nil_sublist _
  · simpa [ReadStep.tokens] using (group_sublist hgroup).cons_cons brace

theorem entry_sublist (ts : List Token) :
    (trimTerminators (spanTop .comma 0 ts).1 ++ (spanTop .comma 0 ts).2.tail).Sublist ts := by
  obtain ⟨front, back, hentry, -⟩ := exists_trimTerminators (spanTop .comma 0 ts).1
  have hfirst : (trimTerminators (spanTop .comma 0 ts).1).Sublist (spanTop .comma 0 ts).1 := by
    conv => rhs; rw [hentry]
    exact (List.sublist_append_left _ _).trans (List.sublist_append_right _ _)
  have happend := hfirst.append (List.tail_sublist (spanTop .comma 0 ts).2)
  rwa [spanTop_append] at happend

theorem spanTop_eq_nil {stop : TokenKind} {depth : Nat} (h : spanTop stop depth ts = (body, [])) :
    body = ts := by
  simpa only [h, List.append_nil] using spanTop_append stop depth ts

/-- **What a step is about are different tokens** of those it reads. -/
theorem step_sublist (r : Reading) (c : Spot) : (r.step c).tokens.Sublist c.tokens := by
  have one {d : Spot} (h : d.tokens.Sublist c.tokens) :
      (ReadStep.tokens { next := [d] }).Sublist c.tokens := by
    simpa [ReadStep.tokens] using h
  have two {d e : Spot} (h : (d.tokens ++ e.tokens).Sublist c.tokens) :
      (ReadStep.tokens { next := [d, e] }).Sublist c.tokens := by
    simpa [ReadStep.tokens] using h
  fun_cases step r c with
  | case1 | case3 | case5 | case15 => exact List.nil_sublist _
  | case2 | case7 | case8 | case9 | case10 | case12 => exact one (List.sublist_cons_self _ _)
  | case4 s t ts hheader ht after hskip hopen =>
    have hsuffix := skipSignature_suffix hskip
    exact one (hsuffix.sublist.cons _)
  | case6 s t ts hheader ht after hskip inside hopen body rest hgroup =>
    have hsuffix := skipSignature_suffix hskip
    obtain ⟨brace, -, rfl⟩ := afterOpening?_eq_some.1 hopen
    exact two ((((group_sublist hgroup).cons _).trans hsuffix.sublist).cons _)
  | case11 s t ts hheader ht type inside htype =>
    exact ((r.literalStep_sublist _ _ _ _ _).trans (literalAt?_sublist htype)).cons _
  | case13 ts hopen => exact one (.refl _)
  | case14 ts inside hopen =>
    obtain ⟨brace, -, rfl⟩ := afterOpening?_eq_some.1 hopen
    exact r.literalStep_sublist _ _ _ _ _
  | case16 t ts hblank => exact one ((List.sublist_append_right _ _).trans (entry_sublist _))
  | case17 t ts hentry entry hcolon =>
    have hparts := entry_sublist (t :: ts)
    rw [← spanTop_eq_nil hcolon] at hparts
    exact two hparts
  | case18 t ts hentry key colon value hcolon =>
    have hparts := entry_sublist (t :: ts)
    rw [(spanTop_eq_cons hcolon).1] at hparts
    have hvalue : (key ++ value).Sublist (key ++ colon :: value) :=
      (List.Sublist.refl _).append (List.sublist_cons_self _ _)
    simpa [ReadStep.tokens] using (hvalue.append (.refl _)).trans hparts

/-! ### All literals -/

end Reading

/-- Each step makes this smaller. -/
def Spot.size (c : Spot) : Nat :=
  3 * c.tokens.length +
    match c.reader with
    | .code _ => 0
    | .element => 1
    | .elements => 2

namespace Reading

variable {r : Reading} {c d : Spot} {s : LiteralScan} {t : Token}
  {ts inside body rest after : List Token} {lits : List CompositeLit}

theorem mem_literalStep {type : LiteralType} {start brace : Token} {after : LiteralReader}
    (h : d ∈ (r.literalStep type start brace after inside).next) :
    ∃ body rest, r.group .brace inside = .ok (body, rest) ∧
      (d = ⟨.elements, body⟩ ∨ d = ⟨after, rest⟩) := by
  rcases literalStep_cases (r := r) type start brace after inside with
    heq | ⟨body, rest, elements, hgroup, -, heq⟩ <;> rw [heq] at h
  · cases h
  · exact ⟨body, rest, hgroup, by simpa using h⟩

theorem size_lt_of_mem_step (c : Spot) : ∀ d ∈ (r.step c).next, d.size < c.size := by
  fun_cases step r c with
  | case1 | case3 | case5 | case15 => exact nofun
  | case2 | case7 | case8 | case9 | case10 | case12 => simp [Spot.size]
  | case4 s t ts hheader ht after hskip hopen =>
    have := r.skipSignature_length hskip
    simp [Spot.size]
    omega
  | case6 s t ts hheader ht after hskip inside hopen body rest hgroup =>
    have := r.skipSignature_length hskip
    have := afterOpening?_length hopen
    have := r.group_length hgroup
    simp [Spot.size]
    omega
  | case11 s t ts hheader ht type inside htype =>
    have := (literalAt?_sublist htype).length_le
    rintro d hd
    obtain ⟨body, rest, hgroup, rfl | rfl⟩ := mem_literalStep hd <;>
    · have := r.group_length hgroup
      simp [Spot.size] at *
      omega
  | case13 ts hopen => simp [Spot.size]
  | case14 ts inside hopen =>
    have := afterOpening?_length hopen
    rintro d hd
    obtain ⟨body, rest, hgroup, rfl | rfl⟩ := mem_literalStep hd <;>
    · have := r.group_length hgroup
      simp [Spot.size] at *
      omega
  | case16 t ts hblank =>
    have := spanTop_tail_length .comma t ts
    simp [Spot.size] at *
    omega
  | case17 t ts hentry entry hcolon =>
    have := spanTop_tail_length .comma t ts
    have := spanTop_entry_length hcolon
    simp [Spot.size] at *
    omega
  | case18 t ts hentry key colon value hcolon =>
    have := spanTop_tail_length .comma t ts
    have := spanTop_entry_length hcolon
    simp [Spot.size] at *
    omega

/-- The literals of a spot, outer ones first, each with its brace. -/
def sites (r : Reading) (c : Spot) : List LiteralSite :=
  (r.step c).site.toList ++ (r.step c).next.attach.flatMap fun ⟨d, _⟩ => r.sites d
termination_by c.size
decreasing_by exact size_lt_of_mem_step c d ‹_›

theorem sites_eq (r : Reading) (c : Spot) :
    r.sites c = (r.step c).site.toList ++ (r.step c).next.flatMap r.sites := by
  rw [sites]
  simp

/-! ### What is read -/

/-- What the reader of a spot makes of its tokens. -/
def read (r : Reading) (c : Spot) : Except SyntaxError (List CompositeLit) :=
  match c.reader with
  | .code s => r.scanLiterals s c.tokens
  | .element => r.scanElement c.tokens
  | .elements => (r.literalElements c.tokens).map fun elements =>
    elements.flatMap LiteralElement.nested

/-- The reader of a spot comes to an end without an error. -/
def Accepts (r : Reading) (c : Spot) : Prop := ∃ lits, r.read c = .ok lits

/-- The literals that the reader of a spot finds, outer ones first. -/
def recorded (r : Reading) (c : Spot) : List CompositeLit :=
  CompositeLit.preorderAll ((r.read c).toOption.getD [])

theorem recorded_eq (h : r.read c = .ok lits) : r.recorded c = CompositeLit.preorderAll lits := by
  rw [recorded, h]
  rfl

theorem read_elements : r.read ⟨.elements, ts⟩ = .ok lits ↔
    ∃ elements, r.literalElements ts = .ok elements ∧
      elements.flatMap LiteralElement.nested = lits := by
  unfold read
  cases r.literalElements ts with
  | error e => simp [Except.map]
  | ok elements => simp [Except.map]

/-- A step of a reader is as the reader goes on. -/
structure Reads (r : Reading) (c : Spot) (x : ReadStep) : Prop where
  accepts : ∀ d ∈ x.next, r.Accepts d
  recorded : r.recorded c =
    (x.site.map LiteralSite.literal).toList ++ x.next.flatMap r.recorded

theorem Reads.none (h : r.read c = .ok []) : r.Reads c {} := ⟨nofun, recorded_eq h⟩

/-- The reader goes on with other tokens. -/
theorem Reads.one (h : r.read c = .ok lits) (heq : r.read c = r.read d) :
    r.Reads c { next := [d] } := by
  have hd : r.read d = .ok lits := heq.symm.trans h
  refine ⟨by simpa using ⟨lits, hd⟩, ?_⟩
  rw [recorded_eq h]
  simp [recorded_eq hd]

/-- The reader goes on with one part of the tokens, and then with another one. -/
theorem Reads.two {e : Spot} {inner more : List CompositeLit} (h : r.read c = .ok (inner ++ more))
    (hd : r.read d = .ok inner) (he : r.read e = .ok more) : r.Reads c { next := [d, e] } := by
  refine ⟨by simpa using ⟨⟨inner, hd⟩, more, he⟩, ?_⟩
  rw [recorded_eq h, CompositeLit.preorderAll_append]
  simp [recorded_eq hd, recorded_eq he]

/-- A reader that reads a literal and then what follows it reads all of it. -/
theorem literalStep_of_read {type : LiteralType} {start : Token} (brace : Token)
    (after : LiteralReader) (h : r.read c = .ok lits)
    (heq : r.read c = r.group .brace inside >>= fun parts =>
      r.literalElements parts.1 >>= fun elements =>
      r.read ⟨after, parts.2⟩ >>= fun more => pure (.mk type (r.locate start) elements :: more)) :
    ∃ body rest elements more, r.group .brace inside = .ok (body, rest) ∧
      r.literalElements body = .ok elements ∧ r.read ⟨after, rest⟩ = .ok more ∧
      lits = .mk type (r.locate start) elements :: more ∧
      r.literalStep type start brace after inside =
        { site := some ⟨.mk type (r.locate start) elements, brace⟩
          next := [⟨.elements, body⟩, ⟨after, rest⟩] } := by
  have hread := heq.symm.trans h
  obtain ⟨⟨body, rest⟩, hgroup, hread⟩ := bind_eq_ok.1 hread
  obtain ⟨elements, helements, hread⟩ := bind_eq_ok.1 hread
  obtain ⟨more, hmore, hread⟩ := bind_eq_ok.1 hread
  obtain rfl := Except.ok.inj hread
  refine ⟨body, rest, elements, more, hgroup, helements, hmore, rfl, ?_⟩
  simp only [literalStep, hgroup, helements]

/-- The literal is read, and what follows it. -/
theorem Reads.literal {type : LiteralType} {start brace : Token} {after : LiteralReader}
    (h : r.read c = .ok lits)
    (heq : r.read c = r.group .brace inside >>= fun parts =>
      r.literalElements parts.1 >>= fun elements =>
      r.read ⟨after, parts.2⟩ >>= fun more => pure (.mk type (r.locate start) elements :: more)) :
    r.Reads c (r.literalStep type start brace after inside) := by
  obtain ⟨body, rest, elements, more, -, helements, hmore, rfl, hstep⟩ :=
    literalStep_of_read brace after h heq
  have hinside := read_elements.2 ⟨elements, helements, rfl⟩
  rw [hstep]
  refine ⟨by simpa using ⟨⟨_, hinside⟩, more, hmore⟩, ?_⟩
  rw [recorded_eq h, CompositeLit.preorderAll, CompositeLit.preorder,
    CompositeLit.preorderElements_eq]
  simp [recorded_eq hinside, recorded_eq hmore]

theorem scanLiterals_name (ht : t.kind = .identifier) (hnone : s.literalAt? t ts = none) :
    r.scanLiterals s (t :: ts) = r.scanLiterals s.past ts := by
  rw [scanLiterals_identifier ht]
  unfold LiteralScan.literalAt? at hnone
  split
  · rfl
  · rename_i hout
    rw [if_neg hout] at hnone
    rw [hnone]

theorem scanLiterals_literal {type : LiteralType} (ht : t.kind = .identifier)
    (hsome : s.literalAt? t ts = some (type, inside)) :
    r.scanLiterals s (t :: ts) = r.group .brace inside >>= fun parts =>
      r.literalElements parts.1 >>= fun elements =>
      r.scanLiterals s.past parts.2 >>= fun more =>
      pure (.mk type (r.locate t) elements :: more) := by
  rw [scanLiterals_identifier ht]
  unfold LiteralScan.literalAt? at hsome
  split
  · rename_i hin
    rw [if_pos hin] at hsome
    cases hsome
  · rename_i hout
    rw [if_neg hout] at hsome
    rw [hsome]

/-- **Each step is as its reader goes on.** -/
theorem reads_step (h : r.read c = .ok lits) : r.Reads c (r.step c) := by
  fun_cases step r c with
  | case1 s => exact .none (by simp only [read, scanLiterals])
  | case2 s t ts ht => exact .one h (scanLiterals_openHeader ht)
  | case3 s t ts hheader ht e hskip =>
    simp only [read, scanLiterals_func ht, hskip] at h
    cases h
  | case4 s t ts hheader ht after hskip hopen =>
    refine .one h ?_
    simp only [read, scanLiterals_func ht, hskip, ok_bind, hopen]
  | case5 s t ts hheader ht after hskip inside hopen e hgroup =>
    simp only [read, scanLiterals_func ht, hskip, ok_bind, hopen, hgroup] at h
    cases h
  | case6 s t ts hheader ht after hskip inside hopen body rest hgroup =>
    have hscan := h
    simp only [read, scanLiterals_func ht, hskip, ok_bind, hopen, hgroup] at hscan
    obtain ⟨inner, hinner, hscan⟩ := bind_eq_ok.1 hscan
    obtain ⟨more, hmore, hscan⟩ := bind_eq_ok.1 hscan
    obtain rfl := Except.ok.inj hscan
    exact .two h hinner hmore
  | case7 s t ts hheader b ht => exact .one h (scanLiterals_opening ht)
  | case8 s t ts hheader b ht => exact .one h (scanLiterals_closing ht)
  | case9 s t ts hheader ht => exact .one h (scanLiterals_period ht)
  | case10 s t ts hheader ht hnone => exact .one h (scanLiterals_name ht hnone)
  | case11 s t ts hheader ht type inside hsome => exact .literal h (scanLiterals_literal ht hsome)
  | case12 s t ts hheader hfunc hopen hclose hperiod hname =>
    have hplain : ¬ t.IsBracket := by
      rintro ⟨b, hb⟩
      exact hb.elim (hopen b) (hclose b)
    exact .one h (scanLiterals_token hplain hheader hfunc hperiod hname)
  | case13 ts hopen =>
    refine .one h ?_
    simp only [read, scanElement_eq, hopen]
  | case14 ts inside hopen =>
    refine .literal h ?_
    simp only [read, scanElement_eq, hopen]
  | case15 => exact .none (read_elements.2 ⟨[], by rw [literalElements], rfl⟩)
  | case16 t ts hblank =>
    refine .one h ?_
    simp only [read, literalElements_blank hblank]
  | case17 t ts hentry entry hcolon =>
    obtain ⟨elements, hscan, rfl⟩ := read_elements.1 h
    rw [literalElements_unkeyed hentry hcolon] at hscan
    obtain ⟨nested, hnested, hscan⟩ := bind_eq_ok.1 hscan
    obtain ⟨more, hmore, hscan⟩ := bind_eq_ok.1 hscan
    obtain rfl := Except.ok.inj hscan
    exact .two h hnested (read_elements.2 ⟨more, hmore, rfl⟩)
  | case18 t ts hentry key colon value hcolon =>
    obtain ⟨elements, hscan, rfl⟩ := read_elements.1 h
    rw [literalElements_keyed hentry hcolon] at hscan
    obtain ⟨inKey, hkey, hscan⟩ := bind_eq_ok.1 hscan
    obtain ⟨inValue, hvalue, hscan⟩ := bind_eq_ok.1 hscan
    obtain ⟨more, hmore, hscan⟩ := bind_eq_ok.1 hscan
    obtain rfl := Except.ok.inj hscan
    have hkey : r.read ⟨.element, key⟩ = .ok inKey := hkey
    have hvalue : r.read ⟨.element, value⟩ = .ok inValue := hvalue
    have hmore := read_elements.2 ⟨more, hmore, rfl⟩
    refine ⟨by simpa using ⟨⟨_, hkey⟩, ⟨_, hvalue⟩, _, hmore⟩, ?_⟩
    rw [recorded_eq h, List.flatMap_cons, List.append_assoc, CompositeLit.preorderAll_append,
      CompositeLit.preorderAll_append]
    simp [recorded_eq hkey, recorded_eq hvalue, recorded_eq hmore]

/-- **The literals of the sites are those that the reader finds**, in their order. -/
theorem sites_recorded (h : r.Accepts c) :
    (r.sites c).map LiteralSite.literal = r.recorded c := by
  induction hsize : c.size using Nat.strongRecOn generalizing c with
  | ind n ih =>
    subst hsize
    obtain ⟨lits, hread⟩ := h
    have hstep := reads_step hread
    have hnext : ∀ d ∈ (r.step c).next, (r.sites d).map LiteralSite.literal = r.recorded d :=
      fun d hd => ih _ (size_lt_of_mem_step c d hd) (hstep.accepts d hd) rfl
    rw [sites_eq, hstep.recorded, List.map_append, List.map_flatMap, List.flatMap_congr hnext]
    cases (r.step c).site <;> rfl

/-! ### The steps of a scan -/

theorem step_openHeader (ht : t.OpensHeader) :
    r.step ⟨.code s, t :: ts⟩ = { next := [⟨.code s.openHeader, ts⟩] } := by
  simp only [step, if_pos ht]

theorem step_signature (ht : t.kind = .keyword .funcKw) (hskip : r.skipSignature ts = .ok after)
    (hopen : afterOpening? .brace after = none) :
    r.step ⟨.code s, t :: ts⟩ = { next := [⟨.code s.past, after⟩] } := by
  simp only [step, if_neg (Token.not_opensHeader ht (by simp)), ht, hskip, hopen]

theorem step_function (ht : t.kind = .keyword .funcKw) (hskip : r.skipSignature ts = .ok after)
    (hopen : afterOpening? .brace after = some inside)
    (hgroup : r.group .brace inside = .ok (body, rest)) :
    r.step ⟨.code s, t :: ts⟩ = { next := [⟨.code {}, body⟩, ⟨.code s.past, rest⟩] } := by
  simp only [step, if_neg (Token.not_opensHeader ht (by simp)), ht, hskip, hopen, hgroup]

theorem step_opening {b : Bracket} (ht : t.kind = .opening b) :
    r.step ⟨.code s, t :: ts⟩ = { next := [⟨.code (s.openGroup b), ts⟩] } := by
  simp only [step, if_neg (Token.not_opensHeader ht (by simp)), ht]

theorem step_closing {b : Bracket} (ht : t.kind = .closing b) :
    r.step ⟨.code s, t :: ts⟩ = { next := [⟨.code (s.closeGroup b), ts⟩] } := by
  simp only [step, if_neg (Token.not_opensHeader ht (by simp)), ht]

theorem step_period (ht : t.kind = .period) :
    r.step ⟨.code s, t :: ts⟩ = { next := [⟨.code { s with selected := true }, ts⟩] } := by
  simp only [step, if_neg (Token.not_opensHeader ht (by simp)), ht]

theorem step_name (ht : t.kind = .identifier) :
    r.step ⟨.code s, t :: ts⟩ =
      match s.literalAt? t ts with
      | none => { next := [⟨.code s.past, ts⟩] }
      | some (type, inside) => r.literalStep type t (firstBrace t ts) (.code s.past) inside := by
  simp only [step, if_neg (Token.not_opensHeader ht (by simp)), ht]

theorem step_token (hplain : ¬ t.IsBracket) (hheader : ¬ t.OpensHeader)
    (hfunc : t.kind ≠ .keyword .funcKw) (hperiod : t.kind ≠ .period)
    (hname : t.kind ≠ .identifier) :
    r.step ⟨.code s, t :: ts⟩ = { next := [⟨.code s.past, ts⟩] } := by
  simp only [step, if_neg hheader]
  split <;> rename_i ht
  · exact absurd ht hfunc
  · exact absurd ⟨_, Or.inl ht⟩ hplain
  · exact absurd ⟨_, Or.inr ht⟩ hplain
  · exact absurd ht hperiod
  · exact absurd ht hname
  · rfl

/-! ### How a reader gets there -/

/-- A reader comes from one spot to another one, by steps. -/
def Comes (r : Reading) : Spot → Spot → Prop :=
  Relation.ReflTransGen fun c d => d ∈ (r.step c).next

/-- The reader goes on with other tokens. -/
theorem Comes.one (hstep : r.step c = { next := [d] }) : r.Comes c d :=
  .single (by rw [hstep]; exact List.mem_singleton_self d)

/-- The reader goes on after a part that is read on its own. -/
theorem Comes.second {part : Spot} {site : Option LiteralSite}
    (hstep : r.step c = { site, next := [part, d] }) : r.Comes c d :=
  .single (by rw [hstep]; exact List.mem_cons_of_mem _ (List.mem_singleton_self d))

theorem Comes.trans {e : Spot} (h : r.Comes c d) (h' : r.Comes d e) : r.Comes c e :=
  Relation.ReflTransGen.trans h h'

/-- The literals of a spot are those that start where its reader comes. -/
theorem mem_sites {site : LiteralSite} :
    site ∈ r.sites c ↔ ∃ d, r.Comes c d ∧ (r.step d).site = some site := by
  constructor
  · intro h
    induction hsize : c.size using Nat.strongRecOn generalizing c with
    | ind n ih =>
      subst hsize
      rw [sites_eq] at h
      rcases List.mem_append.1 h with h | h
      · exact ⟨c, .refl, by simpa using h⟩
      · obtain ⟨d, hd, h⟩ := List.mem_flatMap.1 h
        obtain ⟨e, hcomes, hsite⟩ := ih _ (size_lt_of_mem_step c d hd) h rfl
        exact ⟨e, .head hd hcomes, hsite⟩
  · rintro ⟨d, hcomes, hsite⟩
    induction hcomes using Relation.ReflTransGen.head_induction_on with
    | refl =>
      rw [sites_eq]
      exact List.mem_append_left _ (by simpa using hsite)
    | head hnext _ ih =>
      rw [sites_eq]
      exact List.mem_append_right _ (List.mem_flatMap.2 ⟨_, hnext, ih⟩)

theorem Comes.sites_subset (hcomes : r.Comes c d) : r.sites d ⊆ r.sites c := by
  intro site h
  obtain ⟨e, hcomes', hsite⟩ := mem_sites.1 h
  exact mem_sites.2 ⟨e, hcomes.trans hcomes', hsite⟩

theorem Comes.accepts (hcomes : r.Comes c d) (h : r.Accepts c) : r.Accepts d := by
  induction hcomes with
  | refl => exact h
  | tail _ hnext ih =>
    obtain ⟨lits, hread⟩ := ih
    exact (reads_step hread).accepts _ hnext

/-- What is read next is of the tokens. -/
theorem sublist_of_mem_step (h : d ∈ (r.step c).next) : d.tokens.Sublist c.tokens :=
  ((List.sublist_flatten_of_mem (List.mem_map_of_mem h)).trans
    (List.sublist_append_right _ _)).trans (step_sublist r c)

theorem Comes.sublist (hcomes : r.Comes c d) : d.tokens.Sublist c.tokens := by
  induction hcomes with
  | refl => exact .refl _
  | tail _ hnext ih => exact (sublist_of_mem_step hnext).trans ih

theorem brace_mem {site : LiteralSite} (h : site ∈ r.sites c) : site.brace ∈ c.tokens := by
  obtain ⟨d, hcomes, hsite⟩ := mem_sites.1 h
  have hbrace : site.brace ∈ (r.step d).tokens := by simp [ReadStep.tokens, hsite]
  exact hcomes.sublist.subset ((step_sublist r d).subset hbrace)

/-- A token that is there once is in one of the lists only. -/
theorem eq_of_count_flatMap {α : Type} {f : α → List Token} {u : Token} {as : List α} {a b : α}
    (h : (as.flatMap f).count u ≤ 1) (ha : a ∈ as) (hb : b ∈ as) (hua : u ∈ f a) (hub : u ∈ f b) :
    a = b := by
  induction as with
  | nil => cases ha
  | cons x as ih =>
    rw [List.flatMap_cons, List.count_append] at h
    have clash {y : α} (hx : u ∈ f x) (hy : y ∈ as) (hu : u ∈ f y) : False := by
      have hfirst := List.count_pos_iff.2 hx
      have hothers := List.count_pos_iff.2 (List.mem_flatMap.2 ⟨y, hy, hu⟩)
      omega
    rcases List.mem_cons.1 ha with rfl | ha <;> rcases List.mem_cons.1 hb with rfl | hb
    · rfl
    · exact (clash hua hb hub).elim
    · exact (clash hub ‹_› hua).elim
    · exact ih (by omega) ha hb

/-- **A brace that is there once is of a literal of the spot where the reader comes**, if it is of
any and is there. -/
theorem Comes.mem_sites {site : LiteralSite} (hcomes : r.Comes c d)
    (honce : c.tokens.count site.brace ≤ 1) (hd : site.brace ∈ d.tokens) (h : site ∈ r.sites c) :
    site ∈ r.sites d := by
  induction hcomes using Relation.ReflTransGen.head_induction_on with
  | refl => exact h
  | @head c e hnext hcomes ih =>
    have hcomes : r.Comes e d := hcomes
    have he : site.brace ∈ e.tokens := hcomes.sublist.subset hd
    have hin : site.brace ∈ (r.step c).next.flatMap Spot.tokens :=
      List.mem_flatMap.2 ⟨e, hnext, he⟩
    have hstep := Nat.le_trans ((step_sublist r c).count_le site.brace) honce
    rw [ReadStep.tokens, List.count_append] at hstep
    refine ih (Nat.le_trans ((sublist_of_mem_step hnext).count_le _) honce) ?_
    rw [sites_eq] at h
    rcases List.mem_append.1 h with h | h
    · -- The brace would be there twice.
      have hsite : (r.step c).site = some site := by simpa using h
      have := List.count_pos_iff.2 hin
      simp [hsite] at hstep
      omega
    · obtain ⟨f, hf, h⟩ := List.mem_flatMap.1 h
      rwa [eq_of_count_flatMap (Nat.le_trans (Nat.le_add_left _ _) hstep) hnext hf he (brace_mem h)]

/-- A literal starts at a name with its type, or at a brace. -/
theorem site_of_step {site : LiteralSite} (h : (r.step c).site = some site) :
    (∃ s t ts type inside, c = ⟨.code s, t :: ts⟩ ∧ t.kind = .identifier ∧
        s.literalAt? t ts = some (type, inside) ∧ site.brace = firstBrace t ts ∧
        site.literal.type = type) ∨
      ∃ inside, c = ⟨.element, site.brace :: inside⟩ ∧ site.brace.kind = .opening .brace := by
  have literal {type : LiteralType} {start brace : Token} {after : LiteralReader}
      {inside : List Token} (h : (r.literalStep type start brace after inside).site = some site) :
      site.brace = brace ∧ site.literal.type = type := by
    rcases literalStep_cases (r := r) type start brace after inside with
      heq | ⟨body, rest, elements, -, -, heq⟩ <;> rw [heq] at h
    · cases h
    · obtain rfl := Option.some.inj h
      exact ⟨rfl, rfl⟩
  revert h
  fun_cases step r c with
  | case11 s t ts hheader ht type inside hsome =>
    intro h
    obtain ⟨hbrace, htype⟩ := literal h
    exact Or.inl ⟨s, t, ts, type, inside, rfl, ht, hsome, hbrace, htype⟩
  | case14 ts inside hopen =>
    intro h
    obtain ⟨hbrace, -⟩ := literal h
    obtain ⟨brace, hkind, rfl⟩ := afterOpening?_eq_some.1 hopen
    obtain rfl : site.brace = brace := hbrace
    exact Or.inr ⟨inside, rfl, hkind⟩
  | _ => nofun

/-- A literal whose type can be read is read, if its reader comes to an end. -/
theorem step_literal {type : LiteralType} (h : r.Accepts ⟨.code s, t :: ts⟩)
    (ht : t.kind = .identifier) (hsome : s.literalAt? t ts = some (type, inside)) :
    ∃ elements body rest, r.group .brace inside = .ok (body, rest) ∧
      r.step ⟨.code s, t :: ts⟩ =
        { site := some ⟨.mk type (r.locate t) elements, firstBrace t ts⟩
          next := [⟨.elements, body⟩, ⟨.code s.past, rest⟩] } := by
  obtain ⟨lits, hread⟩ := h
  obtain ⟨body, rest, elements, -, hgroup, -, -, -, hstep⟩ :=
    literalStep_of_read (firstBrace t ts) (.code s.past) hread (scanLiterals_literal ht hsome)
  refine ⟨elements, body, rest, hgroup, ?_⟩
  rw [step_name ht, hsome]
  exact hstep

theorem exists_site {type : LiteralType} (h : r.Accepts ⟨.code s, t :: ts⟩)
    (ht : t.kind = .identifier) (hsome : s.literalAt? t ts = some (type, inside)) :
    ∃ site ∈ r.sites ⟨.code s, t :: ts⟩, site.brace = firstBrace t ts := by
  obtain ⟨elements, body, rest, -, hstep⟩ := step_literal h ht hsome
  exact ⟨_, mem_sites.2 ⟨_, .refl, by rw [hstep]⟩, rfl⟩

end Reading

/-! ### The literals of a source file -/

/-- The literals of code of a source, outer ones first, each with its brace. -/
def Source.sites (source : Source) (code : List Token) : List LiteralSite :=
  source.reader.sites ⟨.code {}, code⟩

/-- **The literals of code are those of its declaration**, in their order. -/
theorem SourceFile.exists_sites {source : Source} {file : SourceFile} {code : List Token}
    (h : SourceFile.parse source = .ok file) (hcode : source.Code code) :
    source.reader.Accepts ⟨.code {}, code⟩ ∧
      ∃ d ∈ file.decls, (source.sites code).map LiteralSite.literal =
        CompositeLit.preorderAll d.literals := by
  obtain ⟨name, rest, hclause, hdecls⟩ := parse_ok h
  obtain ⟨name', rest', hclause', hcode⟩ := hcode
  have hsame : Except.ok (name', rest') = Except.ok (name, rest) := hclause'.symm.trans hclause
  obtain ⟨rfl, rfl⟩ := Prod.mk.inj (Except.ok.inj hsame)
  obtain ⟨d, hd, hscan⟩ := Reading.exists_decl hcode hdecls
  have hread : source.reader.read ⟨.code {}, code⟩ = .ok d.literals := hscan
  refine ⟨⟨_, hread⟩, d, hd, ?_⟩
  rw [Source.sites, Reading.sites_recorded ⟨_, hread⟩, Reading.recorded_eq hread]

end BuildOrder
