import BuildOrder.Proofs.Sites
import BuildOrder.Proofs.Untagged
import BuildOrder.Proofs.Written

/-!
# Qualifiers after a prefix of a type

A type such as `[]*q.T` has parts before the name of the type that it is made of. The readers of
literals see the one token before the qualifier only.

* `TypePrefix`, `TypePrefix.selects`: the parts, and **whether a name after them is selected from
  them.**
* `LiteralScan.Agrees`, `Spot.StandsIn`: what a scan knows of the tokens before those it reads.
* `Reading.standsIn_step`, `Comes.standsIn`: **each step knows what is before it**, and so does each
  spot where a reader comes.
* `Reading.PrefixedLiteral.type_eq`: the type that is recorded.
* `SourceFile.prefixed_type`: **the qualifier of a literal is lost if the prefix of its type ends
  with a bracket**, and not otherwise; `SourceFile.exists_reported_pointer`: after a star the
  literal is reported for its elements.
-/

namespace BuildOrder

/-! ### Prefixes -/

/-- A part of a type that stands before the type it is made of: an array or slice, a map, or a
channel. The flag says whether it ends with a square bracket. -/
inductive TypePart (r : Reading) : Bool → List Token → Prop
  | array {opening closing : Token} {size : List Token} :
      opening.kind = .opening .square → r.group .square (size ++ [closing]) = .ok (size, []) →
      TypePart r true (opening :: (size ++ [closing]))
  | map {keyword opening closing : Token} {key : List Token} :
      keyword.kind = .keyword .mapKw → opening.kind = .opening .square →
      r.group .square (key ++ [closing]) = .ok (key, []) →
      TypePart r true (keyword :: opening :: (key ++ [closing]))
  | channel {keyword : Token} : keyword.kind = .keyword .chanKw → TypePart r false [keyword]
  | send {keyword arrow : Token} :
      keyword.kind = .keyword .chanKw → arrow.kind = .operator → arrow.lexeme = ascii "<-" →
      TypePart r false [keyword, arrow]
  | receive {keyword arrow : Token} :
      arrow.kind = .operator → arrow.lexeme = ascii "<-" → keyword.kind = .keyword .chanKw →
      TypePart r false [arrow, keyword]

/-- Parts of a type one after the other, and stars between and after them. -/
inductive TypePrefix (r : Reading) : Bool → List Token → Prop
  | part {e : Bool} {ts : List Token} : TypePart r e ts → TypePrefix r e ts
  | append {e e' : Bool} {front ts : List Token} :
      TypePrefix r e front → TypePart r e' ts → TypePrefix r e' (front ++ ts)
  | star {e : Bool} {front : List Token} {star : Token} :
      TypePrefix r e front → star.kind = .operator → star.lexeme = ascii "*" →
      TypePrefix r false (front ++ [star])

theorem selects_concat {ts : List Token} {t : Token} :
    Selects (ts ++ [t]) ↔ t.kind = .period ∨ t.kind = .closing .square := by
  simp [Selects]

variable {r : Reading} {s : LiteralScan} {c d : Spot} {e : Bool} {t : Token}
  {sofar ts pre rest code : List Token} {phrase : Reading.Phrase}

theorem TypePart.selects (h : TypePart r e ts) (front : List Token) :
    Selects (front ++ ts) ↔ e = true := by
  have bracket {inside : List Token} {closing : Token}
      (hgroup : r.group .square (inside ++ [closing]) = .ok (inside, [])) (front : List Token) :
      Selects (front ++ (inside ++ [closing])) := by
    obtain ⟨u, hu, heq⟩ := Reading.group_split hgroup
    obtain rfl : closing = u := (List.cons.inj (List.append_cancel_left heq)).1
    rw [← List.append_assoc, selects_concat]
    exact Or.inr hu
  cases h with
  | @array opening closing size hopening hgroup =>
    rw [List.append_cons]
    exact iff_of_true (bracket hgroup _) rfl
  | @map keyword opening closing key hkeyword hopening hgroup =>
    rw [List.append_cons, List.append_cons]
    exact iff_of_true (bracket hgroup _) rfl
  | channel hkeyword =>
    rw [selects_concat, hkeyword]
    simp
  | send hkeyword harrow _ =>
    rw [List.append_cons, selects_concat, harrow]
    simp
  | receive harrow _ hkeyword =>
    rw [List.append_cons, selects_concat, hkeyword]
    simp

/-- **A name after the prefix is selected from it if it ends with a bracket.** -/
theorem TypePrefix.selects (h : TypePrefix r e ts) (front : List Token) :
    Selects (front ++ ts) ↔ e = true := by
  cases h with
  | part hpart => exact hpart.selects front
  | append _ hpart =>
    rw [← List.append_assoc]
    exact hpart.selects _
  | star _ hstar _ =>
    rw [← List.append_assoc, selects_concat, hstar]
    simp

/-! ### What a scan knows of the tokens before -/

/-- The tokens do not end within a type of a literal. -/
def Opens (sofar : List Token) : Prop :=
  ∀ t ∈ sofar.getLast?, t.kind ≠ .identifier ∧ t.kind ≠ .period ∧ t.kind ≠ .closing .square

theorem opens_concat (ht : t.kind ≠ .identifier ∧ t.kind ≠ .period ∧ t.kind ≠ .closing .square) :
    Opens (sofar ++ [t]) := by
  simpa [Opens] using ht

theorem Opens.not_selects (h : Opens sofar) : ¬ Selects sofar := by
  rintro ⟨t, ht, hkind⟩
  exact hkind.elim (h t ht).2.1 (h t ht).2.2

/-- A name before the tokens is the qualifier of the type of a literal. -/
def Qualifies (ts : List Token) : Prop :=
  ∃ point name brace inside, point.kind = .period ∧ name.kind = .identifier ∧
    brace.kind = .opening .brace ∧ ts = point :: name :: brace :: inside

/-- A scan that has come as far as the tokens `sofar` knows whether a name is selected from them,
and it is within a qualified type of a literal in a header only. -/
structure LiteralScan.Agrees (s : LiteralScan) (sofar ts : List Token) : Prop where
  selected : ∀ t ∈ ts.head?, t.kind = .identifier → (s.selected = true ↔ Selects sofar)
  inHeader : ∀ pre q mid, sofar = pre ++ q :: mid → mid.length ≤ 1 → q.kind = .identifier →
    ¬ Selects pre → Qualifies (mid ++ ts) → s.inHeader = true

/-- Where no type goes on, a scan that has selected nothing agrees with the tokens. -/
theorem LiteralScan.agrees_of_opens (hselected : s.selected = false)
    (h : Opens sofar ∨ ∀ t ∈ ts.head?, t.EndsType) : s.Agrees sofar ts := by
  have head {t : Token} {kind : TokenKind} (ht : t ∈ ts.head?) (hkind : t.kind = kind)
      (hname : kind = .identifier ∨ kind = .period) : Opens sofar := by
    refine h.resolve_right fun hends => ?_
    rcases hname with rfl | rfl <;>
      rcases hends t ht with hend | hend | hend | ⟨b, hend⟩ <;> cases hkind.symm.trans hend
  refine ⟨fun t ht hkind => ?_, fun pre q mid hsofar hmid hq hpre hqualifies => ?_⟩
  · rw [hselected]
    exact iff_of_false nofun (head ht hkind (Or.inl rfl)).not_selects
  · obtain ⟨point, name, brace, inside, hpoint, hname, -, heq⟩ := hqualifies
    match mid, hmid with
    | [], _ =>
      have hts : ts = point :: name :: brace :: inside := heq
      have hopens : Opens sofar := head (by simp [hts]) hpoint (Or.inr rfl)
      exact absurd hq (hopens q (by simp [hsofar])).1
    | [m], _ =>
      obtain ⟨rfl, hts⟩ := List.cons.inj heq
      have hts : ts = name :: brace :: inside := hts
      have hopens : Opens sofar := head (by simp [hts]) hname (Or.inl rfl)
      exact absurd hpoint (hopens m (by simp [hsofar])).2.1

/-- What is known where a reader stands after the tokens `sofar`. -/
def LiteralReader.Knows (reader : LiteralReader) (sofar ts : List Token) : Prop :=
  match reader with
  | .code s => s.Agrees sofar ts
  | .element | .elements => ts ≠ [] → Opens sofar

/-- The tokens of a spot stand in the code, where its reader knows what is before them. -/
def Spot.StandsIn (code : List Token) (c : Spot) : Prop :=
  ∃ sofar, sofar ++ c.tokens <+: code ∧ c.reader.Knows sofar c.tokens

/-- The end of some tokens, and what is before it, is one token or two. -/
theorem concat_eq_cases {pre mid : List Token} {q : Token} (h : sofar ++ [t] = pre ++ q :: mid)
    (hmid : mid.length ≤ 1) :
    (pre = sofar ∧ q = t ∧ mid = []) ∨ sofar = pre ++ [q] ∧ mid = [t] := by
  match mid, hmid with
  | [], _ =>
    obtain ⟨rfl, hq⟩ := List.append_inj' h rfl
    exact Or.inl ⟨rfl, (List.cons.inj hq).1.symm, rfl⟩
  | [m], _ =>
    have h : sofar ++ [t] = (pre ++ [q]) ++ [m] := by simpa using h
    obtain ⟨rfl, hm⟩ := List.append_inj' h rfl
    exact Or.inr ⟨rfl, hm.symm⟩

namespace LiteralScan.Agrees

/-- After a point. -/
theorem period (h : s.Agrees sofar (t :: ts)) (ht : t.kind = .period) :
    ({ s with selected := true } : LiteralScan).Agrees (sofar ++ [t]) ts := by
  refine ⟨fun _ _ _ => iff_of_true rfl (selects_concat.2 (Or.inl ht)),
    fun pre q mid hsofar hmid hq hpre hqualifies => ?_⟩
  rcases concat_eq_cases hsofar hmid with ⟨-, rfl, -⟩ | ⟨hfront, rfl⟩
  · cases ht.symm.trans hq
  · exact h.inHeader pre q [] hfront (Nat.zero_le 1) hq hpre hqualifies

/-- After a closing bracket. -/
theorem closing {b : Bracket} (ht : t.kind = .closing b) :
    (s.closeGroup b).Agrees (sofar ++ [t]) ts := by
  by_cases hb : b = .square
  · subst hb
    refine ⟨fun _ _ _ => iff_of_true rfl (selects_concat.2 (Or.inr ht)),
      fun pre q mid hsofar hmid hq hpre hqualifies => ?_⟩
    obtain ⟨point, name, brace, inside, hpoint, -, -, heq⟩ := hqualifies
    rcases concat_eq_cases hsofar hmid with ⟨-, rfl, -⟩ | ⟨-, rfl⟩
    · cases ht.symm.trans hq
    · obtain ⟨rfl, -⟩ := List.cons.inj heq
      cases ht.symm.trans hpoint
  · refine agrees_of_opens (by simpa [closeGroup] using hb) (Or.inl (opens_concat ?_))
    simpa [ht] using hb

/-- After a name that is no type of a literal. -/
theorem name (h : s.Agrees sofar (t :: ts)) (ht : t.kind = .identifier)
    (hnone : s.literalAt? t ts = none) : s.past.Agrees (sofar ++ [t]) ts := by
  refine ⟨fun _ _ _ => iff_of_false nofun ?_, fun pre q mid hsofar hmid hq hpre hqualifies => ?_⟩
  · rw [selects_concat, ht]
    simp
  obtain ⟨point, name, brace, inside, hpoint, hname, hbrace, heq⟩ := hqualifies
  rcases concat_eq_cases hsofar hmid with ⟨rfl, rfl, rfl⟩ | ⟨-, rfl⟩
  · -- The type would have been read here, were it not for a header.
    have hselected : s.selected = false :=
      Bool.eq_false_iff.2 fun hselected => hpre ((h.selected q rfl ht).1 hselected)
    have hts : ts = point :: name :: brace :: inside := heq
    by_cases hin : s.inHeader = true
    · exact hin
    · rw [literalAt?, if_neg hin, hselected, hts,
        Reading.literalType?_qualified hpoint hname hbrace] at hnone
      cases hnone
  · obtain ⟨rfl, -⟩ := List.cons.inj heq
    cases ht.symm.trans hpoint

end LiteralScan.Agrees

namespace Reading

/-- After a type or a signature no type goes on: what follows ends a type, or follows the results in
parentheses. -/
theorem Skips.ends (h : r.Skips phrase ts rest) :
    (∀ t ∈ rest.head?, t.EndsType) ∨ ∃ c, c.kind = .closing .paren ∧ c :: rest <:+ ts := by
  have longer {after ts rest : List Token} (hsuffix : after <:+ ts)
      (h : (∀ t ∈ rest.head?, t.EndsType) ∨ ∃ c, c.kind = .closing .paren ∧ c :: rest <:+ after) :
      (∀ t ∈ rest.head?, t.EndsType) ∨ ∃ c, c.kind = .closing .paren ∧ c :: rest <:+ ts :=
    h.imp_right fun ⟨c, hc, hrest⟩ => ⟨c, hc, hrest.trans hsuffix⟩
  induction h with
  | done => exact Or.inl nofun
  | stop ht => exact Or.inl (by simpa using ht)
  | func _ _ ih => exact longer (List.suffix_cons _ _) ih
  | fields _ hopen hgroup _ ih =>
    have hsuffix := (group_suffix hgroup).trans (afterOpening?_suffix hopen)
    exact longer (hsuffix.trans (List.suffix_cons _ _)) ih
  | group _ _ hgroup _ ih => exact longer ((group_suffix hgroup).trans (List.suffix_cons _ _)) ih
  | token _ _ _ _ _ ih => exact longer (List.suffix_cons _ _) ih
  | type _ _ ih => exact ih
  | params hparams hgroup _ _ ih =>
    exact longer ((group_suffix hgroup).trans (afterOpening?_suffix hparams)) ih
  | results hparams hgroup hresults hgroup' =>
    obtain ⟨c, hc, heq⟩ := group_split hgroup'
    have hsuffix := ((afterOpening?_suffix hresults).trans (group_suffix hgroup)).trans
      (afterOpening?_suffix hparams)
    rw [heq] at hsuffix
    exact Or.inr ⟨c, hc, (List.suffix_append _ _).trans hsuffix⟩

/-- No type goes on where a group in braces starts, and where it has ended. -/
theorem opens_group {brace : Token} {inside body : List Token}
    (hsofar : sofar ++ brace :: inside <+: code) (hbrace : brace.kind = .opening .brace)
    (hgroup : r.group .brace inside = .ok (body, rest)) :
    (∃ front, front ++ body <+: code ∧ Opens front) ∧
      ∃ front, front ++ rest <+: code ∧ Opens front := by
  obtain ⟨c, hc, rfl⟩ := group_split hgroup
  constructor
  · refine ⟨sofar ++ [brace], ?_, opens_concat (by simp [hbrace])⟩
    have hfirst : sofar ++ [brace] ++ body <+: sofar ++ brace :: (body ++ c :: rest) := by simp
    exact hfirst.trans hsofar
  · exact ⟨sofar ++ brace :: body ++ [c], by simpa using hsofar, opens_concat (by simp [hc])⟩

/-- No type goes on where an element of a literal starts. -/
theorem opens_entry (hsofar : sofar ++ ts <+: code) (hopens : Opens sofar) :
    (∃ front, front ++ trimTerminators (spanTop .comma 0 ts).1 <+: code ∧ Opens front) ∧
      ∃ front, front ++ (spanTop .comma 0 ts).2.tail <+: code ∧
        ((spanTop .comma 0 ts).2.tail ≠ [] → Opens front) := by
  obtain ⟨front, back, hentry, hfront, -⟩ := exists_trimTerminators (spanTop .comma 0 ts).1
  have hts := spanTop_append .comma 0 ts
  constructor
  · refine ⟨sofar ++ front, ?_, ?_⟩
    · have heq : front ++ (trimTerminators (spanTop .comma 0 ts).1 ++
          (back ++ (spanTop .comma 0 ts).2)) = ts := by
        conv => rhs; rw [← hts, hentry]
        simp
      refine List.IsPrefix.trans ⟨back ++ (spanTop .comma 0 ts).2, ?_⟩ hsofar
      simpa using congrArg (sofar ++ ·) heq
    · rcases List.eq_nil_or_concat' front with rfl | ⟨init, last, rfl⟩
      · rwa [List.append_nil]
      · rw [← List.append_assoc]
        exact opens_concat (by simp [hfront last (by simp)])
  · cases hrest : (spanTop .comma 0 ts).2 with
    | nil => exact ⟨sofar ++ ts, by simpa using hsofar, fun hne => absurd rfl hne⟩
    | cons comma others =>
      have hcomma := spanTop_snd_eq_cons hrest
      refine ⟨sofar ++ (spanTop .comma 0 ts).1 ++ [comma], ?_, fun _ =>
        opens_concat (by simp [hcomma])⟩
      rw [hrest] at hts
      rw [← hts] at hsofar
      simpa using hsofar

/-- Where no type goes on, a reader that has selected nothing knows it. -/
theorem standsIn_of_opens {reader : LiteralReader}
    (h : ∃ front, front ++ ts <+: code ∧ (ts ≠ [] → Opens front))
    (hreader : ∀ s, reader = .code s → s.selected = false) : (Spot.mk reader ts).StandsIn code := by
  obtain ⟨front, hfront, hopens⟩ := h
  refine ⟨front, hfront, ?_⟩
  cases reader with
  | element | elements => exact hopens
  | code s =>
    refine LiteralScan.agrees_of_opens (hreader s rfl) ?_
    by_cases hts : ts = []
    · exact Or.inr (by simp [hts])
    · exact Or.inl (hopens hts)

/-- After one token, a scan goes on with the others. -/
theorem standsIn_token (hsofar : sofar ++ t :: ts <+: code) (hknows : s.Agrees (sofar ++ [t]) ts) :
    ∀ d ∈ [Spot.mk (.code s) ts], d.StandsIn code := by
  intro d hd
  obtain rfl := List.mem_singleton.1 hd
  exact ⟨sofar ++ [t], by simpa using hsofar, hknows⟩

/-- After the brace of a literal, its elements are read, and then what follows. -/
theorem standsIn_literalStep {type : LiteralType} {start brace : Token} {after : LiteralReader}
    {inside : List Token} (hsofar : sofar ++ brace :: inside <+: code)
    (hbrace : brace.kind = .opening .brace) (hafter : ∀ s, after = .code s → s.selected = false) :
    ∀ d ∈ (r.literalStep type start brace after inside).next, d.StandsIn code := by
  intro d hd
  obtain ⟨body, rest, hgroup, hd⟩ := mem_literalStep hd
  obtain ⟨⟨front, hfront, hopens⟩, front', hfront', hopens'⟩ := opens_group hsofar hbrace hgroup
  rcases hd with rfl | rfl
  · exact standsIn_of_opens ⟨front, hfront, fun _ => hopens⟩ nofun
  · exact standsIn_of_opens ⟨front', hfront', fun _ => hopens'⟩ hafter

/-- **Each step knows what is before the tokens** that are read next. -/
theorem standsIn_step (h : c.StandsIn code) : ∀ d ∈ (r.step c).next, d.StandsIn code := by
  obtain ⟨sofar, hsofar, hknows⟩ := h
  fun_cases step r c with
  | case1 | case3 | case5 | case15 => simp
  | case2 s t ts ht =>
    refine standsIn_token hsofar (LiteralScan.agrees_of_opens rfl (Or.inl (opens_concat ?_)))
    rcases ht with ht | ht | ht <;> simp [ht]
  | case4 s t ts hheader ht after hskip hopen =>
    intro d hd
    obtain rfl := List.mem_singleton.1 hd
    have hskips : r.Skips .signature ts after := skips_of_skip hskip
    rcases hskips.ends with hends | ⟨closing, hclosing, hsuffix⟩
    · obtain ⟨passed, rfl⟩ := hskips.suffix
      exact ⟨sofar ++ t :: passed, by simpa using hsofar,
        LiteralScan.agrees_of_opens rfl (Or.inr hends)⟩
    · obtain ⟨passed, rfl⟩ := hsuffix
      exact ⟨sofar ++ t :: passed ++ [closing], by simpa using hsofar,
        LiteralScan.agrees_of_opens rfl (Or.inl (opens_concat (by simp [hclosing])))⟩
  | case6 s t ts hheader ht after hskip inside hopen body rest hgroup =>
    obtain ⟨passed, rfl⟩ := skipSignature_suffix hskip
    obtain ⟨brace, hbrace, rfl⟩ := afterOpening?_eq_some.1 hopen
    have hsofar : (sofar ++ t :: passed) ++ brace :: inside <+: code := by simpa using hsofar
    obtain ⟨⟨front, hfront, hopens⟩, front', hfront', hopens'⟩ := opens_group hsofar hbrace hgroup
    intro d hd
    rcases List.mem_pair.1 hd with rfl | rfl
    · exact standsIn_of_opens ⟨front, hfront, fun _ => hopens⟩ (by rintro s ⟨⟩; rfl)
    · exact standsIn_of_opens ⟨front', hfront', fun _ => hopens'⟩ (by rintro s ⟨⟩; rfl)
  | case7 s t ts hheader b ht =>
    exact standsIn_token hsofar (LiteralScan.agrees_of_opens rfl
      (Or.inl (opens_concat (by simp [ht]))))
  | case8 s t ts hheader b ht => exact standsIn_token hsofar (.closing ht)
  | case9 s t ts hheader ht => exact standsIn_token hsofar (hknows.period ht)
  | case10 s t ts hheader ht hnone => exact standsIn_token hsofar (hknows.name ht hnone)
  | case11 s t ts hheader ht type inside hsome =>
    have hafter : ∀ s', LiteralReader.code s.past = .code s' → s'.selected = false := by
      rintro s' ⟨⟩
      rfl
    rcases (literalAt?_eq_some hsome).2 with
      ⟨brace, hbrace, rfl, -, hfirst⟩ | ⟨point, name, brace, -, -, -, hbrace, rfl, -, hfirst⟩
    · have hsofar : (sofar ++ [t]) ++ brace :: inside <+: code := by simpa using hsofar
      rw [hfirst]
      exact standsIn_literalStep hsofar hbrace hafter
    · have hsofar : (sofar ++ [t, point, name]) ++ brace :: inside <+: code := by
        simpa using hsofar
      rw [hfirst]
      exact standsIn_literalStep hsofar hbrace hafter
  | case12 s t ts hheader hfunc hopen hclose hperiod hname =>
    exact standsIn_token hsofar (LiteralScan.agrees_of_opens rfl
      (Or.inl (opens_concat ⟨hname, hperiod, hclose _⟩)))
  | case13 ts hopen =>
    intro d hd
    obtain rfl := List.mem_singleton.1 hd
    exact standsIn_of_opens ⟨sofar, hsofar, hknows⟩ (by rintro s ⟨⟩; rfl)
  | case14 ts inside hopen =>
    obtain ⟨brace, hbrace, rfl⟩ := afterOpening?_eq_some.1 hopen
    exact standsIn_literalStep hsofar hbrace (by rintro s ⟨⟩; rfl)
  | case16 t ts hblank =>
    obtain ⟨-, hrest⟩ := opens_entry hsofar (hknows (List.cons_ne_nil _ _))
    intro d hd
    obtain rfl := List.mem_singleton.1 hd
    exact standsIn_of_opens hrest (by rintro s ⟨⟩)
  | case17 t ts hentry entry hcolon =>
    obtain ⟨⟨front, hfront, hopens⟩, hrest⟩ :=
      opens_entry hsofar (hknows (List.cons_ne_nil _ _))
    rw [← spanTop_eq_nil hcolon] at hfront
    intro d hd
    rcases List.mem_pair.1 hd with rfl | rfl
    · exact standsIn_of_opens ⟨front, hfront, fun _ => hopens⟩ (by rintro s ⟨⟩)
    · exact standsIn_of_opens hrest (by rintro s ⟨⟩)
  | case18 t ts hentry key colon value hcolon =>
    obtain ⟨⟨front, hfront, hopens⟩, hrest⟩ :=
      opens_entry hsofar (hknows (List.cons_ne_nil _ _))
    obtain ⟨heq, hkind⟩ := spanTop_eq_cons hcolon
    rw [heq] at hfront
    intro d hd
    rcases List.mem_cons.1 hd with rfl | hd
    · have hkey : front ++ key <+: front ++ (key ++ colon :: value) := by simp
      exact standsIn_of_opens ⟨front, hkey.trans hfront, fun _ => hopens⟩ (by rintro s ⟨⟩)
    rcases List.mem_pair.1 hd with rfl | rfl
    · exact standsIn_of_opens ⟨front ++ key ++ [colon], by simpa using hfront,
        fun _ => opens_concat (by simp [hkind])⟩ (by rintro s ⟨⟩)
    · exact standsIn_of_opens hrest (by rintro s ⟨⟩)

theorem Comes.standsIn (hcomes : r.Comes c d) (h : c.StandsIn code) : d.StandsIn code := by
  induction hcomes with
  | refl => exact h
  | tail _ hnext ih => exact standsIn_step ih _ hnext

/-! ### The literal -/

/-- A literal in code whose type has a qualifier after a prefix. -/
structure PrefixedLiteral (r : Reading) (code : List Token) where
  before : List Token
  parts : List Token
  /-- The prefix ends with a square bracket. -/
  bracket : Bool
  qualifier : Token
  point : Token
  name : Token
  brace : Token
  after : List Token
  eq : code = before ++ (parts ++ qualifier :: point :: name :: brace :: after)
  typePrefix : TypePrefix r bracket parts
  qualifier_kind : qualifier.kind = .identifier
  point_kind : point.kind = .period
  name_kind : name.kind = .identifier
  brace_kind : brace.kind = .opening .brace

namespace PrefixedLiteral

variable (p : r.PrefixedLiteral code)

/-- The type that is recorded: the qualifier is lost after a bracket only. -/
def type : LiteralType := ⟨if p.bracket then [] else p.qualifier.lexeme, p.name.lexeme⟩

variable {p} {site : LiteralSite}

theorem selects : Selects (p.before ++ p.parts) ↔ p.bracket = true := p.typePrefix.selects p.before

theorem isPrefix_concat {inside : List Token} (h : sofar ++ t :: inside <+: code) :
    sofar ++ [t] <+: code := by
  have hfirst : sofar ++ [t] <+: sofar ++ t :: inside := by simp
  exact hfirst.trans h

theorem standsIn_start : (Spot.mk (.code {}) code).StandsIn code :=
  standsIn_of_opens ⟨[], List.prefix_refl _, fun _ => nofun⟩ (by rintro s ⟨⟩; rfl)

/-- Tokens of the code before the brace are those before the type, and the type. -/
theorem front_eq (honce : code.count p.brace ≤ 1) (h : sofar ++ [p.brace] <+: code) :
    sofar = p.before ++ p.parts ++ [p.qualifier, p.point, p.name] := by
  refine eq_of_count_le_one h ⟨p.after, ?_⟩ honce
  conv => rhs; rw [p.eq]
  simp

/-- **A literal that is recorded with the brace has this type.** -/
theorem type_eq (honce : code.count p.brace ≤ 1) (h : site ∈ r.sites ⟨.code {}, code⟩)
    (hbrace : site.brace = p.brace) : site.literal.type = p.type := by
  obtain ⟨d, hcomes, hstep⟩ := mem_sites.1 h
  obtain ⟨sofar, hsofar, hknows⟩ := hcomes.standsIn standsIn_start
  rcases site_of_step hstep with
    ⟨s, t, ts, type, inside, rfl, ht, hsome, hfirst, rfl⟩ | ⟨inside, rfl, hkind⟩
  · rw [hbrace] at hfirst
    have hknows : s.Agrees sofar (t :: ts) := hknows
    obtain ⟨hout, htype⟩ := literalAt?_eq_some hsome
    rcases htype with ⟨brace, -, rfl, htype, hbrace'⟩ |
      ⟨point, name, brace, hselected, -, -, -, rfl, htype, hbrace'⟩
    · -- The name alone is the type: the scan has passed the qualifier, which was selected.
      obtain rfl : p.brace = brace := hfirst.trans hbrace'
      have hsofar : (sofar ++ [t]) ++ p.brace :: inside <+: code := by simpa using hsofar
      have heq : sofar ++ [t] = p.before ++ p.parts ++ [p.qualifier, p.point] ++ [p.name] := by
        rw [front_eq honce (isPrefix_concat hsofar)]
        simp
      obtain ⟨rfl, hname⟩ := List.append_inj' heq rfl
      obtain rfl := (List.cons.inj hname).1
      have hbracket : p.bracket = true := by
        by_cases hbracket : p.bracket = true
        · exact hbracket
        · refine absurd (hknows.inHeader (p.before ++ p.parts) p.qualifier [p.point] rfl
            (Nat.le_refl 1) p.qualifier_kind (fun hselects => hbracket (p.selects.1 hselects)) ?_)
            (by rw [hout]; nofun)
          exact ⟨p.point, p.name, p.brace, inside, p.point_kind, p.name_kind, p.brace_kind, rfl⟩
      rw [htype, type, if_pos hbracket]
    · obtain rfl : p.brace = brace := hfirst.trans hbrace'
      have hsofar : (sofar ++ [t, point, name]) ++ p.brace :: inside <+: code := by
        simpa using hsofar
      have heq := front_eq honce (isPrefix_concat hsofar)
      obtain ⟨rfl, htokens⟩ := List.append_inj' heq rfl
      obtain ⟨rfl, rfl, rfl⟩ : t = p.qualifier ∧ point = p.point ∧ name = p.name := by
        simpa using htokens
      have hbracket : ¬ p.bracket = true := by
        rw [← p.selects, ← hknows.selected _ rfl ht, hselected]
        nofun
      rw [htype, type, if_neg hbracket]
  · -- A literal without a type starts where no type goes on.
    rw [hbrace] at hsofar hknows
    have hopens : Opens sofar := hknows (List.cons_ne_nil _ _)
    rw [front_eq honce (isPrefix_concat hsofar)] at hopens
    exact absurd p.name_kind (hopens p.name (by simp)).1

/-- **Where a scan comes to the qualifier, outside headers, a literal is recorded with the
brace.** -/
theorem exists_site (honce : code.count p.brace ≤ 1) (haccepts : r.Accepts ⟨.code {}, code⟩)
    {inside : List Token} (hcomes : r.Comes ⟨.code {}, code⟩
      ⟨.code s, p.qualifier :: p.point :: p.name :: p.brace :: inside⟩)
    (hout : s.inHeader = false) :
    ∃ site ∈ r.sites ⟨.code {}, code⟩, site.brace = p.brace := by
  obtain ⟨sofar, hsofar, hknows⟩ := hcomes.standsIn standsIn_start
  have hsofar : (sofar ++ [p.qualifier, p.point, p.name]) ++ p.brace :: inside <+: code := by
    simpa using hsofar
  have heq := front_eq honce (isPrefix_concat hsofar)
  obtain ⟨rfl, -⟩ := List.append_inj' heq rfl
  have hknows : s.Agrees (p.before ++ p.parts)
      (p.qualifier :: p.point :: p.name :: p.brace :: inside) := hknows
  have hselected : s.selected = true ↔ p.bracket = true :=
    (hknows.selected _ rfl p.qualifier_kind).trans p.selects
  by_cases hbracket : s.selected = true
  · -- The scan passes the qualifier and the point, and then reads the name alone.
    have hqualifier : r.step ⟨.code s, p.qualifier :: p.point :: p.name :: p.brace :: inside⟩ =
        { next := [⟨.code s.past, p.point :: p.name :: p.brace :: inside⟩] } := by
      rw [step_name p.qualifier_kind, literalAt?_selected hbracket p.point_kind]
    have hname := (hcomes.trans (.one hqualifier)).trans (.one (step_period p.point_kind))
    have hnamed :=
      literalAt?_named (s := { s with selected := true }) p.name inside hout p.brace_kind
    obtain ⟨site, hsite, hbrace⟩ :=
      Reading.exists_site (hname.accepts haccepts) p.name_kind hnamed.1
    exact ⟨site, hname.sites_subset hsite, hbrace.trans hnamed.2⟩
  · have hqualified := literalAt?_qualified p.qualifier inside hout
      (Bool.eq_false_iff.2 hbracket) p.point_kind p.name_kind p.brace_kind
    obtain ⟨site, hsite, hbrace⟩ :=
      Reading.exists_site (hcomes.accepts haccepts) p.qualifier_kind hqualified.1
    exact ⟨site, hcomes.sites_subset hsite, hbrace.trans hqualified.2⟩

end PrefixedLiteral

end Reading

/-! ### Source files -/

namespace SourceFile

/-- **The prefix of a type hides its qualifier if it ends with a square bracket**, and otherwise it
does not. The literals of code are those of its declaration. One that is recorded with the brace has
the type that follows the prefix, without the qualifier after a bracket, and then it is not
reported. Where a scan comes to the qualifier outside headers, one is recorded. -/
theorem prefixed_type {source : Source} {file : SourceFile} {code : List Token}
    (h : SourceFile.parse source = .ok file) (hcode : source.Code code)
    (p : source.reader.PrefixedLiteral code) :
    (∃ d ∈ file.decls, (source.sites code).map LiteralSite.literal =
      CompositeLit.preorderAll d.literals) ∧
    (∀ site ∈ source.sites code, site.brace = p.brace →
      site.literal.type = ⟨if p.bracket then [] else p.qualifier.lexeme, p.name.lexeme⟩ ∧
      (p.bracket = true → ∀ isStandard exempt path,
        ¬ file.Untagged isStandard exempt site.literal path)) ∧
    ∀ s inside, source.reader.Comes ⟨.code {}, code⟩
        ⟨.code s, p.qualifier :: p.point :: p.name :: p.brace :: inside⟩ → s.inHeader = false →
      ∃ site ∈ source.sites code, site.brace = p.brace := by
  obtain ⟨haccepts, hdecl⟩ := exists_sites h hcode
  have honce : code.count p.brace ≤ 1 :=
    hcode.count_le_one (by simp [p.brace_kind]) (by simp [p.brace_kind])
  refine ⟨hdecl, fun site hsite hbrace => ?_, fun s inside hcomes hout =>
    Reading.PrefixedLiteral.exists_site honce haccepts hcomes hout⟩
  have htype : site.literal.type = p.type :=
    Reading.PrefixedLiteral.type_eq honce hsite hbrace
  refine ⟨htype, fun hbracket isStandard exempt path huntagged => huntagged.qualified ?_⟩
  rw [htype, Reading.PrefixedLiteral.type, if_pos hbracket]

/-- A variable set to a slice of pointers to slices of a type with a qualifier. -/
def stackedSource : Source where
  filename := ascii "p.go"
  content := ascii "package p\nvar x = []*[]Q.T\x7b1\x7d\n"

def stackedBefore : List Token := [written .identifier "x" 14, written .operator "=" 16]

def stackedParts : List Token :=
  [written (.opening .square) "[" 18, written (.closing .square) "]" 19] ++
    [written .operator "*" 20] ++ [written (.opening .square) "[" 21, written (.closing .square) "]" 22]

def stackedBrace : Token := written (.opening .brace) "\x7b" 26

def stackedCode : List Token :=
  stackedBefore ++ (stackedParts ++ written .identifier "Q" 23 :: written .period "." 24 ::
    written .identifier "T" 25 :: stackedBrace ::
    [written .int "1" 27, written (.closing .brace) "\x7d" 28])

theorem code_stacked : stackedSource.Code stackedCode := by
  have hclause : (stackedSource.reader.packageClause
      (tokenize stackedSource.content).tokens.dropLast).toOption =
      some (written .identifier "p" 8, written (.keyword .varKw) "var" 10 ::
        (stackedCode ++ [Token.terminator 29])) := by
    decide +kernel
  have hcode : (spanTop .semicolon 0 (stackedCode ++ [Token.terminator 29])).1 = stackedCode := by
    decide +kernel
  refine ⟨_, _, eq_ok_of_toOption hclause, ?_⟩
  rw [← hcode]
  exact @Reading.Code.single stackedSource.reader _ .var _ rfl rfl

theorem typePrefix_stacked : TypePrefix stackedSource.reader true stackedParts := by
  have slice {opening closing : Token} (hopening : opening.kind = .opening .square)
      (hclosing : closing.kind = .closing .square) :
      TypePart stackedSource.reader true [opening, closing] :=
    @TypePart.array _ opening closing [] hopening (Reading.closeGroup_closing_last hclosing)
  exact .append (.star (.part (slice rfl rfl)) rfl rfl) (slice rfl rfl)

theorem prefixed_type_stacked :
    ∃ file, SourceFile.parse stackedSource = .ok file ∧ stackedSource.Code stackedCode ∧
      ∃ site ∈ stackedSource.sites stackedCode, site.brace = stackedBrace ∧
        site.literal.type = ⟨[], ascii "T"⟩ := by
  have hparse : (SourceFile.parse stackedSource).toOption.isSome := by decide +kernel
  obtain ⟨file, hfile⟩ := Option.isSome_iff_exists.1 hparse
  have hfile := eq_ok_of_toOption hfile
  have hbrace : stackedBrace ∈ (stackedSource.sites stackedCode).map LiteralSite.brace := by
    decide +kernel
  obtain ⟨site, hsite, hbrace⟩ := List.mem_map.1 hbrace
  obtain ⟨-, htype, -⟩ := prefixed_type hfile code_stacked
    { before := stackedBefore
      parts := stackedParts
      bracket := true
      qualifier := written .identifier "Q" 23
      point := written .period "." 24
      name := written .identifier "T" 25
      brace := stackedBrace
      after := [written .int "1" 27, written (.closing .brace) "\x7d" 28]
      eq := rfl
      typePrefix := typePrefix_stacked
      qualifier_kind := rfl
      point_kind := rfl
      name_kind := rfl
      brace_kind := rfl }
  exact ⟨file, hfile, code_stacked, site, hsite, hbrace, (htype site hsite hbrace).1⟩

/-- A variable set to a slice of pointers to a standard type. -/
def pointerSource : Source where
  filename := ascii "p.go"
  content := ascii "package p\nimport \"net/http\"\nvar x = []*http.Client\x7ba, b\x7d\n"

def pointerParts : List Token :=
  [written (.opening .square) "[" 36, written (.closing .square) "]" 37] ++
    [written .operator "*" 38]

def pointerBrace : Token := written (.opening .brace) "\x7b" 50

def pointerCode : List Token :=
  [written .identifier "x" 32, written .operator "=" 34] ++ (pointerParts ++
    written .identifier "http" 39 :: written .period "." 43 :: written .identifier "Client" 44 ::
    pointerBrace :: [written .identifier "a" 51, written .comma "," 52, written .identifier "b" 54,
      written (.closing .brace) "\x7d" 55])

theorem code_pointer : pointerSource.Code pointerCode := by
  have hclause : (pointerSource.reader.packageClause
      (tokenize pointerSource.content).tokens.dropLast).toOption.map Prod.snd =
      some (written (.keyword .importKw) "import" 10 ::
        { written .string "\"net/http\"" 17 with value := ascii "net/http" } ::
        Token.terminator 27 :: written (.keyword .varKw) "var" 28 ::
        (pointerCode ++ [Token.terminator 56])) := by
    decide +kernel
  have hcode : (spanTop .semicolon 0 (pointerCode ++ [Token.terminator 56])).1 = pointerCode := by
    decide +kernel
  obtain ⟨⟨name, rest⟩, hclause, hrest⟩ := Option.map_eq_some_iff.1 hclause
  refine ⟨name, rest, eq_ok_of_toOption hclause, ?_⟩
  obtain rfl := hrest.symm
  rw [← hcode]
  refine @Reading.Code.next pointerSource.reader _ _ _ _ _ rfl rfl ?_
  exact @Reading.Code.single pointerSource.reader _ .var _ rfl rfl

/-- What a check of the file of a source reports is reported of a literal. -/
theorem exists_reported_site {source : Source} {code : List Token} {brace : Token}
    {type : LiteralType} {path : Bytes} {report : Diagnostic}
    (hreports : (SourceFile.parse source).toOption.map (fun file =>
      (checkLiterals (fun _ => true) [] file).value) = some [report])
    (hsite : (brace, type, report) ∈ (source.sites code).map fun site =>
      (site.brace, site.literal.type, untaggedReport site.literal path)) :
    ∃ file, SourceFile.parse source = .ok file ∧
      (∃ site ∈ source.sites code, site.brace = brace ∧ site.literal.type = type ∧
        untaggedReport site.literal path = report) ∧
      (checkLiterals (fun _ => true) [] file).value = [report] := by
  obtain ⟨file, hfile, hreports⟩ := Option.map_eq_some_iff.1 hreports
  obtain ⟨site, hsite, heq⟩ := List.mem_map.1 hsite
  obtain ⟨hbrace, heq⟩ := Prod.mk.inj heq
  obtain ⟨htype, hreport⟩ := Prod.mk.inj heq
  exact ⟨file, eq_ok_of_toOption hfile, ⟨site, hsite, hbrace, htype, hreport⟩, hreports⟩

def pointerReport : Diagnostic where
  location := pointerSource.location 39
  message := ascii "composite struct literal net/http.Client with untagged fields"

/-- After a star the literal is taken for one of the type itself, and reported for the fields that
its elements, which are pointers, do not name. -/
theorem exists_reported_pointer :
    ∃ file, SourceFile.parse pointerSource = .ok file ∧ pointerSource.Code pointerCode ∧
      TypePrefix pointerSource.reader false pointerParts ∧
      (∃ site ∈ pointerSource.sites pointerCode, site.brace = pointerBrace ∧
        site.literal.type = ⟨ascii "http", ascii "Client"⟩ ∧
        untaggedReport site.literal (ascii "net/http") = pointerReport) ∧
      (checkLiterals (fun _ => true) [] file).value = [pointerReport] := by
  have hslice : TypePart pointerSource.reader true
      [written (.opening .square) "[" 36, written (.closing .square) "]" 37] :=
    @TypePart.array _ _ _ [] rfl (Reading.closeGroup_closing_last rfl)
  obtain ⟨file, hfile, hsite, hreports⟩ :=
    @exists_reported_site pointerSource pointerCode pointerBrace
      ⟨ascii "http", ascii "Client"⟩ (ascii "net/http") pointerReport (by decide +kernel)
      (by decide +kernel)
  exact ⟨file, hfile, code_pointer, .star (.part hslice) rfl rfl, hsite, hreports⟩

end SourceFile

end BuildOrder
