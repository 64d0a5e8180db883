import BuildOrder.Proofs.Tape
import BuildOrder.Proofs.Sites

/-!
# The stack of calls

The readers of code, of the elements of a literal, and of one key or value call each other. Here
they go over the tokens of a file by their places, one step at a time, with the calls that wait for
an answer on a stack. Nothing keeps a call in the range of its caller, or a counter above zero.

* `Tape.Point`, `Tape.move`: where a call stands, and what it does there.
* `Tape.State`, `Tape.advance`: the call that is at work and those that wait, and one step of them.
* `Tape.codeStep`: **what a scan of code does where its range is closed**, and what is read then.
* `Tape.Frame.Sound.move`: **a call stays in its range**, its counters are right, and the calls that
  it makes are for closed ranges in its own.
* `Tape.State.Sound.reaches`: this is so for all calls under way, whatever steps are taken.
* `Tape.State.Sound.bounded`: **a call inside a call of the same reader is for a range strictly
  inside, a scan of code goes forward, and no counter gets below zero.**
-/

namespace BuildOrder

/-- What is left of nested tokens without the terminators at both ends is nested. -/
theorem Nested.trim {ts : List Token} (h : Nested ts []) : Nested (trimTerminators ts) [] := by
  have plain {us : List Token} (hus : ∀ t ∈ us, t.kind = .semicolon) : Nested us [] :=
    nested_of_plain fun t ht => Token.not_isBracket (hus t ht) fun b => ⟨nofun, nofun⟩
  obtain ⟨front, back, hts, hfront, hback⟩ := Reading.exists_trimTerminators ts
  rw [hts, ← List.append_assoc] at h
  have hbefore := h.of_append (plain hback)
  obtain ⟨others, htrimmed⟩ := hbefore.suffix
  rwa [← ((plain hfront).append htrimmed).strays_unique hbefore]

namespace Tape

/-- The readers that call each other: of code, of the elements of a literal, and of one key or
value. -/
inductive Routine where
  | code
  | literal
  | element
deriving DecidableEq, Repr

/-- A call of a reader, and the range that it is given. -/
structure Call where
  routine : Routine
  first : Nat
  last : Nat
deriving DecidableEq, Repr

/-- Where the loop over the tokens between the braces of a literal stands. -/
structure ElementLoop where
  type : LiteralType
  location : Location
  elements : List (LiteralElement CompositeLit) := []
  /-- Where the element starts that is looked for the end of. -/
  start : Nat
  index : Nat
  /-- The brackets open, if no more were closed than opened. -/
  depth : Int := 0
deriving Repr

namespace ElementLoop

variable (loop : ElementLoop)

/-- After the comma, or the end of the literal, at the index. -/
def past : ElementLoop := { loop with start := loop.index + 1, index := loop.index + 1 }

def add (e : LiteralElement CompositeLit) : ElementLoop :=
  { loop with elements := loop.elements ++ [e] }

end ElementLoop

/-- Where a call stands. -/
inductive Point where
  /-- The scan of code has come to a place, and has found some literals. -/
  | code (index : Nat) (scan : LiteralScan) (found : List CompositeLit)
  | elements (loop : ElementLoop)
  /-- A colon is looked for in the element between two places. -/
  | colon (loop : ElementLoop) (first last index : Nat) (inner : Int)
  /-- The key of an element has been read, and its value is left. -/
  | value (loop : ElementLoop) (inKey : List CompositeLit) (first last : Nat)
  | element
  /-- What a key or value begins with has been read, and what follows it is left. -/
  | rest (index : Nat) (found : List CompositeLit)
  | ending (found : List CompositeLit)
deriving Repr

/-- The counters of open brackets that may get below zero. -/
def Point.counters : Point → List Int
  | .elements loop => [loop.depth]
  | .colon loop _ _ _ inner => [loop.depth, inner]
  | .value loop _ _ _ => [loop.depth]
  | _ => []

/-- A call at a point. -/
structure Frame where
  call : Call
  point : Point
deriving Repr

/-- The start of a scan of code. -/
def Frame.code (first last : Nat) : Frame := ⟨⟨.code, first, last⟩, .code first {} []⟩

/-- The start of the reader of a key or value. -/
def Frame.element (first last : Nat) : Frame := ⟨⟨.element, first, last⟩, .element⟩

/-- What a call does at a point: it fails, comes to an end, goes on, or calls a reader and goes on
with what that finds. -/
inductive Move where
  | fail (e : SyntaxError)
  | done (found : List CompositeLit)
  | go (p : Point)
  | call (callee : Frame) (resume : List CompositeLit → Point)

section

variable (T : Tape)

/-- The start of the reader of the elements of a literal, which starts at the place `start`. -/
def literalFrame (type : LiteralType) (start brace close : Nat) : Frame :=
  ⟨⟨.literal, brace + 1, close⟩, .elements {
    type, location := T.reading.locate (T.token start), start := brace + 1, index := brace + 1 }⟩

/-- The type of the literal that starts with the name at `i`, and the place of its brace. -/
def literalBrace? (selected : Bool) (i last : Nat) : Option (LiteralType × Nat) :=
  if T.kind (i + 1) = .period ∧ T.kind (i + 2) = .identifier ∧ T.kind (i + 3) = .opening .brace ∧
      i + 3 < last ∧ selected = false then
    some (⟨(T.token i).lexeme, (T.token (i + 2)).lexeme⟩, i + 3)
  else if T.kind (i + 1) = .opening .brace ∧ i + 1 < last then
    some (⟨[], (T.token i).lexeme⟩, i + 1)
  else none

/-- What a scan of code does with a function, whose body is scanned on its own. -/
def functionMove (last i : Nat) (s : LiteralScan) (found : List CompositeLit) : Move :=
  match T.signatureEnd (i + 1) last with
  | .error e => .fail e
  | .ok j =>
    if j < last ∧ T.kind j = .opening .brace then
      match T.closeAt .brace j with
      | .error e => .fail e
      | .ok close => .call (Frame.code (j + 1) close) fun more =>
        .code (close + 1) s.past (found ++ more)
    else .go (.code j s.past found)

/-- What a scan of code does with a name, which may start a literal. -/
def nameMove (last i : Nat) (s : LiteralScan) (found : List CompositeLit) : Move :=
  if s.inHeader then .go (.code (i + 1) s.past found)
  else
    match T.literalBrace? s.selected i last with
    | none => .go (.code (i + 1) s.past found)
    | some (type, brace) =>
      match T.closeAt .brace brace with
      | .error e => .fail e
      | .ok close => .call (T.literalFrame type i brace close) fun more =>
        .code (close + 1) s.past (found ++ more)

/-- What a scan of code does. -/
def codeMove (last i : Nat) (s : LiteralScan) (found : List CompositeLit) : Move :=
  if i < last then
    match T.kind i with
    | .keyword .ifKw | .keyword .forKw | .keyword .switchKw =>
      .go (.code (i + 1) s.openHeader found)
    | .keyword .funcKw => T.functionMove last i s found
    | .opening b => .go (.code (i + 1) (s.openGroup b) found)
    | .closing b => .go (.code (i + 1) (s.closeGroup b) found)
    | .period => .go (.code (i + 1) { s with selected := true } found)
    | .identifier => T.nameMove last i s found
    | _ => .go (.code (i + 1) s.past found)
  else .done found

/-- The first place of the range that has no terminator, or its end. -/
def afterTerminators (first last : Nat) : Nat :=
  if first < last ∧ T.kind first = .semicolon then afterTerminators (first + 1) last else first
termination_by last - first

/-- The place after the last one of the range that has no terminator, or its start. -/
def beforeTerminators (first last : Nat) : Nat :=
  if first < last ∧ T.kind (last - 1) = .semicolon then beforeTerminators first (last - 1) else last
termination_by last - first

/-- What the loop over the tokens between the braces of a literal does. An element ends at a comma
outside brackets, and where the literal does. -/
def elementsMove (last : Nat) (loop : ElementLoop) : Move :=
  if loop.index ≤ last then
    if loop.index = last ∨ loop.depth = 0 ∧ T.kind loop.index = .comma then
      let first := T.afterTerminators loop.start loop.index
      let stop := T.beforeTerminators first loop.index
      if first = stop then .go (.elements loop.past)
      else .go (.colon loop.past first stop first 0)
    else .go (.elements { loop with
      index := loop.index + 1, depth := (T.token loop.index).balanceAfter loop.depth })
  else .done [.mk loop.type loop.location loop.elements]

/-- What the search for the colon of an element does. -/
def colonMove (loop : ElementLoop) (first last i : Nat) (inner : Int) : Move :=
  if i < last then
    if inner = 0 ∧ T.kind i = .colon then
      .call (Frame.element first i) fun inKey => .value loop inKey (i + 1) last
    else .go (.colon loop first last (i + 1) ((T.token i).balanceAfter inner))
  else .call (Frame.element first last) fun nested => .elements (loop.add ⟨false, nested⟩)

/-- What the reader of a key or value does first. It may be a literal without a written type. -/
def elementMove (first last : Nat) : Move :=
  if first < last ∧ T.kind first = .opening .brace then
    match T.closeAt .brace first with
    | .error e => .fail e
    | .ok close => .call (T.literalFrame {} first first close) (.rest (close + 1))
  else .go (.rest first [])

/-- What a call does. -/
def move (f : Frame) : Move :=
  match f.point with
  | .code i s found => T.codeMove f.call.last i s found
  | .elements loop => T.elementsMove f.call.last loop
  | .colon loop first last i inner => T.colonMove loop first last i inner
  | .value loop inKey first last => .call (Frame.element first last) fun inValue =>
    .elements (loop.add ⟨true, inKey ++ inValue⟩)
  | .element => T.elementMove f.call.first f.call.last
  | .rest i found => .call (Frame.code i f.call.last) fun more => .ending (found ++ more)
  | .ending found => .done found

end

/-- A call that waits for an answer, and where it goes on then. -/
structure Caller where
  call : Call
  resume : List CompositeLit → Point

/-- The call at work, and those that wait, the innermost first. -/
structure State where
  top : Frame
  callers : List Caller

/-- The calls under way, the innermost first. -/
def State.chain (s : State) : List Call := s.top.call :: s.callers.map Caller.call

section

variable (T : Tape)

/-- One step: what comes next, or the answer of the first call. -/
def advance (s : State) : State ⊕ Except SyntaxError (List CompositeLit) :=
  match T.move s.top with
  | .fail e => .inr (.error e)
  | .done found =>
    match s.callers with
    | [] => .inr (.ok found)
    | c :: callers => .inl ⟨⟨c.call, c.resume found⟩, callers⟩
  | .go p => .inl ⟨⟨s.top.call, p⟩, s.callers⟩
  | .call callee resume => .inl ⟨callee, ⟨s.top.call, resume⟩ :: s.callers⟩

/-- What the readers come to, step by step. -/
def Reaches : State → State → Prop := Relation.ReflTransGen fun s s' => T.advance s = .inl s'

end

variable {T : Tape} {c : Call} {loop : ElementLoop} {i j first last close : Nat} {inner : Int}
  {s : LiteralScan} {found : List CompositeLit}

/-! ### Terminators at both ends -/

theorem afterTerminators_bounds (h : first ≤ last) :
    first ≤ T.afterTerminators first last ∧ T.afterTerminators first last ≤ last := by
  fun_induction afterTerminators T first last with
  | case1 first hat ih => exact ⟨by have := ih hat.1; omega, (ih hat.1).2⟩
  | case2 first _ => exact ⟨Nat.le_refl _, h⟩

theorem beforeTerminators_bounds (h : first ≤ last) :
    first ≤ T.beforeTerminators first last ∧ T.beforeTerminators first last ≤ last := by
  fun_induction beforeTerminators T first last with
  | case1 last hat ih => exact ⟨(ih (by omega)).1, by have := ih (by omega); omega⟩
  | case2 last _ => exact ⟨h, Nat.le_refl _⟩

/-- The place found is the end, or there is a terminator. -/
theorem kind_beforeTerminators (first last : Nat) : T.beforeTerminators first last = last ∨
    T.kind (T.beforeTerminators first last) = .semicolon := by
  fun_induction beforeTerminators T first last with
  | case1 last hat ih =>
    rcases ih with heq | hkind
    · rw [heq]
      exact Or.inr hat.2
    · exact Or.inr hkind
  | case2 last _ => exact Or.inl rfl

theorem slice_afterTerminators (hlast : last ≤ T.tokens.length) :
    (T.slice first last).dropWhile (·.kind == .semicolon) =
      T.slice (T.afterTerminators first last) last := by
  fun_induction afterTerminators T first last with
  | case1 first h ih =>
    have hsemicolon : (T.token first).kind = .semicolon := h.2
    rw [slice_cons h.1 hlast, List.dropWhile_cons_of_pos (by simp [hsemicolon])]
    exact ih
  | case2 first h =>
    by_cases hlt : first < last
    · have hother : (T.token first).kind ≠ .semicolon := fun heq => h ⟨hlt, heq⟩
      rw [slice_cons hlt hlast, List.dropWhile_cons_of_neg (by simp [hother])]
    · rw [slice_eq_nil (by omega)]
      rfl

/-- The last token of a slice. -/
theorem slice_concat (h : first < last) (hlast : last ≤ T.tokens.length) :
    T.slice first last = T.slice first (last - 1) ++ [T.token (last - 1)] := by
  have hone : T.slice (last - 1) last = [T.token (last - 1)] := by
    rw [slice_cons (by omega) hlast, slice_eq_nil (by omega)]
  rw [← hone, slice_append (by omega) (by omega)]

theorem slice_beforeTerminators (hlast : last ≤ T.tokens.length) :
    ((T.slice first last).reverse.dropWhile (·.kind == .semicolon)).reverse =
      T.slice first (T.beforeTerminators first last) := by
  fun_induction beforeTerminators T first last with
  | case1 last h ih =>
    have hsemicolon : (T.token (last - 1)).kind = .semicolon := h.2
    rw [slice_concat h.1 hlast, List.reverse_concat,
      List.dropWhile_cons_of_pos (by simp [hsemicolon])]
    exact ih (by omega)
  | case2 last h =>
    by_cases hlt : first < last
    · have hother : (T.token (last - 1)).kind ≠ .semicolon := fun heq => h ⟨hlt, heq⟩
      rw [slice_concat hlt hlast, List.reverse_concat,
        List.dropWhile_cons_of_neg (by simp [hother]), List.reverse_cons, List.reverse_reverse]
    · rw [slice_eq_nil (by omega)]
      rfl

/-- An element without the terminators at both ends. -/
theorem slice_trimmed (hlast : last ≤ T.tokens.length) :
    trimTerminators (T.slice first last) =
      T.slice (T.afterTerminators first last)
        (T.beforeTerminators (T.afterTerminators first last) last) := by
  rw [trimTerminators, slice_afterTerminators hlast, slice_beforeTerminators hlast]

/-- **An element without its terminators is a range whose brackets match.** -/
theorem Balanced.trimmed (h : T.Balanced first last) (hle : first ≤ last) :
    T.Balanced (T.afterTerminators first last)
      (T.beforeTerminators (T.afterTerminators first last) last) := by
  have hfirst := (afterTerminators_bounds (T := T) hle).2
  have hlast := (beforeTerminators_bounds (T := T) hfirst).2
  refine ⟨Nat.le_trans hlast h.le_length, ?_, ?_⟩
  · rw [← slice_trimmed h.le_length]
    exact h.nested.trim
  · rcases kind_beforeTerminators (T := T) (T.afterTerminators first last) last with heq | hkind
    · rw [heq]
      exact h.ends
    · exact not_opening_of_kind hkind nofun

/-- **A comma outside groups, or the end, cuts off an element** without its terminators. -/
theorem Balanced.element (h : T.Balanced first last) (hfirst : first ≤ i) (hlast : i ≤ last)
    (hcount : T.Counts i last 0) (hi : i = last ∨ T.kind i = .comma) :
    first ≤ T.afterTerminators first i ∧
      T.afterTerminators first i ≤ T.beforeTerminators (T.afterTerminators first i) i ∧
      T.beforeTerminators (T.afterTerminators first i) i ≤ i ∧
      T.Balanced (T.afterTerminators first i)
        (T.beforeTerminators (T.afterTerminators first i) i) ∧
      T.Balanced (i + 1) last := by
  obtain ⟨hbefore, hafter⟩ := h.cut hfirst hlast hcount hi fun b => ⟨nofun, nofun⟩
  obtain ⟨ha, hai⟩ := afterTerminators_bounds (T := T) hfirst
  obtain ⟨hb, hbi⟩ := beforeTerminators_bounds (T := T) hai
  exact ⟨ha, hb, hbi, hbefore.trimmed hfirst, hafter⟩

/-! ### Scans of code -/

theorem literalBrace?_eq_some {selected : Bool} {type : LiteralType} {brace : Nat}
    (h : T.literalBrace? selected i last = some (type, brace)) :
    i < brace ∧ brace < last ∧ T.kind brace = .opening .brace := by
  unfold literalBrace? at h
  split at h
  · rename_i hat
    obtain ⟨-, rfl⟩ := Prod.mk.inj (Option.some.inj h)
    exact ⟨by omega, hat.2.2.2.1, hat.2.2.1⟩
  · split at h
    · rename_i hat
      obtain ⟨-, rfl⟩ := Prod.mk.inj (Option.some.inj h)
      exact ⟨Nat.lt_succ_self i, hat.2, hat.1⟩
    · cases h

/-- By places and by tokens, the same literals are found. -/
theorem literalAt?_slice (hout : s.inHeader = false) (hlt : i < last)
    (hlast : last ≤ T.tokens.length) : s.literalAt? (T.token i) (T.slice (i + 1) last) =
      (T.literalBrace? s.selected i last).map fun at_ => (at_.1, T.slice (at_.2 + 1) last) := by
  unfold literalBrace?
  split
  · rename_i hat
    obtain ⟨hpoint, hname, hbrace, hthird, hselected⟩ := hat
    rw [slice_cons (by omega) hlast, slice_cons (by omega) hlast, slice_cons (by omega) hlast]
    exact (Reading.literalAt?_qualified _ _ hout hselected hpoint hname hbrace).1
  split
  · rename_i hat
    rw [slice_cons hat.2 hlast]
    exact (Reading.literalAt?_named _ _ hout hat.1).1
  · rename_i hqualified hnamed
    cases hsome : s.literalAt? (T.token i) (T.slice (i + 1) last) with
    | none => rfl
    | some parts =>
      obtain ⟨type, inside⟩ := parts
      have hnext : i + 1 < last := by
        refine Nat.lt_of_le_of_ne hlt fun heq => ?_
        rw [slice_eq_nil (Nat.le_of_eq heq.symm)] at hsome
        rcases (Reading.literalAt?_eq_some hsome).2 with
          ⟨_, _, h, _⟩ | ⟨_, _, _, _, _, _, _, h, _⟩ <;> cases h
      rcases (Reading.literalAt?_eq_some hsome).2 with
        ⟨brace, hbrace, heq, -⟩ |
          ⟨point, name, brace, hselected, hpoint, hname, hbrace, heq, -⟩
      · rw [slice_cons hnext hlast] at heq
        obtain ⟨rfl, -⟩ := List.cons.inj heq
        exact absurd ⟨hbrace, hnext⟩ hnamed
      · have hlength := congrArg List.length heq
        rw [length_slice hlast] at hlength
        simp only [List.length_cons] at hlength
        rw [slice_cons hnext hlast, slice_cons (by omega) hlast, slice_cons (by omega) hlast] at heq
        obtain ⟨heqPoint, heq⟩ := List.cons.inj heq
        obtain ⟨heqName, heq⟩ := List.cons.inj heq
        obtain ⟨heqBrace, -⟩ := List.cons.inj heq
        subst heqPoint heqName heqBrace
        exact absurd ⟨hpoint, hname, hbrace, by omega, hselected⟩ hqualified

/-- What a scan of code does where its range is closed, and what is read then. -/
inductive CodeStep (T : Tape) (last i : Nat) (s : LiteralScan) (found : List CompositeLit) :
    Move → Prop
  | done : i = last → CodeStep T last i s found (.done found)
  | next {j : Nat} {s' : LiteralScan} : i < j → j ≤ last →
      T.reading.scanLiterals s (T.slice i last) = T.reading.scanLiterals s' (T.slice j last) →
      CodeStep T last i s found (.go (.code j s' found))
  | function {j close : Nat} : i < j → j < close → close < last → T.Balanced (j + 1) close →
      T.reading.scanLiterals s (T.slice i last) =
        (T.reading.scanLiterals {} (T.slice (j + 1) close) >>= fun inner =>
          T.reading.scanLiterals s.past (T.slice (close + 1) last) >>= fun more =>
          pure (inner ++ more)) →
      CodeStep T last i s found (.call (Frame.code (j + 1) close) fun more =>
        .code (close + 1) s.past (found ++ more))
  | literal {type : LiteralType} {brace close : Nat} : i < brace → brace < close → close < last →
      T.Balanced (brace + 1) close →
      T.reading.scanLiterals s (T.slice i last) =
        (T.reading.literalElements (T.slice (brace + 1) close) >>= fun elements =>
          T.reading.scanLiterals s.past (T.slice (close + 1) last) >>= fun more =>
          pure (.mk type (T.reading.locate (T.token i)) elements :: more)) →
      CodeStep T last i s found (.call (T.literalFrame type i brace close) fun more =>
        .code (close + 1) s.past (found ++ more))

/-- A scan goes on after one token. -/
theorem CodeStep.one {s' : LiteralScan} (hlt : i < last) (hlast : last ≤ T.tokens.length)
    (hscan : T.reading.scanLiterals s (T.token i :: T.slice (i + 1) last) =
      T.reading.scanLiterals s' (T.slice (i + 1) last)) :
    T.CodeStep last i s found (.go (.code (i + 1) s' found)) := by
  rw [← slice_cons hlt hlast] at hscan
  exact .next (Nat.lt_succ_self i) hlt hscan

theorem functionStep (h : T.Closed i last) (hlt : i < last) (ht : T.kind i = .keyword .funcKw)
    (s : LiteralScan) (found : List CompositeLit) :
    T.CodeStep last i s found (T.functionMove last i s found) := by
  have hlength := h.le_length
  have hscan : T.reading.scanLiterals s (T.token i :: T.slice (i + 1) last) = _ :=
    Reading.scanLiterals_func ht
  obtain ⟨j, hj, hjlast, hend, hskip⟩ := (h.drop (Nat.le_succ i) hlt).skips .signature
  have hend : T.signatureEnd (i + 1) last = .ok j := hend
  have hskip : T.reading.skipSignature (T.slice (i + 1) last) = .ok (T.slice j last) := hskip
  rw [hskip, ok_bind, ← slice_cons hlt hlength, afterOpening?_slice hlength] at hscan
  rw [functionMove, hend]
  dsimp only
  split
  · rename_i hopen
    obtain ⟨close, hclose, hlater, hcloseLast, hbody, hgroup⟩ :=
      (h.drop (by omega) hjlast).group hopen.1 hopen.2
    rw [if_pos hopen] at hscan
    dsimp only at hscan
    rw [hgroup, ok_bind] at hscan
    rw [hclose]
    exact .function hj hlater hcloseLast hbody hscan
  · rename_i hopen
    rw [if_neg hopen] at hscan
    exact .next hj hjlast hscan

theorem nameStep (h : T.Closed i last) (hlt : i < last) (ht : T.kind i = .identifier)
    (s : LiteralScan) (found : List CompositeLit) :
    T.CodeStep last i s found (T.nameMove last i s found) := by
  have hlength := h.le_length
  unfold nameMove
  split
  · rename_i hin
    exact .one hlt hlength
      (Reading.scanLiterals_name ht (by rw [LiteralScan.literalAt?, if_pos hin]))
  rename_i hout
  have hat := literalAt?_slice (Bool.eq_false_iff.2 hout) hlt hlength
  split
  · rename_i hnone
    rw [hnone] at hat
    exact .one hlt hlength (Reading.scanLiterals_name ht hat)
  · rename_i type brace hsome
    rw [hsome] at hat
    obtain ⟨hbrace, hbraceLast, hopen⟩ := literalBrace?_eq_some hsome
    obtain ⟨close, hclose, hlater, hcloseLast, hbody, hgroup⟩ :=
      (h.drop (Nat.le_of_lt hbrace) (Nat.le_of_lt hbraceLast)).group hbraceLast hopen
    have hscan : T.reading.scanLiterals s (T.token i :: T.slice (i + 1) last) = _ :=
      Reading.scanLiterals_literal ht hat
    dsimp only at hscan
    rw [hgroup, ok_bind, ← slice_cons hlt hlength] at hscan
    rw [hclose]
    exact .literal hbrace hlater hcloseLast hbody hscan

/-- **What a scan of code does**, where its range is closed. -/
theorem codeStep (h : T.Closed i last) (s : LiteralScan) (found : List CompositeLit) :
    T.CodeStep last i s found (T.codeMove last i s found) := by
  have hlength := h.le_length
  unfold codeMove
  split
  · rename_i hlt
    split
    · rename_i ht
      exact .one hlt hlength (Reading.scanLiterals_openHeader (Or.inl ht))
    · rename_i ht
      exact .one hlt hlength (Reading.scanLiterals_openHeader (Or.inr (Or.inl ht)))
    · rename_i ht
      exact .one hlt hlength (Reading.scanLiterals_openHeader (Or.inr (Or.inr ht)))
    · rename_i ht
      exact functionStep h hlt ht s found
    · rename_i b ht
      exact .one hlt hlength (Reading.scanLiterals_opening ht)
    · rename_i b ht
      exact .one hlt hlength (Reading.scanLiterals_closing ht)
    · rename_i ht
      exact .one hlt hlength (Reading.scanLiterals_period ht)
    · rename_i ht
      exact nameStep h hlt ht s found
    · rename_i hif hfor hswitch hfunc hopen hclose hperiod hname
      refine .one hlt hlength (Reading.scanLiterals_token ?_ ?_ hfunc hperiod hname)
      · rintro ⟨b, hb | hb⟩
        · exact hopen b hb
        · exact hclose b hb
      · rintro (ht | ht | ht)
        · exact hif ht
        · exact hfor ht
        · exact hswitch ht
  · rename_i hend
    exact .done (Nat.le_antisymm h.le (Nat.le_of_not_lt hend))

/-! ### What a call keeps true -/

/-- A reader that is called for the whole range of another one is of a lower rank. -/
def Routine.rank : Routine → Nat
  | .code => 0
  | .element => 1
  | .literal => 2

/-- A call in the range of another one: strictly inside it, or of a reader of a lower rank. -/
def Call.Nests (outer inner : Call) : Prop :=
  outer.first < inner.first ∧ inner.last < outer.last ∨
    outer.first ≤ inner.first ∧ inner.last ≤ outer.last ∧
      inner.routine.rank < outer.routine.rank

namespace Call.Nests

variable {outer middle inner : Call}

theorem trans (h : outer.Nests middle) (h' : middle.Nests inner) : outer.Nests inner := by
  unfold Call.Nests at *
  omega

/-- A call of the same reader is strictly inside. -/
theorem inside (h : outer.Nests inner) (hsame : inner.routine = outer.routine) :
    outer.first < inner.first ∧ inner.last < outer.last := by
  rcases h with hinside | ⟨-, -, hrank⟩
  · exact hinside
  · rw [hsame] at hrank
    exact absurd hrank (Nat.lt_irrefl _)

end Call.Nests

/-- What the loop over the elements of a literal keeps true. -/
structure ElementLoop.Sound (T : Tape) (c : Call) (loop : ElementLoop) : Prop where
  first_le : c.first ≤ loop.start
  start_le : loop.start ≤ loop.index
  index_le : loop.index ≤ c.last + 1
  balanced : T.Balanced loop.start c.last
  counts : T.Counts loop.index c.last loop.depth

/-- An element, or a part of one, in the range of a call. -/
structure Entry (T : Tape) (c : Call) (first last : Nat) : Prop where
  first_le : c.first ≤ first
  le : first ≤ last
  last_le : last ≤ c.last
  balanced : T.Balanced first last

/-- What a call keeps true at a point. -/
def Point.Sound (T : Tape) (c : Call) : Point → Prop
  | .code i _ _ => c.routine = .code ∧ c.first ≤ i ∧ i ≤ c.last
  | .elements loop => c.routine = .literal ∧ loop.Sound T c
  | .colon loop first last i inner => c.routine = .literal ∧ loop.Sound T c ∧
      T.Entry c first last ∧ first ≤ i ∧ i ≤ last ∧ T.Counts i last inner
  | .value loop _ first last => c.routine = .literal ∧ loop.Sound T c ∧ T.Entry c first last
  | .element => c.routine = .element
  | .rest i _ => c.routine = .element ∧ c.first ≤ i ∧ i ≤ c.last
  | .ending _ => c.routine = .element

/-- A call whose range is closed, at a point that it can come to. -/
structure Frame.Sound (T : Tape) (f : Frame) : Prop where
  closed : T.Closed f.call.first f.call.last
  point : f.point.Sound T f.call

/-- What a call does that keeps this true: it does not fail, and the calls that it makes are for
ranges in its own. -/
def Move.Sound (T : Tape) (c : Call) : Move → Prop
  | .fail _ => False
  | .done _ => True
  | .go p => p.Sound T c
  | .call callee resume => callee.Sound T ∧ c.Nests callee.call ∧
      ∀ found, (resume found).Sound T c

/-- No counter gets below zero. -/
theorem Frame.Sound.counters_nonneg {f : Frame} {n : Int} (h : f.Sound T)
    (hn : n ∈ f.point.counters) : 0 ≤ n := by
  obtain ⟨c, p⟩ := f
  have hpoint := h.point
  cases p with
  | elements loop =>
    rw [List.mem_singleton.1 hn]
    exact hpoint.2.counts.nonneg
  | colon loop first last i inner =>
    obtain ⟨-, hloop, -, -, -, hinner⟩ := hpoint
    rcases List.mem_pair.1 hn with rfl | rfl
    · exact hloop.counts.nonneg
    · exact hinner.nonneg
  | value loop inKey first last =>
    rw [List.mem_singleton.1 hn]
    exact hpoint.2.1.counts.nonneg
  | code | element | rest | ending => cases hn

theorem sound_code (h : T.Closed first last) : (Frame.code first last).Sound T :=
  ⟨h, rfl, Nat.le_refl _, h.le⟩

theorem Entry.element (h : T.Entry c first last) : (Frame.element first last).Sound T :=
  ⟨h.balanced.closed h.le, rfl⟩

theorem Entry.nests (h : T.Entry c first last) (hc : c.routine = .literal) :
    c.Nests (Frame.element first last).call := by
  refine Or.inr ⟨h.first_le, h.last_le, ?_⟩
  rw [hc]
  exact Nat.lt_succ_self 1

/-- The reader of the elements of a literal starts where no group is open. -/
theorem sound_literal {type : LiteralType} {brace : Nat} (hlt : brace < close)
    (h : T.Balanced (brace + 1) close) : (T.literalFrame type i brace close).Sound T where
  closed := h.closed hlt
  point := ⟨rfl, Nat.le_refl _, Nat.le_refl _, Nat.succ_le_succ (Nat.le_of_lt hlt), h, h.counts⟩

theorem sound_codeMove (hroutine : c.routine = .code) (hfirst : c.first ≤ i)
    (h : T.Closed i c.last) : (T.codeMove c.last i s found).Sound T c := by
  have hstep := codeStep h s found
  generalize T.codeMove c.last i s found = m at hstep
  cases hstep with
  | done _ => trivial
  | next hi hlast _ => exact ⟨hroutine, by omega, hlast⟩
  | function hi hlt hclose hbody _ =>
    exact ⟨sound_code (hbody.closed hlt), Or.inl ⟨Nat.lt_succ_of_le (by omega), hclose⟩,
      fun _ => ⟨hroutine, by omega, hclose⟩⟩
  | literal hbrace hlt hclose hbody _ =>
    exact ⟨sound_literal hlt hbody, Or.inl ⟨Nat.lt_succ_of_le (by omega), hclose⟩,
      fun _ => ⟨hroutine, by omega, hclose⟩⟩

/-- An element more does not change where the loop stands. -/
theorem ElementLoop.Sound.add (h : loop.Sound T c) (e : LiteralElement CompositeLit) :
    (loop.add e).Sound T c :=
  ⟨h.first_le, h.start_le, h.index_le, h.balanced, h.counts⟩

/-- **An element ends where no group is open**, and so does what comes before it. -/
theorem ElementLoop.Sound.boundary (h : loop.Sound T c) (hindex : loop.index ≤ c.last)
    (hat : loop.index = c.last ∨ loop.depth = 0 ∧ T.kind loop.index = .comma) :
    loop.past.Sound T c ∧
      T.Entry c (T.afterTerminators loop.start loop.index)
        (T.beforeTerminators (T.afterTerminators loop.start loop.index) loop.index) := by
  have hzero : loop.depth = 0 := by
    rcases hat with hend | ⟨hzero, -⟩
    · exact h.counts.eq_zero (Nat.le_of_eq hend.symm)
    · exact hzero
  have hstart := h.start_le
  have hfirst := h.first_le
  obtain ⟨ha, hab, hb, hentry, hafter⟩ :=
    h.balanced.element hstart hindex (hzero ▸ h.counts) (hat.imp_right And.right)
  refine ⟨⟨?_, Nat.le_refl _, Nat.succ_le_succ hindex, hafter, ?_⟩,
    ⟨Nat.le_trans hfirst ha, hab, Nat.le_trans hb hindex, hentry⟩⟩
  · exact Nat.le_succ_of_le (Nat.le_trans hfirst hstart)
  · exact hzero ▸ hafter.counts

theorem sound_elementsMove (hroutine : c.routine = .literal) (h : loop.Sound T c) :
    (T.elementsMove c.last loop).Sound T c := by
  unfold elementsMove
  split
  · rename_i hindex
    split
    · rename_i hat
      obtain ⟨hpast, hentry⟩ := h.boundary hindex hat
      dsimp only
      split
      · exact ⟨hroutine, hpast⟩
      · exact ⟨hroutine, hpast, hentry, Nat.le_refl _, hentry.le, hentry.balanced.counts⟩
    · rename_i hat
      have hlt : loop.index < c.last := by omega
      have hstart := h.start_le
      exact ⟨hroutine, h.first_le, Nat.le_succ_of_le hstart, Nat.succ_le_succ hindex, h.balanced,
        (h.counts.next hlt h.balanced.le_length).1⟩
  · trivial

/-- A colon outside groups is between a key and a value. -/
theorem Entry.cut (h : T.Entry c first last) (hfirst : first ≤ i) (hlt : i < last)
    (hcount : T.Counts i last 0) (hcolon : T.kind i = .colon) :
    T.Entry c first i ∧ T.Entry c (i + 1) last := by
  obtain ⟨hkey, hvalue⟩ := h.balanced.cut hfirst (Nat.le_of_lt hlt) hcount (Or.inr hcolon)
    fun b => ⟨nofun, nofun⟩
  have hfirst' := h.first_le
  have hlast := h.last_le
  exact ⟨⟨hfirst', hfirst, by omega, hkey⟩, ⟨by omega, hlt, hlast, hvalue⟩⟩

theorem sound_colonMove (hroutine : c.routine = .literal) (h : loop.Sound T c)
    (hentry : T.Entry c first last) (hfirst : first ≤ i) (hcount : T.Counts i last inner) :
    (T.colonMove loop first last i inner).Sound T c := by
  unfold colonMove
  split
  · rename_i hlt
    split
    · rename_i hat
      obtain ⟨hkey, hvalue⟩ := hentry.cut hfirst hlt (hat.1 ▸ hcount) hat.2
      exact ⟨hkey.element, hkey.nests hroutine, fun _ => ⟨hroutine, h, hvalue⟩⟩
    · exact ⟨hroutine, h, hentry, Nat.le_succ_of_le hfirst, hlt,
        (hcount.next hlt hentry.balanced.le_length).1⟩
  · exact ⟨hentry.element, hentry.nests hroutine, fun _ => ⟨hroutine, h.add _⟩⟩

theorem sound_elementMove (hroutine : c.routine = .element) (h : T.Closed c.first c.last) :
    (T.elementMove c.first c.last).Sound T c := by
  unfold elementMove
  split
  · rename_i hopen
    obtain ⟨close, hclose, hlater, hlast, hbody, -⟩ := h.group hopen.1 hopen.2
    rw [hclose]
    exact ⟨sound_literal hlater hbody, Or.inl ⟨Nat.lt_succ_self _, hlast⟩,
      fun _ => ⟨hroutine, Nat.le_succ_of_le (Nat.le_of_lt hlater), hlast⟩⟩
  · exact ⟨hroutine, Nat.le_refl _, h.le⟩

/-- **What a call does keeps this true.** -/
theorem Frame.Sound.move {f : Frame} (h : f.Sound T) : (T.move f).Sound T f.call := by
  obtain ⟨c, p⟩ := f
  have hclosed := h.closed
  have hpoint := h.point
  cases p with
  | code i s found =>
    obtain ⟨hroutine, hfirst, hlast⟩ := hpoint
    exact sound_codeMove hroutine hfirst (hclosed.drop hfirst hlast)
  | elements loop => exact sound_elementsMove hpoint.1 hpoint.2
  | colon loop first last i inner =>
    obtain ⟨hroutine, hloop, hentry, hfirst, -, hcount⟩ := hpoint
    exact sound_colonMove hroutine hloop hentry hfirst hcount
  | value loop inKey first last =>
    obtain ⟨hroutine, hloop, hentry⟩ := hpoint
    exact ⟨hentry.element, hentry.nests hroutine, fun _ => ⟨hroutine, hloop.add _⟩⟩
  | element => exact sound_elementMove hpoint hclosed
  | rest i found =>
    obtain ⟨hroutine, hfirst, hlast⟩ := hpoint
    refine ⟨sound_code (hclosed.drop hfirst hlast), Or.inr ⟨hfirst, Nat.le_refl _, ?_⟩,
      fun _ => hroutine⟩
    rw [hroutine]
    exact Nat.lt_succ_self 0
  | ending found => trivial

/-! ### What the stack keeps true -/

/-- The call at work and those that wait are sound, whatever these get for an answer, and each is in
the range of those that wait for it. -/
structure State.Sound (T : Tape) (x : State) : Prop where
  top : x.top.Sound T
  callers : ∀ w ∈ x.callers, ∀ found, Frame.Sound T ⟨w.call, w.resume found⟩
  chain : x.chain.Pairwise fun inner outer => outer.Nests inner

/-- A scan of code that nobody waits for. -/
theorem Closed.sound (h : T.Closed first last) : State.Sound T ⟨Frame.code first last, []⟩ :=
  ⟨sound_code h, nofun, List.pairwise_singleton _ _⟩

namespace State.Sound

variable {x y : State}

/-- The calls under way have ranges that are closed. -/
theorem closed (h : x.Sound T) (hc : c ∈ x.chain) : T.Closed c.first c.last := by
  rcases List.mem_cons.1 hc with rfl | hc
  · exact h.top.closed
  · obtain ⟨w, hw, rfl⟩ := List.mem_map.1 hc
    exact (h.callers w hw []).closed

/-- **A step keeps this true.** -/
theorem next (h : x.Sound T) (hstep : T.advance x = .inl y) : y.Sound T := by
  obtain ⟨top, callers⟩ := x
  have hmove := h.top.move
  have hchain := List.pairwise_cons.1 h.chain
  rw [advance] at hstep
  cases hat : T.move top with
  | fail e =>
    rw [hat] at hstep
    cases hstep
  | done found =>
    rw [hat] at hstep
    cases callers with
    | nil => cases hstep
    | cons w callers =>
      obtain rfl := Sum.inl.inj hstep
      obtain ⟨hw, hcallers⟩ := List.forall_mem_cons.1 h.callers
      exact ⟨hw found, hcallers, hchain.2⟩
  | go p =>
    rw [hat] at hstep hmove
    obtain rfl := Sum.inl.inj hstep
    exact ⟨⟨h.top.closed, hmove⟩, h.callers, h.chain⟩
  | call callee resume =>
    rw [hat] at hstep hmove
    obtain rfl := Sum.inl.inj hstep
    obtain ⟨hcallee, hnests, hresume⟩ := hmove
    refine ⟨hcallee, List.forall_mem_cons.2 ⟨fun found => ⟨h.top.closed, hresume found⟩, h.callers⟩,
      List.pairwise_cons.2 ⟨List.forall_mem_cons.2 ⟨hnests, fun outer houter => ?_⟩, h.chain⟩⟩
    exact (hchain.1 outer houter).trans hnests

theorem reaches (h : x.Sound T) (hsteps : T.Reaches x y) : y.Sound T := by
  induction hsteps with
  | refl => exact h
  | tail _ hstep ih => exact ih.next hstep

end State.Sound

/-- The points that a call comes to next, after a step of its own or after an answer. -/
def Follows (T : Tape) (f : Frame) (p : Point) : Prop :=
  T.move f = .go p ∨ ∃ callee resume found, T.move f = .call callee resume ∧ p = resume found

/-- **A scan of code goes forward**, and not past the end of its range. -/
theorem Frame.Sound.forward {f : Frame} {p : Point} (h : f.Sound T)
    (hat : f.point = .code i s found) (hp : T.Follows f p) :
    ∃ j s' found', p = .code j s' found' ∧ i < j ∧ j ≤ f.call.last := by
  obtain ⟨c, point⟩ := f
  obtain rfl : point = .code i s found := hat
  obtain ⟨-, hfirst, hlast⟩ := h.point
  have hstep := codeStep (h.closed.drop hfirst hlast) s found
  have hmove : T.move ⟨c, .code i s found⟩ = T.codeMove c.last i s found := rfl
  dsimp only at hstep
  rw [← hmove] at hstep
  rcases hp with hgo | ⟨callee, resume, answer, hcall, rfl⟩
  · rw [hgo] at hstep
    cases hstep with
    | next hi hlast _ => exact ⟨_, _, _, rfl, hi, hlast⟩
  · rw [hcall] at hstep
    cases hstep with
    | function hi hlt hclose _ _ => exact ⟨_, _, _, rfl, by omega, hclose⟩
    | literal hbrace hlt hclose _ _ => exact ⟨_, _, _, rfl, by omega, hclose⟩

/-- The calls under way are inside each other, and what is counted and looked at stays in their
ranges. -/
structure State.Bounded (T : Tape) (x : State) : Prop where
  /-- A call of a reader that is under way already is for a range strictly inside. -/
  inside : x.chain.Pairwise fun inner outer => inner.routine = outer.routine →
    outer.first < inner.first ∧ inner.last < outer.last
  forward : ∀ i s found p, x.top.point = .code i s found → T.Follows x.top p →
    ∃ j s' found', p = .code j s' found' ∧ i < j ∧ j ≤ x.top.call.last
  /-- Neither a type nor a signature goes back, or past the end of the range. -/
  skips : ∀ c ∈ x.chain, ∀ phrase i, c.first ≤ i → i ≤ c.last →
    ∃ j, T.skipEnd phrase i c.last = .ok j ∧ i ≤ j ∧ j ≤ c.last
  counters : ∀ n ∈ x.top.point.counters, 0 ≤ n

theorem State.Sound.bounded {x : State} (h : x.Sound T) : x.Bounded T where
  inside := h.chain.imp fun hnests hsame => hnests.inside hsame
  forward _ _ _ _ hat hp := h.top.forward hat hp
  skips c hc phrase i hfirst hlast := by
    obtain ⟨j, hij, hj, hend, -⟩ := ((h.closed hc).drop hfirst hlast).skips phrase
    exact ⟨j, hend, hij, hj⟩
  counters _ hn := h.top.counters_nonneg hn

end Tape

end BuildOrder
