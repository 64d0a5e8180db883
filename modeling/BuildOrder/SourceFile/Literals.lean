import BuildOrder.SourceFile
import BuildOrder.SourceFile.Group

/-!
# Finding composite literals

The literals of a function body or declaration are found without reading its statements: a literal
is a name, or two names joined by a point, before an opening brace, where that brace does not open
the block of a statement. A header, from `if`, `for` or `switch` to the brace of its block, has no
literal outside brackets.

* `Reading.scanLiterals`: the literals of a list of tokens, each with the literals inside it.
* `Reading.literalElements`: the elements of one literal.
-/

namespace BuildOrder

/-- Where a scan for literals stands. -/
structure LiteralScan where
  /-- The depths at which a header is open, the innermost first. -/
  headers : List Nat := []
  /-- The brackets open. -/
  depth : Nat := 0
  /-- The token before is a point or a closing square bracket, so that a name here is no
  qualifier. -/
  selected : Bool := false
deriving DecidableEq, Repr

namespace LiteralScan

variable (s : LiteralScan)

/-- The scan stands in a header, outside brackets opened in it. -/
def inHeader : Bool := s.headers.head? == some s.depth

def past : LiteralScan := { s with selected := false }

/-- After `if`, `for` or `switch`. -/
def openHeader : LiteralScan := { s with headers := s.depth :: s.headers, selected := false }

/-- After an opening bracket. A brace ends the header in which it stands outside brackets. -/
def openGroup (b : Bracket) : LiteralScan :=
  { headers := if b = .brace ∧ s.inHeader then s.headers.tail else s.headers
    depth := s.depth + 1
    selected := false }

/-- After a closing bracket. -/
def closeGroup (b : Bracket) : LiteralScan :=
  { s with depth := s.depth - 1, selected := b = .square }

end LiteralScan

/-- The type of the literal that starts at the name `t`, and the tokens after its brace. -/
def literalType? (selected : Bool) (t : Token) : List Token → Option (LiteralType × List Token)
  | ⟨.period, _, _, _, _⟩ :: ⟨.identifier, name, _, _, _⟩ ::
      ⟨.opening .brace, _, _, _, _⟩ :: inside =>
    if selected then none else some (⟨t.lexeme, name⟩, inside)
  | ⟨.opening .brace, _, _, _, _⟩ :: inside => some (⟨[], t.lexeme⟩, inside)
  | _ => none

theorem literalType?_length {selected : Bool} {t : Token} {ts inside : List Token}
    {type : LiteralType} (h : literalType? selected t ts = some (type, inside)) :
    inside.length < ts.length := by
  unfold literalType? at h
  split at h
  · split at h
    · simp at h
    · simp only [Option.some.injEq, Prod.mk.injEq] at h
      simp [← h.2]
      omega
  · simp only [Option.some.injEq, Prod.mk.injEq] at h
    simp [← h.2]
  · simp at h

/-- What follows the separator of the first entry is shorter than the list. -/
theorem spanTop_tail_length (stop : TokenKind) (t : Token) (ts : List Token) :
    (spanTop stop 0 (t :: ts)).2.tail.length < (t :: ts).length := by
  have := congrArg List.length (spanTop_append stop 0 (t :: ts))
  simp only [List.length_append, List.length_cons, List.length_tail] at *
  omega

/-- The tokens without the terminators at both ends. -/
def trimTerminators (ts : List Token) : List Token :=
  let terminator : Token → Bool := fun t => t.kind == .semicolon
  ((ts.dropWhile terminator).reverse.dropWhile terminator).reverse

theorem trimTerminators_length (ts : List Token) : (trimTerminators ts).length ≤ ts.length := by
  have drop {α : Type} (p : α → Bool) (xs : List α) : (xs.dropWhile p).length ≤ xs.length :=
    (List.dropWhile_sublist p).length_le
  have h := drop (fun t : Token => t.kind == .semicolon)
    (ts.dropWhile fun t => t.kind == .semicolon).reverse
  rw [List.length_reverse] at h
  rw [trimTerminators, List.length_reverse]
  exact Nat.le_trans h (drop _ ts)

/-- The two sides of a separator within the first entry make up no more than the list. -/
theorem spanTop_entry_length {stop : TokenKind} {ts before rest : List Token}
    (h : spanTop stop 0 (trimTerminators (spanTop .comma 0 ts).1) = (before, rest)) :
    before.length + rest.length ≤ ts.length := by
  have inner := congrArg List.length (spanTop_append stop 0 (trimTerminators (spanTop .comma 0 ts).1))
  have outer := congrArg List.length (spanTop_append .comma 0 ts)
  have := trimTerminators_length (spanTop .comma 0 ts).1
  rw [h] at inner
  simp only [List.length_append] at inner outer
  omega

namespace Reading

variable (r : Reading)

mutual

/-- The literals of a list of tokens, in order. The body of a function literal is scanned on its
own, even in a header. -/
def scanLiterals (s : LiteralScan) (ts : List Token) : Except SyntaxError (List CompositeLit) :=
  match ts with
  | [] => .ok []
  | t :: ts =>
    match t.kind with
    | .keyword .ifKw | .keyword .forKw | .keyword .switchKw => scanLiterals s.openHeader ts
    | .keyword .funcKw =>
      match _ : r.skipSignature ts with
      | .error e => .error e
      | .ok after =>
        match _ : afterOpening? .brace after with
        | none => scanLiterals s.past after
        | some inside =>
          match _ : r.group .brace inside with
          | .error e => .error e
          | .ok (body, rest) => do
            let inner ← scanLiterals {} body
            let more ← scanLiterals s.past rest
            return inner ++ more
    | .opening b => scanLiterals (s.openGroup b) ts
    | .closing b => scanLiterals (s.closeGroup b) ts
    | .period => scanLiterals { s with selected := true } ts
    | .identifier =>
      if s.inHeader then scanLiterals s.past ts
      else
        match _ : literalType? s.selected t ts with
        | none => scanLiterals s.past ts
        | some (type, inside) =>
          match _ : r.group .brace inside with
          | .error e => .error e
          | .ok (body, rest) => do
            let elements ← literalElements body
            let more ← scanLiterals s.past rest
            return .mk type (r.locate t) elements :: more
    | _ => scanLiterals s.past ts
termination_by 3 * ts.length
decreasing_by
  all_goals simp only [List.length_cons]
  · omega
  · have := r.skipSignature_length ‹_›
    omega
  iterate 2
    · have := r.skipSignature_length ‹_›
      have := afterOpening?_length ‹_›
      have := r.group_length ‹_›
      omega
  iterate 5
    · omega
  iterate 2
    · have := literalType?_length ‹_›
      have := r.group_length ‹_›
      omega
  · omega

/-- The literals of a key or a value, which may be a literal without a written type. -/
def scanElement (ts : List Token) : Except SyntaxError (List CompositeLit) :=
  match _ : afterOpening? .brace ts with
  | none => scanLiterals {} ts
  | some inside =>
    match _ : r.group .brace inside with
    | .error e => .error e
    | .ok (body, rest) => do
      let elements ← literalElements body
      let more ← scanLiterals {} rest
      return .mk {} (r.locate (r.front ts)) elements :: more
termination_by 3 * ts.length + 1
decreasing_by
  · omega
  iterate 2
    · have := afterOpening?_length ‹_›
      have := r.group_length ‹_›
      omega

/-- The elements between the braces of a literal, separated by commas. An element is keyed if it
has a colon outside brackets. -/
def literalElements (ts : List Token) :
    Except SyntaxError (List (LiteralElement CompositeLit)) :=
  match ts with
  | [] => .ok []
  | t :: ts =>
    if (trimTerminators (spanTop .comma 0 (t :: ts)).1).isEmpty then
      literalElements (spanTop .comma 0 (t :: ts)).2.tail
    else
      match _ : spanTop .colon 0 (trimTerminators (spanTop .comma 0 (t :: ts)).1) with
      | (entry, []) => do
        let nested ← scanElement entry
        let more ← literalElements (spanTop .comma 0 (t :: ts)).2.tail
        return ⟨false, nested⟩ :: more
      | (key, _ :: value) => do
        let inKey ← scanElement key
        let inValue ← scanElement value
        let more ← literalElements (spanTop .comma 0 (t :: ts)).2.tail
        return ⟨true, inKey ++ inValue⟩ :: more
termination_by 3 * ts.length + 2
decreasing_by
  all_goals have := spanTop_tail_length .comma t ts
  · omega
  · have := spanTop_entry_length ‹_›
    omega
  · omega
  · have := spanTop_entry_length ‹_›
    omega
  · have := spanTop_entry_length ‹_›
    simp only [List.length_cons] at *
    omega
  · omega

end

end Reading

end BuildOrder
