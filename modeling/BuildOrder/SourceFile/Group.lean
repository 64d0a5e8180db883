import BuildOrder.SourceFile.SyntaxError

/-!
# Groups of tokens

A group is what stands between an opening bracket and the bracket that closes it. The readers of
declarations and literals cut the token list at groups and at separators outside them.

* `closeGroup`: the tokens inside the innermost group that is open, and the tokens after it.
* `closeGroup_length`: both parts and the closing bracket make up no more than the tokens given.
* `countEntries`, `spanTop`: entries and separators at the top level of a list.
* `skipType`, `skipSignature`: the tokens after a type, and after a function's signature.
-/

namespace BuildOrder

/-- What the readers of tokens need to know beside the tokens: the source, to locate them in, and
the end of the file, which is what they find where the tokens run out. -/
structure Reading where
  source : Source
  endOfFile : Token
deriving DecidableEq, Repr

namespace Reading

variable (r : Reading)

def locate (t : Token) : Location := r.source.location t.offset

/-- The token at the front. -/
def front (ts : List Token) : Token := ts.headD r.endOfFile

/-- The error that the token found is not what was expected. -/
def unexpected (found : Token) (expectation : Expectation) : SyntaxError :=
  { location := r.locate found, fault := .unexpected expectation found }

/-- Puts a token in front of the inside of a group. -/
def consInside (t : Token) (parts : List Token × List Token) : List Token × List Token :=
  (t :: parts.1, parts.2)

/-- Cuts the tokens at the bracket that closes the group of the outermost of the brackets open:
`b` is the innermost of them, and `outer` holds the others from the inside out. -/
def closeGroup (b : Bracket) (outer : List Bracket) :
    List Token → Except SyntaxError (List Token × List Token)
  | [] => .error (r.unexpected r.endOfFile (.closing b))
  | t :: ts =>
    match t.kind with
    | .opening c => (closeGroup c (b :: outer) ts).map (consInside t)
    | .closing c =>
      if c = b then
        match outer with
        | [] => .ok ([], ts)
        | next :: others => (closeGroup next others ts).map (consInside t)
      else .error (r.unexpected t (.closing b))
    | _ => (closeGroup b outer ts).map (consInside t)

theorem closeGroup_length {b : Bracket} {outer : List Bracket} {ts inside rest : List Token}
    (h : r.closeGroup b outer ts = .ok (inside, rest)) :
    inside.length + rest.length < ts.length := by
  induction ts generalizing b outer inside with
  | nil => simp [closeGroup] at h
  | cons t ts ih =>
    have step {c : Bracket} {others : List Bracket}
        (h : (r.closeGroup c others ts).map (consInside t) = .ok (inside, rest)) :
        inside.length + rest.length < (t :: ts).length := by
      cases hnext : r.closeGroup c others ts with
      | error e =>
        rw [hnext] at h
        cases h
      | ok parts =>
        rw [hnext] at h
        obtain ⟨rfl, rfl⟩ := Prod.mk.inj (Except.ok.inj h)
        have := ih hnext
        simp only [List.length_cons]
        omega
    unfold closeGroup at h
    split at h
    · exact step h
    · split at h
      · split at h
        · simp only [Except.ok.injEq, Prod.mk.injEq] at h
          obtain ⟨rfl, rfl⟩ := h
          simp
        · exact step h
      · simp at h
    · exact step h

/-- The tokens inside the group whose opening bracket has just been read, and those after it. -/
def group (b : Bracket) (ts : List Token) : Except SyntaxError (List Token × List Token) :=
  r.closeGroup b [] ts

theorem group_length {b : Bracket} {ts inside rest : List Token}
    (h : r.group b ts = .ok (inside, rest)) : inside.length + rest.length < ts.length :=
  r.closeGroup_length h

end Reading

/-- The tokens after an opening bracket at the front. -/
def afterOpening? (b : Bracket) : List Token → Option (List Token)
  | [] => none
  | t :: ts => if t.kind = .opening b then some ts else none

theorem afterOpening?_length {b : Bracket} {ts inside : List Token}
    (h : afterOpening? b ts = some inside) : inside.length < ts.length := by
  cases ts with
  | nil => simp [afterOpening?] at h
  | cons t ts =>
    rw [afterOpening?] at h
    split at h
    · obtain rfl := Option.some.inj h
      simp
    · simp at h

/-! ### Separators outside groups -/

/-- The state of a count of entries: those complete, the brackets open, and whether a token of
the next entry has been seen. -/
structure EntryCount where
  entries : Nat := 0
  depth : Nat := 0
  pending : Bool := false

def EntryCount.step (c : EntryCount) (t : Token) : EntryCount :=
  match t.kind with
  | .opening _ => { c with depth := c.depth + 1, pending := true }
  | .closing _ => { c with depth := c.depth - 1, pending := true }
  | .comma =>
    if c.depth = 0 then { c with entries := c.entries + c.pending.toNat, pending := false }
    else { c with pending := true }
  | .semicolon => if t.inserted then c else { c with pending := true }
  | _ => { c with pending := true }

/-- How many entries a list has, separated by commas. Between two commas there is an entry only
where there is a token, and an inserted terminator is none. -/
def countEntries (ts : List Token) : Nat :=
  let c := ts.foldl EntryCount.step {}
  c.entries + c.pending.toNat

/-- The tokens before the first one of the given kind that stands outside the groups, and the
tokens from there on. -/
def spanTop (stop : TokenKind) (depth : Nat) : List Token → List Token × List Token
  | [] => ([], [])
  | t :: ts =>
    if depth = 0 ∧ t.kind = stop then ([], t :: ts)
    else
      let depth := match t.kind with
        | .opening _ => depth + 1
        | .closing _ => depth - 1
        | _ => depth
      let (before, rest) := spanTop stop depth ts
      (t :: before, rest)

/-- The two parts make up the list. -/
theorem spanTop_append (stop : TokenKind) (depth : Nat) (ts : List Token) :
    (spanTop stop depth ts).1 ++ (spanTop stop depth ts).2 = ts := by
  induction ts generalizing depth with
  | nil => rfl
  | cons t ts ih =>
    rw [spanTop]
    split
    · rfl
    · simp [ih]

/-! ### Types and signatures -/

namespace Reading

variable (r : Reading)

mutual

/-- The tokens after the type at the front. A type ends before a brace that is not a struct's or
an interface's, and before a terminator, a comma or a closing bracket. -/
def skipType (ts : List Token) : Except SyntaxError (List Token) :=
  match ts with
  | [] => .ok []
  | t :: ts =>
    match t.kind with
    | .opening .brace | .semicolon | .comma | .closing _ => .ok (t :: ts)
    | .keyword .structKw | .keyword .interfaceKw =>
      match _opened : afterOpening? .brace ts with
      | none => skipType ts
      | some inside =>
        match _closed : r.group .brace inside with
        | .error e => .error e
        | .ok (_, after) => skipType after
    | .keyword .funcKw => skipSignature ts
    | .opening b =>
      match _closed : r.group b ts with
      | .error e => .error e
      | .ok (_, after) => skipType after
    | _ => skipType ts
termination_by 2 * ts.length
decreasing_by
  all_goals simp only [List.length_cons]
  · omega
  · have := afterOpening?_length _opened
    have := r.group_length _closed
    omega
  · omega
  · have := r.group_length _closed
    omega
  · omega

/-- The tokens after a signature without its name: parameters, then results in parentheses, or a
type, or nothing. -/
def skipSignature (ts : List Token) : Except SyntaxError (List Token) :=
  match _opened : afterOpening? .paren ts with
  | none => skipType ts
  | some params =>
    match _closed : r.group .paren params with
    | .error e => .error e
    | .ok (_, after) =>
      match afterOpening? .paren after with
      | none => skipType after
      | some results => (r.group .paren results).map Prod.snd
termination_by 2 * ts.length + 1
decreasing_by
  · omega
  · have := afterOpening?_length _opened
    have := r.group_length _closed
    omega

end

/-- Neither a type nor a signature reaches before its first token. -/
theorem skip_length (n : Nat) : ∀ ts : List Token, ts.length ≤ n →
    (∀ rest, r.skipType ts = .ok rest → rest.length ≤ ts.length) ∧
      (∀ rest, r.skipSignature ts = .ok rest → rest.length ≤ ts.length) := by
  induction n with
  | zero =>
    intro ts hts
    obtain rfl : ts = [] := List.eq_nil_of_length_eq_zero (Nat.le_zero.mp hts)
    have type : ∀ rest, r.skipType [] = .ok rest → rest.length ≤ 0 := by
      intro rest h
      rw [skipType] at h
      obtain rfl := Except.ok.inj h
      simp
    refine ⟨type, fun rest h => ?_⟩
    rw [skipSignature] at h
    exact type rest h
  | succ n ih =>
    intro ts hts
    have type : ∀ rest, r.skipType ts = .ok rest → rest.length ≤ ts.length := by
      intro rest h
      match ts, hts, h with
      | [], _, h =>
        rw [skipType] at h
        obtain rfl := Except.ok.inj h
        simp
      | t :: ts, hts, h =>
        have hts : ts.length ≤ n := by simpa using hts
        have shorter {after : List Token} (hafter : after.length ≤ ts.length)
            (h : r.skipType after = .ok rest) : rest.length ≤ (t :: ts).length := by
          have := (ih after (by omega)).1 rest h
          simp only [List.length_cons]
          omega
        rw [skipType] at h
        split at h
        iterate 4
          · obtain rfl := Except.ok.inj h
            exact Nat.le_refl _
        iterate 2
          · split at h
            · exact shorter (Nat.le_refl _) h
            · rename_i hopen
              have := afterOpening?_length hopen
              split at h
              · simp at h
              · rename_i hgroup
                have := r.group_length hgroup
                exact shorter (by omega) h
        · have := (ih ts hts).2 rest h
          simp only [List.length_cons]
          omega
        · split at h
          · simp at h
          · rename_i hgroup
            have := r.group_length hgroup
            exact shorter (by omega) h
        · exact shorter (Nat.le_refl _) h
    refine ⟨type, fun rest h => ?_⟩
    rw [skipSignature] at h
    split at h
    · exact type rest h
    · rename_i hopen
      have := afterOpening?_length hopen
      split at h
      · simp at h
      · rename_i after hgroup
        have := r.group_length hgroup
        split at h
        · have := (ih after (by omega)).1 rest h
          omega
        · rename_i results hresults
          have := afterOpening?_length hresults
          cases hlast : r.group .paren results with
          | error e =>
            rw [hlast] at h
            cases h
          | ok parts =>
            rw [hlast] at h
            obtain rfl := Except.ok.inj h
            have := r.group_length hlast
            omega

theorem skipType_length {ts rest : List Token} (h : r.skipType ts = .ok rest) :
    rest.length ≤ ts.length :=
  (r.skip_length ts.length ts (Nat.le_refl _)).1 rest h

theorem skipSignature_length {ts rest : List Token} (h : r.skipSignature ts = .ok rest) :
    rest.length ≤ ts.length :=
  (r.skip_length ts.length ts (Nat.le_refl _)).2 rest h

end Reading

end BuildOrder
