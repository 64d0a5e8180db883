import BuildOrder.Pattern
import BuildOrder.Pattern.Class

/-!
# Matching patterns

A pattern is matched by trying its choices in order and going back where the rest of the match
fails. The rest of the match is a continuation, so the matcher follows the pattern's structure.

* `Pattern.run`: the match of a pattern followed by a continuation.
* `Pattern.matchesIn`: the pattern matches somewhere in a text.
-/

namespace BuildOrder.Pattern

/-- The text captured under a number, the latest first. -/
abbrev Captures := List (Nat × Bytes)

namespace Captures

def set (c : Captures) (number : Nat) (text : Option Bytes) : Captures :=
  let others := c.filter (·.1 != number)
  match text with
  | none => others
  | some text => (number, text) :: others

end Captures

/-- Whether a match was found, and what is captured then. What a look-ahead captured stays where
the match goes back before it. -/
structure Outcome where
  found : Bool
  captures : Captures
deriving DecidableEq, Repr

/-- Goes on with `next` where nothing was found. -/
def Outcome.orElse (o : Outcome) (next : Captures → Outcome) : Outcome :=
  if o.found then o else next o.captures

/-- A place in a text: the byte before it and the bytes after it. -/
structure Place where
  before : Option UInt8
  rest : Bytes
deriving DecidableEq, Repr

/-- The place after some of the bytes. -/
def Place.advance (p : Place) : Nat → Place
  | 0 => p
  | n + 1 =>
    match p.rest with
    | [] => p
    | b :: rest => Place.advance ⟨some b, rest⟩ n

/-- Where a trial of a match began: how many bytes were left, and whether the byte before counts.
It does not where the trial began at the start of the text, not even for a look-ahead further
on, for which the start of the text is where it looks from. -/
structure Trial where
  length : Nat
  continues : Bool
deriving DecidableEq, Repr

namespace Trial

variable (a : Trial) (p : Place)

def isStart : Bool := p.rest.length == a.length && !a.continues

/-- A word ends or starts here. -/
def isWordBoundary : Bool :=
  let left := !a.isStart p && p.before.any isWordByte
  left != p.rest.head?.any isWordByte

def holds : Boundary → Bool
  | .start => a.isStart p
  | .stop => p.rest.isEmpty
  | .word => a.isWordBoundary p
  | .notWord => !a.isWordBoundary p

end Trial

/-- The rest of a match. -/
abbrev Continuation := Captures → Place → Outcome

/-- The match of an item followed by the rest of the match. -/
abbrev Matcher := Continuation → Continuation

/-- The item `n` times. -/
def exactly (item : Matcher) : Nat → Matcher
  | 0 => id
  | n + 1 => fun k => item (exactly item n k)

/-- Prefers the first choice or, if lazy, the second. -/
def prefer (greedy : Bool) (more less : Captures → Outcome) (c : Captures) : Outcome :=
  if greedy then (more c).orElse less else (less c).orElse more

/-- The item up to `n` times. -/
def atMost (item : Matcher) (greedy : Bool) : Nat → Matcher
  | 0 => id
  | n + 1 => fun k c p =>
    prefer greedy (fun c => item (atMost item greedy n k) c p) (fun c => k c p) c

/-- The item any number of times. At one place it is tried at most twice, `tries` times up to now;
`bound` is no less than the tries left. -/
def many (item : Matcher) (greedy : Bool) (k : Continuation) : Nat → Nat → Continuation
  | 0, _ => k
  | bound + 1, tries => fun c p =>
    prefer greedy
      (fun c =>
        if tries < 2 then
          item (fun c q =>
            many item greedy k bound (if q.rest.length = p.rest.length then tries + 1 else 0) c q)
            c p
        else ⟨false, c⟩)
      (fun c => k c p) c

/-- The item any number of times, from any place on. -/
def anyTimes (item : Matcher) (greedy : Bool) : Matcher :=
  fun k c p => many item greedy k (3 * p.rest.length + 3) 0 c p

/-- The match of a pattern followed by the rest of the match. -/
def run (a : Trial) : Pattern → Matcher
  | empty => id
  | oneOf members => fun k c p =>
    match p.rest with
    | b :: rest => if members.contains b then k c ⟨some b, rest⟩ else ⟨false, c⟩
    | [] => ⟨false, c⟩
  | cat q r => fun k => run a q (run a r k)
  | alt q r => fun k c p => (run a q k c p).orElse fun c => run a r k c p
  | capture n q => fun k c p =>
    run a q (fun c e =>
      let text := p.rest.take (p.rest.length - e.rest.length)
      let outcome := k (c.set n (some text)) e
      if outcome.found then outcome
      else { outcome with captures := outcome.captures.set n (c.lookup n) }) c p
  | reference n => fun k c p =>
    match c.lookup n with
    | none => ⟨false, c⟩
    | some text =>
      if text.isPrefixOf p.rest then k c (p.advance text.length) else ⟨false, c⟩
  | boundary b => fun k c p => if a.holds p b then k c p else ⟨false, c⟩
  | look positive q => fun k c p =>
    let outcome := run { a with length := p.rest.length } q (fun c _ => ⟨true, c⟩) c p
    let c := if outcome.found then outcome.captures else c
    if outcome.found = positive then k c p else ⟨false, c⟩
  | repeated q times greedy =>
    let item := run a q
    match times with
    | .star => anyTimes item greedy
    | .plus => fun k => item (anyTimes item greedy k)
    | .optional => atMost item greedy 1
    | .interval least none => fun k => exactly item least (anyTimes item greedy k)
    | .interval least (some most) => fun k =>
      exactly item least (atMost item greedy (most - least) k)

/-- The pattern matches at the start of the bytes in `s`, or further on. -/
def matchesFrom (p : Pattern) (before : Option UInt8) (s : Bytes) : Bool :=
  (p.run ⟨s.length, before.isSome⟩ (fun c _ => ⟨true, c⟩) [] ⟨before, s⟩).found ||
    match s with
    | [] => false
    | b :: rest => matchesFrom p (some b) rest

/-- The pattern matches somewhere in the text. -/
def matchesIn (p : Pattern) (text : Bytes) : Bool := p.matchesFrom none text

end BuildOrder.Pattern
