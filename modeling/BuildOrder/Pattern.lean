import BuildOrder.Bytes

/-!
# Regular expressions over bytes

* `Pattern`: alternatives, sequences, repetitions, groups that capture, references to them,
  assertions and look-ahead.
* `Pattern.stateCount`: the size of the automaton that a pattern stands for, which is limited.
-/

namespace BuildOrder

/-- How often an item of a pattern may occur. -/
inductive Times where
  | star
  | plus
  | optional
  | interval (least : Nat) (most : Option Nat)
deriving DecidableEq, Repr

/-- Conditions on the place between two bytes. -/
inductive Boundary where
  | start
  | stop
  | word
  | notWord
deriving DecidableEq, Repr

inductive Pattern where
  | empty
  /-- One byte of a set. -/
  | oneOf (members : List UInt8)
  | cat (p q : Pattern)
  | alt (p q : Pattern)
  /-- A group whose text is captured under a number. -/
  | capture (number : Nat) (p : Pattern)
  /-- The text captured last under a number. -/
  | reference (number : Nat)
  /-- A greedy repetition prefers more items, any other fewer. -/
  | repeated (p : Pattern) (times : Times) (greedy : Bool)
  | boundary (b : Boundary)
  /-- Looks whether `p` matches here, without going on. -/
  | look (positive : Bool) (p : Pattern)
deriving DecidableEq, Repr

namespace Pattern

/-- The number of states of an item in an automaton, and the number of all states made for it:
an interval copies its item for each occurrence. -/
def states : Pattern → Nat × Nat
  | empty | oneOf _ | reference _ | boundary _ => (1, 1)
  | cat p q => (p.states.1 + q.states.1, p.states.2 + q.states.2)
  | alt p q => (p.states.1 + q.states.1 + 2, p.states.2 + q.states.2 + 2)
  | capture _ p | look _ p => (p.states.1 + 2, p.states.2 + 2)
  | repeated p times _ =>
    let (size, made) := p.states
    match times with
    | .star | .plus => (size + 1, made + 1)
    | .optional => (size + 2, made + 2)
    | .interval least none =>
      let copies := 1 + least * size + (size + 1)
      (copies, made + copies)
    | .interval least (some most) =>
      let copies := 1 + least * size + (most - least) * (size + 1) + 1
      (copies, made + copies)

/-- The number of states made for a whole pattern: those of its body, and its start, its end and
the accepting one. -/
def stateCount (p : Pattern) : Nat := p.states.2 + 3

def maxStates : Nat := 100000

end Pattern

end BuildOrder
