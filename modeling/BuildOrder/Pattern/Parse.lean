import BuildOrder.Pattern.Token

/-!
# Reading patterns

The words of a pattern are read from left to right, with a stack of the groups that are open.

* `Pattern.parse?`: the pattern of a text. There is none if the text is not made up of words, a
  group is not closed, a repetition has nothing to repeat, a reference is to no group before it, or
  the pattern is too large.
-/

namespace BuildOrder.Pattern

/-- The groups of a pattern. -/
inductive GroupKind where
  | capture (number : Nat)
  | plain
  | look (positive : Bool)
deriving DecidableEq, Repr

/-- A list of alternatives that is being read. -/
structure Branches where
  /-- The alternatives before the last bar. -/
  done : Option Pattern := none
  /-- The items of the last alternative, the latest first. -/
  items : List Pattern := []
  /-- The latest item may be repeated. -/
  repeatable : Bool := false
deriving DecidableEq, Repr

namespace Branches

variable (b : Branches)

def push (p : Pattern) (repeatable : Bool) : Branches :=
  { b with items := p :: b.items, repeatable }

/-- Repeats the latest item. -/
def repeat? (times : Times) (greedy : Bool) : Option Branches :=
  match b.items with
  | p :: items =>
    if b.repeatable then some { b with items := .repeated p times greedy :: items } else none
  | [] => none

/-- All alternatives, the last one included. -/
def pattern : Pattern :=
  let last := b.items.foldl (fun rest item => .cat item rest) .empty
  match b.done with
  | none => last
  | some before => .alt before last

def bar : Branches := { done := some b.pattern }

end Branches

/-- What has been read: the innermost alternatives, the groups around them from the inside out, and
the number of capturing groups opened. -/
structure Reader where
  current : Branches := {}
  outer : List (GroupKind × Branches) := []
  groups : Nat := 0
deriving DecidableEq, Repr

namespace Reader

variable (r : Reader)

def push (p : Pattern) (repeatable : Bool) : Reader :=
  { r with current := r.current.push p repeatable }

def openGroup (kind : GroupKind) (groups : Nat) : Reader :=
  { current := {}, outer := (kind, r.current) :: r.outer, groups }

/-- Closes the innermost group. What looks ahead may not be repeated. -/
def closeGroup? : Option Reader :=
  match r.outer with
  | [] => none
  | (kind, around) :: outer =>
    let inside := r.current.pattern
    let around := match kind with
      | .capture n => around.push (.capture n inside) true
      | .plain => around.push (.cat .empty inside) true
      | .look positive => around.push (.look positive inside) false
    some { r with current := around, outer }

/-- A group that was opened before and is closed. -/
def isClosed (number : Nat) : Bool :=
  0 < number && number ≤ r.groups && !(r.outer.map (·.1)).contains (.capture number)

def read? : Word → Option Reader
  | .item p => some (r.push p true)
  | .place b => some (r.push (.boundary b) false)
  | .reference n => if r.isClosed n then some (r.push (.reference n) true) else none
  | .repetition times greedy => do
    return { r with current := ← r.current.repeat? times greedy }
  | .bar => some { r with current := r.current.bar }
  | .openCapture => some (r.openGroup (.capture (r.groups + 1)) (r.groups + 1))
  | .openPlain => some (r.openGroup .plain r.groups)
  | .openLook positive => some (r.openGroup (.look positive) r.groups)
  | .close => r.closeGroup?

end Reader

/-- The pattern of a text. -/
def parse? (text : Bytes) : Option Pattern := do
  let words ← words? text
  let reader ← words.foldlM Reader.read? {}
  guard (reader.outer = [])
  let p := reader.current.pattern
  guard (p.stateCount ≤ maxStates)
  return p

end BuildOrder.Pattern
