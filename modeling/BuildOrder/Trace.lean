import BuildOrder.Log.Record

/-!
# Computations that leave a trace

A build says what it does by log records, and asks which import paths are standard. Both are kept
in order beside the result, and the result does not depend on them.

* `Traced`: a value with the events on the way to it.
* `Traced.value_bind`: what is computed is computed from values alone.
* `Attempt.value_bind_eq_ok`, `Attempt.value_bind_eq_error`: how an attempt that goes well is made
  up, and one that fails.
* `Trace.records`: the records of a trace, with one for each new question to a memory of answers.
-/

namespace BuildOrder

inductive Event where
  | note (record : Log.Record)
  /-- A path was asked about, and is standard or not. -/
  | asked (path : Bytes) (standard : Bool)
deriving DecidableEq, Repr

/-- A value and the events on the way to it. -/
structure Traced (α : Type) where
  value : α
  events : List Event := []
deriving DecidableEq, Repr

namespace Traced

variable {α β : Type}

instance : Monad Traced where
  pure a := ⟨a, []⟩
  bind x f :=
    let y := f x.value
    ⟨y.value, x.events ++ y.events⟩

@[simp] theorem value_pure (a : α) : (pure a : Traced α).value = a := rfl

@[simp] theorem events_pure (a : α) : (pure a : Traced α).events = [] := rfl

@[simp] theorem value_bind (x : Traced α) (f : α → Traced β) :
    (x >>= f).value = (f x.value).value := rfl

@[simp] theorem events_bind (x : Traced α) (f : α → Traced β) :
    (x >>= f).events = x.events ++ (f x.value).events := rfl

instance : LawfulMonad Traced :=
  LawfulMonad.mk' Traced
    (by rintro α ⟨a, events⟩; exact congrArg (Traced.mk a) (List.append_nil events))
    (by intro α β a f; rfl)
    (by intro α β γ x f g; exact congrArg (Traced.mk _) (List.append_assoc _ _ _))

@[simp] theorem value_map (f : α → β) (x : Traced α) : (f <$> x).value = f x.value := rfl

/-- Leaves a log record. -/
def note (level : Log.Level) (component : String) (message : Bytes) : Traced Unit :=
  ⟨(), [.note { level, component := ascii component, message }]⟩

/-- Asks whether a path is standard. -/
def ask (isStandard : Bytes → Bool) (path : Bytes) : Traced Bool :=
  ⟨isStandard path, [.asked path (isStandard path)]⟩

@[simp] theorem value_ask (isStandard : Bytes → Bool) (path : Bytes) :
    (ask isStandard path).value = isStandard path := rfl

end Traced

/-- A traced computation that may fail; what it did before is kept. -/
abbrev Attempt (ε α : Type) := ExceptT ε Traced α

@[simp] theorem mapError_eq_ok {ε ε' α : Type} {x : Except ε α} {f : ε → ε'} {a : α} :
    x.mapError f = .ok a ↔ x = .ok a := by
  cases x with
  | error e => exact ⟨nofun, nofun⟩
  | ok b =>
    constructor
    · exact fun h => congrArg Except.ok (Except.ok.inj h)
    · exact fun h => congrArg Except.ok (Except.ok.inj h)

@[simp] theorem mapError_eq_error {ε ε' α : Type} {x : Except ε α} {f : ε → ε'} {e : ε'} :
    x.mapError f = .error e ↔ ∃ cause, x = .error cause ∧ f cause = e := by
  cases x with
  | error cause =>
    constructor
    · exact fun h => ⟨cause, rfl, Except.error.inj h⟩
    · rintro ⟨_, ⟨⟩, rfl⟩
      rfl
  | ok a => exact ⟨nofun, by rintro ⟨_, ⟨⟩, _⟩⟩

namespace Attempt

variable {ε ε' α β : Type}

/-- An attempt that goes well has gone well at its first step, and from there. -/
theorem value_bind_eq_ok {x : Attempt ε α} {f : α → Attempt ε β} {b : β} :
    (x >>= f).run.value = .ok b ↔ ∃ a, x.run.value = .ok a ∧ (f a).run.value = .ok b := by
  rw [ExceptT.run_bind, Traced.value_bind]
  cases x.run.value with
  | error e => simp
  | ok a => simp

/-- An attempt that fails has failed at its first step, or after that step went well. -/
theorem value_bind_eq_error {x : Attempt ε α} {f : α → Attempt ε β} {e : ε} :
    (x >>= f).run.value = .error e ↔
      x.run.value = .error e ∨ ∃ a, x.run.value = .ok a ∧ (f a).run.value = .error e := by
  rw [ExceptT.run_bind, Traced.value_bind]
  cases x.run.value with
  | error e' => simp
  | ok a => simp

/-- A step that cannot fail. -/
theorem value_lift_bind (x : Traced α) (f : α → Attempt ε β) :
    ((liftM x : Attempt ε α) >>= f).run.value = (f x.value).run.value := rfl

@[simp] theorem value_liftExcept (x : Except ε α) :
    (liftExcept x : Attempt ε α).run.value = x := by
  cases x <;> rfl

@[simp] theorem value_adapt (f : ε → ε') (x : Attempt ε α) :
    (ExceptT.adapt f x : Attempt ε' α).run.value = x.run.value.mapError f := rfl

end Attempt

namespace Trace

/-- The record of a question that had not been asked before. -/
def answerRecord (path : Bytes) (standard : Bool) : Log.Record :=
  { level := .trace
    component := ascii "resolve"
    message := ascii "stdlib " ++ path ++ ascii " = " ++ Bytes.decimal standard.toNat }

/-- The record that an event leaves, if it does, and the paths asked about then. If answers are
`remembered`, the first question about each path leaves one; `known` are the paths asked about
before. -/
def record? (remembered : Bool) (known : List Bytes) : Event → Option Log.Record × List Bytes
  | .note r => (some r, known)
  | .asked path standard =>
    if remembered && !known.contains path then (some (answerRecord path standard), path :: known)
    else (none, known)

/-- The records of a trace after some paths were asked about. -/
def recordsFrom (remembered : Bool) (known : List Bytes) : List Event → List Log.Record
  | [] => []
  | e :: rest =>
    let (r, known) := record? remembered known e
    r.toList ++ recordsFrom remembered known rest

def records (remembered : Bool) (events : List Event) : List Log.Record :=
  recordsFrom remembered [] events

end Trace

end BuildOrder
