import BuildOrder.Proofs.Lookups

/-!
# The look-ups of a search, moment by moment

Workspace, standard library and filter need not answer alike each time they are asked.

* `Resolver.Run`: a search from its start to its end, with the oracles as they answer at each moment.
* `Resolver.exists_run`: the search as it is run is such a run.
* `Resolver.Run.lookups_eq`: **the look-ups are those that the moments ask for**, in order.
* `Resolver.run_recorded`: a workspace that records the calls it gets has these recorded.
* `Resolver.resolve_calls`: **no path is looked up twice**, and each is at its moment legal, not
  standard, not registered, and imported by a registered package.
-/

namespace BuildOrder

open Relation

/-! ### What an application goes on importing -/

namespace Application

variable {app : Application} {path : Bytes}

theorem imports_of_importsOf {id : PackageId} (h : path ∈ app.importsOf id) : app.Imports path := by
  unfold importsOf at h
  split at h
  · cases h
  · rename_i p hp
    obtain ⟨f, hf, hpath⟩ := List.mem_flatMap.1 h
    exact ⟨p, List.mem_of_getElem? hp, f, hf, hpath⟩

/-- What is imported stays so when an external package comes. -/
theorem Imports.addExternal (h : app.Imports path) (other : Bytes) (found : WorkspacePackage)
    (files : List WorkspaceFile) : (app.addExternal other found files).Imports path := by
  obtain ⟨p, hp, f, hf, hpath⟩ := h
  refine ⟨p, List.mem_append_left _ hp, f, ?_, hpath⟩
  obtain ⟨id, hid, hget⟩ := List.mem_filterMap.1 hf
  refine List.mem_filterMap.2 ⟨id, hid, ?_⟩
  have hlt : id < app.files.length := (List.getElem?_eq_some_iff.1 hget).1
  exact (List.getElem?_append_left hlt).trans hget

end Application

namespace Resolver

/-! ### Runs -/

/-- A moment of a search: its state, and the oracles as they answer then. -/
structure Moment (σ : Type) where
  oracles : Resolver
  state : σ

/-- A search from a state, told by its steps and ends: the moments it goes through, and what it
comes to. -/
inductive Run {σ : Type} (step : Resolver → σ → σ → Prop)
    (ends : Resolver → σ → Resolution × Except BuildError Unit → Prop) :
    σ → List (Moment σ) → Resolution × Except BuildError Unit → Prop
  | last {s : Resolver} {x : σ} {answer : Resolution × Except BuildError Unit} :
      ends s x answer → Run step ends x [⟨s, x⟩] answer
  | cons {s : Resolver} {x y : σ} {moments : List (Moment σ)}
      {answer : Resolution × Except BuildError Unit} :
      step s x y → Run step ends y moments answer → Run step ends x (⟨s, x⟩ :: moments) answer

/-- A run of the search for the external packages of an application, after searches that left some
paths unresolved. -/
def Runs (app : Application) (unresolved : List Bytes) :
    List (Moment Search) → Resolution × Except BuildError Unit → Prop :=
  Run Step Ends ⟨{ app, unresolved }, app.order, []⟩

variable {s : Resolver} {app : Application} {x y : Search} {moments : List (Moment Search)}
  {answer : Resolution × Except BuildError Unit}

instance (r : Resolution) (path : Bytes) : Decidable (s.Asks r path) :=
  decidable_of_iff (r.isSettled path = false ∧ s.isStandard path = false ∧
      ImportPath.check path = .ok ())
    ⟨fun h => ⟨h.1, h.2.1, h.2.2⟩, fun h => ⟨h.unsettled, h.standard, h.legal⟩⟩

/-- The path that is looked up at a moment. -/
def Moment.call? (m : Moment Search) : Option Bytes :=
  m.state.pending.head?.filter fun path => m.oracles.Asks m.state.reached path

theorem exists_run_of_steps {last : Search} (hsteps : ReflTransGen s.Step x last)
    (hends : s.Ends last answer) :
    ∃ moments, Run Step Ends x moments answer ∧ ∀ m ∈ moments, m.oracles = s := by
  induction hsteps using ReflTransGen.head_induction_on with
  | refl => exact ⟨_, Run.last hends, by simp⟩
  | head hstep _ ih =>
    obtain ⟨moments, hrun, hsame⟩ := ih
    exact ⟨_, Run.cons hstep hrun, by simpa using hsame⟩

/-- **The search as it is run is a run**, with the same oracles at each moment. -/
theorem exists_run (s : Resolver) (app : Application) :
    ∃ moments, Runs app [] moments (s.resolve app).value ∧ ∀ m ∈ moments, m.oracles = s := by
  obtain ⟨last, hsteps, hends⟩ := s.run_steps { app } app.order []
  exact exists_run_of_steps hsteps hends

/-- A run is a walk of steps to an end. -/
theorem Run.steps (h : Run Step Ends x moments answer) :
    ∃ last, ReflTransGen AnyStep x last ∧ ∃ t : Resolver, t.Ends last answer := by
  induction h with
  | last hends => exact ⟨_, ReflTransGen.refl, _, hends⟩
  | cons hstep _ ih =>
    obtain ⟨last, hsteps, hends⟩ := ih
    exact ⟨last, ReflTransGen.head ⟨_, hstep⟩ hsteps, hends⟩

/-! ### The path looked up at a moment -/

section Moment

variable {r : Resolution} {queue : List PackageId} {path : Bytes} {pending : List Bytes}

theorem call?_eq_some_iff {m : Moment Search} : m.call? = some path ↔
    m.state.pending.head? = some path ∧ m.oracles.Asks m.state.reached path := by
  rw [Moment.call?, Option.filter_eq_some_iff, decide_eq_true_iff]

theorem call?_of_asks (h : s.Asks r path) :
    Moment.call? ⟨s, ⟨r, queue, path :: pending⟩⟩ = some path :=
  call?_eq_some_iff.2 ⟨rfl, h⟩

theorem call?_of_not_asks (h : ¬ s.Asks r path) :
    Moment.call? ⟨s, ⟨r, queue, path :: pending⟩⟩ = none := by
  refine Option.eq_none_iff_forall_ne_some.2 fun other hcall => ?_
  obtain ⟨hhead, hasks⟩ := call?_eq_some_iff.1 hcall
  obtain rfl : path = other := Option.some.inj hhead
  exact h hasks

/-- A path that is passed over is not asked for. -/
theorem Asks.not_skip (h : s.Asks r path) :
    ¬ (r.isSettled path = true ∨ s.isStandard path = true) := by
  simp [h.unsettled, h.standard]

end Moment

/-- A step looks up the path that its moment asks for, if it asks for one. -/
theorem Step.lookups (h : s.Step x y) :
    y.reached.lookups = x.reached.lookups ++ (Moment.call? ⟨s, x⟩).toList := by
  cases h with
  | next r id queue => exact (List.append_nil _).symm
  | skip hpath =>
    rw [call?_of_not_asks fun hasks => hasks.not_skip hpath]
    exact (List.append_nil _).symm
  | illegal _ _ hcheck =>
    rw [call?_of_not_asks fun hasks => by simp [hasks.legal] at hcheck]
    exact (List.append_nil _).symm
  | missing hasks _ =>
    rw [call?_of_asks hasks]
    rfl
  | found hasks _ _ =>
    rw [call?_of_asks hasks]
    rfl

theorem Ends.lookups (h : s.Ends x answer) :
    answer.1.lookups = x.reached.lookups ++ (Moment.call? ⟨s, x⟩).toList := by
  cases h with
  | all r => exact (List.append_nil _).symm
  | excluded hasks _ _ =>
    rw [call?_of_asks hasks]
    rfl

/-- **The look-ups are those that the moments of a run ask for**, in order. -/
theorem Run.lookups_eq (h : Run Step Ends x moments answer) :
    answer.1.lookups = x.reached.lookups ++ moments.filterMap Moment.call? := by
  rw [List.filterMap_eq_flatMap_toList]
  induction h with
  | last hends => rw [hends.lookups, List.flatMap_singleton]
  | cons hstep _ ih => rw [ih, hstep.lookups, List.flatMap_cons, List.append_assoc]

/-- What is looked at next is imported by a package that is registered. -/
def Imported (x : Search) : Prop := ∀ path ∈ x.pending, x.reached.app.Imports path

theorem Step.imported (h : s.Step x y) (hx : Imported x) : Imported y := by
  cases h with
  | next r id queue => exact fun path hpath => Application.imports_of_importsOf hpath
  | skip _ => exact fun path hpath => hx path (List.mem_cons_of_mem _ hpath)
  | illegal _ _ _ => exact fun path hpath => hx path (List.mem_cons_of_mem _ hpath)
  | missing _ _ => exact fun path hpath => hx path (List.mem_cons_of_mem _ hpath)
  | found _ _ _ =>
    exact fun path hpath => (hx path (List.mem_cons_of_mem _ hpath)).addExternal _ _ _

theorem Run.imported (h : Run Step Ends x moments answer) (hx : Imported x) :
    ∀ m ∈ moments, Imported m.state := by
  induction h with
  | last _ => simpa using hx
  | cons hstep _ ih => exact List.forall_mem_cons.2 ⟨hx, ih (hstep.imported hx)⟩

/-! ### The calls of a workspace -/

/-- The record of a call. -/
def callRecord (path : Bytes) : Log.Record :=
  { level := .trace, component := ascii "locate", message := path }

/-- The path of a call that was recorded. -/
def recordedCall? : Event → Option Bytes
  | .note record => if record.component = ascii "locate" then some record.message else none
  | .asked _ _ => none

/-- The calls recorded on the way to a value, in order. -/
def recordedCalls {α : Type} (x : Traced α) : List Bytes := x.events.filterMap recordedCall?

section Recorded

variable {α β : Type}

@[simp] theorem recordedCalls_pure (a : α) : recordedCalls (pure a) = [] := rfl

@[simp] theorem recordedCalls_bind (x : Traced α) (f : α → Traced β) :
    recordedCalls (x >>= f) = recordedCalls x ++ recordedCalls (f x.value) :=
  List.filterMap_append

@[simp] theorem recordedCalls_map (f : α → β) (x : Traced α) :
    recordedCalls (f <$> x) = recordedCalls x := by
  rw [map_eq_pure_bind, recordedCalls_bind, recordedCalls_pure, List.append_nil]

@[simp] theorem recordedCalls_ask (isStandard : Bytes → Bool) (path : Bytes) :
    recordedCalls (Traced.ask isStandard path) = [] := rfl

theorem recordedCall?_resolve (level : Log.Level) (message : Bytes) :
    recordedCall? (.note { level, component := ascii "resolve", message }) = none := by
  have hne : ascii "resolve" ≠ ascii "locate" := by decide
  simp [recordedCall?, hne]

/-- The records of the search itself are none of calls. -/
@[simp] theorem recordedCalls_note (level : Log.Level) (message : Bytes) :
    recordedCalls (Traced.note level "resolve" message) = [] := by
  simp [recordedCalls, Traced.note, recordedCall?_resolve]

@[simp] theorem recordedCalls_exclusionEvents (s : Resolver) (path : Bytes)
    (found : WorkspacePackage) : recordedCalls ⟨(), s.exclusionEvents path found⟩ = [] := by
  simp only [recordedCalls, exclusionEvents, List.filterMap_map, List.filterMap_eq_nil_iff]
  exact fun f _ => recordedCall?_resolve _ _

end Recorded

/-- The search with a workspace that records each call of it, and else answers as before. -/
def recorded (s : Resolver) : Resolver :=
  { s with workspace.locate := fun path =>
      ⟨(s.workspace.locate path).value, [.note (callRecord path)]⟩ }

@[simp] theorem recordedCalls_locate (path : Bytes) :
    recordedCalls (s.recorded.workspace.locate path) = [path] := rfl

theorem recorded_step (h : s.Step x y) : s.recorded.Step x y := by
  cases h with
  | next r id queue => exact Step.next r id queue
  | skip hpath => exact Step.skip hpath
  | illegal hunsettled hstd hcheck => exact Step.illegal hunsettled hstd hcheck
  | missing hasks hloc => exact Step.missing ⟨hasks.unsettled, hasks.standard, hasks.legal⟩ hloc
  | found hasks hloc hkept =>
    exact Step.found ⟨hasks.unsettled, hasks.standard, hasks.legal⟩ hloc hkept

theorem recorded_ends (h : s.Ends x answer) : s.recorded.Ends x answer := by
  cases h with
  | all r => exact Ends.all r
  | excluded hasks hloc hkept =>
    exact Ends.excluded ⟨hasks.unsettled, hasks.standard, hasks.legal⟩ hloc hkept

/-- Recording the calls does not change what the search comes to. -/
theorem value_recorded (s : Resolver) (app : Application) :
    (s.recorded.resolve app).value = (s.resolve app).value := by
  obtain ⟨last, hsteps, hends⟩ := s.run_steps { app } app.order []
  have hsteps := ReflTransGen.mono (fun _ _ => recorded_step) _ _ hsteps
  exact (answer_of_steps hsteps).trans (recorded_ends hends).answer

/-- The calls recorded while an import is looked at are the look-ups that it leads to. -/
theorem lookAt_recorded (r : Resolution) (path : Bytes) :
    (s.recorded.lookAt r path).value.1.lookups =
      r.lookups ++ recordedCalls (s.recorded.lookAt r path) := by
  unfold lookAt
  split
  · simp
  simp only [Traced.value_bind, recordedCalls_bind, recordedCalls_ask, List.nil_append]
  split
  · simp
  split
  · simp [Resolution.leave]
  simp only [Traced.value_bind, recordedCalls_bind, recordedCalls_locate]
  split
  · simp [Resolution.leave, Resolution.lookUp]
  simp only [Traced.value_bind, recordedCalls_bind, recordedCalls_exclusionEvents, List.nil_append]
  split
  · simp [Resolution.lookUp]
  · simp [added, Resolution.lookUp]

/-- **The calls recorded are the look-ups**, from any state on. -/
theorem run_recorded (x : Search) : (s.recorded.answer x).1.lookups =
    x.reached.lookups ++ recordedCalls (s.recorded.run x.reached x.queue x.pending) := by
  induction x using anyStep_wellFounded.induction with
  | _ x ih =>
    obtain ⟨r, queue, pending⟩ := x
    unfold answer at ih ⊢
    cases pending with
    | nil =>
      cases queue with
      | nil =>
        rw [run]
        exact (List.append_nil _).symm
      | cons id queue =>
        rw [run]
        exact ih _ ⟨s.recorded, Step.next r id queue⟩
    | cons path pending =>
      rw [run_cons, recordedCalls_bind, Traced.value_bind, ← List.append_assoc, ← lookAt_recorded]
      rcases s.recorded.lookAt_cases r path queue pending with
        ⟨next, hnext, hstep⟩ | ⟨next, e, hnext, -⟩
      · rw [hnext]
        exact ih _ ⟨s.recorded, hstep⟩
      · rw [hnext]
        exact (List.append_nil _).symm

/-- **No path is looked up twice**, in no search, well or not, whatever the oracles answer from
moment to moment and whatever searches before left unresolved. The look-ups are those that the
moments ask for, and the path is then legal, not standard, not registered, and imported by a file of
a registered package. The search as it is run is such a run, and a workspace that records its calls
has recorded these look-ups. -/
theorem resolve_calls (s : Resolver) (app : Application) :
    (∀ unresolved moments answer, Runs app unresolved moments answer →
      answer.1.lookups = moments.filterMap Moment.call? ∧ answer.1.lookups.Nodup ∧
      ∀ m ∈ moments, ∀ path, m.call? = some path →
        ImportPath.check path = .ok () ∧ m.oracles.isStandard path = false ∧
        m.state.reached.app.contains path = false ∧ m.state.reached.app.Imports path) ∧
    (∃ moments, Runs app [] moments (s.resolve app).value ∧ ∀ m ∈ moments, m.oracles = s) ∧
    (s.recorded.resolve app).value = (s.resolve app).value ∧
    recordedCalls (s.recorded.resolve app) = (s.resolve app).value.1.lookups := by
  refine ⟨fun unresolved moments answer hrun => ⟨?_, ?_, ?_⟩, s.exists_run app,
    s.value_recorded app, ?_⟩
  · exact hrun.lookups_eq
  · obtain ⟨last, hsteps, t, hends⟩ := hrun.steps
    exact (hends.distinct (asked_of_steps hsteps (Asked.start app unresolved))).nodup
  · intro m hm path hcall
    obtain ⟨hhead, hasks⟩ := call?_eq_some_iff.1 hcall
    have himported : Imported m.state := hrun.imported (fun _ hpath => nomatch hpath) m hm
    refine ⟨hasks.legal, hasks.standard, ?_, himported path (List.mem_of_mem_head? hhead)⟩
    exact Application.not_contains_iff.2 (Resolution.not_mem_paths hasks.unsettled)
  · have hcalls := s.run_recorded ⟨{ app }, app.order, []⟩
    rw [← s.value_recorded app]
    exact hcalls.symm

end Resolver

end BuildOrder
