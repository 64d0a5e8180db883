import BuildOrder.Proofs.WellFormed
import Mathlib.Data.Prod.Lex

/-!
# The steps of the search for external packages

* `Resolver.lookAt`, `Resolver.run_cons`: what becomes of one import, and that the search looks at
  one after the other.
* `Resolver.Step`: one step of the search, which takes up the next package or the next path.
* `Resolver.Ends`: how the search ends, well or not.
* `Resolver.anyStep_wellFounded`: **there is no endless search**, even if the workspace answers anew
  each time.
* `Resolver.run_steps`: **the search is a walk of such steps to such an end.** What every step keeps
  is kept by the search.
-/

namespace BuildOrder

open Relation

/-- A state of the search: what it has come to, the packages whose imports are still to be looked
at, and the imports that are being looked at. -/
structure Search where
  reached : Resolution
  queue : List PackageId
  pending : List Bytes

namespace Resolution

variable {r : Resolution} {path other : Bytes}

theorem isSettled_iff :
    r.isSettled path = true ↔ path ∈ r.app.paths ∨ path ∈ r.unresolved := by
  rw [← Application.contains_iff]
  simp [isSettled]

theorem not_mem_paths (h : r.isSettled path = false) : path ∉ r.app.paths := by
  intro hmem
  rw [isSettled_iff.2 (Or.inl hmem)] at h
  cases h

theorem mem_unresolved_leave :
    other ∈ (r.leave path).unresolved ↔ other = path ∨ other ∈ r.unresolved :=
  Bytes.mem_insertOrdered

/-- A path that is left is settled, and those settled before stay so. -/
theorem isSettled_leave :
    (r.leave path).isSettled other = true ↔ other = path ∨ r.isSettled other = true := by
  rw [isSettled_iff, isSettled_iff, mem_unresolved_leave]
  exact or_left_comm

end Resolution

namespace Resolver

variable (s : Resolver)

/-- The path is to be looked up: it was not before, and it is legal and not standard. -/
structure Asks (r : Resolution) (path : Bytes) : Prop where
  unsettled : r.isSettled path = false
  standard : s.isStandard path = false
  legal : ImportPath.check path = .ok ()

/-- The search with the package at a path. -/
def added (r : Resolution) (path : Bytes) (found : WorkspacePackage) : Resolution :=
  { r.lookUp path with app := r.app.addExternal path found (s.keptFiles path found) }

theorem order_added (r : Resolution) (path : Bytes) (found : WorkspacePackage) :
    (s.added r path found).app.order = r.app.order ++ [r.app.packages.length] := rfl

theorem packages_added (r : Resolution) (path : Bytes) (found : WorkspacePackage) :
    (s.added r path found).app.packages =
      r.app.packages ++ [r.app.external path found (s.keptFiles path found)] := rfl

/-- The path that is added is settled, and those settled before stay so. -/
theorem isSettled_added {r : Resolution} {path other : Bytes} {found : WorkspacePackage} :
    (s.added r path found).isSettled other = true ↔ other = path ∨ r.isSettled other = true := by
  rw [Resolution.isSettled_iff, Resolution.isSettled_iff]
  simp only [added, Application.paths_addExternal, List.mem_append, List.mem_singleton]
  show (other ∈ r.app.paths ∨ other = path) ∨ other ∈ r.unresolved ↔ _
  rw [or_comm (a := other ∈ r.app.paths), or_assoc]

/-- Looks at one import: it is passed over, left, or the package at it is added. -/
def lookAt (r : Resolution) (path : Bytes) : Traced (Resolution × Except BuildError Unit) :=
  if r.isSettled path then return (r, .ok ())
  else do
    if ← Traced.ask s.isStandard path then return (r, .ok ())
    else
      match ImportPath.check path with
      | .error fault =>
        Traced.note .warn "resolve" (ascii "ignoring import " ++ Bytes.quoted path ++
          ascii ": " ++ fault.message)
        return (r.leave path, .ok ())
      | .ok () =>
        match ← s.workspace.locate path with
        | .error reason =>
          Traced.note .warn "resolve" (ascii "can't find package " ++ Bytes.quoted path ++
            ascii " in workspace: " ++ reason)
          return ((r.lookUp path).leave path, .ok ())
        | .ok found =>
          ⟨(), s.exclusionEvents path found⟩
          if s.keptFiles path found = [] then return (r.lookUp path, .error (.allExcluded path))
          else
            Traced.note .info "resolve" (resolvedMessage path found (s.keptFiles path found))
            return (s.added r path found, .ok ())

/-- Goes on with the search after an import was looked at. A package that was added joins the
queue, as it joins the order. -/
def goOn (r : Resolution) (queue : List PackageId) (pending : List Bytes) :
    Resolution × Except BuildError Unit → Traced (Resolution × Except BuildError Unit)
  | (next, .error e) => return (next, .error e)
  | (next, .ok ()) => s.run next (queue ++ next.app.order.drop r.app.order.length) pending

/-- One step of the search. -/
inductive Step : Search → Search → Prop
  | next (r : Resolution) (id : PackageId) (queue : List PackageId) :
      Step ⟨r, id :: queue, []⟩ ⟨r, queue, r.app.importsOf id⟩
  | skip {r : Resolution} {queue : List PackageId} {path : Bytes} {pending : List Bytes} :
      r.isSettled path = true ∨ s.isStandard path = true →
      Step ⟨r, queue, path :: pending⟩ ⟨r, queue, pending⟩
  | illegal {r : Resolution} {queue : List PackageId} {path : Bytes} {pending : List Bytes}
      {fault : ImportFault} : r.isSettled path = false → s.isStandard path = false →
      ImportPath.check path = .error fault →
      Step ⟨r, queue, path :: pending⟩ ⟨r.leave path, queue, pending⟩
  | missing {r : Resolution} {queue : List PackageId} {path : Bytes} {pending : List Bytes}
      {reason : Bytes} : s.Asks r path → (s.workspace.locate path).value = .error reason →
      Step ⟨r, queue, path :: pending⟩ ⟨(r.lookUp path).leave path, queue, pending⟩
  | found {r : Resolution} {queue : List PackageId} {path : Bytes} {pending : List Bytes}
      {found : WorkspacePackage} : s.Asks r path →
      (s.workspace.locate path).value = .ok found → s.keptFiles path found ≠ [] →
      Step ⟨r, queue, path :: pending⟩
        ⟨s.added r path found, queue ++ [r.app.packages.length], pending⟩

/-- How the search ends: all is looked at, or a package has no file left. -/
inductive Ends : Search → Resolution × Except BuildError Unit → Prop
  | all (r : Resolution) : Ends ⟨r, [], []⟩ (r, .ok ())
  | excluded {r : Resolution} {queue : List PackageId} {path : Bytes} {pending : List Bytes}
      {found : WorkspacePackage} : s.Asks r path →
      (s.workspace.locate path).value = .ok found → s.keptFiles path found = [] →
      Ends ⟨r, queue, path :: pending⟩ (r.lookUp path, .error (.allExcluded path))

/-- What the search comes to from a state. -/
def answer (x : Search) : Resolution × Except BuildError Unit :=
  (s.run x.reached x.queue x.pending).value

variable {s}

section Run

variable {r : Resolution} {queue : List PackageId} {path : Bytes} {pending : List Bytes}

/-- A path that is settled or standard is passed over. -/
theorem lookAt_skip (hpath : r.isSettled path = true ∨ s.isStandard path = true) :
    (s.lookAt r path).value = (r, .ok ()) := by
  unfold lookAt
  split
  · rfl
  · rename_i hsettled
    rw [Traced.value_bind, Traced.value_ask, hpath.resolve_left hsettled]
    rfl

/-- A path that is neither settled nor standard nor legal is left. -/
theorem lookAt_illegal {fault : ImportFault} (hunsettled : r.isSettled path = false)
    (hstd : s.isStandard path = false) (hcheck : ImportPath.check path = .error fault) :
    (s.lookAt r path).value = (r.leave path, .ok ()) := by
  unfold lookAt
  rw [if_neg (by simp [hunsettled]), Traced.value_bind, Traced.value_ask, hstd, hcheck]
  rfl

/-- A path that is asked for is looked up. -/
theorem lookAt_asks (hasks : s.Asks r path) :
    (s.lookAt r path).value =
      match (s.workspace.locate path).value with
      | .error _ => ((r.lookUp path).leave path, .ok ())
      | .ok found =>
        if s.keptFiles path found = [] then (r.lookUp path, .error (.allExcluded path))
        else (s.added r path found, .ok ()) := by
  unfold lookAt
  rw [if_neg (by simp [hasks.unsettled]), Traced.value_bind, Traced.value_ask, hasks.standard,
    hasks.legal]
  simp only [Bool.false_eq_true, if_false, Traced.value_bind]
  split
  · rfl
  · simp only [Traced.value_bind]
    split <;> rfl

theorem lookAt_missing {reason : Bytes} (hasks : s.Asks r path)
    (hloc : (s.workspace.locate path).value = .error reason) :
    (s.lookAt r path).value = ((r.lookUp path).leave path, .ok ()) := by
  rw [lookAt_asks hasks, hloc]

theorem lookAt_found {found : WorkspacePackage} (hasks : s.Asks r path)
    (hloc : (s.workspace.locate path).value = .ok found) (hkept : s.keptFiles path found ≠ []) :
    (s.lookAt r path).value = (s.added r path found, .ok ()) := by
  rw [lookAt_asks hasks, hloc]
  exact if_neg hkept

theorem lookAt_excluded {found : WorkspacePackage} (hasks : s.Asks r path)
    (hloc : (s.workspace.locate path).value = .ok found) (hkept : s.keptFiles path found = []) :
    (s.lookAt r path).value = (r.lookUp path, .error (.allExcluded path)) := by
  rw [lookAt_asks hasks, hloc]
  exact if_pos hkept

/-- What is looked at without a package being added leaves the queue as it is. -/
theorem goOn_same (next : Resolution) (horder : next.app.order = r.app.order) :
    s.goOn r queue pending (next, .ok ()) = s.run next queue pending := by
  simp [goOn, horder]

/-- A package that is added comes last in the queue. -/
theorem goOn_added {found : WorkspacePackage} :
    s.goOn r queue pending (s.added r path found, .ok ()) =
      s.run (s.added r path found) (queue ++ [r.app.packages.length]) pending := by
  show s.run _ (queue ++ List.drop _ (s.added r path found).app.order) pending = _
  rw [order_added, List.drop_left]

/-- **The search looks at one import after the other.** -/
theorem run_cons (r : Resolution) (queue : List PackageId) (path : Bytes) (pending : List Bytes) :
    s.run r queue (path :: pending) = s.lookAt r path >>= s.goOn r queue pending := by
  rw [run, lookAt]
  split
  · rw [pure_bind, goOn_same r rfl]
  rw [bind_assoc]
  refine congrArg _ (funext fun standard => ?_)
  split
  · rw [pure_bind, goOn_same r rfl]
  split
  · rename_i hcheck
    rw [hcheck]
    simp only [bind_assoc, pure_bind]
    rw [goOn_same (r := r) (r.leave path) rfl]
  rename_i hcheck
  rw [hcheck]
  simp only [bind_assoc]
  refine congrArg _ (funext fun located => ?_)
  cases located with
  | error reason =>
    simp only [bind_assoc, pure_bind]
    rw [goOn_same (r := r) ((r.lookUp path).leave path) rfl]
  | ok found =>
    simp only [bind_assoc]
    refine congrArg _ (funext fun _ => ?_)
    split
    · rw [pure_bind]
      rfl
    · simp only [bind_assoc, pure_bind]
      refine congrArg _ (funext fun _ => ?_)
      rw [goOn_added]
      rfl

theorem value_run_cons (r : Resolution) (queue : List PackageId) (path : Bytes)
    (pending : List Bytes) : (s.run r queue (path :: pending)).value =
      (s.goOn r queue pending (s.lookAt r path).value).value := by
  rw [run_cons, Traced.value_bind]

end Run

/-- What becomes of one import is a step of the search, or its end. -/
theorem lookAt_cases (s : Resolver) (r : Resolution) (path : Bytes) (queue : List PackageId)
    (pending : List Bytes) :
    (∃ next, (s.lookAt r path).value = (next, .ok ()) ∧ s.Step ⟨r, queue, path :: pending⟩
      ⟨next, queue ++ next.app.order.drop r.app.order.length, pending⟩) ∨
    ∃ next e, (s.lookAt r path).value = (next, .error e) ∧
      s.Ends ⟨r, queue, path :: pending⟩ (next, .error e) := by
  -- without a package being added, the queue stays as it is
  have hsame : ∀ next : Resolution, next.app.order = r.app.order →
      queue ++ next.app.order.drop r.app.order.length = queue := by
    intro next horder
    simp [horder]
  by_cases hskip : r.isSettled path = true ∨ s.isStandard path = true
  · refine Or.inl ⟨r, lookAt_skip hskip, ?_⟩
    rw [hsame r rfl]
    exact Step.skip hskip
  rw [not_or, Bool.not_eq_true, Bool.not_eq_true] at hskip
  cases hcheck : ImportPath.check path with
  | error fault =>
    refine Or.inl ⟨r.leave path, lookAt_illegal hskip.1 hskip.2 hcheck, ?_⟩
    rw [hsame (r.leave path) rfl]
    exact Step.illegal hskip.1 hskip.2 hcheck
  | ok =>
    have hasks : s.Asks r path := ⟨hskip.1, hskip.2, hcheck⟩
    cases hloc : (s.workspace.locate path).value with
    | error reason =>
      refine Or.inl ⟨(r.lookUp path).leave path, lookAt_missing hasks hloc, ?_⟩
      rw [hsame ((r.lookUp path).leave path) rfl]
      exact Step.missing hasks hloc
    | ok found =>
      by_cases hkept : s.keptFiles path found = []
      · exact Or.inr ⟨_, _, lookAt_excluded hasks hloc hkept, Ends.excluded hasks hloc hkept⟩
      · refine Or.inl ⟨s.added r path found, lookAt_found hasks hloc hkept, ?_⟩
        rw [order_added, List.drop_left]
        exact Step.found hasks hloc hkept

/-- The search goes on or has come to an end. -/
theorem step_or_ends (s : Resolver) (x : Search) :
    (∃ y, s.Step x y) ∨ ∃ answer, s.Ends x answer := by
  obtain ⟨r, queue, pending⟩ := x
  cases pending with
  | nil =>
    cases queue with
    | nil => exact Or.inr ⟨_, Ends.all r⟩
    | cons id queue => exact Or.inl ⟨_, Step.next r id queue⟩
  | cons path pending =>
    rcases s.lookAt_cases r path queue pending with ⟨next, -, hstep⟩ | ⟨next, e, -, hends⟩
    · exact Or.inl ⟨_, hstep⟩
    · exact Or.inr ⟨_, hends⟩

/-- **A step does not change the answer.** -/
theorem Step.answer {x y : Search} (h : s.Step x y) : s.answer x = s.answer y := by
  unfold Resolver.answer
  cases h with
  | next r id queue => rw [run]
  | skip hpath => rw [value_run_cons, lookAt_skip hpath, goOn_same _ rfl]
  | illegal hunsettled hstd hcheck =>
    rw [value_run_cons, lookAt_illegal hunsettled hstd hcheck]
    exact congrArg _ (goOn_same _ rfl)
  | missing hasks hloc =>
    rw [value_run_cons, lookAt_missing hasks hloc]
    exact congrArg _ (goOn_same _ rfl)
  | found hasks hloc hkept => rw [value_run_cons, lookAt_found hasks hloc hkept, goOn_added]

theorem Ends.answer {x : Search} {answer : Resolution × Except BuildError Unit}
    (h : s.Ends x answer) : s.answer x = answer := by
  unfold Resolver.answer
  cases h with
  | all r =>
    rw [run]
    rfl
  | excluded hasks hloc hkept =>
    rw [value_run_cons, lookAt_excluded hasks hloc hkept]
    rfl

theorem answer_of_steps {x y : Search} (h : ReflTransGen s.Step x y) : s.answer x = s.answer y := by
  induction h with
  | refl => rfl
  | tail _ hstep ih => rw [ih, hstep.answer]

/-- A step leads to the end that the search comes to from there. -/
theorem Step.exists_end {x y : Search} (h : s.Step x y)
    (hend : ∃ last, ReflTransGen s.Step y last ∧ s.Ends last (s.answer y)) :
    ∃ last, ReflTransGen s.Step x last ∧ s.Ends last (s.answer x) := by
  obtain ⟨last, hsteps, hends⟩ := hend
  rw [h.answer]
  exact ⟨last, ReflTransGen.head h hsteps, hends⟩

/-- A step of the search, whatever the workspace, the standard library and the filter answer this
time. -/
def AnyStep (x y : Search) : Prop := ∃ s : Resolver, s.Step x y

/-- What falls with every step: the legal paths not held, then the packages whose imports are still
to be looked at, then the imports being looked at. -/
noncomputable def ahead (x : Search) : Nat × Nat × Nat :=
  (x.reached.app.unseen, x.queue.length, x.pending.length)

theorem Asks.isLegal (h : s.Asks r path) : ImportPath.isLegal path = true := by
  rw [ImportPath.isLegal, h.legal]
  rfl

/-- A package that is added takes a legal path from those not held. -/
theorem Asks.unseen_lt {found : WorkspacePackage} (h : s.Asks r path) :
    (s.added r path found).app.unseen < r.app.unseen := by
  refine r.app.unseen_addExternal found _ h.isLegal ?_
  exact Application.not_contains_iff.2 (Resolution.not_mem_paths h.unsettled)

/-- **Every step leaves less ahead.** A package that is added takes a legal path from those not
held; any other step takes a package or an import from those to be looked at. -/
theorem Step.ahead_lt (h : s.Step x y) :
    Prod.Lex (· < ·) (Prod.Lex (· < ·) (· < ·)) (ahead y) (ahead x) := by
  cases h with
  | next r id queue => exact Prod.Lex.right _ (Prod.Lex.left _ _ (Nat.lt_succ_self _))
  | skip _ => exact Prod.Lex.right _ (Prod.Lex.right _ (Nat.lt_succ_self _))
  | illegal _ _ _ => exact Prod.Lex.right _ (Prod.Lex.right _ (Nat.lt_succ_self _))
  | missing _ _ => exact Prod.Lex.right _ (Prod.Lex.right _ (Nat.lt_succ_self _))
  | found hasks _ _ => exact Prod.Lex.left _ _ hasks.unseen_lt

/-- **There is no endless search**, even if the answers change from step to step. -/
theorem anyStep_wellFounded : WellFounded fun y x => AnyStep x y := by
  have hlex : WellFounded
      (Prod.Lex (· < ·) (Prod.Lex (· < ·) (· < ·)) : Nat × Nat × Nat → Nat × Nat × Nat → Prop) :=
    WellFounded.prod_lex Nat.lt_wfRel.wf (WellFounded.prod_lex Nat.lt_wfRel.wf Nat.lt_wfRel.wf)
  refine Subrelation.wf ?_ (InvImage.wf ahead hlex)
  rintro y x ⟨s, hstep⟩
  exact hstep.ahead_lt

variable (s)

/-- **The search is a walk of steps to an end.** -/
theorem exists_end (x : Search) :
    ∃ last, ReflTransGen s.Step x last ∧ s.Ends last (s.answer x) := by
  induction x using anyStep_wellFounded.induction with
  | _ x ih =>
    -- the next step is taken, and the walk goes on from there
    rcases s.step_or_ends x with ⟨y, hstep⟩ | ⟨answer, hends⟩
    · exact hstep.exists_end (ih y ⟨s, hstep⟩)
    · exact ⟨x, ReflTransGen.refl, hends.answer ▸ hends⟩

theorem run_steps (r : Resolution) (queue : List PackageId) (pending : List Bytes) :
    ∃ last, ReflTransGen s.Step ⟨r, queue, pending⟩ last ∧
      s.Ends last (s.run r queue pending).value :=
  s.exists_end ⟨r, queue, pending⟩

end Resolver

end BuildOrder
