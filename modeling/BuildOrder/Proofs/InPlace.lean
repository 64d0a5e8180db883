import BuildOrder.Proofs.Assemble
import Mathlib.Logic.Function.Basic

/-!
# Packages that are registered in place

An application may be written to as packages come, with an index of its packages kept beside it.
What was written before a failure would still be there.

* `InPlace`: computations that write to a registry and may fail.
* `Package.registerInPlace`, `Assembler.assembleInPlace`: a package is registered by one write after
  the other, once its import path is chosen and checked.
* `Assembler.assembleInPlace_of`: **this comes to what `Assembler.assemble` comes to**, trace
  included, and leaves the index right.
* `Assembler.assembleInPlace_allOrNothing`: **all is written or nothing.**
-/

namespace BuildOrder

/-- An application that is written to, an index of its packages, and how many names are drawn. -/
structure Registry where
  app : Application
  index : Bytes → Option PackageId
  drawn : Nat

namespace Registry

variable (x : Registry)

/-- The registry of an application: the index has its packages. -/
def of (app : Application) (drawn : Nat) : Registry := { app, index := app.find?, drawn }

def putIndex (path : Bytes) (id : PackageId) : Registry :=
  { x with index := Function.update x.index path (some id) }

def putRoot (id : PackageId) : Registry := { x with app.roots := x.app.roots ++ [id] }

def putPackage (p : Package) : Registry := { x with app.packages := x.app.packages ++ [p] }

def putOrder (id : PackageId) : Registry := { x with app.order := x.app.order ++ [id] }

/-- All that is written when a package is registered. -/
def put (p : Package) : Registry :=
  { x with
    app := x.app.register p
    index := Function.update x.index p.importPath (some x.app.packages.length) }

/-- A registry gains a package: it comes last under the next number, at a path that was not there
before, and is a root if it runs code at start. Nothing else changes. -/
structure Gains (p : Package) (after : Registry) : Prop where
  new : x.index p.importPath = none
  app : after.app =
    { x.app with
      packages := x.app.packages ++ [p]
      order := x.app.order ++ [x.app.packages.length]
      roots := if p.hasInit then x.app.roots ++ [x.app.packages.length] else x.app.roots }
  index : after.index = Function.update x.index p.importPath (some x.app.packages.length)

end Registry

/-! ### Computations in place -/

theorem Attempt.run_lift_bind {ε α β : Type} (m : Traced α) (f : α → Attempt ε β) :
    ((liftM m : Attempt ε α) >>= f).run = m >>= fun a => (f a).run := by
  rw [ExceptT.run_bind, ExceptT.run_liftM, bind_map_left]

theorem Attempt.run_liftExcept {ε α : Type} (x : Except ε α) :
    (liftExcept x : Attempt ε α).run = pure x := by
  cases x <;> rfl

/-- A computation that writes to a registry as it goes. What it wrote stays if it fails. -/
abbrev InPlace (ε α : Type) := ExceptT ε (StateT Registry Traced) α

namespace InPlace

variable {ε ε' α β : Type}

def run (m : InPlace ε α) (x : Registry) : Traced (Except ε α × Registry) :=
  StateT.run (ExceptT.run m) x

theorem run_bind (m : InPlace ε α) (f : α → InPlace ε β) (x : Registry) :
    (m >>= f).run x = m.run x >>= fun
      | (.ok a, y) => (f a).run y
      | (.error e, y) => pure (.error e, y) := by
  unfold run
  rw [ExceptT.run_bind, StateT.run_bind]
  refine congrArg _ (funext fun r => ?_)
  obtain ⟨r, y⟩ := r
  cases r <;> rfl

theorem run_pure (a : α) (x : Registry) :
    (pure a : InPlace ε α).run x = pure (.ok a, x) := rfl

/-- A step that reads the registry. -/
theorem run_get_bind (f : Registry → InPlace ε α) (x : Registry) :
    ((get : InPlace ε Registry) >>= f).run x = (f x).run x := rfl

theorem run_modify_bind (f : Registry → Registry) (g : Unit → InPlace ε α) (x : Registry) :
    ((modify f : InPlace ε Unit) >>= g).run x = (g ()).run (f x) := rfl

/-- A step that leaves a trace but neither writes nor fails. -/
theorem run_lift_bind (m : Traced α) (f : α → InPlace ε β) (x : Registry) :
    ((liftM m : InPlace ε α) >>= f).run x = m >>= fun a => (f a).run x := by
  have hlift : (liftM m : InPlace ε α).run x = m >>= fun a => pure (.ok a, x) := by
    show (m >>= fun a => pure (a, x)) >>= (fun r => pure (Except.ok r.1, r.2)) = _
    rw [bind_assoc]
    rfl
  rw [run_bind, hlift, bind_assoc]
  rfl

theorem run_adapt (f : ε → ε') (m : InPlace ε α) (x : Registry) :
    InPlace.run (ExceptT.adapt f m : InPlace ε' α) x =
      (fun r => (r.1.mapError f, r.2)) <$> m.run x := rfl

end InPlace

/-! ### Registering a package -/

/-- Registers a package unless its import path is in the index, with one write after the other. -/
def Package.registerInPlace (p : Package) : InPlace Bytes PackageId := do
  let x ← get
  if (x.index p.importPath).isSome then
    throw (ascii "package " ++ p.importPath ++ ascii " registered twice")
  else
    let id := x.app.packages.length
    modify (·.putIndex p.importPath id)
    if p.hasInit then modify (·.putRoot id)
    modify (·.putPackage p)
    modify (·.putOrder id)
    return id

/-- A package is registered as a whole or not at all. -/
theorem Package.run_registerInPlace (p : Package) (x : Registry) :
    p.registerInPlace.run x = pure (
      if (x.index p.importPath).isSome then
        (.error (ascii "package " ++ p.importPath ++ ascii " registered twice"), x)
      else (.ok x.app.packages.length, x.put p)) := by
  rw [registerInPlace, InPlace.run_get_bind]
  split
  · rfl
  · -- no write can fail, whether there is one to the roots or not
    cases hinit : p.hasInit
    all_goals
      simp only [InPlace.run_modify_bind, InPlace.run_pure, Bool.false_eq_true, if_false, if_true]
      simp [Registry.putIndex, Registry.putRoot, Registry.putPackage, Registry.putOrder,
        Registry.put, Application.register, hinit]

namespace Application

/-- The index gains the path of a package that is registered. -/
theorem find?_register {app : Application} {p : Package}
    (hnew : app.contains p.importPath = false) :
    (app.register p).find? = Function.update app.find? p.importPath (some app.packages.length) := by
  funext path
  have happend : (app.register p).find? path =
      (app.find? path).or ([p].findIdx? (·.importPath == path) |>.map (· + app.packages.length)) :=
    List.findIdx?_append
  rw [happend]
  by_cases hpath : path = p.importPath
  · subst hpath
    rw [Function.update_self, find?_eq_none_iff.2 hnew]
    simp [List.findIdx?_cons]
  · rw [Function.update_of_ne hpath]
    simp [List.findIdx?_cons, Ne.symm hpath]

end Application

/-! ### The package of a directory -/

namespace Assembler

variable (a : Assembler)

/-- Draws names until one is free. -/
def chooseInPlace : Nat → InPlace BuildError Bytes
  | 0 => throw .noFreeName
  | attempts + 1 => do
    let x ← get
    modify fun x => { x with drawn := x.drawn + 1 }
    if (x.index (a.names x.drawn)).isSome then chooseInPlace attempts else return a.names x.drawn

theorem run_chooseInPlace (attempts : Nat) (x : Registry) :
    (a.chooseInPlace attempts).run x = pure (
      let choice := chooseName a.names (fun path => (x.index path).isSome) x.drawn attempts
      (choice.1.elim (.error .noFreeName) .ok, { x with drawn := choice.2 })) := by
  induction attempts generalizing x with
  | zero => rfl
  | succ attempts ih =>
    rw [chooseInPlace, chooseName, InPlace.run_get_bind, InPlace.run_modify_bind]
    split
    · exact ih _
    · rfl

/-- The import path for a directory. -/
def pathInPlace (dir : Bytes) : InPlace BuildError Bytes :=
  if dir = topLevel then a.chooseInPlace maxNameAttempts else return pathOfDirectory dir

/-- Registers the package of a directory under an import path. -/
def addInPlace (dir path : Bytes) (files : List FileId) : InPlace BuildError PackageId := do
  if path = reservedPath then throw .reserved
  else
    let standard ← Traced.ask a.isStandard path
    if standard && !a.allowedShadows.contains path then throw (.shadowed path)
    else
      let p := a.package (← get).app path files
      Traced.note .debug "assemble" (describe dir p)
      ExceptT.adapt .malformed p.registerInPlace

/-- Registers the package of a directory. -/
def assembleInPlace (dir : Bytes) (files : List FileId) : InPlace BuildError PackageId := do
  let path ← a.pathInPlace dir
  a.addInPlace dir path files

/-- What is left in place by an attempt to assemble a package: what it makes, or what was there. -/
def left (app : Application) (drawn : Nat) :
    Except BuildError Application → Except BuildError PackageId × Registry
  | .ok built => (.ok app.packages.length, .of built drawn)
  | .error e => (.error e, .of app drawn)

theorem left_eq_error {app : Application} {drawn : Nat} {r : Except BuildError Application}
    {e : BuildError} {after : Registry} :
    left app drawn r = (.error e, after) ↔ r = .error e ∧ after = .of app drawn := by
  cases r with
  | error e' => simp [left, eq_comm]
  | ok built => simp [left]

theorem left_eq_ok {app : Application} {drawn : Nat} {r : Except BuildError Application}
    {id : PackageId} {after : Registry} : left app drawn r = (.ok id, after) ↔
      ∃ built, r = .ok built ∧ id = app.packages.length ∧ after = .of built drawn := by
  cases r with
  | error e => simp [left]
  | ok built => simp [left, eq_comm]

theorem run_registerInPlace_of (p : Package) (app : Application) (drawn : Nat) :
    InPlace.run (ExceptT.adapt .malformed p.registerInPlace : InPlace BuildError PackageId)
      (.of app drawn) = pure (left app drawn ((app.addPackage? p).mapError .malformed)) := by
  rw [InPlace.run_adapt, Package.run_registerInPlace, map_pure, Application.addPackage?]
  simp only [Registry.of, Application.isSome_find?]
  split
  · rfl
  · rename_i hnew
    rw [Bool.not_eq_true] at hnew
    simp [left, Registry.of, Registry.put, Application.find?_register hnew, Except.mapError]

theorem run_addInPlace_of (dir path : Bytes) (files : List FileId) (app : Application)
    (drawn : Nat) : (a.addInPlace dir path files).run (.of app drawn) =
      left app drawn <$> (a.add app dir path files).run := by
  unfold addInPlace add
  split
  · rfl
  · rw [InPlace.run_lift_bind, Attempt.run_lift_bind, map_bind]
    refine congrArg _ (funext fun standard => ?_)
    by_cases hshadow : standard = true ∧ path ∉ a.allowedShadows
    · rw [if_pos hshadow, if_pos (by simpa using hshadow)]
      rfl
    · -- the package is made and noted, and nothing was written yet
      rw [if_neg hshadow, if_neg (by simpa using hshadow), InPlace.run_get_bind]
      show InPlace.run (_ >>= fun _ => _) _ = left app drawn <$> ExceptT.run (_ >>= fun _ => _)
      rw [InPlace.run_lift_bind, Attempt.run_lift_bind, map_bind]
      refine congrArg _ (funext fun _ => ?_)
      rw [run_registerInPlace_of, Attempt.run_liftExcept, map_pure]
      rfl

/-- **In place an attempt comes to what it comes to otherwise**, trace included. -/
theorem assembleInPlace_of (dir : Bytes) (files : List FileId) (app : Application) (drawn : Nat) :
    (a.assembleInPlace dir files).run (.of app drawn) =
      left app (a.assemble app dir files drawn).2 <$> (a.assemble app dir files drawn).1.run := by
  have hpath : (a.pathInPlace dir).run (.of app drawn) = pure
      ((a.importPath app dir drawn).1.elim (.error .noFreeName) .ok,
        .of app (a.importPath app dir drawn).2) := by
    unfold pathInPlace importPath
    split
    · rw [run_chooseInPlace]
      simp [Registry.of, Application.isSome_find?]
    · rfl
  rw [assembleInPlace, InPlace.run_bind, hpath, pure_bind, assemble]
  cases a.importPath app dir drawn with
  | mk choice next =>
    cases choice with
    | none => rfl
    | some path => exact a.run_addInPlace_of dir path files app next

theorem package_hasInit_iff {app : Application} {path : Bytes} {files : List FileId} :
    (a.package app path files).hasInit = true ↔
      ∃ id ∈ files, ∃ f, app.file? id = some f ∧ f.hasInit = true := by
  simp [package, Option.any_eq_true]

/-- An attempt goes well if there is a path for the directory that is free, not reserved, and allowed
if it is standard. -/
theorem exists_assemble_iff (app : Application) (dir : Bytes) (files : List FileId) (drawn : Nat) :
    (∃ built, (a.assemble app dir files drawn).1.run.value = .ok built) ↔
      ∃ path, (a.importPath app dir drawn).1 = some path ∧ app.contains path = false ∧
        path ≠ reservedPath ∧ (a.isStandard path = true → path ∈ a.allowedShadows) := by
  constructor
  · rintro ⟨built, hbuilt⟩
    obtain ⟨path, hpath, hadd⟩ := assemble_eq_ok.1 hbuilt
    obtain ⟨-, hnew, hreserved, hallowed⟩ := add_eq_ok.1 hadd
    exact ⟨path, by rw [hpath], hnew, hreserved, hallowed⟩
  · rintro ⟨path, hpath, hnew, hreserved, hallowed⟩
    have hadd : (a.add app dir path files).run.value =
        .ok (app.register (a.package app path files)) :=
      add_eq_ok.2 ⟨rfl, hnew, hreserved, hallowed⟩
    refine ⟨_, assemble_eq_ok.2 ⟨path, ?_, hadd⟩⟩
    rw [assemble_snd, ← hpath]

/-- **All is written or nothing.** Where an attempt fails, the application and its index are as they
were. Where it goes well, the registry has gained one package with the files of the directory, which
is a root if and only if one of them runs code at start, and the index is that of the application
again. It goes well if the path for the directory is free, not reserved, and allowed if it is
standard. Either way it is what `assemble` comes to, trace included. -/
theorem assembleInPlace_allOrNothing (a : Assembler) (app : Application) (dir : Bytes)
    (files : List FileId) (drawn : Nat) :
    (∀ e after, ((a.assembleInPlace dir files).run (.of app drawn)).value = (.error e, after) →
      after.app = app ∧ after.index = app.find?) ∧
    (∀ id after, ((a.assembleInPlace dir files).run (.of app drawn)).value = (.ok id, after) →
      id = app.packages.length ∧ ∃ p, (Registry.of app drawn).Gains p after ∧ p.files = files ∧
        (p.hasInit = true ↔ ∃ id ∈ files, ∃ f, app.file? id = some f ∧ f.hasInit = true) ∧
        after.index = after.app.find?) ∧
    ((∃ id after, ((a.assembleInPlace dir files).run (.of app drawn)).value = (.ok id, after)) ↔
      ∃ path, (a.importPath app dir drawn).1 = some path ∧ app.contains path = false ∧
        path ≠ reservedPath ∧ (a.isStandard path = true → path ∈ a.allowedShadows)) ∧
    (a.assembleInPlace dir files).run (.of app drawn) =
      left app (a.assemble app dir files drawn).2 <$> (a.assemble app dir files drawn).1.run := by
  have hrun := a.assembleInPlace_of dir files app drawn
  have hvalue : ∀ id after,
      ((a.assembleInPlace dir files).run (.of app drawn)).value = (.ok id, after) ↔
      ∃ built, (a.assemble app dir files drawn).1.run.value = .ok built ∧
        id = app.packages.length ∧ after = .of built (a.assemble app dir files drawn).2 := by
    intro id after
    rw [hrun, Traced.value_map]
    exact left_eq_ok
  refine ⟨fun e after h => ?_, fun id after h => ?_, ?_, hrun⟩
  · rw [hrun, Traced.value_map] at h
    obtain ⟨-, rfl⟩ := left_eq_error.1 h
    exact ⟨rfl, rfl⟩
  · obtain ⟨built, hbuilt, rfl, rfl⟩ := (hvalue id after).1 h
    obtain ⟨path, -, hadd⟩ := assemble_eq_ok.1 hbuilt
    obtain ⟨rfl, hnew, -⟩ := add_eq_ok.1 hadd
    refine ⟨rfl, a.package app path files, ⟨?_, rfl, ?_⟩, rfl, a.package_hasInit_iff, rfl⟩
    · exact Application.find?_eq_none_iff.2 hnew
    · exact Application.find?_register hnew
  · rw [← a.exists_assemble_iff app dir files drawn]
    constructor
    · rintro ⟨id, after, h⟩
      obtain ⟨built, hbuilt, -⟩ := (hvalue id after).1 h
      exact ⟨built, hbuilt⟩
    · rintro ⟨built, hbuilt⟩
      exact ⟨_, _, (hvalue _ _).2 ⟨built, hbuilt, rfl, rfl⟩⟩

end Assembler

end BuildOrder
