import BuildOrder.Proofs.InPlace
import BuildOrder.Proofs.Search

/-!
# The index of a build

A build writes to one application from its first file to its last package, and finds packages by the
index that is kept beside it.

* `Resolver.lookAtInPlace`: one import is looked at in place: the index says whether it is there,
  the files of its package are added one after the other, and the package is registered.
* `Resolver.lookAtInPlace_of`: **this comes to what `Resolver.lookAt` comes to**, trace included,
  and leaves the index right.
* `Builder.Writes`: what a build writes. `Builder.index_of_writes`: **whatever it has written, the
  index is that of the application.**
* `Builder.writes_assembleAll`, `Resolver.writes_of_steps`: the packages of directories and the
  search are made of such writes.
-/

namespace BuildOrder

open Relation

namespace Registry

/-- The registry before the first write. -/
def empty : Registry := { app := {}, index := fun _ => none, drawn := 0 }

def putFile (x : Registry) (f : File) : Registry := { x with app := x.app.addFile f }

end Registry

namespace Application

theorem addFiles_nil (app : Application) : app.addFiles [] = app := by
  rw [addFiles, List.append_nil]

/-- Files are added one after the other. -/
theorem addFiles_addFile (app : Application) (f : File) (files : List File) :
    (app.addFile f).addFiles files = app.addFiles (f :: files) := by
  rw [addFiles, addFiles, addFile, List.append_assoc, List.singleton_append]

end Application

/-- Adds a file under the next number. -/
def File.addInPlace {ε : Type} (f : File) : InPlace ε FileId := do
  let x ← get
  modify (·.putFile f)
  return x.app.files.length

theorem File.run_addInPlace {ε : Type} (f : File) (x : Registry) :
    (f.addInPlace : InPlace ε FileId).run x = pure (.ok x.app.files.length, x.putFile f) := rfl

/-! ### Looking at an import -/

namespace Resolver

variable (s : Resolver)

/-- Adds the files of a package that was found, but for those that are excluded. -/
def addFilesInPlace (path : Bytes) (found : WorkspacePackage) :
    List WorkspaceFile → InPlace BuildError (List FileId)
  | [] => return []
  | f :: files => do
    if s.isExcluded (path ++ [Byte.slash] ++ f.name) then
      Traced.note .debug "resolve" (ascii "excluded " ++ path ++ ascii "/" ++ f.name)
      addFilesInPlace path found files
    else
      let id ← (found.file f).addInPlace
      let ids ← addFilesInPlace path found files
      return id :: ids

/-- Registers a package that was found. -/
def registerInPlace (path : Bytes) (found : WorkspacePackage) :
    InPlace BuildError PackageId := do
  let files ← s.addFilesInPlace path found found.files
  if files = [] then throw (.allExcluded path)
  else
    Traced.note .info "resolve" (ascii "resolved " ++ path ++ ascii " from " ++ found.dir ++
      ascii " (" ++ Bytes.decimal files.length ++ ascii " file(s))")
    ExceptT.adapt .malformed
      (Package.registerInPlace { importPath := path, files, baseDir := some found.dir })

/-- Looks for the package of an import. -/
def resolveInPlace (path : Bytes) : InPlace BuildError (Option PackageId) := do
  match ImportPath.check path with
  | .error fault =>
    Traced.note .warn "resolve" (ascii "ignoring import " ++ Bytes.quoted path ++
      ascii ": " ++ fault.message)
    return none
  | .ok () =>
    match ← s.workspace.locate path with
    | .error reason =>
      Traced.note .warn "resolve" (ascii "can't find package " ++ Bytes.quoted path ++
        ascii " in workspace: " ++ reason)
      return none
    | .ok found =>
      let id ← s.registerInPlace path found
      return some id

/-- Looks at an import, after some were left. The index says which packages are there. -/
def lookAtInPlace (unresolved : List Bytes) (path : Bytes) : InPlace BuildError (List Bytes) := do
  let x ← get
  if (x.index path).isSome || unresolved.contains path then return unresolved
  else
    if ← Traced.ask s.isStandard path then return unresolved
    else
      match ← s.resolveInPlace path with
      | none => return Bytes.insertOrdered path unresolved
      | some _ => return unresolved

/-- What is left in place when an import was looked at. -/
def leftBy (drawn : Nat) : Resolution × Except BuildError Unit →
    Except BuildError (List Bytes) × Registry
  | (r, result) => (result.map fun _ => r.unresolved, .of r.app drawn)

variable {s}

theorem keptFiles_cons (path : Bytes) (found : WorkspacePackage) (f : WorkspaceFile)
    (files : List WorkspaceFile) :
    s.keptFiles path { found with files := f :: files } =
      if s.isExcluded (path ++ [Byte.slash] ++ f.name) = true then
        s.keptFiles path { found with files }
      else f :: s.keptFiles path { found with files } := by
  unfold keptFiles
  rw [List.filter_cons]
  cases s.isExcluded (path ++ [Byte.slash] ++ f.name) <;> rfl

theorem exclusionEvents_cons (path : Bytes) (found : WorkspacePackage) (f : WorkspaceFile)
    (files : List WorkspaceFile) :
    s.exclusionEvents path { found with files := f :: files } =
      (if s.isExcluded (path ++ [Byte.slash] ++ f.name) = true then
        (Traced.note .debug "resolve" (ascii "excluded " ++ path ++ ascii "/" ++ f.name)).events
      else []) ++ s.exclusionEvents path { found with files } := by
  unfold exclusionEvents
  rw [List.filter_cons]
  split <;> rfl

/-- **The files kept are added under the next numbers**, and those excluded are noted. -/
theorem run_addFilesInPlace (path : Bytes) (found : WorkspacePackage)
    (files : List WorkspaceFile) (x : Registry) :
    (s.addFilesInPlace path found files).run x =
      ⟨(.ok ((List.range (s.keptFiles path { found with files }).length).map
          (x.app.files.length + ·)),
        { x with app := x.app.addFiles ((s.keptFiles path { found with files }).map found.file) }),
        s.exclusionEvents path { found with files }⟩ := by
  -- the files in front have their numbers before those behind them
  induction files generalizing x with
  | nil =>
    have hnone : { x with app := x.app.addFiles [] } = x := by
      rw [Application.addFiles_nil]
    exact congrArg (fun y => pure (Except.ok [], y)) hnone.symm
  | cons f files ih =>
    rw [addFilesInPlace, keptFiles_cons, exclusionEvents_cons]
    by_cases hexcluded : s.isExcluded (path ++ [Byte.slash] ++ f.name) = true
    · rw [if_pos hexcluded, if_pos hexcluded, if_pos hexcluded, InPlace.run_lift_bind, ih]
      rfl
    · rw [if_neg hexcluded, if_neg hexcluded, if_neg hexcluded, InPlace.run_bind,
        File.run_addInPlace, pure_bind]
      simp only
      rw [InPlace.run_bind, ih]
      -- the first file has its number, and the others have the next ones
      have hnumbers : ∀ k, (List.range (k + 1)).map (x.app.files.length + ·) =
          x.app.files.length ::
            (List.range k).map ((x.putFile (found.file f)).app.files.length + ·) := by
        intro k
        simp [List.range_succ_eq_map, Registry.putFile, Application.addFile, Nat.add_assoc,
          Nat.add_comm 1]
      have hfiles : ∀ more, (x.putFile (found.file f)).app.addFiles more =
          x.app.addFiles (found.file f :: more) := x.app.addFiles_addFile (found.file f)
      rw [hfiles, List.length_cons, hnumbers]
      exact congrArg (Traced.mk _) (List.append_nil _)

section Found

variable {path : Bytes} {found : WorkspacePackage}

/-- A package that is found is registered with the files kept for it, if there are any. -/
theorem run_registerInPlace_of {app : Application} (hnew : app.contains path = false)
    (drawn : Nat) : (s.registerInPlace path found).run (.of app drawn) = (do
      (⟨(), s.exclusionEvents path found⟩ : Traced Unit)
      if s.keptFiles path found = [] then return (.error (.allExcluded path), .of app drawn)
      else
        Traced.note .info "resolve" (resolvedMessage path found (s.keptFiles path found))
        return (.ok app.packages.length,
          .of (app.addExternal path found (s.keptFiles path found)) drawn)) := by
  have hadd : (s.addFilesInPlace path found found.files).run (.of app drawn) =
      (⟨(), s.exclusionEvents path found⟩ : Traced Unit) >>= fun _ => pure
        (.ok ((List.range (s.keptFiles path found).length).map (app.files.length + ·)),
          .of (app.addFiles ((s.keptFiles path found).map found.file)) drawn) := by
    rw [run_addFilesInPlace]
    exact congrArg (Traced.mk _) (List.append_nil _).symm
  rw [registerInPlace, InPlace.run_bind, hadd, bind_assoc]
  refine congrArg _ (funext fun _ => ?_)
  rw [pure_bind]
  simp only
  have hnumbers : ∀ files : List WorkspaceFile,
      (List.range files.length).map (app.files.length + ·) = [] ↔ files = [] := by
    intro files
    rw [List.map_eq_nil_iff, List.range_eq_nil, List.length_eq_zero_iff]
  by_cases hkept : s.keptFiles path found = []
  · have hsame : app.addFiles ((s.keptFiles path found).map found.file) = app := by
      rw [hkept]
      exact app.addFiles_nil
    rw [if_pos hkept, if_pos ((hnumbers _).2 hkept), hsame]
    rfl
  · -- the path is free, so that the package is registered
    have hfree : ¬ (app.addFiles ((s.keptFiles path found).map found.file)).contains path = true :=
      Bool.eq_false_iff.1 hnew
    rw [if_neg hkept, if_neg (mt (hnumbers _).1 hkept), InPlace.run_lift_bind,
      Assembler.run_registerInPlace_of, Application.addPackage?, if_neg hfree, List.length_map,
      List.length_range]
    rfl

end Found

/-- **In place, looking at an import comes to what it comes to otherwise**, trace included. -/
theorem lookAtInPlace_of (s : Resolver) (r : Resolution) (path : Bytes) (drawn : Nat) :
    (s.lookAtInPlace r.unresolved path).run (.of r.app drawn) =
      leftBy drawn <$> s.lookAt r path := by
  have hindex : (((Registry.of r.app drawn).index path).isSome || r.unresolved.contains path) =
      r.isSettled path := by
    rw [Resolution.isSettled, Registry.of, Application.isSome_find?]
  rw [lookAtInPlace, InPlace.run_get_bind, hindex, lookAt]
  -- the paths that are not looked up: settled ones, and standard ones
  by_cases hsettled : r.isSettled path = true
  · rw [if_pos hsettled, if_pos hsettled]
    rfl
  rw [if_neg hsettled, if_neg hsettled, InPlace.run_lift_bind, map_bind]
  refine congrArg _ (funext fun standard => ?_)
  by_cases hstandard : standard = true
  · rw [if_pos hstandard, if_pos hstandard]
    rfl
  rw [if_neg hstandard, if_neg hstandard, InPlace.run_bind, resolveInPlace]
  cases hcheck : ImportPath.check path with
  | error fault =>
    simp only
    rfl
  | ok =>
    simp only
    rw [InPlace.run_lift_bind, bind_assoc, map_bind]
    refine congrArg _ (funext fun located => ?_)
    cases located with
    | error reason =>
      rfl
    | ok found =>
      -- nothing but a free path gets as far as this
      have hnew : r.app.contains path = false :=
        Application.not_contains_iff.2 (Resolution.not_mem_paths (Bool.eq_false_iff.2 hsettled))
      simp only
      rw [InPlace.run_bind, run_registerInPlace_of hnew, bind_assoc, bind_assoc, map_bind]
      refine congrArg _ (funext fun _ => ?_)
      by_cases hkept : s.keptFiles path found = []
      · rw [if_pos hkept, if_pos hkept]
        rfl
      · rw [if_neg hkept, if_neg hkept]
        rfl

end Resolver

/-! ### What a build writes -/

namespace Builder

/-- The search that a build makes. -/
def resolver (b : Builder) (workspace : Workspace) (exclusion : Exclusion) : Resolver :=
  { workspace, isStandard := b.isStandard, isExcluded := exclusion.excludes }

/-- What a build writes to its registry, step by step: a file of a directory, the package of a
directory, and, when an import is looked at, the package that is found. -/
inductive Writes (b : Builder) : Registry → Registry → Prop
  | file (x : Registry) (f : File) : Writes b x (x.putFile f)
  | directory {x y : Registry} {dir : Bytes} {files : List FileId} {id : PackageId} :
      ((b.assembler.assembleInPlace dir files).run x).value = (.ok id, y) → Writes b x y
  | search {x y : Registry} {workspace : Workspace} {exclusion : Exclusion}
      {unresolved left : List Bytes} {path : Bytes} : b.workspace = some workspace →
      Exclusion.compile b.options.excludePattern = .ok exclusion →
      (((b.resolver workspace exclusion).lookAtInPlace unresolved path).run x).value =
        (.ok left, y) → Writes b x y

variable {b : Builder} {app : Application} {drawn : Nat}

/-- **Each write leaves the registry that of an application.** -/
theorem Writes.exists_of {y : Registry} (h : b.Writes (.of app drawn) y) :
    ∃ later next, y = .of later next := by
  cases h with
  | file f => exact ⟨app.addFile f, drawn, rfl⟩
  | directory h =>
    rw [Assembler.assembleInPlace_of, Traced.value_map] at h
    obtain ⟨built, -, -, rfl⟩ := Assembler.left_eq_ok.1 h
    exact ⟨built, _, rfl⟩
  | @search _ workspace exclusion unresolved left path _ _ h =>
    -- the search has come to the application, with the paths that were left
    have hof := (b.resolver workspace exclusion).lookAtInPlace_of { app, unresolved } path drawn
    have hvalue := congrArg Traced.value hof
    rw [h, Traced.value_map] at hvalue
    exact ⟨_, _, (Prod.mk.inj hvalue).2⟩

/-- **Whatever a build has written, the index is that of the application.** -/
theorem index_of_writes {x : Registry} (h : ReflTransGen b.Writes .empty x) :
    x.index = x.app.find? := by
  have hof : ∃ later next, x = .of later next := by
    induction h with
    | refl => exact ⟨{}, 0, rfl⟩
    | tail _ hwrite ih =>
      obtain ⟨later, next, rfl⟩ := ih
      exact hwrite.exists_of
  obtain ⟨later, next, rfl⟩ := hof
  rfl

theorem writes_addFiles (app : Application) (drawn : Nat) (files : List File) :
    ReflTransGen b.Writes (.of app drawn) (.of (app.addFiles files) drawn) := by
  induction files generalizing app with
  | nil => rw [app.addFiles_nil]
  | cons f files ih =>
    have hwrites := ih (app.addFile f)
    rw [app.addFiles_addFile] at hwrites
    exact hwrites.head (Writes.file (.of app drawn) f)

/-- The packages of directories are written one after the other. -/
theorem writes_assembleAll {built : Application} {directories : List DirectoryFiles}
    (h : (b.assembleAll app drawn directories).run.value = .ok built) :
    ∃ next, ReflTransGen b.Writes (.of app drawn) (.of built next) := by
  induction directories generalizing app drawn with
  | nil =>
    obtain rfl : app = built := Except.ok.inj h
    exact ⟨drawn, ReflTransGen.refl⟩
  | cons d rest ih =>
    obtain ⟨middle, hmiddle, hrest⟩ := assembleAll_cons.1 h
    obtain ⟨next, hwrites⟩ := ih hrest
    have hrun : ((b.assembler.assembleInPlace d.dir d.files).run (.of app drawn)).value =
        (.ok app.packages.length, .of middle (b.assembler.assemble app d.dir d.files drawn).2) := by
      rw [Assembler.assembleInPlace_of, Traced.value_map, hmiddle]
      rfl
    exact ⟨next, hwrites.head (Writes.directory hrun)⟩

end Builder

/-- **A step of the search writes what looking at an import does**, or nothing. -/
theorem Resolver.Step.writes {b : Builder} {workspace : Workspace} {exclusion : Exclusion}
    {x y : Search} (hstep : (b.resolver workspace exclusion).Step x y)
    (hworkspace : b.workspace = some workspace)
    (hcompile : Exclusion.compile b.options.excludePattern = .ok exclusion) (drawn : Nat) :
    ReflTransGen b.Writes (.of x.reached.app drawn) (.of y.reached.app drawn) := by
  have hwrite : ∀ {r next : Resolution} {path : Bytes},
      ((b.resolver workspace exclusion).lookAt r path).value = (next, .ok ()) →
      ReflTransGen b.Writes (.of r.app drawn) (.of next.app drawn) := by
    intro r next path hlook
    have hrun : (((b.resolver workspace exclusion).lookAtInPlace r.unresolved path).run
        (.of r.app drawn)).value = (.ok next.unresolved, .of next.app drawn) := by
      rw [lookAtInPlace_of, Traced.value_map, hlook]
      rfl
    exact ReflTransGen.single (Builder.Writes.search hworkspace hcompile hrun)
  cases hstep with
  | next r id queue => exact ReflTransGen.refl
  | skip hpath => exact hwrite (lookAt_skip hpath)
  | illegal hunsettled hstd hcheck => exact hwrite (lookAt_illegal hunsettled hstd hcheck)
  | missing hasks hloc => exact hwrite (lookAt_missing hasks hloc)
  | found hasks hloc hkept => exact hwrite (lookAt_found hasks hloc hkept)

/-- So a walk of steps is made of writes. -/
theorem Resolver.writes_of_steps {b : Builder} {workspace : Workspace} {exclusion : Exclusion}
    {x y : Search} (hsteps : ReflTransGen (b.resolver workspace exclusion).Step x y)
    (hworkspace : b.workspace = some workspace)
    (hcompile : Exclusion.compile b.options.excludePattern = .ok exclusion) (drawn : Nat) :
    ReflTransGen b.Writes (.of x.reached.app drawn) (.of y.reached.app drawn) := by
  induction hsteps with
  | refl => exact ReflTransGen.refl
  | tail _ hstep ih => exact ih.trans (hstep.writes hworkspace hcompile drawn)

end BuildOrder
