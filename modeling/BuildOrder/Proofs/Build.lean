import BuildOrder.Proofs.Gather
import BuildOrder.Proofs.Indexed
import BuildOrder.Proofs.Resolve
import BuildOrder.Proofs.Sort

/-!
# What a build gives

* `Builder.Stages`: the applications that a build comes to on its way.
* `Application.Built`: paths, files, initializers, roots and order of an application agree with each
  other.
* `Builder.Stages.writes`: a build that goes well writes each of them to its registry.
* `Builder.build_built`: **every build that goes well gives such an application**, and the index
  that it has written is the one by which its packages are found.
-/

namespace BuildOrder

open List (Forall₂)

/-! ### The graph and its order -/

namespace Application

variable {app sorted : Application} {path : Bytes} {id : PackageId}

theorem exists_of_find? (h : app.find? path = some id) :
    ∃ p, app.package? id = some p ∧ p.importPath = path := by
  obtain ⟨hlt, hpath, -⟩ := List.findIdx?_eq_some_iff_getElem.1 h
  exact ⟨_, List.getElem?_eq_getElem hlt, by simpa using hpath⟩

/-- **A path is found at the number of its package**, if no two packages have it. -/
theorem find?_eq_some_iff (hpaths : app.paths.Nodup) :
    app.find? path = some id ↔ ∃ p, app.package? id = some p ∧ p.importPath = path := by
  refine ⟨exists_of_find?, ?_⟩
  rintro ⟨p, hp, rfl⟩
  have hlt : id < app.packages.length := (List.getElem?_eq_some_iff.1 hp).1
  cases hfind : app.find? p.importPath with
  | none =>
    have hnot := List.findIdx?_eq_none_iff.1 hfind p (List.mem_of_getElem? hp)
    simp at hnot
  | some other =>
    obtain ⟨q, hq, hpath⟩ := exists_of_find? hfind
    have hother : other < app.packages.length := (List.getElem?_eq_some_iff.1 hq).1
    rw [pathOf_inj hpaths hother hlt (by rw [pathOf_eq hq, pathOf_eq hp, hpath])]

/-- The packages of a sound application depend on packages. -/
theorem Sound.graphOK (h : app.Sound []) : app.withDependencies.GraphOK := by
  refine ⟨h.withDependencies.order, ?_⟩
  intro p hp q hq
  obtain ⟨own, -, rfl⟩ := List.mem_map.1 hp
  obtain ⟨path, -, hfind⟩ := List.mem_filterMap.1 hq
  obtain ⟨p, hp, -⟩ := exists_of_find? hfind
  have hlt : q < app.packages.length := (List.getElem?_eq_some_iff.1 hp).1
  simpa [Application.withDependencies] using hlt

/-- **A sorter that goes well changes the order alone**, and puts dependencies first. -/
theorem sort_ok (hgraph : app.GraphOK) (h : app.sort.value = (sorted, .ok ())) :
    ∃ order, sorted = { app with order := order } ∧ order.Perm (List.range app.packages.length) ∧
      DependencyFirst app.dependenciesOf order := by
  rw [sort_value] at h
  obtain ⟨rfl, hresult⟩ := Prod.mk.inj h
  split at hresult
  · rename_i hstuck
    refine ⟨app.sweeps.placed, by simp [swept, hstuck], ?_, app.sweeps_swept.first⟩
    simpa [swept, hstuck] using hgraph.perm_swept
  · cases hresult

theorem find?_withDependencies (app : Application) (path : Bytes) :
    app.withDependencies.find? path = app.find? path := by
  simp [find?, withDependencies, List.findIdx?_map, Function.comp_def]

/-- **What the files of a package import, the package depends on.** -/
theorem mem_dependenciesOf {p : Package} (hp : app.withDependencies.package? id = some p)
    {f : File} (hf : f ∈ app.filesOf p) (hpath : path ∈ f.imports) {q : PackageId}
    (hq : app.withDependencies.find? path = some q) :
    q ∈ app.withDependencies.dependenciesOf id := by
  rw [dependenciesOf_eq hp]
  rw [package?, withDependencies, List.getElem?_map, Option.map_eq_some_iff] at hp
  obtain ⟨own, -, rfl⟩ := hp
  rw [find?_withDependencies] at hq
  refine List.mem_filterMap.2 ⟨path, ?_, hq⟩
  exact Bytes.mem_sortedSet.2 (List.mem_flatMap.2 ⟨f, hf, hpath⟩)

/-- An application whose parts agree: each package is found at its path and has files of its own,
initializers and roots are those of the files, and the order puts imports first. -/
structure Built (app : Application) : Prop where
  paths : app.paths.Nodup
  find : ∀ path id,
    app.find? path = some id ↔ ∃ p, app.package? id = some p ∧ p.importPath = path
  order : app.order.Perm (List.range app.packages.length)
  nonempty : ∀ p ∈ app.packages, p.files ≠ []
  files : (app.packages.flatMap (·.files)).Perm (List.range app.files.length)
  hasInit : ∀ p ∈ app.packages, p.hasInit = true ↔ ∃ f ∈ app.filesOf p, f.hasInit = true
  rootsIncrease : app.roots.Pairwise (· < ·)
  roots : ∀ id, id ∈ app.roots ↔ ∃ p, app.package? id = some p ∧ p.hasInit = true
  external : ∀ p ∈ app.packages, p.isExternal = true → p.hasInit = false
  importsFirst : ∀ id p, app.package? id = some p → ∀ f ∈ app.filesOf p, ∀ path ∈ f.imports,
    ∀ q, app.find? path = some q → app.order.idxOf q < app.order.idxOf id

/-- **A sound application is well built once it is sorted.** -/
theorem Sound.built (hsound : app.Sound [])
    (hsort : app.withDependencies.sort.value = (sorted, .ok ())) : sorted.Built := by
  obtain ⟨order, rfl, hperm, hfirst⟩ := sort_ok hsound.graphOK hsort
  have h := hsound.withDependencies.reorder hperm
  refine ⟨h.paths, fun path id => find?_eq_some_iff h.paths, h.order, h.nonempty, ?_, ?_, ?_, ?_,
    h.external, ?_⟩
  · simpa using h.files
  · intro p hp
    rw [h.hasInit p hp, List.any_eq_true]
  · rw [h.roots]
    exact List.pairwise_lt_range.filter _
  · intro id
    rw [h.roots, initializers, List.mem_filter, List.mem_range, Option.any_eq_true]
    refine and_iff_right_of_imp ?_
    rintro ⟨p, hp, -⟩
    exact (List.getElem?_eq_some_iff.1 hp).1
  · -- an import that is found is a dependency
    intro id p hp f hf path hpath q hq
    have hid : id ∈ order := by
      rw [hperm.mem_iff, List.mem_range]
      exact (List.getElem?_eq_some_iff.1 hp).1
    exact hfirst id hid q (mem_dependenciesOf hp hf hpath hq)

end Application

/-! ### Stages -/

namespace Builder

variable (b : Builder) (base : Bytes) (filenames : List Bytes)

/-- The directories of the names given. -/
def directories : List Bytes :=
  Bytes.sortedSet (filenames.map fun filename => Path.parent (Path.clean filename))

/-- What a build that goes well comes to on its way: the files of the directories, their packages,
and those of the workspace. -/
structure Stages (gathered : Application) (found : List DirectoryFiles)
    (assembled resolved app : Application) : Prop where
  below : ∀ n ∈ filenames, ∃ dir, Path.directoryBelow? n = some dir
  gather : (b.addDirectories base filenames {} (directories filenames)).run.value =
    .ok (gathered, found)
  assemble : (b.assembleAll gathered 0 found).run.value = .ok assembled
  resolve : (b.resolveExternal assembled).run.value = .ok resolved
  sort : resolved.withDependencies.sort.value = (app, .ok ())

variable {b base filenames} {app : Application}

theorem checkFilename_eq_ok {filename dir : Bytes} :
    checkFilename filename = .ok dir ↔ Path.directoryBelow? filename = some dir := by
  unfold checkFilename
  split <;> simp_all

/-- Names that are accepted lie in the directories that their cleaned names say. -/
theorem mapM_checkFilename {dirs : List Bytes} : filenames.mapM checkFilename = .ok dirs ↔
    (∀ n ∈ filenames, ∃ dir, Path.directoryBelow? n = some dir) ∧
      dirs = filenames.map fun n => Path.parent (Path.clean n) := by
  rw [mapM_eq_ok]
  constructor
  · intro h
    refine ⟨fun n hn => ?_, ?_⟩
    · obtain ⟨dir, -, hdir⟩ := exists_of_forall₂ h.flip hn
      exact ⟨dir, checkFilename_eq_ok.1 hdir⟩
    · have hsame : filenames.map (fun n => Path.parent (Path.clean n)) = dirs.map id :=
        map_eq_of_forall₂ h fun n dir hdir => Path.parent_clean (checkFilename_eq_ok.1 hdir)
      rw [hsame, List.map_id]
  · rintro ⟨hbelow, rfl⟩
    rw [List.forall₂_map_right_iff, List.forall₂_same]
    intro n hn
    obtain ⟨dir, hdir⟩ := hbelow n hn
    rw [Path.parent_clean hdir, checkFilename_eq_ok.2 hdir]

/-- **A build goes well if and only if each stage does.** -/
theorem build_eq_ok_iff : (b.build base filenames).run.value = .ok app ↔
    ∃ gathered found assembled resolved,
      b.Stages base filenames gathered found assembled resolved app := by
  unfold build
  simp only [Attempt.value_bind_eq_ok, Attempt.value_liftExcept]
  constructor
  · rintro ⟨dirs, hdirs, ⟨gathered, found⟩, hgather, assembled, hassemble, resolved, hresolve,
      built, hbuilt, ⟨sorted, result⟩, hsort, ⟨⟩, hresult, -, -, h⟩
    obtain rfl : resolved.withDependencies = built := Except.ok.inj hbuilt
    obtain rfl : sorted = app := Except.ok.inj h
    obtain rfl : result = .ok () := hresult
    obtain ⟨hbelow, rfl⟩ := mapM_checkFilename.1 hdirs
    exact ⟨gathered, found, assembled, resolved, hbelow, hgather, hassemble, hresolve,
      Except.ok.inj hsort⟩
  · rintro ⟨gathered, found, assembled, resolved, h⟩
    -- the records on the way never fail
    refine ⟨_, mapM_checkFilename.2 ⟨h.below, rfl⟩, _, h.gather, _, h.assemble, _, h.resolve,
      _, rfl, _, congrArg Except.ok h.sort, (), rfl, (), rfl, rfl⟩

/-- A build whose stages are known gives the sorted application. -/
theorem build_value (gathered : Application) (found : List DirectoryFiles)
    (assembled : Application) {resolved : Application}
    (hbelow : ∀ n ∈ filenames, (Path.directoryBelow? n).isSome = true)
    (hgather : (b.addDirectories base filenames {} (directories filenames)).run.value =
      .ok (gathered, found))
    (hassemble : (b.assembleAll gathered 0 found).run.value = .ok assembled)
    (hresolve : (b.resolveExternal assembled).run.value = .ok resolved)
    (hsort : resolved.withDependencies.sort.value.2 = .ok ()) :
    (b.build base filenames).run.value = .ok resolved.withDependencies.sort.value.1 := by
  refine build_eq_ok_iff.2 ⟨gathered, found, assembled, resolved, ?_, hgather, hassemble, hresolve,
    Prod.ext rfl hsort⟩
  intro n hn
  exact Option.isSome_iff_exists.1 (hbelow n hn)

/-! ### The search within a build -/

/-- Without a workspace nothing is searched for; else the search must go well. -/
theorem resolveExternal_eq_ok {found : Application} :
    (b.resolveExternal app).run.value = .ok found ↔
      (b.workspace = none ∧ app = found) ∨ ∃ workspace exclusion r, b.workspace = some workspace ∧
        Exclusion.compile b.options.excludePattern = .ok exclusion ∧
        ((b.resolver workspace exclusion).resolve app).value = (r, .ok ()) ∧ r.app = found := by
  unfold resolveExternal
  cases b.workspace with
  | none =>
    constructor
    · intro h
      exact Or.inl ⟨rfl, Except.ok.inj h⟩
    · rintro (⟨-, rfl⟩ | ⟨_, _, _, ⟨⟩, _⟩)
      rfl
  | some workspace =>
    simp only [Attempt.value_bind_eq_ok, Attempt.value_liftExcept]
    constructor
    · rintro ⟨exclusion, hcompile, ⟨r, result⟩, hrun, ⟨⟩, hresult, h⟩
      obtain rfl : result = .ok () := hresult
      exact Or.inr ⟨workspace, exclusion, r, rfl, hcompile, Except.ok.inj hrun, Except.ok.inj h⟩
    · rintro (⟨⟨⟩, -⟩ | ⟨_, exclusion, r, ⟨⟩, hcompile, hrun, rfl⟩)
      exact ⟨exclusion, hcompile, (r, .ok ()), congrArg Except.ok hrun, (), rfl, rfl⟩

/-- A walk of steps to the end of the queue is a search that goes well. -/
theorem resolveExternal_of_steps {workspace : Workspace} {exclusion : Exclusion} {r : Resolution}
    (hworkspace : b.workspace = some workspace)
    (hcompile : Exclusion.compile b.options.excludePattern = .ok exclusion)
    (hsteps : Relation.ReflTransGen (b.resolver workspace exclusion).Step
      ⟨{ app }, app.order, []⟩ ⟨r, [], []⟩) :
    (b.resolveExternal app).run.value = .ok r.app := by
  have hanswer := (Resolver.answer_of_steps hsteps).trans (Resolver.Ends.all r).answer
  exact resolveExternal_eq_ok.2
    (Or.inr ⟨workspace, exclusion, r, hworkspace, hcompile, hanswer, rfl⟩)

/-- **The search adds external packages and changes nothing else**, if it is made. -/
theorem resolveExternal_ok {found : Application} (hsound : app.Sound [])
    (h : (b.resolveExternal app).run.value = .ok found) :
    found.Sound [] ∧ (∀ p ∈ app.packages, found.filesOf p = app.filesOf p) ∧
      ∃ new, found.packages = app.packages ++ new ∧ ∀ p ∈ new, ∃ s : Resolver,
        b.workspace = some s.workspace ∧ s.isStandard = b.isStandard ∧ s.IsExternal app found p := by
  rcases resolveExternal_eq_ok.1 h with
    ⟨-, rfl⟩ | ⟨workspace, exclusion, r, hworkspace, -, hrun, rfl⟩
  · exact ⟨hsound, fun _ _ => rfl, [], by simp, by simp⟩
  have hprogress := Resolver.progress_of_resolve hsound.wellFormed hrun
  obtain ⟨new, hnew, hexternal⟩ := hprogress.packages
  exact ⟨Resolver.sound_of_resolve hsound hrun, hprogress.files, new, hnew,
    fun p hp => ⟨b.resolver workspace exclusion, hworkspace, rfl, hexternal p hp⟩⟩

/-- The search writes the packages that it finds, one after the other. -/
theorem writes_resolveExternal {found : Application}
    (h : (b.resolveExternal app).run.value = .ok found) (drawn : Nat) :
    Relation.ReflTransGen b.Writes (.of app drawn) (.of found drawn) := by
  rcases resolveExternal_eq_ok.1 h with
    ⟨-, rfl⟩ | ⟨workspace, exclusion, r, hworkspace, hcompile, hrun, rfl⟩
  · exact Relation.ReflTransGen.refl
  obtain ⟨last, hsteps, hends⟩ := (b.resolver workspace exclusion).run_steps { app } app.order []
  have hvalue : ((b.resolver workspace exclusion).run { app } app.order []).value = (r, .ok ()) :=
    hrun
  rw [hvalue] at hends
  cases hends
  exact Resolver.writes_of_steps hsteps hworkspace hcompile drawn

/-! ### The stages together -/

theorem exists_of_mem_directories
    (hbelow : ∀ n ∈ filenames, ∃ dir, Path.directoryBelow? n = some dir) :
    ∀ dir ∈ directories filenames, ∃ n ∈ filenames, Path.directoryBelow? n = some dir := by
  intro dir hdir
  obtain ⟨n, hn, rfl⟩ := List.mem_map.1 (Bytes.mem_sortedSet.1 hdir)
  obtain ⟨own, hown⟩ := hbelow n hn
  exact ⟨n, hn, by rw [hown, Path.parent_clean hown]⟩

namespace Stages

variable {gathered assembled resolved : Application} {found : List DirectoryFiles}
  (h : b.Stages base filenames gathered found assembled resolved app)

include h

theorem gathered_ok :
    gathered.packages = [] ∧ gathered.Sound (found.flatMap (·.files)) ∧
      Forall₂ (b.Gathered base filenames gathered)
        ((directories filenames).filter (b.selected base filenames · ≠ [])) found := by
  obtain ⟨files, rfl, hids, hgathered⟩ :=
    addDirectories_ok h.below (exists_of_mem_directories h.below) h.gather
  exact ⟨rfl, hids ▸ Application.Sound.empty.addFiles files, hgathered⟩

theorem assembled_sound : assembled.Sound [] := by
  obtain ⟨-, hsound, hgathered⟩ := h.gathered_ok
  refine assembleAll_sound (fun d hd => ?_) hsound h.assemble
  obtain ⟨dir, -, hdir⟩ := exists_of_forall₂ hgathered hd
  exact hdir.nonempty

theorem resolved_sound : resolved.Sound [] :=
  (resolveExternal_ok h.assembled_sound h.resolve).1

/-- **The files and packages of a build are written one after the other**: files of directories,
their packages, and those that the search has found. -/
theorem writes : ∃ drawn, Relation.ReflTransGen b.Writes .empty (.of resolved drawn) := by
  obtain ⟨files, rfl, -⟩ := addDirectories_ok h.below (exists_of_mem_directories h.below) h.gather
  have hgathered := writes_addFiles (b := b) {} 0 files
  obtain ⟨drawn, hassembled⟩ := writes_assembleAll h.assemble
  exact ⟨drawn, (hgathered.trans hassembled).trans (writes_resolveExternal h.resolve drawn)⟩

/-- Dependencies and the order leave the packages where they are found. -/
theorem find?_eq (path : Bytes) : app.find? path = resolved.find? path := by
  obtain ⟨order, rfl, -⟩ := Application.sort_ok h.resolved_sound.graphOK h.sort
  exact resolved.find?_withDependencies path

end Stages

/-- **Every build that goes well gives an application whose parts agree.** It has written them to a
registry, one file or package after the other, and the index that was kept on the way, with the
packages of directories and those that the search has found, is the one by which the packages of the
application are found. -/
theorem build_built (h : (b.build base filenames).run.value = .ok app) : app.Built ∧
    ∃ x : Registry, Relation.ReflTransGen b.Writes .empty x ∧
      x.app.withDependencies.sort.value = (app, .ok ()) ∧ x.index = app.find? := by
  obtain ⟨gathered, found, assembled, resolved, hstages⟩ := build_eq_ok_iff.1 h
  refine ⟨hstages.resolved_sound.built hstages.sort, ?_⟩
  obtain ⟨drawn, hwrites⟩ := hstages.writes
  refine ⟨.of resolved drawn, hwrites, hstages.sort, ?_⟩
  rw [index_of_writes hwrites]
  exact funext fun path => (hstages.find?_eq path).symm

/-- What a workspace has at the path `ext`. -/
def hybridFound : WorkspacePackage :=
  { dir := ascii "w/ext", name := ascii "ext", files := [⟨ascii "ext.go", [ascii "lib"]⟩] }

def hybridWorkspace : Workspace where
  locate path := pure (if path = ascii "ext" then .ok hybridFound else .error (ascii "nowhere"))

/-- A program of two directories that imports a package of the workspace. -/
def hybrid : Builder where
  tree := { entries := [
    ([ascii "app.go"], .file (ascii "package app\nimport \"lib\"\nimport \"ext\"\n")),
    ([ascii "lib", ascii "lib.go"], .file (ascii "package lib\n"))] }
  options := {}
  isStandard _ := false
  workspace := some hybridWorkspace
  names _ := ascii "main00001"

def hybridNames : List Bytes := [ascii "./app.go", ascii "lib/lib.go"]

/-- The program without the package of the workspace. -/
def hybridOwn : Application where
  files := [
    { name := ascii "app.go", packageName := ascii "app", imports := [ascii "lib", ascii "ext"] },
    { name := ascii "lib/lib.go", packageName := ascii "lib", imports := [] }]
  packages := [
    { importPath := ascii "main00001", files := [0] },
    { importPath := ascii "lib", files := [1] }]
  order := [0, 1]

theorem resolveExternal_hybrid : (hybrid.resolveExternal hybridOwn).run.value =
    .ok (hybridOwn.addExternal (ascii "ext") hybridFound hybridFound.files) := by
  have hsteps : Relation.ReflTransGen (hybrid.resolver hybridWorkspace ⟨none⟩).Step
      ⟨{ app := hybridOwn }, hybridOwn.order, []⟩
      ⟨(hybrid.resolver hybridWorkspace ⟨none⟩).added { app := hybridOwn } (ascii "ext") hybridFound,
        [], []⟩ := by
    -- the search is shown by its steps, as its recursion does not compute: the first package
    -- imports the second and that of the workspace, which imports the second too
    refine Relation.ReflTransGen.head (Resolver.Step.next _ _ _) ?_
    refine Relation.ReflTransGen.head (Resolver.Step.skip (Or.inl (by decide))) ?_
    refine Relation.ReflTransGen.head
      (Resolver.Step.found ⟨by decide, rfl, by decide⟩ rfl (by decide)) ?_
    refine Relation.ReflTransGen.head (Resolver.Step.next _ _ _) ?_
    refine Relation.ReflTransGen.head (Resolver.Step.next _ _ _) ?_
    exact Relation.ReflTransGen.single (Resolver.Step.skip (Or.inl (by decide)))
  exact resolveExternal_of_steps rfl rfl hsteps

/-- The program with that package, in build order. -/
def hybridApp : Application :=
  (hybridOwn.addExternal (ascii "ext") hybridFound hybridFound.files).withDependencies.sort.value.1

theorem hybrid_value :
    (hybrid.build (ascii "./lib/..//") hybridNames).run.value = .ok hybridApp :=
  build_value { files := hybridOwn.files } [⟨topLevel, [0]⟩, ⟨ascii "lib", [1]⟩] hybridOwn
    (by decide) (by decide +kernel) (by decide +kernel) resolveExternal_hybrid (by decide +kernel)

theorem build_hybrid :
    (hybrid.build (ascii "./lib/..//") hybridNames).run.value = .ok hybridApp ∧
      hybridApp.orderedPaths = [ascii "lib", ascii "ext", ascii "main00001"] ∧ hybridApp.Built ∧
      ∃ x : Registry, Relation.ReflTransGen hybrid.Writes .empty x ∧
        x.app.withDependencies.sort.value = (hybridApp, .ok ()) ∧ x.index = hybridApp.find? :=
  ⟨hybrid_value, by decide +kernel, build_built hybrid_value⟩

end Builder

end BuildOrder
