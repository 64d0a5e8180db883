import BuildOrder.Proofs.Origin

/-!
# Which packages a build has

* `Resolver.Progress.external_iff`: at its end the search has found the imports that can be found,
  and nothing else.
* `Builder.build_external_iff`: **an external package is an import that the application does not
  hold itself, and that is not standard, legal and in the workspace.**
* `Builder.build_shadow`: **a package has a standard path only where the options allow it**, and
  never one of the workspace.
* `Builder.build_reserved`: **no directory makes a package at the reserved path**; the workspace
  does if it is imported.
-/

namespace BuildOrder

open List (Forall₂)
open Relation

namespace Resolver.Progress

variable {s : Resolver} {app : Application} {r : Resolution} {path : Bytes}

/-- At the end the application imports what was reached. -/
theorem imports_iff (h : s.Progress app ⟨r, [], []⟩) : r.app.Imports path ↔ s.Reached app path := by
  constructor
  · rintro ⟨p, hp, f, hf, hpath⟩
    obtain ⟨id, hid⟩ := List.mem_iff_getElem?.1 hp
    have hlt : id < r.app.packages.length := (List.getElem?_eq_some_iff.1 hid).1
    have himports : path ∈ r.app.importsOf id := (Application.mem_importsOf hid).2 ⟨f, hf, hpath⟩
    exact h.reached_of_importsOf hlt himports
  · rintro (⟨p, hp, f, hf, hpath⟩ | ⟨importer, found, f, hrequired, hloc, hf, hpath⟩)
    · obtain ⟨new, hnew, -⟩ := h.packages
      have hmem : p ∈ r.app.packages := by
        rw [hnew]
        exact List.mem_append_left _ hp
      rw [← h.files p hp] at hf
      exact ⟨p, hmem, f, hf, hpath⟩
    · obtain ⟨p, hp, rfl, hext⟩ := h.exists_of_required hrequired
      have hfile : found.file f ∈ r.app.filesOf p := by
        rw [hext.filesOf_eq hloc]
        exact List.mem_map_of_mem (Resolver.mem_keptFiles.2 hf)
      exact ⟨p, hp, found.file f, hfile, hpath⟩

/-- **At the end a path has an external package if it is imported and can be found.** -/
theorem external_iff (h : s.Progress app ⟨r, [], []⟩) :
    (∃ p ∈ r.app.packages, p.importPath = path ∧ s.IsExternal app r.app p) ↔
      r.app.Imports path ∧ s.Findable app path := by
  rw [h.imports_iff, ← required_iff]
  constructor
  · rintro ⟨p, -, rfl, hext⟩
    exact hext.required
  · exact h.exists_of_required

end Resolver.Progress

namespace Builder

variable {b : Builder} {base : Bytes} {filenames : List Bytes} {app : Application} {path : Bytes}

namespace Stages

variable {gathered assembled resolved : Application} {found : List DirectoryFiles}
  (h : b.Stages base filenames gathered found assembled resolved app)

include h

/-- The packages are those of the search, with dependencies and the same files. -/
theorem packages_linked : app.packages = resolved.packages.map resolved.linked ∧
    ∀ p, app.filesOf (resolved.linked p) = resolved.filesOf p := by
  obtain ⟨order, rfl, -⟩ := Application.sort_ok h.resolved_sound.graphOK h.sort
  exact ⟨rfl, fun _ => rfl⟩

theorem imports_iff : app.Imports path ↔ resolved.Imports path := by
  obtain ⟨hpackages, hfiles⟩ := h.packages_linked
  constructor
  · rintro ⟨p, hp, f, hf, hpath⟩
    rw [hpackages] at hp
    obtain ⟨q, hq, rfl⟩ := List.mem_map.1 hp
    rw [hfiles] at hf
    exact ⟨q, hq, f, hf, hpath⟩
  · rintro ⟨q, hq, f, hf, hpath⟩
    rw [← hfiles] at hf
    exact ⟨resolved.linked q, hpackages ▸ List.mem_map_of_mem hq, f, hf, hpath⟩

/-- A path that no directory makes is free when the search begins. -/
theorem contains_assembled_iff : assembled.contains path = true ↔
    ∃ p ∈ app.packages, p.isExternal = false ∧ p.importPath = path := by
  have hmem : ∀ p, p ∈ app.packages ∧ p.isExternal = false ↔
      p ∈ assembled.packages.map resolved.linked := by
    intro p
    rw [← h.own_packages, List.mem_filter, Bool.not_eq_true']
  rw [Application.contains_iff]
  constructor
  · intro hpath
    obtain ⟨q, hq, rfl⟩ := List.mem_map.1 hpath
    obtain ⟨hp, hown⟩ := (hmem (resolved.linked q)).2 (List.mem_map_of_mem hq)
    exact ⟨resolved.linked q, hp, hown, rfl⟩
  · rintro ⟨p, hp, hown, rfl⟩
    obtain ⟨q, hq, rfl⟩ := List.mem_map.1 ((hmem p).1 ⟨hp, hown⟩)
    exact List.mem_map.2 ⟨q, hq, rfl⟩

/-- The external packages of the application are those that the search has found. -/
theorem exists_external_iff : (∃ p ∈ app.packages, p.isExternal = true ∧ p.importPath = path) ↔
    ∃ p ∈ resolved.packages, p.isExternal = true ∧ p.importPath = path := by
  rw [h.packages_linked.1]
  constructor
  · rintro ⟨p, hp, hext, rfl⟩
    obtain ⟨q, hq, rfl⟩ := List.mem_map.1 hp
    exact ⟨q, hq, hext, rfl⟩
  · rintro ⟨q, hq, hext, rfl⟩
    exact ⟨resolved.linked q, List.mem_map_of_mem hq, hext, rfl⟩

end Stages

/-- **What is external.** A path has an external package if and only if it is imported by a file of
the application, no directory makes it, it is not standard, and it is legal and in the workspace. -/
theorem build_external_iff (h : (b.build base filenames).run.value = .ok app) :
    (∃ p ∈ app.packages, p.isExternal = true ∧ p.importPath = path) ↔
      app.Imports path ∧ (∀ p ∈ app.packages, p.isExternal = false → p.importPath ≠ path) ∧
        b.isStandard path = false ∧ ImportPath.check path = .ok () ∧
        ∃ workspace found, b.workspace = some workspace ∧
          (workspace.locate path).value = .ok found := by
  obtain ⟨gathered, directories, assembled, resolved, hstages⟩ := build_eq_ok_iff.1 h
  have hfree : (∀ p ∈ app.packages, p.isExternal = false → p.importPath ≠ path) ↔
      assembled.contains path = false := by
    rw [← Bool.not_eq_true, hstages.contains_assembled_iff]
    simp
  have hown : ∀ p ∈ assembled.packages, p.isExternal = false := by
    intro p hp
    obtain ⟨dir, -, hdir⟩ := exists_of_forall₂ hstages.packageOf_assembled hp
    exact hdir.own
  rw [hfree, hstages.exists_external_iff, hstages.imports_iff]
  rcases resolveExternal_eq_ok.1 hstages.resolve with
    ⟨hnone, rfl⟩ | ⟨workspace, exclusion, r, hsome, -, hrun, rfl⟩
  · -- without a workspace all packages are those of directories
    constructor
    · rintro ⟨p, hp, hext, -⟩
      rw [hown p hp] at hext
      cases hext
    · rintro ⟨-, -, -, -, workspace, -, hsome, -⟩
      rw [hnone] at hsome
      cases hsome
  have hprogress := Resolver.progress_of_resolve hstages.assembled_sound.wellFormed hrun
  have hexternal : ∀ p ∈ r.app.packages, p.isExternal = true ↔
      (b.resolver workspace exclusion).IsExternal assembled r.app p := by
    intro p hp
    obtain ⟨new, hnew, hall⟩ := hprogress.packages
    constructor
    · intro hext
      rw [hnew] at hp
      rcases List.mem_append.1 hp with hp | hp
      · rw [hown p hp] at hext
        cases hext
      · exact hall p hp
    · exact fun hp => hp.isExternal
  constructor
  · rintro ⟨p, hp, hext, hpath⟩
    obtain ⟨himports, hfind⟩ := hprogress.external_iff.1 ⟨p, hp, hpath, (hexternal p hp).1 hext⟩
    obtain ⟨found, hloc⟩ := hfind.located
    exact ⟨himports, hfind.new, hfind.standard, hfind.legal, workspace, found, hsome, hloc⟩
  · rintro ⟨himports, hnew, hstandard, hlegal, other, found, hother, hloc⟩
    obtain rfl : workspace = other := Option.some.inj (hsome.symm.trans hother)
    obtain ⟨p, hp, hpath, hext⟩ :=
      hprogress.external_iff.2 ⟨himports, hnew, hstandard, hlegal, found, hloc⟩
    exact ⟨p, hp, hext.isExternal, hpath⟩

/-! ### Standard paths -/

/-- An external package stands in for no standard one. -/
theorem isShadow_external (h : (b.build base filenames).run.value = .ok app) {p : Package}
    (hp : p ∈ app.packages) (hext : p.isExternal = true) : p.isShadow = false := by
  obtain ⟨gathered, directories, assembled, resolved, hstages⟩ := build_eq_ok_iff.1 h
  obtain ⟨s, q, -, -, hs, rfl⟩ := hstages.exists_isExternal hp hext
  obtain ⟨found, -, -, heq, -⟩ := hs.source
  show q.isShadow = false
  rw [heq]

/-- **The shadows are the packages with standard paths.** Each of them is made of a directory and
allowed by the options, so no standard path is taken from the workspace. -/
theorem build_shadow (h : (b.build base filenames).run.value = .ok app) :
    ∀ p ∈ app.packages, (p.isShadow = true ↔ b.isStandard p.importPath = true) ∧
      (b.isStandard p.importPath = true →
        p.isExternal = false ∧ p.importPath ∈ b.options.allowedShadows) := by
  intro p hp
  cases hext : p.isExternal with
  | false =>
    obtain ⟨dir, hdir⟩ := exists_packageOf h hp hext
    have hshadow : p.isShadow = b.isStandard p.importPath := hdir.shadow
    refine ⟨by rw [hshadow], fun hstandard => ⟨rfl, ?_⟩⟩
    exact hdir.standard hstandard
  | true =>
    obtain ⟨-, -, hstandard, -⟩ := (build_external_iff h).1 ⟨p, hp, hext, rfl⟩
    rw [isShadow_external h hp hext, hstandard]
    exact ⟨Iff.rfl, nofun⟩

/-- What the workspace has at the path of the program's entry point. -/
def entryFound : WorkspacePackage :=
  { dir := ascii "w/main", name := ascii "main", files := [⟨ascii "main.go", [ascii "fmt"]⟩] }

/-- A workspace with the entry point and a package at a standard path. -/
def entryWorkspace : Workspace where
  locate path := pure <|
    if path = reservedPath then .ok entryFound
    else if path = ascii "fmt" then .ok ⟨ascii "w/fmt", ascii "fmt", [⟨ascii "fmt.go", []⟩]⟩
    else .error (ascii "nowhere")

/-- A program that imports the entry point, and holds a package at a standard path. -/
def entering : Builder where
  tree := { entries := [
    ([ascii "app.go"],
      .file (ascii "package app\nimport \"main\"\nimport \"fmt\"\nimport \"errors\"\n")),
    ([ascii "errors", ascii "errors.go"], .file (ascii "package errors\n"))] }
  options := { allowedShadows := [ascii "errors"] }
  isStandard path := path == ascii "fmt" || path == ascii "errors"
  workspace := some entryWorkspace
  names _ := ascii "main00001"

def enteringNames : List Bytes := [ascii "app.go", ascii "errors/errors.go"]

/-- The program without the package of the workspace. -/
def enteringOwn : Application where
  files := [
    { name := ascii "app.go"
      packageName := ascii "app"
      imports := [reservedPath, ascii "fmt", ascii "errors"] },
    { name := ascii "errors/errors.go", packageName := ascii "errors", imports := [] }]
  packages := [
    { importPath := ascii "main00001", files := [0] },
    { importPath := ascii "errors", files := [1], isShadow := true }]
  order := [0, 1]

theorem resolveExternal_entering : (entering.resolveExternal enteringOwn).run.value =
    .ok (enteringOwn.addExternal reservedPath entryFound entryFound.files) := by
  have hsteps : ReflTransGen (entering.resolver entryWorkspace ⟨none⟩).Step
      ⟨{ app := enteringOwn }, enteringOwn.order, []⟩
      ⟨(entering.resolver entryWorkspace ⟨none⟩).added { app := enteringOwn } reservedPath
        entryFound, [], []⟩ := by
    -- the imports of the first package: one is found, one is standard, one is its own
    refine ReflTransGen.head (Resolver.Step.next _ _ _) ?_
    refine ReflTransGen.head
      (Resolver.Step.found ⟨by decide, by decide, by decide⟩ rfl (by decide)) ?_
    refine ReflTransGen.head (Resolver.Step.skip (Or.inr (by decide))) ?_
    refine ReflTransGen.head (Resolver.Step.skip (Or.inl (by decide))) ?_
    -- the second imports nothing, and what was found a standard path
    refine ReflTransGen.head (Resolver.Step.next _ _ _) ?_
    refine ReflTransGen.head (Resolver.Step.next _ _ _) ?_
    exact ReflTransGen.single (Resolver.Step.skip (Or.inr (by decide)))
  exact resolveExternal_of_steps rfl rfl hsteps

/-- The program with that package, in build order. -/
def enteringApp : Application :=
  (enteringOwn.addExternal reservedPath entryFound entryFound.files).withDependencies.sort.value.1

theorem entering_value : (entering.build [Byte.dot] enteringNames).run.value = .ok enteringApp :=
  build_value { files := enteringOwn.files } [⟨topLevel, [0]⟩, ⟨ascii "errors", [1]⟩] enteringOwn
    (by decide) (by decide +kernel) (by decide +kernel) resolveExternal_entering (by decide +kernel)

theorem build_shadow_entering :
    (entering.build [Byte.dot] enteringNames).run.value = .ok enteringApp ∧
      (∀ p ∈ enteringApp.packages, entering.isStandard p.importPath = true →
        p.isExternal = false ∧ p.importPath ∈ entering.options.allowedShadows) ∧
      (enteringApp.packages.filter (·.isShadow)).map (·.importPath) = [ascii "errors"] :=
  ⟨entering_value, fun p hp => (build_shadow entering_value p hp).2, by
    rw [enteringApp, Application.packages_sort]
    decide⟩

/-! ### The reserved path -/

/-- **Only the workspace has a package at the reserved path.** No package of a directory is there,
nor one whose path was drawn; an external one is if and only if the path is imported, is not
standard and is in the workspace. -/
theorem build_reserved (h : (b.build base filenames).run.value = .ok app) :
    (∀ p ∈ app.packages, p.importPath = reservedPath → p.isExternal = true) ∧
      ((∃ p ∈ app.packages, p.importPath = reservedPath) ↔
        app.Imports reservedPath ∧ b.isStandard reservedPath = false ∧
          ∃ workspace found, b.workspace = some workspace ∧
            (workspace.locate reservedPath).value = .ok found) := by
  have hown : ∀ p ∈ app.packages, p.isExternal = false → p.importPath ≠ reservedPath := by
    intro p hp hext
    obtain ⟨dir, hdir⟩ := exists_packageOf h hp hext
    exact hdir.reserved
  have hexternal : ∀ p ∈ app.packages, p.importPath = reservedPath → p.isExternal = true := by
    intro p hp hpath
    by_contra hext
    exact hown p hp (Bool.eq_false_iff.2 hext) hpath
  refine ⟨hexternal, ?_⟩
  constructor
  · rintro ⟨p, hp, hpath⟩
    obtain ⟨himports, -, hstandard, -, hlocated⟩ :=
      (build_external_iff h).1 ⟨p, hp, hexternal p hp hpath, hpath⟩
    exact ⟨himports, hstandard, hlocated⟩
  · rintro ⟨himports, hstandard, hlocated⟩
    have hlegal : ImportPath.check reservedPath = .ok () := by decide
    obtain ⟨p, hp, -, hpath⟩ :=
      (build_external_iff h).2 ⟨himports, hown, hstandard, hlegal, hlocated⟩
    exact ⟨p, hp, hpath⟩

theorem build_reserved_entering :
    (entering.build [Byte.dot] enteringNames).run.value = .ok enteringApp ∧
      enteringApp.Imports reservedPath ∧
      ∃ p ∈ enteringApp.packages, p.importPath = reservedPath ∧ p.isExternal = true := by
  have himports : enteringApp.Imports reservedPath := by
    unfold Application.Imports
    decide +kernel
  obtain ⟨hexternal, hiff⟩ := build_reserved entering_value
  obtain ⟨p, hp, hpath⟩ := hiff.2 ⟨himports, by decide, entryWorkspace, entryFound, rfl, rfl⟩
  exact ⟨entering_value, himports, p, hp, hpath, hexternal p hp hpath⟩

/-- A program that goes well has a package at the reserved path. -/
theorem exists_reserved : ∃ app, (entering.build [Byte.dot] enteringNames).run.value = .ok app ∧
    ∃ p ∈ app.packages, p.importPath = reservedPath :=
  ⟨enteringApp, entering_value, by
    rw [enteringApp, Application.packages_sort]
    decide⟩

end Builder

end BuildOrder
