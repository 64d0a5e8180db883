import BuildOrder.Proofs.Alike

/-!
# The dependency lists

* `Application.mem_dependencies`: the dependencies of a package are the packages that its files
  import.
* `Application.bare`: an application but for its dependency lists, which its graph does not depend on
  (`Application.withDependencies_bare`).
* `Application.dependencies_built`: **the graph holds the imports and no other edges**, each list is
  in the order of import paths, and nothing else changes.
-/

namespace BuildOrder.Application

variable {app : Application} {p q : PackageId}

/-- **A dependency is a package that some file imports.** -/
theorem mem_dependencies (hpaths : app.paths.Nodup) {importer : Package} :
    q ∈ app.dependencies importer ↔
      ∃ imported, app.package? q = some imported ∧
        ∃ f ∈ app.filesOf importer, imported.importPath ∈ f.imports := by
  simp only [dependencies, List.mem_filterMap, Bytes.mem_sortedSet, List.mem_flatMap]
  constructor
  · rintro ⟨path, ⟨f, hf, hpath⟩, hfind⟩
    obtain ⟨imported, hq, rfl⟩ := (find?_eq_some_iff hpaths).1 hfind
    exact ⟨imported, hq, f, hf, hpath⟩
  · rintro ⟨imported, hq, f, hf, hpath⟩
    exact ⟨imported.importPath, ⟨f, hf, hpath⟩, (find?_eq_some_iff hpaths).2 ⟨imported, hq, rfl⟩⟩

/-- The packages of the graph are those that were there, with their lists. -/
theorem package?_withDependencies (app : Application) (p : PackageId) :
    app.withDependencies.package? p = (app.package? p).map app.linked := by
  rw [package?, withDependencies, List.getElem?_map]
  rfl

theorem dependsOn_withDependencies :
    app.withDependencies.DependsOn p q ↔
      ∃ importer, app.package? p = some importer ∧ q ∈ app.dependencies importer := by
  unfold DependsOn dependenciesOf
  rw [package?_withDependencies]
  cases app.package? p with
  | none => simp
  | some importer => simp [linked]

/-- **The lists are in the order of import paths**, and no path comes twice. -/
theorem pairwise_dependenciesOf (app : Application) (p : PackageId) :
    ((app.withDependencies.dependenciesOf p).map app.withDependencies.pathOf).Pairwise (· < ·) := by
  unfold dependenciesOf
  rw [pathOf_congr app.paths_withDependencies, package?_withDependencies]
  cases app.package? p with
  | none => simp
  | some importer =>
    show ((app.dependencies importer).map app.pathOf).Pairwise (· < ·)
    rw [map_pathOf_dependencies]
    exact (Bytes.pairwise_sortedSet _).filter _

/-! ### What the graph is not about -/

/-- The application without its dependency lists. -/
def bare (app : Application) : Application :=
  { app with packages := app.packages.map fun p => { p with dependencies := [] } }

/-- The lists that were there before are not looked at. -/
theorem withDependencies_bare (app : Application) :
    app.bare.withDependencies = app.withDependencies := by
  have hfind : app.bare.find? = app.find? := by
    funext path
    simp [find?, bare, List.findIdx?_map, Function.comp_def]
  have hlists : ∀ p, app.bare.dependencies p = app.dependencies p := by
    intro p
    rw [dependencies, dependencies, hfind]
    rfl
  unfold withDependencies
  simp only [hlists]
  simp only [bare, List.map_map]
  rfl

/-- Nothing but the lists is written. -/
theorem bare_withDependencies (app : Application) : app.withDependencies.bare = app.bare := by
  simp only [bare, withDependencies, List.map_map]
  rfl

/-- **The graph holds the imports and no other edges.** A package depends on another, or on itself,
exactly if one of its files imports that one's path; each list is strictly increasing by import path;
and all but the lists is as it was, whatever lists were there before. -/
theorem dependencies_built (h : app.WellFormed) :
    (∀ p q, app.buildDependencies.value.DependsOn p q ↔
      ∃ importer imported, app.package? p = some importer ∧ app.package? q = some imported ∧
        ∃ f ∈ app.filesOf importer, imported.importPath ∈ f.imports) ∧
    (∀ p, ((app.buildDependencies.value.dependenciesOf p).map
      app.buildDependencies.value.pathOf).Pairwise (· < ·)) ∧
    app.buildDependencies.value.bare = app.bare ∧
    ∀ other : Application, other.bare = app.bare →
      other.buildDependencies.value = app.buildDependencies.value := by
  have hbuilt : ∀ other : Application, other.buildDependencies.value = other.withDependencies :=
    fun _ => rfl
  simp only [hbuilt]
  refine ⟨?_, app.pairwise_dependenciesOf, app.bare_withDependencies, ?_⟩
  · intro p q
    rw [dependsOn_withDependencies]
    constructor
    · rintro ⟨importer, hp, hq⟩
      obtain ⟨imported, hq, himports⟩ := (mem_dependencies h.paths).1 hq
      exact ⟨importer, imported, hp, hq, himports⟩
    · rintro ⟨importer, imported, hp, hq, himports⟩
      exact ⟨importer, hp, (mem_dependencies h.paths).2 ⟨imported, hq, himports⟩⟩
  · intro other hbare
    rw [← other.withDependencies_bare, hbare, app.withDependencies_bare]

/-- Two packages whose files import each other, themselves and what is not there, some of it more than
once, with lists that say something else. -/
def entangled : Application where
  files := [
    { name := ascii "a.go", packageName := ascii "x", imports := [ascii "y", ascii "x", ascii "y"] },
    { name := ascii "b.go", packageName := ascii "x", imports := [ascii "fmt", ascii "y"] },
    { name := ascii "c.go", packageName := ascii "y", imports := [ascii "x"] }]
  packages := [
    { importPath := ascii "y", files := [2], dependencies := [0, 0] },
    { importPath := ascii "x", files := [0, 1], dependencies := [1, 0, 1], hasInit := true }]
  order := [1, 0]
  roots := [1]

theorem dependencies_built_entangled :
    entangled.WellFormed ∧ entangled.buildDependencies.value.dependenciesOf 1 = [1, 0] ∧
      entangled.buildDependencies.value.DependsOn 1 1 ∧
      ((entangled.buildDependencies.value.dependenciesOf 1).map
        entangled.buildDependencies.value.pathOf).Pairwise (· < ·) ∧
      entangled.buildDependencies.value.bare = entangled.bare ∧
      entangled.bare.buildDependencies.value = entangled.buildDependencies.value := by
  have h : entangled.WellFormed := ⟨by decide, by decide, by decide⟩
  obtain ⟨hdepends, hpairwise, hbare, hother⟩ := dependencies_built h
  refine ⟨h, rfl, ?_, hpairwise 1, hbare, hother _ rfl⟩
  exact (hdepends 1 1).2 ⟨_, _, rfl, rfl, entangled.files[0], by decide, by decide⟩

end BuildOrder.Application
