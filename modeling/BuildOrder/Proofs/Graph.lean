import BuildOrder.Application
import Mathlib.Data.List.Nodup
import Mathlib.Logic.Relation

/-!
# The graph of an application

* `Application.DependsOn`, `Application.edges`: the dependencies between packages, by number and in
  terms of import paths.
* `Application.GraphOK`: the order lists each package once, and packages depend on packages.
* `Application.Acyclic`, `Application.ReachesCycle`: no package depends on itself by steps; a
  package leads to one that does.
* `Application.pathOf_inj`: with distinct import paths, a path belongs to one number.
-/

namespace BuildOrder.Application

open Relation

/-- The package `p` depends on `q`. -/
def DependsOn (app : Application) (p q : PackageId) : Prop := q ∈ app.dependenciesOf p

/-- The order lists each package once, and packages depend on packages. -/
structure GraphOK (app : Application) : Prop where
  order : app.order.Perm (List.range app.packages.length)
  dependencies : ∀ p ∈ app.packages, ∀ q ∈ p.dependencies, q < app.packages.length

/-- No package depends on itself, directly or by way of others. -/
def Acyclic (app : Application) : Prop := ∀ p, ¬ TransGen app.DependsOn p p

/-- A dependency cycle can be reached from the package. -/
def ReachesCycle (app : Application) (p : PackageId) : Prop :=
  ∃ q, ReflTransGen app.DependsOn p q ∧ TransGen app.DependsOn q q

/-- The import paths, by number. -/
def paths (app : Application) : List Bytes := app.packages.map (·.importPath)

/-- The dependencies as pairs of import paths, that of the importer first. -/
def edges (app : Application) : List (Bytes × Bytes) :=
  app.packages.flatMap fun p => p.dependencies.map fun q => (p.importPath, app.pathOf q)

variable {app : Application} {p q : PackageId}

theorem dependenciesOf_eq {package : Package} (hp : app.packages[p]? = some package) :
    app.dependenciesOf p = package.dependencies := by
  simp [dependenciesOf, package?, hp]

theorem pathOf_eq {package : Package} (hp : app.packages[p]? = some package) :
    app.pathOf p = package.importPath := by
  simp [pathOf, package?, hp]

/-- Only packages depend on something. -/
theorem DependsOn.exists_package (h : app.DependsOn p q) :
    ∃ package, app.packages[p]? = some package ∧ q ∈ package.dependencies := by
  unfold DependsOn dependenciesOf package? at h
  cases hp : app.packages[p]? with
  | none => simp [hp] at h
  | some package => exact ⟨package, rfl, by simpa [hp] using h⟩

theorem DependsOn.lt (h : app.DependsOn p q) : p < app.packages.length := by
  obtain ⟨package, hp, -⟩ := h.exists_package
  exact (List.getElem?_eq_some_iff.1 hp).1

theorem GraphOK.lt_of_dependsOn (h : app.GraphOK) (hpq : app.DependsOn p q) : q < app.packages.length := by
  obtain ⟨package, hp, hq⟩ := hpq.exists_package
  exact h.dependencies package (List.mem_of_getElem? hp) q hq

theorem mem_paths {path : Bytes} :
    path ∈ app.paths ↔ ∃ p < app.packages.length, app.pathOf p = path := by
  simp only [paths, List.mem_map]
  constructor
  · rintro ⟨package, hpackage, rfl⟩
    obtain ⟨p, hp⟩ := List.mem_iff_getElem?.1 hpackage
    exact ⟨p, (List.getElem?_eq_some_iff.1 hp).1, pathOf_eq hp⟩
  · rintro ⟨p, hp, rfl⟩
    have hget := List.getElem?_eq_getElem hp
    exact ⟨_, List.mem_of_getElem? hget, (pathOf_eq hget).symm⟩

theorem mem_edges {a b : Bytes} :
    (a, b) ∈ app.edges ↔ ∃ p q, app.DependsOn p q ∧ app.pathOf p = a ∧ app.pathOf q = b := by
  simp only [edges, List.mem_flatMap, List.mem_map, Prod.mk.injEq]
  constructor
  · rintro ⟨package, hpackage, q, hq, rfl, rfl⟩
    obtain ⟨p, hp⟩ := List.mem_iff_getElem?.1 hpackage
    refine ⟨p, q, ?_, pathOf_eq hp, rfl⟩
    unfold DependsOn
    rw [dependenciesOf_eq hp]
    exact hq
  · rintro ⟨p, q, hpq, rfl, rfl⟩
    obtain ⟨package, hp, hq⟩ := hpq.exists_package
    exact ⟨package, List.mem_of_getElem? hp, q, hq, (pathOf_eq hp).symm, rfl⟩

/-- **A path belongs to one number**, if import paths are distinct. -/
theorem pathOf_inj (hpaths : app.paths.Nodup) (hp : p < app.packages.length)
    (hq : q < app.packages.length) (h : app.pathOf p = app.pathOf q) : p = q := by
  -- the path of a number is the entry at that place
  have hget : ∀ r < app.packages.length, app.paths[r]? = some (app.pathOf r) := by
    intro r hr
    have hr' := List.getElem?_eq_getElem hr
    rw [paths, List.getElem?_map, pathOf_eq hr', hr']
    rfl
  have heq : app.paths[p]? = app.paths[q]? := by rw [hget p hp, hget q hq, h]
  exact (List.getElem?_inj (by simpa [paths] using hp) hpaths).1 heq

end BuildOrder.Application
