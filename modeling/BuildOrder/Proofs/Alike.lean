import BuildOrder.Proofs.Origin
import BuildOrder.Proofs.Relabel

/-!
# Applications that differ in numbers and order only

Two builds may register the same packages, and the same files within a package, in another order.

* `Application.Counterpart`: packages that are one but for numbers and the order of their files.
* `Application.Alike`: each package of one application has a counterpart in the other.
* `Application.Counterpart.dependencies`: **counterparts depend on the same import paths.**
* `Application.Alike.sort`: **the sorter goes well on both applications or on neither.**
* `Resolver.resolve_alike`: **the search finds counterparts**, or fails, for both.
-/

namespace BuildOrder

open Relation

/-- The members of a list say what it is when it is sorted. -/
theorem Bytes.sortedSet_congr {xs ys : List Bytes} (h : ∀ x, x ∈ xs ↔ x ∈ ys) :
    sortedSet xs = sortedSet ys := by
  have hmem : ∀ x, x ∈ sortedSet xs ↔ x ∈ sortedSet ys := by
    intro x
    rw [mem_sortedSet, mem_sortedSet]
    exact h x
  have hperm : (sortedSet xs).Perm (sortedSet ys) :=
    (List.perm_ext_iff_of_nodup (nodup_sortedSet xs) (nodup_sortedSet ys)).2 hmem
  apply List.Perm.eq_of_pairwise _ (pairwise_sortedSet xs) (pairwise_sortedSet ys) hperm
  intro x y _ _ hxy hyx
  exact absurd (Std.lt_trans hxy hyx) Std.lt_irrefl

namespace Application

/-- The packages are one but for the numbers of files and dependencies, and the order of the
files. -/
structure Counterpart (app₁ app₂ : Application) (p q : Package) : Prop where
  path : p.importPath = q.importPath
  files : (app₁.filesOf p).Perm (app₂.filesOf q)
  baseDir : p.baseDir = q.baseDir
  hasInit : p.hasInit = q.hasInit
  isShadow : p.isShadow = q.isShadow

/-- Each package of the first application has a counterpart in the second. -/
def Mirrored (app₁ app₂ : Application) : Prop :=
  ∀ p ∈ app₁.packages, ∃ q ∈ app₂.packages, Counterpart app₁ app₂ p q

/-- Each package of one application has a counterpart in the other. -/
structure Alike (app₁ app₂ : Application) : Prop where
  left : Mirrored app₁ app₂
  right : Mirrored app₂ app₁

variable {app app₁ app₂ : Application} {p q : Package} {path : Bytes}

theorem Alike.symm (h : Alike app₁ app₂) : Alike app₂ app₁ := ⟨h.right, h.left⟩

theorem Mirrored.mem_paths (h : Mirrored app₁ app₂) (hpath : path ∈ app₁.paths) :
    path ∈ app₂.paths := by
  obtain ⟨p, hp, rfl⟩ := List.mem_map.1 hpath
  obtain ⟨q, hq, hpq⟩ := h p hp
  exact List.mem_map.2 ⟨q, hq, hpq.path.symm⟩

/-- What is imported does not depend on the order of files. -/
theorem Mirrored.imports (h : Mirrored app₁ app₂) (himports : app₁.Imports path) :
    app₂.Imports path := by
  obtain ⟨p, hp, f, hf, hpath⟩ := himports
  obtain ⟨q, hq, hpq⟩ := h p hp
  exact ⟨q, hq, f, hpq.files.mem_iff.1 hf, hpath⟩

theorem Alike.contains_eq (h : Alike app₁ app₂) (path : Bytes) :
    app₁.contains path = app₂.contains path := by
  rw [Bool.eq_iff_iff, contains_iff, contains_iff]
  exact ⟨h.left.mem_paths, h.right.mem_paths⟩

/-- A package has no counterpart but at its own path. -/
theorem Alike.counterpart (h : Alike app₁ app₂) (hpaths : app₂.paths.Nodup)
    (hp : p ∈ app₁.packages) (hq : q ∈ app₂.packages) (hpath : p.importPath = q.importPath) :
    Counterpart app₁ app₂ p q := by
  obtain ⟨r, hr, hpr⟩ := h.left p hp
  have hsame : r.importPath = q.importPath := hpr.path.symm.trans hpath
  obtain rfl : r = q := List.inj_on_of_nodup_map hpaths hr hq hsame
  exact hpr

theorem Alike.paths_perm (h : Alike app₁ app₂) (h₁ : app₁.paths.Nodup) (h₂ : app₂.paths.Nodup) :
    app₁.paths.Perm app₂.paths :=
  (List.perm_ext_iff_of_nodup h₁ h₂).2 fun _ => ⟨h.left.mem_paths, h.right.mem_paths⟩

/-! ### Dependencies -/

/-- **The dependencies of a package are, in order, the paths that its files import and that have a
package.** -/
theorem map_pathOf_dependencies (app : Application) (p : Package) :
    (app.dependencies p).map app.pathOf =
      (Bytes.sortedSet ((app.filesOf p).flatMap (·.imports))).filter app.contains := by
  have hpath : (fun path => (app.find? path).map app.pathOf) = Option.guard app.contains := by
    funext path
    cases hfind : app.find? path with
    | none =>
      have hnot : app.contains path = false := find?_eq_none_iff.1 hfind
      simp [Option.guard, hnot]
    | some id =>
      obtain ⟨package, hpackage, rfl⟩ := exists_of_find? hfind
      have hhas : app.contains package.importPath = true :=
        contains_iff.2 (List.mem_map_of_mem (List.mem_of_getElem? hpackage))
      simp [Option.guard, hhas, pathOf_eq hpackage]
  rw [dependencies, List.map_filterMap, hpath, List.filterMap_eq_filter]

/-- **Counterparts depend on the same import paths.** -/
theorem Counterpart.dependencies (hpq : Counterpart app₁ app₂ p q) (h : Alike app₁ app₂) :
    (app₁.dependencies p).map app₁.pathOf = (app₂.dependencies q).map app₂.pathOf := by
  have himports : Bytes.sortedSet ((app₁.filesOf p).flatMap (·.imports)) =
      Bytes.sortedSet ((app₂.filesOf q).flatMap (·.imports)) :=
    Bytes.sortedSet_congr fun _ => (hpq.files.flatMap_right _).mem_iff
  have hcontains : app₁.contains = app₂.contains := funext h.contains_eq
  rw [map_pathOf_dependencies, map_pathOf_dependencies, himports, hcontains]

/-- The path of a number is read off the list of paths. -/
theorem pathOf_congr (h : app₁.paths = app₂.paths) : app₁.pathOf = app₂.pathOf := by
  have hread : ∀ (app : Application) id, app.pathOf id = (app.paths[id]?).getD [] := by
    intro app id
    rw [paths, List.getElem?_map]
    rfl
  funext id
  rw [hread, hread, h]

theorem paths_withDependencies (app : Application) : app.withDependencies.paths = app.paths := by
  simp [Application.paths, withDependencies]

theorem mem_edges_withDependencies {a b : Bytes} : (a, b) ∈ app.withDependencies.edges ↔
    ∃ p ∈ app.packages, p.importPath = a ∧ b ∈ (app.dependencies p).map app.pathOf := by
  have hpackages : app.withDependencies.packages = app.packages.map app.linked := rfl
  rw [edges, pathOf_congr app.paths_withDependencies, hpackages]
  simp only [List.mem_flatMap, List.mem_map, Prod.mk.injEq]
  constructor
  · rintro ⟨_, ⟨p, hp, rfl⟩, id, hid, rfl, rfl⟩
    exact ⟨p, hp, rfl, id, hid, rfl⟩
  · rintro ⟨p, hp, rfl, id, hid, rfl⟩
    exact ⟨_, ⟨p, hp, rfl⟩, id, hid, rfl, rfl⟩

/-- A sound application has its dependencies in the order of import paths. -/
theorem Sound.labelled (h : app.Sound []) : app.withDependencies.Labelled := by
  refine ⟨h.graphOK, h.withDependencies.paths, ?_⟩
  intro p hp
  obtain ⟨own, -, rfl⟩ := List.mem_map.1 hp
  rw [pathOf_congr app.paths_withDependencies]
  show ((app.dependencies own).map app.pathOf).Pairwise (· ≤ ·)
  rw [map_pathOf_dependencies]
  exact ((Bytes.pairwise_sortedSet _).filter _).imp fun hlt => List.le_of_lt hlt

/-! ### The sorter -/

section Sorter

variable (h : Alike app₁ app₂)

include h

theorem Alike.edges {edge : Bytes × Bytes} (hedge : edge ∈ app₁.withDependencies.edges) :
    edge ∈ app₂.withDependencies.edges := by
  obtain ⟨a, b⟩ := edge
  obtain ⟨p, hp, rfl, hb⟩ := mem_edges_withDependencies.1 hedge
  obtain ⟨q, hq, hpq⟩ := h.left p hp
  rw [hpq.dependencies h] at hb
  exact mem_edges_withDependencies.2 ⟨q, hq, hpq.path.symm, hb⟩

theorem Alike.sameGraph (h₁ : app₁.Sound []) (h₂ : app₂.Sound []) :
    SameGraph app₁.withDependencies app₂.withDependencies := by
  refine ⟨h₁.labelled, h₂.labelled, ?_, fun _ => ⟨h.edges, h.symm.edges⟩⟩
  intro path
  rw [paths_withDependencies, paths_withDependencies]
  exact ⟨h.left.mem_paths, h.right.mem_paths⟩

end Sorter

/-- A cycle has a twin. -/
theorem SameGraph.acyclic (h : SameGraph app₁ app₂) (hacyclic : app₁.Acyclic) : app₂.Acyclic := by
  intro p₂ hcycle
  obtain ⟨q₂, hdep, -⟩ := TransGen.head'_iff.1 hcycle
  obtain ⟨p₁, t⟩ := h.symm.exists_twin hdep.lt
  obtain ⟨q₁, -, hq₁⟩ := h.symm.reachesCycle t ⟨p₂, ReflTransGen.refl, hcycle⟩
  exact hacyclic q₁ hq₁

theorem GraphOK.exists_sorted_iff (h : app.GraphOK) :
    (∃ sorted, app.sort.value = (sorted, .ok ())) ↔ app.Acyclic := by
  rw [← h.stuck_eq_nil_iff, sort_value]
  by_cases hnil : app.sweeps.stuck = []
  · simp [hnil]
  · simp [hnil]

/-- **The sorter goes well on both applications or on neither.** -/
theorem Alike.sort (h : Alike app₁ app₂) (h₁ : app₁.Sound []) (h₂ : app₂.Sound [])
    {sorted : Application} (hsort : app₁.withDependencies.sort.value = (sorted, .ok ())) :
    ∃ sorted, app₂.withDependencies.sort.value = (sorted, .ok ()) := by
  rw [h₂.graphOK.exists_sorted_iff]
  apply (h.sameGraph h₁ h₂).acyclic
  exact h₁.graphOK.exists_sorted_iff.1 ⟨sorted, hsort⟩

/-- **The sorter answers by packages and order alone.** -/
theorem orderedPaths_sort (hpackages : app₁.packages = app₂.packages)
    (horder : app₁.order = app₂.order) :
    app₁.sort.value.1.orderedPaths = app₂.sort.value.1.orderedPaths := by
  have hneeds : app₁.dependenciesOf = app₂.dependenciesOf := by
    funext id
    rw [dependenciesOf, dependenciesOf, package?, package?, hpackages]
  have hswept : app₁.swept.order = app₂.swept.order := by
    rw [swept, swept, sweeps, sweeps, hneeds, horder]
  have hpaths : app₁.swept.pathOf = app₂.swept.pathOf := by
    apply pathOf_congr
    show app₁.packages.map _ = app₂.packages.map _
    rw [hpackages]
  rw [sort_value, sort_value, orderedPaths, orderedPaths, hswept, hpaths]

end Application

/-! ### The search for external packages -/

namespace Resolver

open Application

variable {s : Resolver} {app₁ app₂ : Application} {path : Bytes}

theorem Findable.alike (hfind : s.Findable app₁ path) (h : Alike app₁ app₂) :
    s.Findable app₂ path :=
  ⟨h.contains_eq path ▸ hfind.new, hfind.standard, hfind.legal, hfind.located⟩

/-- **What is required does not depend on numbers or the order of files.** -/
theorem Required.alike (hpath : s.Required app₁ path) (h : Alike app₁ app₂) :
    s.Required app₂ path := by
  induction hpath with
  | imported himp hfind => exact Required.imported (h.left.imports himp) (hfind.alike h)
  | follow _ hloc hf himp hfind ih => exact Required.follow ih hloc hf himp (hfind.alike h)

/-- External packages at one path are counterparts. -/
theorem IsExternal.counterpart {now₁ now₂ : Application} {p q : Package}
    (hp : s.IsExternal app₁ now₁ p) (hq : s.IsExternal app₂ now₂ q)
    (hpath : p.importPath = q.importPath) : Counterpart now₁ now₂ p q := by
  obtain ⟨found, hloc, -, hpeq, hpfiles⟩ := hp.source
  obtain ⟨other, hother, -, hqeq, -⟩ := hq.source
  have hsame : (s.workspace.locate q.importPath).value = .ok found := hpath ▸ hloc
  obtain rfl : other = found := Except.ok.inj (hother.symm.trans hsame)
  refine ⟨hpath, ?_, ?_, ?_, ?_⟩
  · rw [hpfiles, hq.filesOf_eq hother, hpath]
  · rw [hpeq, hqeq]
  · rw [hpeq, hqeq]
  · rw [hpeq, hqeq]

/-- What one search has come to at its end, the other one has. -/
theorem Progress.mirrored {r₁ r₂ : Resolution} (h₁ : s.Progress app₁ ⟨r₁, [], []⟩)
    (h₂ : s.Progress app₂ ⟨r₂, [], []⟩) (h : Alike app₁ app₂) : Mirrored r₁.app r₂.app := by
  obtain ⟨new₁, hnew₁, hext₁⟩ := h₁.packages
  obtain ⟨new₂, hnew₂, -⟩ := h₂.packages
  intro p hp
  rw [hnew₁, List.mem_append] at hp
  rcases hp with hp | hp
  · obtain ⟨q, hq, hpq⟩ := h.left p hp
    have hmem : q ∈ r₂.app.packages := hnew₂ ▸ List.mem_append_left _ hq
    refine ⟨q, hmem, hpq.path, ?_, hpq.baseDir, hpq.hasInit, hpq.isShadow⟩
    rw [h₁.files p hp, h₂.files q hq]
    exact hpq.files
  · have hrequired : s.Required app₂ p.importPath := (hext₁ p hp).required.alike h
    obtain ⟨q, hq, hpath, hqext⟩ := h₂.exists_of_required hrequired
    exact ⟨q, hq, (hext₁ p hp).counterpart hqext hpath.symm⟩

/-- **The search goes well on both applications or on neither, and finds counterparts.** -/
theorem resolve_alike (h : Alike app₁ app₂) (hwf₁ : app₁.WellFormed) (hwf₂ : app₂.WellFormed)
    {r₁ : Resolution} (hrun : (s.resolve app₁).value = (r₁, .ok ())) :
    ∃ r₂, (s.resolve app₂).value = (r₂, .ok ()) ∧ Alike r₁.app r₂.app := by
  have hprogress := progress_of_resolve hwf₁ hrun
  obtain ⟨last, hlast, hends⟩ := s.resolve_ends hwf₂
  generalize hvalue : (s.resolve app₂).value = result at hends
  cases hends with
  | all r₂ =>
    exact ⟨r₂, rfl, hprogress.mirrored hlast h, hlast.mirrored hprogress h.symm⟩
  | excluded hasks hloc hkept =>
    -- a package without files is required by the first application too, which has found its files
    have hrequired := (hlast.required hasks hloc).alike h.symm
    obtain ⟨p, -, rfl, hext⟩ := hprogress.exists_of_required hrequired
    obtain ⟨found, hfound, hne, -⟩ := hext.source
    rw [hloc] at hfound
    obtain rfl := Except.ok.inj hfound
    exact absurd hkept hne

end Resolver

end BuildOrder
