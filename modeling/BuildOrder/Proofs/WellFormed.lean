import BuildOrder.Proofs.Graph
import BuildOrder.Resolve

/-!
# Well-formed applications

* `Application.WellFormed`: import paths are distinct, each file belongs to one package, and the
  order lists each package once.
* `Application.Imports`: what the files of an application import.
* `Application.WellFormed.addExternal`: **an application with an external package more is well
  formed**; the packages before keep their files (`filesOf_addExternal`), and the new one has those
  that were kept for it (`filesOf_external`).
-/

namespace BuildOrder

/-- The record of a file of an external package. -/
def WorkspacePackage.file (found : WorkspacePackage) (f : WorkspaceFile) : File :=
  { name := f.name, packageName := found.name, imports := f.imports }

namespace Application

/-- What holds of an application from the first package on. -/
structure WellFormed (app : Application) : Prop where
  paths : app.paths.Nodup
  files : (app.packages.flatMap (·.files)).Perm (List.range app.files.length)
  order : app.order.Perm (List.range app.packages.length)

/-- A file of the application imports the path. -/
def Imports (app : Application) (path : Bytes) : Prop :=
  ∃ p ∈ app.packages, ∃ f ∈ app.filesOf p, path ∈ f.imports

/-- The external package at a path, with the next numbers for its files. -/
def external (app : Application) (path : Bytes) (found : WorkspacePackage)
    (files : List WorkspaceFile) : Package :=
  { importPath := path
    files := (List.range files.length).map (app.files.length + ·)
    baseDir := some found.dir }

variable {app : Application} {path : Bytes} {p : Package}

theorem contains_iff : app.contains path = true ↔ path ∈ app.paths := by
  simp [contains, paths]

theorem not_contains_iff : app.contains path = false ↔ path ∉ app.paths := by
  rw [← contains_iff, Bool.not_eq_true]

theorem isSome_find? (app : Application) (path : Bytes) :
    (app.find? path).isSome = app.contains path :=
  List.findIdx?_isSome

theorem find?_eq_none_iff : app.find? path = none ↔ app.contains path = false := by
  rw [← isSome_find?, Option.isSome_eq_false_iff, Option.isNone_iff_eq_none]

theorem mem_importsOf {id : PackageId} (hp : app.packages[id]? = some p) :
    path ∈ app.importsOf id ↔ ∃ f ∈ app.filesOf p, path ∈ f.imports := by
  simp [importsOf, package?, hp]

namespace WellFormed

variable (h : app.WellFormed)

include h

theorem file_lt (hp : p ∈ app.packages) {id : FileId} (hid : id ∈ p.files) :
    id < app.files.length :=
  List.mem_range.1 (h.files.mem_iff.1 (List.mem_flatMap.2 ⟨p, hp, hid⟩))

theorem mem_order {id : PackageId} : id ∈ app.order ↔ id < app.packages.length := by
  rw [h.order.mem_iff, List.mem_range]

end WellFormed

/-! ### Files more -/

/-- Files that were there before are found again. -/
theorem filesOf_addFiles (app : Application) (more : List File)
    (hp : ∀ id ∈ p.files, id < app.files.length) :
    (app.addFiles more).filesOf p = app.filesOf p := by
  unfold filesOf
  refine List.filterMap_congr fun id hid => ?_
  exact List.getElem?_append_left (hp id hid)

theorem filterMap_getElem?_range {α : Type} (xs : List α) :
    (List.range xs.length).filterMap (xs[·]?) = xs := by
  induction xs with
  | nil => rfl
  | cons x xs ih =>
    rw [List.length_cons, List.range_succ_eq_map, List.filterMap_cons]
    simpa [List.filterMap_map] using ih

/-- The members of a block within a list, by their numbers. -/
theorem filterMap_getElem?_block {α : Type} (before block after : List α) :
    ((List.range block.length).map (before.length + ·)).filterMap
      ((before ++ block ++ after)[·]?) = block := by
  rw [List.filterMap_map]
  refine Eq.trans (List.filterMap_congr fun i hi => ?_) (filterMap_getElem?_range block)
  have hlt : i < block.length := List.mem_range.1 hi
  simp only [Function.comp_apply]
  rw [List.append_assoc, List.getElem?_append_right (Nat.le_add_right _ _),
    Nat.add_sub_cancel_left, List.getElem?_append_left hlt]

/-! ### An external package more -/

section External

variable (app) (path : Bytes) (found : WorkspacePackage) (files : List WorkspaceFile)

theorem packages_addExternal :
    (app.addExternal path found files).packages =
      app.packages ++ [app.external path found files] := rfl

theorem files_addExternal :
    (app.addExternal path found files).files = app.files ++ files.map found.file := rfl

theorem order_addExternal :
    (app.addExternal path found files).order = app.order ++ [app.packages.length] := rfl

theorem paths_addExternal : (app.addExternal path found files).paths = app.paths ++ [path] := by
  simp [paths, packages_addExternal, external]

/-- Files that were there before are found again. -/
theorem filesOf_addExternal (hp : ∀ id ∈ p.files, id < app.files.length) :
    (app.addExternal path found files).filesOf p = app.filesOf p :=
  app.filesOf_addFiles (files.map found.file) hp

/-- **The new package has the files given to it**, in order. -/
theorem filesOf_external :
    (app.addExternal path found files).filesOf (app.external path found files) =
      files.map found.file := by
  -- its numbers begin where those of the files before end
  have hblock := filterMap_getElem?_block app.files (files.map found.file) []
  rw [List.append_nil, List.length_map] at hblock
  exact hblock

theorem WellFormed.addExternal (h : app.WellFormed) (hnew : app.contains path = false) :
    (app.addExternal path found files).WellFormed := by
  have hnot := not_contains_iff.1 hnew
  refine ⟨?_, ?_, ?_⟩
  · rw [paths_addExternal]
    exact List.nodup_append'.2 ⟨h.paths, List.nodup_singleton path, by simpa using hnot⟩
  · rw [packages_addExternal, files_addExternal, List.flatMap_append, List.length_append,
      List.length_map, List.range_add]
    simpa [external] using h.files.append_right _
  · rw [packages_addExternal, order_addExternal, List.length_append, List.length_singleton,
      List.range_succ]
    exact h.order.append_right _

/-- The packages that were there before import what they did. -/
theorem WellFormed.importsOf_addExternal (h : app.WellFormed) {id : PackageId}
    (hid : id < app.packages.length) :
    (app.addExternal path found files).importsOf id = app.importsOf id := by
  have hp := List.getElem?_eq_getElem hid
  unfold importsOf package?
  rw [packages_addExternal, List.getElem?_append_left hid, hp]
  simp only
  rw [filesOf_addExternal app path found files fun f hf => h.file_lt (List.mem_of_getElem? hp) hf]

end External

end Application

end BuildOrder
