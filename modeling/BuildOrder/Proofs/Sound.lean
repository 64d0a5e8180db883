import BuildOrder.Dependency
import BuildOrder.Proofs.Search

/-!
# What a build keeps of an application

* `Application.Sound`: import paths are distinct, each file belongs to one package or is loose, and
  initializers, roots and order agree with the packages.
* `Application.Sound.addFiles`, `Application.Sound.register`: **an application stays sound** when it
  gets files, which are loose, and when a package takes some of the loose ones.
* `Application.Sound.withDependencies`, `Application.Sound.reorder`: and when its graph is built and
  its order changed.
* `Resolver.sound_of_steps`: and all along the search for external packages.
-/

namespace BuildOrder

open Relation

namespace Application

/-- The packages that run code at start, in increasing order. -/
def initializers (app : Application) : List PackageId :=
  (List.range app.packages.length).filter fun id => (app.package? id).any (·.hasInit)

/-- What holds of an application at each stage of a build. The `loose` files belong to no package
yet. -/
structure Sound (app : Application) (loose : List FileId) : Prop where
  paths : app.paths.Nodup
  files : (app.packages.flatMap (·.files) ++ loose).Perm (List.range app.files.length)
  order : app.order.Perm (List.range app.packages.length)
  nonempty : ∀ p ∈ app.packages, p.files ≠ []
  hasInit : ∀ p ∈ app.packages, p.hasInit = (app.filesOf p).any (·.hasInit)
  external : ∀ p ∈ app.packages, p.isExternal = true → p.hasInit = false
  roots : app.roots = app.initializers

variable {app : Application} {p : Package} {loose : List FileId}

theorem initializers_register (app : Application) (p : Package) :
    (app.register p).initializers =
      app.initializers ++ if p.hasInit then [app.packages.length] else [] := by
  unfold initializers
  have hpackages : (app.register p).packages = app.packages ++ [p] := rfl
  rw [hpackages, List.length_append, List.length_singleton, List.range_succ, List.filter_append]
  congr 1
  · refine List.filter_congr fun id hid => ?_
    simp only [package?, hpackages]
    rw [List.getElem?_append_left (List.mem_range.1 hid)]
  · simp [package?, hpackages, List.filter_cons]

theorem paths_register (app : Application) (p : Package) :
    (app.register p).paths = app.paths ++ [p.importPath] := by
  simp [paths, register]

theorem roots_register (app : Application) (p : Package) :
    (app.register p).roots = app.roots ++ if p.hasInit then [app.packages.length] else [] := by
  cases hinit : p.hasInit <;> simp [register, hinit]

namespace Sound

theorem empty : Sound {} [] := by
  refine ⟨by simp [Application.paths], by simp, by simp, ?_, ?_, ?_, rfl⟩ <;> simp

section

variable (h : app.Sound loose)

include h

theorem file_lt (hp : p ∈ app.packages) {id : FileId} (hid : id ∈ p.files) :
    id < app.files.length := by
  refine List.mem_range.1 (h.files.mem_iff.1 (List.mem_append_left _ ?_))
  exact List.mem_flatMap.2 ⟨p, hp, hid⟩

/-- Files that come to an application are loose. -/
theorem addFiles (files : List File) :
    (app.addFiles files).Sound
      (loose ++ (List.range files.length).map (app.files.length + ·)) := by
  refine ⟨h.paths, ?_, h.order, h.nonempty, ?_, h.external, h.roots⟩
  · show (app.packages.flatMap (·.files) ++ _).Perm (List.range (app.files ++ files).length)
    rw [List.length_append, List.range_add, ← List.append_assoc]
    exact h.files.append_right _
  · intro p hp
    rw [filesOf_addFiles app files fun _ => h.file_lt hp]
    exact h.hasInit p hp

end

/-- A package may take some of the loose files under a path of its own. -/
theorem register (h : app.Sound (p.files ++ loose)) (hnew : app.contains p.importPath = false)
    (hne : p.files ≠ []) (hinit : p.hasInit = (app.filesOf p).any (·.hasInit))
    (hext : p.isExternal = true → p.hasInit = false) : (app.register p).Sound loose := by
  have hpackages : (app.register p).packages = app.packages ++ [p] := rfl
  have hfiles : (app.register p).files = app.files := rfl
  refine ⟨?_, ?_, ?_, ?_, ?_, ?_, ?_⟩
  · rw [paths_register]
    have hnot := not_contains_iff.1 hnew
    exact List.nodup_append'.2 ⟨h.paths, List.nodup_singleton _, by simpa using hnot⟩
  · rw [hpackages, hfiles, List.flatMap_append]
    simpa using h.files
  · rw [hpackages, List.length_append, List.length_singleton, List.range_succ]
    exact h.order.append_right _
  · intro q hq
    rcases List.mem_append.1 hq with hq | hq
    · exact h.nonempty q hq
    · exact List.mem_singleton.1 hq ▸ hne
  · intro q hq
    rcases List.mem_append.1 hq with hq | hq
    · exact h.hasInit q hq
    · exact List.mem_singleton.1 hq ▸ hinit
  · intro q hq
    rcases List.mem_append.1 hq with hq | hq
    · exact h.external q hq
    · exact List.mem_singleton.1 hq ▸ hext
  · rw [initializers_register, roots_register, h.roots]

theorem wellFormed (h : app.Sound []) : app.WellFormed :=
  ⟨h.paths, by simpa using h.files, h.order⟩

/-- The files of an external package come with it. -/
theorem addExternal (h : app.Sound []) {path : Bytes} (found : WorkspacePackage)
    {files : List WorkspaceFile} (hnew : app.contains path = false) (hne : files ≠ []) :
    (app.addExternal path found files).Sound [] := by
  have hfiles := h.addFiles (files.map found.file)
  rw [List.nil_append, List.length_map] at hfiles
  refine Sound.register (p := app.external path found files) ?_ hnew ?_ ?_ fun _ => rfl
  · rw [List.append_nil]
    exact hfiles
  · simpa [Application.external] using hne
  · -- what comes from the workspace is not searched for initializers
    show _ = ((app.addExternal path found files).filesOf (app.external path found files)).any _
    rw [filesOf_external]
    simp [Application.external, WorkspacePackage.file]

/-- The dependencies are no part of what is kept. -/
theorem withDependencies (h : app.Sound []) : app.withDependencies.Sound [] := by
  have hpackages : app.withDependencies.packages =
      app.packages.map fun p => { p with dependencies := app.dependencies p } := rfl
  have hpaths : app.withDependencies.paths = app.paths := by
    simp [Application.paths, hpackages]
  refine ⟨hpaths ▸ h.paths, ?_, ?_, ?_, ?_, ?_, ?_⟩
  · rw [hpackages, List.flatMap_map]
    exact h.files
  · rw [hpackages, List.length_map]
    exact h.order
  · rintro q hq
    obtain ⟨p, hp, rfl⟩ := List.mem_map.1 hq
    exact h.nonempty p hp
  · rintro q hq
    obtain ⟨p, hp, rfl⟩ := List.mem_map.1 hq
    exact h.hasInit p hp
  · rintro q hq
    obtain ⟨p, hp, rfl⟩ := List.mem_map.1 hq
    exact h.external p hp
  · show app.roots = _
    rw [h.roots, initializers, initializers, hpackages, List.length_map]
    refine List.filter_congr fun id _ => ?_
    simp only [package?, hpackages, List.getElem?_map]
    cases app.packages[id]? <;> rfl

/-- The order may be any of the packages. -/
theorem reorder (h : app.Sound loose) {order : List PackageId}
    (horder : order.Perm (List.range app.packages.length)) :
    Sound { app with order := order } loose :=
  ⟨h.paths, h.files, horder, h.nonempty, h.hasInit, h.external, h.roots⟩

end Sound

end Application

namespace Resolver

variable {s : Resolver} {x y : Search}

/-- **A step of the search keeps an application sound.** -/
theorem Step.sound (hstep : s.Step x y) (h : x.reached.app.Sound []) :
    y.reached.app.Sound [] := by
  cases hstep with
  | next r id queue => exact h
  | skip _ => exact h
  | illegal _ _ _ => exact h
  | missing _ _ => exact h
  | found hasks _ hkept =>
    exact h.addExternal _ (Application.not_contains_iff.2 (Resolution.not_mem_paths
      hasks.unsettled)) hkept

theorem sound_of_steps (hsteps : ReflTransGen s.Step x y) (h : x.reached.app.Sound []) :
    y.reached.app.Sound [] := by
  induction hsteps with
  | refl => exact h
  | tail _ hstep ih => exact hstep.sound ih

/-- A search that goes well gives a sound application. -/
theorem sound_of_resolve {app : Application} {r : Resolution} (h : app.Sound [])
    (hrun : (s.resolve app).value = (r, .ok ())) : r.app.Sound [] := by
  obtain ⟨last, hsteps, hends⟩ := s.run_steps { app } app.order []
  change s.Ends last (s.resolve app).value at hends
  rw [hrun] at hends
  cases hends
  exact sound_of_steps hsteps h

end Resolver

end BuildOrder
