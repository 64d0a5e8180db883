import BuildOrder.Proofs.Sort
import Mathlib.Data.List.Forall2

/-!
# The sorter sees import paths only

Two applications may hold one graph under different numbers: the packages were registered in another
order, or the build order was shuffled.

* `Application.Labelled`: distinct import paths, and dependency lists in order of import paths.
* `Application.Twin`: packages of the two applications with one import path.
* `Application.followCycle_twins`: the walks for a cycle keep in step, twin by twin.
* `Application.sort_relabel`: **the sorter's answer does not depend on numbers or on the order it
  starts from.**
-/

namespace BuildOrder.Application

open Relation Relator

/-- A graph of packages with distinct import paths, in which each dependency list is in the order of
these. -/
structure Labelled (app : Application) : Prop extends GraphOK app where
  nodup : app.paths.Nodup
  sorted : ∀ p ∈ app.packages, (p.dependencies.map app.pathOf).Pairwise (· ≤ ·)

/-- The two applications hold the same import paths with the same dependencies between them. -/
structure SameGraph (app₁ app₂ : Application) : Prop where
  left : app₁.Labelled
  right : app₂.Labelled
  paths : ∀ path, path ∈ app₁.paths ↔ path ∈ app₂.paths
  edges : ∀ edge, edge ∈ app₁.edges ↔ edge ∈ app₂.edges

/-- The packages have one import path. -/
structure Twin (app₁ app₂ : Application) (p₁ p₂ : PackageId) : Prop where
  left : p₁ < app₁.packages.length
  right : p₂ < app₂.packages.length
  path : app₁.pathOf p₁ = app₂.pathOf p₂

/-- Among twins, both are listed or neither is. -/
def Twins (app₁ app₂ : Application) (ids₁ ids₂ : List PackageId) : Prop :=
  ∀ p₁ p₂, Twin app₁ app₂ p₁ p₂ → (p₁ ∈ ids₁ ↔ p₂ ∈ ids₂)

variable {app app₁ app₂ : Application}

namespace Labelled

/-- Sorting the packages changes no label. -/
theorem swept (h : app.Labelled) : app.swept.Labelled :=
  ⟨⟨h.perm_swept, h.dependencies⟩, h.nodup, h.sorted⟩

/-- The first dependency of a kind has the smallest import path of that kind. -/
theorem find?_le (h : app.Labelled) {p x y : PackageId} {f : PackageId → Bool}
    (hx : (app.dependenciesOf p).find? f = some x) (hy : app.DependsOn p y) (hfy : f y = true) :
    app.pathOf x ≤ app.pathOf y := by
  obtain ⟨package, hp, -⟩ := hy.exists_package
  have hsorted := h.sorted package (List.mem_of_getElem? hp)
  unfold DependsOn at hy
  rw [dependenciesOf_eq hp] at hx hy
  obtain ⟨-, before, after, hsplit, hbefore⟩ := List.find?_eq_some_iff_append.1 hx
  rw [hsplit] at hy hsorted
  rcases List.mem_append.1 hy with hy | hy
  · have := hbefore y hy
    simp [hfy] at this
  rcases List.mem_cons.1 hy with rfl | hy
  · exact List.le_refl _
  · rw [List.map_append, List.map_cons] at hsorted
    have htail := (List.pairwise_append.1 hsorted).2.1
    exact (List.pairwise_cons.1 htail).1 _ (List.mem_map_of_mem hy)

end Labelled

namespace SameGraph

variable {p₁ p₂ q₁ q₂ : PackageId}

theorem symm (h : SameGraph app₁ app₂) : SameGraph app₂ app₁ :=
  ⟨h.right, h.left, fun path => (h.paths path).symm, fun edge => (h.edges edge).symm⟩

theorem swept (h : SameGraph app₁ app₂) : SameGraph app₁.swept app₂.swept :=
  ⟨h.left.swept, h.right.swept, h.paths, h.edges⟩

end SameGraph

theorem Twin.symm {p₁ p₂ : PackageId} (t : Twin app₁ app₂ p₁ p₂) : Twin app₂ app₁ p₂ p₁ :=
  ⟨t.right, t.left, t.path.symm⟩

theorem Twins.symm {ids₁ ids₂ : List PackageId} (hids : Twins app₁ app₂ ids₁ ids₂) :
    Twins app₂ app₁ ids₂ ids₁ :=
  fun p₂ p₁ t => (hids p₁ p₂ t.symm).symm

namespace SameGraph

variable (h : SameGraph app₁ app₂) {p₁ p₂ q₁ q₂ : PackageId}

include h

theorem biUnique : BiUnique (Twin app₁ app₂) := by
  constructor
  · intro p₁ q₁ p₂ tp tq
    exact pathOf_inj h.left.nodup tp.left tq.left (tp.path.trans tq.path.symm)
  · intro p₁ p₂ q₂ tp tq
    exact pathOf_inj h.right.nodup tp.right tq.right (tp.path.symm.trans tq.path)

theorem exists_twin (hp : p₁ < app₁.packages.length) : ∃ p₂, Twin app₁ app₂ p₁ p₂ := by
  obtain ⟨p₂, hp₂, hpath⟩ := mem_paths.1 ((h.paths _).1 (mem_paths.2 ⟨p₁, hp, rfl⟩))
  exact ⟨p₂, hp, hp₂, hpath.symm⟩

theorem twins_of_forall₂ {ids₁ ids₂ : List PackageId}
    (hids : List.Forall₂ (Twin app₁ app₂) ids₁ ids₂) : Twins app₁ app₂ ids₁ ids₂ :=
  fun _ _ t => List.rel_mem h.biUnique t hids

/-- **A dependency has a twin.** -/
theorem dependsOn (t : Twin app₁ app₂ p₁ p₂) (hdep : app₁.DependsOn p₁ q₁) :
    ∃ q₂, Twin app₁ app₂ q₁ q₂ ∧ app₂.DependsOn p₂ q₂ := by
  have hedge := (h.edges _).1 (mem_edges.2 ⟨p₁, q₁, hdep, rfl, rfl⟩)
  obtain ⟨r₂, q₂, hdep₂, hr, hq⟩ := mem_edges.1 hedge
  -- the package with the edge has the path of `p₂`, so it is `p₂`
  have hr' : Twin app₁ app₂ p₁ r₂ := ⟨t.left, hdep₂.lt, hr.symm⟩
  obtain rfl := h.biUnique.2 t hr'
  exact ⟨q₂, ⟨h.left.lt_of_dependsOn hdep, h.right.lt_of_dependsOn hdep₂, hq.symm⟩, hdep₂⟩

theorem reflTransGen (t : Twin app₁ app₂ p₁ p₂) (hpq : ReflTransGen app₁.DependsOn p₁ q₁) :
    ∃ q₂, Twin app₁ app₂ q₁ q₂ ∧ ReflTransGen app₂.DependsOn p₂ q₂ := by
  induction hpq with
  | refl => exact ⟨p₂, t, ReflTransGen.refl⟩
  | tail _ hdep ih =>
    obtain ⟨r₂, tr, hpr⟩ := ih
    obtain ⟨q₂, tq, hdep₂⟩ := h.dependsOn tr hdep
    exact ⟨q₂, tq, hpr.tail hdep₂⟩

theorem reachesCycle (t : Twin app₁ app₂ p₁ p₂) (hp : app₁.ReachesCycle p₁) :
    app₂.ReachesCycle p₂ := by
  obtain ⟨q₁, hpq, hqq⟩ := hp
  obtain ⟨q₂, tq, hpq₂⟩ := h.reflTransGen t hpq
  obtain ⟨r₁, hqr, hrq⟩ := TransGen.head'_iff.1 hqq
  obtain ⟨r₂, tr, hqr₂⟩ := h.dependsOn tq hqr
  obtain ⟨s₂, ts, hrs₂⟩ := h.reflTransGen tr hrq
  -- the walk ends at the twin it began with
  obtain rfl := h.biUnique.2 tq ts
  exact ⟨q₂, hpq₂, TransGen.head' hqr₂ hrs₂⟩

/-- **The packages that stay are twins.** -/
theorem stuck_twins : Twins app₁ app₂ app₁.sweeps.stuck app₂.sweeps.stuck := by
  intro p₁ p₂ t
  rw [h.left.mem_stuck_iff, h.right.mem_stuck_iff]
  exact ⟨h.reachesCycle t, h.symm.reachesCycle t.symm⟩

/-- **Twins find twins**: what is found is the smallest import path of those listed. -/
theorem find?_some (t : Twin app₁ app₂ p₁ p₂) {ids₁ ids₂ : List PackageId}
    (hids : Twins app₁ app₂ ids₁ ids₂)
    (hx : (app₁.dependenciesOf p₁).find? ids₁.contains = some q₁) :
    ∃ q₂, (app₂.dependenciesOf p₂).find? ids₂.contains = some q₂ ∧ Twin app₁ app₂ q₁ q₂ := by
  obtain ⟨x₂, tx, hx₂⟩ := h.dependsOn t (List.mem_of_find?_eq_some hx)
  have hq₁ : q₁ ∈ ids₁ := by simpa using List.find?_some hx
  have hfx : ids₂.contains x₂ = true := by simpa using (hids q₁ x₂ tx).1 hq₁
  cases hy : (app₂.dependenciesOf p₂).find? ids₂.contains with
  | none => exact absurd hfx (List.find?_eq_none.1 hy x₂ hx₂)
  | some y₂ =>
    -- what each finds is listed for the other by its twin, so neither path is greater
    obtain ⟨y₁, ty, hy₁⟩ := h.symm.dependsOn t.symm (List.mem_of_find?_eq_some hy)
    have hy₂ : y₂ ∈ ids₂ := by simpa using List.find?_some hy
    have hfy : ids₁.contains y₁ = true := by simpa using (hids y₁ y₂ ty.symm).2 hy₂
    have hle₁ : app₁.pathOf q₁ ≤ app₁.pathOf y₁ := h.left.find?_le hx hy₁ hfy
    have hle₂ : app₂.pathOf y₂ ≤ app₂.pathOf x₂ := h.right.find?_le hy hx₂ hfx
    rw [← tx.path] at hle₂
    rw [← ty.path] at hle₁
    exact ⟨y₂, rfl, tx.left, ty.left, List.le_antisymm hle₁ hle₂⟩

theorem find?_none (t : Twin app₁ app₂ p₁ p₂) {ids₁ ids₂ : List PackageId}
    (hids : Twins app₁ app₂ ids₁ ids₂)
    (hx : (app₁.dependenciesOf p₁).find? ids₁.contains = none) :
    (app₂.dependenciesOf p₂).find? ids₂.contains = none := by
  cases hy : (app₂.dependenciesOf p₂).find? ids₂.contains with
  | none => rfl
  | some y₂ =>
    obtain ⟨y₁, hy₁, -⟩ := h.symm.find?_some t.symm hids.symm hy
    rw [hx] at hy₁
    cases hy₁

end SameGraph

/-- Twins are taken out together. -/
theorem Twins.erase {ids₁ ids₂ : List PackageId} {p₁ p₂ : PackageId}
    (hids : Twins app₁ app₂ ids₁ ids₂) (h : SameGraph app₁ app₂) (hnodup₁ : ids₁.Nodup)
    (hnodup₂ : ids₂.Nodup) (t : Twin app₁ app₂ p₁ p₂) :
    Twins app₁ app₂ (ids₁.erase p₁) (ids₂.erase p₂) := by
  intro q₁ q₂ tq
  rw [hnodup₁.mem_erase_iff, hnodup₂.mem_erase_iff, hids q₁ q₂ tq]
  refine and_congr (not_congr ?_) Iff.rfl
  constructor
  · rintro rfl
    exact h.biUnique.2 tq t
  · rintro rfl
    exact h.biUnique.1 tq t

/-- What is cut off before twins are twins. -/
theorem forall₂_dropWhile (h : SameGraph app₁ app₂) {walk₁ walk₂ : List PackageId}
    {back₁ back₂ : PackageId} (hwalk : List.Forall₂ (Twin app₁ app₂) walk₁ walk₂)
    (t : Twin app₁ app₂ back₁ back₂) :
    List.Forall₂ (Twin app₁ app₂) (walk₁.dropWhile (· != back₁))
      (walk₂.dropWhile (· != back₂)) := by
  induction hwalk with
  | nil => exact List.Forall₂.nil
  | @cons p₁ p₂ walk₁ walk₂ tp hwalk ih =>
    by_cases heq : p₁ = back₁
    · subst heq
      obtain rfl := h.biUnique.2 tp t
      simpa using List.Forall₂.cons tp hwalk
    · have hne : p₂ ≠ back₂ := by
        rintro rfl
        exact heq (h.biUnique.1 tp t)
      simpa [heq, hne] using ih

/-- **The walks keep in step**, twin by twin, while the packages left are twins. -/
theorem followCycle_twins (h : SameGraph app₁ app₂) {walk₁ walk₂ left₁ left₂ : List PackageId}
    {here₁ here₂ : PackageId} (hwalk : List.Forall₂ (Twin app₁ app₂) walk₁ walk₂)
    (hleft : Twins app₁ app₂ left₁ left₂) (hnodup₁ : left₁.Nodup) (hnodup₂ : left₂.Nodup)
    (there : Twin app₁ app₂ here₁ here₂) :
    List.Forall₂ (Twin app₁ app₂) (app₁.followCycle walk₁ left₁ here₁)
      (app₂.followCycle walk₂ left₂ here₂) := by
  induction walk₁, left₁, here₁ using followCycle.induct app₁ generalizing walk₂ left₂ here₂ with
  | case1 walk₁ left₁ here₁ back₁ hback₁ =>
    obtain ⟨back₂, hback₂, tback⟩ := h.find?_some there (h.twins_of_forall₂ hwalk) hback₁
    rw [followCycle_back hback₁, followCycle_back hback₂]
    exact forall₂_dropWhile h hwalk tback
  | case2 walk₁ left₁ here₁ hback₁ hnext₁ =>
    have hback₂ := h.find?_none there (h.twins_of_forall₂ hwalk) hback₁
    have hnext₂ := h.find?_none there hleft hnext₁
    rw [followCycle_end hback₁ hnext₁, followCycle_end hback₂ hnext₂]
    exact hwalk
  | case3 walk₁ left₁ here₁ hback₁ next₁ hnext₁ ih =>
    have hback₂ := h.find?_none there (h.twins_of_forall₂ hwalk) hback₁
    obtain ⟨next₂, hnext₂, tnext⟩ := h.find?_some there hleft hnext₁
    rw [followCycle_next hback₁ hnext₁, followCycle_next hback₂ hnext₂]
    have hwalk' := List.rel_append hwalk (List.Forall₂.cons tnext List.Forall₂.nil)
    exact ih hwalk' (hleft.erase h hnodup₁ hnodup₂ tnext) (hnodup₁.erase _) (hnodup₂.erase _) tnext

theorem map_pathOf_eq {ids₁ ids₂ : List PackageId}
    (h : List.Forall₂ (Twin app₁ app₂) ids₁ ids₂) :
    ids₁.map app₁.pathOf = ids₂.map app₂.pathOf := by
  induction h with
  | nil => rfl
  | cons t _ ih => rw [List.map_cons, List.map_cons, t.path, ih]

/-- **The same cycle is found**, in terms of import paths. -/
theorem cyclePaths_twins (h : SameGraph app₁ app₂) {ids₁ ids₂ : List PackageId}
    (hids : Twins app₁ app₂ ids₁ ids₂) (hnodup₁ : ids₁.Nodup) (hnodup₂ : ids₂.Nodup)
    (hlt₁ : ∀ p ∈ ids₁, p < app₁.packages.length) (hlt₂ : ∀ p ∈ ids₂, p < app₂.packages.length)
    (hne₁ : ids₁ ≠ []) (hne₂ : ids₂ ≠ []) : app₁.cyclePaths ids₁ = app₂.cyclePaths ids₂ := by
  obtain ⟨start₁, hmem₁, hle₁, heq₁⟩ := app₁.findCycle_start hne₁
  obtain ⟨start₂, hmem₂, hle₂, heq₂⟩ := app₂.findCycle_start hne₂
  -- each start is no greater than the twin of the other
  obtain ⟨twin₁, t₁⟩ := h.exists_twin (hlt₁ start₁ hmem₁)
  obtain ⟨twin₂, t₂⟩ := h.symm.exists_twin (hlt₂ start₂ hmem₂)
  have h₁ := hle₁ twin₂ ((hids twin₂ start₂ t₂.symm).2 hmem₂)
  have h₂ := hle₂ twin₁ ((hids start₁ twin₁ t₁).1 hmem₁)
  rw [← t₂.path] at h₁
  rw [← t₁.path] at h₂
  have t : Twin app₁ app₂ start₁ start₂ :=
    ⟨hlt₁ start₁ hmem₁, hlt₂ start₂ hmem₂, List.le_antisymm h₁ h₂⟩
  have hwalk := followCycle_twins h (List.Forall₂.cons t List.Forall₂.nil)
    (hids.erase h hnodup₁ hnodup₂ t) (hnodup₁.erase _) (hnodup₂.erase _) t
  unfold cyclePaths
  rw [heq₁, heq₂, map_pathOf_eq hwalk]

/-- **The sorter's answer does not depend on numbers or on the order it starts from.** On two
applications with the same import paths and dependencies it succeeds or fails alike, and reports the
same cycle. -/
theorem sort_relabel (h₁ : app₁.Labelled) (h₂ : app₂.Labelled)
    (hpaths : ∀ path, path ∈ app₁.paths ↔ path ∈ app₂.paths)
    (hedges : ∀ edge, edge ∈ app₁.edges ↔ edge ∈ app₂.edges) :
    app₁.sort.value.2 = app₂.sort.value.2 := by
  have h : SameGraph app₁ app₂ := ⟨h₁, h₂, hpaths, hedges⟩
  have hnil : app₁.sweeps.stuck = [] ↔ app₂.sweeps.stuck = [] := by
    rw [List.eq_nil_iff_forall_not_mem, List.eq_nil_iff_forall_not_mem]
    constructor
    · intro hnone p₂ hp₂
      obtain ⟨p₁, t⟩ := h.symm.exists_twin (h₂.stuck_lt hp₂)
      exact hnone p₁ ((h.stuck_twins p₁ p₂ t.symm).2 hp₂)
    · intro hnone p₁ hp₁
      obtain ⟨p₂, t⟩ := h.exists_twin (h₁.stuck_lt hp₁)
      exact hnone p₂ ((h.stuck_twins p₁ p₂ t).1 hp₁)
  rw [sort_value, sort_value]
  by_cases hne : app₁.sweeps.stuck = []
  · rw [if_pos hne, if_pos (hnil.1 hne)]
  · rw [if_neg hne, if_neg (mt hnil.2 hne)]
    have hids : Twins app₁.swept app₂.swept app₁.sweeps.stuck app₂.sweeps.stuck :=
      fun p₁ p₂ t => h.stuck_twins p₁ p₂ ⟨t.left, t.right, t.path⟩
    rw [cyclePaths_twins h.swept hids h₁.nodup_stuck h₂.nodup_stuck (fun p => h₁.stuck_lt)
      (fun p => h₂.stuck_lt) hne (mt hnil.2 hne)]

/-- Two ways around: from `a` straight to `b`, and by way of `c`. -/
def crossed : Application where
  packages := [
    { importPath := ascii "a", files := [], dependencies := [1, 2] },
    { importPath := ascii "b", files := [], dependencies := [0] },
    { importPath := ascii "c", files := [], dependencies := [1] }]
  order := [0, 1, 2]

/-- The same graph, registered and ordered otherwise. -/
def recrossed : Application where
  packages := [
    { importPath := ascii "c", files := [], dependencies := [2] },
    { importPath := ascii "a", files := [], dependencies := [2, 0] },
    { importPath := ascii "b", files := [], dependencies := [1] }]
  order := [2, 0, 1]

theorem sort_recrossed :
    crossed.Labelled ∧ recrossed.Labelled ∧ crossed.paths.Perm recrossed.paths ∧
      crossed.edges.Perm recrossed.edges ∧
      recrossed.sort.value.2 = .error (.cyclic [ascii "a", ascii "b", ascii "a"]) := by
  have h₁ : crossed.Labelled := ⟨⟨by decide, by decide⟩, by decide, by decide⟩
  have h₂ : recrossed.Labelled := ⟨⟨by decide, by decide⟩, by decide, by decide⟩
  have hpaths : crossed.paths.Perm recrossed.paths := by decide
  have hedges : crossed.edges.Perm recrossed.edges := by decide
  have hsort : crossed.sort.value.2 = .error (.cyclic [ascii "a", ascii "b", ascii "a"]) := by
    decide +kernel
  refine ⟨h₁, h₂, hpaths, hedges, ?_⟩
  rw [← hsort]
  exact (sort_relabel h₁ h₂ (fun _ => hpaths.mem_iff) fun _ => hedges.mem_iff).symm

end BuildOrder.Application
