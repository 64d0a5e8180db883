import BuildOrder.Order
import BuildOrder.Proofs.Graph
import Mathlib.Data.List.Chain
import Mathlib.Data.List.TakeWhile

/-!
# The cycle that a walk runs into

* `Application.Stuck`: packages that each depend on one of them.
* `Application.Lasso`: a walk along dependencies that visits no package twice and leads from its end
  back to a package on it. It shows that its first package reaches a cycle (`Lasso.reachesCycle`).
* `Application.Walk`: what holds at every step of `followCycle`.
* `Application.followCycle_lasso`: **among stuck packages the walk comes back to itself**, and what
  it reports is the closed part of it.
* `Application.findCycle_lasso`: so a cycle is found, at the end of a walk from the smallest path.
-/

namespace BuildOrder.Application

open Relation

variable {app : Application}

/-- Each of the packages depends on one of them. -/
def Stuck (app : Application) (ids : List PackageId) : Prop :=
  ∀ p ∈ ids, ∃ q ∈ ids, app.DependsOn p q

/-- The packages `tail ++ cycle`, each once and all among `ids`, are a walk along dependencies, and
the last of them depends on the first of `cycle`. -/
structure Lasso (app : Application) (ids tail cycle : List PackageId) : Prop where
  chain : (tail ++ cycle ++ cycle.take 1).IsChain app.DependsOn
  nodup : (tail ++ cycle).Nodup
  subset : tail ++ cycle ⊆ ids
  nonempty : cycle ≠ []

/-- A walk leads from its first package to its last. -/
theorem transGen_of_isChain {R : PackageId → PackageId → Prop} {first last : PackageId}
    (between : List PackageId) (h : (first :: (between ++ [last])).IsChain R) :
    TransGen R first last := by
  induction between generalizing first with
  | nil =>
    rw [List.nil_append, List.isChain_pair] at h
    exact TransGen.single h
  | cons next between ih =>
    rw [List.cons_append, List.isChain_cons_cons] at h
    exact TransGen.head h.1 (ih h.2)

namespace Lasso

variable {ids tail cycle : List PackageId} (h : app.Lasso ids tail cycle)

include h

/-- The closed part is a cycle. -/
theorem isChain_cycle : (cycle ++ cycle.take 1).IsChain app.DependsOn := by
  have hchain := h.chain
  rw [List.append_assoc] at hchain
  exact hchain.right_of_append

/-- **The first package of the walk reaches a cycle.** -/
theorem reachesCycle {p : PackageId} (hp : (tail ++ cycle).head? = some p) :
    app.ReachesCycle p := by
  obtain ⟨c, rest, rfl⟩ := List.exists_cons_of_ne_nil h.nonempty
  refine ⟨c, ?_, transGen_of_isChain rest h.isChain_cycle⟩
  cases tail with
  | nil =>
    obtain rfl : c = p := by simpa using hp
    exact ReflTransGen.refl
  | cons first tail =>
    obtain rfl : first = p := by simpa using hp
    refine (transGen_of_isChain tail ?_).to_reflTransGen
    have hchain := h.chain
    refine hchain.prefix ⟨rest ++ [c], ?_⟩
    simp

/-- The cycle starts where the walk does, if that is on the cycle at all. -/
theorem head_cycle {p : PackageId} (hp : (tail ++ cycle).head? = some p) (hmem : p ∈ cycle) :
    cycle.head? = some p := by
  cases tail with
  | nil => exact hp
  | cons first tail =>
    -- the walk starts before the cycle, so its first package is visited on the way only
    obtain rfl : first = p := by simpa using hp
    have hnodup := h.nodup
    rw [List.cons_append, List.nodup_cons] at hnodup
    exact absurd (List.mem_append_right tail hmem) hnodup.1

end Lasso

/-- What holds at every step of a walk within `ids`: it stands at `here`, and `left` are the
packages not visited yet. -/
structure Walk (app : Application) (ids walk left : List PackageId) (here : PackageId) : Prop where
  last : walk.getLast? = some here
  chain : walk.IsChain app.DependsOn
  nodup : walk.Nodup
  subset : walk ⊆ ids
  left_subset : left ⊆ ids
  cover : ∀ p ∈ ids, p ∈ walk ∨ p ∈ left

namespace Walk

variable {ids walk left : List PackageId} {here next back : PackageId}

/-- A walk that has just begun. -/
theorem start (h : here ∈ ids) : app.Walk ids [here] (ids.erase here) here := by
  refine ⟨by simp, by simp, by simp, by simpa using h, List.erase_subset, ?_⟩
  intro p hp
  by_cases heq : p = here
  · exact Or.inl (by simp [heq])
  · exact Or.inr ((List.mem_erase_of_ne heq).2 hp)

/-- The walk goes on to a dependency not visited yet. -/
theorem extend (w : app.Walk ids walk left here) (hdep : app.DependsOn here next)
    (hleft : next ∈ left) (hnew : next ∉ walk) :
    app.Walk ids (walk ++ [next]) (left.erase next) next := by
  refine ⟨by simp, ?_, ?_, ?_, ?_, ?_⟩
  · refine w.chain.append (by simp) ?_
    intro p hp q hq
    rw [w.last] at hp
    obtain rfl : here = p := by simpa using hp
    obtain rfl : next = q := by simpa using hq
    exact hdep
  · exact List.nodup_append'.2 ⟨w.nodup, by simp, by simpa using hnew⟩
  · exact List.append_subset.2 ⟨w.subset, by simpa using w.left_subset hleft⟩
  · exact List.Subset.trans List.erase_subset w.left_subset
  · intro p hp
    by_cases heq : p = next
    · exact Or.inl (by simp [heq])
    rcases w.cover p hp with h | h
    · exact Or.inl (List.mem_append_left _ h)
    · exact Or.inr ((List.mem_erase_of_ne heq).2 h)

/-- The walk closes at a dependency that lies on it. -/
theorem close (w : app.Walk ids walk left here) (hdep : app.DependsOn here back)
    (hback : back ∈ walk) :
    app.Lasso ids (walk.takeWhile (· != back)) (walk.dropWhile (· != back)) := by
  have hsplit : walk.takeWhile (· != back) ++ walk.dropWhile (· != back) = walk :=
    List.takeWhile_append_dropWhile
  have hne : walk.dropWhile (· != back) ≠ [] := by
    intro hnil
    simpa using List.dropWhile_eq_nil_iff.1 hnil back hback
  -- the part that is dropped ends before `back`
  obtain ⟨c, rest, hdrop⟩ := List.exists_cons_of_ne_nil hne
  have hc : c = back := by
    have hhead := List.head?_dropWhile_not (· != back) walk
    rw [hdrop] at hhead
    simpa using hhead
  refine ⟨?_, ?_, ?_, hne⟩
  · rw [hsplit, hdrop, hc]
    refine w.chain.append (by simp) ?_
    intro p hp q hq
    rw [w.last] at hp
    obtain rfl : here = p := by simpa using hp
    obtain rfl : back = q := by simpa using hq
    exact hdep
  · rw [hsplit]
    exact w.nodup
  · rw [hsplit]
    exact w.subset

theorem here_mem (w : app.Walk ids walk left here) : here ∈ ids :=
  w.subset (List.mem_of_getLast? w.last)

end Walk

/-! ### The walk's own steps -/

section Steps

variable {walk left : List PackageId} {here next back : PackageId}

theorem followCycle_back (h : (app.dependenciesOf here).find? walk.contains = some back) :
    app.followCycle walk left here = walk.dropWhile (· != back) := by
  rw [followCycle, h]

theorem followCycle_end (hback : (app.dependenciesOf here).find? walk.contains = none)
    (hleft : (app.dependenciesOf here).find? left.contains = none) :
    app.followCycle walk left here = walk := by
  rw [followCycle, hback]
  simp only
  split
  · rfl
  · rename_i hsome
    rw [hleft] at hsome
    cases hsome

theorem followCycle_next (hback : (app.dependenciesOf here).find? walk.contains = none)
    (hleft : (app.dependenciesOf here).find? left.contains = some next) :
    app.followCycle walk left here = app.followCycle (walk ++ [next]) (left.erase next) next := by
  rw [followCycle, hback]
  simp only
  split
  · rename_i hnone
    rw [hleft] at hnone
    cases hnone
  · rename_i other hsome
    obtain rfl : next = other := Option.some.inj (hleft.symm.trans hsome)
    rfl

end Steps

/-- **Among stuck packages the walk comes back to itself**: what it reports is the closed part of a
lasso that starts with the walk. -/
theorem followCycle_lasso {ids walk left : List PackageId} {here : PackageId}
    (hstuck : app.Stuck ids) (w : app.Walk ids walk left here) :
    ∃ tail, app.Lasso ids tail (app.followCycle walk left here) ∧
      walk <+: tail ++ app.followCycle walk left here := by
  induction walk, left, here using followCycle.induct app with
  | case1 walk left here back hback =>
    have hmem : back ∈ walk := by simpa using List.find?_some hback
    rw [followCycle_back hback]
    exact ⟨_, w.close (List.mem_of_find?_eq_some hback) hmem, by simp⟩
  | case2 walk left here hback hleft =>
    -- a stuck package depends on one that is stuck, which is visited or left: no dead end
    obtain ⟨q, hq, hdep⟩ := hstuck here w.here_mem
    rcases w.cover q hq with h | h
    · have := List.find?_eq_none.1 hback q hdep
      simp [h] at this
    · have := List.find?_eq_none.1 hleft q hdep
      simp [h] at this
  | case3 walk left here hback next hleft ih =>
    have hmem : next ∈ left := by simpa using List.find?_some hleft
    have hdep : app.DependsOn here next := List.mem_of_find?_eq_some hleft
    have hnew : next ∉ walk := by simpa using List.find?_eq_none.1 hback next hdep
    rw [followCycle_next hback hleft]
    obtain ⟨tail, hlasso, hprefix⟩ := ih (w.extend hdep hmem hnew)
    exact ⟨tail, hlasso, (List.prefix_append walk [next]).trans hprefix⟩

/-! ### Where the walk starts -/

/-- The smallest of some packages is one of them, and none has a smaller import path. -/
theorem smallest_spec (first : PackageId) (ids : List PackageId) :
    app.smallest first ids ∈ first :: ids ∧
      ∀ q ∈ first :: ids, app.pathOf (app.smallest first ids) ≤ app.pathOf q := by
  induction ids generalizing first with
  | nil => simp [smallest]
  | cons id ids ih =>
    have hfold : app.smallest first (id :: ids) =
        app.smallest (if app.pathOf id < app.pathOf first then id else first) ids := rfl
    rw [hfold]
    split
    · rename_i hlt
      obtain ⟨hmem, hle⟩ := ih id
      refine ⟨List.mem_cons_of_mem _ hmem, ?_⟩
      intro q hq
      rcases List.mem_cons.1 hq with rfl | hq
      · exact List.le_trans (hle id List.mem_cons_self) (List.le_of_lt hlt)
      · exact hle q hq
    · rename_i hlt
      obtain ⟨hmem, hle⟩ := ih first
      refine ⟨?_, ?_⟩
      · rcases List.mem_cons.1 hmem with h | h
        · rw [h]
          exact List.mem_cons_self
        · exact List.mem_cons_of_mem _ (List.mem_cons_of_mem _ h)
      intro q hq
      rcases List.mem_cons.1 hq with rfl | hq
      · exact hle q List.mem_cons_self
      rcases List.mem_cons.1 hq with rfl | hq
      · exact List.le_trans (hle first List.mem_cons_self) (List.not_lt.1 hlt)
      · exact hle q (List.mem_cons_of_mem _ hq)

variable {ids : List PackageId}

/-- The walk for a cycle starts at the smallest import path. -/
theorem findCycle_start (hne : ids ≠ []) :
    ∃ start ∈ ids, (∀ q ∈ ids, app.pathOf start ≤ app.pathOf q) ∧
      app.findCycle ids = app.followCycle [start] (ids.erase start) start := by
  obtain ⟨first, rest, rfl⟩ := List.exists_cons_of_ne_nil hne
  obtain ⟨hmem, hle⟩ := app.smallest_spec first (first :: rest)
  refine ⟨app.smallest first (first :: rest), by simpa using hmem, ?_, rfl⟩
  exact fun q hq => hle q (List.mem_cons_of_mem _ hq)

/-- **Among stuck packages a cycle is found**, at the end of a walk from the smallest import
path. -/
theorem findCycle_lasso (hne : ids ≠ []) (hstuck : app.Stuck ids) :
    ∃ start tail, (∀ q ∈ ids, app.pathOf start ≤ app.pathOf q) ∧
      app.Lasso ids tail (app.findCycle ids) ∧
      (tail ++ app.findCycle ids).head? = some start := by
  obtain ⟨start, hstart, hle, heq⟩ := app.findCycle_start hne
  obtain ⟨tail, hlasso, after, hafter⟩ := followCycle_lasso hstuck (Walk.start hstart)
  rw [heq]
  refine ⟨start, tail, hle, hlasso, ?_⟩
  rw [← hafter]
  rfl

/-- Stuck packages reach a cycle. -/
theorem Stuck.reachesCycle (hstuck : app.Stuck ids) {p : PackageId} (hp : p ∈ ids) :
    app.ReachesCycle p := by
  obtain ⟨tail, hlasso, after, hafter⟩ := followCycle_lasso hstuck (Walk.start hp)
  refine hlasso.reachesCycle ?_
  rw [← hafter]
  rfl

end BuildOrder.Application
