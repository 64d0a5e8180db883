import BuildOrder.Proofs.Cycle
import BuildOrder.Proofs.Sweep

/-!
# The sorter

* `Application.mem_stuck_iff`: **the packages that stay are those from which a cycle can be
  reached**, whatever the order was.
* `Application.sort_ok_iff_acyclic`: **the sorter succeeds on acyclic graphs and on no others**, and
  then each package stands after all it depends on.
* `Application.sort_sorted`: **a sorted application is left as it is**, so to sort twice is to sort
  once.
* `Application.sort_error_cycle`: **a failure reports a cycle**, and leaves an order of the packages
  that can be built and then those that cannot.
-/

namespace BuildOrder.Application

open Relation

variable {app : Application}

/-- The sweeps of the sorter. -/
def sweeps (app : Application) : Sweeps := sweepAll app.dependenciesOf 0 [] app.order

/-- The application with the order that the sweeps come to. -/
def swept (app : Application) : Application :=
  { app with order := app.sweeps.placed ++ app.sweeps.stuck }

theorem sort_value (app : Application) :
    app.sort.value = (app.swept,
      if app.sweeps.stuck = [] then .ok ()
      else .error (.cyclic (app.swept.cyclePaths app.sweeps.stuck))) := by
  unfold sort
  by_cases h : app.sweeps.stuck = []
  · rw [if_pos h]
    simp only [sweeps] at h
    simp [h, swept, sweeps]
  · rw [if_neg h]
    simp only [sweeps] at h
    simp [h, swept, sweeps]

/-- The sorter only changes the order. -/
theorem packages_sort (app : Application) : app.sort.value.1.packages = app.packages := by
  rw [sort_value]
  rfl

theorem sweeps_swept (app : Application) : Swept app.dependenciesOf [] app.order app.sweeps :=
  sweepAll_swept DependencyFirst.nil 0 app.order

namespace GraphOK

variable (h : app.GraphOK)

include h

theorem perm_swept : app.swept.order.Perm (List.range app.packages.length) :=
  app.sweeps_swept.perm.trans h.order

theorem mem_swept {p : PackageId} :
    p ∈ app.sweeps.placed ∨ p ∈ app.sweeps.stuck ↔ p < app.packages.length := by
  rw [← List.mem_append, ← List.mem_range]
  exact h.perm_swept.mem_iff

theorem stuck_lt {p : PackageId} (hp : p ∈ app.sweeps.stuck) : p < app.packages.length :=
  h.mem_swept.1 (Or.inr hp)

theorem nodup_stuck : app.sweeps.stuck.Nodup :=
  (List.nodup_append'.1 (h.perm_swept.nodup_iff.2 List.nodup_range)).2.1

/-- The packages that stay are stuck. -/
theorem stuck : app.Stuck app.sweeps.stuck := by
  intro p hp
  obtain ⟨q, hq, hnot⟩ := app.sweeps_swept.blocked p hp
  have hlt : q < app.packages.length := h.lt_of_dependsOn hq
  exact ⟨q, (h.mem_swept.2 hlt).resolve_left hnot, hq⟩

/-- **The packages that stay are those from which a cycle can be reached.** -/
theorem mem_stuck_iff {p : PackageId} : p ∈ app.sweeps.stuck ↔ app.ReachesCycle p := by
  constructor
  · exact fun hp => h.stuck.reachesCycle hp
  · rintro ⟨q, hpq, hqq⟩
    by_contra hnot
    by_cases hp : p ∈ app.sweeps.placed
    · exact app.sweeps_swept.first.not_cyclic hp hpq hqq
    · -- a number that is no package has no dependency, so it leads nowhere
      have hlt : ¬ p < app.packages.length := fun hlt =>
        (h.mem_swept.2 hlt).elim hp hnot
      rcases reflTransGen_iff_eq_or_transGen.1 hpq with rfl | hpq
      · obtain ⟨r, hr, -⟩ := TransGen.head'_iff.1 hqq
        exact hlt hr.lt
      · obtain ⟨r, hr, -⟩ := TransGen.head'_iff.1 hpq
        exact hlt hr.lt

theorem stuck_eq_nil_iff : app.sweeps.stuck = [] ↔ app.Acyclic := by
  constructor
  · intro hnil p hp
    have hmem := h.mem_stuck_iff.2 ⟨p, ReflTransGen.refl, hp⟩
    rw [hnil] at hmem
    cases hmem
  · intro hacyclic
    rw [List.eq_nil_iff_forall_not_mem]
    intro p hp
    obtain ⟨q, -, hq⟩ := h.mem_stuck_iff.1 hp
    exact hacyclic q hq

end GraphOK

/-- **The sorter succeeds on acyclic graphs and on no others.** Then only the order has changed: it
lists the same packages, and each stands after all it depends on. -/
theorem sort_ok_iff_acyclic (h : app.GraphOK) :
    (app.sort.value.2 = .ok () ↔ app.Acyclic) ∧
      (app.sort.value.2 = .ok () →
        ∃ order, app.sort.value.1 = { app with order := order } ∧
          order.Perm (List.range app.packages.length) ∧
          DependencyFirst app.dependenciesOf order) := by
  have hok : app.sort.value.2 = .ok () ↔ app.sweeps.stuck = [] := by
    rw [sort_value]
    by_cases hnil : app.sweeps.stuck = [] <;> simp [hnil]
  refine ⟨hok.trans h.stuck_eq_nil_iff, ?_⟩
  intro hsort
  have hnil := hok.1 hsort
  have hperm := h.perm_swept
  simp only [swept, hnil, List.append_nil] at hperm
  refine ⟨app.sweeps.placed, ?_, hperm, app.sweeps_swept.first⟩
  rw [sort_value]
  simp [swept, hnil]

/-- Three packages, each listed before those it depends on. -/
def layered : Application where
  packages := [
    { importPath := ascii "top", files := [], dependencies := [1, 2] },
    { importPath := ascii "middle", files := [], dependencies := [2] },
    { importPath := ascii "base", files := [] }]
  order := [0, 1, 2]

theorem sort_layered :
    layered.GraphOK ∧ layered.sort.value.2 = .ok () ∧ layered.Acyclic ∧
      ∃ order, layered.sort.value.1 = { layered with order := order } ∧
        order.Perm (List.range 3) ∧ DependencyFirst layered.dependenciesOf order := by
  have h : layered.GraphOK := ⟨by decide, by decide⟩
  have hsort : layered.sort.value.2 = .ok () := by decide +kernel
  exact ⟨h, hsort, (sort_ok_iff_acyclic h).1.1 hsort, (sort_ok_iff_acyclic h).2 hsort⟩

/-- **A sorted application is left as it is**: if each package stands after all it depends on, the
sorter succeeds and changes nothing. So it comes to the same to sort an acyclic application once or
twice, whatever its order was. -/
theorem sort_sorted :
    (∀ app : Application, DependencyFirst app.dependenciesOf app.order →
      app.sort.value = (app, .ok ())) ∧
    ∀ app : Application, app.GraphOK → app.Acyclic →
      ∃ sorted, app.sort.value = (sorted, .ok ()) ∧ sorted.sort.value = (sorted, .ok ()) := by
  have hsorted : ∀ app : Application, DependencyFirst app.dependenciesOf app.order →
      app.sort.value = (app, .ok ()) := by
    intro app hfirst
    obtain ⟨hplaced, hstuck⟩ := sweepAll_sorted hfirst 0
    rw [sort_value, swept, sweeps, hplaced, hstuck, List.append_nil]
    rfl
  refine ⟨hsorted, ?_⟩
  intro app h hacyclic
  have hnil : app.sweeps.stuck = [] := h.stuck_eq_nil_iff.2 hacyclic
  refine ⟨app.swept, by rw [sort_value, if_pos hnil], hsorted app.swept ?_⟩
  -- the order has changed, but not what packages depend on
  have hfirst : DependencyFirst app.dependenciesOf app.sweeps.placed := app.sweeps_swept.first
  have horder : app.swept.order = app.sweeps.placed := by rw [swept, hnil, List.append_nil]
  rw [horder]
  exact hfirst

/-- The layers in the order that the sorter leaves, and in the order in which they were given. -/
theorem sort_sorted_layered :
    DependencyFirst layered.dependenciesOf [2, 1, 0] ∧
      { layered with order := [2, 1, 0] }.sort.value = ({ layered with order := [2, 1, 0] }, .ok ()) ∧
      layered.GraphOK ∧ layered.Acyclic ∧
      ∃ sorted, layered.sort.value = (sorted, .ok ()) ∧ sorted.sort.value = (sorted, .ok ()) := by
  have hfirst : DependencyFirst layered.dependenciesOf [2, 1, 0] := by decide
  have h : layered.GraphOK := ⟨by decide, by decide⟩
  have hacyclic : layered.Acyclic := by
    intro p hpp
    obtain ⟨q, hpq, -⟩ := TransGen.head'_iff.1 hpp
    have hall : ∀ p < 3, p ∈ [2, 1, 0] := by decide
    exact hfirst.not_cyclic (hall p hpq.lt) .refl hpp
  exact ⟨hfirst, sort_sorted.1 { layered with order := [2, 1, 0] } hfirst, h, hacyclic,
    sort_sorted.2 layered h hacyclic⟩

/-! ### The report of a failure -/

theorem sort_error {e : BuildError} (he : app.sort.value.2 = .error e) :
    app.sweeps.stuck ≠ [] ∧ e = .cyclic (app.swept.cyclePaths app.sweeps.stuck) := by
  rw [sort_value] at he
  by_cases hnil : app.sweeps.stuck = []
  · simp [hnil] at he
  · simp only [if_neg hnil, Except.error.injEq] at he
    exact ⟨hnil, he.symm⟩

/-- The report goes around the cycle and ends at its start again. -/
theorem cyclePaths_eq (ids : List PackageId) :
    app.cyclePaths ids = (app.findCycle ids ++ (app.findCycle ids).take 1).map app.pathOf := by
  rw [List.map_append, List.map_take]
  rfl

/-- The paths that are reported are those of the cycle. -/
theorem mem_cyclePaths {ids : List PackageId} {path : Bytes} :
    path ∈ app.cyclePaths ids ↔ path ∈ (app.findCycle ids).map app.pathOf := by
  rw [cyclePaths_eq, List.map_append, List.mem_append]
  constructor
  · rintro (hpath | hpath)
    · exact hpath
    · exact List.map_subset _ (List.take_subset 1 _) hpath
  · exact Or.inl

/-- What is true of the paths reported for packages that are stuck. -/
structure CycleReport (app : Application) (ids : List PackageId) (report : List Bytes) : Prop where
  length : 2 ≤ report.length
  closed : report.getLast? = report.head?
  nodup : report.dropLast.Nodup
  chain : report.IsChain fun a b => (a, b) ∈ app.edges
  subset : ∀ path ∈ report, path ∈ ids.map app.pathOf
  head : ∀ path ∈ report, (∀ p ∈ ids, path ≤ app.pathOf p) → report.head? = some path

theorem cyclePaths_report (hpaths : app.paths.Nodup) {ids : List PackageId} (hne : ids ≠ [])
    (hids : ∀ p ∈ ids, p < app.packages.length) (hstuck : app.Stuck ids) :
    app.CycleReport ids (app.cyclePaths ids) := by
  obtain ⟨start, tail, hmin, hlasso, hstart⟩ := findCycle_lasso hne hstuck
  have hmem : ∀ p ∈ app.findCycle ids, p ∈ ids := fun p hp =>
    hlasso.subset (List.mem_append_right tail hp)
  have hinj : ∀ p ∈ app.findCycle ids, ∀ q ∈ app.findCycle ids, app.pathOf p = app.pathOf q →
      p = q := fun p hp q hq hpq => pathOf_inj hpaths (hids p (hmem p hp)) (hids q (hmem q hq)) hpq
  have hnodup : (app.findCycle ids).Nodup := (List.nodup_append'.1 hlasso.nodup).2.1
  obtain ⟨c, rest, hc⟩ := List.exists_cons_of_ne_nil hlasso.nonempty
  have hreport : app.cyclePaths ids = (c :: rest).map app.pathOf ++ [app.pathOf c] := by
    rw [cyclePaths_eq, hc]
    simp
  refine ⟨by simp [hreport], ?_, ?_, ?_, ?_, ?_⟩
  · rw [hreport, List.getLast?_concat]
    rfl
  · rw [hreport, List.dropLast_concat, ← hc]
    exact hnodup.map_on hinj
  · rw [cyclePaths_eq, List.isChain_map]
    refine hlasso.isChain_cycle.imp ?_
    intro p q hpq
    exact mem_edges.2 ⟨p, q, hpq, rfl, rfl⟩
  · intro path hpath
    exact List.map_subset app.pathOf hmem (mem_cyclePaths.1 hpath)
  · intro path hpath hle
    obtain ⟨p, hp, rfl⟩ := List.mem_map.1 (mem_cyclePaths.1 hpath)
    -- the path is no greater than the one the walk starts at, and no smaller
    have hstart_mem : start ∈ ids := hlasso.subset (List.mem_of_head? hstart)
    have heq : app.pathOf p = app.pathOf start :=
      List.le_antisymm (hle start hstart_mem) (hmin p (hmem p hp))
    obtain rfl := pathOf_inj hpaths (hids p (hmem p hp)) (hids start hstart_mem) heq
    have hhead := hlasso.head_cycle hstart hp
    rw [hc] at hhead
    obtain rfl : c = p := by simpa using hhead
    simp [hreport]

/-- **A failure reports a cycle.** Its paths form a walk along dependencies that ends where it
starts and meets no path twice on the way. The order that is left has first packages that stand
after all they depend on, and depend on no others, then exactly those from which a cycle can be
reached; the cycle is among these, and it starts at their smallest path if that is on it. -/
theorem sort_error_cycle (h : app.GraphOK) (hpaths : app.paths.Nodup) {e : BuildError}
    (he : app.sort.value.2 = .error e) :
    e = .cyclic e.cycle ∧ 2 ≤ e.cycle.length ∧ e.cycle.getLast? = e.cycle.head? ∧
      e.cycle.dropLast.Nodup ∧ e.cycle.IsChain (fun a b => (a, b) ∈ app.edges) ∧
      ∃ placed stuck, app.sort.value.1 = { app with order := placed ++ stuck } ∧
        (placed ++ stuck).Perm (List.range app.packages.length) ∧
        DependencyFirst app.dependenciesOf placed ∧
        (∀ p ∈ placed, ∀ q, app.DependsOn p q → q ∈ placed) ∧
        (∀ p, p ∈ stuck ↔ app.ReachesCycle p) ∧
        (∀ path ∈ e.cycle, path ∈ stuck.map app.pathOf) ∧
        ∀ path ∈ e.cycle, (∀ p ∈ stuck, path ≤ app.pathOf p) → e.cycle.head? = some path := by
  obtain ⟨hne, rfl⟩ := sort_error he
  -- the order has changed, but neither the packages nor what they depend on
  have hpaths' : app.swept.paths.Nodup := hpaths
  have hstuck : app.swept.Stuck app.sweeps.stuck := h.stuck
  have hreport := cyclePaths_report hpaths' hne (fun p => h.stuck_lt) hstuck
  refine ⟨rfl, hreport.length, hreport.closed, hreport.nodup, hreport.chain,
    app.sweeps.placed, app.sweeps.stuck, ?_, h.perm_swept, app.sweeps_swept.first,
    fun p hp q hq => app.sweeps_swept.first.closed hp hq, fun p => h.mem_stuck_iff,
    hreport.subset, hreport.head⟩
  rw [sort_value]
  rfl

/-- Two packages that need each other, one with a smaller path that needs the first of them, and one
that needs none. -/
def tailed : Application where
  packages := [
    { importPath := ascii "b", files := [], dependencies := [1] },
    { importPath := ascii "c", files := [], dependencies := [0] },
    { importPath := ascii "a", files := [], dependencies := [0] },
    { importPath := ascii "d", files := [] }]
  order := [2, 0, 3, 1]

/-- The walk enters the cycle from outside, and what it reports is the cycle alone. -/
theorem sort_tailed :
    tailed.GraphOK ∧ tailed.paths.Nodup ∧
      tailed.sort.value.2 = .error (.cyclic [ascii "b", ascii "c", ascii "b"]) ∧
      [ascii "b", ascii "c", ascii "b"].IsChain (fun a b => (a, b) ∈ tailed.edges) ∧
      ∃ placed stuck, tailed.sort.value.1 = { tailed with order := placed ++ stuck } ∧
        DependencyFirst tailed.dependenciesOf placed ∧
        ∀ p, p ∈ stuck ↔ tailed.ReachesCycle p := by
  have h : tailed.GraphOK := ⟨by decide, by decide⟩
  have hpaths : tailed.paths.Nodup := by decide
  have hsort : tailed.sort.value.2 = .error (.cyclic [ascii "b", ascii "c", ascii "b"]) := by
    decide +kernel
  obtain ⟨-, -, -, -, hchain, placed, stuck, horder, -, hfirst, -, hstuck, -⟩ :=
    sort_error_cycle h hpaths hsort
  exact ⟨h, hpaths, hsort, hchain, placed, stuck, horder, hfirst, hstuck⟩

end BuildOrder.Application
