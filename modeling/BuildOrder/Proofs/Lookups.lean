import BuildOrder.Proofs.Search
import Mathlib.Algebra.Ring.Nat
import Mathlib.Data.Set.Finite.List

/-!
# The search for external packages stops

* `ImportPath.finite_isLegal`, `ImportPath.length_shortStrings`: there are finitely many legal paths,
  and how many strings of legal bytes there are.
* `Resolver.Asked`: what every step keeps of the look-ups.
* `Resolver.resolve_lookups`: **each look-up is for another legal path**, so there are no more than
  strings of legal bytes.
-/

namespace BuildOrder

open Relation

namespace ImportPath

theorem length_stringsOfLength (n : Nat) :
    (stringsOfLength n).length = alphabet.length ^ n := by
  induction n with
  | zero => rfl
  | succ n ih =>
    rw [stringsOfLength, List.length_flatMap]
    simp only [List.length_map, List.map_const', List.sum_replicate_nat]
    rw [ih, pow_succ]

/-- The number of strings of legal bytes up to the greatest length. -/
theorem length_shortStrings :
    shortStrings.length = ((List.range (maxLength + 1)).map (alphabet.length ^ ·)).sum := by
  rw [shortStrings, List.length_flatMap]
  simp only [length_stringsOfLength]

/-- **There are finitely many legal paths.** -/
theorem finite_isLegal : {path : Bytes | isLegal path = true}.Finite := by
  obtain ⟨strings, hstrings⟩ : ∃ strings : List Bytes, ∀ path, isLegal path = true → path ∈ strings :=
    ⟨shortStrings, fun _ => mem_shortStrings⟩
  exact (List.finite_toSet strings).subset hstrings

/-- Legal paths, each once, are no more than the strings of legal bytes. -/
theorem length_le_of_nodup {paths : List Bytes} (hnodup : paths.Nodup)
    (hlegal : ∀ path ∈ paths, isLegal path = true) : paths.length ≤ shortStrings.length :=
  (List.subperm_of_subset hnodup fun path hpath => mem_shortStrings (hlegal path hpath)).length_le

end ImportPath

namespace Resolver

variable {s : Resolver} {r : Resolution} {path : Bytes} {x y : Search}

/-- The paths are legal, and none of them is listed twice. -/
structure Distinct (paths : List Bytes) : Prop where
  nodup : paths.Nodup
  legal : ∀ path ∈ paths, ImportPath.isLegal path = true

theorem Distinct.length_le {paths : List Bytes} (h : Distinct paths) :
    paths.length ≤ ((List.range (ImportPath.maxLength + 1)).map
      (ImportPath.alphabet.length ^ ·)).sum := by
  rw [← ImportPath.length_shortStrings]
  exact ImportPath.length_le_of_nodup h.nodup h.legal

/-- What every step keeps of the look-ups: each was for another legal path, which needs no look-up
any more. -/
structure Asked (r : Resolution) : Prop extends Distinct r.lookups where
  settled : ∀ path ∈ r.lookups, r.isSettled path = true

namespace Asked

theorem start (app : Application) (unresolved : List Bytes) : Asked { app, unresolved } :=
  ⟨⟨List.nodup_nil, by simp⟩, by simp⟩

/-- A path that is asked for was not looked up before. -/
theorem lookUp (h : Asked r) (hasks : s.Asks r path) : Distinct (r.lookUp path).lookups := by
  have hnew : path ∉ r.lookups := by
    intro hmem
    have := h.settled path hmem
    rw [hasks.unsettled] at this
    cases this
  refine ⟨List.nodup_append'.2 ⟨h.nodup, List.nodup_singleton path, by simpa using hnew⟩, ?_⟩
  intro other hother
  rcases List.mem_append.1 hother with hother | hother
  · exact h.legal other hother
  · obtain rfl := List.mem_singleton.1 hother
    exact hasks.isLegal

/-- Once a path is looked up it is settled, whether it was found or not. -/
theorem settle (h : Asked r) (hasks : s.Asks r path) {next : Resolution}
    (hlookups : next.lookups = (r.lookUp path).lookups)
    (hsettled : ∀ other, other = path ∨ r.isSettled other = true → next.isSettled other = true) :
    Asked next := by
  refine ⟨hlookups ▸ h.lookUp hasks, ?_⟩
  intro other hother
  rw [hlookups] at hother
  rcases List.mem_append.1 hother with hother | hother
  · exact hsettled other (Or.inr (h.settled other hother))
  · exact hsettled other (Or.inl (List.mem_singleton.1 hother))

end Asked

theorem Step.asked (hstep : s.Step x y) (h : Asked x.reached) : Asked y.reached := by
  cases hstep with
  | next r id queue => exact h
  | skip _ => exact h
  | illegal _ _ _ =>
    refine ⟨h.toDistinct, fun other hother => ?_⟩
    exact Resolution.isSettled_leave.2 (Or.inr (h.settled other hother))
  | missing hasks _ =>
    exact h.settle hasks rfl fun other hother => Resolution.isSettled_leave.2 hother
  | found hasks _ _ =>
    exact h.settle hasks rfl fun other hother => (isSettled_added _).2 hother

/-- What every step keeps, a search keeps that is answered anew at each step. -/
theorem asked_of_steps (hsteps : ReflTransGen AnyStep x y) (h : Asked x.reached) :
    Asked y.reached := by
  induction hsteps with
  | refl => exact h
  | tail _ hstep ih =>
    obtain ⟨s, hstep⟩ := hstep
    exact hstep.asked ih

/-- At the end of a search the look-ups are for distinct legal paths. -/
theorem Ends.distinct {answer : Resolution × Except BuildError Unit} (hends : s.Ends x answer)
    (h : Asked x.reached) : Distinct answer.1.lookups := by
  cases hends with
  | all r => exact h.toDistinct
  | excluded hasks _ _ => exact h.lookUp hasks

/-- **The search stops, and each look-up is for another legal path.** There are finitely many legal
paths. No search goes on for ever, even if workspace, standard library and filter answer anew at
each step; where it ends, no path was looked up twice, each was legal, and there were no more of them
than strings of at most the greatest length over the legal bytes. The search as it is run is a walk
of steps to such an end. -/
theorem resolve_lookups (s : Resolver) (app : Application) :
    {path : Bytes | ImportPath.isLegal path = true}.Finite ∧
      (WellFounded fun y x => AnyStep x y) ∧
      (∀ last answer, ReflTransGen AnyStep ⟨{ app }, app.order, []⟩ last →
        (∃ t : Resolver, t.Ends last answer) →
        Distinct answer.1.lookups ∧ answer.1.lookups.length ≤
          ((List.range (ImportPath.maxLength + 1)).map (ImportPath.alphabet.length ^ ·)).sum) ∧
      ∃ last, ReflTransGen AnyStep ⟨{ app }, app.order, []⟩ last ∧
        s.Ends last (s.resolve app).value := by
  refine ⟨ImportPath.finite_isLegal, anyStep_wellFounded, ?_, ?_⟩
  · rintro last answer hsteps ⟨t, hends⟩
    have hdistinct := hends.distinct (asked_of_steps hsteps (Asked.start app []))
    exact ⟨hdistinct, hdistinct.length_le⟩
  · obtain ⟨last, hsteps, hends⟩ := s.run_steps { app } app.order []
    exact ⟨last, ReflTransGen.mono (fun _ _ hstep => ⟨s, hstep⟩) _ _ hsteps, hends⟩

end Resolver

end BuildOrder
