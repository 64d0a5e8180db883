import BuildOrder.Stdlib
import Mathlib.Data.Finset.Card
import Mathlib.Data.List.Basic

/-!
# Answers kept in a memory

An oracle need not answer alike each time it is asked: its answer to a question may depend on how
many it was asked before. A memory asks it once about each path and stays with the answer.

* `Stdlib.Memory.askVia`: a question through the memory where asking the oracle is an action, so
  that what is asked can be recorded.
* `Stdlib.Memory.Kept`: what a memory holds after some questions, and what its oracle was asked.
* `Stdlib.Memory.askAll_spec`: **each answer is the oracle's first about the path**, it is asked
  once about each path, and the counts of the memory say so.
-/

namespace BuildOrder.Stdlib.Memory

/-! ### Questions that act -/

section Action

variable {M : Type → Type} [Monad M]

/-- A question through the memory to an oracle that acts when it is asked. -/
def askVia (inner : Bytes → M Bool) (m : Memory) (path : Bytes) : M (Bool × Memory) :=
  match m.answers.lookup path with
  | some answer => return (answer, { m with hits := m.hits + 1 })
  | none => do
    let answer ← inner path
    return (answer, { m with answers := (path, answer) :: m.answers, misses := m.misses + 1 })

/-- Questions one after the other, to an oracle that acts when it is asked. -/
def askAllVia (inner : Bytes → M Bool) (m : Memory) : List Bytes → M (List Bool × Memory)
  | [] => return ([], m)
  | path :: rest => do
    let (answer, m) ← m.askVia inner path
    let (answers, m) ← askAllVia inner m rest
    return (answer :: answers, m)

end Action

/-- Questions one after the other: the answers, and the memory after them. -/
def askAll (inner : Nat → Bytes → Bool) (m : Memory) : List Bytes → List Bool × Memory
  | [] => ([], m)
  | path :: rest =>
    let (answer, m) := m.ask inner path
    let (answers, m) := askAll inner m rest
    (answer :: answers, m)

/-- An oracle that records what it is asked, and is given the number of questions before. -/
def recorded (inner : Nat → Bytes → Bool) (path : Bytes) : StateM (List Bytes) Bool :=
  fun calls => (inner calls.length path, calls ++ [path])

/-- The oracle's answer when a path is first asked about: by then it was asked about each of the
paths before. -/
def firstAnswer (inner : Nat → Bytes → Bool) (paths : List Bytes) (path : Bytes) : Bool :=
  inner (paths.takeWhile (· != path)).toFinset.card path

variable {inner : Nat → Bytes → Bool} {past paths calls : List Bytes} {path : Bytes} {m : Memory}

/-- Once a path was asked about, later questions do not matter to its first answer. -/
theorem firstAnswer_append (h : path ∈ past) (paths : List Bytes) :
    firstAnswer inner (past ++ paths) path = firstAnswer inner past path := by
  have hstop : ¬ (past.takeWhile (· != path)).length = past.length := by
    intro hlength
    have hall : (past.takeWhile (· != path)).all (· != path) = true := List.all_takeWhile
    rw [(List.takeWhile_sublist _).eq_of_length hlength] at hall
    simpa using List.all_eq_true.1 hall path h
  rw [firstAnswer, List.takeWhile_append, if_neg hstop, firstAnswer]

theorem firstAnswer_concat (h : path ∉ past) :
    firstAnswer inner (past ++ [path]) path = inner past.toFinset.card path := by
  have hpast : ∀ other ∈ past, (other != path) = true := by
    intro other hother
    exact bne_iff_ne.2 fun heq => h (heq ▸ hother)
  have hpath : ([path] : List Bytes).takeWhile (· != path) = [] := by simp
  rw [firstAnswer, List.takeWhile_append_of_pos hpast, hpath, List.append_nil]

/-! ### What is kept -/

/-- A memory after questions about the paths in `past`, and what its oracle was asked by then. -/
structure Kept (inner : Nat → Bytes → Bool) (past : List Bytes) (m : Memory) (calls : List Bytes) :
    Prop where
  paths_eq : m.answers.map Prod.fst = calls.reverse
  lookup_eq : ∀ path, m.answers.lookup path =
    if path ∈ past then some (firstAnswer inner past path) else none
  nodup : calls.Nodup
  mem_iff : ∀ path, path ∈ calls ↔ path ∈ past
  misses_eq : m.misses = calls.length
  total : m.hits + m.misses = past.length

namespace Kept

theorem start : Kept inner [] {} [] where
  paths_eq := rfl
  lookup_eq _ := rfl
  nodup := List.nodup_nil
  mem_iff _ := Iff.rfl
  misses_eq := rfl
  total := rfl

/-- As many paths were asked about as the oracle was asked. -/
theorem card_eq (h : Kept inner past m calls) : past.toFinset.card = calls.length := by
  have hsame : past.toFinset = calls.toFinset := by
    ext path
    rw [List.mem_toFinset, List.mem_toFinset, h.mem_iff]
  rw [hsame, List.toFinset_card_of_nodup h.nodup]

theorem count_eq (h : Kept inner past m calls) (path : Bytes) :
    calls.count path = if path ∈ past then 1 else 0 := by
  rw [h.nodup.count]
  exact if_congr (h.mem_iff path) rfl rfl

/-- **A question from memory**: the oracle is not asked. -/
theorem hit (h : Kept inner past m calls) (hpath : path ∈ past) :
    (m.askVia (recorded inner) path).run calls = (m.ask inner path, calls) ∧
      (m.ask inner path).1 = firstAnswer inner past path ∧
      Kept inner (past ++ [path]) (m.ask inner path).2 calls := by
  have hlookup : m.answers.lookup path = some (firstAnswer inner past path) := by
    rw [h.lookup_eq, if_pos hpath]
  have hmem : ∀ other, other ∈ past ++ [path] ↔ other ∈ past := by
    intro other
    rw [List.mem_append, List.mem_singleton, or_iff_left_of_imp]
    rintro rfl
    exact hpath
  unfold askVia ask
  rw [hlookup]
  refine ⟨rfl, rfl, { h with lookup_eq := ?_, mem_iff := ?_, total := ?_ }⟩
  · intro other
    simp only [h.lookup_eq, hmem]
    split
    · rename_i hother
      rw [firstAnswer_append hother]
    · rfl
  · intro other
    rw [h.mem_iff, hmem]
  · have := h.total
    simp only [List.length_append, List.length_singleton]
    omega

/-- **A new question**: the oracle is asked, and its answer is kept. -/
theorem miss (h : Kept inner past m calls) (hpath : path ∉ past) :
    (m.askVia (recorded inner) path).run calls = (m.ask inner path, calls ++ [path]) ∧
      (m.ask inner path).1 = firstAnswer inner (past ++ [path]) path ∧
      Kept inner (past ++ [path]) (m.ask inner path).2 (calls ++ [path]) := by
  have hlookup : m.answers.lookup path = none := by rw [h.lookup_eq, if_neg hpath]
  have hanswer : firstAnswer inner (past ++ [path]) path = inner m.misses path := by
    rw [firstAnswer_concat hpath, h.card_eq, h.misses_eq]
  unfold askVia ask
  rw [hlookup]
  refine ⟨?_, hanswer.symm, ?_, ?_, ?_, ?_, ?_, ?_⟩
  · rw [h.misses_eq]
    rfl
  · simp [h.paths_eq]
  · intro other
    rw [List.lookup_cons, h.lookup_eq]
    by_cases hother : other = path
    · subst hother
      simp [hanswer]
    · have hne : (other == path) = false := beq_false_of_ne hother
      by_cases hold : other ∈ past
      · simp [hne, hold, firstAnswer_append hold]
      · simp [hne, hold, hother]
  · rw [List.nodup_append]
    refine ⟨h.nodup, List.nodup_singleton path, ?_⟩
    rintro other hother _ (_ | ⟨_, ⟨⟩⟩) rfl
    exact hpath ((h.mem_iff other).1 hother)
  · intro other
    rw [List.mem_append, List.mem_append, h.mem_iff]
  · simp [h.misses_eq]
  · have := h.total
    simp only [List.length_append, List.length_singleton]
    omega

/-- A question, from memory or new. -/
theorem ask (h : Kept inner past m calls) (path : Bytes) :
    ∃ later, (m.askVia (recorded inner) path).run calls = (m.ask inner path, later) ∧
      (m.ask inner path).1 = firstAnswer inner (past ++ [path]) path ∧
      Kept inner (past ++ [path]) (m.ask inner path).2 later := by
  by_cases hpath : path ∈ past
  · obtain ⟨hrun, hanswer, hkept⟩ := h.hit hpath
    exact ⟨calls, hrun, hanswer.trans (firstAnswer_append hpath [path]).symm, hkept⟩
  · exact ⟨calls ++ [path], h.miss hpath⟩

/-- **Questions one after the other**, from any memory on. -/
theorem askAll (h : Kept inner past m calls) (paths : List Bytes) :
    ∃ later, (m.askAllVia (recorded inner) paths).run calls = (m.askAll inner paths, later) ∧
      (m.askAll inner paths).1 = paths.map (firstAnswer inner (past ++ paths)) ∧
      Kept inner (past ++ paths) (m.askAll inner paths).2 later := by
  induction paths generalizing past m calls with
  | nil => exact ⟨calls, rfl, rfl, by rwa [List.append_nil]⟩
  | cons path rest ih =>
    obtain ⟨next, hrun, hanswer, hnext⟩ := h.ask path
    obtain ⟨later, hruns, hanswers, hlater⟩ := ih hnext
    have hsplit : past ++ path :: rest = past ++ [path] ++ rest := by simp
    have hpath : path ∈ past ++ [path] := List.mem_append_right _ List.mem_cons_self
    refine ⟨later, ?_, ?_, ?_⟩
    · rw [askAllVia, StateT.run_bind, hrun]
      exact congrArg (fun r => (((m.ask inner path).1 :: r.1.1, r.1.2), r.2)) hruns
    · rw [hsplit, List.map_cons, firstAnswer_append hpath, ← hanswer, ← hanswers]
      rfl
    · rw [hsplit]
      exact hlater

end Kept

/-- **The oracle is asked once about each path**, and each answer is the one it gave then, whatever
it would answer later. The memory has an entry for each path, and counts the questions to the oracle
and the others. -/
theorem askAll_spec (inner : Nat → Bytes → Bool) (paths : List Bytes) :
    let (answers, m) := askAll inner {} paths
    (∃ calls, (askAllVia (recorded inner) {} paths).run [] = (askAll inner {} paths, calls) ∧
      ∀ path, calls.count path = if path ∈ paths then 1 else 0) ∧
    answers = paths.map (firstAnswer inner paths) ∧
    (m.answers.map Prod.fst).Nodup ∧ m.answers.length = m.misses ∧
    m.misses = paths.toFinset.card ∧ m.hits + m.misses = paths.length := by
  have hstart : Kept inner [] {} [] := Kept.start
  obtain ⟨calls, hrun, hanswers, hkept⟩ := hstart.askAll paths
  rw [List.nil_append] at hanswers hkept
  refine ⟨⟨calls, hrun, hkept.count_eq⟩, hanswers, ?_, ?_, ?_, hkept.total⟩
  · rw [hkept.paths_eq]
    exact List.nodup_reverse.2 hkept.nodup
  · have hlength := congrArg List.length hkept.paths_eq
    rw [List.length_map, List.length_reverse] at hlength
    rw [hlength, hkept.misses_eq]
  · rw [hkept.card_eq, hkept.misses_eq]

/-- An oracle that changes its mind. -/
example : askAll (fun n _ => n % 2 == 0) {} [ascii "fmt", ascii "os", ascii "os", ascii "fmt"] =
    ([true, false, false, true],
      { answers := [(ascii "os", false), (ascii "fmt", true)], hits := 2, misses := 2 }) := by
  decide

end BuildOrder.Stdlib.Memory
