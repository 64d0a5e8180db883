import BuildOrder.Application
import BuildOrder.BuildError
import BuildOrder.Trace

/-!
# The build order

Packages are put after those they depend on by sweeps over the order: each sweep takes out every
package whose dependencies are all placed, and goes on with the rest. A sweep that takes out none
has found packages that a cycle can be reached from.

* `sweep`: one sweep. A package that is taken out changes places with the first one passed over.
* `Application.sort`: the sorted application, or a cycle beside the order reached.
* `Application.findCycle`: the cycle that a walk along the dependencies runs into.
-/

namespace BuildOrder

/-- Moves the first member to the end. -/
def rotate {α : Type} : List α → List α
  | [] => []
  | x :: xs => xs ++ [x]

theorem length_rotate {α : Type} (xs : List α) : (rotate xs).length = xs.length := by
  cases xs <;> simp [rotate]

/-- Goes through the packages after those placed, and after those passed over in this sweep. The
package that changes places with the first one passed over sends it to the end of these. -/
def sweep (needs : PackageId → List PackageId) (placed passed : List PackageId) :
    List PackageId → List PackageId × List PackageId
  | [] => (placed, passed)
  | id :: rest =>
    if (needs id).all placed.contains then sweep needs (placed ++ [id]) (rotate passed) rest
    else sweep needs placed (passed ++ [id]) rest

/-- A sweep keeps every package. -/
theorem sweep_length (needs : PackageId → List PackageId) (placed passed ids : List PackageId) :
    (sweep needs placed passed ids).1.length + (sweep needs placed passed ids).2.length =
      placed.length + passed.length + ids.length := by
  induction ids generalizing placed passed with
  | nil => simp [sweep]
  | cons id rest ih =>
    rw [sweep]
    split
    · rw [ih]
      simp only [List.length_append, List.length_cons, List.length_nil, length_rotate]
      omega
    · rw [ih]
      simp only [List.length_append, List.length_cons, List.length_nil]
      omega

/-- The packages placed by sweeps, those that stay, and the number of sweeps. -/
structure Sweeps where
  placed : List PackageId
  stuck : List PackageId
  rounds : Nat
deriving DecidableEq, Repr

/-- Sweeps until all packages are placed or a sweep places none. -/
def sweepAll (needs : PackageId → List PackageId) (rounds : Nat) (placed ids : List PackageId) :
    Sweeps :=
  if ids = [] then ⟨placed, [], rounds⟩
  else
    let next := sweep needs placed [] ids
    if next.2.length < ids.length then sweepAll needs (rounds + 1) next.1 next.2
    else ⟨next.1, next.2, rounds + 1⟩
termination_by ids.length

namespace Application

variable (app : Application)

/-- The package of the smallest import path; the first of several. -/
def smallest (first : PackageId) (ids : List PackageId) : PackageId :=
  ids.foldl (fun least id => if app.pathOf id < app.pathOf least then id else least) first

/-- Walks along the dependencies from the end of `walk`, within the packages `left`. The walk
closes at the first dependency that lies on it; else it goes on to the first one that is left. -/
def followCycle (walk left : List PackageId) (here : PackageId) : List PackageId :=
  match (app.dependenciesOf here).find? walk.contains with
  | some back => walk.dropWhile (· != back)
  | none =>
    match _ : (app.dependenciesOf here).find? left.contains with
    | none => walk
    | some next => followCycle (walk ++ [next]) (left.erase next) next
termination_by left.length
decreasing_by
  have here : next ∈ left := List.contains_iff_mem.mp (List.find?_some ‹_›)
  rw [List.length_erase_of_mem here]
  exact Nat.sub_one_lt_of_lt (List.length_pos_of_mem here)

/-- A cycle that can be reached from the smallest of the packages. -/
def findCycle : List PackageId → List PackageId
  | [] => []
  | first :: rest =>
    let start := app.smallest first (first :: rest)
    app.followCycle [start] ((first :: rest).erase start) start

/-- The import paths of a cycle, the first repeated at the end. -/
def cyclePaths (ids : List PackageId) : List Bytes :=
  let paths := (app.findCycle ids).map app.pathOf
  paths ++ paths.take 1

/-- The application with its order sorted as far as that is possible, and the error of a cycle if
it is not. -/
def sort : Traced (Application × Except BuildError Unit) := do
  let sweeps := sweepAll app.dependenciesOf 0 [] app.order
  let sorted := { app with order := sweeps.placed ++ sweeps.stuck }
  if sweeps.stuck ≠ [] then
    return (sorted, .error (.cyclic (sorted.cyclePaths sweeps.stuck)))
  Traced.note .debug "graph" (ascii "sorted " ++ Bytes.decimal sorted.order.length ++
    ascii " package(s) in " ++ Bytes.decimal sweeps.rounds ++ ascii " round(s)")
  return (sorted, .ok ())

end Application

end BuildOrder
