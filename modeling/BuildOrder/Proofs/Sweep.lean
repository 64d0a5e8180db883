import BuildOrder.Order
import Mathlib.Data.List.Basic
import Mathlib.Logic.Relation

/-!
# What sweeps place

* `DependencyFirst`: an order in which each package stands after all it needs. Along needs the
  position falls, so no member of it is on a cycle (`DependencyFirst.not_cyclic`).
* `sweep_idle`: a sweep that places none has passed over packages that each need one not placed.
* `sweepAll_sorted`: **one sweep goes over an order with dependencies first**, and leaves it as it is.
* `sweepAll_swept`: **sweeps keep every package, place dependencies first, and stop only when each
  package that stays needs one that is not placed.**
-/

namespace BuildOrder

open Relation

variable {needs : PackageId → List PackageId} {placed passed ids order : List PackageId}

/-- Each member stands after all it needs, which are members too. -/
def DependencyFirst (needs : PackageId → List PackageId) (order : List PackageId) : Prop :=
  ∀ p ∈ order, ∀ q ∈ needs p, order.idxOf q < order.idxOf p

instance : Decidable (DependencyFirst needs order) :=
  inferInstanceAs (Decidable (∀ p ∈ order, ∀ q ∈ needs p, order.idxOf q < order.idxOf p))

namespace DependencyFirst

theorem nil : DependencyFirst needs [] := by
  intro p hp
  simp at hp

/-- A package may follow once all it needs is there. -/
theorem snoc {id : PackageId} (h : DependencyFirst needs order) (hid : ∀ q ∈ needs id, q ∈ order) :
    DependencyFirst needs (order ++ [id]) := by
  intro p hp q hq
  by_cases hpo : p ∈ order
  · -- what an older member needs is older too, and places in front stay
    have hlt := h p hpo q hq
    have hqo : q ∈ order :=
      List.idxOf_lt_length_iff.1 (Nat.lt_trans hlt (List.idxOf_lt_length_iff.2 hpo))
    rwa [List.idxOf_append_of_mem hqo, List.idxOf_append_of_mem hpo]
  · obtain rfl : p = id := by simpa [hpo] using hp
    have hqo := hid q hq
    rw [List.idxOf_append_of_mem hqo, List.idxOf_append_of_notMem hpo]
    exact Nat.lt_add_right _ (List.idxOf_lt_length_iff.2 hqo)

variable {p q : PackageId}

theorem closed (h : DependencyFirst needs order) (hp : p ∈ order) (hq : q ∈ needs p) :
    q ∈ order :=
  List.idxOf_lt_length_iff.1 (Nat.lt_trans (h p hp q hq) (List.idxOf_lt_length_iff.2 hp))

/-- What is needed by steps stands before, too. -/
theorem idxOf_lt_of_transGen (h : DependencyFirst needs order) (hp : p ∈ order)
    (hpq : TransGen (fun a b => b ∈ needs a) p q) :
    q ∈ order ∧ order.idxOf q < order.idxOf p := by
  induction hpq with
  | single hq => exact ⟨h.closed hp hq, h p hp _ hq⟩
  | tail _ hq ih => exact ⟨h.closed ih.1 hq, Nat.lt_trans (h _ ih.1 _ hq) ih.2⟩

/-- **No cycle is reached from a member.** -/
theorem not_cyclic (h : DependencyFirst needs order) (hp : p ∈ order)
    (hpq : ReflTransGen (fun a b => b ∈ needs a) p q) :
    ¬ TransGen (fun a b => b ∈ needs a) q q := by
  intro hqq
  rcases reflTransGen_iff_eq_or_transGen.1 hpq with rfl | hpq
  · exact Nat.lt_irrefl _ (h.idxOf_lt_of_transGen hp hqq).2
  · exact Nat.lt_irrefl _ (h.idxOf_lt_of_transGen (h.idxOf_lt_of_transGen hp hpq).1 hqq).2

end DependencyFirst

/-! ### One sweep -/

theorem rotate_perm {α : Type} (xs : List α) : (rotate xs).Perm xs := by
  cases xs with
  | nil => rfl
  | cons x xs => exact List.perm_append_singleton x xs

/-- **A sweep keeps every package**, none lost and none doubled. -/
theorem sweep_perm (placed passed ids : List PackageId) :
    ((sweep needs placed passed ids).1 ++ (sweep needs placed passed ids).2).Perm
      (placed ++ passed ++ ids) := by
  induction ids generalizing placed passed with
  | nil => simp [sweep]
  | cons id rest ih =>
    rw [sweep]
    split
    · -- the package goes to the end of those placed, past those passed over
      refine (ih _ _).trans ?_
      rw [List.append_assoc, List.append_assoc, List.append_assoc]
      refine List.Perm.append_left placed ?_
      refine (List.Perm.append_left [id] ((rotate_perm passed).append_right rest)).trans ?_
      show (id :: (passed ++ rest)).Perm (passed ++ id :: rest)
      exact List.perm_middle.symm
    · refine (ih _ _).trans ?_
      simp

theorem placed_sweep (needs : PackageId → List PackageId) (placed passed ids : List PackageId) :
    placed <+: (sweep needs placed passed ids).1 := by
  induction ids generalizing placed passed with
  | nil => simp [sweep]
  | cons id rest ih =>
    rw [sweep]
    split
    · exact (List.prefix_append placed [id]).trans (ih _ _)
    · exact ih _ _

/-- A sweep places dependencies first. -/
theorem sweep_first (h : DependencyFirst needs placed) (passed ids : List PackageId) :
    DependencyFirst needs (sweep needs placed passed ids).1 := by
  induction ids generalizing placed passed with
  | nil => exact h
  | cons id rest ih =>
    rw [sweep]
    split
    · rename_i hready
      refine ih (h.snoc fun q hq => ?_) _
      exact List.contains_iff_mem.1 (List.all_eq_true.1 hready q hq)
    · exact ih h _

/-- **A sweep that places none** has gone through packages that each need one not placed, and
leaves their order as it was. -/
theorem sweep_idle (h : (sweep needs placed passed ids).1.length ≤ placed.length) :
    sweep needs placed passed ids = (placed, passed ++ ids) ∧
      ∀ id ∈ ids, ∃ d ∈ needs id, d ∉ placed := by
  induction ids generalizing passed with
  | nil => simp [sweep]
  | cons id rest ih =>
    rw [sweep] at h ⊢
    split at h
    · -- a package that is placed stays so
      have hle := (placed_sweep needs (placed ++ [id]) (rotate passed) rest).length_le
      simp only [List.length_append, List.length_singleton] at hle
      omega
    · rename_i hready
      rw [if_neg hready]
      obtain ⟨heq, hrest⟩ := ih h
      refine ⟨by simpa using heq, ?_⟩
      intro other hother
      rcases List.mem_cons.1 hother with rfl | hother
      · simpa using hready
      · exact hrest other hother

/-- What comes with its dependencies before it is placed as the sweep comes to it. -/
theorem sweep_sorted (h : DependencyFirst needs (placed ++ ids)) :
    sweep needs placed [] ids = (placed ++ ids, []) := by
  induction ids generalizing placed with
  | nil => simp [sweep]
  | cons id rest ih =>
    -- what the package needs stands before it, so it is among those placed
    have hready : (needs id).all placed.contains = true := by
      rw [List.all_eq_true]
      intro q hq
      rw [List.contains_iff_mem]
      by_contra hnot
      have hlt := h id (by simp) q hq
      rw [List.idxOf_append_of_notMem hnot] at hlt
      by_cases hid : id ∈ placed
      · rw [List.idxOf_append_of_mem hid] at hlt
        have := List.idxOf_lt_length_iff.2 hid
        omega
      · rw [List.idxOf_append_of_notMem hid, List.idxOf_cons_self] at hlt
        omega
    have hrest : DependencyFirst needs ((placed ++ [id]) ++ rest) := by simpa using h
    rw [sweep, if_pos hready, rotate, ih hrest]
    simp

/-! ### All sweeps -/

/-- **One sweep goes over an order with dependencies first.** It places every package where it
stands. -/
theorem sweepAll_sorted (h : DependencyFirst needs order) (rounds : Nat) :
    (sweepAll needs rounds [] order).placed = order ∧
      (sweepAll needs rounds [] order).stuck = [] := by
  by_cases hnil : order = []
  · rw [sweepAll, if_pos hnil]
    exact ⟨hnil.symm, rfl⟩
  · have hsweep : sweep needs [] [] order = (order, []) := sweep_sorted h
    have hpos := List.length_pos_of_ne_nil hnil
    rw [sweepAll, if_neg hnil]
    simp only [hsweep, List.length_nil]
    rw [if_pos hpos, sweepAll, if_pos rfl]
    exact ⟨rfl, rfl⟩

/-- What sweeps over `ids` with some packages `placed` before come to. -/
structure Swept (needs : PackageId → List PackageId) (placed ids : List PackageId) (r : Sweeps) :
    Prop where
  perm : (r.placed ++ r.stuck).Perm (placed ++ ids)
  first : DependencyFirst needs r.placed
  blocked : ∀ id ∈ r.stuck, ∃ d ∈ needs id, d ∉ r.placed

/-- **Sweeps keep every package, place dependencies first, and stop only when each package that
stays needs one that is not placed.** -/
theorem sweepAll_swept (h : DependencyFirst needs placed) (rounds : Nat) (ids : List PackageId) :
    Swept needs placed ids (sweepAll needs rounds placed ids) := by
  induction rounds, placed, ids using sweepAll.induct needs with
  | case1 rounds placed =>
    rw [sweepAll, if_pos rfl]
    exact ⟨by simp, h, by simp⟩
  | case2 rounds placed ids hne next hlt ih =>
    rw [sweepAll, if_neg hne, if_pos hlt]
    have hnext := ih (sweep_first h [] ids)
    refine ⟨hnext.perm.trans ?_, hnext.first, hnext.blocked⟩
    simpa using sweep_perm placed [] ids
  | case3 rounds placed ids hne next hlt =>
    rw [sweepAll, if_neg hne, if_neg hlt]
    -- a sweep that leaves no fewer packages has placed none
    have hlen := sweep_length needs placed [] ids
    have hle : (sweep needs placed [] ids).1.length ≤ placed.length := by
      simp only [next] at hlt
      simp only [List.length_nil, Nat.add_zero] at hlen
      omega
    obtain ⟨heq, hblocked⟩ := sweep_idle hle
    rw [heq]
    exact ⟨by simp, h, hblocked⟩

end BuildOrder
