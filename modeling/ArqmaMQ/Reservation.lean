import Mathlib.Algebra.BigOperators.Fin
import Mathlib.Algebra.Order.BigOperators.Group.Finset

/-! Slots shared by several classes of work. Every class owns a reservation and
all classes share a number of general slots; a class may start beyond its
reservation only while the slots in use are fewer than the general ones. -/

namespace Reservation

open Finset Function

variable {κ : Type*} [Fintype κ] {reserved active : κ → Nat} {general : Nat} {k : κ}

/-- Work running outside the reservations. -/
def excess (reserved active : κ → Nat) : Nat := ∑ k, (active k - reserved k)

def MayStart (reserved active : κ → Nat) (general : Nat) (k : κ) : Prop :=
  active k < reserved k ∨ ∑ k, active k < general

theorem excess_le_sum (reserved active : κ → Nat) : excess reserved active ≤ ∑ k, active k :=
  sum_le_sum fun _ _ => Nat.sub_le _ _

theorem excess_mono {active' : κ → Nat} (h : ∀ k, active' k ≤ active k) :
    excess reserved active' ≤ excess reserved active :=
  sum_le_sum fun k _ => Nat.sub_le_sub_right (h k) _

theorem sum_le_of_excess_le (s : Finset κ) (h : excess reserved active ≤ general) :
    ∑ k ∈ s, active k ≤ general + ∑ k ∈ s, reserved k := by
  have hs : ∑ k ∈ s, (active k - reserved k) ≤ excess reserved active :=
    sum_le_sum_of_subset (subset_univ s)
  have hle : ∑ k ∈ s, active k ≤ ∑ k ∈ s, ((active k - reserved k) + reserved k) :=
    sum_le_sum fun k _ => by omega
  rw [sum_add_distrib] at hle
  omega

variable [DecidableEq κ]

theorem sum_update_add (f : κ → Nat) (k : κ) (n : Nat) :
    ∑ j, update f k n j + f k = ∑ j, f j + n := by
  have he := sum_erase_add univ f (mem_univ k)
  rw [sum_update_of_mem (mem_univ k), sdiff_singleton_eq_erase]
  omega

theorem excess_start_le (h : excess reserved active ≤ general)
    (hk : MayStart reserved active general k) :
    excess reserved (update active k (active k + 1)) ≤ general := by
  rcases hk with hk | hk
  · have he : excess reserved (update active k (active k + 1)) = excess reserved active := by
      apply sum_congr rfl
      intro j _
      by_cases hj : j = k
      · subst hj
        simp only [update_self]
        omega
      · simp only [update_of_ne hj]
    omega
  · have hs := sum_update_add active k (active k + 1)
    have hle := excess_le_sum reserved (update active k (active k + 1))
    omega

theorem others_add_reserved_le (h : excess reserved active ≤ general) (k : κ) :
    ∑ j ∈ univ.erase k, active j + reserved k ≤ general + ∑ j, reserved j := by
  have hs := sum_le_of_excess_le (univ.erase k) h
  have he := sum_erase_add univ reserved (mem_univ k)
  omega

/-- When every slot is in use, no class runs below its reservation. -/
theorem reserved_le_of_full (h : excess reserved active ≤ general)
    (hfull : general + ∑ j, reserved j ≤ ∑ j, active j) (k : κ) : reserved k ≤ active k := by
  have hs := others_add_reserved_le h k
  have he := sum_erase_add univ active (mem_univ k)
  omega

/-- A table that says which class occupies each slot, if any. -/
theorem sum_count_add_count_none (slots : List (Option κ)) :
    ∑ k, slots.count (some k) + slots.count none = slots.length := by
  induction slots with
  | nil => simp
  | cons o slots ih =>
    cases o with
    | none =>
      simp [← ih]
      omega
    | some a =>
      simp only [List.count_cons, sum_add_distrib, List.length_cons, beq_iff_eq,
        Option.some_inj, reduceCtorEq, if_false]
      simp only [sum_ite_eq, mem_univ, if_true]
      omega

end Reservation
