import Mathlib.Data.List.Nodup

/-! Queues that are served in turn: whoever stands at the front is served and goes
to the back, or wants nothing and leaves. -/

namespace RoundRobin

variable {κ : Type*} [DecidableEq κ] {queue served : List κ} {i j : κ}

/-- Whoever waits has been served `n` times or, further back, once more, and nobody
more often than that. -/
structure Fair (queue served : List κ) : Prop where
  nodup : queue.Nodup
  rounds : ∃ n front back, queue = front ++ back ∧ (∀ k ∈ front, served.count k = n) ∧
    (∀ k ∈ back, served.count k = n + 1) ∧ ∀ k, served.count k ≤ n + 1

theorem fair_nil (h : queue.Nodup) : Fair queue [] :=
  ⟨h, 0, queue, [], by simp, by simp, by simp, by simp⟩

/-- The one at the front has been served least often. -/
theorem Fair.front (h : Fair (i :: queue) served) : ∃ n front back, queue = front ++ back ∧
    served.count i = n ∧ (∀ k ∈ front, served.count k = n) ∧
    (∀ k ∈ back, served.count k = n + 1) ∧ ∀ k, served.count k ≤ n + 1 := by
  obtain ⟨-, n, front, back, heq, hfront, hback, hall⟩ := h
  cases front with
  | nil =>
    -- a new round begins
    have hq : i :: queue = back := by simpa using heq
    refine ⟨n + 1, queue, [], by simp, ?_, ?_, by simp, fun k => Nat.le_succ_of_le (hall k)⟩
    · exact hback i (hq ▸ List.mem_cons_self)
    · intro k hk
      exact hback k (hq ▸ List.mem_cons_of_mem i hk)
  | cons i' front =>
    obtain ⟨rfl, rfl⟩ := List.cons.inj heq
    exact ⟨n, front, back, rfl, hfront i (by simp),
      fun k hk => hfront k (List.mem_cons_of_mem i hk), hback, hall⟩

theorem Fair.leave (h : Fair (i :: queue) served) : Fair queue served := by
  obtain ⟨n, front, back, heq, -, hrest⟩ := h.front
  exact ⟨(List.nodup_cons.mp h.nodup).2, n, front, back, heq, hrest⟩

theorem Fair.serve (h : Fair (i :: queue) served) : Fair (queue ++ [i]) (served ++ [i]) := by
  obtain ⟨n, front, back, rfl, hi, hfront, hback, hall⟩ := h.front
  obtain ⟨hnot, hnodup⟩ := List.nodup_cons.mp h.nodup
  have hother {k : κ} (hk : k ≠ i) : (served ++ [i]).count k = served.count k := by
    simp [Ne.symm hk]
  have hself : (served ++ [i]).count i = n + 1 := by simp [hi]
  refine ⟨?_, n, front, back ++ [i], by simp, fun k hk => ?_, fun k hk => ?_, fun k => ?_⟩
  · exact (List.perm_append_singleton i _).nodup_iff.mpr h.nodup
  · have hne : k ≠ i := fun he => hnot (List.mem_append_left _ (he ▸ hk))
    rw [hother hne, hfront k hk]
  · rcases List.mem_append.mp hk with hk | hk
    · have hne : k ≠ i := fun he => hnot (List.mem_append_right _ (he ▸ hk))
      rw [hother hne, hback k hk]
    · rw [List.mem_singleton.mp hk, hself]
  · by_cases hk : k = i
    · rw [hk]
      exact Nat.le_of_eq hself
    · rw [hother hk]
      exact hall k

/-- Nobody is ahead of one who still waits by more than one turn. -/
theorem Fair.count_le (h : Fair queue served) (hj : j ∈ queue) (i : κ) :
    served.count i ≤ served.count j + 1 := by
  obtain ⟨-, n, front, back, rfl, hfront, hback, hall⟩ := h
  have hi := hall i
  rcases List.mem_append.mp hj with hj | hj
  · rw [hfront j hj]
    exact hi
  · rw [hback j hj]
    omega

end RoundRobin
