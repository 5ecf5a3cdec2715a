import ArqmaMQ.Transition

/-! Termination of machines by a variant: a number that the events of interest
use up. -/

namespace Transition.Machine

variable {σ ε : Type*} {M : Machine σ ε} {I goal : σ → Prop} {ok : ε → Prop} {s s' s'' : σ}
  {es es' : List ε}

theorem run_append (h : M.run s es = some s') : M.run s (es ++ es') = M.run s' es' := by
  rw [run, List.foldlM_append, ← run, h]
  rfl

/-- A run of events that meet a condition. -/
def RunsBy (M : Machine σ ε) (ok : ε → Prop) (s s' : σ) : Prop :=
  ∃ es, (∀ e ∈ es, ok e) ∧ M.run s es = some s'

theorem RunsBy.refl (M : Machine σ ε) (ok : ε → Prop) (s : σ) : M.RunsBy ok s s :=
  ⟨[], by simp, rfl⟩

theorem RunsBy.single {e : ε} (he : ok e) (h : M.step s e = some s') : M.RunsBy ok s s' :=
  ⟨[e], by simpa using he, by simp [run, h]⟩

theorem RunsBy.trans (h : M.RunsBy ok s s') (h' : M.RunsBy ok s' s'') : M.RunsBy ok s s'' := by
  obtain ⟨es, hes, hr⟩ := h
  obtain ⟨es', hes', hr'⟩ := h'
  refine ⟨es ++ es', ?_, (run_append hr).trans hr'⟩
  intro e he
  exact (List.mem_append.mp he).elim (hes e) (hes' e)

/-- Events that meet a condition in every state may occur in restricted runs. -/
theorem RunsBy.reachable_restrict {fits : σ → ε → Prop} [∀ s e, Decidable (fits s e)]
    (hok : ∀ s e, ok e → fits s e) (hr : M.RunsBy ok s s') (h : (M.restrict fits).Reachable s) :
    (M.restrict fits).Reachable s' := by
  obtain ⟨es, hes, hr⟩ := hr
  induction es generalizing s with
  | nil =>
    obtain rfl : s = s' := by simpa [run] using hr
    exact h
  | cons e es ih =>
    rw [run, List.foldlM_cons] at hr
    obtain ⟨t, ht, hr⟩ := Option.bind_eq_some_iff.mp hr
    have hstep := step_restrict (hok s e (hes e (by simp))) ht
    exact ih (h.step hstep) (fun e he => hes e (List.mem_cons_of_mem _ he)) hr

/-- Where the goal is not reached, some run makes the variant smaller; so the
goal is reached in the end. -/
theorem reaches_of_variant (v : σ → Nat)
    (hstep : ∀ s, I s → ¬ goal s → ∃ s', M.RunsBy ok s s' ∧ I s' ∧ v s' < v s) (hs : I s) :
    ∃ s', M.RunsBy ok s s' ∧ I s' ∧ goal s' := by
  induction hv : v s using Nat.strongRecOn generalizing s with
  | ind n ih =>
    by_cases hg : goal s
    · exact ⟨s, .refl M ok s, hs, hg⟩
    · obtain ⟨s₁, hr, hs₁, hlt⟩ := hstep s hs hg
      obtain ⟨s', hr', hg'⟩ := ih (v s₁) (hv ▸ hlt) hs₁ rfl
      exact ⟨s', hr.trans hr', hg'⟩

/-- Every costly event uses up some of the variant; so no run has more of them. -/
theorem countP_le_of_variant (v : σ → Nat) (cost : ε → Bool)
    (hstep : ∀ s e s', I s → ok e → M.step s e = some s' →
      I s' ∧ v s' + (if cost e then 1 else 0) ≤ v s)
    (hs : I s) (hok : ∀ e ∈ es, ok e) (hr : M.run s es = some s') : es.countP cost ≤ v s := by
  suffices h : v s' + es.countP cost ≤ v s from Nat.le_trans (Nat.le_add_left _ _) h
  induction es generalizing s with
  | nil =>
    obtain rfl : s = s' := by simpa [run] using hr
    exact Nat.le_refl _
  | cons e es ih =>
    rw [run, List.foldlM_cons] at hr
    obtain ⟨t, ht, hr⟩ := Option.bind_eq_some_iff.mp hr
    obtain ⟨hI, hv⟩ := hstep s e t hs (hok e (by simp)) ht
    have hrest := ih hI (fun e he => hok e (List.mem_cons_of_mem _ he)) hr
    rw [List.countP_cons]
    omega

end Transition.Machine
