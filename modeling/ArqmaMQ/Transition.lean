import Mathlib.Logic.Relation

/-! Machines driven by events: reachable states, runs, and the rule that turns
a property kept by every step into a property of every reachable state. Sequences
of calls that go on after exceptions. -/

namespace Transition

structure Machine (σ ε : Type*) where
  Init : σ → Prop
  step : σ → ε → Option σ

namespace Machine

variable {σ ε : Type*} {M : Machine σ ε}

inductive Reachable (M : Machine σ ε) : σ → Prop
  | init {s : σ} : M.Init s → Reachable M s
  | step {s s' : σ} {e : ε} : Reachable M s → M.step s e = some s' → Reachable M s'

theorem Reachable.invariant {P : σ → Prop} (hinit : ∀ s, M.Init s → P s)
    (hstep : ∀ s e s', P s → M.step s e = some s' → P s') {s : σ} (h : M.Reachable s) : P s := by
  induction h with
  | init h => exact hinit _ h
  | step _ hs ih => exact hstep _ _ _ ih hs

def run (M : Machine σ ε) (s : σ) (es : List ε) : Option σ := es.foldlM M.step s

theorem Reachable.run {s s' : σ} (h : M.Reachable s) {es : List ε} (hr : M.run s es = some s') :
    M.Reachable s' := by
  induction es generalizing s with
  | nil =>
    obtain rfl : s = s' := by simpa [Machine.run] using hr
    exact h
  | cons e es ih =>
    rw [Machine.run, List.foldlM_cons] at hr
    obtain ⟨t, ht, hr⟩ := Option.bind_eq_some_iff.mp hr
    exact ih (h.step ht) hr

/-- Some events lead from one state to the other. -/
def Runs (M : Machine σ ε) (s s' : σ) : Prop := ∃ es, M.run s es = some s'

theorem Runs.refl (M : Machine σ ε) (s : σ) : M.Runs s s := ⟨[], rfl⟩

theorem Runs.single {s s' : σ} {e : ε} (h : M.step s e = some s') : M.Runs s s' :=
  ⟨[e], by simp [Machine.run, h]⟩

theorem Runs.trans {s s' s'' : σ} (h : M.Runs s s') (h' : M.Runs s' s'') : M.Runs s s'' := by
  obtain ⟨es, hes⟩ := h
  obtain ⟨es', hes'⟩ := h'
  refine ⟨es ++ es', ?_⟩
  rw [Machine.run, List.foldlM_append, ← Machine.run, hes]
  exact hes'

theorem Runs.invariant {P : σ → Prop} (hstep : ∀ s e s', P s → M.step s e = some s' → P s')
    {s s' : σ} (h : M.Runs s s') (hs : P s) : P s' := by
  obtain ⟨es, hes⟩ := h
  induction es generalizing s with
  | nil =>
    obtain rfl : s = s' := by simpa [Machine.run] using hes
    exact hs
  | cons e es ih =>
    rw [Machine.run, List.foldlM_cons] at hes
    obtain ⟨t, ht, hes⟩ := Option.bind_eq_some_iff.mp hes
    exact ih (hstep s e t hs ht) hes

theorem Reachable.exists_runs {s : σ} (h : M.Reachable s) : ∃ s₀, M.Init s₀ ∧ M.Runs s₀ s := by
  induction h with
  | init h => exact ⟨_, h, .refl M _⟩
  | step _ hs ih =>
    obtain ⟨s₀, hinit, hruns⟩ := ih
    exact ⟨s₀, hinit, hruns.trans (.single hs)⟩

theorem Reachable.exists_of_run {s : σ} (h : M.Reachable s) (es : List ε) {p : σ → Bool}
    (hr : (M.run s es).any p = true) : ∃ s', M.Reachable s' ∧ p s' = true := by
  obtain ⟨s', hs', hp⟩ := (Option.any_eq_true _ _).mp hr
  exact ⟨s', h.run hs', hp⟩

/-- The runs of `M` in which every event meets a condition on the state it
arrives in. -/
def restrict (M : Machine σ ε) (ok : σ → ε → Prop) [∀ s e, Decidable (ok s e)] : Machine σ ε where
  Init := M.Init
  step s e := if ok s e then M.step s e else none

theorem restrict_step {ok : σ → ε → Prop} [∀ s e, Decidable (ok s e)] {s s' : σ} {e : ε}
    (h : (M.restrict ok).step s e = some s') : ok s e ∧ M.step s e = some s' := by
  by_cases hok : ok s e
  · exact ⟨hok, by simpa [restrict, hok] using h⟩
  · simp [restrict, hok] at h

theorem step_restrict {ok : σ → ε → Prop} [∀ s e, Decidable (ok s e)] {s s' : σ} {e : ε}
    (hok : ok s e) (h : M.step s e = some s') : (M.restrict ok).step s e = some s' := by
  simpa [restrict, hok] using h

theorem Reachable.of_restrict {ok : σ → ε → Prop} [∀ s e, Decidable (ok s e)] {s : σ}
    (h : (M.restrict ok).Reachable s) : M.Reachable s := by
  induction h with
  | init h => exact .init h
  | step _ hs ih => exact ih.step (restrict_step hs).2

end Machine

section Calls

variable {ε σ ι : Type} {α : ι → Type} {call : (i : ι) → EStateM ε σ (α i)} {P Q : ι → σ → Prop}

/-- The state that a call leaves behind, whether it returns or throws. -/
def left {β : Type} : EStateM.Result ε σ β → σ
  | .ok _ s => s
  | .error _ s => s

theorem left_bind_pure {β γ : Type} (x : EStateM ε σ β) (f : β → γ) (s : σ) :
    left ((x >>= fun a => pure (f a)).run s) = left (x.run s) := by
  rw [EStateM.run_bind]
  cases x.run s <;> rfl

/-- Every call of a sequence meets a condition in the state in which it is made.
An exception does not end the sequence. -/
def During (call : (i : ι) → EStateM ε σ (α i)) (P : ι → σ → Prop) : List ι → σ → Prop
  | [], _ => True
  | i :: is, s => P i s ∧ During call P is (left ((call i).run s))

theorem during_congr (h : ∀ i s, P i s ↔ Q i s) (is : List ι) (s : σ) :
    During call P is s ↔ During call Q is s := by
  induction is generalizing s with
  | nil => exact Iff.rfl
  | cons i is ih => exact and_congr (h i s) (ih _)

theorem during_of_invariant {I : σ → Prop} (hP : ∀ i s, I s → P i s)
    (hI : ∀ i s, I s → I (left ((call i).run s))) (is : List ι) {s : σ} (hs : I s) :
    During call P is s := by
  induction is generalizing s with
  | nil => trivial
  | cons i is ih => exact ⟨hP i s hs, ih (hI i s hs)⟩

end Calls

theorem reflTransGen_invariant {σ : Type*} {r : σ → σ → Prop} {P : σ → Prop}
    (hstep : ∀ s t, r s t → P s → P t) {s t : σ} (h : Relation.ReflTransGen r s t) (hs : P s) :
    P t := by
  induction h with
  | refl => exact hs
  | tail _ hr ih => exact hstep _ _ hr ih

end Transition
