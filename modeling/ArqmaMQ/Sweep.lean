import Mathlib.Data.List.Basic

/-! Loops over a container that take entries out as they go. -/

namespace Sweep

variable {σ α : Type*} {item? : σ → Nat → Option α} {visit : Nat → α → σ → Option σ}

/-- The iterator stands at `pos`. A visit either takes the entry there out of
the container, which leaves the iterator at the next one, or moves on. -/
def sweep (item? : σ → Nat → Option α) (visit : Nat → α → σ → Option σ) :
    Nat → Nat → σ → σ
  | 0, _, s => s
  | rounds + 1, pos, s =>
    match item? s pos with
    | none => s
    | some a =>
      match visit pos a s with
      | some s' => sweep item? visit rounds pos s'
      | none => sweep item? visit rounds (pos + 1) s

theorem sweep_invariant {P : σ → Prop}
    (hvisit : ∀ pos a s s', P s → item? s pos = some a → visit pos a s = some s' → P s')
    (rounds pos : Nat) {s : σ} (h : P s) : P (sweep item? visit rounds pos s) := by
  induction rounds generalizing pos s with
  | zero => exact h
  | succ rounds ih =>
    rcases ha : item? s pos with _ | a
    · simpa only [sweep, ha] using h
    · rcases hv : visit pos a s with _ | s'
      · simpa only [sweep, ha, hv] using ih (pos + 1) h
      · simpa only [sweep, ha, hv] using ih pos (hvisit pos a s s' h ha hv)

/-- A sweep whose visits take out the entry they look at, if it is `bad`, and
nothing else. `P` may speak of the entries taken out so far. -/
theorem sweep_filter {β : Type*} {entries : σ → List α} {view : α → β} {bad : β → Bool}
    {P : List β → σ → Prop}
    (hstay : ∀ pos a s, bad (view a) = false → visit pos a s = none)
    (hgo : ∀ pos a s gone, P gone s → (entries s)[pos]? = some a → bad (view a) = true →
      ∃ s', visit pos a s = some s' ∧ P (gone ++ [view a]) s' ∧
        (entries s').map view = ((entries s).map view).eraseIdx pos)
    {rounds : Nat} {pre post gone : List β} {s : σ} (h : P gone s)
    (hs : (entries s).map view = pre ++ post) (hr : post.length ≤ rounds) :
    P (gone ++ post.filter bad)
      (sweep (fun s pos => (entries s)[pos]?) visit rounds pre.length s) := by
  induction rounds generalizing pre post gone s with
  | zero =>
    obtain rfl := List.length_eq_zero_iff.mp (Nat.le_zero.mp hr)
    simpa [sweep] using h
  | succ rounds ih =>
    have hentry : ((entries s)[pre.length]?).map view = post.head? := by
      rw [← List.getElem?_map, hs, List.getElem?_append_right (Nat.le_refl _), Nat.sub_self,
        List.head?_eq_getElem?]
    rcases post with _ | ⟨b, post⟩
    · have hnone : (entries s)[pre.length]? = none := by simpa using hentry
      simpa [sweep, hnone] using h
    · obtain ⟨a, ha, rfl⟩ := Option.map_eq_some_iff.mp hentry
      have hlen : post.length ≤ rounds := Nat.le_of_succ_le_succ hr
      by_cases hbad : bad (view a) = true
      · obtain ⟨s', hv, hP, he⟩ := hgo _ a s gone h ha hbad
        have hs' : (entries s').map view = pre ++ post := by
          rw [he, hs, List.eraseIdx_append_of_length_le (Nat.le_refl _), Nat.sub_self,
            List.eraseIdx_cons_zero]
        simpa [sweep, ha, hv, List.filter_cons_of_pos hbad] using ih hP hs' hlen
      · have hs' : (entries s).map view = (pre ++ [view a]) ++ post := by simpa using hs
        have hv := hstay pre.length a s (Bool.eq_false_iff.mpr hbad)
        have hrest := ih h hs' hlen
        rw [List.length_append, List.length_singleton] at hrest
        simpa only [sweep, ha, hv, List.filter_cons_of_neg hbad] using hrest

/-- The whole container is swept. -/
theorem sweep_all {β : Type*} (entries : σ → List α) (view : α → β) (bad : β → Bool)
    (visit : Nat → α → σ → Option σ) (P : List β → σ → Prop)
    (hstay : ∀ pos a s, bad (view a) = false → visit pos a s = none)
    (hgo : ∀ pos a s gone, P gone s → (entries s)[pos]? = some a → bad (view a) = true →
      ∃ s', visit pos a s = some s' ∧ P (gone ++ [view a]) s' ∧
        (entries s').map view = ((entries s).map view).eraseIdx pos)
    {s : σ} (h : P [] s) :
    P (((entries s).map view).filter bad)
      (sweep (fun s pos => (entries s)[pos]?) visit (entries s).length 0 s) :=
  sweep_filter hstay hgo h (List.nil_append _).symm (Nat.le_of_eq (List.length_map _))

end Sweep
