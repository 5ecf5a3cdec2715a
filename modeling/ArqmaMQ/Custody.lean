import Mathlib.Data.List.Nodup
import Mathlib.Data.List.Perm.Basic
import Mathlib.Logic.Function.Basic

/-! Items that wait in a list until a holder takes them, and leave when the
holder lets go of them. An item is in one place at a time. -/

structure Custody {τ ω : Type*} (waiting : List τ) (holder : ω → Option τ) : Prop where
  nodup : waiting.Nodup
  disjoint : ∀ w t, holder w = some t → t ∉ waiting
  unique : ∀ w w' t, holder w = some t → holder w' = some t → w = w'

namespace Custody

variable {τ ω : Type*} {waiting waiting' : List τ} {holder : ω → Option τ} {t x : τ} {w : ω}

/-- The item is still somewhere. -/
def Live (waiting : List τ) (holder : ω → Option τ) (t : τ) : Prop :=
  t ∈ waiting ∨ ∃ w, holder w = some t

theorem perm (h : Custody waiting holder) (hp : waiting.Perm waiting') :
    Custody waiting' holder :=
  ⟨hp.nodup_iff.mp h.nodup, fun w t hw hmem => h.disjoint w t hw (hp.mem_iff.mpr hmem), h.unique⟩

theorem live_perm (hp : waiting.Perm waiting') :
    Live waiting' holder x ↔ Live waiting holder x := by
  rw [Live, Live, hp.mem_iff]

theorem append (h : Custody waiting holder) {new : List τ} (hnew : new.Nodup)
    (hfresh : ∀ t ∈ new, ¬ Live waiting holder t) : Custody (new ++ waiting) holder := by
  refine ⟨List.nodup_append.mpr ⟨hnew, h.nodup, ?_⟩, ?_, h.unique⟩
  · rintro t ht _ hmem rfl
    exact hfresh t ht (.inl hmem)
  · intro w t hw hmem
    rcases List.mem_append.mp hmem with hmem | hmem
    · exact hfresh t hmem (.inr ⟨w, hw⟩)
    · exact h.disjoint w t hw hmem

theorem live_append {new : List τ} :
    Live (new ++ waiting) holder x ↔ x ∈ new ∨ Live waiting holder x := by
  rw [Live, Live, List.mem_append, or_assoc]

/-- The same items with fewer of them held. -/
theorem mono (h : Custody waiting holder) {holder' : ω → Option τ}
    (hle : ∀ w t, holder' w = some t → holder w = some t) : Custody waiting holder' :=
  ⟨h.nodup, fun w t hw => h.disjoint w t (hle w t hw),
    fun w w' t hw hw' => h.unique w w' t (hle w t hw) (hle w' t hw')⟩

theorem live_mono {holder' : ω → Option τ}
    (hle : ∀ w t, holder' w = some t → holder w = some t) (hx : Live waiting holder' x) :
    Live waiting holder x :=
  hx.imp id fun ⟨w, hw⟩ => ⟨w, hle w x hw⟩

variable [DecidableEq ω]

theorem take (h : Custody (t :: waiting) holder) :
    Custody waiting (Function.update holder w (some t)) := by
  have hnot : t ∉ waiting := (List.nodup_cons.mp h.nodup).1
  have hheld : ∀ w', holder w' ≠ some t := fun w' hw' => h.disjoint w' t hw' (by simp)
  refine ⟨(List.nodup_cons.mp h.nodup).2, ?_, ?_⟩
  · intro w' x hw' hmem
    by_cases hw : w' = w
    · rw [hw, Function.update_self] at hw'
      obtain rfl := Option.some.inj hw'
      exact hnot hmem
    · rw [Function.update_of_ne hw] at hw'
      exact h.disjoint w' x hw' (by simp [hmem])
  · intro w₁ w₂ x h₁ h₂
    by_cases hw₁ : w₁ = w
    · by_cases hw₂ : w₂ = w
      · rw [hw₁, hw₂]
      · rw [hw₁, Function.update_self] at h₁
        rw [Function.update_of_ne hw₂, ← h₁] at h₂
        exact absurd h₂ (hheld w₂)
    · rw [Function.update_of_ne hw₁] at h₁
      by_cases hw₂ : w₂ = w
      · rw [hw₂, Function.update_self] at h₂
        rw [← h₂] at h₁
        exact absurd h₁ (hheld w₁)
      · rw [Function.update_of_ne hw₂] at h₂
        exact h.unique w₁ w₂ x h₁ h₂

/-- Nothing is lost when a free holder takes an item. -/
theorem live_take (hw : holder w = none) :
    Live waiting (Function.update holder w (some t)) x ↔ Live (t :: waiting) holder x := by
  have hex : (∃ w', Function.update holder w (some t) w' = some x) ↔
      x = t ∨ ∃ w', holder w' = some x := by
    refine ⟨?_, ?_⟩
    · rintro ⟨w', hw'⟩
      by_cases he : w' = w
      · rw [he, Function.update_self] at hw'
        exact .inl (Option.some.inj hw').symm
      · rw [Function.update_of_ne he] at hw'
        exact .inr ⟨w', hw'⟩
    · rintro (rfl | ⟨w', hw'⟩)
      · exact ⟨w, Function.update_self ..⟩
      · have hne : w' ≠ w := by
          rintro rfl
          rw [hw] at hw'
          cases hw'
        exact ⟨w', by rw [Function.update_of_ne hne, hw']⟩
  rw [Live, Live, hex, List.mem_cons]
  tauto

theorem update_none_eq_some {w' : ω} (h : Function.update holder w none w' = some x) :
    w' ≠ w ∧ holder w' = some x := by
  by_cases he : w' = w
  · rw [he, Function.update_self] at h
    cases h
  · exact ⟨he, by rwa [Function.update_of_ne he] at h⟩

theorem release (h : Custody waiting holder) : Custody waiting (Function.update holder w none) :=
  h.mono fun _ _ hw => (update_none_eq_some hw).2

/-- An item that is let go of is gone. -/
theorem live_release (h : Custody waiting holder) (hw : holder w = some t) :
    Live waiting (Function.update holder w none) x ↔ Live waiting holder x ∧ x ≠ t := by
  refine ⟨?_, ?_⟩
  · rintro (hmem | ⟨w', hw'⟩)
    · refine ⟨.inl hmem, ?_⟩
      rintro rfl
      exact h.disjoint w x hw hmem
    · obtain ⟨hne, hw'⟩ := update_none_eq_some hw'
      refine ⟨.inr ⟨w', hw'⟩, ?_⟩
      rintro rfl
      exact hne (h.unique w' w x hw' hw)
  · rintro ⟨hmem | ⟨w', hw'⟩, hne⟩
    · exact .inl hmem
    · have hww : w' ≠ w := by
        rintro rfl
        exact hne (Option.some.inj (hw'.symm.trans hw))
      exact .inr ⟨w', by rw [Function.update_of_ne hww, hw']⟩

end Custody
