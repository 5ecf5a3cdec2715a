import Mathlib.Data.List.Basic

/-! Records that refer to the elements of a vector by index, and how they are
renumbered when an element is erased. -/

namespace Renumber

/-- The part of a record that holds an index. -/
structure Slot (α : Type*) where
  get : α → Nat
  set : α → Nat → α
  get_set : ∀ a i, get (set a i) = i

/-- The place of the `i`th element once the `k`th is gone. -/
def renumber (k i : Nat) : Option Nat :=
  if i = k then none else some (if k < i then i - 1 else i)

variable {α β γ : Type*} {k i j : Nat}

theorem renumber_eq_none : renumber k i = none ↔ i = k := by
  simp [renumber]

theorem exists_renumber (k j : Nat) : ∃ i, renumber k i = some j := by
  by_cases h : j < k
  · refine ⟨j, ?_⟩
    rw [renumber, if_neg (by omega), if_neg (by omega)]
  · refine ⟨j + 1, ?_⟩
    rw [renumber, if_neg (by omega), if_pos (by omega), Nat.add_sub_cancel]

theorem getElem?_eraseIdx_of_renumber (xs : List β) (h : renumber k i = some j) :
    (xs.eraseIdx k)[j]? = xs[i]? := by
  unfold renumber at h
  split at h
  · cases h
  · rename_i hne
    obtain rfl := Option.some.inj h
    rw [List.getElem?_eraseIdx]
    by_cases hk : k < i
    · rw [if_pos hk, if_neg (by omega), Nat.sub_add_cancel (by omega)]
    · rw [if_neg hk, if_pos (by omega)]

theorem zip_eraseIdx (xs : List β) (ys : List γ) (k : Nat) :
    (xs.eraseIdx k).zip (ys.eraseIdx k) = (xs.zip ys).eraseIdx k := by
  induction k generalizing xs ys with
  | zero => cases xs <;> cases ys <;> simp
  | succ k ih =>
    rcases xs with _ | ⟨x, xs⟩ <;> rcases ys with _ | ⟨y, ys⟩ <;> simp [ih]

theorem filter_eraseIdx {q : β → Bool} {xs : List β} (h : ∀ x, xs[k]? = some x → q x = false) :
    (xs.eraseIdx k).filter q = xs.filter q := by
  induction k generalizing xs with
  | zero =>
    rcases xs with _ | ⟨x, xs⟩
    · rfl
    · simp [h x rfl]
  | succ k ih =>
    rcases xs with _ | ⟨x, xs⟩
    · rfl
    · have hh : (xs.eraseIdx k).filter q = xs.filter q := ih fun y hy => h y (by simpa using hy)
      simp [List.filter_cons, hh]

/-- Drops the records that refer to element `k` and renumbers the others. -/
def update (slot : Slot α) (k : Nat) (c : List α) : List α :=
  c.filterMap fun a => (renumber k (slot.get a)).map (slot.set a)

variable {slot : Slot α} {c : List α}

theorem mem_update {a : α} : a ∈ update slot k c ↔
    ∃ b ∈ c, ∃ j, renumber k (slot.get b) = some j ∧ slot.set b j = a := by
  simp [update, List.mem_filterMap, Option.map_eq_some_iff]

/-- A record that refers to the erased element may be taken out beforehand. -/
theorem update_eraseIdx (slot : Slot α) {rs : List α} {pos : Nat} {a : α}
    (ha : rs[pos]? = some a) :
    update slot (slot.get a) (rs.eraseIdx pos) = update slot (slot.get a) rs := by
  have hsplit : rs = rs.take pos ++ a :: rs.drop (pos + 1) := by
    obtain ⟨hlt, rfl⟩ := List.getElem?_eq_some_iff.mp ha
    simp
  have hgone : renumber (slot.get a) (slot.get a) = none := renumber_eq_none.mpr rfl
  rw [List.eraseIdx_eq_take_drop_succ]
  conv_rhs => rw [hsplit]
  simp only [update, List.filterMap_append, List.filterMap_cons, hgone, Option.map_none]

/-- What is kept of the records apart from their index is what belongs to the
other elements. -/
theorem map_update {f : α → γ} {q : γ → Bool} (hf : ∀ a i, f (slot.set a i) = f a)
    (hq : ∀ a ∈ c, q (f a) = true ↔ slot.get a ≠ k) :
    (update slot k c).map f = (c.map f).filter q := by
  induction c with
  | nil => rfl
  | cons a c ih =>
    have hh := ih fun b hb => hq b (List.mem_cons_of_mem a hb)
    have ha := hq a List.mem_cons_self
    rcases hr : renumber k (slot.get a) with _ | j
    · have he : update slot k (a :: c) = update slot k c := by simp [update, hr]
      have hqa : ¬ q (f a) = true := fun hqa => ha.mp hqa (renumber_eq_none.mp hr)
      rw [he, hh, List.map_cons, List.filter_cons_of_neg hqa]
    · have he : update slot k (a :: c) = slot.set a j :: update slot k c := by simp [update, hr]
      have hne : slot.get a ≠ k := by
        intro hk
        rw [renumber_eq_none.mpr hk] at hr
        cases hr
      rw [he, List.map_cons, List.map_cons, hf, hh, List.filter_cons_of_pos (ha.mpr hne)]

theorem map_update_sublist {f : α → γ} (hf : ∀ a i, f (slot.set a i) = f a) (k : Nat) (c : List α) :
    ((update slot k c).map f).Sublist (c.map f) := by
  induction c with
  | nil => exact List.Sublist.slnil
  | cons a c ih =>
    rcases hr : renumber k (slot.get a) with _ | j
    · have he : update slot k (a :: c) = update slot k c := by simp [update, hr]
      rw [he]
      exact ih.cons _
    · have he : update slot k (a :: c) = slot.set a j :: update slot k c := by simp [update, hr]
      rw [he, List.map_cons, hf]
      exact ih.cons_cons _

/-- The records that are kept, and those that are dropped. -/
theorem perm_update (slot : Slot α) {f : α → γ} (hf : ∀ a i, f (slot.set a i) = f a) (k : Nat)
    (c : List α) :
    (c.map f).Perm ((update slot k c).map f ++ (c.filter (slot.get · = k)).map f) := by
  induction c with
  | nil => exact .nil
  | cons a c ih =>
    rcases hr : renumber k (slot.get a) with _ | j
    · have he : update slot k (a :: c) = update slot k c := by simp [update, hr]
      rw [he, List.filter_cons_of_pos (by simpa using renumber_eq_none.mp hr)]
      exact (ih.cons _).trans List.perm_middle.symm
    · have he : update slot k (a :: c) = slot.set a j :: update slot k c := by simp [update, hr]
      have hne : slot.get a ≠ k := by
        intro hk
        rw [renumber_eq_none.mpr hk] at hr
        cases hr
      rw [he, List.filter_cons_of_neg (by simpa using hne), List.map_cons, List.map_cons, hf]
      exact ih.cons _

/-- Every record refers to the element it belongs to. -/
def Denotes (slot : Slot α) (owner : α → β) (xs : List β) (c : List α) : Prop :=
  ∀ a ∈ c, xs[slot.get a]? = some (owner a)

namespace Denotes

variable {owner : α → β} {xs : List β}

theorem erase (h : Denotes slot owner xs c) (ho : ∀ a i, owner (slot.set a i) = owner a)
    (k : Nat) : Denotes slot owner (xs.eraseIdx k) (update slot k c) := by
  intro a ha
  obtain ⟨b, hb, j, hj, rfl⟩ := mem_update.mp ha
  rw [slot.get_set, ho, getElem?_eraseIdx_of_renumber xs hj]
  exact h b hb

theorem append (h : Denotes slot owner xs c) (ys : List β) :
    Denotes slot owner (xs ++ ys) c := by
  intro a ha
  have hlt := (List.getElem?_eq_some_iff.mp (h a ha)).1
  rw [List.getElem?_append_left hlt]
  exact h a ha

theorem concat (h : Denotes slot owner xs c) {a : α} (ha : slot.get a = xs.length) :
    Denotes slot owner (xs ++ [owner a]) (c ++ [a]) := by
  intro b hb
  rcases List.mem_append.mp hb with hb | hb
  · exact h.append _ b hb
  · obtain rfl := List.mem_singleton.mp hb
    rw [ha, List.getElem?_concat_length]

theorem mono {c' : List α} (h : Denotes slot owner xs c) (hc : c' ⊆ c) :
    Denotes slot owner xs c' := fun a ha => h a (hc ha)

/-- The records of the erased element, if there is one, go. -/
theorem map_update [DecidableEq β] (f : α → γ) (g : γ → β) (h : Denotes slot owner xs c)
    (hn : xs.Nodup) (hf : ∀ a i, f (slot.set a i) = f a) (hg : ∀ a, g (f a) = owner a) (k : Nat) :
    (update slot k c).map f = (c.map f).filter fun b => xs[k]? ≠ some (g b) := by
  refine Renumber.map_update hf fun a ha => ?_
  have hidx := h a ha
  rw [decide_eq_true_iff, hg]
  refine not_congr ⟨fun hk => ?_, fun hi => hi ▸ hidx⟩
  exact (List.getElem?_inj (List.getElem?_eq_some_iff.mp hidx).1 hn).mp (hidx.trans hk.symm)

theorem map_update_of_getElem? [DecidableEq β] (f : α → γ) (g : γ → β)
    (h : Denotes slot owner xs c) (hn : xs.Nodup) (hf : ∀ a i, f (slot.set a i) = f a)
    (hg : ∀ a, g (f a) = owner a) {x : β} (hk : xs[k]? = some x) :
    (update slot k c).map f = (c.map f).filter (g · ≠ x) := by
  rw [h.map_update f g hn hf hg k, hk]
  exact List.filter_congr fun b _ => by simp [eq_comm]

end Denotes

end Renumber
