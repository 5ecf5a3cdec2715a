import Mathlib.Data.List.Basic

/-! Loops that read a buffer from one position on and write it from another. What
such a loop reads is what was in the buffer, or what the loop has written there. -/

namespace InPlace

variable {σ α : Type}

/-- One turn of a loop: an element is read, and one may be written. -/
abbrev Step (σ α : Type) := σ → α → σ × Option α

variable (step : Step σ α)

/-- What the loop writes for an input of its own. -/
def emit : σ → List α → List α
  | _, [] => []
  | s, a :: l => (step s a).2.toList ++ emit (step s a).1 l

/-- The loop on a buffer, with `n` elements left to read. It fails outside of
the buffer. -/
def run : Nat → σ → List α → Nat → Nat → Option (List α × Nat)
  | 0, _, buf, _, out => some (buf, out)
  | n + 1, s, buf, src, out => do
    let a ← buf[src]?
    match (step s a).2 with
    | none => run n (step s a).1 buf (src + 1) out
    | some b =>
      if out < buf.length then run n (step s a).1 (buf.set out b) (src + 1) (out + 1) else none

def reads : Nat → σ → List α → Nat → Nat → List α
  | 0, _, _, _, _ => []
  | n + 1, s, buf, src, out =>
    match buf[src]? with
    | none => []
    | some a =>
      match (step s a).2 with
      | none => a :: reads n (step s a).1 buf (src + 1) out
      | some b => a :: reads n (step s a).1 (buf.set out b) (src + 1) (out + 1)

/-- The buffer with `l` written to it from `out` on. -/
def overwrite (buf : List α) (out : Nat) (l : List α) : List α :=
  buf.take out ++ l ++ buf.drop (out + l.length)

def slice (buf : List α) (src n : Nat) : List α := (buf.drop src).take n

variable {step} {s : σ} {buf l m : List α} {n src out : Nat} {a b : α}

theorem emit_cons_none (h : (step s a).2 = none) :
    emit step s (a :: l) = emit step (step s a).1 l := by
  rw [emit, h, Option.toList_none, List.nil_append]

theorem emit_cons_some (h : (step s a).2 = some b) :
    emit step s (a :: l) = b :: emit step (step s a).1 l := by
  rw [emit, h, Option.toList_some, List.singleton_append]

theorem length_emit_le (s : σ) (l : List α) : (emit step s l).length ≤ l.length := by
  induction l generalizing s with
  | nil => exact Nat.le_refl 0
  | cons a l ih =>
    have hl := ih (step s a).1
    cases h : (step s a).2 with
    | none => rw [emit_cons_none h, List.length_cons]; omega
    | some b => rw [emit_cons_some h, List.length_cons, List.length_cons]; omega

theorem exists_emit_append (s : σ) (l t : List α) :
    ∃ m, emit step s (l ++ t) = emit step s l ++ m := by
  induction l generalizing s with
  | nil => exact ⟨_, rfl⟩
  | cons a l ih =>
    obtain ⟨m, hm⟩ := ih (step s a).1
    exact ⟨m, by rw [List.cons_append, emit, emit, hm, List.append_assoc]⟩

theorem overwrite_nil (buf : List α) (out : Nat) : overwrite buf out [] = buf := by
  rw [overwrite, List.append_nil, List.length_nil, Nat.add_zero, List.take_append_drop]

theorem overwrite_set (hout : out < buf.length) :
    overwrite (buf.set out b) (out + 1) l = overwrite buf out (b :: l) := by
  have htake : (buf.set out b).take (out + 1) = buf.take out ++ [b] := by
    rw [List.take_succ_eq_append_getElem (by rwa [List.length_set]), List.getElem_set_self,
      List.take_set_of_le (Nat.le_refl out)]
  rw [overwrite, overwrite, htake, List.drop_set_of_lt (by omega), List.length_cons,
    Nat.add_right_comm, Nat.add_assoc]
  simp only [List.append_assoc, List.singleton_append]

theorem overwrite_inj (hlen : l.length = m.length)
    (h : overwrite buf out l = overwrite buf out m) : l = m := by
  rw [overwrite, overwrite, List.append_assoc, List.append_assoc] at h
  exact (List.append_inj (List.append_cancel_left h) hlen).1

theorem slice_succ (ha : buf[src]? = some a) :
    slice buf src (n + 1) = a :: slice buf (src + 1) n := by
  obtain ⟨hsrc, rfl⟩ := List.getElem?_eq_some_iff.mp ha
  rw [slice, List.drop_eq_getElem_cons hsrc, List.take_succ_cons, slice]

theorem slice_set_of_lt (h : out < src) : slice (buf.set out b) src n = slice buf src n := by
  rw [slice, List.drop_set_of_lt h, slice]

theorem slice_set_of_le (h : src + n ≤ out) : slice (buf.set out b) src n = slice buf src n := by
  rw [slice, slice, List.take_drop, List.take_drop, List.take_set_of_le h]

section Reads

theorem reads_succ_none (ha : buf[src]? = some a) (h : (step s a).2 = none) :
    reads step (n + 1) s buf src out = a :: reads step n (step s a).1 buf (src + 1) out := by
  rw [reads, ha]
  dsimp only
  rw [h]

theorem reads_succ_some (ha : buf[src]? = some a) (h : (step s a).2 = some b) :
    reads step (n + 1) s buf src out =
      a :: reads step n (step s a).1 (buf.set out b) (src + 1) (out + 1) := by
  rw [reads, ha]
  dsimp only
  rw [h]

theorem length_reads (hn : src + n ≤ buf.length) : (reads step n s buf src out).length = n := by
  induction n generalizing s buf src out with
  | zero => rfl
  | succ n ih =>
    obtain ⟨a, ha⟩ : ∃ a, buf[src]? = some a := ⟨_, List.getElem?_eq_getElem (by omega)⟩
    cases h : (step s a).2 with
    | none => rw [reads_succ_none ha h, List.length_cons, ih (by omega)]
    | some b => rw [reads_succ_some ha h, List.length_cons, ih (by rw [List.length_set]; omega)]

/-- The loop writes what it would write for the elements that it reads. -/
theorem run_eq (hn : src + n ≤ buf.length) : run step n s buf src out =
    let l := emit step s (reads step n s buf src out)
    if out + l.length ≤ buf.length ∨ l = [] then some (overwrite buf out l, out + l.length)
    else none := by
  induction n generalizing s buf src out with
  | zero =>
    dsimp only
    rw [run, reads, emit, if_pos (.inr rfl), overwrite_nil]
    rfl
  | succ n ih =>
    obtain ⟨a, ha⟩ : ∃ a, buf[src]? = some a := ⟨_, List.getElem?_eq_getElem (by omega)⟩
    rw [run, ha, Option.bind_eq_bind, Option.bind_some]
    cases h : (step s a).2 with
    | none => rw [reads_succ_none ha h, emit_cons_none h, ih (by omega)]
    | some b =>
      rw [reads_succ_some ha h, emit_cons_some h]
      dsimp only
      by_cases hout : out < buf.length
      · have hset : src + 1 + n ≤ (buf.set out b).length := by rw [List.length_set]; omega
        rw [if_pos hout, ih hset]
        generalize emit step (step s a).1
          (reads step n (step s a).1 (buf.set out b) (src + 1) (out + 1)) = l
        dsimp only
        rw [overwrite_set hout, List.length_set, List.length_cons, Nat.add_right_comm,
          Nat.add_assoc]
        refine if_congr ?_ rfl rfl
        constructor
        · rintro (hroom | rfl)
          · exact .inl hroom
          · exact .inl hout
        · rintro (hroom | hnil)
          · exact .inl hroom
          · cases hnil
      · rw [if_neg hout, if_neg]
        rintro (hroom | hnil)
        · rw [List.length_cons] at hroom
          omega
        · cases hnil

/-- A loop that writes no further than it has read sees the original buffer. -/
theorem reads_of_le (hn : src + n ≤ buf.length) (hout : out ≤ src) :
    reads step n s buf src out = slice buf src n := by
  induction n generalizing s buf src out with
  | zero => rfl
  | succ n ih =>
    obtain ⟨a, ha⟩ : ∃ a, buf[src]? = some a := ⟨_, List.getElem?_eq_getElem (by omega)⟩
    rw [slice_succ ha]
    cases h : (step s a).2 with
    | none => rw [reads_succ_none ha h, ih (by omega) (by omega)]
    | some b =>
      rw [reads_succ_some ha h, ih (by rw [List.length_set]; omega) (by omega),
        slice_set_of_lt (by omega)]

/-- In front of the first position that is written, too. -/
theorem take_reads (hn : src + n ≤ buf.length) {k : Nat} (hk : k ≤ n) (hout : src + k ≤ out) :
    (reads step n s buf src out).take k = slice buf src k := by
  induction k generalizing s buf src out n with
  | zero => rw [List.take_zero, slice, List.take_zero]
  | succ k ih =>
    obtain ⟨n, rfl⟩ : ∃ m, n = m + 1 := ⟨n - 1, by omega⟩
    obtain ⟨a, ha⟩ : ∃ a, buf[src]? = some a := ⟨_, List.getElem?_eq_getElem (by omega)⟩
    rw [slice_succ ha]
    cases h : (step s a).2 with
    | none =>
      rw [reads_succ_none ha h, List.take_succ_cons, ih (by omega) (by omega) (by omega)]
    | some b =>
      rw [reads_succ_some ha h, List.take_succ_cons,
        ih (by rw [List.length_set]; omega) (by omega) (by omega), slice_set_of_le (by omega)]

/-- At that position the loop reads the first element that it has written. -/
theorem getElem?_reads (hn : src + n ≤ buf.length) {d : Nat} (hd : d < n) (hout : out = src + d)
    (hemit : emit step s (slice buf src d) = b :: l) :
    (reads step n s buf src out)[d]? = some b := by
  induction d generalizing s buf src out n with
  | zero =>
    rw [slice, List.take_zero] at hemit
    cases hemit
  | succ d ih =>
    obtain ⟨n, rfl⟩ : ∃ m, n = m + 1 := ⟨n - 1, by omega⟩
    obtain ⟨a, ha⟩ : ∃ a, buf[src]? = some a := ⟨_, List.getElem?_eq_getElem (by omega)⟩
    rw [slice_succ ha] at hemit
    cases h : (step s a).2 with
    | none =>
      rw [emit_cons_none h] at hemit
      rw [reads_succ_none ha h, List.getElem?_cons_succ]
      exact ih (by omega) (by omega) (by omega) hemit
    | some b' =>
      rw [emit_cons_some h] at hemit
      obtain rfl := (List.cons.inj hemit).1
      have hset : src + 1 + n ≤ (buf.set out b').length := by rw [List.length_set]; omega
      rw [reads_succ_some ha h, List.getElem?_cons_succ,
        ← List.getElem?_take_of_lt (Nat.lt_succ_self d), take_reads hset (by omega) (by omega),
        slice, List.getElem?_take_of_lt (Nat.lt_succ_self d), List.getElem?_drop]
      rw [show src + 1 + d = out by omega, List.getElem?_set_self (by omega)]

end Reads

end InPlace
