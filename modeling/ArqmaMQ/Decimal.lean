import Mathlib.Tactic

/-! Decimal numerals as byte strings: the numeral of a natural number and the
value of a digit string read from the left. -/

namespace Decimal

def IsDigit (c : UInt8) : Prop := 48 ≤ c.toNat ∧ c.toNat ≤ 57

instance (c : UInt8) : Decidable (IsDigit c) := inferInstanceAs (Decidable (_ ∧ _))

/-- The decimal numeral of `n`, most significant digit first and without
leading zeros. -/
def numeral (n : Nat) : List UInt8 := (Nat.toDigits 10 n).map Char.toUInt8

def digitValue (c : UInt8) : Nat := c.toNat - 48

/-- The value of a digit string read after a prefix of value `acc`. -/
def valueFrom : Nat → List UInt8 → Nat
  | acc, [] => acc
  | acc, c :: ds => valueFrom (digitValue c + 10 * acc) ds

theorem valueFrom_append (acc : Nat) (ds es : List UInt8) :
    valueFrom acc (ds ++ es) = valueFrom (valueFrom acc ds) es := by
  induction ds generalizing acc with
  | nil => rfl
  | cons c ds ih => simp only [List.cons_append, valueFrom, ih]

theorem le_valueFrom (acc : Nat) (ds : List UInt8) : acc ≤ valueFrom acc ds := by
  induction ds generalizing acc with
  | nil => exact Nat.le_refl _
  | cons c ds ih =>
    have hh := ih (digitValue c + 10 * acc)
    rw [valueFrom]
    omega

theorem toNat_digitChar {d : Nat} (h : d < 10) : (Nat.digitChar d).toUInt8.toNat = 48 + d := by
  interval_cases d <;> decide

theorem digitValue_digitChar {d : Nat} (h : d < 10) :
    digitValue (Nat.digitChar d).toUInt8 = d := by
  rw [digitValue, toNat_digitChar h]
  omega

theorem numeral_of_lt {n : Nat} (h : n < 10) : numeral n = [(Nat.digitChar n).toUInt8] := by
  rw [numeral, Nat.toDigits_of_lt_base h]
  rfl

theorem numeral_of_le {n : Nat} (h : 10 ≤ n) :
    numeral n = numeral (n / 10) ++ [(Nat.digitChar (n % 10)).toUInt8] := by
  rw [numeral, Nat.toDigits_of_base_le (by decide) h, List.map_append]
  rfl

theorem numeral_ne_nil (n : Nat) : numeral n ≠ [] := by
  simp [numeral, Nat.toDigits_ne_nil]

theorem isDigit_of_mem_numeral {n : Nat} {c : UInt8} (h : c ∈ numeral n) : IsDigit c := by
  induction n using Nat.strong_induction_on with
  | _ n ih =>
    by_cases hn : n < 10
    · rw [numeral_of_lt hn, List.mem_singleton] at h
      have hd := toNat_digitChar hn
      rw [h, IsDigit, hd]
      omega
    · rw [numeral_of_le (by omega), List.mem_append, List.mem_singleton] at h
      rcases h with h | h
      · exact ih (n / 10) (by omega) h
      · have hd := toNat_digitChar (Nat.mod_lt n (by decide : 0 < 10))
        have hlt := Nat.mod_lt n (by decide : 0 < 10)
        rw [h, IsDigit, hd]
        omega

/-- Reading a numeral back gives the number it was written for. -/
theorem valueFrom_numeral (n : Nat) : valueFrom 0 (numeral n) = n := by
  induction n using Nat.strong_induction_on with
  | _ n ih =>
    by_cases hn : n < 10
    · rw [numeral_of_lt hn, valueFrom, valueFrom, digitValue_digitChar hn]
      omega
    · rw [numeral_of_le (by omega), valueFrom_append, ih (n / 10) (by omega), valueFrom,
        valueFrom, digitValue_digitChar (Nat.mod_lt n (by decide : 0 < 10))]
      omega

example : numeral 1024 = [49, 48, 50, 52] := by decide

/-- Read digit by digit, the value modulo `m` never falls below what it was one
digit earlier. -/
def Rises (m : Nat) : Nat → List UInt8 → Prop
  | _, [] => True
  | acc, c :: ds =>
    acc % m ≤ (digitValue c + 10 * acc) % m ∧ Rises m (digitValue c + 10 * acc) ds

instance decidableRises (m acc : Nat) (ds : List UInt8) : Decidable (Rises m acc ds) :=
  match ds with
  | [] => isTrue trivial
  | c :: ds =>
    have := decidableRises m (digitValue c + 10 * acc) ds
    inferInstanceAs (Decidable (_ ∧ _))

variable {m acc : Nat} {ds : List UInt8}

theorem Rises.mod_le (h : Rises m acc ds) : acc % m ≤ valueFrom acc ds % m := by
  induction ds generalizing acc with
  | nil => exact Nat.le_refl _
  | cons c ds ih => exact h.1.trans (ih h.2)

theorem rises_of_lt (h : valueFrom acc ds < m) : Rises m acc ds := by
  induction ds generalizing acc with
  | nil => trivial
  | cons c ds ih =>
    have hle := le_valueFrom (digitValue c + 10 * acc) ds
    rw [valueFrom] at h
    refine ⟨?_, ih h⟩
    rw [Nat.mod_eq_of_lt (by omega), Nat.mod_eq_of_lt (by omega)]
    omega

/-- A value that passed `m` unnoticed is at least a tenth of `m` afterwards. -/
theorem Rises.le_mod (h : Rises m acc ds) (hds : ∀ c ∈ ds, IsDigit c) (hacc : acc < m)
    (hm : m ≤ valueFrom acc ds) : m ≤ 10 * (valueFrom acc ds % m) + 9 := by
  induction ds generalizing acc with
  | nil =>
    rw [valueFrom] at hm
    omega
  | cons c ds ih =>
    have hc : digitValue c ≤ 9 := by
      have := (hds c List.mem_cons_self).2
      rw [digitValue]
      omega
    rw [valueFrom] at hm ⊢
    by_cases hlt : digitValue c + 10 * acc < m
    · exact ih h.2 (fun d hd => hds d (List.mem_cons_of_mem c hd)) hlt hm
    · have hstep := h.1
      have hrest := h.2.mod_le
      rw [Nat.mod_eq_of_lt hacc] at hstep
      omega

/-- The digits a byte string starts with. -/
theorem exists_digits (s : List UInt8) :
    ∃ ds rest, s = ds ++ rest ∧ (∀ c ∈ ds, IsDigit c) ∧ ∀ c ∈ rest.head?, ¬ IsDigit c := by
  induction s with
  | nil => exact ⟨[], [], rfl, nofun, nofun⟩
  | cons c s ih =>
    by_cases hc : IsDigit c
    · obtain ⟨ds, rest, rfl, hd, hr⟩ := ih
      exact ⟨c :: ds, rest, rfl, List.forall_mem_cons.mpr ⟨hc, hd⟩, hr⟩
    · exact ⟨[], c :: s, rfl, nofun, by simpa using hc⟩

end Decimal
