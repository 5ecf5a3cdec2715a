import Mathlib.Tactic.Ring
import Mathlib.Data.List.Basic

/-! Digits of fixed widths as runs of bits, most significant bit first. A loop
that regroups bits keeps the bits it has not written yet as a number. -/

namespace BitGroups

/-- The `w` low bits of `n`. -/
def bits : Nat → Nat → List Bool
  | 0, _ => []
  | w + 1, n => bits w (n / 2) ++ [n % 2 == 1]

/-- The bits of a sequence of digits that are `w` bits wide. -/
def spread (w : Nat) (ds : List Nat) : List Bool := ds.flatMap (bits w)

def value (bs : List Bool) : Nat := bs.foldl (fun n b => 2 * n + b.toNat) 0

@[simp] theorem length_bits (w n : Nat) : (bits w n).length = w := by
  induction w generalizing n with
  | zero => rfl
  | succ w ih => simp [bits, ih]

@[simp] theorem spread_nil (w : Nat) : spread w [] = [] := rfl

@[simp] theorem spread_cons (w d : Nat) (ds : List Nat) :
    spread w (d :: ds) = bits w d ++ spread w ds := rfl

theorem length_spread (w : Nat) (ds : List Nat) : (spread w ds).length = w * ds.length := by
  induction ds with
  | nil => rfl
  | cons d ds ih =>
    rw [spread_cons, List.length_append, length_bits, ih, List.length_cons]
    ring

/-- A digit is pushed behind the bits of a number. -/
theorem bits_append (k w r d : Nat) (hd : d < 2 ^ w) :
    bits k r ++ bits w d = bits (k + w) (r * 2 ^ w + d) := by
  induction w generalizing d with
  | zero =>
    obtain rfl : d = 0 := by omega
    simp [bits]
  | succ w ih =>
    have hdiv : (r * 2 ^ (w + 1) + d) / 2 = r * 2 ^ w + d / 2 := by
      rw [Nat.pow_succ, ← Nat.mul_assoc]
      omega
    have hmod : (r * 2 ^ (w + 1) + d) % 2 = d % 2 := by
      rw [Nat.pow_succ, ← Nat.mul_assoc]
      omega
    rw [← Nat.add_assoc, bits, bits, hdiv, hmod, ← List.append_assoc]
    rw [ih (d / 2) (by rw [Nat.pow_succ] at hd; omega)]

/-- The top `v` of the bits of a number are taken off. -/
theorem bits_add (v k r : Nat) : bits (v + k) r = bits v (r / 2 ^ k) ++ bits k (r % 2 ^ k) := by
  rw [bits_append v k _ _ (Nat.mod_lt r (Nat.two_pow_pos k)), Nat.div_add_mod']

section Shifts

variable {k v w r d : Nat}

/-- `r << w | d` -/
theorem bits_shiftLeft_or (hd : d < 2 ^ w) :
    bits k r ++ bits w d = bits (k + w) (r <<< w ||| d) := by
  rw [← Nat.shiftLeft_add_eq_or_of_lt hd, Nat.shiftLeft_eq, bits_append k w r d hd]

theorem shiftLeft_or_lt (hr : r < 2 ^ k) (hd : d < 2 ^ w) : r <<< w ||| d < 2 ^ (k + w) := by
  have hle : (r + 1) * 2 ^ w ≤ 2 ^ k * 2 ^ w := Nat.mul_le_mul_right _ hr
  rw [← Nat.shiftLeft_add_eq_or_of_lt hd, Nat.shiftLeft_eq, Nat.pow_add]
  rw [Nat.add_mul] at hle
  omega

/-- `r >> k` and `r & ((1 << k) - 1)` -/
theorem bits_shiftRight (v k r : Nat) :
    bits (v + k) r = bits v (r >>> k) ++ bits k (r &&& (1 <<< k - 1)) := by
  rw [bits_add, Nat.shiftRight_eq_div_pow, Nat.one_shiftLeft, Nat.and_two_pow_sub_one_eq_mod]

theorem shiftRight_lt (hr : r < 2 ^ (v + k)) : r >>> k < 2 ^ v := by
  rw [Nat.shiftRight_eq_div_pow, Nat.div_lt_iff_lt_mul (Nat.two_pow_pos k), ← Nat.pow_add]
  exact hr

theorem and_lt (k r : Nat) : r &&& (1 <<< k - 1) < 2 ^ k := by
  rw [Nat.one_shiftLeft, Nat.and_two_pow_sub_one_eq_mod]
  exact Nat.mod_lt r (Nat.two_pow_pos k)

end Shifts

theorem value_append (bs cs : List Bool) : value (bs ++ cs) = cs.foldl
    (fun n b => 2 * n + b.toNat) (value bs) := by
  rw [value, value, List.foldl_append]

theorem value_bits (w n : Nat) : value (bits w n) = n % 2 ^ w := by
  induction w generalizing n with
  | zero => simp [bits, value, Nat.mod_one]
  | succ w ih =>
    have hb : (n % 2 == 1).toNat = n % 2 := by
      rcases Nat.mod_two_eq_zero_or_one n with h | h <;> simp [h]
    rw [bits, value_append, ih, List.foldl_cons, List.foldl_nil, hb, Nat.pow_succ, Nat.mul_comm _ 2,
      Nat.mod_mul]
    omega

theorem bits_injective {w a b : Nat} (ha : a < 2 ^ w) (hb : b < 2 ^ w)
    (h : bits w a = bits w b) : a = b := by
  have hv := congrArg value h
  rwa [value_bits, value_bits, Nat.mod_eq_of_lt ha, Nat.mod_eq_of_lt hb] at hv

theorem bits_zero (w : Nat) : bits w 0 = List.replicate w false := by
  induction w with
  | zero => rfl
  | succ w ih => rw [bits, Nat.zero_div, ih, List.replicate_succ']; rfl

/-- Full digits are determined by their bits, whatever shorter run follows. -/
theorem spread_append_inj {w : Nat} {as bs : List Nat} {l m : List Bool}
    (ha : ∀ a ∈ as, a < 2 ^ w) (hb : ∀ b ∈ bs, b < 2 ^ w) (hl : l.length < w) (hm : m.length < w)
    (h : spread w as ++ l = spread w bs ++ m) : as = bs ∧ l = m := by
  induction as generalizing bs with
  | nil =>
    cases bs with
    | nil => exact ⟨rfl, h⟩
    | cons b bs =>
      have hlen := congrArg List.length h
      simp only [spread_nil, List.nil_append, spread_cons, List.length_append, length_bits] at hlen
      omega
  | cons a as ih =>
    cases bs with
    | nil =>
      have hlen := congrArg List.length h
      simp only [spread_nil, List.nil_append, spread_cons, List.length_append, length_bits] at hlen
      omega
    | cons b bs =>
      rw [spread_cons, spread_cons, List.append_assoc, List.append_assoc] at h
      obtain ⟨hhead, htail⟩ := List.append_inj h (by simp)
      obtain ⟨rfl, rfl⟩ := ih (fun x hx => ha x (List.mem_cons_of_mem a hx))
        (fun x hx => hb x (List.mem_cons_of_mem b hx)) htail
      have hab := bits_injective (ha a List.mem_cons_self) (hb b List.mem_cons_self) hhead
      exact ⟨by rw [hab], rfl⟩

/-- The `k` low digits of `n`, each `w` bits wide. -/
def digits (w : Nat) : Nat → Nat → List Nat
  | 0, _ => []
  | k + 1, n => digits w k (n / 2 ^ w) ++ [n % 2 ^ w]

theorem lt_of_mem_digits {w k n d : Nat} (h : d ∈ digits w k n) : d < 2 ^ w := by
  induction k generalizing n with
  | zero => cases h
  | succ k ih =>
    rcases List.mem_append.mp h with h | h
    · exact ih h
    · obtain rfl := List.mem_singleton.mp h
      exact Nat.mod_lt n (Nat.two_pow_pos w)

theorem spread_append (w : Nat) (ds es : List Nat) :
    spread w (ds ++ es) = spread w ds ++ spread w es :=
  List.flatMap_append

theorem spread_digits (w k n : Nat) : spread w (digits w k n) = bits (k * w) n := by
  induction k generalizing n with
  | zero => rw [digits, spread_nil, Nat.zero_mul, bits]
  | succ k ih =>
    rw [digits, spread_append, ih, spread_cons, spread_nil, List.append_nil, Nat.succ_mul, bits_add]

/-- The bits of a byte string. -/
def byteBits (s : List UInt8) : List Bool := spread 8 (s.map UInt8.toNat)

@[simp] theorem byteBits_nil : byteBits [] = [] := rfl

@[simp] theorem byteBits_cons (c : UInt8) (s : List UInt8) :
    byteBits (c :: s) = bits 8 c.toNat ++ byteBits s := rfl

theorem length_byteBits (s : List UInt8) : (byteBits s).length = 8 * s.length := by
  rw [byteBits, length_spread, List.length_map]

theorem byteBits_append_inj {s t : List UInt8} {l m : List Bool} (hl : l.length < 8)
    (hm : m.length < 8) (h : byteBits s ++ l = byteBits t ++ m) : s = t ∧ l = m := by
  have hlt (u : List UInt8) : ∀ n ∈ u.map UInt8.toNat, n < 2 ^ 8 := by
    intro n hn
    obtain ⟨c, -, rfl⟩ := List.mem_map.mp hn
    exact c.toNat_lt
  obtain ⟨hst, rfl⟩ := spread_append_inj (hlt s) (hlt t) hl hm h
  exact ⟨List.map_injective_iff.mpr (fun a b hab => UInt8.toNat_inj.mp hab) hst, rfl⟩

/-- A byte that was cut out of a longer number. -/
theorem bits_ofNat (n : Nat) : bits 8 (UInt8.ofNat n).toNat = bits 8 n := by
  rw [UInt8.toNat_ofNat']
  exact (bits_add 0 8 n).symm

end BitGroups
