import ArqmaMQ.BtTyped

/-! Taking integers out of dynamic values: `get_int`. -/

namespace ArqmaMQ

inductive GetError
  /-- `std::overflow_error` -/
  | overflow (what : String)
  /-- `std::invalid_argument` -/
  | invalidArgument (what : String)
  /-- `std::bad_variant_access` -/
  | badVariantAccess
  /-- The iterator of a list was dereferenced at its end. -/
  | pastEnd
  /-- The template has no instance for the type. -/
  | illFormed
  deriving DecidableEq, Repr

namespace IntType

def bits : IntType → Nat
  | .int8 | .uint8 | .bool => 8
  | .int16 | .uint16 => 16
  | .int | .uint32 => 32
  | .int64 | .longLong | .uint64 | .unsignedLongLong => 64

/-- `static_cast<T>(i)`. -/
def cast (t : IntType) (i : Int) : Int :=
  if t = .bool then if i = 0 then 0 else 1
  else if t.isSigned then i.bmod (2 ^ t.bits)
  else i % 2 ^ t.bits

theorem cast_of_holds {t : IntType} {i : Int} (h : t.Holds i) : t.cast i = i := by
  obtain ⟨hmin, hmax⟩ := h
  have hsigned : t.isSigned = true → -((2 ^ t.bits : Nat) : Int) ≤ t.min * 2 ∧
      (t.max : Int) * 2 < (2 ^ t.bits : Nat) := by
    cases t <;> decide
  have hunsigned : t.isSigned = false → t.min = 0 ∧ (t.max : Int) < 2 ^ t.bits := by
    cases t <;> decide
  rw [cast]
  split_ifs with hbool hzero hs
  · exact hzero.symm
  · subst hbool
    rw [IntType.min] at hmin
    rw [IntType.max] at hmax
    omega
  · have := hsigned hs
    exact Int.bmod_eq_of_le_mul_two (by omega) (by omega)
  · have := hunsigned (Bool.eq_false_iff.mpr hs)
    exact Int.emod_eq_of_lt (by omega) (by omega)

end IntType

/-- `get_int<T>`. The limits of `T` are cast to the type of the alternative
before they are compared. -/
def getInt (t : IntType) : BtVariant → Except GetError Int
  | .uint value =>
    if t ≠ .uint64 ∧ UInt64.ofNat t.max < value then
      .error (.overflow
        "Unable to extract integer value: stored value is too large for the requested type")
    else .ok (t.cast value.toNat)
  | .int value =>
    if t ≠ .int64 ∧ (Int64.ofNat t.max < value ∨ value < Int64.ofInt t.min) then
      .error (.overflow
        "Unable to extract integer value: stored value is outside the range of the requested type")
    else .ok (t.cast value.toInt)
  | _ => .error .badVariantAccess

/-- The integer that either alternative stands for. -/
def BtVariant.integer? : BtVariant → Option Int
  | .int i => some i.toInt
  | .uint u => some u.toNat
  | _ => none

/-- The integer is returned where it is in range, and is an overflow otherwise. -/
def GetsExactly (t : IntType) (v : BtVariant) (i : Int) : Prop :=
  (t.Holds i → getInt t v = .ok i) ∧ (¬ t.Holds i → ∃ what, getInt t v = .error (.overflow what))

theorem getInt_uint (t : IntType) (u : UInt64) : GetsExactly t (.uint u) u.toNat := by
  have hmax : (UInt64.ofNat t.max).toNat = t.max :=
    UInt64.toNat_ofNat_of_lt' (by cases t <;> decide)
  have hmin := t.min_le.1
  have hlt := u.toNat_lt
  have hcheck : t ≠ .uint64 ∧ UInt64.ofNat t.max < u ↔ ¬ t.Holds u.toNat := by
    rw [UInt64.lt_iff_toNat_lt, hmax, IntType.Holds]
    by_cases ht : t = .uint64
    · subst ht
      simp only [IntType.max, IntType.min]
      omega
    · simp only [ne_eq, ht, not_false_eq_true, true_and]
      omega
  constructor
  · intro h
    rw [getInt, if_neg (fun hh => hcheck.mp hh h), IntType.cast_of_holds h]
  · intro h
    exact ⟨_, if_pos (hcheck.mpr h)⟩

theorem getInt_int (t : IntType) (ht : t.max < 2 ^ 63) (i : Int64) :
    GetsExactly t (.int i) i.toInt := by
  have hmax : (Int64.ofNat t.max).toInt = t.max := Int64.toInt_ofNat_of_lt ht
  have hmin : (Int64.ofInt t.min).toInt = t.min :=
    Int64.toInt_ofInt_of_le t.min_le.2 (by have := t.min_le.1; omega)
  have hlow := i.le_toInt
  have hhigh := i.toInt_lt
  have hcheck : t ≠ .int64 ∧ (Int64.ofNat t.max < i ∨ i < Int64.ofInt t.min) ↔
      ¬ t.Holds i.toInt := by
    rw [Int64.lt_iff_toInt_lt, Int64.lt_iff_toInt_lt, hmax, hmin, IntType.Holds]
    by_cases ht : t = .int64
    · subst ht
      simp only [IntType.max, IntType.min]
      omega
    · simp only [ne_eq, ht, not_false_eq_true, true_and]
      omega
  constructor
  · intro h
    rw [getInt, if_neg (fun hh => hcheck.mp hh h), IntType.cast_of_holds h]
  · intro h
    exact ⟨_, if_pos (hcheck.mpr h)⟩

/-- For the 64-bit unsigned types the upper limit becomes `-1` by the cast, so
that nothing is below it and at least zero. -/
theorem getInt_int_wide (t : IntType) (ht : t.max = 2 ^ 64 - 1) (i : Int64) :
    ∃ what, getInt t (.int i) = .error (.overflow what) := by
  have hmax : (Int64.ofNat t.max).toInt = -1 := by
    rw [ht]
    decide
  have hmin : (Int64.ofInt t.min).toInt = 0 := by
    cases t <;> first | rfl | exact absurd ht (by decide)
  have hne : t ≠ .int64 := by
    rintro rfl
    exact absurd ht (by decide)
  refine ⟨_, if_pos ⟨hne, ?_⟩⟩
  rw [Int64.lt_iff_toInt_lt, Int64.lt_iff_toInt_lt, hmax, hmin]
  omega

theorem getsExactly_of_not {t : IntType} {v : BtVariant} {i : Int} (hv : v.integer? = some i)
    (h : ¬ (t.max = 2 ^ 64 - 1 ∧ 0 ≤ i ∧ ∃ j, v = .int j)) : GetsExactly t v i := by
  cases v with
  | uint u =>
    obtain rfl := Option.some.inj hv
    exact getInt_uint t u
  | int j =>
    obtain rfl := Option.some.inj hv
    have hmax : t.max = 2 ^ 64 - 1 ∨ t.max < 2 ^ 63 := by cases t <;> decide
    rcases hmax with hmax | hmax
    · have hneg : ¬ 0 ≤ j.toInt := fun hj => h ⟨hmax, hj, j, rfl⟩
      have hmin : t.max = 2 ^ 64 - 1 → t.min = 0 := by cases t <;> decide
      exact ⟨fun hh => absurd (hmin hmax ▸ hh.1) hneg, fun _ => getInt_int_wide t hmax j⟩
    · exact getInt_int t hmax j
  | string s => cases hv
  | stringView s => cases hv
  | list l => cases hv
  | dict d => cases hv

/-- `get_int` is exact but for one combination: a 64-bit unsigned type and an
integer in the `int64_t` alternative that is not negative. -/
theorem getsExactly_iff (t : IntType) (v : BtVariant) (i : Int) (hv : v.integer? = some i) :
    GetsExactly t v i ↔ ¬ (t.max = 2 ^ 64 - 1 ∧ 0 ≤ i ∧ ∃ j, v = .int j) := by
  refine ⟨?_, getsExactly_of_not hv⟩
  rintro h ⟨hmax, hi, j, rfl⟩
  obtain rfl := Option.some.inj hv
  have hmin : t.max = 2 ^ 64 - 1 → t.min = 0 := by cases t <;> decide
  have hholds : t.Holds j.toInt := by
    have := j.toInt_lt
    rw [IntType.Holds, hmin hmax, hmax]
    omega
  obtain ⟨what, hget⟩ := getInt_int_wide t hmax j
  rw [h.1 hholds] at hget
  cases hget

/-- A small integer in the `int64_t` alternative, taken out as `uint8_t`. -/
theorem getsExactly_small : (BtVariant.int 5).integer? = some 5 ∧
    GetsExactly .uint8 (.int 5) 5 :=
  have hv : (BtVariant.int 5).integer? = some 5 := rfl
  ⟨hv, (getsExactly_iff .uint8 (.int 5) 5 hv).mpr fun h => absurd h.1 (by decide)⟩

/-- `get_int<uint64_t>(bt_value{5})` throws. -/
theorem getInt_throws_five : ¬ GetsExactly .uint64 (.int 5) 5 := by
  intro h
  exact absurd (h.1 (by decide)) (by decide)

end ArqmaMQ
