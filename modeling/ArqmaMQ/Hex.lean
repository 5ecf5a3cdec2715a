import ArqmaMQ.Bytes
import ArqmaMQ.BitGroups

/-! Hex digits, as the tables of `hex_table` give them. -/

namespace ArqmaMQ

/-- `to_hex_lut`, for a value below 16. -/
def toHexDigit (b : UInt8) : UInt8 := if b < 10 then '0'.toUInt8 + b else 'a'.toUInt8 + (b - 10)

/-- `from_hex_lut`; anything but a digit has the value 0. -/
def fromHexDigit (c : UInt8) : UInt8 :=
  if '0'.toUInt8 ≤ c ∧ c ≤ '9'.toUInt8 then c - '0'.toUInt8
  else if 'a'.toUInt8 ≤ c ∧ c ≤ 'f'.toUInt8 then c - 'a'.toUInt8 + 10
  else if 'A'.toUInt8 ≤ c ∧ c ≤ 'F'.toUInt8 then c - 'A'.toUInt8 + 10
  else 0

/-- `is_hex_digit` -/
def isHexDigit (c : UInt8) : Bool := fromHexDigit c != 0 || c == '0'.toUInt8

def isHex (s : Bytes) : Bool := s.length % 2 == 0 && s.all isHexDigit

def fromHexPair (a b : UInt8) : UInt8 := fromHexDigit a <<< 4 ||| fromHexDigit b

def toHex (s : Bytes) : Bytes :=
  s.flatMap fun (c : UInt8) => [toHexDigit (c >>> 4), toHexDigit (c &&& 0x0f)]

def fromHex : Bytes → Bytes
  | a :: b :: s => fromHexPair a b :: fromHex s
  | _ => []

theorem length_toHex (s : Bytes) : (toHex s).length = 2 * s.length := by
  induction s with
  | nil => rfl
  | cons c s ih =>
    simp only [toHex, List.flatMap_cons, List.length_append, List.length_cons] at ih ⊢
    simp only [ih, List.length_nil]
    omega

theorem fromHexPair_toHexDigit (c : UInt8) :
    fromHexPair (toHexDigit (c >>> 4)) (toHexDigit (c &&& 0x0f)) = c := by
  have h : ∀ n : Fin 256, fromHexPair (toHexDigit (UInt8.ofNat n >>> 4))
      (toHexDigit (UInt8.ofNat n &&& 0x0f)) = UInt8.ofNat n := by decide +kernel
  simpa using h ⟨c.toNat, c.toNat_lt⟩

theorem fromHex_toHex (s : Bytes) : fromHex (toHex s) = s := by
  induction s with
  | nil => rfl
  | cons c s ih =>
    change fromHexPair _ _ :: fromHex (toHex s) = _
    rw [fromHexPair_toHexDigit, ih]

theorem isHex_toHex (s : Bytes) : isHex (toHex s) = true := by
  have hdigit : ∀ n : Fin 256, isHexDigit (toHexDigit (UInt8.ofNat n >>> 4)) = true ∧
      isHexDigit (toHexDigit (UInt8.ofNat n &&& 0x0f)) = true := by decide +kernel
  have hpair (c : UInt8) : isHexDigit (toHexDigit (c >>> 4)) = true ∧
      isHexDigit (toHexDigit (c &&& 0x0f)) = true := by simpa using hdigit ⟨c.toNat, c.toNat_lt⟩
  rw [isHex, length_toHex, Bool.and_eq_true, List.all_eq_true]
  refine ⟨by simp, fun d hd => ?_⟩
  obtain ⟨c, -, hc⟩ := List.mem_flatMap.mp hd
  rcases List.mem_pair.mp hc with rfl | rfl
  · exact (hpair c).1
  · exact (hpair c).2

theorem fromHexDigit_lt (c : UInt8) : (fromHexDigit c).toNat < 2 ^ 4 := by
  have h : ∀ n : Fin 256, (fromHexDigit (UInt8.ofNat n)).toNat < 2 ^ 4 := by decide +kernel
  simpa using h ⟨c.toNat, c.toNat_lt⟩

theorem length_fromHex (s : Bytes) : (fromHex s).length = s.length / 2 := by
  induction s using fromHex.induct with
  | case1 a b s ih => rw [fromHex, List.length_cons, ih, List.length_cons, List.length_cons]; omega
  | case2 s h =>
    rcases s with _ | ⟨a, _ | ⟨b, s⟩⟩
    · rfl
    · simp [fromHex]
    · exact (h a b s rfl).elim

open BitGroups in
/-- Four bits to a digit. -/
theorem byteBits_fromHex {s : Bytes} (hs : s.length % 2 = 0) :
    byteBits (fromHex s) = spread 4 (s.map fun c => (fromHexDigit c).toNat) := by
  induction s using fromHex.induct with
  | case1 a b s ih =>
    have hpair : (fromHexPair a b).toNat =
        (fromHexDigit a).toNat <<< 4 ||| (fromHexDigit b).toNat := by
      have ha : (fromHexDigit a).toNat * 2 ^ 4 < 2 ^ 8 := by
        have := fromHexDigit_lt a
        omega
      rw [fromHexPair, UInt8.toNat_or, UInt8.toNat_shiftLeft, Nat.shiftLeft_eq, Nat.shiftLeft_eq]
      exact congrArg (· ||| _) (Nat.mod_eq_of_lt ha)
    rw [fromHex, byteBits_cons, hpair, ih (by simp at hs; omega), List.map_cons, List.map_cons,
      spread_cons, spread_cons, ← List.append_assoc, bits_shiftLeft_or (fromHexDigit_lt b)]
  | case2 s h =>
    rcases s with _ | ⟨a, _ | ⟨b, s⟩⟩
    · rfl
    · simp at hs
    · exact (h a b s rfl).elim

end ArqmaMQ
