import ArqmaMQ.Bytes
import ArqmaMQ.BitGroups
import Mathlib.Algebra.Order.Floor.Div

/-! base32z: five bits to a character. -/

namespace ArqmaMQ

open BitGroups

/-- `to_b32z_lut` -/
def b32zAlphabet : Bytes := bytes "ybndrfg8ejkmcpqxot1uwisza345h769"

def toUpper (c : UInt8) : UInt8 :=
  if 'a'.toUInt8 ≤ c ∧ c ≤ 'z'.toUInt8 then c - 'a'.toUInt8 + 'A'.toUInt8 else c

/-- `b32z_lut.to_b32z`, for a value below 32. -/
def toB32z (b : Nat) : UInt8 := b32zAlphabet.getD b 0

/-- `b32z_lut.from_b32z`. The table is filled with the position of each
character and of its upper case, and holds 0 for all others. -/
def fromB32z (c : UInt8) : Nat :=
  (b32zAlphabet.findIdx? fun x => x == c || toUpper x == c).getD 0

/-- The loop of `to_base32z`: `bits` bits of the input are held in `r`. -/
def toBase32zLoop : Bytes → Nat → Nat → Bytes
  | [], r, bits => if bits > 0 then [toB32z (r <<< (5 - bits))] else []
  | c :: s, r, bits =>
    let r := r <<< 8 ||| c.toNat
    let bits := bits + 3
    let first := toB32z (r >>> bits)
    let r := r &&& (1 <<< bits - 1)
    if bits ≥ 5 then
      let bits := bits - 5
      first :: toB32z (r >>> bits) :: toBase32zLoop s (r &&& (1 <<< bits - 1)) bits
    else
      first :: toBase32zLoop s r bits

def toBase32z (s : Bytes) : Bytes := toBase32zLoop s 0 0

def isBase32z (s : Bytes) : Bool :=
  s.all fun c => !(fromB32z c == 0 && !(c == 'y'.toUInt8 || c == 'Y'.toUInt8))

/-- The loop of `from_base32z`: `bits` bits of the digits are held in `curr`. -/
def fromBase32zLoop : Bytes → Nat → Nat → Bytes
  | [], _, _ => []
  | c :: s, curr, bits =>
    let curr := curr <<< 5 ||| fromB32z c
    if bits ≥ 3 then
      let bits := bits - 3
      UInt8.ofNat (curr >>> bits) :: fromBase32zLoop s (curr &&& (1 <<< bits - 1)) bits
    else
      fromBase32zLoop s curr (bits + 5)

def fromBase32z (s : Bytes) : Bytes := fromBase32zLoop s 0 0

theorem fromB32z_lt (c : UInt8) : fromB32z c < 2 ^ 5 := by
  rw [fromB32z]
  cases h : b32zAlphabet.findIdx? fun x => x == c || toUpper x == c with
  | none => decide
  | some i =>
    obtain ⟨hi, -⟩ := List.findIdx?_eq_some_iff_getElem.mp h
    exact lt_of_lt_of_eq hi (by decide)

theorem fromB32z_toB32z {b : Nat} (h : b < 2 ^ 5) : fromB32z (toB32z b) = b := by
  have hall : ∀ n : Fin 32, fromB32z (toB32z n) = n := by decide +kernel
  exact hall ⟨b, h⟩

/-- Whole bytes are written as soon as their bits are there. -/
theorem byteBits_fromBase32zLoop (s : Bytes) (curr : Nat) {k : Nat} (hk : k < 8) :
    ∃ l : List Bool, l.length < 8 ∧
      byteBits (fromBase32zLoop s curr k) ++ l = bits k curr ++ spread 5 (s.map fromB32z) := by
  induction s generalizing curr k with
  | nil => exact ⟨bits k curr, by simpa using hk, by simp [fromBase32zLoop]⟩
  | cons c s ih =>
    rw [List.map_cons, spread_cons, ← List.append_assoc, bits_shiftLeft_or (fromB32z_lt c),
      fromBase32zLoop]
    dsimp only
    split
    · obtain ⟨l, hl, hs⟩ := ih ((curr <<< 5 ||| fromB32z c) &&& (1 <<< (k - 3) - 1))
        (show k - 3 < 8 by omega)
      refine ⟨l, hl, ?_⟩
      rw [show k + 5 = 8 + (k - 3) by omega, bits_shiftRight, List.append_assoc, ← hs,
        byteBits_cons, bits_ofNat, List.append_assoc]
    · exact ih (curr <<< 5 ||| fromB32z c) (show k + 5 < 8 by omega)

/-- The bits of the input are written five by five, and the last character is
filled up with zeros. -/
theorem toBase32zLoop_eq_map (s : Bytes) {r k : Nat} (hk : k < 5) (hr : r < 2 ^ k) :
    ∃ ds z, z < 5 ∧ (∀ d ∈ ds, d < 2 ^ 5) ∧ toBase32zLoop s r k = ds.map toB32z ∧
      spread 5 ds = bits k r ++ byteBits s ++ List.replicate z false := by
  induction s generalizing r k with
  | nil =>
    rw [toBase32zLoop]
    split
    · have hlt := shiftLeft_or_lt (w := 5 - k) hr (Nat.two_pow_pos _)
      have hbits := bits_shiftLeft_or (k := k) (r := r) (w := 5 - k) (Nat.two_pow_pos _)
      rw [show k + (5 - k) = 5 by omega, Nat.or_zero] at hlt hbits
      refine ⟨[r <<< (5 - k)], 5 - k, by omega, by simpa using hlt, rfl, ?_⟩
      simp only [spread_cons, spread_nil, List.append_nil, byteBits_nil, ← bits_zero, hbits]
    · obtain rfl : k = 0 := by omega
      exact ⟨[], 0, by omega, by simp, rfl, rfl⟩
  | cons c s ih =>
    have hc : c.toNat < 2 ^ 8 := c.toNat_lt
    have hR := shiftLeft_or_lt hr hc
    have hsplit := bits_shiftLeft_or (k := k) (r := r) hc
    rw [toBase32zLoop]
    dsimp only
    generalize r <<< 8 ||| c.toNat = R at hR hsplit ⊢
    rw [show k + 8 = 5 + (k + 3) by omega] at hR hsplit
    rw [bits_shiftRight] at hsplit
    have hfirst := shiftRight_lt hR
    have hrest := and_lt (k + 3) R
    generalize R &&& (1 <<< (k + 3) - 1) = R' at hsplit hrest ⊢
    split
    · obtain ⟨j, hj⟩ : ∃ j, k + 3 = 5 + j := ⟨k - 2, by omega⟩
      rw [hj] at hrest hfirst hsplit ⊢
      rw [bits_shiftRight 5 j R'] at hsplit
      have hsecond := shiftRight_lt hrest
      rw [Nat.add_sub_cancel_left]
      obtain ⟨ds, z, hz, hds, hmap, hs⟩ := ih (show j < 5 by omega) (and_lt j R')
      refine ⟨R >>> (5 + j) :: R' >>> j :: ds, z, hz, ?_, by rw [hmap]; rfl, ?_⟩
      · exact List.forall_mem_cons.mpr ⟨hfirst, List.forall_mem_cons.mpr ⟨hsecond, hds⟩⟩
      · rw [spread_cons, spread_cons, hs, byteBits_cons, ← List.append_assoc (bits k r), hsplit]
        simp only [List.append_assoc]
    · obtain ⟨ds, z, hz, hds, hmap, hs⟩ := ih (show k + 3 < 5 by omega) hrest
      refine ⟨R >>> (k + 3) :: ds, z, hz, ?_, by rw [hmap]; rfl, ?_⟩
      · exact List.forall_mem_cons.mpr ⟨hfirst, hds⟩
      · rw [spread_cons, hs, byteBits_cons, ← List.append_assoc (bits k r), hsplit]
        simp only [List.append_assoc]

theorem byteBits_fromBase32z (s : Bytes) : ∃ l : List Bool, l.length < 8 ∧
    byteBits (fromBase32z s) ++ l = spread 5 (s.map fromB32z) :=
  byteBits_fromBase32zLoop s 0 (by omega)

theorem toBase32z_eq_map (s : Bytes) : ∃ ds z, z < 5 ∧ (∀ d ∈ ds, d < 2 ^ 5) ∧
    toBase32z s = ds.map toB32z ∧ spread 5 ds = byteBits s ++ List.replicate z false :=
  toBase32zLoop_eq_map s (r := 0) (by omega) (by decide)

theorem map_fromB32z {ds : List Nat} (h : ∀ d ∈ ds, d < 2 ^ 5) :
    (ds.map toB32z).map fromB32z = ds := by
  rw [List.map_map]
  exact (List.map_congr_left fun d hd => fromB32z_toB32z (h d hd)).trans (List.map_id ds)

/-- A text with the digits that a byte string was encoded to is decoded to it. -/
theorem fromBase32z_of_digits {s t : Bytes}
    (h : t.map fromB32z = (toBase32z s).map fromB32z) : fromBase32z t = s := by
  obtain ⟨l, hl, hdec⟩ := byteBits_fromBase32z t
  obtain ⟨ds, z, hz, hds, hmap, henc⟩ := toBase32z_eq_map s
  rw [h, hmap, map_fromB32z hds, henc] at hdec
  exact (byteBits_append_inj hl (by rw [List.length_replicate]; omega) hdec).1

theorem fromBase32z_toBase32z (s : Bytes) : fromBase32z (toBase32z s) = s :=
  fromBase32z_of_digits rfl

theorem length_fromBase32z (s : Bytes) : (fromBase32z s).length = 5 * s.length / 8 := by
  obtain ⟨l, hl, hdec⟩ := byteBits_fromBase32z s
  have hlen := congrArg List.length hdec
  rw [List.length_append, length_byteBits, length_spread, List.length_map] at hlen
  omega

theorem length_toBase32z (s : Bytes) : (toBase32z s).length = (8 * s.length + 4) / 5 := by
  obtain ⟨ds, z, hz, -, hmap, henc⟩ := toBase32z_eq_map s
  have hlen := congrArg List.length henc
  rw [List.length_append, length_byteBits, length_spread, List.length_replicate] at hlen
  rw [hmap, List.length_map]
  omega

/-- The alphabet is read in either case. -/
theorem fromBase32z_of_eitherCase {s t : Bytes}
    (h : List.Forall₂ (fun c d => d = c ∨ d = toUpper c) (toBase32z s) t) :
    isBase32z t = true ∧ fromBase32z t = s := by
  obtain ⟨ds, z, -, hds, hmap, -⟩ := toBase32z_eq_map s
  have hdigit : ∀ n : Fin 32, ∀ c ∈ [toB32z n, toUpper (toB32z n)],
      isBase32z [c] = true ∧ fromB32z c = n := by decide +kernel
  have hread : List.Forall₂ (fun d c => isBase32z [c] = true ∧ fromB32z c = d) ds t := by
    rw [hmap, List.forall₂_map_left_iff] at h
    refine ((List.forall₂_and_left ds t).mpr ⟨hds, h⟩).imp fun d c hc => ?_
    exact hdigit ⟨d, hc.1⟩ c (by simpa using hc.2)
  obtain ⟨hall, hvals⟩ := (List.forall₂_and_left t ds).mp hread.flip
  rw [← List.forall₂_map_left_iff (f := fromB32z) (R := Eq), List.forall₂_eq_eq_eq] at hvals
  constructor
  · rw [isBase32z, List.all_eq_true]
    exact fun c hc => by simpa [isBase32z] using hall c hc
  · refine fromBase32z_of_digits ?_
    rw [hmap, map_fromB32z hds, hvals]

theorem isBase32z_toBase32z (s : Bytes) : isBase32z (toBase32z s) = true :=
  (fromBase32z_of_eitherCase (List.forall₂_same.mpr fun _ _ => .inl rfl)).1

theorem toUpper_toBase32z (s : Bytes) : isBase32z ((toBase32z s).map toUpper) = true ∧
    fromBase32z ((toBase32z s).map toUpper) = s :=
  fromBase32z_of_eitherCase
    (List.forall₂_map_right_iff.mpr (List.forall₂_same.mpr fun _ _ => .inr rfl))

/-- Encoded text has the length of its bits, passes the check and is decoded to
the input, with its letters in either case. -/
theorem base32z_roundTrip (x : Bytes) :
    (toBase32z x).length = 8 * x.length ⌈/⌉ 5 ∧ isBase32z (toBase32z x) = true ∧
      fromBase32z (toBase32z x) = x ∧
      ∀ t, List.Forall₂ (fun c d => d = c ∨ d = toUpper c) (toBase32z x) t →
        fromBase32z t = x :=
  ⟨length_toBase32z x, isBase32z_toBase32z x, fromBase32z_toBase32z x,
    fun _ h => (fromBase32z_of_eitherCase h).2⟩

end ArqmaMQ
