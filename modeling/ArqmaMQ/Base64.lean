import ArqmaMQ.Base32z

/-! base64: six bits to a character, padded to groups of four. -/

namespace ArqmaMQ

open BitGroups

/-- `b64_lut.to_b64`, for a value below 64. -/
def toB64 (b : Nat) : UInt8 :=
  if b < 26 then 'A'.toUInt8 + UInt8.ofNat b
  else if b < 52 then 'a'.toUInt8 + UInt8.ofNat (b - 26)
  else if b < 62 then '0'.toUInt8 + UInt8.ofNat (b - 52)
  else if b = 62 then '+'.toUInt8
  else '/'.toUInt8

/-- `b64_lut.from_b64`; what is not in the alphabet has the value 0. -/
def fromB64 (c : UInt8) : Nat :=
  if 'A'.toUInt8 ≤ c ∧ c ≤ 'Z'.toUInt8 then (c - 'A'.toUInt8).toNat
  else if 'a'.toUInt8 ≤ c ∧ c ≤ 'z'.toUInt8 then 26 + (c - 'a'.toUInt8).toNat
  else if '0'.toUInt8 ≤ c ∧ c ≤ '9'.toUInt8 then 52 + (c - '0'.toUInt8).toNat
  else if c = '+'.toUInt8 then 62
  else if c = '/'.toUInt8 then 63
  else 0

/-- The loop of `to_base64`: `bits` bits of the input are held in `r`. -/
def toBase64Loop : Bytes → Nat → Nat → Bytes
  | [], r, bits =>
    if bits = 2 then [toB64 (r <<< 4), '='.toUInt8, '='.toUInt8]
    else if bits = 4 then [toB64 (r <<< 2), '='.toUInt8]
    else []
  | c :: s, r, bits =>
    let r := r <<< 8 ||| c.toNat
    let bits := bits + 2
    let first := toB64 (r >>> bits)
    let r := r &&& (1 <<< bits - 1)
    if bits = 6 then
      first :: toB64 r :: toBase64Loop s 0 0
    else
      first :: toBase64Loop s r bits

def toBase64 (s : Bytes) : Bytes := toBase64Loop s 0 0

/-- One or two padding characters, if they pad to a multiple of four, are taken
off before the characters are checked. -/
def withoutPadding (s : Bytes) : Bytes :=
  if s ≠ [] ∧ s.length % 4 = 0 ∧ s.getLast? = some '='.toUInt8 then
    if s.dropLast.getLast? = some '='.toUInt8 then s.dropLast.dropLast else s.dropLast
  else s

def isBase64 (s : Bytes) : Bool :=
  (withoutPadding s).all fun c => !(fromB64 c == 0 && c != 'A'.toUInt8)

/-- The loop of `from_base64`: `bits` bits of the digits are held in `curr`. -/
def fromBase64Loop : Bytes → Nat → Nat → Bytes
  | [], _, _ => []
  | c :: s, curr, bits =>
    if c = '='.toUInt8 then fromBase64Loop s curr bits
    else
      let curr := curr <<< 6 ||| fromB64 c
      if bits = 0 then fromBase64Loop s curr 6
      else
        let bits := bits - 2
        UInt8.ofNat (curr >>> bits) :: fromBase64Loop s (curr &&& (1 <<< bits - 1)) bits

def fromBase64 (s : Bytes) : Bytes := fromBase64Loop s 0 0

/-- The values of the characters that are not padding. -/
def b64Digits (s : Bytes) : List Nat := (s.filter (· ≠ '='.toUInt8)).map fromB64

theorem fromB64_lt (c : UInt8) : fromB64 c < 2 ^ 6 := by
  have h : ∀ n : Fin 256, fromB64 (UInt8.ofNat n) < 2 ^ 6 := by decide +kernel
  simpa using h ⟨c.toNat, c.toNat_lt⟩

theorem fromB64_toB64 {b : Nat} (h : b < 2 ^ 6) : fromB64 (toB64 b) = b := by
  have hall : ∀ n : Fin 64, fromB64 (toB64 n) = n := by decide +kernel
  exact hall ⟨b, h⟩

theorem toB64_ne_padding {b : Nat} (h : b < 2 ^ 6) : toB64 b ≠ '='.toUInt8 := by
  have hall : ∀ n : Fin 64, toB64 n ≠ '='.toUInt8 := by decide +kernel
  exact hall ⟨b, h⟩

/-- Whole bytes are written as soon as their bits are there. -/
theorem byteBits_fromBase64Loop (s : Bytes) (curr : Nat) {k : Nat} (hk : k < 8) (he : k % 2 = 0) :
    ∃ l : List Bool, l.length < 8 ∧
      byteBits (fromBase64Loop s curr k) ++ l = bits k curr ++ spread 6 (b64Digits s) := by
  induction s generalizing curr k with
  | nil => exact ⟨bits k curr, by simpa using hk, by simp [fromBase64Loop, b64Digits]⟩
  | cons c s ih =>
    rw [fromBase64Loop]
    by_cases hc : c = '='.toUInt8
    · have hd : b64Digits (c :: s) = b64Digits s := by
        rw [b64Digits, List.filter_cons_of_neg (by simpa using hc), b64Digits]
      rw [if_pos hc, hd]
      exact ih curr hk he
    · have hd : b64Digits (c :: s) = fromB64 c :: b64Digits s := by
        rw [b64Digits, List.filter_cons_of_pos (by simpa using hc), List.map_cons, b64Digits]
      rw [if_neg hc, hd, spread_cons, ← List.append_assoc, bits_shiftLeft_or (fromB64_lt c)]
      dsimp only
      split
      · obtain rfl : k = 0 := by assumption
        exact ih (curr <<< 6 ||| fromB64 c) (by omega) (by omega)
      · obtain ⟨l, hl, hs⟩ := ih ((curr <<< 6 ||| fromB64 c) &&& (1 <<< (k - 2) - 1))
          (show k - 2 < 8 by omega) (by omega)
        refine ⟨l, hl, ?_⟩
        rw [show k + 6 = 8 + (k - 2) by omega, bits_shiftRight, List.append_assoc, ← hs,
          byteBits_cons, bits_ofNat, List.append_assoc]

/-- The bits of the input are written six by six; the last character is filled
up with zeros, and every two of them are shown by a padding character. -/
theorem toBase64Loop_eq_map (s : Bytes) {r k : Nat} (hk : k < 6) (he : k % 2 = 0)
    (hr : r < 2 ^ k) : ∃ ds z, z < 3 ∧ (∀ d ∈ ds, d < 2 ^ 6) ∧
      toBase64Loop s r k = ds.map toB64 ++ List.replicate z '='.toUInt8 ∧
      spread 6 ds = bits k r ++ byteBits s ++ List.replicate (2 * z) false := by
  induction s generalizing r k with
  | nil =>
    rw [toBase64Loop]
    have hlt := shiftLeft_or_lt (w := 6 - k) hr (Nat.two_pow_pos _)
    have hbits := bits_shiftLeft_or (k := k) (r := r) (w := 6 - k) (Nat.two_pow_pos _)
    rw [show k + (6 - k) = 6 by omega, Nat.or_zero] at hlt hbits
    split
    · subst k
      refine ⟨[r <<< 4], 2, by omega, by simpa using hlt, rfl, ?_⟩
      simp only [spread_cons, spread_nil, List.append_nil, byteBits_nil, ← bits_zero, hbits]
    split
    · subst k
      refine ⟨[r <<< 2], 1, by omega, by simpa using hlt, rfl, ?_⟩
      simp only [spread_cons, spread_nil, List.append_nil, byteBits_nil, ← bits_zero, hbits]
    · obtain rfl : k = 0 := by omega
      exact ⟨[], 0, by omega, by simp, rfl, rfl⟩
  | cons c s ih =>
    have hc : c.toNat < 2 ^ 8 := c.toNat_lt
    have hR := shiftLeft_or_lt hr hc
    have hsplit := bits_shiftLeft_or (k := k) (r := r) hc
    rw [toBase64Loop]
    generalize r <<< 8 ||| c.toNat = R at hR hsplit ⊢
    rw [show k + 8 = 6 + (k + 2) by omega] at hR hsplit
    rw [bits_shiftRight] at hsplit
    have hfirst := shiftRight_lt hR
    have hrest := and_lt (k + 2) R
    generalize R &&& (1 <<< (k + 2) - 1) = R' at hsplit hrest ⊢
    split
    · obtain ⟨ds, z, hz, hds, hmap, hs⟩ := ih (r := 0) (k := 0) (by omega) (by omega) (by decide)
      rw [show k + 2 = 6 by omega] at hrest hfirst hsplit ⊢
      refine ⟨R >>> 6 :: R' :: ds, z, hz, ?_, by rw [hmap]; rfl, ?_⟩
      · exact List.forall_mem_cons.mpr ⟨hfirst, List.forall_mem_cons.mpr ⟨hrest, hds⟩⟩
      · rw [spread_cons, spread_cons, hs, byteBits_cons, ← List.append_assoc (bits k r), hsplit]
        simp only [List.append_assoc]
        rfl
    · obtain ⟨ds, z, hz, hds, hmap, hs⟩ := ih (show k + 2 < 6 by omega) (by omega) hrest
      refine ⟨R >>> (k + 2) :: ds, z, hz, ?_, by rw [hmap]; rfl, ?_⟩
      · exact List.forall_mem_cons.mpr ⟨hfirst, hds⟩
      · rw [spread_cons, hs, byteBits_cons, ← List.append_assoc (bits k r), hsplit]
        simp only [List.append_assoc]

theorem byteBits_fromBase64 (s : Bytes) : ∃ l : List Bool, l.length < 8 ∧
    byteBits (fromBase64 s) ++ l = spread 6 (b64Digits s) :=
  byteBits_fromBase64Loop s 0 (by omega) (by omega)

theorem toBase64_eq_map (s : Bytes) : ∃ ds z, z < 3 ∧ (∀ d ∈ ds, d < 2 ^ 6) ∧
    toBase64 s = ds.map toB64 ++ List.replicate z '='.toUInt8 ∧
    spread 6 ds = byteBits s ++ List.replicate (2 * z) false :=
  toBase64Loop_eq_map s (r := 0) (by omega) (by omega) (by decide)

theorem b64Digits_map {ds : List Nat} (h : ∀ d ∈ ds, d < 2 ^ 6) :
    b64Digits (ds.map toB64) = ds := by
  have hf : (ds.map toB64).filter (· ≠ '='.toUInt8) = ds.map toB64 := by
    refine List.filter_eq_self.mpr fun c hc => ?_
    obtain ⟨d, hd, rfl⟩ := List.mem_map.mp hc
    simpa using toB64_ne_padding (h d hd)
  rw [b64Digits, hf, List.map_map]
  exact (List.map_congr_left fun d hd => fromB64_toB64 (h d hd)).trans (List.map_id ds)

theorem b64Digits_append_padding {ds : List Nat} (h : ∀ d ∈ ds, d < 2 ^ 6) (z : Nat) :
    b64Digits (ds.map toB64 ++ List.replicate z '='.toUInt8) = ds := by
  have hnil : b64Digits (List.replicate z '='.toUInt8) = [] := by simp [b64Digits]
  rw [b64Digits, List.filter_append, List.map_append, ← b64Digits, ← b64Digits, hnil,
    b64Digits_map h, List.append_nil]

/-- Texts whose padding was cut off, or left, are decoded alike. -/
theorem fromBase64_of_digits {s t : Bytes} (h : b64Digits t = b64Digits (toBase64 s)) :
    fromBase64 t = s := by
  obtain ⟨l, hl, hdec⟩ := byteBits_fromBase64 t
  obtain ⟨ds, z, hz, hds, hmap, henc⟩ := toBase64_eq_map s
  rw [h, hmap, b64Digits_append_padding hds, henc] at hdec
  exact (byteBits_append_inj hl (by rw [List.length_replicate]; omega) hdec).1

theorem length_fromBase64 (s : Bytes) : (fromBase64 s).length = 6 * (b64Digits s).length / 8 := by
  obtain ⟨l, hl, hdec⟩ := byteBits_fromBase64 s
  have hlen := congrArg List.length hdec
  rw [List.length_append, length_byteBits, length_spread] at hlen
  omega

theorem getLast?_map_toB64_ne {ds : List Nat} (h : ∀ d ∈ ds, d < 2 ^ 6) :
    (ds.map toB64).getLast? ≠ some '='.toUInt8 := by
  intro hlast
  obtain ⟨d, hd, he⟩ := List.mem_map.mp (List.mem_of_getLast? hlast)
  exact toB64_ne_padding (h d hd) he

theorem all_map_toB64 {ds : List Nat} (h : ∀ d ∈ ds, d < 2 ^ 6) :
    ((ds.map toB64).all fun c => !(fromB64 c == 0 && c != 'A'.toUInt8)) = true := by
  have hdigit : ∀ n : Fin 64, (!(fromB64 (toB64 n) == 0 && toB64 n != 'A'.toUInt8)) = true := by
    decide +kernel
  rw [List.all_map, List.all_eq_true]
  exact fun d hd => hdigit ⟨d, h d hd⟩

/-- Characters of the alphabet pass the check, whatever their number. -/
theorem isBase64_map_toB64 {ds : List Nat} (h : ∀ d ∈ ds, d < 2 ^ 6) :
    isBase64 (ds.map toB64) = true := by
  rw [isBase64, withoutPadding, if_neg fun hh => getLast?_map_toB64_ne h hh.2.2]
  exact all_map_toB64 h

/-- The 43 characters in front of the padding of an encoded key. -/
theorem toBase64_key {s : Bytes} (hs : s.length = 32) :
    ∃ t, toBase64 s = t ++ ['='.toUInt8] ∧ t.length = 43 ∧ isBase64 t = true ∧
      fromBase64 t = s := by
  obtain ⟨ds, z, hz, hds, hmap, henc⟩ := toBase64_eq_map s
  have hlen := congrArg List.length henc
  rw [List.length_append, length_byteBits, length_spread, List.length_replicate, hs] at hlen
  obtain rfl : z = 1 := by omega
  have hlen : (ds.map toB64).length = 43 := by rw [List.length_map]; omega
  refine ⟨ds.map toB64, hmap, hlen, isBase64_map_toB64 hds, fromBase64_of_digits ?_⟩
  rw [hmap, b64Digits_append_padding hds, b64Digits_map hds]

end ArqmaMQ
