import ArqmaMQ.Base64
import Mathlib.Data.List.DropRight

/-! The loops of the base64 encoder and decoder against the encoding by groups
of 24 bits. Both sides are compared as one run of bits. -/

namespace ArqmaMQ

open BitGroups

def rfc4648Alphabet : Bytes :=
  bytes "ABCDEFGHIJKLMNOPQRSTUVWXYZabcdefghijklmnopqrstuvwxyz0123456789+/"

def rfc4648Char (n : Nat) : UInt8 := rfc4648Alphabet.getD n 0

/-- The encoding of RFC 4648: three bytes are four digits. A last group of one or
two bytes is filled up with zero bits to whole digits, and with `=` to four
characters. -/
def rfc4648 : Bytes → Bytes
  | a :: b :: c :: s =>
    (digits 6 4 ((a.toNat * 2 ^ 8 + b.toNat) * 2 ^ 8 + c.toNat)).map rfc4648Char ++ rfc4648 s
  | [a, b] =>
    (digits 6 3 ((a.toNat * 2 ^ 8 + b.toNat) * 2 ^ 2)).map rfc4648Char ++ ['='.toUInt8]
  | [a] => (digits 6 2 (a.toNat * 2 ^ 4)).map rfc4648Char ++ ['='.toUInt8, '='.toUInt8]
  | [] => []

example : rfc4648 (bytes "foob") = bytes "Zm9vYg==" := by decide

/-- A text that spells the bits of `s` in digits, with as many `=` as the last
group is short of bytes. -/
def Spells (s t : Bytes) (ds : List Nat) (z : Nat) : Prop :=
  z < 3 ∧ (∀ d ∈ ds, d < 2 ^ 6) ∧ t = ds.map toB64 ++ List.replicate z '='.toUInt8 ∧
    spread 6 ds = byteBits s ++ List.replicate (2 * z) false

theorem map_rfc4648Char {ds : List Nat} (h : ∀ d ∈ ds, d < 2 ^ 6) :
    ds.map rfc4648Char = ds.map toB64 := by
  have hall : ∀ n : Fin 64, rfc4648Char n = toB64 n := by decide +kernel
  exact List.map_congr_left fun d hd => hall ⟨d, h d hd⟩

theorem spells_rfc4648 (s : Bytes) : ∃ ds z, Spells s (rfc4648 s) ds z := by
  have hlt {k n : Nat} : ∀ d ∈ digits 6 k n, d < 2 ^ 6 := fun d hd => lt_of_mem_digits hd
  have htwo (a b : UInt8) : bits 8 a.toNat ++ bits 8 b.toNat =
      bits 16 (a.toNat * 2 ^ 8 + b.toNat) := bits_append 8 8 _ _ b.toNat_lt
  induction s using rfc4648.induct with
  | case1 a b c s ih =>
    obtain ⟨ds, z, hz, hds, htext, hbits⟩ := ih
    refine ⟨digits 6 4 ((a.toNat * 2 ^ 8 + b.toNat) * 2 ^ 8 + c.toNat) ++ ds, z, hz, ?_, ?_, ?_⟩
    · exact fun d hd => (List.mem_append.mp hd).elim (hlt d) (hds d)
    · rw [rfc4648, htext, map_rfc4648Char hlt, List.map_append, List.append_assoc]
    · rw [spread_append, spread_digits, hbits, byteBits_cons, byteBits_cons, byteBits_cons,
        ← bits_append 16 8 _ _ c.toNat_lt, ← htwo]
      simp only [List.append_assoc]
  | case2 a b =>
    refine ⟨digits 6 3 ((a.toNat * 2 ^ 8 + b.toNat) * 2 ^ 2), 1, by decide, hlt, ?_, ?_⟩
    · rw [rfc4648, map_rfc4648Char hlt]
      rfl
    · rw [spread_digits, byteBits_cons, byteBits_cons, byteBits_nil, List.append_nil, htwo,
        ← bits_zero, bits_append 16 2 _ _ (by decide)]
      rfl
  | case3 a =>
    refine ⟨digits 6 2 (a.toNat * 2 ^ 4), 2, by decide, hlt, ?_, ?_⟩
    · rw [rfc4648, map_rfc4648Char hlt]
      rfl
    · rw [spread_digits, byteBits_cons, byteBits_nil, List.append_nil, ← bits_zero,
        bits_append 8 4 _ _ (by decide)]
      rfl
  | case4 => exact ⟨[], 0, by decide, nofun, rfl, rfl⟩

section

variable {s t u : Bytes} {ds es : List Nat} {z y : Nat}

theorem Spells.length_eq (h : Spells s t ds z) : 3 * ds.length = 4 * s.length + z := by
  have hlen := congrArg List.length h.2.2.2
  rw [List.length_append, length_byteBits, length_spread, List.length_replicate] at hlen
  omega

/-- The digits are determined by the bits, and the padding by their number. -/
theorem Spells.unique (h : Spells s t ds z) (h' : Spells s u es y) : t = u := by
  have hlen := h.length_eq
  have hlen' := h'.length_eq
  obtain ⟨hz, hds, rfl, hbits⟩ := h
  obtain ⟨hy, hes, rfl, hbits'⟩ := h'
  obtain rfl : z = y := by omega
  obtain ⟨rfl, -⟩ := spread_append_inj (l := []) (m := []) hds hes (by decide) (by decide)
    (by rw [hbits, hbits'])
  rfl

theorem Spells.length_text (h : Spells s t ds z) : t.length = 4 * ((s.length + 2) / 3) := by
  have hlen := h.length_eq
  obtain ⟨hz, -, rfl, -⟩ := h
  rw [List.length_append, List.length_map, List.length_replicate]
  omega

theorem Spells.withoutPadding (h : Spells s t ds z) : withoutPadding t = ds.map toB64 := by
  have hlen := h.length_text
  obtain ⟨hz, hds, rfl, -⟩ := h
  have hlast := getLast?_map_toB64_ne hds
  rw [ArqmaMQ.withoutPadding]
  interval_cases z
  · rw [List.replicate_zero, List.append_nil, if_neg fun hh => hlast hh.2.2]
  · rw [List.replicate_one] at hlen ⊢
    rw [if_pos ⟨by simp, by omega, by simp⟩, List.dropLast_concat, if_neg hlast]
  · rw [List.replicate_succ', ← List.append_assoc] at hlen ⊢
    rw [if_pos ⟨by simp, by omega, by simp⟩, List.dropLast_concat, List.replicate_one,
      if_pos (by simp), List.dropLast_concat]

theorem Spells.rdropWhile (h : Spells s t ds z) :
    t.rdropWhile (· == '='.toUInt8) = ds.map toB64 := by
  obtain ⟨-, hds, rfl, -⟩ := h
  induction z with
  | zero =>
    rw [List.replicate_zero, List.append_nil, List.rdropWhile_eq_self_iff]
    intro hne hlast
    refine getLast?_map_toB64_ne hds ?_
    rw [List.getLast?_eq_some_getLast hne, eq_of_beq hlast]
  | succ z ih =>
    rw [List.replicate_succ', ← List.append_assoc, List.rdropWhile_concat_pos _ _ _ (by simp)]
    exact ih

end

/-- Encoded text has the standard form and length, passes the check and is decoded
to the input, with its padding or without. -/
theorem toBase64_eq_rfc4648 (x : Bytes) :
    (toBase64 x).length = 4 * ((x.length + 2) / 3) ∧ isBase64 (toBase64 x) = true ∧
      toBase64 x = rfc4648 x ∧ fromBase64 (toBase64 x) = x ∧
      isBase64 ((toBase64 x).rdropWhile (· == '='.toUInt8)) = true ∧
      fromBase64 ((toBase64 x).rdropWhile (· == '='.toUInt8)) = x := by
  obtain ⟨ds, z, h⟩ : ∃ ds z, Spells x (toBase64 x) ds z := toBase64_eq_map x
  obtain ⟨es, y, h'⟩ := spells_rfc4648 x
  have hdigits : b64Digits (ds.map toB64) = b64Digits (toBase64 x) := by
    obtain ⟨-, hds, htext, -⟩ := h
    rw [htext, b64Digits_append_padding hds, b64Digits_map hds]
  refine ⟨h.length_text, ?_, h.unique h', fromBase64_of_digits rfl, ?_, ?_⟩
  · rw [isBase64, h.withoutPadding]
    exact all_map_toB64 h.2.1
  · rw [h.rdropWhile]
    exact isBase64_map_toB64 h.2.1
  · rw [h.rdropWhile]
    exact fromBase64_of_digits hdigits

end ArqmaMQ
