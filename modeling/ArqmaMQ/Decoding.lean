import ArqmaMQ.AddressKey

/-! What the decoders of base64 and base32z return for any text that passes the
check, whether or not it could have been written by the encoder. -/

namespace ArqmaMQ

open BitGroups

namespace DigitSet

variable {d : DigitSet} {valid : UInt8 → Bool} {val : UInt8 → Nat} {t out : Bytes}

/-- The whole bytes of the digits of `t`, one behind the other; the bits that
are left over are ignored. -/
def Decodes (d : DigitSet) (t out : Bytes) : Prop :=
  out.length = d.width * t.length / 8 ∧
    ∃ ds, List.Forall₂ (fun c n => d.isDigit c n = true) t ds ∧
      byteBits out = (spread d.width ds).take (8 * out.length)

theorem ReadBy.decodes (h : d.ReadBy valid val) (hall : t.all valid = true)
    (hdec : ∃ l : List Bool, l.length < 8 ∧ byteBits out ++ l = spread d.width (t.map val)) :
    d.Decodes t out := by
  obtain ⟨l, hl, hdec⟩ := hdec
  have hlen := congrArg List.length hdec
  rw [List.length_append, length_byteBits, length_spread, List.length_map] at hlen
  refine ⟨by omega, t.map val, h.forall₂_iff.mpr ⟨hall, rfl⟩, ?_⟩
  rw [← hdec, List.take_left' (length_byteBits out)]

end DigitSet

/-- What is accepted is digits, and at most two padding characters behind them. -/
theorem exists_padding {s : Bytes} (h : isBase64 s = true) : ∃ t z, z ≤ 2 ∧
    t.all (fun c => isBase64 [c]) = true ∧ s = t ++ List.replicate z '='.toUInt8 := by
  have hone (c : UInt8) : isBase64 [c] = !(fromB64 c == 0 && c != 'A'.toUInt8) := by
    rw [isBase64, withoutPadding_of_length (by simp)]
    simp
  have hdigits : (withoutPadding s).all (fun c => isBase64 [c]) = true := by
    simp only [hone]
    exact h
  refine ⟨withoutPadding s, ?_⟩
  rw [withoutPadding] at hdigits ⊢
  split at hdigits
  case isFalse hp => exact ⟨0, by omega, by rwa [if_neg hp], by simp [if_neg hp]⟩
  case isTrue hp =>
    have hlast := List.dropLast_append_getLast? '='.toUInt8 hp.2.2
    rw [if_pos hp]
    split at hdigits
    case isFalse hq =>
      rw [if_neg hq]
      exact ⟨1, by omega, hdigits, hlast.symm⟩
    case isTrue hq =>
      have hlast' := List.dropLast_append_getLast? '='.toUInt8 hq
      rw [if_pos hq]
      refine ⟨2, by omega, hdigits, ?_⟩
      rw [List.replicate_succ, ← List.singleton_append, ← List.append_assoc, hlast']
      exact hlast.symm

theorem filter_padding {t : Bytes} (h : t.all (fun c => isBase64 [c]) = true) (z : Nat) :
    (t ++ List.replicate z '='.toUInt8).filter (· ≠ '='.toUInt8) = t := by
  rw [List.filter_append, filter_of_all h]
  simp

/-- Any text that is accepted is decoded to the whole bytes of its digits. -/
theorem decodes_of_accepted (s : Bytes) :
    (isBase64 s = true →
      base64Digits.Decodes (s.filter (· ≠ '='.toUInt8)) (fromBase64 s)) ∧
    (isBase32z s = true → base32zDigits.Decodes s (fromBase32z s)) := by
  constructor
  · intro h
    obtain ⟨t, z, -, ht, rfl⟩ := exists_padding h
    have hbits := byteBits_fromBase64 (t ++ List.replicate z '='.toUInt8)
    rw [b64Digits] at hbits
    rw [filter_padding ht] at hbits ⊢
    exact base64Digits_readBy.decodes ht hbits
  · intro h
    rw [isBase32z_eq_all] at h
    exact base32zDigits_readBy.decodes h (byteBits_fromBase32z s)

/-- The excess digit and the excess bits of the texts are ignored. -/
example : ["YWJja", "YWJjZA==", "YWJjZP"].map (fun s => fromBase64 (bytes s)) =
    ["abc", "abcd", "abcd"].map bytes := by decide +kernel

end ArqmaMQ
