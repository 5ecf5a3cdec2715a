import ArqmaMQ.Address

/-! The texts of public keys, what they denote, and that `decode_pubkey` accepts
just these. -/

namespace ArqmaMQ

open BitGroups

/-- The digits of an encoding, each of `width` bits. -/
structure DigitSet where
  width : Nat
  digits : Bytes
  anyCase : Bool

def hexDigits : DigitSet := ⟨4, bytes "0123456789abcdef", true⟩

def base32zDigits : DigitSet := ⟨5, bytes "ybndrfg8ejkmcpqxot1uwisza345h769", true⟩

def base64Digits : DigitSet :=
  ⟨6, bytes "ABCDEFGHIJKLMNOPQRSTUVWXYZabcdefghijklmnopqrstuvwxyz0123456789+/", false⟩

namespace DigitSet

/-- The byte `c` is the digit of value `n`. -/
def isDigit (d : DigitSet) (c : UInt8) (n : Nat) : Bool :=
  d.digits[n]?.any fun x => c == x || (d.anyCase && c == toUpper x)

/-- The text `t` consists of digits, and their bits are those of a 32 byte
`key` and an excess. -/
def Denotes (d : DigitSet) (t key : Bytes) : Prop :=
  key.length = 32 ∧ ∃ ds excess, List.Forall₂ (fun c n => d.isDigit c n = true) t ds ∧
    byteBits key ++ excess = spread d.width ds

end DigitSet

/-- Key texts. -/
inductive KeyText (qr : Bool) : Bytes → Bytes → Prop
  | hex {t key : Bytes} (hlen : t.length = 64) (hkey : hexDigits.Denotes t key) :
      KeyText qr t key
  | base32z {t key : Bytes} (hlen : t.length = 52) (hkey : base32zDigits.Denotes t key) :
      KeyText qr t key
  | base64 {t key : Bytes} (hqr : qr = false) (hlen : t.length = 43)
      (hkey : base64Digits.Denotes t key) : KeyText qr t key
  | padded {t key : Bytes} (hqr : qr = false) (hlen : t.length = 43)
      (hkey : base64Digits.Denotes t key) : KeyText qr (t ++ ['='.toUInt8]) key

/-- A property of bytes that holds of each of them. -/
theorem forall_byte {P : UInt8 → Prop} (h : ∀ n : Fin 256, P (UInt8.ofNat n)) (c : UInt8) :
    P c := by
  simpa using h ⟨c.toNat, c.toNat_lt⟩

theorem isBase32z_eq_all (t : Bytes) : isBase32z t = t.all fun c => isBase32z [c] := by
  simp [isBase32z]

theorem withoutPadding_of_length {t : Bytes} (h : t.length % 4 ≠ 0) : withoutPadding t = t := by
  rw [withoutPadding, if_neg fun hp => h hp.2.1]

theorem isBase64_eq_all {t : Bytes} (h : t.length % 4 ≠ 0) :
    isBase64 t = t.all fun c => isBase64 [c] := by
  have hone (c : UInt8) : withoutPadding [c] = [c] := withoutPadding_of_length (by simp)
  simp only [isBase64, withoutPadding_of_length h, hone, List.all_cons, List.all_nil, Bool.and_true]

namespace DigitSet

variable {d : DigitSet} {valid : UInt8 → Bool} {val : UInt8 → Nat} {t key : Bytes}

/-- The digits are those bytes that `valid` accepts, with the values of `val`. -/
def ReadBy (d : DigitSet) (valid : UInt8 → Bool) (val : UInt8 → Nat) : Prop :=
  ∀ c n, d.isDigit c n = true ↔ valid c = true ∧ n = val c

theorem readBy_of_digits (hinv : ∀ c, valid c = true → d.isDigit c (val c) = true)
    (hall : ∀ p ∈ d.digits.zipIdx, (valid p.1 = true ∧ val p.1 = p.2) ∧
      (d.anyCase = true → valid (toUpper p.1) = true ∧ val (toUpper p.1) = p.2)) :
    d.ReadBy valid val := by
  intro c n
  constructor
  · intro h
    rw [isDigit] at h
    cases hx : d.digits[n]? with
    | none =>
      rw [hx] at h
      cases h
    | some x =>
      obtain ⟨hdigit, hupper⟩ := hall (x, n) (List.mem_zipIdx_iff_getElem?.mpr hx)
      rw [hx, Option.any_some, Bool.or_eq_true, Bool.and_eq_true, beq_iff_eq, beq_iff_eq] at h
      rcases h with rfl | ⟨hcase, rfl⟩
      · exact ⟨hdigit.1, hdigit.2.symm⟩
      · exact ⟨(hupper hcase).1, (hupper hcase).2.symm⟩
  · rintro ⟨hc, rfl⟩
    exact hinv c hc

theorem ReadBy.forall₂_iff (h : d.ReadBy valid val) {ds : List Nat} :
    List.Forall₂ (fun c n => d.isDigit c n = true) t ds ↔
      t.all valid = true ∧ ds = t.map val := by
  simp only [h _ _]
  constructor
  · intro hds
    induction hds with
    | nil => exact ⟨rfl, rfl⟩
    | cons hc _ ih =>
      rw [List.all_cons, hc.1, ih.1, List.map_cons, hc.2, ih.2]
      exact ⟨rfl, rfl⟩
  · rintro ⟨hall, rfl⟩
    exact List.forall₂_map_right_iff.mpr
      (List.forall₂_same.mpr fun c hc => ⟨List.all_eq_true.mp hall c hc, rfl⟩)

/-- A text denotes what its digits are decoded to. -/
theorem ReadBy.denotes_iff (h : d.ReadBy valid val) (decoded : Bytes)
    (hlen : t.all valid = true → decoded.length = 32)
    (hdec : t.all valid = true → ∃ l : List Bool, l.length < 8 ∧
      byteBits decoded ++ l = spread d.width (t.map val)) :
    d.Denotes t key ↔ t.all valid = true ∧ key = decoded := by
  constructor
  · rintro ⟨hkey, ds, excess, hds, hbits⟩
    obtain ⟨hall, rfl⟩ := h.forall₂_iff.mp hds
    obtain ⟨l, hl, hdec⟩ := hdec hall
    have hsum := congrArg List.length (hbits.trans hdec.symm)
    rw [List.length_append, List.length_append, length_byteBits, length_byteBits, hkey,
      hlen hall] at hsum
    exact ⟨hall, (byteBits_append_inj (by omega) hl (hbits.trans hdec.symm)).1⟩
  · rintro ⟨hall, rfl⟩
    obtain ⟨l, -, hdec⟩ := hdec hall
    exact ⟨hlen hall, t.map val, l, h.forall₂_iff.mpr ⟨hall, rfl⟩, hdec⟩

end DigitSet

theorem hexDigits_readBy : hexDigits.ReadBy isHexDigit fun c => (fromHexDigit c).toNat :=
  DigitSet.readBy_of_digits (forall_byte (by decide +kernel)) (by decide +kernel)

theorem base64Digits_readBy : base64Digits.ReadBy (fun c => isBase64 [c]) fromB64 :=
  DigitSet.readBy_of_digits (forall_byte (by decide +kernel)) (by decide +kernel)

theorem base32zDigits_readBy : base32zDigits.ReadBy (fun c => isBase32z [c]) fromB32z := by
  refine DigitSet.readBy_of_digits (fun c hc => ?_) (by decide +kernel)
  cases hi : b32zAlphabet.findIdx? fun x => x == c || toUpper x == c with
  | none =>
    have h0 : fromB32z c = 0 := by rw [fromB32z, hi]; rfl
    have hy : c = 'y'.toUInt8 ∨ c = 'Y'.toUInt8 := by simpa [isBase32z, h0] using hc
    rcases hy with rfl | rfl <;> decide +kernel
  | some i =>
    have hval : fromB32z c = i := by rw [fromB32z, hi]; rfl
    obtain ⟨hlt, hx, -⟩ := List.findIdx?_eq_some_iff_getElem.mp hi
    have hget : base32zDigits.digits[i]? = some b32zAlphabet[i] := List.getElem?_eq_getElem hlt
    rw [hval, DigitSet.isDigit, hget, Option.any_some, BEq.comm, BEq.comm (a := c)]
    exact hx

theorem hexDigits_denotes_iff {t key : Bytes} (hlen : t.length = 64) :
    hexDigits.Denotes t key ↔ isHex t = true ∧ key = fromHex t := by
  rw [hexDigits_readBy.denotes_iff (fromHex t), isHex, hlen]
  · simp
  · intro _
    rw [length_fromHex, hlen]
  · intro _
    exact ⟨[], by simp, by rw [List.append_nil, byteBits_fromHex (by omega)]; rfl⟩

theorem base32zDigits_denotes_iff {t key : Bytes} (hlen : t.length = 52) :
    base32zDigits.Denotes t key ↔ isBase32z t = true ∧ key = fromBase32z t := by
  rw [base32zDigits_readBy.denotes_iff (fromBase32z t), isBase32z_eq_all]
  · intro _
    rw [length_fromBase32z, hlen]
  · intro _
    exact byteBits_fromBase32z t

/-- No padding character is a digit. -/
theorem filter_of_all {t : Bytes} (h : t.all (fun c => isBase64 [c]) = true) :
    t.filter (· ≠ '='.toUInt8) = t := by
  refine List.filter_eq_self.mpr fun c hc => decide_eq_true fun he => ?_
  have hdigit := List.all_eq_true.mp h c hc
  subst he
  exact absurd hdigit (by decide +kernel)

theorem b64Digits_of_all {t : Bytes} (h : t.all (fun c => isBase64 [c]) = true) :
    b64Digits t = t.map fromB64 := by
  rw [b64Digits, filter_of_all h]

theorem base64Digits_denotes_iff {t key : Bytes} (hlen : t.length = 43) :
    base64Digits.Denotes t key ↔ isBase64 t = true ∧ key = fromBase64 t := by
  rw [base64Digits_readBy.denotes_iff (fromBase64 t),
    isBase64_eq_all (by omega)]
  · intro h
    rw [length_fromBase64, b64Digits_of_all h, List.length_map, hlen]
  · intro h
    obtain ⟨l, hl, hdec⟩ := byteBits_fromBase64 t
    exact ⟨l, hl, by rw [hdec, b64Digits_of_all h]; rfl⟩

theorem decodePubkey_eq_ok_iff {s key : Bytes} {qr : Bool} :
    decodePubkey s qr = .ok (key, []) ↔ KeyText qr s key := by
  constructor
  · intro h
    rw [decodePubkey] at h
    split at h
    case isTrue hs =>
      obtain ⟨rfl, hdrop⟩ := Prod.mk.inj (Except.ok.inj h)
      have hlen : s.length = 64 := le_antisymm (List.drop_eq_nil_iff.mp hdrop) hs.1
      rw [List.take_of_length_le hlen.le] at hs ⊢
      exact .hex hlen ((hexDigits_denotes_iff hlen).mpr ⟨hs.2, rfl⟩)
    split at h
    case isTrue hs =>
      obtain ⟨rfl, hdrop⟩ := Prod.mk.inj (Except.ok.inj h)
      have hlen : s.length = 52 := le_antisymm (List.drop_eq_nil_iff.mp hdrop) hs.1
      rw [List.take_of_length_le hlen.le] at hs ⊢
      exact .base32z hlen ((base32zDigits_denotes_iff hlen).mpr ⟨hs.2, rfl⟩)
    split at h
    case isTrue hs =>
      obtain ⟨hqr, hmin, h64⟩ := hs
      obtain ⟨t, u, rfl, hlen⟩ : ∃ t u, s = t ++ u ∧ t.length = 43 :=
        ⟨_, _, (List.take_append_drop 43 s).symm, List.length_take_of_le hmin⟩
      rw [List.take_left' hlen] at h64 h
      rw [List.drop_left' hlen] at h
      have hkey := (base64Digits_denotes_iff hlen).mpr ⟨h64, rfl⟩
      obtain ⟨rfl, hrest⟩ := Prod.mk.inj (Except.ok.inj h)
      cases u with
      | nil =>
        rw [List.append_nil]
        exact .base64 (by simpa using hqr) hlen hkey
      | cons c u =>
        split at hrest
        case isTrue hc =>
          obtain rfl : u = [] := hrest
          obtain rfl : c = '='.toUInt8 := Option.some.inj hc
          exact .padded (by simpa using hqr) hlen hkey
        case isFalse => cases hrest
    cases h
  · intro h
    cases h with
    | hex hlen hkey =>
      obtain ⟨hhex, rfl⟩ := (hexDigits_denotes_iff hlen).mp hkey
      rw [decodePubkey, List.take_of_length_le hlen.le, if_pos ⟨hlen.ge, hhex⟩,
        List.drop_of_length_le hlen.le]
    | base32z hlen hkey =>
      obtain ⟨h32, rfl⟩ := (base32zDigits_denotes_iff hlen).mp hkey
      rw [decodePubkey, if_neg (by omega), List.take_of_length_le hlen.le,
        if_pos ⟨hlen.ge, h32⟩, List.drop_of_length_le hlen.le]
    | base64 hqr hlen hkey =>
      obtain ⟨h64, rfl⟩ := (base64Digits_denotes_iff hlen).mp hkey
      rw [decodePubkey, if_neg (by omega), if_neg (by omega), List.take_of_length_le hlen.le,
        if_pos ⟨by simp [hqr], hlen.ge, h64⟩, List.drop_of_length_le hlen.le]
      rfl
    | @padded t _ hqr hlen hkey =>
      obtain ⟨h64, rfl⟩ := (base64Digits_denotes_iff hlen).mp hkey
      have hlen' : (t ++ ['='.toUInt8]).length = 44 := by rw [List.length_append, hlen]; rfl
      rw [decodePubkey, if_neg (by omega), if_neg (by omega), List.take_left' hlen,
        if_pos ⟨by simp [hqr], by omega, h64⟩, List.drop_left' hlen]
      rfl

theorem KeyText.length_le {qr : Bool} {t key : Bytes} (h : KeyText qr t key) :
    encLength (if qr then .base32z else .base64) ≤ t.length := by
  cases h <;> cases qr <;> simp_all [encLength]

end ArqmaMQ
