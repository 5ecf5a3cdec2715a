import ArqmaMQ.BtDictText

/-! What the digit loop makes of numbers of any length. Its overflow test only
notices a value that falls; a value that wraps around and still rises goes on
as another number. For the length of a string such a number is always too
large, for an integer it need not be. -/

namespace ArqmaMQ

open Decimal

section Digits

variable {acc : Nat} {uval : UInt64} {ds rest : Bytes}

theorem toNat_bigger {c : UInt8} (hc : IsDigit c) (hu : uval.toNat = acc % 2 ^ 64) :
    (uval * 10 + (c - '0'.toUInt8).toUInt64).toNat = (digitValue c + 10 * acc) % 2 ^ 64 := by
  simp only [UInt64.toNat_add, UInt64.toNat_mul, toNat_digit hc, UInt64.reduceToNat, hu]
  omega

theorem digitLoop_of_rises (hd : ∀ c ∈ ds, IsDigit c) (hr : ∀ c ∈ rest.head?, ¬ IsDigit c)
    (hu : uval.toNat = acc % 2 ^ 64) (h : Rises (2 ^ 64) acc ds) :
    digitLoop uval (ds ++ rest) = .ok (UInt64.ofNat (valueFrom acc ds)) rest := by
  induction ds generalizing acc uval with
  | nil =>
    have he : uval = UInt64.ofNat acc := by
      rw [← UInt64.toNat_inj, hu, UInt64.toNat_ofNat']
    rw [he]
    cases rest with
    | nil => rfl
    | cons c rest =>
      rw [List.nil_append, digitLoop, if_neg (mt isDigit_iff.mp (hr c rfl)), valueFrom]
  | cons c ds ih =>
    have hb := toNat_bigger (hd c List.mem_cons_self) hu
    have hlt : ¬ uval * 10 + (c - '0'.toUInt8).toUInt64 < uval := by
      rw [UInt64.lt_iff_toNat_lt, hb, hu]
      exact Nat.not_lt.mpr h.1
    rw [List.cons_append, digitLoop, if_pos (isDigit_iff.mpr (hd c List.mem_cons_self)), valueFrom]
    exact (if_neg hlt).trans (ih (fun d hm => hd d (List.mem_cons_of_mem c hm)) hb h.2)

theorem digitLoop_of_not_rises (hd : ∀ c ∈ ds, IsDigit c) (hu : uval.toNat = acc % 2 ^ 64)
    (h : ¬ Rises (2 ^ 64) acc ds) : ∃ t, digitLoop uval (ds ++ rest) = .error (.invalid
      "Integer deserialization failed: value is too large for a 64-bit int") t := by
  induction ds generalizing acc uval with
  | nil => exact absurd trivial h
  | cons c ds ih =>
    have hb := toNat_bigger (hd c List.mem_cons_self) hu
    rw [List.cons_append, digitLoop, if_pos (isDigit_iff.mpr (hd c List.mem_cons_self))]
    by_cases hlt : uval * 10 + (c - '0'.toUInt8).toUInt64 < uval
    · exact ⟨ds ++ rest, if_pos hlt⟩
    · have hstep : acc % 2 ^ 64 ≤ (digitValue c + 10 * acc) % 2 ^ 64 := by
        rw [UInt64.lt_iff_toNat_lt, hb, hu] at hlt
        exact Nat.not_lt.mp hlt
      obtain ⟨t, ht⟩ := ih (fun d hm => hd d (List.mem_cons_of_mem c hm)) hb
        fun hrest => h ⟨hstep, hrest⟩
      exact ⟨t, (if_neg hlt).trans ht⟩

/-- `extract_unsigned` goes to the end of the digits, or throws within them. -/
theorem run_extractUnsigned_digits (hne : ds ≠ []) (hd : ∀ c ∈ ds, IsDigit c)
    (hr : ∀ c ∈ rest.head?, ¬ IsDigit c) {u : UInt64} {t : Bytes} :
    extractUnsigned.run (ds ++ rest) = .ok u t ↔
      Rises (2 ^ 64) 0 ds ∧ u.toNat = valueFrom 0 ds % 2 ^ 64 ∧ t = rest := by
  have hloop : extractUnsigned.run (ds ++ rest) = digitLoop 0 (ds ++ rest) := by
    obtain ⟨c, ds, rfl⟩ := List.exists_cons_of_ne_nil hne
    have hc := isDigit_iff.mpr (hd c List.mem_cons_self)
    rw [List.cons_append, extractUnsigned, run_get_bind, run_throwIf_bind (by simp),
      run_front_bind, run_throwIf_bind (by simp [hc])]
    rfl
  rw [hloop]
  by_cases h : Rises (2 ^ 64) 0 ds
  · have hu : u = UInt64.ofNat (valueFrom 0 ds) ↔ u.toNat = valueFrom 0 ds % 2 ^ 64 := by
      rw [← UInt64.toNat_inj, UInt64.toNat_ofNat']
    rw [digitLoop_of_rises hd hr rfl h, EStateM.Result.ok.injEq, eq_comm, hu, eq_comm (b := t)]
    exact (and_iff_right h).symm
  · obtain ⟨t', ht⟩ : ∃ t, digitLoop 0 (ds ++ rest) = .error _ t :=
      digitLoop_of_not_rises hd rfl h
    rw [ht]
    exact ⟨fun hh => (by cases hh), fun hh => absurd hh.1 h⟩

end Digits

section Strings

/-- Behind the digits stands a `:`, and behind it as many bytes as the loop
counted. -/
theorem run_btDeserializeStringView_digits {ds rest val t : Bytes} (hne : ds ≠ [])
    (hd : ∀ c ∈ ds, IsDigit c) (hr : ∀ c ∈ rest.head?, ¬ IsDigit c) :
    btDeserializeStringView.run (ds ++ rest) = .ok val t ↔
      Rises (2 ^ 64) 0 ds ∧ rest = ':'.toUInt8 :: (val ++ t) ∧
        val.length = valueFrom 0 ds % 2 ^ 64 := by
  obtain ⟨c, ds, rfl⟩ := List.exists_cons_of_ne_nil hne
  have hc := isDigit_iff.mpr (hd c List.mem_cons_self)
  rw [List.cons_append, btDeserializeStringView, run_get_bind, run_throwIf_bind_eq_ok_iff,
    run_front_bind, run_throwIf_bind (by simp [hc]), run_bind_eq_ok_iff, ← List.cons_append]
  simp only [run_extractUnsigned_digits hne hd hr]
  constructor
  · rintro ⟨-, u, text, ⟨hrises, hu, rfl⟩, h⟩
    rw [run_get_bind, run_throwIf_bind_eq_ok_iff] at h
    obtain ⟨hrest, h⟩ := h
    obtain ⟨d, text, rfl⟩ := List.exists_cons_of_ne_nil (show text ≠ [] by simpa using hrest)
    rw [run_front_bind, run_throwIf_bind_eq_ok_iff] at h
    obtain ⟨hcolon, h⟩ := h
    rw [run_removePrefix_bind, List.drop_one, List.tail_cons, run_get_bind,
      run_throwIf_bind_eq_ok_iff] at h
    obtain ⟨hlen, h⟩ := h
    rw [run_removePrefix_bind] at h
    obtain ⟨rfl, rfl⟩ := EStateM.Result.ok.inj h
    refine ⟨hrises, ?_, ?_⟩
    · rw [List.take_append_drop, not_not.mp hcolon]
    · rw [List.length_take_of_le (Nat.not_lt.mp hlen), hu]
  · rintro ⟨hrises, rfl, hlen⟩
    have hu : (UInt64.ofNat (valueFrom 0 (c :: ds))).toNat = val.length := by
      rw [UInt64.toNat_ofNat', hlen]
    refine ⟨by simp, UInt64.ofNat (valueFrom 0 (c :: ds)), _, ⟨hrises, hu.trans hlen, rfl⟩, ?_⟩
    rw [run_get_bind, run_throwIf_bind (by simp), run_front_bind, run_throwIf_bind (by simp),
      run_removePrefix_bind, List.drop_one, List.tail_cons, run_get_bind,
      run_throwIf_bind (by simp [hu]), run_removePrefix_bind, hu, List.take_left, List.drop_left]
    rfl

/-- The length of a string is read as the number its digits denote: one that
wrapped around is longer than any view. -/
theorem btDeserializeStringView_exact (s : Bytes) (hs : s.length < 2 ^ 60) (val rest : Bytes) :
    btDeserializeStringView.run s = .ok val rest ↔
      ∃ digits, digits ≠ [] ∧ (∀ c ∈ digits, IsDigit c) ∧
        s = digits ++ ':'.toUInt8 :: (val ++ rest) ∧ val.length = valueFrom 0 digits := by
  constructor
  · intro h
    obtain ⟨ds, text, rfl, hd, hr⟩ := exists_digits s
    have hne : ds ≠ [] := by
      rintro rfl
      obtain ⟨c, u, htext, hc⟩ := isDigit_of_run_btDeserializeStringView h
      rw [List.nil_append] at htext
      exact hr c (by rw [htext, List.head?_cons, Option.mem_def]) (isDigit_iff.mp hc)
    obtain ⟨hrises, rfl, hlen⟩ := (run_btDeserializeStringView_digits hne hd hr).mp h
    refine ⟨ds, hne, hd, rfl, ?_⟩
    have hshort : val.length < 2 ^ 60 := by
      simp only [List.length_append, List.length_cons] at hs
      omega
    by_cases hv : valueFrom 0 ds < 2 ^ 64
    · rw [hlen, Nat.mod_eq_of_lt hv]
    · have := hrises.le_mod hd (by decide) (Nat.not_lt.mp hv)
      omega
  · rintro ⟨ds, hne, hd, rfl, hlen⟩
    have hv : valueFrom 0 ds < 2 ^ 64 := by
      simp only [List.length_append, List.length_cons] at hs
      omega
    refine (run_btDeserializeStringView_digits hne hd (by simp; decide)).mpr
      ⟨rises_of_lt hv, rfl, ?_⟩
    rw [hlen, Nat.mod_eq_of_lt hv]

/-- `3:abcd` is read up to the `d`. -/
theorem btDeserializeStringView_exact_abc : (bytes "3:abcd").length < 2 ^ 60 ∧
    btDeserializeStringView.run (bytes "3:abcd") = .ok (bytes "abc") (bytes "d") :=
  have hs : (bytes "3:abcd").length < 2 ^ 60 := by decide
  ⟨hs, (btDeserializeStringView_exact _ hs _ _).mpr
    ⟨bytes "3", by decide, by decide +kernel, by decide, by decide⟩⟩

end Strings

section Integers

/-- An integer as text: `i`, perhaps a `-`, digits and `e`. -/
def integerText (negative : Bool) (digits suffix : Bytes) : Bytes :=
  'i'.toUInt8 :: ((if negative then ['-'.toUInt8] else []) ++
    (digits ++ 'e'.toUInt8 :: suffix))

def signed (negative : Bool) (n : Nat) : Int := if negative then -n else n

/-- The range of a type. -/
def IntType.Holds (t : IntType) (i : Int) : Prop := t.min ≤ i ∧ i ≤ t.max

instance IntType.decidableHolds (t : IntType) (i : Int) : Decidable (t.Holds i) :=
  inferInstanceAs (Decidable (_ ∧ _))

variable {t : IntType} {negative : Bool} {digits suffix : Bytes}

theorem run_btDeserializeInteger_text (hne : digits ≠ []) (hd : ∀ c ∈ digits, IsDigit c)
    {magnitude : UInt64} {sign : Bool} {rest : Bytes} :
    btDeserializeInteger.run (integerText negative digits suffix) =
        .ok (magnitude, sign) rest ↔
      Rises (2 ^ 64) 0 digits ∧ magnitude.toNat = valueFrom 0 digits % 2 ^ 64 ∧
        (negative = true → magnitude.toNat ≤ 2 ^ 63) ∧ sign = negative ∧ rest = suffix := by
  obtain ⟨d, u, htext, hsign, hdrop⟩ : ∃ d u, (if negative then ['-'.toUInt8] else []) ++
      (digits ++ 'e'.toUInt8 :: suffix) = d :: u ∧ (d == '-'.toUInt8) = negative ∧
        (d :: u).drop negative.toNat = digits ++ 'e'.toUInt8 :: suffix := by
    cases negative with
    | true => exact ⟨_, _, rfl, rfl, rfl⟩
    | false =>
      obtain ⟨c, ds, rfl⟩ := List.exists_cons_of_ne_nil hne
      refine ⟨c, _, rfl, beq_eq_false_iff_ne.mpr ?_, rfl⟩
      rintro rfl
      exact absurd (hd _ List.mem_cons_self) (by decide)
  have hlen : ¬ ('i'.toUInt8 :: d :: u).length < 3 := by
    have := congrArg List.length htext
    have := List.length_pos_of_ne_nil hne
    simp only [List.length_append, List.length_cons] at *
    omega
  have hshift : ((1 : UInt64) <<< 63).toNat = 2 ^ 63 := by decide
  rw [integerText, htext, btDeserializeInteger, run_get_bind, run_throwIf_bind hlen,
    run_front_bind, run_throwIf_bind (by simp), run_removePrefix_bind, List.drop_one,
    List.tail_cons, run_front_bind, hsign, run_removePrefix_bind, hdrop, run_bind_eq_ok_iff]
  simp only [run_extractUnsigned_digits hne hd
    (show ∀ c ∈ ('e'.toUInt8 :: suffix).head?, ¬ IsDigit c by simp; decide)]
  constructor
  · rintro ⟨m, _, ⟨hrises, hm, rfl⟩, h⟩
    rw [run_get_bind, run_throwIf_bind (by simp), run_front_bind, run_throwIf_bind (by simp),
      run_removePrefix_bind, run_throwIf_bind_eq_ok_iff] at h
    obtain ⟨hbig, h⟩ := h
    obtain ⟨hpair, rfl⟩ := EStateM.Result.ok.inj h
    obtain ⟨rfl, rfl⟩ := Prod.mk.inj hpair
    refine ⟨hrises, hm, fun hn => ?_, rfl, rfl⟩
    rw [UInt64.lt_iff_toNat_lt, hshift] at hbig
    exact Nat.not_lt.mp fun hlt => hbig ⟨hn, hlt⟩
  · rintro ⟨hrises, hm, hbig, rfl, rfl⟩
    refine ⟨magnitude, _, ⟨hrises, hm, rfl⟩, ?_⟩
    rw [run_get_bind, run_throwIf_bind (by simp), run_front_bind, run_throwIf_bind (by simp),
      run_removePrefix_bind, run_throwIf_bind]
    · rfl
    · rw [UInt64.lt_iff_toNat_lt, hshift]
      exact fun h => Nat.not_lt.mpr (hbig h.1) h.2

theorem toInt_neg_toInt64 {m : UInt64} (hm : m.toNat ≤ 2 ^ 63) :
    (-m.toInt64).toInt = -(m.toNat : Int) := by
  rw [← UInt64.ofNat_toNat (x := m), UInt64.toInt64_ofNat', ← Int64.ofInt_eq_ofNat,
    ← Int64.ofInt_neg, UInt64.ofNat_toNat]
  exact Int64.toInt_ofInt_of_le (by omega) (by omega)

theorem IntType.min_le (t : IntType) : t.min ≤ 0 ∧ -2 ^ 63 ≤ t.min := by
  cases t <;> decide

/-- The checks behind the parser let through what the type holds. -/
theorem run_btDeserializeInt_iff {s suffix : Bytes} {m : UInt64}
    (h : btDeserializeInteger.run s = .ok (m, negative) suffix)
    (hm : negative = true → m.toNat ≤ 2 ^ 63) {i : Int} {rest : Bytes} :
    (btDeserializeInt t).run s = .ok i rest ↔
      i = signed negative m.toNat ∧ t.Holds i ∧ (negative = true → t.isSigned = true) ∧
        rest = suffix := by
  have hmin := t.min_le
  have hpure (a : Int) : (pure a : BtReader Int).run suffix = .ok i rest ↔
      i = a ∧ rest = suffix := by
    rw [EStateM.run_pure, EStateM.Result.ok.injEq, eq_comm, eq_comm (a := suffix)]
  rw [btDeserializeInt, run_bind_ok h, IntType.Holds]
  dsimp only
  by_cases hsigned : t.isSigned = true
  · cases negative with
    | false =>
      rw [if_pos hsigned, if_pos (by simp), run_throwIf_bind_eq_ok_iff, hpure, signed,
        if_neg (by simp)]
      constructor
      · rintro ⟨hle, rfl, rfl⟩
        exact ⟨rfl, ⟨by omega, by omega⟩, nofun, rfl⟩
      · rintro ⟨rfl, ⟨-, hle⟩, -, rfl⟩
        exact ⟨by omega, rfl, rfl⟩
    | true =>
      rw [if_pos hsigned, if_neg (by simp), toInt_neg_toInt64 (hm rfl), run_throwIf_bind_eq_ok_iff,
        hpure, signed, if_pos rfl]
      have hlow : ¬ (t ≠ .int64 ∧ -(m.toNat : Int) < t.min) ↔ t.min ≤ -(m.toNat : Int) := by
        by_cases ht : t = .int64
        · have := hm rfl
          subst ht
          simp only [IntType.min]
          omega
        · simp [ht]
      rw [hlow]
      constructor
      · rintro ⟨hle, rfl, rfl⟩
        exact ⟨rfl, ⟨hle, by omega⟩, fun _ => hsigned, rfl⟩
      · rintro ⟨rfl, ⟨hle, -⟩, -, rfl⟩
        exact ⟨hle, rfl, rfl⟩
  · cases negative with
    | true =>
      rw [if_neg hsigned, run_throwIf_bind_error rfl]
      exact ⟨nofun, fun hh => absurd (hh.2.2.1 rfl) hsigned⟩
    | false =>
      have hhigh : ¬ (t ≠ .uint64 ∧ t.max < m.toNat) ↔ m.toNat ≤ t.max := by
        by_cases ht : t = .uint64
        · have := m.toNat_lt
          subst ht
          simp only [IntType.max]
          omega
        · simp [ht]
      rw [if_neg hsigned, run_throwIf_bind (by simp), run_throwIf_bind_eq_ok_iff, hpure, hhigh,
        signed, if_neg (by simp)]
      constructor
      · rintro ⟨hle, rfl, rfl⟩
        exact ⟨rfl, ⟨by omega, by omega⟩, nofun, rfl⟩
      · rintro ⟨rfl, ⟨-, hle⟩, -, rfl⟩
        exact ⟨by omega, rfl, rfl⟩

theorem run_btDeserializeInt_text (hne : digits ≠ []) (hd : ∀ c ∈ digits, IsDigit c)
    {i : Int} {rest : Bytes} :
    (btDeserializeInt t).run (integerText negative digits suffix) = .ok i rest ↔
      Rises (2 ^ 64) 0 digits ∧ i = signed negative (valueFrom 0 digits % 2 ^ 64) ∧ t.Holds i ∧
        (negative = true → t.isSigned = true) ∧ rest = suffix := by
  constructor
  · intro h
    obtain ⟨⟨m, sign⟩, _, hrun, -⟩ := run_bind_eq_ok_iff.mp h
    obtain ⟨hrises, hm, hle, rfl, rfl⟩ := (run_btDeserializeInteger_text hne hd).mp hrun
    rw [← hm]
    exact ⟨hrises, (run_btDeserializeInt_iff hrun hle).mp h⟩
  · rintro ⟨hrises, hi, hh⟩
    have hmod : (UInt64.ofNat (valueFrom 0 digits)).toNat = valueFrom 0 digits % 2 ^ 64 :=
      UInt64.toNat_ofNat'
    have hle : negative = true → (UInt64.ofNat (valueFrom 0 digits)).toNat ≤ 2 ^ 63 := by
      intro hn
      have := t.min_le
      have := hh.1.1
      rw [hi, signed, if_pos hn] at this
      omega
    have hrun : btDeserializeInteger.run (integerText negative digits suffix) =
        .ok (UInt64.ofNat (valueFrom 0 digits), negative) suffix :=
      (run_btDeserializeInteger_text hne hd).mpr ⟨hrises, hmod, hle, rfl, rfl⟩
    exact (run_btDeserializeInt_iff hrun hle).mpr ⟨by rw [hi, hmod], hh⟩

/-- The number is read where it is in range, and nothing else is. -/
def ReadsExactly (t : IntType) (negative : Bool) (digits suffix : Bytes) : Prop :=
  ∀ i rest, (btDeserializeInt t).run (integerText negative digits suffix) = .ok i rest ↔
    i = signed negative (valueFrom 0 digits) ∧ t.Holds i ∧
      (negative = true → t.isSigned = true) ∧ rest = suffix

/-- The digits denote at least `2 ^ 64`, every step of the loop wraps around to
a value that is not smaller than the one before, and the type holds the last one. -/
def WrapsUnnoticed (t : IntType) (negative : Bool) (digits : Bytes) : Prop :=
  2 ^ 64 ≤ valueFrom 0 digits ∧ Rises (2 ^ 64) 0 digits ∧
    t.Holds (signed negative (valueFrom 0 digits % 2 ^ 64)) ∧
      (negative = true → t.isSigned = true)

instance decidableWrapsUnnoticed (t : IntType) (negative : Bool) (digits : Bytes) :
    Decidable (WrapsUnnoticed t negative digits) :=
  inferInstanceAs (Decidable (_ ∧ _))

theorem IntType.not_holds (t : IntType) {n : Nat} (h : 2 ^ 64 ≤ n) (negative : Bool) :
    ¬ t.Holds (signed negative n) := by
  have hmin := t.min_le
  have hmax : t.max < 2 ^ 64 := by cases t <;> decide
  rw [IntType.Holds, signed]
  split <;> omega

theorem btDeserializeInt_exact_iff (t : IntType) (negative : Bool) (digits suffix : Bytes)
    (hne : digits ≠ []) (hd : ∀ c ∈ digits, IsDigit c) :
    ReadsExactly t negative digits suffix ↔ ¬ WrapsUnnoticed t negative digits := by
  rw [ReadsExactly]
  simp only [run_btDeserializeInt_text hne hd]
  by_cases hv : 2 ^ 64 ≤ valueFrom 0 digits
  · constructor
    · rintro h ⟨-, hrises, hholds, hsign⟩
      have := (h _ suffix).mp ⟨hrises, rfl, hholds, hsign, rfl⟩
      exact t.not_holds hv negative (this.1 ▸ this.2.1)
    · intro h i rest
      constructor
      · rintro ⟨hrises, rfl, hholds, hsign, -⟩
        exact absurd ⟨hv, hrises, hholds, hsign⟩ h
      · rintro ⟨rfl, hholds, -⟩
        exact absurd hholds (t.not_holds hv negative)
  · have hlt := Nat.not_le.mp hv
    rw [Nat.mod_eq_of_lt hlt]
    refine iff_of_true (fun i rest => ?_) fun h => hv h.1
    exact and_iff_right (rises_of_lt hlt)

/-- The largest number of 64 bits is read exactly. -/
theorem btDeserializeInt_exact_max : bytes "18446744073709551615" ≠ [] ∧
    (∀ c ∈ bytes "18446744073709551615", IsDigit c) ∧
      ReadsExactly .uint64 false (bytes "18446744073709551615") (bytes "e") :=
  have hne : bytes "18446744073709551615" ≠ [] := by decide
  have hd : ∀ c ∈ bytes "18446744073709551615", IsDigit c := by decide +kernel
  ⟨hne, hd, (btDeserializeInt_exact_iff _ _ _ _ hne hd).mpr (by decide)⟩

/-- `i30000000000000000000e` is read as another number. -/
theorem btDeserializeInt_wraps :
    ¬ ReadsExactly .uint64 false (bytes "30000000000000000000") [] := by
  intro h
  have hrun : (btDeserializeInt .uint64).run
      (integerText false (bytes "30000000000000000000") []) = .ok 11553255926290448384 [] := by
    decide +kernel
  exact absurd ((h _ _).mp hrun).1 (by decide)

example : WrapsUnnoticed .int64 false (bytes "21000000000000000000") := by decide

/-- A value that wrapped around is too large for any type of less than 64 bits. -/
theorem not_wrapsUnnoticed_of_narrow (hd : ∀ c ∈ digits, IsDigit c) (ht : t.max < 2 ^ 60) :
    ¬ WrapsUnnoticed t negative digits := by
  rintro ⟨hv, hrises, ⟨hlow, hhigh⟩, -⟩
  have hmin : t.max < 2 ^ 60 → -2 ^ 60 < t.min := by cases t <;> decide
  have hmod := hrises.le_mod hd (by decide) hv
  have hlow' := hmin ht
  cases negative with
  | false =>
    rw [signed, if_neg (by simp)] at hhigh
    omega
  | true =>
    rw [signed, if_pos rfl] at hlow
    omega

/-- What was written is read back by every type that holds it. -/
theorem run_btDeserializeInt (t : IntType) {i : Int} (hi : t.Holds i) (rest : Bytes) :
    (btDeserializeInt t).run (btSerializeInteger i ++ rest) = .ok i rest := by
  have hmin := t.min_le
  have hmax : t.max < 2 ^ 64 := by cases t <;> decide
  have hv : valueFrom 0 (numeral i.natAbs) = i.natAbs := valueFrom_numeral i.natAbs
  have hlt : i.natAbs < 2 ^ 64 := by
    have := hi.1
    have := hi.2
    omega
  have htext : btSerializeInteger i ++ rest =
      integerText (decide (i < 0)) (numeral i.natAbs) rest := by
    rw [btSerializeInteger, integerText]
    split <;> simp_all
  have hsigned : decide (i < 0) = true → t.isSigned = true := by
    intro hneg
    have := hi.1
    cases t <;> first | rfl | exact absurd (of_decide_eq_true hneg) (Int.not_lt.mpr this)
  rw [htext, run_btDeserializeInt_text (numeral_ne_nil _) (fun _ => isDigit_of_mem_numeral), hv,
    Nat.mod_eq_of_lt hlt]
  refine ⟨rises_of_lt (by rwa [hv]), ?_, hi, hsigned, rfl⟩
  by_cases hneg : i < 0
  · rw [signed, if_pos (decide_eq_true hneg)]
    omega
  · rw [signed, if_neg (by simpa using hneg)]
    omega

end Integers

end ArqmaMQ
