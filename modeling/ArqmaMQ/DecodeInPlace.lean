import ArqmaMQ.Decoding
import ArqmaMQ.InPlace

/-! Decoding where the input and the output are in one buffer. The loops write
less than they read, so an output that starts in front of the input, or one byte
behind its start, stays behind the reads. Any later one runs ahead of them. -/

namespace ArqmaMQ

open BitGroups InPlace

/-- The body of the loop of `from_base64`, with `curr` and `bits`. -/
def fromBase64Step : Step (Nat × Nat) UInt8
  | (curr, bits), c =>
    if c = '='.toUInt8 then ((curr, bits), none)
    else
      let curr := curr <<< 6 ||| fromB64 c
      if bits = 0 then ((curr, 6), none)
      else
        let bits := bits - 2
        ((curr &&& (1 <<< bits - 1), bits), some (UInt8.ofNat (curr >>> bits)))

/-- The body of the loop of `from_base32z`, with `curr` and `bits`. -/
def fromBase32zStep : Step (Nat × Nat) UInt8
  | (curr, bits), c =>
    let curr := curr <<< 5 ||| fromB32z c
    if bits ≥ 3 then
      let bits := bits - 3
      ((curr &&& (1 <<< bits - 1), bits), some (UInt8.ofNat (curr >>> bits)))
    else
      ((curr, bits + 5), none)

/-- `from_base64(begin, end, out)` with iterators into one buffer: what the buffer
holds at the end, and how far it was written. -/
def fromBase64InPlace (buf : Bytes) (first size out : Nat) : Option (Bytes × Nat) :=
  run fromBase64Step size (0, 0) buf first out

/-- `from_base32z(begin, end, out)` with iterators into one buffer. -/
def fromBase32zInPlace (buf : Bytes) (first size out : Nat) : Option (Bytes × Nat) :=
  run fromBase32zStep size (0, 0) buf first out

theorem emit_fromBase64Step (s : Bytes) (curr k : Nat) :
    emit fromBase64Step (curr, k) s = fromBase64Loop s curr k := by
  induction s generalizing curr k with
  | nil => rfl
  | cons c s ih =>
    rw [emit, fromBase64Step, fromBase64Loop]
    dsimp only
    split
    · exact ih curr k
    split
    · exact ih _ 6
    · exact congrArg (_ :: ·) (ih _ _)

theorem emit_fromBase32zStep (s : Bytes) (curr k : Nat) :
    emit fromBase32zStep (curr, k) s = fromBase32zLoop s curr k := by
  induction s generalizing curr k with
  | nil => rfl
  | cons c s ih =>
    rw [emit, fromBase32zStep, fromBase32zLoop]
    dsimp only
    split
    · exact congrArg (_ :: ·) (ih _ _)
    · exact ih _ _

/-- What the two loops have in common: the digits of the input are written eight
bits at a time, and nothing is written at the first character. -/
structure Regroups (w : Nat) (step : Step (Nat × Nat) UInt8) (digits : Bytes → List Nat) :
    Prop where
  bits (s : Bytes) : ∃ l : List Bool, l.length < 8 ∧
    byteBits (emit step (0, 0) s) ++ l = spread w (digits s)
  append (s t : Bytes) : digits (s ++ t) = digits s ++ digits t
  length_le (s : Bytes) : (digits s).length ≤ s.length
  silent (c : UInt8) : (step (0, 0) c).2 = none

theorem regroups_fromBase64Step : Regroups 6 fromBase64Step b64Digits where
  bits s := by
    rw [emit_fromBase64Step]
    exact byteBits_fromBase64 s
  append s t := by rw [b64Digits, List.filter_append, List.map_append, b64Digits, b64Digits]
  length_le s := by
    rw [b64Digits, List.length_map]
    exact List.length_filter_le _ s
  silent c := by
    rw [fromBase64Step]
    split <;> rfl

theorem regroups_fromBase32zStep : Regroups 5 fromBase32zStep (List.map fromB32z) where
  bits s := by
    rw [emit_fromBase32zStep]
    exact byteBits_fromBase32z s
  append s t := List.map_append
  length_le s := le_of_eq (List.length_map _)
  silent c := rfl

/-- The characters whose bits are used, of `n` digits of `w` bits. -/
def usedDigits (w n : Nat) : Nat := 8 * (w * n / 8) ⌈/⌉ w

/-- The output starts at most one byte behind the start of the input, or behind
all characters that are used. -/
def SparesInput (w first size out : Nat) : Prop :=
  out ≤ first + 1 ∨ first + usedDigits w size ≤ out

/-- Whatever is in the buffer, an accepted range is decoded in place to the bytes
that it is decoded to by itself, and nothing else is written. -/
def RightInPlace (accepts : Bytes → Bool) (decode : Bytes → Bytes)
    (inPlace : Bytes → Nat → Nat → Nat → Option (Bytes × Nat)) (first size out : Nat) : Prop :=
  ∀ buf : Bytes, first + size ≤ buf.length → accepts (slice buf first size) = true →
    out + (decode (slice buf first size)).length ≤ buf.length →
      inPlace buf first size out = some (overwrite buf out (decode (slice buf first size)),
        out + (decode (slice buf first size)).length)

namespace Regroups

variable {w : Nat} {step : Step (Nat × Nat) UInt8} {digits : Bytes → List Nat}
  {s t buf : Bytes} {first n out d : Nat}

/-- Nothing is made of what does not fill another byte. -/
theorem emit_append (h : Regroups w step digits) (hs : (digits s).length = s.length)
    (hused : 8 * (w * (s ++ t).length / 8) ≤ w * s.length) :
    emit step (0, 0) (s ++ t) = emit step (0, 0) s := by
  obtain ⟨l, hl, hbits⟩ := h.bits (s ++ t)
  obtain ⟨m, hm, hbits'⟩ := h.bits s
  have hlen := congrArg List.length hbits'
  rw [List.length_append, length_byteBits, length_spread, hs] at hlen
  have ht := Nat.mul_le_mul_left w (h.length_le t)
  rw [List.length_append, Nat.mul_add] at hused
  rw [h.append, spread_append, ← hbits', List.append_assoc] at hbits
  refine (byteBits_append_inj hl ?_ hbits).1
  rw [List.length_append, length_spread]
  omega

/-- One character ahead is not too far, as the first one writes nothing. -/
theorem reads_of_le_succ (h : Regroups w step digits) (hn : first + n ≤ buf.length)
    (hout : out ≤ first + 1) : reads step n (0, 0) buf first out = slice buf first n := by
  cases n with
  | zero => rfl
  | succ n =>
    obtain ⟨a, ha⟩ : ∃ a, buf[first]? = some a := ⟨_, List.getElem?_eq_getElem (by omega)⟩
    rw [reads_succ_none ha (h.silent a), reads_of_le (by omega) hout, slice_succ ha]

theorem emit_reads (h : Regroups w step digits) (hw : 0 < w) (hn : first + n ≤ buf.length)
    (hfull : ∀ d < n, 8 * (w * n / 8) ≤ w * d → (digits (slice buf first d)).length = d)
    (hout : SparesInput w first n out) :
    emit step (0, 0) (reads step n (0, 0) buf first out) =
      emit step (0, 0) (slice buf first n) := by
  rcases hout with hout | hout
  · rw [h.reads_of_le_succ hn hout]
  have hlen : (reads step n (0, 0) buf first out).length = n := length_reads hn
  by_cases hend : first + n ≤ out
  · have htake : (reads step n (0, 0) buf first out).take n = slice buf first n :=
      take_reads hn (le_refl n) hend
    rw [← htake, List.take_of_length_le (le_of_eq hlen)]
  -- Only characters whose bits are not used can be overwritten.
  obtain ⟨d, rfl⟩ : ∃ d, out = first + d := ⟨out - first, by omega⟩
  have hd : d < n := by omega
  have hused : 8 * (w * n / 8) ≤ w * d :=
    (ceilDiv_le_iff_le_mul hw).mp (Nat.le_of_add_le_add_left hout)
  have htake : (reads step n (0, 0) buf first (first + d)).take d = slice buf first d :=
    take_reads hn hd.le (le_refl (first + d))
  have hslice : (slice buf first d).length = d := by
    rw [slice, List.length_take, List.length_drop]
    omega
  have hcut (t : Bytes) (ht : t.length = n) (htd : t.take d = slice buf first d) :
      emit step (0, 0) t = emit step (0, 0) (slice buf first d) := by
    rw [← List.take_append_drop d t, htd]
    refine h.emit_append (by rw [hfull d hd hused, hslice]) ?_
    rw [← htd, List.take_append_drop, ht, List.length_take, ht, Nat.min_eq_left hd.le]
    exact hused
  rw [hcut _ hlen htake, hcut (slice buf first n)]
  · rw [slice, List.length_take, List.length_drop]
    omega
  · rw [slice, List.take_take, Nat.min_eq_left hd.le, slice]

/-- Characters with which the loop runs into what it has written: the first two
are decoded to `b`, which is another digit than the `z` that it overwrites. -/
structure Spoils (w : Nat) (step : Step (Nat × Nat) UInt8) (digits : Bytes → List Nat)
    (c₀ c₁ b z : UInt8) : Prop where
  written : emit step (0, 0) [c₀, c₁] = [b]
  two : (digits [c₀, c₁]).length = 2
  one : (digits [z]).length = 1
  isSet : (spread w (digits [b]))[0]? = some true
  isClear : (spread w (digits [z]))[0]? = some false

theorem emit_append_ne (h : Regroups w step digits) (hs : (digits s).length = s.length)
    {t u : Bytes} (hused : w * s.length < 8 * (emit step (0, 0) (s ++ u)).length)
    (ht : (spread w (digits t))[0]? = some true) (hu : (spread w (digits u))[0]? = some false) :
    emit step (0, 0) (s ++ t) ≠ emit step (0, 0) (s ++ u) := by
  intro heq
  have hget {x l} (hx : byteBits (emit step (0, 0) (s ++ u)) ++ l = spread w (digits (s ++ x))) :
      (byteBits (emit step (0, 0) (s ++ u)))[w * s.length]? = (spread w (digits x))[0]? := by
    have hlen : (spread w (digits s)).length = w * s.length := by rw [length_spread, hs]
    rw [← List.getElem?_append_left (by rwa [length_byteBits]), hx, h.append, spread_append,
      List.getElem?_append_right (le_of_eq hlen), hlen, Nat.sub_self]
  obtain ⟨l, -, hl⟩ := h.bits (s ++ t)
  obtain ⟨m, -, hm⟩ := h.bits (s ++ u)
  rw [heq] at hl
  have hbit := (hget hl).symm.trans (hget hm)
  rw [ht, hu] at hbit
  cases hbit

theorem length_emit (h : Regroups w step digits) (hs : (digits s).length = s.length) :
    (emit step (0, 0) s).length = w * s.length / 8 := by
  obtain ⟨l, hl, hbits⟩ := h.bits s
  have hlen := congrArg List.length hbits
  rw [List.length_append, length_byteBits, length_spread, hs] at hlen
  omega

namespace Spoils

variable {c₀ c₁ b z : UInt8}

theorem length_digits (hs : Spoils w step digits c₀ c₁ b z) (h : Regroups w step digits)
    (k : Nat) : (digits (c₀ :: c₁ :: List.replicate k z)).length = k + 2 := by
  have hzs : (digits (List.replicate k z)).length = k := by
    induction k with
    | zero => exact Nat.le_zero.mp (h.length_le [])
    | succ k ih =>
      rw [List.replicate_succ, ← List.singleton_append, h.append, List.length_append, hs.one, ih,
        Nat.add_comm]
  change (digits ([c₀, c₁] ++ List.replicate k z)).length = k + 2
  rw [h.append, List.length_append, hs.two, hzs, Nat.add_comm]

/-- The first byte is written ahead of the reads, to a character that is used. -/
theorem emit_reads_ne (hs : Spoils w step digits c₀ c₁ b z) (h : Regroups w step digits)
    (hn : first + n ≤ buf.length)
    (hbuf : ∀ k, 2 ≤ k → k ≤ n → slice buf first k = c₀ :: c₁ :: List.replicate (k - 2) z)
    (hd : 2 ≤ d) (hused : w * d < 8 * (w * n / 8)) :
    emit step (0, 0) (reads step n (0, 0) buf first (first + d)) ≠
      emit step (0, 0) (slice buf first n) := by
  have hdn : d < n := by
    by_contra hle
    have := Nat.mul_le_mul_left w (not_lt.mp hle)
    omega
  have hlen : (reads step n (0, 0) buf first (first + d)).length = n := length_reads hn
  have hslice := hbuf d hd hdn.le
  have hdigits : (digits (slice buf first d)).length = (slice buf first d).length := by
    rw [hslice, hs.length_digits h, List.length_cons, List.length_cons, List.length_replicate]
  obtain ⟨l, hemit⟩ : ∃ l, emit step (0, 0) (slice buf first d) = b :: l := by
    obtain ⟨l, hl⟩ : ∃ l, emit step (0, 0) ([c₀, c₁] ++ List.replicate (d - 2) z) =
        emit step (0, 0) [c₀, c₁] ++ l := exists_emit_append _ _ _
    rw [hs.written] at hl
    exact ⟨l, by rw [hslice]; exact hl⟩
  have hreads : reads step n (0, 0) buf first (first + d) = slice buf first d ++
      b :: (reads step n (0, 0) buf first (first + d)).drop (d + 1) := by
    obtain ⟨hlt, hb⟩ := List.getElem?_eq_some_iff.mp (getElem?_reads hn hdn rfl hemit)
    have htake : (reads step n (0, 0) buf first (first + d)).take d = slice buf first d :=
      take_reads hn hdn.le (le_refl (first + d))
    rw [← htake, ← hb, ← List.drop_eq_getElem_cons hlt, List.take_append_drop]
  have hrange : slice buf first n = slice buf first d ++ z :: List.replicate (n - d - 1) z := by
    rw [hbuf n (by omega) (le_refl n), hslice, List.cons_append, List.cons_append,
      ← List.replicate_succ, List.replicate_append_replicate]
    congr 3
    omega
  have hfirst {c : UInt8} {x : Bool} (t : Bytes) (hc : (spread w (digits [c]))[0]? = some x) :
      (spread w (digits (c :: t)))[0]? = some x := by
    obtain ⟨hlt, -⟩ := List.getElem?_eq_some_iff.mp hc
    rw [← List.singleton_append, h.append, spread_append, List.getElem?_append_left hlt, hc]
  have hbytes := h.length_emit (s := slice buf first n) (by
    rw [hbuf n (by omega) (le_refl n), hs.length_digits h, List.length_cons, List.length_cons,
      List.length_replicate])
  rw [hreads, hrange]
  refine h.emit_append_ne hdigits ?_ (hfirst _ hs.isSet) (hfirst _ hs.isClear)
  rw [← hrange, hbytes, slice, slice, List.length_take, List.length_take, List.length_drop]
  rwa [Nat.min_eq_left (by omega), Nat.min_eq_left (by omega)]

end Spoils

theorem rightInPlace_iff {c₀ c₁ b z : UInt8} {accepts : Bytes → Bool}
    (h : Regroups w step digits) (hw : 0 < w) (hs : Spoils w step digits c₀ c₁ b z)
    (hspoils : ∀ k, accepts (c₀ :: c₁ :: List.replicate k z) = true)
    (hfull : ∀ t, accepts t = true → ∀ d < t.length, 8 * (w * t.length / 8) ≤ w * d →
      (digits (t.take d)).length = d) :
    RightInPlace accepts (emit step (0, 0))
        (fun buf first size out => run step size (0, 0) buf first out) first n out ↔
      SparesInput w first n out := by
  constructor
  · intro hright
    by_contra hspares
    obtain ⟨hlate, hearly⟩ := not_or.mp hspares
    obtain ⟨d, rfl⟩ : ∃ d, out = first + d := ⟨out - first, by omega⟩
    have hused : w * d < 8 * (w * n / 8) :=
      not_le.mp fun hle => hearly (Nat.add_le_add_left ((ceilDiv_le_iff_le_mul hw).mpr hle) first)
    obtain ⟨buf, hbuf⟩ : ∃ buf : Bytes, buf = List.replicate first z ++
        c₀ :: c₁ :: List.replicate (n + (first + d)) z := ⟨_, rfl⟩
    have hlen : buf.length = first + (n + (first + d) + 1 + 1) := by
      simp only [hbuf, List.length_append, List.length_cons, List.length_replicate]
    have hslice (k : Nat) (hk : 2 ≤ k) (hkn : k ≤ n) :
        slice buf first k = c₀ :: c₁ :: List.replicate (k - 2) z := by
      obtain ⟨k, rfl⟩ : ∃ j, k = j + 2 := ⟨k - 2, by omega⟩
      rw [slice, hbuf, List.drop_left' List.length_replicate, List.take_succ_cons,
        List.take_succ_cons, List.take_replicate, Nat.min_eq_left (by omega)]
      rfl
    have hn : 2 ≤ n := by
      by_contra hn
      have := Nat.mul_le_mul_left w (show n ≤ d by omega)
      omega
    have hroom : (emit step (0, 0) (slice buf first n)).length ≤ (slice buf first n).length :=
      length_emit_le _ _
    have hshort : (slice buf first n).length ≤ n := List.length_take_le _ _
    have hrun : run step n (0, 0) buf first (first + d) = _ :=
      hright buf (by omega) (by rw [hslice n hn (le_refl n)]; exact hspoils _) (by omega)
    rw [run_eq (by omega)] at hrun
    dsimp only at hrun
    split at hrun
    case isFalse => cases hrun
    case isTrue =>
      obtain ⟨hbuf', hout⟩ := Prod.mk.inj (Option.some.inj hrun)
      exact hs.emit_reads_ne h (by omega) hslice (by omega) hused
        (overwrite_inj (Nat.add_left_cancel hout) hbuf')
  · intro hspares buf hn haccepts hroom
    have hlen : (slice buf first n).length = n := by
      rw [slice, List.length_take, List.length_drop]
      omega
    dsimp only
    rw [run_eq hn, h.emit_reads hw hn (fun d hd hused => ?_) hspares]
    · exact if_pos (.inl hroom)
    · have hd' := hfull _ haccepts d (by rwa [hlen]) (by rwa [hlen])
      rwa [slice, List.take_take, Nat.min_eq_left hd.le] at hd'

end Regroups

theorem spoils_fromBase64Step : Regroups.Spoils 6 fromBase64Step b64Digits
    'L'.toUInt8 'w'.toUInt8 '/'.toUInt8 'A'.toUInt8 := by
  constructor <;> decide +kernel

theorem spoils_fromBase32zStep : Regroups.Spoils 5 fromBase32zStep (List.map fromB32z)
    '8'.toUInt8 'r'.toUInt8 '9'.toUInt8 'y'.toUInt8 := by
  constructor <;> decide +kernel

/-- Decoding in place is right for the outputs that spare the input, and only for
these. -/
theorem inPlace_iff_sparesInput (first size out : Nat) :
    (RightInPlace isBase64 fromBase64 fromBase64InPlace first size out ↔
      SparesInput 6 first size out) ∧
    (RightInPlace isBase32z fromBase32z fromBase32zInPlace first size out ↔
      SparesInput 5 first size out) := by
  have h64 : emit fromBase64Step (0, 0) = fromBase64 := funext fun s => emit_fromBase64Step s 0 0
  have h32 : emit fromBase32zStep (0, 0) = fromBase32z :=
    funext fun s => emit_fromBase32zStep s 0 0
  constructor
  · rw [← h64]
    refine regroups_fromBase64Step.rightInPlace_iff (by decide) spoils_fromBase64Step ?_ ?_
    · intro k
      have hds : ∀ d ∈ 11 :: 48 :: List.replicate k 0, d < 2 ^ 6 := by simp
      have htext := isBase64_map_toB64 hds
      rwa [List.map_cons, List.map_cons, List.map_replicate] at htext
    · intro t ht d hd hused
      by_cases hpad : t.length % 4 = 0
      · omega
      rw [isBase64_eq_all hpad, List.all_eq_true] at ht
      have hall : (t.take d).all (fun c => isBase64 [c]) = true :=
        List.all_eq_true.mpr fun c hc => ht c (List.mem_of_mem_take hc)
      rw [b64Digits_of_all hall, List.length_map, List.length_take, Nat.min_eq_left hd.le]
  · rw [← h32]
    refine regroups_fromBase32zStep.rightInPlace_iff (by decide) spoils_fromBase32zStep ?_ ?_
    · intro k
      have hdigit : isBase32z ['8'.toUInt8, 'r'.toUInt8, 'y'.toUInt8] = true := by decide +kernel
      rw [isBase32z_eq_all, List.all_eq_true] at hdigit ⊢
      intro c hc
      refine hdigit c ?_
      rw [List.mem_cons, List.mem_cons, List.mem_replicate] at hc
      rcases hc with rfl | rfl | ⟨-, rfl⟩ <;> simp
    · intro t _ d hd _
      rw [List.length_map, List.length_take, Nat.min_eq_left hd.le]

/-- The first byte of `YWJj`, an `a`, is written over the `J` before that is read,
and the second over the `j`. -/
theorem inPlace_runs_ahead : isBase64 (slice (bytes "YWJj...") 0 4) = true ∧
    fromBase64 (slice (bytes "YWJj...") 0 4) = bytes "abc" ∧
    fromBase64InPlace (bytes "YWJj...") 0 4 2 = some (bytes "YWaf" ++ 0x9f :: bytes "..", 5) := by
  decide +kernel

end ArqmaMQ
