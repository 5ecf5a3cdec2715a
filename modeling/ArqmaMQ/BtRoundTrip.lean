import ArqmaMQ.BtDeserialize
import ArqmaMQ.BtSerialize

/-! Reading back what was written. Every statement carries an arbitrary suffix,
so that the induction can go through the elements of a container. -/

namespace ArqmaMQ

section Readers

variable {α β : Type} {s : Bytes} {a : α}

theorem run_bind_ok {ε σ : Type} {x : EStateM ε σ α} {s s' : σ} (h : x.run s = .ok a s')
    (f : α → EStateM ε σ β) : (x >>= f).run s = (f a).run s' := by
  rw [EStateM.run_bind, h]

theorem run_get_bind {ε σ : Type} {s : σ} (f : σ → EStateM ε σ β) :
    (get >>= f).run s = (f s).run s := rfl

theorem run_front_bind (c : UInt8) (f : UInt8 → BtReader β) :
    (front >>= f).run (c :: s) = (f c).run (c :: s) := rfl

theorem run_removePrefix_bind (n : Nat) (f : Unit → BtReader β) :
    (removePrefix n >>= f).run s = (f ()).run (s.drop n) := rfl

theorem run_throwIf_bind {c : Prop} [Decidable c] (h : ¬ c) (e : BtError)
    (f : Unit → BtReader β) : (throwIf c e >>= f).run s = (f ()).run s := by
  rw [throwIf, if_neg h]
  rfl

end Readers

theorem toNat_digit {c : UInt8} (h : Decimal.IsDigit c) :
    (c - '0'.toUInt8).toUInt64.toNat = Decimal.digitValue c := by
  have h0 : '0'.toUInt8.toNat = 48 := by decide
  have hle : '0'.toUInt8 ≤ c := by
    rw [UInt8.le_iff_toNat_le, h0]
    exact h.1
  rw [UInt8.toNat_toUInt64, UInt8.toNat_sub_of_le _ _ hle, h0, Decimal.digitValue]

/-- As long as the whole numeral fits 64 bits the loop never overflows, and it
stops in front of the first byte that is not a digit. -/
theorem digitLoop_append (ds rest : Bytes) (uval : UInt64)
    (hd : ∀ c ∈ ds, Decimal.IsDigit c) (hr : ∀ c ∈ rest.head?, ¬ Decimal.IsDigit c)
    (hv : Decimal.valueFrom uval.toNat ds < 2 ^ 64) :
    digitLoop uval (ds ++ rest) =
      .ok (UInt64.ofNat (Decimal.valueFrom uval.toNat ds)) rest := by
  induction ds generalizing uval with
  | nil =>
    cases rest with
    | nil => simp [digitLoop, Decimal.valueFrom]
    | cons c rest => simp [digitLoop, Decimal.valueFrom, hr c (by simp)]
  | cons c ds ih =>
    have hc := hd c (by simp)
    let bigger := uval * 10 + (c - '0'.toUInt8).toUInt64
    have hle := Decimal.le_valueFrom (Decimal.digitValue c + 10 * uval.toNat) ds
    rw [Decimal.valueFrom] at hv
    have hb : bigger.toNat = Decimal.digitValue c + 10 * uval.toNat := by
      simp only [bigger, UInt64.toNat_add, UInt64.toNat_mul, toNat_digit hc, UInt64.reduceToNat]
      omega
    have hlt : ¬ bigger < uval := by
      rw [UInt64.lt_iff_toNat_lt, hb]
      omega
    have hh := ih bigger (fun x hx => hd x (by simp [hx])) (by rwa [hb])
    rw [hb] at hh
    rw [List.cons_append, digitLoop, if_pos (isDigit_iff.mpr hc), Decimal.valueFrom]
    exact (if_neg hlt).trans hh

theorem isDigit_numeral_head (n : Nat) :
    ∃ d ds, Decimal.numeral n = d :: ds ∧ isDigit d = true := by
  obtain ⟨d, ds, hd⟩ := List.exists_cons_of_ne_nil (Decimal.numeral_ne_nil n)
  exact ⟨d, ds, hd, isDigit_iff.mpr (Decimal.isDigit_of_mem_numeral (n := n) (by simp [hd]))⟩

theorem extractUnsigned_numeral {n : Nat} (h : n < 2 ^ 64) {c : UInt8}
    (hc : ¬ Decimal.IsDigit c) (rest : Bytes) :
    extractUnsigned.run (Decimal.numeral n ++ c :: rest) = .ok (UInt64.ofNat n) (c :: rest) := by
  have hv := Decimal.valueFrom_numeral n
  have hh := digitLoop_append (Decimal.numeral n) (c :: rest) 0
    (fun _ => Decimal.isDigit_of_mem_numeral) (by simpa using hc)
  simp only [UInt64.toNat_zero, hv] at hh
  obtain ⟨d, ds, hd, hdig⟩ := isDigit_numeral_head n
  rw [← hh h, hd, List.cons_append, extractUnsigned, run_get_bind, run_throwIf_bind (by simp),
    run_front_bind, run_throwIf_bind (by simp [hdig])]
  rfl

theorem btDeserializeStringView_btSerializeString {s : Bytes} (h : s.length < 2 ^ 64)
    (rest : Bytes) : btDeserializeStringView.run (btSerializeString s ++ rest) = .ok s rest := by
  obtain ⟨d, ds, hd, hdig⟩ := isDigit_numeral_head s.length
  have hu := extractUnsigned_numeral h (show ¬ Decimal.IsDigit ':'.toUInt8 by decide) (s ++ rest)
  have hlen : (UInt64.ofNat s.length).toNat = s.length := UInt64.toNat_ofNat_of_lt' h
  rw [btSerializeString, List.append_assoc, List.cons_append]
  rw [hd, List.cons_append] at hu ⊢
  rw [btDeserializeStringView, run_get_bind, run_throwIf_bind (by simp), run_front_bind,
    run_throwIf_bind (by simp [hdig]), run_bind_ok hu, run_get_bind, run_throwIf_bind (by simp),
    run_front_bind, run_throwIf_bind (by simp), run_removePrefix_bind, run_get_bind,
    run_throwIf_bind (by simp [hlen]), run_removePrefix_bind, hlen]
  simp

theorem btDeserializeInteger_btSerializeInteger {i : Int} (hl : -2 ^ 63 ≤ i) (hu : i < 2 ^ 64)
    (rest : Bytes) : btDeserializeInteger.run (btSerializeInteger i ++ rest) =
      .ok (UInt64.ofNat i.natAbs, decide (i < 0)) rest := by
  obtain ⟨d, ds, hd, hdig⟩ := isDigit_numeral_head i.natAbs
  have hx := extractUnsigned_numeral (n := i.natAbs) (by omega)
    (show ¬ Decimal.IsDigit 'e'.toUInt8 by decide) rest
  rw [hd, List.cons_append] at hx
  have hminus : (d == '-'.toUInt8) = false := by
    apply beq_eq_false_iff_ne.mpr
    rintro rfl
    exact absurd hdig (by decide)
  rw [btSerializeInteger, hd]
  by_cases hn : i < 0
  · have hbig : ¬ (1 : UInt64) <<< 63 < UInt64.ofNat i.natAbs := by
      rw [UInt64.lt_iff_toNat_lt, UInt64.toNat_ofNat_of_lt' (by simp only [UInt64.size]; omega)]
      have : ((1 : UInt64) <<< 63).toNat = 2 ^ 63 := by decide
      omega
    simp only [hn, if_true, List.cons_append, List.append_assoc, List.nil_append, decide_true]
    rw [btDeserializeInteger, run_get_bind, run_throwIf_bind (by simp), run_front_bind,
      run_throwIf_bind (by simp), run_removePrefix_bind, List.drop_one, List.tail_cons,
      run_front_bind,
      beq_self_eq_true, run_removePrefix_bind, Bool.toNat_true, List.drop_one, List.tail_cons,
      run_bind_ok hx, run_get_bind, run_throwIf_bind (by simp), run_front_bind,
      run_throwIf_bind (by simp),
      run_removePrefix_bind, run_throwIf_bind (by simp [hbig])]
    rfl
  · simp only [hn, if_false, List.cons_append, List.append_assoc, List.nil_append, decide_false]
    rw [btDeserializeInteger, run_get_bind, run_throwIf_bind (by simp; omega), run_front_bind,
      run_throwIf_bind (by simp), run_removePrefix_bind, List.drop_one, List.tail_cons,
      run_front_bind,
      hminus, run_removePrefix_bind, Bool.toNat_false, List.drop_zero,
      run_bind_ok hx, run_get_bind, run_throwIf_bind (by simp), run_front_bind,
      run_throwIf_bind (by simp),
      run_removePrefix_bind, run_throwIf_bind (by simp)]
    rfl

theorem btSerializeString_head (s : Bytes) :
    ∃ c r, btSerializeString s = c :: r ∧ c ≠ 'e'.toUInt8 ∧ r ≠ [] := by
  obtain ⟨d, ds, hd, hdig⟩ := isDigit_numeral_head s.length
  refine ⟨d, ds ++ ':'.toUInt8 :: s, by simp [btSerializeString, hd], ?_, by simp⟩
  rintro rfl
  exact absurd hdig (by decide)

section Containers

variable {α β : Type}

theorem run_untilEnd_end (body : α → BtReader α) (n : Nat) (acc : α) (s : Bytes) :
    (untilEnd body (n + 1) acc).run ('e'.toUInt8 :: s) = .ok acc ('e'.toUInt8 :: s) := rfl

theorem run_untilEnd_step (body : α → BtReader α) (n : Nat) (acc : α) (s : Bytes) {c : UInt8}
    (h : c ≠ 'e'.toUInt8) : (untilEnd body (n + 1) acc).run (c :: s) =
      (body acc >>= untilEnd body n).run (c :: s) :=
  if_neg h

/-- The element loop reads back a sequence of texts, none of which starts like
the end of a container. -/
theorem untilEnd_append {γ : Type} (body : γ → BtReader γ) (enc : α → Bytes) (push : γ → α → γ)
    (rest : Bytes) (xs : List α) (n : Nat) (acc : γ) (hn : xs.length < n)
    (henc : ∀ x ∈ xs, ∃ c s, enc x = c :: s ∧ c ≠ 'e'.toUInt8)
    (hbody : ∀ pre x post, xs = pre ++ x :: post → ∀ r,
      (body (pre.foldl push acc)).run (enc x ++ r) = .ok ((pre ++ [x]).foldl push acc) r) :
    (untilEnd body n acc).run (xs.flatMap enc ++ 'e'.toUInt8 :: rest) =
      .ok (xs.foldl push acc) ('e'.toUInt8 :: rest) := by
  induction xs generalizing n acc with
  | nil =>
    obtain ⟨n, rfl⟩ : ∃ m, n = m + 1 := ⟨n - 1, by simp at hn; omega⟩
    exact run_untilEnd_end body n acc rest
  | cons x xs ih =>
    obtain ⟨n, rfl⟩ : ∃ m, n = m + 1 := ⟨n - 1, by simp at hn; omega⟩
    obtain ⟨c, s, hc, hne⟩ := henc x (by simp)
    have hx : (body acc).run _ = .ok (push acc x) _ :=
      hbody [] x xs rfl (xs.flatMap enc ++ 'e'.toUInt8 :: rest)
    have hh := ih n (push acc x) (by simpa using hn) (fun y hy => henc y (by simp [hy]))
      (fun pre y post he r => hbody (x :: pre) y post (by simp [he]) r)
    rw [List.flatMap_cons, List.append_assoc]
    rw [hc, List.cons_append] at hx ⊢
    rw [run_untilEnd_step body n acc _ hne, run_bind_ok hx]
    exact hh

theorem length_le_flatMap {enc : α → Bytes} {xs : List α} (h : ∀ x ∈ xs, enc x ≠ []) :
    xs.length ≤ (xs.flatMap enc).length := by
  induction xs with
  | nil => simp
  | cons x xs ih =>
    have hx := List.length_pos_of_ne_nil (h x (by simp))
    have hh := ih (fun y hy => h y (by simp [hy]))
    simp only [List.flatMap_cons, List.length_cons, List.length_append]
    omega

theorem foldl_snoc (f : α → β) (xs : List α) (acc : List β) :
    xs.foldl (fun l x => l ++ [f x]) acc = acc ++ xs.map f := by
  induction xs generalizing acc with
  | nil => simp
  | cons x xs ih => simp [ih]

/-- A list of texts is read back element by element. -/
theorem btDeserializeList_btSerializeList (item : BtReader β) (enc : α → Bytes) (f : α → β)
    (xs : List α) (rest : Bytes) (henc : ∀ x ∈ xs, ∃ c s, enc x = c :: s ∧ c ≠ 'e'.toUInt8)
    (hitem : ∀ x ∈ xs, ∀ r, item.run (enc x ++ r) = .ok (f x) r) :
    (btDeserializeList item).run (btSerializeList (xs.map enc) ++ rest) =
      .ok (xs.map f) rest := by
  have hlen : xs.length ≤ (xs.flatMap enc).length := by
    apply length_le_flatMap
    intro x hx
    obtain ⟨c, s, hc, _⟩ := henc x hx
    simp [hc]
  have he : btSerializeList (xs.map enc) ++ rest =
      'l'.toUInt8 :: (xs.flatMap enc ++ 'e'.toUInt8 :: rest) := by
    simp [btSerializeList, List.flatMap_def]
  have hloop := untilEnd_append (fun list => do return list ++ [← item]) enc
    (fun l x => l ++ [f x]) rest xs
    ('l'.toUInt8 :: (xs.flatMap enc ++ 'e'.toUInt8 :: rest)).length []
    (by simp only [List.length_append, List.length_cons]; omega) henc (by
      intro pre x post hx r
      rw [run_bind_ok (hitem x (by simp [hx]) r), foldl_snoc, foldl_snoc]
      simp)
  rw [foldl_snoc, List.nil_append] at hloop
  rw [he, btDeserializeList, run_get_bind, run_throwIf_bind (by simp), run_front_bind,
    run_throwIf_bind (by simp), run_removePrefix_bind, List.drop_one, List.tail_cons,
    run_bind_ok hloop, run_get_bind, run_throwIf_bind (by simp), run_removePrefix_bind]
  rfl

theorem foldl_mapInsert (f : α → β) (ps : List (Bytes × α)) (acc : List (Bytes × β))
    (hs : (acc.map Prod.fst ++ ps.map Prod.fst).Pairwise (· < ·)) :
    ps.foldl (fun d p => mapInsert p.1 (f p.2) d) acc = acc ++ ps.map (fun p => (p.1, f p.2)) := by
  induction ps generalizing acc with
  | nil => simp
  | cons p ps ih =>
    have hlast := mapInsert_last (k := p.1) (d := acc) (f p.2) (by
      intro q hq
      have hp := (List.pairwise_append.mp hs).2.2
      exact hp q.1 (List.mem_map_of_mem hq) p.1 (by simp))
    have hh := ih (acc ++ [(p.1, f p.2)]) (by simpa using hs)
    simp [hlast, hh]

/-- A dict with ascending keys is read back pair by pair: each key is larger
than all keys read before it, so insertion appends. -/
theorem btDeserializeDict_btSerializeDict (value : BtReader β) (enc : α → Bytes) (f : α → β)
    (ps : List (Bytes × α)) (rest : Bytes) (hs : (ps.map Prod.fst).Pairwise (· < ·))
    (hk : ∀ p ∈ ps, p.1.length < 2 ^ 64)
    (hvalue : ∀ p ∈ ps, ∀ r, value.run (enc p.2 ++ r) = .ok (f p.2) r) :
    (btDeserializeDict value).run (btSerializeDict (ps.map fun p => (p.1, enc p.2)) ++ rest) =
      .ok (ps.map fun p => (p.1, f p.2)) rest := by
  let text : Bytes × α → Bytes := fun p => btSerializeString p.1 ++ enc p.2
  have htext : ∀ p ∈ ps, ∃ c s, text p = c :: s ∧ c ≠ 'e'.toUInt8 := by
    intro p _
    obtain ⟨c, r, hc, hne, -⟩ := btSerializeString_head p.1
    exact ⟨c, r ++ enc p.2, by simp only [text, hc, List.cons_append], hne⟩
  have hlen : ps.length ≤ (ps.flatMap text).length := by
    apply length_le_flatMap
    intro p hp
    obtain ⟨c, s, hc, _⟩ := htext p hp
    simp [hc]
  have he : btSerializeDict (ps.map fun p => (p.1, enc p.2)) ++ rest =
      'd'.toUInt8 :: (ps.flatMap text ++ 'e'.toUInt8 :: rest) := by
    rw [btSerializeDict_of_pairwise (by simpa [Function.comp_def] using hs)]
    simp [text, List.flatMap_map]
  have hloop := untilEnd_append (fun dict => do
      let key ← btDeserializeStringView
      let val ← value
      return mapInsert key val dict) text (fun d p => mapInsert p.1 (f p.2) d) rest ps
    ('d'.toUInt8 :: (ps.flatMap text ++ 'e'.toUInt8 :: rest)).length []
    (by simp only [List.length_append, List.length_cons]; omega) htext (by
      intro pre p post hp r
      have hmem : p ∈ ps := by simp [hp]
      rw [show text p ++ r = btSerializeString p.1 ++ (enc p.2 ++ r) by simp [text],
        run_bind_ok (btDeserializeStringView_btSerializeString (hk p hmem) _),
        run_bind_ok (hvalue p hmem r), List.foldl_append]
      rfl)
  rw [foldl_mapInsert f ps [] (by simpa using hs), List.nil_append] at hloop
  rw [he, btDeserializeDict, run_get_bind, run_throwIf_bind (by simp), run_front_bind,
    run_throwIf_bind (by simp), run_removePrefix_bind, List.drop_one, List.tail_cons,
    run_bind_ok hloop, run_get_bind, run_throwIf_bind (by simp), run_removePrefix_bind]
  rfl

end Containers

theorem btSerialize_head (v : BtVariant) :
    ∃ c s, btSerialize v = c :: s ∧ c ≠ 'e'.toUInt8 ∧ s ≠ [] := by
  cases v with
  | string s => simpa only [btSerialize] using btSerializeString_head s
  | stringView s => simpa only [btSerialize] using btSerializeString_head s
  | int i => exact ⟨'i'.toUInt8, _, rfl, by decide, by simp⟩
  | uint u => exact ⟨'i'.toUInt8, _, rfl, by decide, by simp⟩
  | list l => exact ⟨'l'.toUInt8, _, rfl, by decide, by simp⟩
  | dict d => exact ⟨'d'.toUInt8, _, rfl, by decide, by simp⟩

theorem length_lt_btSerializeList {items : List Bytes} {x : Bytes} (h : x ∈ items) :
    x.length < (btSerializeList items).length := by
  have hle : x.length ≤ items.flatten.length := (List.sublist_flatten_of_mem h).length_le
  simp only [btSerializeList, List.length_append, List.length_cons]
  omega

theorem int64_of_neg {i : Int64} (h : i < 0) :
    -(UInt64.ofNat i.toInt.natAbs).toInt64 = i := by
  have hneg : i.toInt < 0 := by simpa [Int64.lt_iff_toInt_lt] using h
  have he : (i.toInt.natAbs : Int) = -i.toInt := by omega
  rw [UInt64.toInt64_ofNat', ← Int64.ofInt_eq_ofNat, he, ← Int64.ofInt_neg, Int.neg_neg,
    Int64.ofInt_toInt]

theorem uint64_of_nonneg {i : Int64} (h : ¬ i < 0) :
    UInt64.ofNat i.toInt.natAbs = i.toUInt64 := by
  have hpos : ¬ i.toInt < 0 := by simpa [Int64.lt_iff_toInt_lt] using h
  have he : (i.toInt.natAbs : Int) = i.toInt := by omega
  have hi : (UInt64.ofNat i.toInt.natAbs).toInt64 = i := by
    rw [UInt64.toInt64_ofNat', ← Int64.ofInt_eq_ofNat, he, Int64.ofInt_toInt]
  rw [← UInt64.toUInt64_toInt64 (UInt64.ofNat i.toInt.natAbs), hi]

theorem length_lt_btSerializeDict {pairs : List (Bytes × Bytes)} {p : Bytes × Bytes}
    (h : p ∈ pairs) : p.2.length < (btSerializeDict pairs).length := by
  have hmem : btSerializeString p.1 ++ p.2 ∈ (pairs.mergeSort fun a b => !decide (b.1 < a.1)).map
      fun p => btSerializeString p.1 ++ p.2 :=
    List.mem_map_of_mem (f := fun p : Bytes × Bytes => btSerializeString p.1 ++ p.2)
      (List.mem_mergeSort.mpr h)
  have hle := (List.sublist_flatten_of_mem hmem).length_le
  simp only [btSerializeDict, List.flatMap_def, List.length_append, List.length_cons] at hle ⊢
  omega

/-- The dispatch on the first byte. -/
theorem run_btDeserializeValue_cons (n : Nat) (c : UInt8) {s : Bytes} (hs : s ≠ []) :
    (btDeserializeValue (n + 1)).run (c :: s) =
      (if c = 'd'.toUInt8 then do
        return .dict (← btDeserializeDict (btDeserializeValue n))
      else if c = 'l'.toUInt8 then do
        return .list (← btDeserializeList (btDeserializeValue n))
      else if c = 'i'.toUInt8 then do
        let (magnitude, negative) ← btDeserializeInteger
        return if negative then .int (-magnitude.toInt64) else .uint magnitude
      else if isDigit c then do
        return .string (← btDeserializeStringView)
      else
        throw (.invalid ("Deserialize failed: encountered invalid value '" ++ byteText c
          ++ "'; expected one of [0-9idl]")) : BtReader BtVariant).run (c :: s) := by
  have := List.length_pos_of_ne_nil hs
  rw [btDeserializeValue, run_get_bind, run_throwIf_bind (by simp; omega), run_front_bind]

theorem btSerialize_append {v : BtVariant} {c : UInt8} {s : Bytes} (h : btSerialize v = c :: s)
    (rest : Bytes) : btSerialize v ++ rest = c :: (s ++ rest) ∧ s ++ rest ≠ [] := by
  obtain ⟨c', s', h', -, hs⟩ := btSerialize_head v
  obtain ⟨rfl, rfl⟩ := List.cons.inj (h.symm.trans h')
  exact ⟨by rw [h, List.cons_append], by simp [hs]⟩

/-- No text is empty, so the fuel that covers it is not zero. -/
theorem exists_eq_succ_of_btSerialize {v : BtVariant} {n : Nat}
    (hn : (btSerialize v).length ≤ n) : ∃ m, n = m + 1 := by
  obtain ⟨c, s, hc, -⟩ := btSerialize_head v
  rw [hc, List.length_cons] at hn
  exact ⟨n - 1, by omega⟩

/-- Both string alternatives are written as text that starts with a digit. -/
theorem btDeserializeValue_string {v : BtVariant} {s : Bytes}
    (he : btSerialize v = btSerializeString s) (h : s.length < 2 ^ 64) (n : Nat) (rest : Bytes) :
    (btDeserializeValue (n + 1)).run (btSerialize v ++ rest) = .ok (.string s) rest := by
  obtain ⟨d, ds, hd, hdig⟩ := isDigit_numeral_head s.length
  have hne {c : UInt8} (hc : isDigit c = false) : d ≠ c := by
    rintro rfl
    exact Bool.noConfusion (hc.symm.trans hdig)
  obtain ⟨htext, hs⟩ := btSerialize_append (c := d)
    (he.trans (by rw [btSerializeString, hd, List.cons_append])) rest
  rw [htext, run_btDeserializeValue_cons n d hs, if_neg (hne (by decide)), if_neg (hne (by decide)),
    if_neg (hne (by decide)), if_pos hdig, ← htext, he,
    run_bind_ok (btDeserializeStringView_btSerializeString h rest)]
  rfl

theorem btDeserializeValue_integer {v : BtVariant} {i : Int}
    (he : btSerialize v = btSerializeInteger i) (hl : -2 ^ 63 ≤ i) (hu : i < 2 ^ 64) (n : Nat)
    (rest : Bytes) : (btDeserializeValue (n + 1)).run (btSerialize v ++ rest) =
      .ok (if i < 0 then .int (-(UInt64.ofNat i.natAbs).toInt64)
        else .uint (UInt64.ofNat i.natAbs)) rest := by
  obtain ⟨htext, hs⟩ := btSerialize_append (c := 'i'.toUInt8) he rest
  rw [htext, run_btDeserializeValue_cons n _ hs, if_neg (by decide), if_neg (by decide),
    if_pos rfl, ← htext, he, run_bind_ok (btDeserializeInteger_btSerializeInteger hl hu rest)]
  simp only [decide_eq_true_eq]
  rfl

theorem btDeserializeValue_btSerialize (v : BtVariant) (hv : v.Valid) (n : Nat) (rest : Bytes)
    (hn : (btSerialize v).length ≤ n) :
    (btDeserializeValue n).run (btSerialize v ++ rest) = .ok v.normalise rest := by
  induction v using BtVariant.induct generalizing n rest with
  | string s =>
    obtain ⟨n, rfl⟩ := exists_eq_succ_of_btSerialize hn
    exact btDeserializeValue_string (by simp only [btSerialize])
      (by simpa only [BtVariant.Valid] using hv) n rest
  | stringView s =>
    obtain ⟨n, rfl⟩ := exists_eq_succ_of_btSerialize hn
    exact btDeserializeValue_string (by simp only [btSerialize])
      (by simpa only [BtVariant.Valid] using hv) n rest
  | int i =>
    obtain ⟨n, rfl⟩ := exists_eq_succ_of_btSerialize hn
    have hl := i.le_toInt
    have hu := i.toInt_lt
    rw [btDeserializeValue_integer (i := i.toInt) (by simp only [btSerialize]) hl (by omega),
      BtVariant.normalise]
    have hiff : i.toInt < 0 ↔ i < 0 := by simp [Int64.lt_iff_toInt_lt]
    by_cases h : i < 0
    · rw [if_pos (hiff.mpr h), if_pos h, int64_of_neg h]
    · rw [if_neg (mt hiff.mp h), if_neg h, uint64_of_nonneg h]
  | uint u =>
    obtain ⟨n, rfl⟩ := exists_eq_succ_of_btSerialize hn
    have hu := u.toNat_lt
    rw [btDeserializeValue_integer (i := u.toNat) (by simp only [btSerialize]) (by omega)
      (by omega),
      BtVariant.normalise, if_neg (by omega), Int.natAbs_natCast, UInt64.ofNat_toNat]
  | list l ih =>
    obtain ⟨n, rfl⟩ := exists_eq_succ_of_btSerialize hn
    have he : btSerialize (.list l) = btSerializeList (l.map btSerialize) := by
      rw [btSerialize, btSerializeItems_eq_map]
    have hvalid := BtVariant.validList_iff.mp (by simpa only [BtVariant.Valid] using hv)
    have hread := btDeserializeList_btSerializeList (btDeserializeValue n) btSerialize
      BtVariant.normalise l rest
      (fun v _ => (btSerialize_head v).imp fun _ h => h.imp fun _ h => ⟨h.1, h.2.1⟩) (by
        intro v hmem r
        have hlt := length_lt_btSerializeList (List.mem_map_of_mem (f := btSerialize) hmem)
        exact ih v hmem (hvalid v hmem) n r (by rw [he] at hn; omega))
    obtain ⟨htext, hs⟩ := btSerialize_append (c := 'l'.toUInt8) he rest
    rw [htext, run_btDeserializeValue_cons n _ hs, if_neg (by decide), if_pos rfl, ← htext, he,
      run_bind_ok hread, BtVariant.normalise, BtVariant.normaliseList_eq_map]
    rfl
  | dict d ih =>
    obtain ⟨n, rfl⟩ := exists_eq_succ_of_btSerialize hn
    have he : btSerialize (.dict d) = btSerializeDict (d.map fun p => (p.1, btSerialize p.2)) := by
      rw [btSerialize, btSerializePairs_eq_map]
    obtain ⟨hasc, hd⟩ : _ ∧ BtVariant.ValidDict d := by simpa only [BtVariant.Valid] using hv
    have hvalid := BtVariant.validDict_iff.mp hd
    have hread := btDeserializeDict_btSerializeDict (btDeserializeValue n) btSerialize
      BtVariant.normalise d rest hasc (fun p hp => (hvalid p hp).1) (by
        intro p hmem r
        have hlt : (btSerialize p.2).length < _ := length_lt_btSerializeDict
          (List.mem_map_of_mem (f := fun p : Bytes × BtVariant => (p.1, btSerialize p.2)) hmem)
        exact ih p hmem (hvalid p hmem).2 n r (by rw [he] at hn; omega))
    obtain ⟨htext, hs⟩ := btSerialize_append (c := 'd'.toUInt8) he rest
    rw [htext, run_btDeserializeValue_cons n _ hs, if_pos rfl, ← htext, he, run_bind_ok hread,
      BtVariant.normalise, BtVariant.normaliseDict_eq_map]
    rfl

theorem run_btDeserialize_of_valid {v : BtVariant} (hv : v.Valid) (rest : Bytes) :
    btDeserialize.run (btSerialize v ++ rest) = .ok v.normalise rest := by
  rw [btDeserialize, run_get_bind]
  apply btDeserializeValue_btSerialize v hv
  simp only [List.length_append]
  omega

/-- Every value is read back from its text, whatever follows it, in the
representation the decoder uses; exactly what follows is left. -/
theorem btDeserialize_btSerialize (v : BtValue) (rest : Bytes) :
    btDeserialize.run (btSerialize v.1 ++ rest) = .ok v.1.normalise rest :=
  run_btDeserialize_of_valid v.2 rest

end ArqmaMQ
