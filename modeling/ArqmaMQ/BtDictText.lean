import ArqmaMQ.BtDictConsumer

/-! The text of a dict: its pairs in their order, and how the first byte of a
value tells its kind. -/

namespace ArqmaMQ

/-- The pairs of a dict text, behind its `d`, as the parser reads them one after
the other; `rest` is what follows the closing `e`. -/
inductive DictText (rest : Bytes) : Bytes → List (Bytes × BtVariant) → Prop
  | nil : DictText rest ('e'.toUInt8 :: rest) []
  | cons {s t u k : Bytes} {v : BtVariant} {ps : List (Bytes × BtVariant)}
      (hkey : btDeserializeStringView.run s = .ok k t) (hvalue : btDeserialize.run t = .ok v u)
      (htail : DictText rest u ps) : DictText rest s ((k, v) :: ps)

/-- The dict that is built from pairs: the first of several with one key wins. -/
def dictOf (ps : List (Bytes × BtVariant)) : List (Bytes × BtVariant) :=
  ps.foldl (fun d p => mapInsert p.1 p.2 d) []

theorem length_lt_of_run_btDeserializeStringView {s t k : Bytes}
    (h : btDeserializeStringView.run s = .ok k t) : t.length < s.length := by
  obtain ⟨-, -, -, read, hs, hk⟩ := (alike_btDeserializeStringView s).of_ok h
  rw [← hs, List.length_append]
  omega

theorem length_lt_of_run_btDeserialize {s t : Bytes} {v : BtVariant}
    (h : btDeserialize.run s = .ok v t) : t.length < s.length := by
  rw [btDeserialize, run_get_bind] at h
  obtain ⟨-, -, -, read, hs, hk⟩ :=
    (alike_btDeserializeValue (Nat.lt_succ_self _) (Nat.lt_succ_self _)).of_ok h
  rw [← hs, List.length_append]
  omega

theorem run_btDeserialize_of_value {n : Nat} {s t : Bytes} {v : BtVariant} (hn : s.length < n)
    (h : (btDeserializeValue n).run s = .ok v t) : btDeserialize.run s = .ok v t := by
  obtain ⟨_, hw, rfl, -⟩ := (alike_btDeserializeValue hn (Nat.lt_succ_self s.length)).of_ok h
  rw [btDeserialize, run_get_bind, hw]

/-- The pairs that a loop over keys and values reads, for any reader of values
that reads no more than the parser of values does. -/
theorem dictText_of_untilEnd {α : Type} {R : α → BtVariant → Prop} {value : BtReader α} {m n : Nat}
    (hvalue : ∀ s a t, s.length < m → value.run s = .ok a t →
      ∃ v, btDeserialize.run s = .ok v t ∧ R a v) {s t : Bytes} {acc d : List (Bytes × α)}
    (hm : s.length < m) (ht : t ≠ []) (h : (untilEnd (dictItem value) n acc).run s = .ok d t) :
    ∃ rest ps, ∃ qs : List (Bytes × α), t = 'e'.toUInt8 :: rest ∧ DictText rest s ps ∧
      List.Forall₂ (fun q p => q.1 = p.1 ∧ R q.2 p.2) qs ps ∧
      d = qs.foldl (fun d q => mapInsert q.1 q.2 d) acc := by
  induction n generalizing s acc with
  | zero => cases h
  | succ n ih =>
    rcases s with _ | ⟨c, s⟩
    · obtain ⟨-, rfl⟩ := EStateM.Result.ok.inj h
      exact absurd rfl ht
    by_cases hc : c = 'e'.toUInt8
    · subst hc
      obtain ⟨rfl, rfl⟩ := EStateM.Result.ok.inj h
      exact ⟨s, [], [], rfl, .nil, .nil, rfl⟩
    rw [run_untilEnd_step _ n acc s hc] at h
    obtain ⟨d', u, hitem, h⟩ := run_bind_eq_ok_iff.mp h
    obtain ⟨k, s₁, hkey, hitem⟩ := run_bind_eq_ok_iff.mp hitem
    obtain ⟨a, s₂, ha, hitem⟩ := run_bind_eq_ok_iff.mp hitem
    obtain ⟨rfl, rfl⟩ := EStateM.Result.ok.inj hitem
    have hlen := length_lt_of_run_btDeserializeStringView hkey
    obtain ⟨v, hv, hav⟩ := hvalue s₁ a s₂ (by omega) ha
    have hlen' := length_lt_of_run_btDeserialize hv
    obtain ⟨rest, ps, qs, rfl, hps, hqs, rfl⟩ := ih (by omega) h
    exact ⟨rest, (k, v) :: ps, (k, a) :: qs, rfl, .cons hkey hv hps, .cons ⟨rfl, hav⟩ hqs, rfl⟩

/-- The text behind the `d` of a dict that was read. -/
theorem exists_dictText_of_read {α : Type} {R : α → BtVariant → Prop} {value : BtReader α}
    {s rest : Bytes} {d : List (Bytes × α)} (hvalue : ∀ t a u, t.length < s.length →
      value.run t = .ok a u → ∃ v, btDeserialize.run t = .ok v u ∧ R a v)
    (h : (btDeserializeDict value).run s = .ok d rest) :
    ∃ t ps, ∃ qs : List (Bytes × α), s = 'd'.toUInt8 :: t ∧ t ≠ [] ∧ DictText rest t ps ∧
      List.Forall₂ (fun q p => q.1 = p.1 ∧ R q.2 p.2) qs ps ∧
      d = qs.foldl (fun d q => mapInsert q.1 q.2 d) [] := by
  by_cases herror : s.length < 2 ∨ s.head? ≠ some 'd'.toUInt8
  · obtain ⟨e, he, -⟩ := run_btDeserializeDict_error value herror
    cases h.symm.trans he
  obtain ⟨s, hs, rfl⟩ := exists_eq_cons herror
  rw [run_btDeserializeDict _ hs] at h
  obtain ⟨d', t, hloop, h⟩ := run_bind_eq_ok_iff.mp h
  rcases t with _ | ⟨c, t⟩
  · cases h
  obtain ⟨rfl, rfl⟩ := EStateM.Result.ok.inj h
  obtain ⟨rest, ps, qs, ht, hps, hqs, rfl⟩ := dictText_of_untilEnd hvalue (by simp) (by simp) hloop
  obtain ⟨-, rfl⟩ := List.cons.inj ht
  exact ⟨s, ps, qs, rfl, hs, hps, hqs, rfl⟩

/-- A dict that parses is the dict of the pairs in its text. -/
theorem exists_dictText {s rest : Bytes} {d : List (Bytes × BtVariant)}
    (h : btDeserializeBtDict.run s = .ok d rest) :
    ∃ t ps, s = 'd'.toUInt8 :: t ∧ t ≠ [] ∧ DictText rest t ps ∧ d = dictOf ps := by
  rw [btDeserializeBtDict, run_get_bind] at h
  obtain ⟨t, ps, qs, hs, ht, hps, hqs, rfl⟩ := exists_dictText_of_read (R := Eq)
    (fun t v u hlen hv => ⟨v, run_btDeserialize_of_value hlen hv, rfl⟩) h
  have hqs := hqs.imp fun q p hqp => Prod.ext hqp.1 hqp.2
  rw [List.forall₂_eq_eq_eq] at hqs
  exact ⟨t, ps, hs, ht, hps, by rw [hqs, dictOf]⟩

theorem isDigit_of_run_btDeserializeStringView {s t k : Bytes}
    (h : btDeserializeStringView.run s = .ok k t) : ∃ c u, s = c :: u ∧ isDigit c = true := by
  obtain ⟨_, hrun, -⟩ := (BtListConsumer.alike_consumeStringView s).of_ok h
  rcases s with _ | ⟨c, u⟩
  · cases hrun
  refine ⟨c, u, rfl, ?_⟩
  by_contra hc
  rw [BtListConsumer.consumeStringView, run_get_bind, run_throwIf_bind (by simp),
    run_bind_ok (BtListConsumer.run_isString_cons c u), run_front_bind,
    run_throwIf_bind_error (by simpa using hc)] at hrun
  cases hrun

theorem of_run_btDeserializeInteger {s t : Bytes} {magnitude : UInt64} {negative : Bool}
    (h : btDeserializeInteger.run s = .ok (magnitude, negative) t) :
    ∃ u, s = 'i'.toUInt8 :: u ∧ u ≠ [] ∧ negative = decide (u.head? = some '-'.toUInt8) := by
  rw [btDeserializeInteger, run_get_bind] at h
  obtain ⟨hlen, h⟩ := run_throwIf_bind_eq_ok_iff.mp h
  obtain ⟨c, s, rfl⟩ := List.exists_cons_of_length_pos (show 0 < s.length by omega)
  obtain ⟨d, s, rfl⟩ := List.exists_cons_of_length_pos
    (show 0 < s.length by rw [List.length_cons] at hlen; omega)
  rw [run_front_bind] at h
  obtain ⟨hc, h⟩ := run_throwIf_bind_eq_ok_iff.mp h
  obtain rfl := not_not.mp hc
  rw [run_removePrefix_bind, List.drop_one, List.tail_cons, run_front_bind,
    run_removePrefix_bind] at h
  obtain ⟨_, _, -, h⟩ := run_bind_eq_ok_iff.mp h
  obtain ⟨_, _, -, h⟩ := run_bind_eq_ok_iff.mp h
  obtain ⟨_, _, -, h⟩ := run_bind_eq_ok_iff.mp h
  obtain ⟨_, _, -, h⟩ := run_bind_eq_ok_iff.mp h
  obtain ⟨_, _, -, h⟩ := run_bind_eq_ok_iff.mp h
  obtain ⟨_, _, -, h⟩ := run_bind_eq_ok_iff.mp h
  obtain ⟨_, _, -, h⟩ := run_bind_eq_ok_iff.mp h
  have hn := (Prod.mk.inj (EStateM.Result.ok.inj h).1).2
  refine ⟨d :: s, rfl, by simp, hn.symm.trans ?_⟩
  simp [BEq.beq]

/-- No value starts like the end of a container. -/
theorem Parsed.head_ne {s rest : Bytes} {v : BtVariant} (h : Parsed s rest v) :
    ∃ c t, s = c :: t ∧ c ≠ 'e'.toUInt8 := by
  have hsplit {c : UInt8} (hc : s.head? = some c) (hne : c ≠ 'e'.toUInt8) :
      ∃ c t, s = c :: t ∧ c ≠ 'e'.toUInt8 := by
    obtain ⟨t, rfl⟩ := List.head?_eq_some_iff.mp hc
    exact ⟨c, t, rfl, hne⟩
  cases h with
  | dict head => exact hsplit head (by decide)
  | list head => exact hsplit head (by decide)
  | int head => exact hsplit head (by decide)
  | uint head => exact hsplit head (by decide)
  | string head digit =>
    refine hsplit head ?_
    rintro rfl
    exact absurd digit (by decide)

namespace BtVariant

/-- The consuming call that takes a value as it was parsed. -/
inductive Kind
  | string
  | int64
  | uint64
  | list
  | dict
  deriving DecidableEq, Repr

def kind : BtVariant → Kind
  | .string _ => .string
  | .stringView _ => .string
  | .int _ => .int64
  | .uint _ => .uint64
  | .list _ => .list
  | .dict _ => .dict

end BtVariant

theorem run_isNegativeInteger {s t : Bytes} {magnitude : UInt64} {negative : Bool}
    (h : btDeserializeInteger.run ('i'.toUInt8 :: s) = .ok (magnitude, negative) t) :
    BtListConsumer.isNegativeInteger.run ('i'.toUInt8 :: s) =
      .ok negative ('i'.toUInt8 :: s) := by
  obtain ⟨u, hu, hne, rfl⟩ := of_run_btDeserializeInteger h
  obtain rfl := (List.cons.inj hu).2
  have hlen : 2 ≤ ('i'.toUInt8 :: s).length := by
    have := List.length_pos_of_ne_nil hne
    rw [List.length_cons]
    omega
  rw [BtListConsumer.isNegativeInteger, run_bind_ok (BtListConsumer.run_isInteger_cons _ s),
    if_pos (by decide), run_get_bind, List.getElem?_cons_succ, ← List.head?_eq_getElem?]
  simp only [hlen, true_and]
  rfl

/-- The first byte tells the kind of the value. -/
theorem Parsed.answers {s rest : Bytes} {v : BtVariant} (h : Parsed s rest v) :
    BtListConsumer.isString.run s = .ok (v.kind == .string) s ∧
      BtListConsumer.isInteger.run s = .ok (v.kind == .int64 || v.kind == .uint64) s ∧
      BtListConsumer.isNegativeInteger.run s = .ok (v.kind == .int64) s ∧
      BtListConsumer.isList.run s = .ok (v.kind == .list) s ∧
      BtListConsumer.isDict.run s = .ok (v.kind == .dict) s := by
  cases h with
  | dict head h =>
    obtain ⟨t, rfl⟩ := List.head?_eq_some_iff.mp head
    exact ⟨rfl, rfl, rfl, rfl, rfl⟩
  | list head h =>
    obtain ⟨t, rfl⟩ := List.head?_eq_some_iff.mp head
    exact ⟨rfl, rfl, rfl, rfl, rfl⟩
  | int head h =>
    obtain ⟨t, rfl⟩ := List.head?_eq_some_iff.mp head
    exact ⟨rfl, rfl, run_isNegativeInteger h, rfl, rfl⟩
  | uint head h =>
    obtain ⟨t, rfl⟩ := List.head?_eq_some_iff.mp head
    exact ⟨rfl, rfl, run_isNegativeInteger h, rfl, rfl⟩
  | @string b c head digit h =>
    obtain ⟨t, rfl⟩ := List.head?_eq_some_iff.mp head
    have hne {d : UInt8} (hd : isDigit d = false) : (c == d) = false := by
      refine beq_eq_false_iff_ne.mpr ?_
      rintro rfl
      exact Bool.noConfusion (hd.symm.trans digit)
    have hint : BtListConsumer.isInteger.run (c :: t) = .ok false (c :: t) := by
      rw [BtListConsumer.run_isInteger_cons, hne (by decide)]
    refine ⟨?_, hint, ?_, ?_, ?_⟩
    · rw [BtListConsumer.run_isString_cons, digit]
      rfl
    · rw [BtListConsumer.isNegativeInteger, run_bind_ok hint]
      rfl
    · rw [BtListConsumer.run_isList_cons, hne (by decide)]
      rfl
    · rw [BtListConsumer.run_isDict_cons, hne (by decide)]
      rfl

end ArqmaMQ
