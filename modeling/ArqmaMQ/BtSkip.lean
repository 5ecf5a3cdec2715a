import ArqmaMQ.BtDictField
import ArqmaMQ.BtTuples

/-! `skip_until` on a dict that was written from a map: what it answers, where it
stops, and what the next call returns there. The end of the dict has no key,
and an absent key compares equal to the empty string. -/

namespace ArqmaMQ

namespace BtDictConsumer

open scoped ByteOrder

variable {c : BtDictConsumer} {d ps : List (Bytes × BtVariant)} {v : BtVariant} {find k : Bytes}

/-- Every call that suits the next value returns it with its key, and stands
behind it. -/
structure NextReturns (c : BtDictConsumer) (k : Bytes) (v : BtVariant)
    (ps : List (Bytes × BtVariant)) : Prop where
  key : ∃ c', key.run c = .ok k c' ∧ Written c' ((k, v) :: ps)
  string : ∀ s, v.getString = .ok s → nextString.run c = .ok (k, s) ⟨tailText ps, none⟩
  integer : ∀ t i, v.integer? = some i → t.Holds i →
    (nextInteger t).run c = .ok (k, i) ⟨tailText ps, none⟩
  list : ∀ l, v = .list l →
    nextList.run c = .ok (k, l.map BtVariant.normalise) ⟨tailText ps, none⟩
  dict : ∀ d, v = .dict d →
    nextDict.run c = .ok (k, d.map fun p => (p.1, p.2.normalise)) ⟨tailText ps, none⟩
  listData : ∀ l, v = .list l → nextListData.run c = .ok (k, btSerialize v) ⟨tailText ps, none⟩
  dictData : ∀ d, v = .dict d → nextDictData.run c = .ok (k, btSerialize v) ⟨tailText ps, none⟩

theorem Written.not_length_lt_two (h : Written c ((k, v) :: ps)) : ¬ c.data.length < 2 := by
  have hvalue := BtDictConsumer.not_length_lt_two v (tailText ps)
  cases h with
  | before =>
    rw [tailText_cons, List.length_append]
    omega
  | keyed => exact hvalue

theorem btSerialize_of_getString {s : Bytes} (h : v.getString = .ok s) :
    btSerialize v = btSerializeString s := by
  cases v with
  | string s' =>
    cases h
    rw [btSerialize]
  | stringView s' =>
    cases h
    rw [btSerialize]
  | _ => cases h

theorem btSerialize_of_integer? {i : Int} (h : v.integer? = some i) :
    btSerialize v = btSerializeInteger i := by
  cases v with
  | int j =>
    cases h
    rw [btSerialize]
  | uint u =>
    cases h
    rw [btSerialize]
  | _ => cases h

theorem Written.nextReturns (h : Written c ((k, v) :: ps)) (hk : k.length < 2 ^ 64)
    (hv : v.Valid) : NextReturns c k v ps where
  key := by
    refine ⟨_, ?_, .keyed k v ps⟩
    rw [BtDictConsumer.key, run_bind_ok (h.run_consumeKey hk hv)]
    rfl
  string s hs := by
    refine At.run_nextString (h.run_consumeKey hk hv) ?_ (btSerialize_of_getString hs)
    cases v with
    | string s' =>
      cases hs
      simpa only [BtVariant.Valid] using hv
    | stringView s' =>
      cases hs
      simpa only [BtVariant.Valid] using hv
    | _ => cases hs
  integer t i hi ht :=
    At.run_nextInteger (h.run_consumeKey hk hv) t ht (btSerialize_of_integer? hi)
  list l hl := by
    subst hl
    exact At.run_nextList (h.run_consumeKey hk hv) hv
  dict d hd := by
    subst hd
    exact At.run_nextDict (h.run_consumeKey hk hv) hv
  listData l hl := by
    subst hl
    exact At.run_nextListData (h.run_consumeKey hk hv) h.not_length_lt_two hv
  dictData d hd := by
    subst hd
    exact At.run_nextDictData (h.run_consumeKey hk hv) h.not_length_lt_two hv

/-- The answer says whether the key is there, all pairs with smaller keys and no
others are passed over, and the next call returns the first one left. -/
def SkipsExactly (c : BtDictConsumer) (ps : List (Bytes × BtVariant)) (find : Bytes) : Prop :=
  ∃ c', (skipUntil find).run c = .ok (decide (find ∈ ps.map Prod.fst)) c' ∧
    Written c' (later find ps) ∧
    ∀ k v rest, later find ps = (k, v) :: rest → NextReturns c' k v rest

/-- The first key that is left is the one looked for if that is a key at all. -/
theorem stop_eq_iff_mem (hps : (BtVariant.dict ps).Valid) {rest : List (Bytes × BtVariant)}
    (h : later find ps = (k, v) :: rest) : k = find ↔ find ∈ ps.map Prod.fst := by
  have hmem {p : Bytes × BtVariant} (hp : p ∈ later find ps) : p ∈ ps ∧ find ≤ p.1 := by
    simpa [later] using List.mem_filter.mp hp
  have hfirst := hmem (h ▸ List.mem_cons_self)
  constructor
  · rintro rfl
    exact List.mem_map_of_mem hfirst.1
  · intro hfind
    obtain ⟨⟨k', w⟩, hw, rfl⟩ := List.mem_map.mp hfind
    have hleft : (k', w) ∈ later k' ps := by simpa [later] using hw
    have hvalid := valid_later k' hps
    rw [h] at hleft hvalid
    rcases List.mem_cons.mp hleft with heq | hrest
    · exact (Prod.mk.inj heq).1.symm
    · exact absurd ((valid_cons.mp hvalid).1 _ hrest) (not_lt.mpr hfirst.2)

theorem not_mem_of_later_eq_nil (h : later find ps = []) : find ∉ ps.map Prod.fst := by
  intro hfind
  obtain ⟨p, hp, rfl⟩ := List.mem_map.mp hfind
  exact absurd (List.filter_eq_nil_iff.mp h p hp) (by simp)

theorem stop_beq_eq_decide (hps : (BtVariant.dict ps).Valid) (h : ¬ (find = [] ∧ ps = [])) :
    ((stopAt (later find ps)).key_.getD [] == find) = decide (find ∈ ps.map Prod.fst) := by
  rw [Bool.eq_iff_iff, beq_iff_eq, decide_eq_true_iff]
  cases hlater : later find ps with
  | nil =>
    refine iff_of_false (fun hempty : [] = find => h ⟨hempty.symm, ?_⟩)
      (not_mem_of_later_eq_nil hlater)
    subst hempty
    rwa [later, List.filter_eq_self.mpr fun p _ => by simp] at hlater
  | cons p rest => exact stop_eq_iff_mem hps hlater

theorem dict_valid_of_suffix (hd : (BtVariant.dict d).Valid) (h : ps <:+ d) :
    (BtVariant.dict ps).Valid := by
  rw [BtVariant.Valid, BtVariant.validDict_iff] at hd ⊢
  exact ⟨hd.1.sublist (h.sublist.map _), fun p hp => hd.2 p (h.subset hp)⟩

/-- The only wrong answer is for the empty string at the end of the dict. -/
theorem skipsExactly_iff (d ps : List (Bytes × BtVariant)) (hd : (BtVariant.dict d).Valid)
    (hps : ps <:+ d) (c : BtDictConsumer) (hc : Written c ps) (find : Bytes) :
    SkipsExactly c ps find ↔ ¬ (find = [] ∧ ps = []) := by
  have hvalid := dict_valid_of_suffix hd hps
  have hrun := hc.run_skipUntil hvalid find
  constructor
  · rintro ⟨c', hskip, -⟩ ⟨rfl, rfl⟩
    cases hrun.symm.trans hskip
  · intro hne
    refine ⟨_, hrun.trans ?_, written_stopAt _, fun k v rest hlater => ?_⟩
    · rw [stop_beq_eq_decide hvalid hne]
    · rw [hlater]
      have hleft := valid_later find hvalid
      rw [hlater] at hleft
      obtain ⟨-, hk, hv, -⟩ := valid_cons.mp hleft
      exact (written_stopAt _).nextReturns hk hv

/-- From the first pair of a dict with the keys `a` and `c`, looking for `b`. -/
theorem skipsExactly_between : SkipsExactly
    ⟨tailText [(bytes "a", .uint 1), (bytes "c", .string (bytes "x"))], none⟩
    [(bytes "a", .uint 1), (bytes "c", .string (bytes "x"))] (bytes "b") := by
  refine (skipsExactly_iff [(bytes "a", .uint 1), (bytes "c", .string (bytes "x"))] _ ?_
    List.suffix_rfl _ (.before _) _).mpr (by simp)
  simp only [BtVariant.Valid, BtVariant.ValidDict]
  decide

/-- On the text `de` the answer for the empty string is yes. -/
theorem not_skipsExactly_end : ¬ SkipsExactly ⟨bytes "e", none⟩ [] [] := by
  rintro ⟨c', h, -⟩
  have hrun : (skipUntil []).run ⟨bytes "e", none⟩ = .ok true ⟨bytes "e", none⟩ := by decide
  cases hrun.symm.trans h

end BtDictConsumer

end ArqmaMQ
