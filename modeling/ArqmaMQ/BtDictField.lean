import ArqmaMQ.BtDictWalk
import ArqmaMQ.BtExact
import ArqmaMQ.SortedMap

/-! Reading a dict forward, key by key: `skip_until` and the calls that consume
the value it stopped at. A dict that was written from a map is read as that map,
as long as the keys are asked for in their order. -/

namespace ArqmaMQ

open scoped ByteOrder

namespace BtDictConsumer

/-- `if (data.skip_until(key)) x = data.consume...();` -/
def fieldOr {α : Type} (key : Bytes) (x : Method α) (default : α) : Method α := do
  if ← skipUntil key then x else return default

variable {α : Type} {c : BtDictConsumer} {ps d : List (Bytes × BtVariant)} {v : BtVariant}
  {key find k r : Bytes}

def pairText (p : Bytes × BtVariant) : Bytes := btSerializeString p.1 ++ btSerialize p.2

/-- The text of the pairs that are left, up to the end of the dict. -/
def tailText (ps : List (Bytes × BtVariant)) : Bytes := ps.flatMap pairText ++ ['e'.toUInt8]

/-- A consumer in front of pairs, the key of the first one being cached or not. -/
inductive Written : BtDictConsumer → List (Bytes × BtVariant) → Prop
  | before (ps : List (Bytes × BtVariant)) : Written ⟨tailText ps, none⟩ ps
  | keyed (k : Bytes) (v : BtVariant) (ps : List (Bytes × BtVariant)) :
      Written ⟨btSerialize v ++ tailText ps, some k⟩ ((k, v) :: ps)

theorem tailText_cons (k : Bytes) (v : BtVariant) (ps : List (Bytes × BtVariant)) :
    tailText ((k, v) :: ps) = btSerializeString k ++ (btSerialize v ++ tailText ps) := by
  simp [tailText, pairText]

theorem valid_cons : (BtVariant.dict ((k, v) :: ps)).Valid ↔
    (∀ p ∈ ps, k < p.1) ∧ k.length < 2 ^ 64 ∧ v.Valid ∧ (BtVariant.dict ps).Valid := by
  simp only [BtVariant.Valid, BtVariant.ValidDict, List.map_cons, List.pairwise_cons,
    List.forall_mem_map]
  tauto

theorem ascending_of_valid (h : (BtVariant.dict ps).Valid) : SortedMap.Ascending ps := by
  rw [BtVariant.Valid] at h
  exact h.1

theorem run_skipValue (hv : v.Valid) (r : Bytes) :
    BtListConsumer.skipValue.run (btSerialize v ++ r) = .ok () r := by
  obtain ⟨b, s, hs, -⟩ := btSerialize_head v
  obtain ⟨_, hrun, -⟩ := (BtListConsumer.alike_skipValue (by simp [hs])).of_ok
    (run_btDeserialize_of_valid hv r)
  exact hrun

theorem run_flushKey (t k : Bytes) : flushKey.run ⟨t, some k⟩ = .ok k ⟨t, none⟩ := rfl

theorem Written.run_consumeKey (h : Written c ((k, v) :: ps)) (hk : k.length < 2 ^ 64)
    (hv : v.Valid) : consumeKey.run c = .ok true ⟨btSerialize v ++ tailText ps, some k⟩ := by
  cases h with
  | before =>
    rw [tailText_cons]
    exact run_consumeKey_pair (btDeserializeStringView_btSerializeString hk _)
      (run_btDeserialize_of_valid hv _)
  | keyed => rfl

/-- Where a loop over the keys stops: at a pair whose key is cached, or at the end. -/
def stopAt : List (Bytes × BtVariant) → BtDictConsumer
  | [] => ⟨tailText [], none⟩
  | (k, v) :: ps => ⟨btSerialize v ++ tailText ps, some k⟩

theorem written_stopAt (ps : List (Bytes × BtVariant)) : Written (stopAt ps) ps := by
  cases ps with
  | nil => exact .before []
  | cons p ps => exact .keyed p.1 p.2 ps

theorem Written.run_consumeKey_nil (h : Written c []) :
    consumeKey.run c = .ok false (stopAt []) := by
  cases h
  rfl

/-- The pairs that `skip_until` does not skip. -/
def later (find : Bytes) (ps : List (Bytes × BtVariant)) : List (Bytes × BtVariant) :=
  ps.filter fun p => !decide (p.1 < find)

theorem later_cons_of_lt (h : k < find) : later find ((k, v) :: ps) = later find ps :=
  List.filter_cons_of_neg (by simpa using h)

theorem later_cons_of_le (hlt : ∀ p ∈ ps, k < p.1) (h : ¬ k < find) :
    later find ((k, v) :: ps) = (k, v) :: ps := by
  refine List.filter_eq_self.mpr fun p hp => ?_
  rw [Bool.not_eq_true', decide_eq_false_iff_not]
  rcases List.mem_cons.mp hp with rfl | hp
  · exact h
  · exact fun hh => h ((hlt p hp).trans hh)

theorem valid_later (find : Bytes) (h : (BtVariant.dict ps).Valid) :
    (BtVariant.dict (later find ps)).Valid := by
  rw [BtVariant.Valid, BtVariant.validDict_iff] at h ⊢
  exact ⟨h.1.sublist (List.filter_sublist.map _), fun p hp => h.2 p (List.mem_of_mem_filter hp)⟩

/-- The loop stops at the first pair that is not skipped, and compares its key. -/
theorem Written.run_skipLoop (h : Written c ps) (hps : (BtVariant.dict ps).Valid) {n : Nat}
    (hn : ps.length < n) : (skipLoop find n).run c =
      .ok ((stopAt (later find ps)).key_.getD [] == find) (stopAt (later find ps)) := by
  induction ps generalizing c n with
  | nil =>
    obtain ⟨n, rfl⟩ : ∃ m, n = m + 1 := ⟨n - 1, by omega⟩
    rw [skipLoop, run_bind_ok h.run_consumeKey_nil]
    rfl
  | cons p ps ih =>
    obtain ⟨k, v⟩ := p
    obtain ⟨hlt, hk, hv, hvalid⟩ := valid_cons.mp hps
    obtain ⟨n, rfl⟩ : ∃ m, n = m + 1 := ⟨n - 1, by omega⟩
    rw [skipLoop, run_bind_ok (h.run_consumeKey hk hv), if_pos rfl, run_get_bind, Option.getD_some]
    by_cases hfind : k < find
    · have hskip : (base BtListConsumer.skipValue).run ⟨btSerialize v ++ tailText ps, none⟩ =
          .ok () ⟨tailText ps, none⟩ := run_base_ok (run_skipValue hv _)
      rw [if_pos hfind, run_bind_ok (run_flushKey _ k), run_bind_ok hskip, later_cons_of_lt hfind]
      exact ih (.before ps) hvalid (by simpa using hn)
    · rw [if_neg hfind, later_cons_of_le hlt hfind]
      rfl

theorem get_later (hps : (BtVariant.dict ps).Valid) (h : find ≤ key) :
    SortedMap.get key (later find ps) = SortedMap.get key ps := by
  induction ps with
  | nil => rfl
  | cons p ps ih =>
    obtain ⟨k, v⟩ := p
    obtain ⟨hlt, -, -, hvalid⟩ := valid_cons.mp hps
    by_cases hk : k < find
    · rw [later_cons_of_lt hk, ih hvalid, SortedMap.get_cons_of_lt (hk.trans_le h)]
    · rw [later_cons_of_le hlt hk]

/-- The consumer still shows the values that the map has under `key` and later
keys. -/
def Ahead (d : List (Bytes × BtVariant)) (key : Bytes) (c : BtDictConsumer) : Prop :=
  ∃ ps, Written c ps ∧ (BtVariant.dict ps).Valid ∧
    ∀ k, key ≤ k → SortedMap.get k ps = SortedMap.get k d

/-- The call `x` consumes the value `v` and returns `a`. -/
def Reads (x : Method α) (v : BtVariant) (a : α) : Prop :=
  ∀ k r, x.run ⟨btSerialize v ++ r, some k⟩ = .ok a ⟨r, none⟩

theorem length_le_flatMap_pairText (ps : List (Bytes × BtVariant)) :
    ps.length ≤ (ps.flatMap pairText).length := by
  refine length_le_flatMap fun p _ => ?_
  obtain ⟨b, s, hs, -⟩ := btSerialize_head p.2
  simp [pairText, hs]

theorem Written.length_le (h : Written c ps) : ps.length ≤ c.data.length := by
  cases h with
  | before =>
    have := length_le_flatMap_pairText ps
    rw [tailText, List.length_append]
    omega
  | keyed k v ps =>
    obtain ⟨b, s, hs, -⟩ := btSerialize_head v
    have := length_le_flatMap_pairText ps
    simp only [tailText, List.length_append, List.length_cons, hs]
    omega

theorem Written.run_skipUntil (h : Written c ps) (hps : (BtVariant.dict ps).Valid)
    (find : Bytes) :
    (skipUntil find).run c =
      .ok ((stopAt (later find ps)).key_.getD [] == find) (stopAt (later find ps)) := by
  rw [skipUntil, run_get_bind]
  exact h.run_skipLoop hps (Nat.lt_succ_of_le h.length_le)

/-- `skip_until` finds a key if the map has it, and moves on to the later ones. -/
theorem Ahead.skipUntil (h : Ahead d find c) (hfind : find ≠ []) :
    (SortedMap.get find d = none ∧ ∃ c', (skipUntil find).run c = .ok false c' ∧
        ∀ key, find < key → Ahead d key c') ∨
      ∃ v r, SortedMap.get find d = some v ∧ v.Valid ∧
        (skipUntil find).run c = .ok true ⟨btSerialize v ++ r, some find⟩ ∧
        ∀ key, find < key → Ahead d key ⟨r, none⟩ := by
  obtain ⟨ps, hw, hvalid, hget⟩ := h
  have hrun := hw.run_skipUntil hvalid find
  have hlater : (BtVariant.dict (later find ps)).Valid := valid_later find hvalid
  have hkeep (key : Bytes) (hkey : find ≤ key) :
      SortedMap.get key (later find ps) = SortedMap.get key d := by
    rw [get_later hvalid hkey, hget key hkey]
  have hmissed (hne : (stopAt (later find ps)).key_.getD [] ≠ find)
      (hnone : SortedMap.get find (later find ps) = none) :
      SortedMap.get find d = none ∧ ∃ c', (BtDictConsumer.skipUntil find).run c = .ok false c' ∧
        ∀ key, find < key → Ahead d key c' := by
    refine ⟨(hkeep find le_rfl).symm.trans hnone, _, ?_, fun key hkey =>
      ⟨_, written_stopAt _, hlater, fun k hk => hkeep k (hkey.le.trans hk)⟩⟩
    rw [hrun, beq_eq_false_iff_ne.mpr hne]
  cases hps : later find ps with
  | nil => exact .inl (hmissed (by rw [hps]; exact hfind.symm) (by rw [hps]; rfl))
  | cons p rest =>
    obtain ⟨k, v⟩ := p
    have hmem : (k, v) ∈ later find ps := by rw [hps]; exact List.mem_cons_self
    have hle : find ≤ k := by simpa [later] using (List.mem_filter.mp hmem).2
    rw [hps] at hlater
    rcases hle.eq_or_lt with rfl | hgt
    · obtain ⟨-, -, hv, hrest⟩ := valid_cons.mp hlater
      rw [hps] at hrun hkeep
      refine .inr ⟨v, tailText rest, (hkeep find le_rfl).symm.trans ?_, hv, ?_, fun key hkey =>
        ⟨rest, .before rest, hrest, fun k hk => ?_⟩⟩
      · rw [SortedMap.get_cons, if_pos rfl]
      · rw [hrun, stopAt, Option.getD_some, beq_self_eq_true]
      · rw [← hkeep k (hkey.le.trans hk), SortedMap.get_cons_of_lt (hkey.trans_le hk)]
    · refine .inl (hmissed (by rw [hps]; exact hgt.ne') ?_)
      rw [hps]
      exact SortedMap.get_eq_none_of_lt (ascending_of_valid hlater) hgt

theorem Ahead.skipUntil_of_none (h : Ahead d find c) (hfind : find ≠ [])
    (hget : SortedMap.get find d = none) :
    ∃ c', (BtDictConsumer.skipUntil find).run c = .ok false c' ∧
      ∀ key, find < key → Ahead d key c' := by
  rcases h.skipUntil hfind with ⟨-, h⟩ | ⟨v, r, hv, -⟩
  · exact h
  · cases hget.symm.trans hv

theorem Ahead.skipUntil_of_some (h : Ahead d find c) (hfind : find ≠ [])
    (hget : SortedMap.get find d = some v) :
    ∃ r, (BtDictConsumer.skipUntil find).run c = .ok true ⟨btSerialize v ++ r, some find⟩ ∧
      ∀ key, find < key → Ahead d key ⟨r, none⟩ := by
  rcases h.skipUntil hfind with ⟨hv, -⟩ | ⟨v', r, hv, -, hrun⟩
  · cases hget.symm.trans hv
  · obtain rfl := Option.some.inj (hv.symm.trans hget)
    exact ⟨r, hrun⟩

/-- Under `key` the map has a value that `x` reads as `a`, or it has none and `a`
is the default. -/
def Holds (d : List (Bytes × BtVariant)) (key : Bytes) (x : Method α) (default a : α) : Prop :=
  (SortedMap.get key d = none ∧ a = default) ∨ ∃ v, SortedMap.get key d = some v ∧ Reads x v a

theorem Ahead.fieldOr {x : Method α} {default a : α} (h : Ahead d find c) (hfind : find ≠ [])
    (ha : Holds d find x default a) :
    ∃ c', (fieldOr find x default).run c = .ok a c' ∧ ∀ key, find < key → Ahead d key c' := by
  rcases ha with ⟨hget, rfl⟩ | ⟨v, hget, hreads⟩
  · obtain ⟨c', hrun, hahead⟩ := h.skipUntil_of_none hfind hget
    exact ⟨c', by rw [BtDictConsumer.fieldOr, run_bind_ok hrun]; rfl, hahead⟩
  · obtain ⟨r, hrun, hahead⟩ := h.skipUntil_of_some hfind hget
    exact ⟨⟨r, none⟩, by rw [BtDictConsumer.fieldOr, run_bind_ok hrun]; exact hreads find r, hahead⟩

/-- A consumer made from the text of a map shows all of it. -/
theorem ahead_of_ofData (hd : (BtVariant.dict d).Valid) :
    ∃ c, ofData (btSerialize (.dict d)) = .ok c ∧ ∀ key, Ahead d key c := by
  have hkeys : ((d.map fun p => (p.1, btSerialize p.2)).map Prod.fst).Pairwise (· < ·) := by
    rw [BtVariant.Valid] at hd
    rw [List.map_map]
    exact hd.1
  have htext : btSerialize (.dict d) = 'd'.toUInt8 :: tailText d := by
    rw [btSerialize, btSerializePairs_eq_map, btSerializeDict_of_pairwise hkeys, tailText,
      List.flatMap_map]
    rfl
  refine ⟨⟨tailText d, none⟩, ?_, fun _ => ⟨d, .before d, hd, fun _ _ => rfl⟩⟩
  rw [htext, ofData, if_neg (by simp), if_neg (by simp [tailText])]
  rfl

section Values

variable {t : Bytes}

/-- The consumer is at a value whose key is, or will be, cached. -/
def At (c : BtDictConsumer) (k : Bytes) (v : BtVariant) (r : Bytes) : Prop :=
  consumeKey.run c = .ok true ⟨btSerialize v ++ r, some k⟩

theorem at_keyed (k : Bytes) (v : BtVariant) (r : Bytes) : At ⟨btSerialize v ++ r, some k⟩ k v r :=
  run_consumeKey_keyed _ k

theorem At.run_valueIs (h : At c k v r) {x : BtReader Bool} {b : Bool} {u : Bytes}
    (hv : btSerialize v ++ r = u) (hx : x.run u = .ok b u) :
    (valueIs x).run c = .ok b ⟨btSerialize v ++ r, some k⟩ :=
  BtDictConsumer.run_valueIs h fun _ => by rw [hv, hx]

theorem At.run_nextString (h : At c k v r) {s : Bytes} (hs : s.length < 2 ^ 64)
    (hv : btSerialize v = btSerializeString s) : nextString.run c = .ok (k, s) ⟨r, none⟩ := by
  have hread := btDeserializeStringView_btSerializeString hs r
  obtain ⟨b, t, ht, hb⟩ := isDigit_of_run_btDeserializeStringView hread
  obtain ⟨_, hrun, rfl, -⟩ := (BtListConsumer.alike_consumeStringView _).of_ok hread
  rw [← hv] at ht hrun
  exact run_nextWith (h.run_valueIs ht (by rw [BtListConsumer.run_isString_cons, hb])) hrun

theorem At.run_nextInteger (h : At c k v r) (t : IntType) {i : Int} (hi : t.Holds i)
    (hv : btSerialize v = btSerializeInteger i) :
    (nextInteger t).run c = .ok (k, i) ⟨r, none⟩ := by
  obtain ⟨s, hs⟩ : ∃ s, btSerialize v ++ r = 'i'.toUInt8 :: s := by
    rw [hv]
    exact ⟨_, rfl⟩
  have hread := run_btDeserializeInt t hi r
  rw [← hv] at hread
  exact run_nextWith (h.run_valueIs hs rfl) (run_consumeAs (by rw [hs]; rfl) hread)

theorem btSerialize_list_cons (l : List BtVariant) (r : Bytes) :
    ∃ s, btSerialize (.list l) ++ r = 'l'.toUInt8 :: s := by
  rw [btSerialize]
  exact ⟨_, rfl⟩

theorem btSerialize_dict_cons (d : List (Bytes × BtVariant)) (r : Bytes) :
    ∃ s, btSerialize (.dict d) ++ r = 'd'.toUInt8 :: s := by
  rw [btSerialize]
  exact ⟨_, rfl⟩

theorem At.run_nextList {l : List BtVariant} (h : At c k (.list l) r)
    (hl : (BtVariant.list l).Valid) :
    nextList.run c = .ok (k, l.map BtVariant.normalise) ⟨r, none⟩ := by
  obtain ⟨s, hs⟩ := btSerialize_list_cons l r
  have hread := run_btDeserialize_of_valid hl r
  rw [BtVariant.normalise, run_btDeserialize_list, BtVariant.normaliseList_eq_map] at hread
  exact run_nextWith (h.run_valueIs hs rfl) (run_consumeAs (by rw [hs]; rfl) hread)

theorem At.run_nextDict {d : List (Bytes × BtVariant)} (h : At c k (.dict d) r)
    (hd : (BtVariant.dict d).Valid) :
    nextDict.run c = .ok (k, d.map fun p => (p.1, p.2.normalise)) ⟨r, none⟩ := by
  obtain ⟨s, hs⟩ := btSerialize_dict_cons d r
  have hread := run_btDeserialize_of_valid hd r
  rw [BtVariant.normalise, run_btDeserialize_dict, BtVariant.normaliseDict_eq_map] at hread
  exact run_nextWith (h.run_valueIs hs rfl) (run_consumeAs (by rw [hs]; rfl) hread)

theorem At.run_nextListData {l : List BtVariant} (h : At c k (.list l) r)
    (hlen : ¬ c.data.length < 2) (hl : (BtVariant.list l).Valid) :
    nextListData.run c = .ok (k, btSerialize (.list l)) ⟨r, none⟩ := by
  obtain ⟨s, hs⟩ := btSerialize_list_cons l r
  have hparse := run_btDeserialize_of_valid hl r
  rw [BtVariant.normalise, run_btDeserialize_list] at hparse
  have hdata : BtListConsumer.consumeListData.run (btSerialize (.list l) ++ r) =
      .ok (btSerialize (.list l)) r :=
    (BtListConsumer.run_consumeListData_iff _ _ _).mpr ⟨rfl, _, hparse⟩
  have hbase : (base BtListConsumer.consumeListData).run ⟨btSerialize (.list l) ++ r, none⟩ =
      .ok (btSerialize (.list l)) ⟨r, none⟩ := run_base_ok hdata
  have hlist : isList.run c = .ok true ⟨btSerialize (.list l) ++ r, some k⟩ :=
    h.run_valueIs hs rfl
  rw [nextListData, run_get_bind, if_neg hlen, run_bind_ok hlist, if_pos rfl,
    run_bind_ok (run_flushKey _ k), run_bind_ok hbase]
  rfl

theorem At.run_nextDictData {d : List (Bytes × BtVariant)} (h : At c k (.dict d) r)
    (hlen : ¬ c.data.length < 2) (hd : (BtVariant.dict d).Valid) :
    nextDictData.run c = .ok (k, btSerialize (.dict d)) ⟨r, none⟩ := by
  obtain ⟨s, hs⟩ := btSerialize_dict_cons d r
  have hparse := run_btDeserialize_of_valid hd r
  rw [BtVariant.normalise, run_btDeserialize_dict] at hparse
  have hdata : BtListConsumer.consumeDictData.run (btSerialize (.dict d) ++ r) =
      .ok (btSerialize (.dict d)) r :=
    (BtListConsumer.run_consumeDictData_iff _ _ _).mpr ⟨rfl, _, hparse⟩
  have hbase : (base BtListConsumer.consumeDictData).run ⟨btSerialize (.dict d) ++ r, none⟩ =
      .ok (btSerialize (.dict d)) ⟨r, none⟩ := run_base_ok hdata
  have hdict : isDict.run c = .ok true ⟨btSerialize (.dict d) ++ r, some k⟩ :=
    h.run_valueIs hs rfl
  rw [nextDictData, run_get_bind, if_neg hlen, run_bind_ok hdict, if_pos rfl,
    run_bind_ok (run_flushKey _ k), run_bind_ok hbase]
  rfl

theorem reads_consumeString {s : Bytes} (hs : s.length < 2 ^ 64)
    (hv : btSerialize v = btSerializeString s) : Reads consumeString v s := by
  intro k r
  rw [consumeString, run_bind_ok ((at_keyed k v r).run_nextString hs hv)]
  rfl

theorem reads_consumeInteger (t : IntType) {i : Int} (hmin : t.min ≤ i) (hmax : i ≤ t.max)
    (hv : btSerialize v = btSerializeInteger i) : Reads (consumeInteger t) v i := by
  intro k r
  rw [consumeInteger, run_bind_ok ((at_keyed k v r).run_nextInteger t ⟨hmin, hmax⟩ hv)]
  rfl

theorem not_length_lt_two (v : BtVariant) (r : Bytes) : ¬ (btSerialize v ++ r).length < 2 := by
  obtain ⟨b, s, hs, -, hne⟩ := btSerialize_head v
  have := List.length_pos_of_ne_nil hne
  rw [hs, List.length_append, List.length_cons]
  omega

theorem reads_consumeListData {l : List BtVariant} (hl : (BtVariant.list l).Valid) :
    Reads consumeListData (.list l) (btSerialize (.list l)) := by
  intro k r
  rw [consumeListData,
    run_bind_ok ((at_keyed k (.list l) r).run_nextListData (not_length_lt_two _ r) hl)]
  rfl

end Values

end BtDictConsumer

end ArqmaMQ
