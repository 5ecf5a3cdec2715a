import ArqmaMQ.BtCanonical

/-! Reading an object back from its text with the template of its own type. The
writer and the reader are chosen by the type, so the induction is on types; in
each container it goes on over the elements. -/

namespace ArqmaMQ

theorem btDeserializeTuple_btSerializeTuple {α : Type} {elems : BtReader α} {texts : List Bytes}
    {a : α} (rest : Bytes) (h : elems.run (texts.flatten ++ 'e'.toUInt8 :: rest) =
      .ok a ('e'.toUInt8 :: rest)) :
    (btDeserializeTuple elems).run (btSerializeTuple texts ++ rest) = .ok a rest := by
  have he : btSerializeTuple texts ++ rest =
      'l'.toUInt8 :: (texts.flatten ++ 'e'.toUInt8 :: rest) := by
    simp [btSerializeTuple]
  rw [he, btDeserializeTuple, run_get_bind, run_throwIf_bind (by simp), run_front_bind,
    run_throwIf_bind (by simp), run_removePrefix_bind, List.drop_one, List.tail_cons,
    run_bind_ok h, run_get_bind, run_throwIf_bind (by simp), run_front_bind,
    run_throwIf_bind (by simp), run_removePrefix_bind]
  rfl

theorem run_readBoth {α β : Type} {x : BtReader α} {y : BtReader β} {a : α} {b : β}
    {s t u : Bytes} (hx : x.run s = .ok a t) (hy : y.run t = .ok b u) :
    (readBoth x y).run s = .ok (a, b) u := by
  rw [readBoth, run_bind_ok hx, run_bind_ok hy]
  rfl

namespace BtType

mutual

/-- What is read back: maps are iterated over in the order of their keys, and
dynamic values are in the decoder's representation. -/
def normalise : (t : BtType) → t.Val → t.Val
  | .int _, i => i
  | .string, s => s
  | .value, v => BtVariant.normalise v
  | .list t, l => List.map t.normalise l
  | .dict t, d => (sortPairs d).map fun p => (p.1, t.normalise p.2)
  | .tuple ts, v => normaliseFields ts v
  | .pair s t, v => (s.normalise v.1, t.normalise v.2)

def normaliseFields : (ts : List BtType) → Fields ts → Fields ts
  | [], v => v
  | t :: ts, v => (t.normalise v.1, normaliseFields ts v.2)

end

/-- No text starts like the end of a container. -/
theorem write_head (t : BtType) (v : t.Val) : ∃ c s, t.write v = c :: s ∧ c ≠ 'e'.toUInt8 := by
  cases t with
  | int t => exact ⟨'i'.toUInt8, _, rfl, by decide⟩
  | string =>
    obtain ⟨c, s, hc, hne, -⟩ := btSerializeString_head v
    exact ⟨c, s, hc, hne⟩
  | value =>
    obtain ⟨c, s, hc, hne, -⟩ := btSerialize_head v
    exact ⟨c, s, hc, hne⟩
  | list t => exact ⟨'l'.toUInt8, _, rfl, by decide⟩
  | dict t => exact ⟨'d'.toUInt8, _, rfl, by decide⟩
  | tuple ts => exact ⟨'l'.toUInt8, _, rfl, by decide⟩
  | pair s t => exact ⟨'l'.toUInt8, _, rfl, by decide⟩

/-- The type is read from its text whatever follows. -/
def ReadsBack (t : BtType) : Prop :=
  ∀ v, t.Valid v → ∀ rest, t.read.run (t.write v ++ rest) = .ok (t.normalise v) rest

theorem run_readFields {ts : List BtType} (h : ∀ t ∈ ts, t.ReadsBack) (v : Fields ts)
    (hv : ValidFields ts v) (rest : Bytes) :
    (readFields ts).run ((writeFields ts v).flatten ++ rest) = .ok (normaliseFields ts v) rest := by
  induction ts with
  | nil => rfl
  | cons t ts ih =>
    have ht := h t List.mem_cons_self v.1 hv.1 ((writeFields ts v.2).flatten ++ rest)
    have hts := ih (fun u hu => h u (List.mem_cons_of_mem t hu)) v.2 hv.2
    rw [writeFields, List.flatten_cons, List.append_assoc]
    exact run_readBoth ht hts

theorem btDeserializeDict_normalise {α : Type} (value : BtReader α) (enc : α → Bytes) (f : α → α)
    {P : α → Prop} {d : List (Bytes × α)} (hd : ValidPairs P d)
    (h : ∀ a, P a → ∀ rest, value.run (enc a ++ rest) = .ok (f a) rest) (rest : Bytes) :
    (btDeserializeDict value).run (btSerializeDict (d.map fun p => (p.1, enc p.2)) ++ rest) =
      .ok ((sortPairs d).map fun p => (p.1, f p.2)) rest := by
  have hmem {p : Bytes × α} (hp : p ∈ sortPairs d) := hd.2 p ((sortPairs_perm d).mem_iff.mp hp)
  rw [btSerializeDict_eq_of_perm (by rw [keys_map]; exact hd.1)
    ((sortPairs_perm d).symm.map fun p => (p.1, enc p.2))]
  exact btDeserializeDict_btSerializeDict value enc f (sortPairs d) rest
    (ascending_sortPairs hd.1) (fun p hp => (hmem hp).1) fun p hp r => h p.2 (hmem hp).2 r

theorem readsBack (t : BtType) : t.ReadsBack := by
  induction t using BtType.induct with
  | int t => exact fun i hi rest => run_btDeserializeInt t hi rest
  | string => exact fun s hs rest => btDeserializeStringView_btSerializeString hs rest
  | value => exact fun v hv rest => run_btDeserialize_of_valid hv rest
  | list t ih =>
    exact fun l hl rest => btDeserializeList_btSerializeList t.read t.write t.normalise l rest
      (fun v _ => t.write_head v) fun v hv r => ih v (hl v hv) r
  | dict t ih => exact fun d hd rest => btDeserializeDict_normalise _ _ _ hd ih rest
  | tuple ts ih =>
    exact fun v hv rest => btDeserializeTuple_btSerializeTuple rest (run_readFields ih v hv _)
  | pair s t ihs iht =>
    intro v hv rest
    have hs := ihs v.1 hv.1 (t.write v.2 ++ 'e'.toUInt8 :: rest)
    have ht := iht v.2 hv.2 ('e'.toUInt8 :: rest)
    refine btDeserializeTuple_btSerializeTuple rest ?_
    rw [List.flatten_cons, List.flatten_cons, List.flatten_nil, List.append_nil,
      List.append_assoc]
    exact run_readBoth hs ht

theorem sameFields_normaliseFields {ts : List BtType} {p : BtType → Bool}
    (h : ∀ t ∈ ts, t.all p = true → ∀ v, t.Same (t.normalise v) v) (hts : allFields p ts = true)
    (v : Fields ts) : SameFields ts (normaliseFields ts v) v := by
  induction ts with
  | nil => trivial
  | cons t ts ih =>
    obtain ⟨ht, hts⟩ := Bool.and_eq_true_iff.mp hts
    exact ⟨h t List.mem_cons_self ht v.1,
      ih (fun u hu => h u (List.mem_cons_of_mem t hu)) hts v.2⟩

/-- What is read back differs from what was written only in the order of maps. -/
theorem same_normalise (t : BtType) (ht : t.Static) (v : t.Val) : t.Same (t.normalise v) v := by
  have hmap {α β : Type} {R : β → α → Prop} {f : α → β} (h : ∀ a, R (f a) a) (l : List α) :
      List.Forall₂ R (l.map f) l :=
    List.forall₂_map_left_iff.mpr (List.forall₂_same.mpr fun a _ => h a)
  induction t using BtType.induct with
  | int t => rfl
  | string => rfl
  | value => cases ht
  | list t ih => exact hmap (ih (Bool.and_eq_true_iff.mp ht).2) v
  | dict t ih =>
    refine ⟨sortPairs v, sortPairs_perm v, hmap (fun p => ⟨rfl, ?_⟩) (sortPairs v)⟩
    exact ih (Bool.and_eq_true_iff.mp ht).2 p.2
  | tuple ts ih => exact sameFields_normaliseFields ih (Bool.and_eq_true_iff.mp ht).2 v
  | pair s t ihs iht =>
    obtain ⟨hs, ht⟩ := Bool.and_eq_true_iff.mp ht
    exact ⟨ihs (Bool.and_eq_true_iff.mp hs).2 v.1, iht ht v.2⟩

/-- Every object is read back from its text by the reader of its type, and
exactly what follows the text is left. -/
theorem read_write (t : BtType) (ht : t.Static) (v : t.Object) (rest : Bytes) :
    ∃ r, t.read.run (t.write v.1 ++ rest) = .ok r rest ∧ t.Same r v.1 :=
  ⟨t.normalise v.1, t.readsBack v.1 v.2 rest, t.same_normalise ht v.1⟩

/-- A map of lists and a string: the extreme integers, an empty list, and keys
that are not in order. -/
def sampleValue : List (Bytes × List Int) × Bytes := ([([98], [-128, 127]), ([97], [])], [200])

theorem read_write_sampleValue : (pair (dict (list (int .int8))) string).Static ∧
    ∃ r, (pair (dict (list (int .int8))) string).read.run
        ((pair (dict (list (int .int8))) string).write sampleValue ++ [1]) = .ok r [1] ∧
      (pair (dict (list (int .int8))) string).Same r sampleValue := by
  have hstatic : (pair (dict (list (int .int8))) string).Static := rfl
  have hvalid : ValidPairs (fun l : List Int => ∀ i ∈ l, IntType.int8.Holds i) sampleValue.1 ∧
      sampleValue.2.length < 2 ^ 64 := by decide
  exact ⟨hstatic, read_write _ hstatic ⟨sampleValue, hvalid⟩ [1]⟩

end BtType

end ArqmaMQ
