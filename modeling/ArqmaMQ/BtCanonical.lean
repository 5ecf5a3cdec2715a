import ArqmaMQ.BtTypes

/-! The text of a value does not depend on the order in which its maps are
iterated over, and in it the keys of every dict ascend. -/

namespace ArqmaMQ

open scoped ByteOrder

section Sorting

variable {α β : Type} {d e : List (Bytes × α)}

/-- The order in which a dict is written. -/
def sortPairs (d : List (Bytes × α)) : List (Bytes × α) :=
  d.mergeSort fun a b => !decide (b.1 < a.1)

theorem sortPairs_perm (d : List (Bytes × α)) : (sortPairs d).Perm d :=
  List.mergeSort_perm d _

theorem ascending_sortPairs (h : (d.map Prod.fst).Nodup) :
    ((sortPairs d).map Prod.fst).Pairwise (· < ·) := by
  have hnodup : ((sortPairs d).map Prod.fst).Nodup :=
    ((sortPairs_perm d).map Prod.fst).nodup_iff.mpr h
  have hsorted : (sortPairs d).Pairwise fun a b => (!decide (b.1 < a.1)) = true := by
    refine List.pairwise_mergeSort ?_ ?_ d
    · intro a b c hab hbc
      simp only [Bool.not_eq_true', decide_eq_false_iff_not, not_lt] at *
      exact hab.trans hbc
    · intro a b
      simpa using le_total a.1 b.1
  rw [List.pairwise_map]
  refine (hsorted.and (List.pairwise_map.mp hnodup)).imp ?_
  rintro a b ⟨hle, hne⟩
  exact lt_of_le_of_ne (by simpa using hle) hne

theorem eq_of_ascending (hd : (d.map Prod.fst).Pairwise (· < ·))
    (he : (e.map Prod.fst).Pairwise (· < ·)) (h : d.Perm e) : d = e := by
  refine h.eq_of_pairwise ?_ (List.pairwise_map.mp hd) (List.pairwise_map.mp he)
  intro a b _ _ hab hba
  exact absurd hba (lt_asymm hab)

theorem keys_map (f : α → β) (d : List (Bytes × α)) :
    (d.map fun p => (p.1, f p.2)).map Prod.fst = d.map Prod.fst := by
  rw [List.map_map]
  rfl

theorem btSerializeDict_eq_of_perm {d e : List (Bytes × Bytes)} (hd : (d.map Prod.fst).Nodup)
    (h : d.Perm e) : btSerializeDict d = btSerializeDict e := by
  have he : (e.map Prod.fst).Nodup := (h.map Prod.fst).nodup_iff.mp hd
  have hsort : sortPairs d = sortPairs e := eq_of_ascending (ascending_sortPairs hd)
    (ascending_sortPairs he) (((sortPairs_perm d).trans h).trans (sortPairs_perm e).symm)
  rw [sortPairs, sortPairs] at hsort
  rw [btSerializeDict, btSerializeDict, hsort]

end Sorting

/-- Texts in which the keys of every dict ascend. -/
inductive Canonical : Bytes → Prop
  | integer (i : Int) : Canonical (btSerializeInteger i)
  | string (s : Bytes) : Canonical (btSerializeString s)
  | list (items : List Bytes) (hitems : ∀ x ∈ items, Canonical x) :
      Canonical ('l'.toUInt8 :: items.flatten ++ ['e'.toUInt8])
  | dict (pairs : List (Bytes × Bytes)) (hkeys : (pairs.map Prod.fst).Pairwise (· < ·))
      (hvalues : ∀ p ∈ pairs, Canonical p.2) :
      Canonical ('d'.toUInt8 :: (pairs.flatMap fun p => btSerializeString p.1 ++ p.2) ++
        ['e'.toUInt8])

namespace Canonical

variable {α : Type} {f : α → Bytes}

theorem btSerializeList {l : List α} (h : ∀ v ∈ l, Canonical (f v)) :
    Canonical (btSerializeList (l.map f)) := by
  refine .list _ fun x hx => ?_
  obtain ⟨v, hv, rfl⟩ := List.mem_map.mp hx
  exact h v hv

theorem btSerializeDict {d : List (Bytes × α)} (hkeys : (d.map Prod.fst).Nodup)
    (h : ∀ p ∈ d, Canonical (f p.2)) :
    Canonical (btSerializeDict (d.map fun p => (p.1, f p.2))) := by
  refine .dict (sortPairs _) (ascending_sortPairs (by rwa [keys_map])) fun q hq => ?_
  obtain ⟨p, hp, rfl⟩ := List.mem_map.mp ((sortPairs_perm _).mem_iff.mp hq)
  exact h p hp

end Canonical

theorem canonical_btSerialize (v : BtVariant) (hv : v.Valid) : Canonical (btSerialize v) := by
  induction v using BtVariant.induct with
  | string s =>
    rw [btSerialize]
    exact .string s
  | stringView s =>
    rw [btSerialize]
    exact .string s
  | int i =>
    rw [btSerialize]
    exact .integer _
  | uint u =>
    rw [btSerialize]
    exact .integer _
  | list l ih =>
    rw [BtVariant.Valid, BtVariant.validList_iff] at hv
    rw [btSerialize, btSerializeItems_eq_map]
    exact .btSerializeList fun v hmem => ih v hmem (hv v hmem)
  | dict d ih =>
    rw [BtVariant.Valid, BtVariant.validDict_iff] at hv
    rw [btSerialize, btSerializePairs_eq_map]
    exact .btSerializeDict (hv.1.imp fun h => ne_of_lt h) fun p hp => ih p hp (hv.2 p hp).2

namespace BtType

theorem canonical_writeFields {ts : List BtType}
    (h : ∀ t ∈ ts, ∀ v, t.Valid v → Canonical (t.write v)) (v : Fields ts)
    (hv : ValidFields ts v) : ∀ x ∈ writeFields ts v, Canonical x := by
  induction ts with
  | nil => nofun
  | cons t ts ih =>
    intro x hx
    rcases List.mem_cons.mp hx with rfl | hx
    · exact h t List.mem_cons_self v.1 hv.1
    · exact ih (fun u hu => h u (List.mem_cons_of_mem t hu)) v.2 hv.2 x hx

theorem canonical_write (t : BtType) (v : t.Val) (hv : t.Valid v) : Canonical (t.write v) := by
  induction t using BtType.induct with
  | int t => exact .integer v
  | string => exact .string v
  | value => exact canonical_btSerialize v hv
  | list t ih => exact .btSerializeList fun w hw => ih w (hv w hw)
  | dict t ih => exact .btSerializeDict hv.1 fun p hp => ih p.2 (hv.2 p hp).2
  | tuple ts ih => exact .list _ (canonical_writeFields ih v hv)
  | pair s t ihs iht =>
    refine .list [s.write v.1, t.write v.2] fun x hx => ?_
    rcases List.mem_pair.mp hx with rfl | rfl
    · exact ihs v.1 hv.1
    · exact iht v.2 hv.2

theorem map_eq_of_forall₂ {α β : Type} {R : α → α → Prop} {f : α → β} {l m : List α}
    (h : List.Forall₂ R l m) (hf : ∀ a ∈ l, ∀ b ∈ m, R a b → f a = f b) : l.map f = m.map f := by
  induction h with
  | nil => rfl
  | @cons a b l m hab _ ih =>
    rw [List.map_cons, List.map_cons, hf a List.mem_cons_self b List.mem_cons_self hab,
      ih fun a ha b hb => hf a (List.mem_cons_of_mem _ ha) b (List.mem_cons_of_mem _ hb)]

theorem btSerializeDict_eq_of_samePairs {α : Type} {R : α → α → Prop} {f : α → Bytes}
    {d e : List (Bytes × α)} (hkeys : (d.map Prod.fst).Nodup) (h : SamePairs R d e)
    (hf : ∀ p ∈ d, ∀ q ∈ e, R p.2 q.2 → f p.2 = f q.2) :
    btSerializeDict (d.map fun p => (p.1, f p.2)) =
      btSerializeDict (e.map fun p => (p.1, f p.2)) := by
  obtain ⟨e', hperm, hsame⟩ := h
  have hmap : (d.map fun p => (p.1, f p.2)) = e'.map fun p => (p.1, f p.2) := by
    refine map_eq_of_forall₂ hsame fun p hp q hq hpq => ?_
    rw [hpq.1, hf p hp q (hperm.mem_iff.mp hq) hpq.2]
  refine btSerializeDict_eq_of_perm (by rwa [keys_map]) ?_
  rw [hmap]
  exact hperm.map _

theorem writeFields_eq_of_same {ts : List BtType}
    (h : ∀ t ∈ ts, ∀ v w, t.Valid v → t.Valid w → t.Same v w → t.write v = t.write w)
    (v w : Fields ts) (hv : ValidFields ts v) (hw : ValidFields ts w) (hsame : SameFields ts v w) :
    writeFields ts v = writeFields ts w := by
  induction ts with
  | nil => rfl
  | cons t ts ih =>
    rw [writeFields, writeFields, h t List.mem_cons_self v.1 w.1 hv.1 hw.1 hsame.1,
      ih (fun u hu => h u (List.mem_cons_of_mem t hu)) v.2 w.2 hv.2 hw.2 hsame.2]

theorem write_eq_of_same (t : BtType) (v w : t.Val) (hv : t.Valid v) (hw : t.Valid w)
    (h : t.Same v w) : t.write v = t.write w := by
  induction t using BtType.induct with
  | int t => exact congrArg btSerializeInteger h
  | string => exact congrArg btSerializeString h
  | value => exact congrArg btSerialize h
  | list t ih =>
    have hmap := map_eq_of_forall₂ h fun a ha b hb hab => ih a b (hv a ha) (hw b hb) hab
    exact congrArg btSerializeList hmap
  | dict t ih =>
    exact btSerializeDict_eq_of_samePairs hv.1 h fun p hp q hq hpq =>
      ih p.2 q.2 (hv.2 p hp).2 (hw.2 q hq).2 hpq
  | tuple ts ih => exact congrArg btSerializeTuple (writeFields_eq_of_same ih v w hv hw h)
  | pair s t ihs iht =>
    have hs := ihs v.1 w.1 hv.1 hw.1 h.1
    have ht := iht v.2 w.2 hv.2 hw.2 h.2
    rw [write, write, hs, ht]

/-- However the maps of an object are iterated over, at any level, the text is
the same, and the keys of its dicts ascend. -/
theorem write_canonical (t : BtType) (v w : t.Object) (h : t.Same v.1 w.1) :
    t.write v.1 = t.write w.1 ∧ Canonical (t.write v.1) :=
  ⟨write_eq_of_same t v.1 w.1 v.2 w.2 h, canonical_write t v.1 v.2⟩

/-- Two orders of a map and of a map in it, with a key above 127. -/
theorem write_canonical_orders :
    (dict (dict string)).Same [([98], [([200], [1]), ([122], [2])]), ([97], [])]
      [([97], []), ([98], [([122], [2]), ([200], [1])])] ∧
    (dict (dict string)).write [([98], [([200], [1]), ([122], [2])]), ([97], [])] =
      (dict (dict string)).write [([97], []), ([98], [([122], [2]), ([200], [1])])] := by
  have hsame : (dict (dict string)).Same [([98], [([200], [1]), ([122], [2])]), ([97], [])]
      [([97], []), ([98], [([122], [2]), ([200], [1])])] := by
    refine ⟨[([98], [([122], [2]), ([200], [1])]), ([97], [])], List.Perm.swap _ _ _, ?_⟩
    refine .cons ⟨rfl, [([200], [1]), ([122], [2])], List.Perm.swap _ _ _, ?_⟩
      (.cons ⟨rfl, [], .nil, .nil⟩ .nil)
    exact .cons ⟨rfl, rfl⟩ (.cons ⟨rfl, rfl⟩ .nil)
  have hv : ValidPairs (ValidPairs fun s : Bytes => s.length < 2 ^ 64)
      [([98], [([200], [1]), ([122], [2])]), ([97], [])] := by decide
  have hw : ValidPairs (ValidPairs fun s : Bytes => s.length < 2 ^ 64)
      [([97], []), ([98], [([122], [2]), ([200], [1])])] := by decide
  exact ⟨hsame, (write_canonical (dict (dict string)) ⟨_, hv⟩ ⟨_, hw⟩ hsame).1⟩

end BtType

end ArqmaMQ
