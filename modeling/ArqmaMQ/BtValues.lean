import ArqmaMQ.BtDictText
import ArqmaMQ.BtTypes

/-! The values in a text. What can be read into some type is a value for the parser
too, and ends at the same byte. -/

namespace ArqmaMQ

/-- Values that follow one another, as the parser reads them. -/
inductive Values : Bytes → Bytes → Prop
  | nil (s : Bytes) : Values s s
  | cons {s t u : Bytes} {v : BtVariant} (h : btDeserialize.run s = .ok v t)
      (htail : Values t u) : Values s u

namespace Values

variable {s t u rest : Bytes} {v : BtVariant}

theorem trans (h : Values s t) (h' : Values t u) : Values s u := by
  induction h with
  | nil => exact h'
  | cons hv _ ih => exact .cons hv (ih h')

theorem length_le (h : Values s t) : t.length ≤ s.length := by
  induction h with
  | nil => exact Nat.le_refl _
  | cons hv _ ih => exact ih.trans (length_lt_of_run_btDeserialize hv).le

/-- What is behind the first value. -/
theorem tail (h : Values s ('e'.toUInt8 :: rest)) (hv : btDeserialize.run s = .ok v t) :
    Values t ('e'.toUInt8 :: rest) := by
  cases h with
  | nil =>
    obtain ⟨c, u, hs, hc⟩ := (parsed_of_run_btDeserialize hv).head_ne
    exact absurd (List.cons.inj hs).1.symm hc
  | cons hw htail =>
    obtain ⟨-, rfl⟩ := EStateM.Result.ok.inj (hw.symm.trans hv)
    exact htail

theorem ne_nil (h : Values s ('e'.toUInt8 :: rest)) : s ≠ [] :=
  List.length_pos_iff.mp (Nat.lt_of_lt_of_le (by simp) h.length_le)

end Values

section Lists

variable {α : Type} {s t rest : Bytes}

theorem values_of_untilEnd {item : BtReader α} {m n : Nat} (hitem : ∀ s a t, s.length < m →
      item.run s = .ok a t → ∃ v, btDeserialize.run s = .ok v t)
    {acc l : List α} (hm : s.length < m) (ht : t ≠ [])
    (h : (untilEnd (listItem item) n acc).run s = .ok l t) :
    ∃ rest, t = 'e'.toUInt8 :: rest ∧ Values s t := by
  induction n generalizing s acc with
  | zero => cases h
  | succ n ih =>
    rcases s with _ | ⟨c, s⟩
    · obtain ⟨-, rfl⟩ := EStateM.Result.ok.inj h
      exact absurd rfl ht
    by_cases hc : c = 'e'.toUInt8
    · subst hc
      obtain ⟨-, rfl⟩ := EStateM.Result.ok.inj h
      exact ⟨s, rfl, .nil _⟩
    rw [run_untilEnd_step _ n acc s hc] at h
    obtain ⟨l', u, hrun, h⟩ := run_bind_eq_ok_iff.mp h
    obtain ⟨a, u, hread, ha⟩ := run_bind_eq_ok_iff.mp hrun
    obtain ⟨rfl, rfl⟩ := EStateM.Result.ok.inj ha
    obtain ⟨v, hv⟩ := hitem _ _ _ hm hread
    have hlen := length_lt_of_run_btDeserialize hv
    obtain ⟨rest, rfl, htail⟩ := ih (by omega) h
    exact ⟨rest, rfl, .cons hv htail⟩

/-- The text behind the `l` of a list that was read. -/
theorem exists_values_of_read {item : BtReader α} {l : List α} (hitem : ∀ t a u,
      t.length < s.length → item.run t = .ok a u → ∃ v, btDeserialize.run t = .ok v u)
    (h : (btDeserializeList item).run s = .ok l rest) :
    ∃ t, s = 'l'.toUInt8 :: t ∧ Values t ('e'.toUInt8 :: rest) := by
  by_cases herror : s.length < 2 ∨ s.head? ≠ some 'l'.toUInt8
  · obtain ⟨e, he, -⟩ := run_btDeserializeList_error item herror
    cases h.symm.trans he
  obtain ⟨s, hs, rfl⟩ := exists_eq_cons herror
  rw [run_btDeserializeList _ hs] at h
  obtain ⟨l', t, hloop, h⟩ := run_bind_eq_ok_iff.mp h
  rcases t with _ | ⟨c, t⟩
  · cases h
  obtain ⟨rfl, rfl⟩ := EStateM.Result.ok.inj h
  obtain ⟨rest, ht, hvalues⟩ := values_of_untilEnd hitem (by simp) (by simp) hloop
  obtain ⟨rfl, rfl⟩ := List.cons.inj ht
  exact ⟨s, rfl, hvalues⟩

theorem run_btDeserializeValue_of {v : BtVariant} {n : Nat} (hn : s.length < n)
    (h : btDeserialize.run s = .ok v t) : (btDeserializeValue n).run s = .ok v t := by
  rw [btDeserialize, run_get_bind] at h
  obtain ⟨_, hw, rfl, -⟩ := (alike_btDeserializeValue (Nat.lt_succ_self s.length) hn).of_ok h
  exact hw

theorem run_untilEnd_of_values (h : Values s t) (ht : t = 'e'.toUInt8 :: rest) {m n : Nat}
    (hm : s.length < m) (hn : s.length < n) (acc : List BtVariant) :
    ∃ l, (untilEnd (listItem (btDeserializeValue m)) n acc).run s =
      .ok l ('e'.toUInt8 :: rest) := by
  obtain ⟨n, rfl⟩ : ∃ k, n = k + 1 := ⟨n - 1, by omega⟩
  induction h generalizing n acc with
  | nil s =>
    subst ht
    exact ⟨acc, run_untilEnd_end _ n acc rest⟩
  | @cons s u _ v hv htail ih =>
    have hlen := length_lt_of_run_btDeserialize hv
    obtain ⟨c, s, rfl, hc⟩ := (parsed_of_run_btDeserialize hv).head_ne
    obtain ⟨n, rfl⟩ : ∃ k, n = k + 1 := ⟨n - 1, by rw [List.length_cons] at hn hlen; omega⟩
    obtain ⟨l, hl⟩ := ih ht (by omega) (acc ++ [v]) n (by omega)
    have hitem : (listItem (btDeserializeValue m) acc).run (c :: s) = .ok (acc ++ [v]) u := by
      rw [listItem, run_bind_ok (run_btDeserializeValue_of hm hv)]
      rfl
    exact ⟨l, by rw [run_untilEnd_step _ _ acc s hc, run_bind_ok hitem, hl]⟩

/-- A list is its values between `l` and `e`. -/
theorem run_btDeserialize_of_values (h : Values s ('e'.toUInt8 :: rest)) :
    ∃ l, btDeserialize.run ('l'.toUInt8 :: s) = .ok (.list l) rest := by
  obtain ⟨l, hl⟩ := run_untilEnd_of_values h rfl (m := s.length + 1) (n := s.length + 1)
    (Nat.lt_succ_self _) (Nat.lt_succ_self _) []
  refine ⟨l, run_btDeserialize_list.mpr ?_⟩
  rw [btDeserializeBtList, run_get_bind, run_btDeserializeList _ h.ne_nil, closeWith,
    List.length_cons, run_bind_ok hl]
  rfl

theorem run_untilEnd_of_dictText {ps : List (Bytes × BtVariant)} (h : DictText rest s ps)
    {m n : Nat} (hm : s.length < m) (hn : s.length < n) (acc : List (Bytes × BtVariant)) :
    ∃ d, (untilEnd (dictItem (btDeserializeValue m)) n acc).run s =
      .ok d ('e'.toUInt8 :: rest) := by
  obtain ⟨n, rfl⟩ : ∃ k, n = k + 1 := ⟨n - 1, by omega⟩
  induction h generalizing n acc with
  | nil => exact ⟨acc, run_untilEnd_end _ n acc rest⟩
  | @cons s t u k v ps hkey hvalue htail ih =>
    have hlen := length_lt_of_run_btDeserializeStringView hkey
    have hlen' := length_lt_of_run_btDeserialize hvalue
    obtain ⟨c, s, rfl, hc⟩ := isDigit_of_run_btDeserializeStringView hkey
    have hc : c ≠ 'e'.toUInt8 := by
      rintro rfl
      exact absurd hc (by decide)
    obtain ⟨n, rfl⟩ : ∃ k, n = k + 1 := ⟨n - 1, by rw [List.length_cons] at hn hlen; omega⟩
    obtain ⟨d, hd⟩ := ih (by omega) (mapInsert k v acc) n (by omega)
    have hitem : (dictItem (btDeserializeValue m) acc).run (c :: s) =
        .ok (mapInsert k v acc) u := by
      rw [dictItem, run_bind_ok hkey, run_bind_ok (run_btDeserializeValue_of (by omega) hvalue)]
      rfl
    exact ⟨d, by rw [run_untilEnd_step _ _ acc s hc, run_bind_ok hitem, hd]⟩

/-- A dict is its pairs between `d` and `e`. -/
theorem run_btDeserialize_of_dictText {ps : List (Bytes × BtVariant)} (hs : s ≠ [])
    (h : DictText rest s ps) :
    ∃ d, btDeserialize.run ('d'.toUInt8 :: s) = .ok (.dict d) rest := by
  obtain ⟨d, hd⟩ := run_untilEnd_of_dictText h (m := s.length + 1) (n := s.length + 1)
    (Nat.lt_succ_self _) (Nat.lt_succ_self _) []
  refine ⟨d, run_btDeserialize_dict.mpr ?_⟩
  rw [btDeserializeBtDict, run_get_bind, run_btDeserializeDict _ hs, closeWith,
    List.length_cons, run_bind_ok hd]
  rfl

end Lists

section Typed

variable {α β : Type} {s rest : Bytes}

/-- Reading some number of values. -/
def ReadsValues (x : BtReader α) : Prop := ∀ s a t, x.run s = .ok a t → Values s t

theorem ReadsValues.both {x : BtReader α} {y : BtReader β} (hx : ReadsValues x)
    (hy : ReadsValues y) : ReadsValues (readBoth x y) := by
  intro s v u h
  obtain ⟨a, t, ha, h⟩ := run_bind_eq_ok_iff.mp h
  obtain ⟨b, u', hb, h⟩ := run_bind_eq_ok_iff.mp h
  obtain ⟨-, rfl⟩ := EStateM.Result.ok.inj h
  exact (hx _ _ _ ha).trans (hy _ _ _ hb)

theorem readsValues_of {x : BtReader α}
    (h : ∀ s a t, x.run s = .ok a t → ∃ v, btDeserialize.run s = .ok v t) : ReadsValues x := by
  intro s a t ha
  obtain ⟨v, hv⟩ := h s a t ha
  exact .cons hv (.nil t)

theorem run_btDeserialize_of_tuple {elems : BtReader α} (helems : ReadsValues elems) {v : α}
    (h : (btDeserializeTuple elems).run s = .ok v rest) :
    ∃ w, btDeserialize.run s = .ok w rest := by
  rw [btDeserializeTuple, run_get_bind] at h
  obtain ⟨hlen, h⟩ := run_throwIf_bind_eq_ok_iff.mp h
  obtain ⟨c, s, rfl⟩ := List.exists_cons_of_length_pos (show 0 < s.length by omega)
  rw [run_front_bind] at h
  obtain ⟨hc, h⟩ := run_throwIf_bind_eq_ok_iff.mp h
  obtain rfl := not_not.mp hc
  rw [run_removePrefix_bind] at h
  obtain ⟨v', t, hv, h⟩ := run_bind_eq_ok_iff.mp h
  rw [run_get_bind] at h
  obtain ⟨ht, h⟩ := run_throwIf_bind_eq_ok_iff.mp h
  obtain ⟨d, t, rfl⟩ := List.exists_cons_of_ne_nil (by simpa using ht)
  rw [run_front_bind] at h
  obtain ⟨hd, h⟩ := run_throwIf_bind_eq_ok_iff.mp h
  obtain rfl := not_not.mp hd
  rw [run_removePrefix_bind] at h
  obtain ⟨-, rfl⟩ := EStateM.Result.ok.inj h
  obtain ⟨l, hl⟩ := run_btDeserialize_of_values (helems _ _ _ hv)
  exact ⟨_, hl⟩

theorem run_btDeserialize_of_string {k : Bytes}
    (h : btDeserializeStringView.run s = .ok k rest) :
    btDeserialize.run s = .ok (.string k) rest := by
  obtain ⟨c, s, rfl, hc⟩ := isDigit_of_run_btDeserializeStringView h
  have hne {d : UInt8} (hd : isDigit d = false) : c ≠ d := by
    rintro rfl
    exact Bool.noConfusion (hd.symm.trans hc)
  have hs : s ≠ [] := by
    rintro rfl
    cases h
  rw [btDeserialize, run_get_bind, run_btDeserializeValue_cons _ _ hs, if_neg (hne (by decide)),
    if_neg (hne (by decide)), if_neg (hne (by decide)), if_pos hc, run_bind_ok h]
  rfl

theorem run_btDeserialize_of_integer {i : UInt64 × Bool}
    (h : btDeserializeInteger.run s = .ok i rest) : ∃ w, btDeserialize.run s = .ok w rest := by
  obtain ⟨s, rfl, hs, -⟩ := of_run_btDeserializeInteger h
  refine ⟨if i.2 then .int (-i.1.toInt64) else .uint i.1, ?_⟩
  rw [btDeserialize, run_get_bind, run_btDeserializeValue_cons _ _ hs, if_neg (by decide),
    if_neg (by decide), if_pos rfl, run_bind_ok h]
  rfl

/-- The checks of the range do not read on. -/
theorem exists_run_btDeserializeInteger {t : IntType} {i : Int}
    (h : (btDeserializeInt t).run s = .ok i rest) :
    ∃ m, btDeserializeInteger.run s = .ok m rest := by
  obtain ⟨⟨magnitude, negative⟩, u, hm, h⟩ := run_bind_eq_ok_iff.mp h
  have hpure {a : Int} (h : (pure a : BtReader Int).run u = .ok i rest) : u = rest :=
    (EStateM.Result.ok.inj h).2
  refine ⟨(magnitude, negative), ?_⟩
  suffices u = rest by rwa [this] at hm
  dsimp only at h
  split at h
  · split at h
    · exact hpure (run_throwIf_bind_eq_ok_iff.mp h).2
    · exact hpure (run_throwIf_bind_eq_ok_iff.mp h).2
  · exact hpure (run_throwIf_bind_eq_ok_iff.mp (run_throwIf_bind_eq_ok_iff.mp h).2).2

theorem readsValues_fields {ts : List BtType} (h : ∀ t ∈ ts, ReadsValues t.read) :
    ReadsValues (BtType.readFields ts) := by
  induction ts with
  | nil =>
    rw [BtType.readFields]
    rintro s - - ⟨⟩
    exact .nil s
  | cons t ts ih =>
    rw [BtType.readFields]
    exact (h t (by simp)).both (ih fun t ht => h t (by simp [ht]))

/-- What is read into some type is a value, and ends where the value ends. -/
theorem BtType.run_btDeserialize_of_read (t : BtType) {v : t.Val}
    (h : t.read.run s = .ok v rest) : ∃ w, btDeserialize.run s = .ok w rest := by
  induction t using BtType.induct generalizing s rest with
  | int t =>
    rw [read] at h
    obtain ⟨m, hm⟩ := exists_run_btDeserializeInteger h
    exact run_btDeserialize_of_integer hm
  | string =>
    rw [read] at h
    exact ⟨_, run_btDeserialize_of_string h⟩
  | value =>
    rw [read] at h
    exact ⟨v, h⟩
  | list t ih =>
    rw [read] at h
    obtain ⟨u, rfl, hu⟩ := exists_values_of_read (fun _ _ _ _ h => ih h) h
    obtain ⟨l, hl⟩ := run_btDeserialize_of_values hu
    exact ⟨_, hl⟩
  | dict t ih =>
    rw [read] at h
    obtain ⟨u, ps, -, rfl, hne, hu, -⟩ := exists_dictText_of_read (R := fun _ _ => True)
      (fun _ _ _ _ h => (ih h).imp fun _ hw => ⟨hw, trivial⟩) h
    obtain ⟨d, hd⟩ := run_btDeserialize_of_dictText hne hu
    exact ⟨_, hd⟩
  | tuple ts ih =>
    rw [read] at h
    exact run_btDeserialize_of_tuple
      (readsValues_fields fun t ht => readsValues_of fun _ _ _ h => ih t ht h) h
  | pair u t ihu iht =>
    rw [read] at h
    exact run_btDeserialize_of_tuple ((readsValues_of fun _ _ _ h => ihu h).both
      (readsValues_of fun _ _ _ h => iht h)) h

end Typed

end ArqmaMQ
