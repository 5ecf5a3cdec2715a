import ArqmaMQ.BtBounds
import ArqmaMQ.BtValues

/-! Consumers of encodings that parse: they stay at the elements, whatever is called
and thrown, so that no call looks past the end. -/

namespace ArqmaMQ

open Transition

/-- In front of a value, a call throws and stays there, or returns and goes behind
the value. -/
def Passes {α : Type} (x : BtReader α) : Prop :=
  ∀ s v t, btDeserialize.run s = .ok v t →
    (∃ e, x.run s = .error e s) ∨ ∃ a, x.run s = .ok a t

namespace BtListConsumer

section Passes

variable {α : Type} {isType : BtReader Bool} {p : UInt8 → Bool} {e : BtError} {x : BtReader α}

theorem passes_consumeAs (hp : Tests isType p)
    (hx : ∀ s a t, x.run s = .ok a t → ∃ v, btDeserialize.run s = .ok v t) :
    Passes (consumeAs isType e x) := by
  intro s v t hv
  obtain ⟨c, s, rfl, -⟩ := (parsed_of_run_btDeserialize hv).head_ne
  by_cases hc : p c = true
  swap
  · refine .inl ⟨e, ?_⟩
    rw [consumeAs, run_bind_ok (hp.cons c s), run_throwIf_bind_error (by simp [hc])]
  have htrue : isType.run (c :: s) = .ok true (c :: s) := by rw [hp.cons, hc]
  cases hr : x.run (c :: s) with
  | ok a u =>
    obtain ⟨w, hw⟩ := hx _ _ _ hr
    obtain ⟨-, rfl⟩ := EStateM.Result.ok.inj (hv.symm.trans hw)
    exact .inr ⟨a, BtDictConsumer.run_consumeAs htrue hr⟩
  | error e' u =>
    refine .inl ⟨e', ?_⟩
    rw [consumeAs, run_bind_ok htrue, run_throwIf_bind (by simp)]
    exact run_onCopy_error_iff.mpr ⟨rfl, u, hr⟩

theorem passes_consumeStringView : Passes consumeStringView := by
  intro s v t hv
  cases hr : consumeStringView.run s with
  | ok k u =>
    obtain ⟨_, hk, -⟩ := (alike_consumeStringView s).swap.of_ok hr
    obtain ⟨-, rfl⟩ := EStateM.Result.ok.inj (hv.symm.trans (run_btDeserialize_of_string hk))
    exact .inr ⟨k, rfl⟩
  | error e u =>
    obtain ⟨rfl, -⟩ := run_consumeStringView_error hr
    exact .inl ⟨e, rfl⟩

theorem passes_consumeInteger (t : IntType) : Passes (consumeInteger t) :=
  passes_consumeAs tests_isInteger fun _ _ _ h =>
    have ⟨_, hm⟩ := exists_run_btDeserializeInteger h
    run_btDeserialize_of_integer hm

theorem passes_consumeListAs (t : BtType) : Passes (consumeListAs t) :=
  passes_consumeAs tests_isList fun _ _ _ h => t.run_btDeserialize_of_read h

theorem passes_consumeDictAs (t : BtType) : Passes (consumeDictAs t) :=
  passes_consumeAs tests_isDict fun _ _ _ h => t.run_btDeserialize_of_read h

variable {s t rest : Bytes} {v : BtVariant}

/-- A value is skipped. -/
theorem run_skipValue_of (hv : btDeserialize.run s = .ok v t) : skipValue.run s = .ok () t := by
  obtain ⟨c, s, rfl, -⟩ := (parsed_of_run_btDeserialize hv).head_ne
  obtain ⟨_, h, -⟩ := (alike_skipValue (List.cons_ne_nil c s)).of_ok hv
  exact h

theorem run_consumeListData_of (hv : btDeserialize.run s = .ok v t)
    (hl : isList.run s = .ok true s) : ∃ data, consumeListData.run s = .ok data t := by
  have hparsed := parsed_of_run_btDeserialize hv
  have hkind := (EStateM.Result.ok.inj (hl.symm.trans hparsed.answers.2.2.2.1)).1
  cases hparsed with
  | list head h =>
    obtain ⟨data, hdata, -⟩ := (alike_consumeListData s).of_ok h
    exact ⟨data, hdata⟩
  | _ => cases hkind

theorem run_consumeDictData_of (hv : btDeserialize.run s = .ok v t)
    (hd : isDict.run s = .ok true s) : ∃ data, consumeDictData.run s = .ok data t := by
  have hparsed := parsed_of_run_btDeserialize hv
  have hkind := (EStateM.Result.ok.inj (hd.symm.trans hparsed.answers.2.2.2.2)).1
  cases hparsed with
  | dict head h =>
    obtain ⟨data, hdata, -⟩ := (alike_consumeDictData s).of_ok h
    exact ⟨data, hdata⟩
  | _ => cases hkind

theorem run_consumeListData_error (h : isList.run s = .ok false s) :
    ∃ e, consumeListData.run s = .error e s := by
  rw [consumeListData, run_get_bind, listData]
  exact ⟨_, run_containerData_error (.inr h)⟩

theorem run_consumeDictData_error (h : isDict.run s = .ok false s) :
    ∃ e, consumeDictData.run s = .error e s := by
  rw [consumeDictData, run_get_bind, dictData]
  exact ⟨_, run_containerData_error (.inr h)⟩

theorem passes_of_query {q : BtReader Bool} (hq : Tests q p)
    (hno : ∀ s, q.run s = .ok false s → ∃ e, x.run s = .error e s)
    (hyes : ∀ s v t, btDeserialize.run s = .ok v t → q.run s = .ok true s →
      ∃ a, x.run s = .ok a t) : Passes x := by
  intro s v t hv
  obtain ⟨c, s, rfl, -⟩ := (parsed_of_run_btDeserialize hv).head_ne
  have hrun := hq.cons c s
  cases hc : p c with
  | false => exact .inl (hno _ (by rw [hrun, hc]))
  | true => exact .inr (hyes _ _ _ hv (by rw [hrun, hc]))

theorem passes_consumeListData : Passes consumeListData :=
  passes_of_query tests_isList (fun _ => run_consumeListData_error)
    fun _ _ _ => run_consumeListData_of

theorem passes_consumeDictData : Passes consumeDictData :=
  passes_of_query tests_isDict (fun _ => run_consumeDictData_error)
    fun _ _ _ => run_consumeDictData_of

/-- A call that consumes stays at the values, or at the `e` behind the last one. -/
theorem values_left (hx : Passes x)
    (hend : ∃ e, x.run ('e'.toUInt8 :: rest) = .error e ('e'.toUInt8 :: rest))
    (h : Values s ('e'.toUInt8 :: rest)) : Values (left (x.run s)) ('e'.toUInt8 :: rest) := by
  cases h with
  | nil =>
    obtain ⟨e, he⟩ := hend
    rw [he]
    exact .nil _
  | cons hv htail =>
    rcases hx _ _ _ hv with ⟨e, he⟩ | ⟨a, ha⟩
    · rw [he]
      exact .cons hv htail
    · rw [ha]
      exact htail

end Passes

theorem values_call {s rest : Bytes} (h : Values s ('e'.toUInt8 :: rest)) (op : Call) :
    Values (left ((call op).run s)) ('e'.toUInt8 :: rest) := by
  obtain ⟨c, s, rfl⟩ := List.exists_cons_of_ne_nil h.ne_nil
  cases op with
  | currentBuffer => exact h
  | isFinished => exact h
  | isString => exact h
  | isInteger => exact h
  | isNegativeInteger =>
    obtain ⟨b, hb⟩ := exists_run_isNegativeInteger c s
    have hleft : left (isNegativeInteger.run (c :: s)) = c :: s := by rw [hb]; rfl
    exact hleft.symm ▸ h
  | isList => exact h
  | isDict => exact h
  | consumeString => exact values_left passes_consumeStringView ⟨_, rfl⟩ h
  | consumeStringView => exact values_left passes_consumeStringView ⟨_, rfl⟩ h
  | consumeInteger t => exact values_left (passes_consumeInteger t) ⟨_, rfl⟩ h
  | consumeList t => exact values_left (passes_consumeListAs t) ⟨_, rfl⟩ h
  | consumeDict t => exact values_left (passes_consumeDictAs t) ⟨_, rfl⟩ h
  | skipValue =>
    exact values_left (fun _ _ _ hv => .inr ⟨(), run_skipValue_of hv⟩) ⟨_, rfl⟩ h
  | consumeListData =>
    exact values_left passes_consumeListData (run_consumeListData_error rfl) h
  | consumeDictData =>
    exact values_left passes_consumeDictData (run_consumeDictData_error rfl) h

/-- No call on a list that parses looks past the end. -/
theorem reported_of_btDeserialize {s rest : Bytes} {l : List BtVariant}
    (h : btDeserializeBtList.run s = .ok l rest) : ∃ c, ofData s = .ok c ∧
      ∀ ops, During call (fun op s => Reported ((call op).run s)) ops c := by
  rw [btDeserializeBtList, run_get_bind] at h
  obtain ⟨t, rfl, ht⟩ := exists_values_of_read
    (fun t v u hlen hv => ⟨v, run_btDeserialize_of_value hlen hv⟩) h
  refine ⟨t, rfl, fun ops => during_of_invariant (I := fun s => Values s ('e'.toUInt8 :: rest))
    (fun op s hs => ?_) (fun op s hs => values_call hs op) ops ht⟩
  exact (reported_call_iff op s).mpr fun hpast => hs.ne_nil hpast.1

end BtListConsumer

namespace BtDictConsumer

open BtListConsumer (Tests)

variable {α : Type} {c : BtDictConsumer} {rest : Bytes} {ps : List (Bytes × BtVariant)}

/-- Between the pairs of a dict, or at its end. -/
def Within (rest : Bytes) (c : BtDictConsumer) : Prop := ∃ ps, Shows rest c ps

theorem Within.data_ne_nil (h : Within rest c) : c.data ≠ [] := by
  obtain ⟨ps, h⟩ := h
  cases h with
  | before h =>
    cases h with
    | nil => simp
    | cons hkey _ _ =>
      obtain ⟨d, s, rfl, -⟩ := isDigit_of_run_btDeserializeStringView hkey
      simp
  | keyed hvalue _ =>
    obtain ⟨d, s, rfl, -⟩ := (parsed_of_run_btDeserialize hvalue).head_ne
    simp

/-- Asking for the key ends the dict, or comes to a value whose key is cached. -/
theorem Within.run_consumeKey (h : Within rest c) :
    c = ⟨'e'.toUInt8 :: rest, none⟩ ∧ consumeKey.run c = .ok false c ∨
      ∃ t u k v ps, consumeKey.run c = .ok true ⟨t, some k⟩ ∧ btDeserialize.run t = .ok v u ∧
        DictText rest u ps := by
  obtain ⟨_ | ⟨⟨k, v⟩, ps⟩, h⟩ := h
  · obtain rfl := h.eq_end
    exact .inl ⟨rfl, rfl⟩
  · obtain ⟨t, u, hkey, hvalue, htail⟩ := h.run_consumeKey
    exact .inr ⟨t, u, k, v, ps, hkey, hvalue, htail⟩

section Calls

variable {q : BtReader Bool} {p : UInt8 → Bool} {x : BtReader α}

theorem within_valueIs (hq : ∀ d s, ∃ b, q.run (d :: s) = .ok b (d :: s)) (h : Within rest c) :
    Within rest (left ((valueIs q).run c)) := by
  rcases h.run_consumeKey with ⟨rfl, hkey⟩ | ⟨t, u, k, v, ps, hkey, hvalue, htail⟩
  · rwa [valueIs, run_bind_ok hkey]
  · obtain ⟨d, t, rfl, -⟩ := (parsed_of_run_btDeserialize hvalue).head_ne
    obtain ⟨b, hb⟩ := hq d t
    rw [run_valueIs hkey fun _ => hb]
    exact ⟨_, .keyed hvalue htail⟩

theorem within_nextWith {wrongType : Method BtError} (hq : Tests q p) (hx : Passes x)
    (hwrong : ∀ d s k, ∃ e, wrongType.run ⟨d :: s, k⟩ = .ok e ⟨d :: s, k⟩)
    (h : Within rest c) : Within rest (left ((nextWith (valueIs q) wrongType x).run c)) := by
  rcases h.run_consumeKey with ⟨rfl, hkey⟩ | ⟨t, u, k, v, ps, hkey, hvalue, htail⟩
  · obtain ⟨e, he⟩ := hwrong 'e'.toUInt8 rest none
    rw [nextWith, run_bind_ok (run_valueIs (r := false) hkey (by simp)), if_neg (by simp),
      run_bind_ok he]
    exact h
  obtain ⟨d, t, rfl, -⟩ := (parsed_of_run_btDeserialize hvalue).head_ne
  have hquery := run_valueIs hkey fun _ => hq.cons d t
  rw [Bool.true_and] at hquery
  cases hd : p d with
  | true =>
    rw [hd] at hquery
    rcases hx _ _ _ hvalue with ⟨e, he⟩ | ⟨a, ha⟩
    · rw [run_nextWith_error hquery he]
      exact ⟨_, .keyed hvalue htail⟩
    · rw [run_nextWith hquery ha]
      exact ⟨_, .before htail⟩
  | false =>
    obtain ⟨e, he⟩ := hwrong d t (some k)
    rw [nextWith, run_bind_ok hquery, hd, if_neg (by simp), run_bind_ok he]
    exact ⟨_, .keyed hvalue htail⟩

/-- The key is flushed only where the text of the value is there to be taken. -/
theorem within_sized {e : BtError} (hq : Tests q p) (hyes : ∀ s v t,
      btDeserialize.run s = .ok v t → q.run s = .ok true s → ∃ a, x.run s = .ok a t)
    (h : Within rest c) : Within rest (left ((do
      if (← get).data.length < 2 then
        throw e
      else if ← valueIs q then
        let k ← flushKey
        return (k, ← base x)
      else
        throw e : Method (Bytes × α)).run c)) := by
  rw [run_get_bind]
  by_cases hlen : c.data.length < 2
  · rwa [if_pos hlen]
  rw [if_neg hlen]
  rcases h.run_consumeKey with ⟨rfl, hkey⟩ | ⟨t, u, k, v, ps, hkey, hvalue, htail⟩
  · rw [run_bind_ok (run_valueIs (r := false) hkey (by simp)), if_neg (by simp)]
    exact h
  obtain ⟨d, t, rfl, -⟩ := (parsed_of_run_btDeserialize hvalue).head_ne
  have hquery := run_valueIs hkey fun _ => hq.cons d t
  rw [Bool.true_and] at hquery
  rw [run_bind_ok hquery]
  cases hd : p d with
  | true =>
    obtain ⟨a, ha⟩ := hyes _ _ _ hvalue (by rw [hq.cons, hd])
    have hbase : (base x).run ⟨d :: t, none⟩ = .ok a ⟨u, none⟩ := run_base_ok ha
    have hpair : (do
        let k ← flushKey
        return (k, ← base x) : Method (Bytes × α)).run ⟨d :: t, some k⟩ = .ok (k, a) ⟨u, none⟩ :=
      run_bind_ok hbase _
    rw [if_pos rfl, hpair]
    exact ⟨_, .before htail⟩
  | false => exact ⟨_, .keyed hvalue htail⟩

end Calls

theorem within_isFinished (h : Within rest c) : Within rest (left (isFinished.run c)) := by
  rcases h.run_consumeKey with ⟨rfl, hkey⟩ | ⟨t, u, k, v, ps, hkey, hvalue, htail⟩
  · exact h
  · rw [isFinished, run_bind_ok hkey]
    exact ⟨_, .keyed hvalue htail⟩

theorem within_key (h : Within rest c) : Within rest (left (key.run c)) := by
  rcases h.run_consumeKey with ⟨rfl, hkey⟩ | ⟨t, u, k, v, ps, hkey, hvalue, htail⟩
  · exact h
  · rw [key, run_bind_ok hkey]
    exact ⟨_, .keyed hvalue htail⟩

theorem within_skipLoop {find : Bytes} (n : Nat) (h : Within rest c) :
    Within rest (left ((skipLoop find n).run c)) := by
  induction n generalizing c with
  | zero => exact h
  | succ n ih =>
    rcases h.run_consumeKey with ⟨rfl, hkey⟩ | ⟨t, u, k, v, ps, hkey, hvalue, htail⟩
    · exact h
    rw [skipLoop, run_bind_ok hkey, if_pos rfl, run_get_bind]
    split
    · have hskip : (base BtListConsumer.skipValue).run ⟨t, none⟩ = .ok () ⟨u, none⟩ :=
        run_base_ok (BtListConsumer.run_skipValue_of hvalue)
      have hstep : (do
          let _ ← flushKey
          base BtListConsumer.skipValue
          skipLoop find n : Method Bool).run ⟨t, some k⟩ = (skipLoop find n).run ⟨u, none⟩ :=
        run_bind_ok hskip _
      rw [hstep]
      exact ih ⟨ps, .before htail⟩
    · exact ⟨_, .keyed hvalue htail⟩

theorem within_nextPair (op : PairCall) (h : Within rest c) :
    Within rest (left ((nextPair op).run c)) := by
  have hlist : Within rest (left (nextListData.run c)) :=
    within_sized BtListConsumer.tests_isList (fun _ _ _ => BtListConsumer.run_consumeListData_of) h
  have hdict : Within rest (left (nextDictData.run c)) :=
    within_sized BtListConsumer.tests_isDict (fun _ _ _ => BtListConsumer.run_consumeDictData_of) h
  cases op with
  | string =>
    exact within_nextWith BtListConsumer.tests_isString BtListConsumer.passes_consumeStringView
      (fun _ _ _ => ⟨_, rfl⟩) h
  | integer t =>
    exact within_nextWith BtListConsumer.tests_isInteger (BtListConsumer.passes_consumeInteger t)
      (fun _ _ _ => ⟨_, rfl⟩) h
  | list t =>
    exact within_nextWith BtListConsumer.tests_isList (BtListConsumer.passes_consumeListAs t)
      (fun _ _ _ => ⟨_, rfl⟩) h
  | dict t =>
    exact within_nextWith BtListConsumer.tests_isDict (BtListConsumer.passes_consumeDictAs t)
      (fun _ _ _ => ⟨_, rfl⟩) h
  | listData => exact hlist
  | dictData => exact hdict
  | listConsumer => exact (left_bind_pure nextListData _ c).symm ▸ hlist
  | dictConsumer => exact (left_bind_pure nextDictData _ c).symm ▸ hdict

theorem within_call (h : Within rest c) (op : Call) : Within rest (left ((call op).run c)) := by
  have hquery {q : BtReader Bool} {p : UInt8 → Bool} (hq : Tests q p) :
      Within rest (left ((valueIs q).run c)) := within_valueIs (fun d s => ⟨_, hq.cons d s⟩) h
  cases op with
  | isFinished => exact within_isFinished h
  | operatorBool => exact (left_bind_pure isFinished _ c).symm ▸ within_isFinished h
  | isString => exact hquery BtListConsumer.tests_isString
  | isInteger => exact hquery BtListConsumer.tests_isInteger
  | isNegativeInteger => exact within_valueIs BtListConsumer.exists_run_isNegativeInteger h
  | isList => exact hquery BtListConsumer.tests_isList
  | isDict => exact hquery BtListConsumer.tests_isDict
  | key => exact within_key h
  | next op => exact within_nextPair op h
  | consume op => exact (left_bind_pure (nextPair op) _ c).symm ▸ within_nextPair op h
  | skipUntil find =>
    exact within_skipLoop _ h

/-- No call on a dict that parses looks past the end. -/
theorem reported_of_btDeserialize {s : Bytes} {d : List (Bytes × BtVariant)}
    (h : btDeserializeBtDict.run s = .ok d rest) : ∃ c, ofData s = .ok c ∧
      ∀ ops, During call (fun op c => Reported ((call op).run c)) ops c := by
  obtain ⟨c, ps, hc, -, -, hshows⟩ := ofData_of_run h
  refine ⟨c, hc, fun ops => during_of_invariant (I := Within rest) (fun op c hc => ?_)
    (fun op c hc => within_call hc op) ops ⟨ps, hshows⟩⟩
  exact (reported_call_iff op c).mpr fun hpast => hc.data_ne_nil hpast.1

end BtDictConsumer

end ArqmaMQ
