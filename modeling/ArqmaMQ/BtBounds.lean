import ArqmaMQ.BtCalls
import ArqmaMQ.Transition

/-! Which calls look at the first byte of an empty view. All other calls return or
throw, whatever was called before and whatever that threw. -/

namespace ArqmaMQ

open Transition

section Readers

variable {α : Type}

theorem alike_self_btDeserializeList {item : BtReader α}
    (h : ∀ s, Alike Eq 1 s (item.run s) (item.run s)) (s : Bytes) :
    Alike Eq 1 s ((btDeserializeList item).run s) ((btDeserializeList item).run s) := by
  by_cases herror : s.length < 2 ∨ s.head? ≠ some 'l'.toUInt8
  · obtain ⟨e, he, hthrown⟩ := run_btDeserializeList_error item herror
    rw [he]
    exact .error hthrown hthrown
  · obtain ⟨s, hs, rfl⟩ := exists_eq_cons herror
    exact alike_btDeserializeList hs fun t _ _ => h t

theorem alike_self_btDeserializeDict {value : BtReader α}
    (h : ∀ s, Alike Eq 1 s (value.run s) (value.run s)) (s : Bytes) :
    Alike Eq 1 s ((btDeserializeDict value).run s) ((btDeserializeDict value).run s) := by
  by_cases herror : s.length < 2 ∨ s.head? ≠ some 'd'.toUInt8
  · obtain ⟨e, he, hthrown⟩ := run_btDeserializeDict_error value herror
    rw [he]
    exact .error hthrown hthrown
  · obtain ⟨s, hs, rfl⟩ := exists_eq_cons herror
    exact alike_btDeserializeDict hs fun t _ => h t

theorem alike_self_btDeserializeTuple {elems : BtReader α}
    (h : ∀ s, Alike Eq 0 s (elems.run s) (elems.run s)) (s : Bytes) :
    Alike Eq 1 s ((btDeserializeTuple elems).run s) ((btDeserializeTuple elems).run s) := by
  rw [btDeserializeTuple, run_get_bind]
  refine .check (by simp) fun hlen => ?_
  obtain ⟨c, s, rfl⟩ := List.exists_cons_of_length_pos (show 0 < s.length by omega)
  rw [run_front_bind]
  refine .check (by simp) fun _ => ?_
  rw [run_removePrefix_bind]
  refine Alike.drop (s := c :: s) (n := 1) (k := 0) (by simp) ((h _).bind (j := 0) ?_)
  rintro v _ rest rfl -
  rw [run_get_bind]
  refine .check (by simp) fun hs => ?_
  obtain ⟨d, rest, rfl⟩ := List.exists_cons_of_ne_nil (by simpa using hs)
  rw [run_front_bind]
  refine .check (by simp) fun _ => ?_
  rw [run_removePrefix_bind]
  exact (Alike.drop (s := d :: rest) (n := 1) (by simp) (.pure rfl)).imp (fun _ _ h => h)
    (by omega)

theorem alike_self_readBoth {β : Type} {x : BtReader α} {y : BtReader β} {k : Nat}
    (hx : ∀ s, Alike Eq k s (x.run s) (x.run s)) (hy : ∀ s, Alike Eq 0 s (y.run s) (y.run s))
    (s : Bytes) : Alike Eq 0 s ((readBoth x y).run s) ((readBoth x y).run s) := by
  refine ((hx s).bind (j := 0) ?_).imp (fun _ _ h => h) (by omega)
  rintro a _ rest rfl -
  refine (hy rest).bind (j := 0) ?_
  rintro b _ rest rfl -
  exact .pure rfl

theorem alike_self_btDeserializeInt (t : IntType) (s : Bytes) :
    Alike Eq 1 s ((btDeserializeInt t).run s) ((btDeserializeInt t).run s) := by
  refine (alike_btDeserializeInteger s).bind (j := 0) ?_
  rintro ⟨magnitude, negative⟩ _ rest rfl -
  dsimp only
  split
  · split
    · exact .check (by simp) fun _ => .pure rfl
    · exact .check (by simp) fun _ => .pure rfl
  · exact .check (by simp) fun _ => .check (by simp) fun _ => .pure rfl

theorem alike_self_btDeserialize (s : Bytes) :
    Alike Eq 1 s (btDeserialize.run s) (btDeserialize.run s) := by
  rw [btDeserialize, run_get_bind]
  exact alike_btDeserializeValue (Nat.lt_succ_self _) (Nat.lt_succ_self _)

/-- Every reader returns or throws. -/
theorem BtType.alike_read (t : BtType) (s : Bytes) :
    Alike Eq 1 s (t.read.run s) (t.read.run s) := by
  induction t using BtType.induct generalizing s with
  | int t =>
    rw [read]
    exact alike_self_btDeserializeInt t s
  | string =>
    rw [read]
    exact alike_btDeserializeStringView s
  | value =>
    rw [read]
    exact alike_self_btDeserialize s
  | list t ih =>
    rw [read]
    exact alike_self_btDeserializeList ih s
  | dict t ih =>
    rw [read]
    exact alike_self_btDeserializeDict ih s
  | tuple ts ih =>
    rw [read]
    refine alike_self_btDeserializeTuple (fun s => ?_) s
    induction ts generalizing s with
    | nil => rw [readFields]; exact .pure rfl
    | cons t ts ihs =>
      rw [readFields]
      exact alike_self_readBoth (ih t (by simp)) (ihs fun t ht => ih t (by simp [ht])) s
  | pair u t ihu iht =>
    rw [read]
    refine alike_self_btDeserializeTuple (fun s => alike_self_readBoth ihu (fun s => ?_) s) s
    exact (iht s).imp (fun _ _ h => h) (by omega)

end Readers

/-- A failed call has thrown one of the exceptions of the source. -/
def Reported {σ α : Type} (r : EStateM.Result BtError σ α) : Prop :=
  ∀ e s, r = .error e s → e.Thrown

section Rules

variable {σ α β : Type}

theorem reported_ok (a : α) (s : σ) : Reported (.ok a s : EStateM.Result BtError σ α) := nofun

theorem reported_error {e : BtError} {s : σ} :
    Reported (.error e s : EStateM.Result BtError σ α) ↔ e.Thrown := by
  refine ⟨fun h => h e s rfl, fun he e' s' h => ?_⟩
  obtain ⟨rfl, -⟩ := EStateM.Result.error.inj h
  exact he

theorem Alike.reported {R : α → β → Prop} {k : Nat} {s : Bytes}
    {r : EStateM.Result BtError Bytes α} {r' : EStateM.Result BtError Bytes β}
    (h : Alike R k s r r') : Reported r ∧ Reported r' :=
  ⟨fun _ _ => h.thrown, fun _ _ => h.swap.thrown⟩

theorem Reported.bind {x : EStateM BtError σ α} {f : α → EStateM BtError σ β} {s : σ}
    (hx : Reported (x.run s)) (hf : ∀ a t, x.run s = .ok a t → Reported ((f a).run t)) :
    Reported ((x >>= f).run s) := by
  cases hr : x.run s with
  | ok a t =>
    rw [run_bind_ok hr]
    exact hf a t hr
  | error e t =>
    rw [run_bind_error hr]
    exact reported_error.mpr (hx e t hr)

end Rules

namespace BtListConsumer

/-- The calls that look at the first byte without asking whether there is one. -/
def Call.looks : Call → Bool
  | .currentBuffer | .consumeString | .consumeStringView | .consumeListData | .consumeDictData =>
    false
  | _ => true

/-- The call reads the first byte of an empty view. -/
def Call.PastEnd (op : Call) (data : Bytes) : Prop := data = [] ∧ op.looks = true

theorem reported_consumeAs {α : Type} {isType : BtReader Bool} {p : UInt8 → Bool} {e : BtError}
    {x : BtReader α} (hp : Tests isType p) (he : e.Thrown) (hx : ∀ s, Reported (x.run s))
    (c : UInt8) (s : Bytes) : Reported ((consumeAs isType e x).run (c :: s)) := by
  rw [consumeAs, run_bind_ok (hp.cons c s)]
  by_cases hc : p c = true
  · rw [run_throwIf_bind (by simp [hc])]
    intro e' t h
    obtain ⟨-, u, hu⟩ := run_onCopy_error_iff.mp h
    exact hx _ _ _ hu
  · rw [run_throwIf_bind_error (by simp [hc])]
    exact reported_error.mpr he

theorem run_call_nil {op : Call} (h : op.looks = true) :
    (call op).run [] = .error .undefined [] := by
  cases op <;> first | rfl | cases h

theorem Tests.reported {x : BtReader Bool} {p : UInt8 → Bool} (h : Tests x p) (c : UInt8)
    (s : Bytes) : Reported (x.run (c :: s)) := by
  rw [h.cons]
  exact reported_ok _ _

theorem reported_isNegativeInteger (c : UInt8) (s : Bytes) :
    Reported (isNegativeInteger.run (c :: s)) := by
  obtain ⟨b, hb⟩ := exists_run_isNegativeInteger c s
  rw [hb]
  exact reported_ok _ _

theorem reported_consumeInteger (t : IntType) (c : UInt8) (s : Bytes) :
    Reported ((consumeInteger t).run (c :: s)) :=
  reported_consumeAs tests_isInteger (BtError.thrown_invalidType _)
    (fun s => (alike_self_btDeserializeInt t s).reported.1) c s

theorem reported_consumeListAs (t : BtType) (c : UInt8) (s : Bytes) :
    Reported ((consumeListAs t).run (c :: s)) :=
  reported_consumeAs tests_isList (BtError.thrown_invalidType _)
    (fun s => (t.alike_read s).reported.1) c s

theorem reported_consumeDictAs (t : BtType) (c : UInt8) (s : Bytes) :
    Reported ((consumeDictAs t).run (c :: s)) :=
  reported_consumeAs tests_isDict (BtError.thrown_invalidType _)
    (fun s => (t.alike_read s).reported.1) c s

theorem reported_call_cons (op : Call) (c : UInt8) (s : Bytes) :
    Reported ((call op).run (c :: s)) := by
  cases op with
  | currentBuffer => exact reported_ok _ _
  | isFinished => exact tests_isFinished.reported c s
  | isString => exact tests_isString.reported c s
  | isInteger => exact tests_isInteger.reported c s
  | isNegativeInteger => exact reported_isNegativeInteger c s
  | isList => exact tests_isList.reported c s
  | isDict => exact tests_isDict.reported c s
  | consumeString => exact (alike_consumeStringView _).reported.2
  | consumeStringView => exact (alike_consumeStringView _).reported.2
  | consumeInteger t => exact reported_consumeInteger t c s
  | consumeList t => exact reported_consumeListAs t c s
  | consumeDict t => exact reported_consumeDictAs t c s
  | skipValue => exact (alike_skipValue (List.cons_ne_nil c s)).reported.2
  | consumeListData => exact (alike_consumeListData _).reported.2
  | consumeDictData => exact (alike_consumeDictData _).reported.2

theorem reported_call_nil {op : Call} (h : op.looks = false) : Reported ((call op).run []) := by
  cases op with
  | currentBuffer => exact reported_ok _ _
  | consumeString => exact (alike_consumeStringView _).reported.2
  | consumeStringView => exact (alike_consumeStringView _).reported.2
  | consumeListData => exact (alike_consumeListData _).reported.2
  | consumeDictData => exact (alike_consumeDictData _).reported.2
  | _ => cases h

theorem reported_call_iff (op : Call) (s : Bytes) :
    Reported ((call op).run s) ↔ ¬ op.PastEnd s := by
  constructor
  · rintro h ⟨rfl, hop⟩
    rw [run_call_nil hop] at h
    exact reported_error.mp h
  · intro h
    rcases s with _ | ⟨c, s⟩
    · exact reported_call_nil (Bool.eq_false_iff.mpr fun hop => h ⟨rfl, hop⟩)
    · exact reported_call_cons op c s

end BtListConsumer

namespace BtDictConsumer

open BtListConsumer (Tests)

variable {α : Type} {c c' : BtDictConsumer}

def PairCall.looks : PairCall → Bool
  | .string | .integer _ | .list _ | .dict _ => true
  | .listData | .dictData | .listConsumer | .dictConsumer => false

/-- The calls that take a cached key for a sign that there is a value. -/
def Call.looks (k : Bytes) : Call → Bool
  | .isFinished | .operatorBool | .key => false
  | .isString | .isInteger | .isNegativeInteger | .isList | .isDict => true
  | .next op | .consume op => op.looks
  | .skipUntil find => decide (k < find)

/-- The call reads the first byte of an empty view. -/
def Call.PastEnd (op : Call) (c : BtDictConsumer) : Prop :=
  c.data = [] ∧ ∃ k, c.key_ = some k ∧ op.looks k = true

theorem reported_base {x : BtReader α} (h : Reported (x.run c.data)) :
    Reported ((base x).run c) := by
  cases hr : x.run c.data with
  | ok a t =>
    rw [run_base_ok hr]
    exact reported_ok _ _
  | error e t =>
    rw [run_base_error hr]
    exact reported_error.mpr (h e t hr)

theorem reported_consumeKey (c : BtDictConsumer) : Reported (consumeKey.run c) := by
  have hkey := keyOutcome c
  generalize consumeKey.run c = r at hkey
  cases hkey with
  | cached data k => exact reported_ok _ _
  | outOfData => exact reported_error.mpr trivial
  | atEnd s => exact reported_ok _ _
  | noKey _ h =>
    exact reported_error.mpr ((BtListConsumer.alike_consumeStringView _).swap.thrown h)
  | noValue h hrest => exact reported_error.mpr trivial
  | found h => exact reported_ok _ _

/-- A key that was read just now has a value behind it. -/
theorem of_run_consumeKey {b : Bool} (h : consumeKey.run c = .ok b c') :
    c'.data.length ≤ c.data.length ∧ (c'.data ≠ [] ∨ c' = c ∧ c.key_.isSome = true) := by
  have hkey := keyOutcome c
  rw [h] at hkey
  cases hkey with
  | cached data k => exact ⟨Nat.le_refl _, .inr ⟨rfl, rfl⟩⟩
  | atEnd s => exact ⟨Nat.le_refl _, .inl (by simp)⟩
  | found hrun =>
    obtain ⟨_, -, -, read, rfl, -⟩ := (BtListConsumer.alike_consumeStringView _).swap.of_ok hrun
    exact ⟨by simp, .inl (by simp)⟩

section Queries

variable {q : BtReader Bool} {p : UInt8 → Bool} {x : BtReader α}

theorem reported_valueIs (hq : ∀ d s, Reported (q.run (d :: s)))
    (hc : c.key_ = none ∨ c.data ≠ []) : Reported ((valueIs q).run c) := by
  refine (reported_consumeKey c).bind fun b c' h => ?_
  cases b with
  | false => exact reported_ok _ _
  | true =>
    have hdata : c'.data ≠ [] := by
      rcases (of_run_consumeKey h).2 with h | ⟨rfl, hkey⟩
      · exact h
      · exact hc.resolve_left (Option.ne_none_iff_isSome.mpr hkey)
    obtain ⟨d, s, hs⟩ := List.exists_cons_of_ne_nil hdata
    exact reported_base (hs ▸ hq d s)

theorem reported_nextWith {wrongType : Method BtError} (hq : Tests q p)
    (hx : ∀ d s, Reported (x.run (d :: s)))
    (hwrong : ∀ d s k, ∃ what, wrongType.run ⟨d :: s, k⟩ = .ok (.invalidType what) ⟨d :: s, k⟩)
    (hc : c.key_ = none ∨ c.data ≠ []) : Reported ((nextWith (valueIs q) wrongType x).run c) := by
  refine (reported_valueIs hq.reported hc).bind fun b c' h => ?_
  obtain ⟨-, d, s, hdata, -⟩ := run_valueIs_ok hq h
  cases b with
  | true =>
    refine (reported_base ?_).bind fun v c' _ => reported_ok _ _
    exact hdata ▸ hx d s
  | false =>
    obtain ⟨data, key⟩ := c'
    obtain rfl : data = d :: s := hdata
    obtain ⟨what, hw⟩ := hwrong d s key
    rw [if_neg (by simp), run_bind_ok hw]
    exact reported_error.mpr trivial

/-- The common shape of `next_list_data` and `next_dict_data`. -/
theorem reported_sized {e : BtError} (hq : Tests q p) (he : e.Thrown)
    (hx : ∀ s, Reported (x.run s)) (c : BtDictConsumer) : Reported ((do
      if (← get).data.length < 2 then
        throw e
      else if ← valueIs q then
        let k ← flushKey
        return (k, ← base x)
      else
        throw e : Method (Bytes × α)).run c) := by
  rw [run_get_bind]
  by_cases hlen : c.data.length < 2
  · rw [if_pos hlen]
    exact reported_error.mpr he
  rw [if_neg hlen]
  have hdata : c.data ≠ [] := List.length_pos_iff.mp (by omega)
  refine (reported_valueIs hq.reported (.inr hdata)).bind fun b c' _ => ?_
  cases b with
  | true => exact (reported_base (c := { c' with key_ := none }) (hx _)).bind fun _ _ _ => nofun
  | false => exact reported_error.mpr he

end Queries

theorem reported_skipLoop {find : Bytes} {n : Nat} (hn : c.data.length < n)
    (hc : c.key_ = none ∨ c.data ≠ [] ∨ ¬ c.key_.getD [] < find) :
    Reported ((skipLoop find n).run c) := by
  induction n generalizing c with
  | zero => omega
  | succ n ih =>
    refine (reported_consumeKey c).bind fun b c' h => ?_
    obtain ⟨hlen, hdata⟩ := of_run_consumeKey h
    cases b with
    | false => exact reported_ok _ _
    | true =>
      rw [if_pos rfl, run_get_bind]
      by_cases hlt : c'.key_.getD [] < find
      swap
      · rw [if_neg hlt]
        exact reported_ok _ _
      rw [if_pos hlt]
      have hne : c'.data ≠ [] := by
        rcases hdata with h | ⟨rfl, hkey⟩
        · exact h
        · exact (hc.resolve_left (Option.ne_none_iff_isSome.mpr hkey)).resolve_right
            (not_not.mpr hlt)
      have hskip := BtListConsumer.alike_skipValue hne
      refine (reported_base (c := { c' with key_ := none }) hskip.reported.2).bind fun _ c'' h => ?_
      cases hr : BtListConsumer.skipValue.run c'.data with
      | error e t => cases (run_base_error (c := { c' with key_ := none }) hr).symm.trans h
      | ok u rest =>
        obtain ⟨_, -, -, read, hread, hpos⟩ := hskip.swap.of_ok hr
        cases (run_base_ok (c := { c' with key_ := none }) hr).symm.trans h
        have hshort := congrArg List.length hread
        rw [List.length_append] at hshort
        exact ih (show rest.length < n by omega) (.inl rfl)

theorem reported_nextPair (op : PairCall)
    (hc : op.looks = true → c.key_ = none ∨ c.data ≠ []) : Reported ((nextPair op).run c) := by
  have hlist (c : BtDictConsumer) : Reported (nextListData.run c) :=
    reported_sized BtListConsumer.tests_isList (BtError.thrown_invalidType _)
      (fun s => (BtListConsumer.alike_consumeListData s).reported.2) c
  have hdict (c : BtDictConsumer) : Reported (nextDictData.run c) :=
    reported_sized BtListConsumer.tests_isDict (BtError.thrown_invalidType _)
      (fun s => (BtListConsumer.alike_consumeDictData s).reported.2) c
  cases op with
  | string =>
    exact reported_nextWith BtListConsumer.tests_isString
      (fun _ _ => (BtListConsumer.alike_consumeStringView _).reported.2)
      (fun _ _ _ => ⟨_, rfl⟩) (hc rfl)
  | integer t =>
    exact reported_nextWith BtListConsumer.tests_isInteger
      (BtListConsumer.reported_consumeInteger t) (fun _ _ _ => ⟨_, rfl⟩) (hc rfl)
  | list t =>
    exact reported_nextWith BtListConsumer.tests_isList
      (BtListConsumer.reported_consumeListAs t) (fun _ _ _ => ⟨_, rfl⟩) (hc rfl)
  | dict t =>
    exact reported_nextWith BtListConsumer.tests_isDict
      (BtListConsumer.reported_consumeDictAs t) (fun _ _ _ => ⟨_, rfl⟩) (hc rfl)
  | listData => exact hlist c
  | dictData => exact hdict c
  | listConsumer => exact (hlist c).bind fun _ _ _ => reported_ok _ _
  | dictConsumer => exact (hdict c).bind fun _ _ _ => reported_ok _ _

theorem reported_call {op : Call} (h : ¬ op.PastEnd c) : Reported ((call op).run c) := by
  have hc (hop : ∀ k, op.looks k = true) : c.key_ = none ∨ c.data ≠ [] := by
    by_contra hh
    obtain ⟨hkey, hdata⟩ := not_or.mp hh
    obtain ⟨k, hk⟩ := Option.ne_none_iff_exists'.mp hkey
    exact h ⟨not_not.mp hdata, k, hk, hop k⟩
  have hfinished : Reported (isFinished.run c) := by
    refine (reported_consumeKey c).bind fun b c' hrun => ?_
    cases b with
    | true => exact reported_ok _ _
    | false =>
      have hkey := keyOutcome c
      rw [hrun] at hkey
      cases hkey with
      | atEnd s => exact reported_ok _ _
  cases op with
  | isFinished => exact hfinished
  | operatorBool => exact hfinished.bind fun _ _ _ => reported_ok _ _
  | isString => exact reported_valueIs BtListConsumer.tests_isString.reported (hc fun _ => rfl)
  | isInteger => exact reported_valueIs BtListConsumer.tests_isInteger.reported (hc fun _ => rfl)
  | isNegativeInteger =>
    exact reported_valueIs BtListConsumer.reported_isNegativeInteger (hc fun _ => rfl)
  | isList => exact reported_valueIs BtListConsumer.tests_isList.reported (hc fun _ => rfl)
  | isDict => exact reported_valueIs BtListConsumer.tests_isDict.reported (hc fun _ => rfl)
  | key =>
    refine (reported_consumeKey c).bind fun b _ _ => ?_
    cases b with
    | true => exact reported_ok _ _
    | false => exact reported_error.mpr trivial
  | next op => exact reported_nextPair op fun hop => hc fun _ => hop
  | consume op =>
    exact (reported_nextPair op fun hop => hc fun _ => hop).bind fun _ _ _ => reported_ok _ _
  | skipUntil find =>
    refine reported_skipLoop (Nat.lt_succ_self _) ?_
    rcases hk : c.key_ with _ | k
    · exact .inl rfl
    · refine .inr (or_iff_not_imp_left.mpr fun hdata hlt => h ⟨not_not.mp hdata, k, hk, ?_⟩)
      exact decide_eq_true hlt

theorem run_nextPair_pastEnd {op : PairCall} (h : op.looks = true) (k : Bytes) :
    (nextPair op).run ⟨[], some k⟩ = .error .undefined ⟨[], some k⟩ := by
  cases op <;> first | rfl | cases h

theorem run_skipUntil_pastEnd {find k : Bytes} (h : k < find) :
    (skipUntil find).run ⟨[], some k⟩ = .error .undefined ⟨[], none⟩ := by
  have hlt : (BtDictConsumer.mk [] (some k)).key_.getD [] < find := h
  rw [skipUntil, run_get_bind, skipLoop, run_bind_ok (run_consumeKey_keyed [] k), if_pos rfl,
    run_get_bind, if_pos hlt]
  rfl

theorem run_call_pastEnd {op : Call} {k : Bytes} (h : op.looks k = true) :
    ∃ c', (call op).run ⟨[], some k⟩ = .error .undefined c' := by
  cases op with
  | isFinished => cases h
  | operatorBool => cases h
  | key => cases h
  | isString => exact ⟨_, rfl⟩
  | isInteger => exact ⟨_, rfl⟩
  | isNegativeInteger => exact ⟨_, rfl⟩
  | isList => exact ⟨_, rfl⟩
  | isDict => exact ⟨_, rfl⟩
  | next op => exact ⟨_, run_nextPair_pastEnd h k⟩
  | consume op => exact ⟨_, run_bind_error (run_nextPair_pastEnd h k) _⟩
  | skipUntil find => exact ⟨_, run_skipUntil_pastEnd (of_decide_eq_true h)⟩

theorem reported_call_iff (op : Call) (c : BtDictConsumer) :
    Reported ((call op).run c) ↔ ¬ op.PastEnd c := by
  refine ⟨?_, reported_call⟩
  rintro h ⟨hdata, k, hkey, hop⟩
  obtain ⟨data, key⟩ := c
  cases hdata
  cases hkey
  obtain ⟨c', hrun⟩ := run_call_pastEnd hop
  exact h _ _ hrun

end BtDictConsumer

/-- However a consumer was used before, its calls return or throw exactly as long
as none of them is made where it looks past the end. -/
theorem reported_iff_not_pastEnd (data : Bytes) :
    (∀ c, BtListConsumer.ofData data = .ok c → ∀ ops,
      During BtListConsumer.call (fun op s => Reported ((BtListConsumer.call op).run s)) ops c ↔
        During BtListConsumer.call (fun op s => ¬ op.PastEnd s) ops c) ∧
      ∀ c, BtDictConsumer.ofData data = .ok c → ∀ ops,
        During BtDictConsumer.call (fun op c => Reported ((BtDictConsumer.call op).run c)) ops c ↔
          During BtDictConsumer.call (fun op c => ¬ op.PastEnd c) ops c :=
  ⟨fun c _ ops => during_congr BtListConsumer.reported_call_iff ops c,
    fun c _ ops => during_congr BtDictConsumer.reported_call_iff ops c⟩

/-- Walking over a list of one integer, and over a dict that breaks off where the
key is not taken for a sign of a value. -/
theorem reported_short_walks :
    During BtListConsumer.call (fun op s => Reported ((BtListConsumer.call op).run s))
        [.consumeInteger .int, .isFinished, .skipValue] (bytes "i7ee") ∧
      During BtDictConsumer.call (fun op c => Reported ((BtDictConsumer.call op).run c))
        [.key, .isFinished, .next .listData] ⟨bytes "1:a", none⟩ := by
  refine ⟨((reported_iff_not_pastEnd (bytes "li7ee")).1 _ (by decide) _).mpr ?_,
    ((reported_iff_not_pastEnd (bytes "d1:a")).2 _ (by decide) _).mpr ?_⟩
  · exact ⟨fun h => absurd h.1 (by decide), fun h => absurd h.1 (by decide +kernel),
      fun h => absurd h.1 (by decide +kernel), trivial⟩
  · exact ⟨fun ⟨_, _, _, h⟩ => Bool.noConfusion h, fun ⟨_, _, _, h⟩ => Bool.noConfusion h,
      fun ⟨_, _, _, h⟩ => Bool.noConfusion h, trivial⟩

/-- A list that breaks off behind an element, and a dict that breaks off behind a
key: the key stays cached when `key` throws, and the next query trusts it. -/
theorem looks_past_end :
    BtListConsumer.ofData (bytes "li7e") = .ok (bytes "i7e") ∧
      (BtListConsumer.consumeInteger .int).run (bytes "i7e") = .ok 7 [] ∧
      (BtListConsumer.call .isFinished).run [] = .error .undefined [] ∧
      BtDictConsumer.ofData (bytes "d1:a") = .ok ⟨bytes "1:a", none⟩ ∧
      BtDictConsumer.key.run ⟨bytes "1:a", none⟩ =
        .error (.invalid "dict key isn't followed by a value") ⟨[], some (bytes "a")⟩ ∧
      (BtDictConsumer.call .isString).run ⟨[], some (bytes "a")⟩ =
        .error .undefined ⟨[], some (bytes "a")⟩ := by
  refine ⟨by decide, by decide +kernel, rfl, by decide, by decide +kernel, rfl⟩

end ArqmaMQ
