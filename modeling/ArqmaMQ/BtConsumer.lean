import ArqmaMQ.BtAgreement

/-! Walking over an encoding without building values: `bt_list_consumer`. Its
state is the view `data`. Skipping a value is compared with parsing it. -/

namespace ArqmaMQ

/-- `std::string_view next{data}; x(next); data = next;`. -/
def onCopy {α : Type} (x : BtReader α) : BtReader α := fun data =>
  match x.run data with
  | .ok a next => .ok a next
  | .error e _ => .error e data

namespace BtListConsumer

/-- The constructor. It throws `std::runtime_error`. -/
def ofData (data : Bytes) : Except String Bytes :=
  if data.isEmpty then
    .error "Cannot create a bt_list_consumer with an empty string_view"
  else if data.head? ≠ some 'l'.toUInt8 then
    .error "Cannot create a bt_list_consumer with non-list data"
  else
    .ok (data.drop 1)

def isFinished : BtReader Bool := return (← front) == 'e'.toUInt8

def isString : BtReader Bool := return isDigit (← front)

def isInteger : BtReader Bool := return (← front) == 'i'.toUInt8

def isList : BtReader Bool := return (← front) == 'l'.toUInt8

def isDict : BtReader Bool := return (← front) == 'd'.toUInt8

def consumeStringView : BtReader Bytes := do
  throwIf (← get).isEmpty (.invalid "expected a string, but reached end of data")
  throwIf (¬ (← isString)) (.invalidType ("expected a string, but found " ++ byteText (← front)))
  onCopy btDeserializeStringView

/-- `while (!is_finished()) body`, for at most `n - 1` rounds. -/
def whileNotFinished (body : BtReader Unit) : Nat → BtReader Unit
  | 0 => throw .outOfFuel
  | n + 1 => do
    if ← isFinished then
      return ()
    else
      body
      whileNotFinished body n

/-- A round of the loop in `consume_list_data`. -/
def skipItem (skip : BtReader Unit) : BtReader Unit := do
  skip
  throwIf (← get).isEmpty
    (.invalid "bt list consumption failed: hit the end of string before the list was done")

/-- A round of the loop in `consume_dict_data`. -/
def skipPair (skip : BtReader Unit) : BtReader Unit := do
  let _ ← consumeStringView
  if ¬ (← get).isEmpty then
    skip
  throwIf (← get).isEmpty
    (.invalid "bt dict consumption failed: hit the end of string before the dict was done")

/-- The common shape of `consume_list_data` and `consume_dict_data`. -/
def containerData (isType : BtReader Bool) (wrongType : BtError) (round : BtReader Unit) :
    BtReader Bytes := do
  let start ← get
  throwIf (start.length < 2) wrongType
  throwIf (¬ (← isType)) wrongType
  removePrefix 1
  whileNotFinished round start.length
  removePrefix 1
  return start.take (start.length - (← get).length)

/-- `consume_list_data`, with `skip_value` for the elements. -/
def listData (skip : BtReader Unit) : BtReader Bytes :=
  containerData isList (.invalidType "next bt value is not a list") (skipItem skip)

/-- `consume_dict_data`, with `skip_value` for the values. -/
def dictData (skip : BtReader Unit) : BtReader Bytes :=
  containerData isDict (.invalidType "next bt value is not a dict") (skipPair skip)

/-- `skip_value`, for values nested less than `n` deep. -/
def skipNested : Nat → BtReader Unit
  | 0 => throw .outOfFuel
  | n + 1 => do
    if ← isString then
      let _ ← consumeStringView
    else if ← isInteger then
      let _ ← btDeserializeInteger
    else if ← isList then
      let _ ← listData (skipNested n)
    else if ← isDict then
      let _ ← dictData (skipNested n)
    else
      throw (.invalidType "next bt value has unknown type")

def skipValue : BtReader Unit := do
  skipNested ((← get).length + 1)

def consumeListData : BtReader Bytes := do
  listData (skipNested (← get).length)

def consumeDictData : BtReader Bytes := do
  dictData (skipNested (← get).length)

variable {s : Bytes}

theorem run_isFinished_cons (c : UInt8) (s : Bytes) :
    isFinished.run (c :: s) = .ok (c == 'e'.toUInt8) (c :: s) := rfl

theorem run_isString_cons (c : UInt8) (s : Bytes) :
    isString.run (c :: s) = .ok (isDigit c) (c :: s) := rfl

theorem run_isInteger_cons (c : UInt8) (s : Bytes) :
    isInteger.run (c :: s) = .ok (c == 'i'.toUInt8) (c :: s) := rfl

theorem run_isList_cons (c : UInt8) (s : Bytes) :
    isList.run (c :: s) = .ok (c == 'l'.toUInt8) (c :: s) := rfl

theorem run_isDict_cons (c : UInt8) (s : Bytes) :
    isDict.run (c :: s) = .ok (c == 'd'.toUInt8) (c :: s) := rfl

theorem Alike.onCopy {α β : Type} {R : α → β → Prop} {k : Nat} {x : BtReader α} {y : BtReader β}
    (h : Alike R k s (x.run s) (y.run s)) : Alike R k s (x.run s) ((onCopy y).run s) := by
  generalize hx : x.run s = r at h
  generalize hy : y.run s = r' at h
  rw [EStateM.run, ArqmaMQ.onCopy, hy]
  cases h with
  | ok rel read hs hk => exact .ok rel read hs hk
  | error he he' => exact .error he he'

theorem alike_consumeStringView (s : Bytes) :
    Alike Eq 1 s (btDeserializeStringView.run s) (consumeStringView.run s) := by
  rcases s with _ | ⟨c, s⟩
  · exact .error trivial trivial
  by_cases hc : isDigit c = true
  · have he : consumeStringView.run (c :: s) = (onCopy btDeserializeStringView).run (c :: s) := by
      rw [consumeStringView, run_get_bind, run_throwIf_bind (by simp)]
      exact run_throwIf_bind (by simpa using hc) _ _
    rw [he]
    exact Alike.onCopy (alike_btDeserializeStringView (c :: s))
  · have he : consumeStringView.run (c :: s) =
        .error (.invalidType ("expected a string, but found " ++ byteText c)) (c :: s) := by
      rw [consumeStringView, run_get_bind, run_throwIf_bind (by simp)]
      exact run_throwIf_bind_error (by simpa using hc) _ _
    rw [he, btDeserializeStringView, run_get_bind]
    by_cases hlen : (c :: s).length < 2
    · rw [run_throwIf_bind_error hlen]
      exact .error trivial trivial
    · rw [run_throwIf_bind hlen, run_front_bind, run_throwIf_bind_error (by simpa using hc)]
      exact .error trivial trivial

section Loops

variable {α : Type} {k : Nat}

theorem run_whileNotFinished_step (body : BtReader Unit) (n : Nat) {c : UInt8}
    (hc : c ≠ 'e'.toUInt8) (s : Bytes) : (whileNotFinished body (n + 1)).run (c :: s) =
      (body >>= fun _ => whileNotFinished body n).run (c :: s) := by
  rw [whileNotFinished, run_bind_ok (run_isFinished_cons c s), if_neg (by simpa using hc)]

/-- The parser looks for the end of the view once, behind its loop; the consumer
looks for it in every round. -/
theorem alike_whileNotFinished {body : α → BtReader α} {round : BtReader Unit} {e : BtError}
    (he : e.Thrown) (hround : ∀ t, t ≠ [] → t.length ≤ k → ∀ a,
      Alike (fun _ _ => True) 1 t ((needMore e (body a)).run t) (round.run t)) {n m : Nat}
    (hs : s ≠ []) (hk : s.length ≤ k) (hn : s.length < n) (hm : s.length < m) (a : α) :
    Alike (fun _ _ => True) 1 s ((closeWith e (untilEnd body n a)).run s)
      ((do whileNotFinished round m; removePrefix 1 : BtReader Unit).run s) := by
  induction n generalizing m s a with
  | zero => omega
  | succ n ih =>
    obtain ⟨m, rfl⟩ : ∃ l, m = l + 1 := ⟨m - 1, by omega⟩
    obtain ⟨c, s, rfl⟩ := List.exists_cons_of_ne_nil hs
    by_cases hc : c = 'e'.toUInt8
    · subst hc
      exact .ok trivial ['e'.toUInt8] rfl (Nat.le_refl _)
    have hleft := run_untilEnd_step body n a s hc
    have hright := run_whileNotFinished_step round m hc s
    have hr := hround (c :: s) hs hk a
    rcases hb : (body a).run (c :: s) with ⟨a', rest⟩ | ⟨e', t⟩
    · rw [run_bind_ok hb] at hleft
      rw [run_closeWith_congr hleft]
      rcases rest with _ | ⟨d, rest⟩
      · rw [run_needMore_nil e hb] at hr
        generalize hy : round.run (c :: s) = r at hr
        cases hr with
        | error _ he' =>
          rw [run_bind_error hy] at hright
          rw [run_bind_error hright]
          obtain ⟨n, rfl⟩ : ∃ l, n = l + 1 := ⟨n - 1, by simp at hn; omega⟩
          exact .error he he'
      · rw [run_needMore_cons e hb] at hr
        generalize hy : round.run (c :: s) = r at hr
        cases hr with
        | ok _ read hread hlen =>
          have hshort : (d :: rest).length < (c :: s).length := by
            rw [← hread, List.length_append]
            omega
          have hh := ih (m := m) (s := d :: rest) (by simp) (by omega) (by omega) (by omega) a'
          rw [run_bind_ok hy] at hright
          rw [EStateM.run_bind] at hh ⊢
          rw [hright]
          exact (hh.append read hread).imp (fun _ _ h => h) (by omega)
    · rw [needMore, run_bind_error hb] at hr
      generalize hy : round.run (c :: s) = r at hr
      cases hr with
      | error he he' =>
        rw [run_bind_error hb] at hleft
        rw [run_bind_error hy] at hright
        rw [closeWith, run_bind_error hleft, run_bind_error hright]
        exact .error he he'

end Loops

section Values

variable {α : Type} {isType : BtReader Bool} {wrongType : BtError} {round skip : BtReader Unit}
  {c : UInt8}

theorem run_containerData (hc : isType.run (c :: s) = .ok true (c :: s)) (hs : s ≠ []) :
    (containerData isType wrongType round).run (c :: s) =
      ((do whileNotFinished round (s.length + 1); removePrefix 1 : BtReader Unit) >>=
        fun _ => do return (c :: s).take ((c :: s).length - (← get).length)).run s := by
  have := List.length_pos_of_ne_nil hs
  rw [containerData, run_get_bind, run_throwIf_bind (by simp; omega), bind_assoc, run_bind_ok hc,
    run_throwIf_bind (by simp), run_removePrefix_bind]
  rfl

theorem run_containerData_error (h : s.length < 2 ∨ isType.run s = .ok false s) :
    (containerData isType wrongType round).run s = .error wrongType s := by
  rw [containerData, run_get_bind]
  by_cases hlen : s.length < 2
  · rw [run_throwIf_bind_error hlen]
  · rw [run_throwIf_bind hlen, run_bind_ok (h.resolve_left hlen), run_throwIf_bind_error (by simp)]

/-- The view that is returned ends where the data now begins. -/
theorem eq_take_of_run_containerData {data rest : Bytes}
    (h : (containerData isType wrongType round).run s = .ok data rest) :
    data = s.take (s.length - rest.length) := by
  obtain ⟨start, _, hget, h⟩ := run_bind_eq_ok_iff.mp h
  obtain ⟨rfl, rfl⟩ := EStateM.Result.ok.inj hget
  obtain ⟨_, _, -, h⟩ := run_bind_eq_ok_iff.mp h
  obtain ⟨_, _, -, h⟩ := run_bind_eq_ok_iff.mp h
  obtain ⟨_, _, -, h⟩ := run_bind_eq_ok_iff.mp h
  obtain ⟨_, _, -, h⟩ := run_bind_eq_ok_iff.mp h
  obtain ⟨_, _, -, h⟩ := run_bind_eq_ok_iff.mp h
  obtain ⟨_, _, -, h⟩ := run_bind_eq_ok_iff.mp h
  obtain ⟨rest', _, hget, h⟩ := run_bind_eq_ok_iff.mp h
  obtain ⟨rfl, rfl⟩ := EStateM.Result.ok.inj hget
  obtain ⟨rfl, rfl⟩ := EStateM.Result.ok.inj h
  rfl

theorem alike_containerData {body : α → BtReader α} {e : BtError} (he : e.Thrown)
    (hc : isType.run (c :: s) = .ok true (c :: s)) (hs : s ≠ [])
    (h : ∀ t, t ≠ [] → t.length ≤ s.length → ∀ a,
      Alike (fun _ _ => True) 1 t ((needMore e (body a)).run t) (round.run t)) (a : α) :
    Alike (fun _ _ => True) 1 (c :: s) ((closeWith e (untilEnd body (s.length + 1) a)).run s)
      ((containerData isType wrongType round).run (c :: s)) := by
  have hloop := alike_whileNotFinished he h hs (Nat.le_refl _) (Nat.lt_succ_self _)
    (Nat.lt_succ_self _) a
  rw [run_containerData hc hs]
  refine (Alike.drop (s := c :: s) (n := 1) (k := 1) (by simp) ?_).imp (fun _ _ h => h) (by omega)
  generalize (closeWith e (untilEnd body (s.length + 1) a)).run s = r at hloop
  generalize hy : (do whileNotFinished round (s.length + 1); removePrefix 1 : BtReader Unit).run s =
    r' at hloop
  cases hloop with
  | ok _ read hread hlen =>
    rw [run_bind_ok hy]
    exact .ok trivial read hread hlen
  | error he he' =>
    rw [run_bind_error hy]
    exact .error he he'

theorem alike_listData {item : BtReader α} (hs : s ≠ [])
    (h : ∀ t, t ≠ [] → t.length ≤ s.length →
      Alike (fun _ _ => True) 1 t (item.run t) (skip.run t)) :
    Alike (fun _ _ => True) 1 ('l'.toUInt8 :: s) ((btDeserializeList item).run ('l'.toUInt8 :: s))
      ((listData skip).run ('l'.toUInt8 :: s)) := by
  rw [run_btDeserializeList item hs]
  refine alike_containerData (e := listUnfinished) trivial (run_isList_cons _ s) hs ?_ []
  intro t ht hlen list
  exact ((h t ht hlen).forget _).needMore trivial trivial

theorem alike_dictData {value : BtReader α} (hs : s ≠ [])
    (hnil : ∃ e t, value.run [] = .error e t ∧ e.Thrown)
    (h : ∀ t, t ≠ [] → t.length ≤ s.length →
      Alike (fun _ _ => True) 1 t (value.run t) (skip.run t)) :
    Alike (fun _ _ => True) 1 ('d'.toUInt8 :: s) ((btDeserializeDict value).run ('d'.toUInt8 :: s))
      ((dictData skip).run ('d'.toUInt8 :: s)) := by
  rw [run_btDeserializeDict value hs]
  refine alike_containerData (e := dictUnfinished) trivial (run_isDict_cons _ s) hs ?_ []
  intro t ht hlen dict
  rw [needMore, dictItem, bind_assoc]
  refine ((alike_consumeStringView t).bind (j := 0) ?_).imp (fun _ _ h => h) (by omega)
  rintro key _ rest rfl hrest
  rw [run_get_bind]
  rcases rest with _ | ⟨c, rest⟩
  · obtain ⟨e, t, hv, he⟩ := hnil
    rw [bind_assoc, run_bind_error hv]
    exact .error he trivial
  · refine (((h (c :: rest) (by simp) (by omega)).forget (mapInsert key · dict)).needMore
      (e := dictUnfinished) trivial ?_).imp (fun _ _ h => h) (by omega)
    exact trivial

/-- The dispatch on the first byte. -/
theorem run_skipNested_cons (n : Nat) (c : UInt8) (s : Bytes) :
    (skipNested (n + 1)).run (c :: s) =
      (if isDigit c then do
        let _ ← consumeStringView
      else if c = 'i'.toUInt8 then do
        let _ ← btDeserializeInteger
      else if c = 'l'.toUInt8 then do
        let _ ← listData (skipNested n)
      else if c = 'd'.toUInt8 then do
        let _ ← dictData (skipNested n)
      else
        throw (.invalidType "next bt value has unknown type") : BtReader Unit).run (c :: s) := by
  rw [skipNested, run_bind_ok (run_isString_cons c s)]
  split
  · rfl
  rw [run_bind_ok (run_isInteger_cons c s)]
  simp only [beq_iff_eq]
  split
  · rfl
  rw [run_bind_ok (run_isList_cons c s)]
  simp only [beq_iff_eq]
  split
  · rfl
  rw [run_bind_ok (run_isDict_cons c s)]
  simp only [beq_iff_eq]

/-- No value is a single byte. -/
theorem exists_run_skipNested_singleton (n : Nat) (c : UInt8) :
    ∃ e t, (skipNested (n + 1)).run [c] = .error e t ∧ e.Thrown := by
  rw [run_skipNested_cons]
  split
  · have h := alike_consumeStringView [c]
    rw [btDeserializeStringView, run_get_bind, run_throwIf_bind_error (by simp)] at h
    generalize hy : consumeStringView.run [c] = r at h
    cases h with
    | error _ he => exact ⟨_, _, run_bind_error hy _, he⟩
  split
  · have h : btDeserializeInteger.run [c] = .error (.invalid
        "Deserialization failed: end of string found where integer expected") [c] := by
      rw [btDeserializeInteger, run_get_bind, run_throwIf_bind_error (by simp)]
    exact ⟨_, _, run_bind_error h _, trivial⟩
  split
  · exact ⟨_, _, run_bind_error (run_containerData_error (.inl (by simp))) _, trivial⟩
  split
  · exact ⟨_, _, run_bind_error (run_containerData_error (.inl (by simp))) _, trivial⟩
  · exact ⟨_, _, rfl, trivial⟩

/-- Skipping a value reads what parsing it reads. -/
theorem alike_skipNested {n m : Nat} (hs : s ≠ []) (hn : s.length < n) (hm : s.length < m) :
    Alike (fun _ _ => True) 1 s ((btDeserializeValue n).run s) ((skipNested m).run s) := by
  induction n generalizing m s with
  | zero => omega
  | succ n ih =>
    obtain ⟨m, rfl⟩ : ∃ l, m = l + 1 := ⟨m - 1, by omega⟩
    obtain ⟨c, s, rfl⟩ := List.exists_cons_of_ne_nil hs
    rw [List.length_cons] at hn hm
    by_cases hlen : s = []
    · subst hlen
      obtain ⟨e, t, he, hthrown⟩ := exists_run_skipNested_singleton m c
      rw [he, run_btDeserializeValue_of_length_lt (by simp)]
      exact .error trivial hthrown
    rw [run_btDeserializeValue_cons n c hlen, run_skipNested_cons]
    have hpos := List.length_pos_of_ne_nil hlen
    split
    · subst c
      rw [if_neg (by decide), if_neg (by decide), if_neg (by decide)]
      obtain ⟨n, rfl⟩ : ∃ l, n = l + 1 := ⟨n - 1, by omega⟩
      refine (alike_dictData hlen ?_ fun t ht hl => ih ht (by omega) (by omega)).bind (j := 0) ?_
      · exact ⟨_, _, run_btDeserializeValue_of_length_lt (by simp) n, trivial⟩
      · exact fun _ _ _ _ _ => .pure trivial
    split
    · subst c
      rw [if_neg (by decide), if_neg (by decide)]
      refine (alike_listData hlen fun t ht hl => ih ht (by omega) (by omega)).bind (j := 0) ?_
      exact fun _ _ _ _ _ => .pure trivial
    split
    · subst c
      rw [if_neg (by decide)]
      refine (alike_btDeserializeInteger _).bind (j := 0) ?_
      exact fun _ _ _ _ _ => .pure trivial
    split
    · refine (alike_consumeStringView _).bind (j := 0) ?_
      exact fun _ _ _ _ _ => .pure trivial
    · exact .error trivial trivial

end Values

theorem alike_skipValue (hs : s ≠ []) :
    Alike (fun _ _ => True) 1 s (btDeserialize.run s) (skipValue.run s) := by
  rw [btDeserialize, skipValue, run_get_bind, run_get_bind]
  exact alike_skipNested hs (Nat.lt_succ_self _) (Nat.lt_succ_self _)

theorem alike_consumeListData (s : Bytes) :
    Alike (fun _ _ => True) 1 s (btDeserializeBtList.run s) (consumeListData.run s) := by
  rw [btDeserializeBtList, consumeListData, run_get_bind, run_get_bind]
  rcases s with _ | ⟨c, s⟩
  · exact .error trivial trivial
  by_cases h : s = [] ∨ c ≠ 'l'.toUInt8
  · obtain ⟨e, he, hthrown⟩ := run_btDeserializeList_error
      (btDeserializeValue (c :: s).length) (s := c :: s) (by simpa using h)
    rw [he, listData, run_containerData_error (by simpa [run_isList_cons] using h)]
    exact .error hthrown trivial
  · obtain ⟨hs, rfl⟩ : s ≠ [] ∧ c = 'l'.toUInt8 := by simpa using h
    exact alike_listData hs fun t ht hlen => alike_skipNested ht (by simp; omega) (by simp; omega)

theorem alike_consumeDictData (s : Bytes) :
    Alike (fun _ _ => True) 1 s (btDeserializeBtDict.run s) (consumeDictData.run s) := by
  rw [btDeserializeBtDict, consumeDictData, run_get_bind, run_get_bind]
  rcases s with _ | ⟨c, s⟩
  · exact .error trivial trivial
  by_cases h : s = [] ∨ c ≠ 'd'.toUInt8
  · obtain ⟨e, he, hthrown⟩ := run_btDeserializeDict_error
      (btDeserializeValue (c :: s).length) (s := c :: s) (by simpa using h)
    rw [he, dictData, run_containerData_error (by simpa [run_isDict_cons] using h)]
    exact .error hthrown trivial
  · obtain ⟨hs, rfl⟩ : s ≠ [] ∧ c = 'd'.toUInt8 := by simpa using h
    refine alike_dictData hs ⟨_, _, run_btDeserializeValue_of_length_lt (by simp) _, trivial⟩
      fun t ht hlen => alike_skipNested ht (by simp; omega) (by simp; omega)

theorem consumed_eq_of_run_containerData {isType : BtReader Bool} {wrongType : BtError}
    {round : BtReader Unit} {data rest read : Bytes} (hs : read ++ rest = s)
    (h : (containerData isType wrongType round).run s = .ok data rest) : data = read := by
  rw [eq_take_of_run_containerData h, ← hs, List.length_append, Nat.add_sub_cancel,
    List.take_left]

/-- A container's text is handed out whole, and only where it parses. -/
theorem run_containerData_iff {α : Type} {isType : BtReader Bool} {wrongType : BtError}
    {round : BtReader Unit} {r : EStateM.Result BtError Bytes α}
    (h : Alike (fun _ _ => True) 1 s r ((containerData isType wrongType round).run s))
    (data rest : Bytes) : (containerData isType wrongType round).run s = .ok data rest ↔
      data ++ rest = s ∧ ∃ a, r = .ok a rest := by
  constructor
  · intro hrun
    obtain ⟨a, hr, -, read, hs, -⟩ := h.swap.of_ok hrun
    rw [consumed_eq_of_run_containerData hs hrun]
    exact ⟨hs, a, hr⟩
  · rintro ⟨hs, a, hr⟩
    obtain ⟨data', hrun, -, read, hs', -⟩ := h.of_ok hr
    rw [hrun, consumed_eq_of_run_containerData hs' hrun,
      List.append_cancel_right (hs'.trans hs.symm)]

theorem run_consumeListData_iff (s data rest : Bytes) :
    consumeListData.run s = .ok data rest ↔
      data ++ rest = s ∧ ∃ l, btDeserializeBtList.run s = .ok l rest :=
  have h := alike_consumeListData s
  run_containerData_iff h data rest

theorem run_consumeDictData_iff (s data rest : Bytes) :
    consumeDictData.run s = .ok data rest ↔
      data ++ rest = s ∧ ∃ d, btDeserializeBtDict.run s = .ok d rest :=
  have h := alike_consumeDictData s
  run_containerData_iff h data rest

/-- Skipping succeeds exactly where parsing does and stops at the same byte, a
container's text is handed out exactly as it is parsed, and whatever fails does
so with an exception: no step looks at the first byte of an empty view. -/
theorem skipValue_iff_btDeserialize (s : Bytes) (hs : s ≠ []) :
    (∀ rest, skipValue.run s = .ok () rest ↔ ∃ v, btDeserialize.run s = .ok v rest) ∧
      (∀ data rest, consumeListData.run s = .ok data rest ↔
        data ++ rest = s ∧ ∃ l, btDeserialize.run s = .ok (.list l) rest) ∧
      (∀ data rest, consumeDictData.run s = .ok data rest ↔
        data ++ rest = s ∧ ∃ d, btDeserialize.run s = .ok (.dict d) rest) ∧
      ∀ e t, btDeserialize.run s = .error e t ∨ skipValue.run s = .error e t ∨
        consumeListData.run s = .error e t ∨ consumeDictData.run s = .error e t → e.Thrown := by
  have hskip := alike_skipValue hs
  have hlist := alike_consumeListData s
  have hdict := alike_consumeDictData s
  refine ⟨fun rest => ?_, fun data rest => ?_, fun data rest => ?_, ?_⟩
  · rw [hskip.ok_iff rest]
    exact ⟨fun h => ⟨(), h⟩, fun ⟨_, h⟩ => h⟩
  · simp only [run_btDeserialize_list]
    exact run_consumeListData_iff s data rest
  · simp only [run_btDeserialize_dict]
    exact run_consumeDictData_iff s data rest
  · rintro e t (h | h | h | h)
    · exact hskip.thrown h
    · exact hskip.swap.thrown h
    · exact hlist.swap.thrown h
    · exact hdict.swap.thrown h

/-- `ld1:ai-7eee` parses, because it is skipped up to the byte behind it. -/
theorem btDeserialize_of_skipped : bytes "ld1:ai-7eeex" ≠ [] ∧
    ∃ v, btDeserialize.run (bytes "ld1:ai-7eeex") = .ok v (bytes "x") :=
  have hs : bytes "ld1:ai-7eeex" ≠ [] := by decide
  ⟨hs, ((skipValue_iff_btDeserialize _ hs).1 (bytes "x")).mp (by decide +kernel)⟩

end BtListConsumer

end ArqmaMQ
