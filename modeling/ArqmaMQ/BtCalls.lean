import ArqmaMQ.BtDictWalk
import ArqmaMQ.BtTypes

/-! The public methods of the two consumers, with the templates that take a type,
and what asking for the next key can come to. -/

namespace ArqmaMQ

namespace BtListConsumer

def currentBuffer : BtReader Bytes := get

def consumeString : BtReader Bytes := consumeStringView

/-- `consume_list<T>`. -/
def consumeListAs (t : BtType) : BtReader t.Val :=
  consumeAs isList (.invalidType "next bt value is not a list") t.read

/-- `consume_dict<T>`. -/
def consumeDictAs (t : BtType) : BtReader t.Val :=
  consumeAs isDict (.invalidType "next bt value is not a dict") t.read

inductive Call
  | currentBuffer
  | isFinished
  | isString
  | isInteger
  | isNegativeInteger
  | isList
  | isDict
  | consumeString
  | consumeStringView
  | consumeInteger (t : IntType)
  | consumeList (t : BtType)
  | consumeDict (t : BtType)
  | skipValue
  | consumeListData
  | consumeDictData

def Call.Result : Call → Type
  | .isFinished | .isString | .isInteger | .isNegativeInteger | .isList | .isDict => Bool
  | .currentBuffer | .consumeString | .consumeStringView | .consumeListData | .consumeDictData =>
    Bytes
  | .consumeInteger _ => Int
  | .consumeList t | .consumeDict t => t.Val
  | .skipValue => Unit

def call : (op : Call) → BtReader op.Result
  | .currentBuffer => currentBuffer
  | .isFinished => isFinished
  | .isString => isString
  | .isInteger => isInteger
  | .isNegativeInteger => isNegativeInteger
  | .isList => isList
  | .isDict => isDict
  | .consumeString => consumeString
  | .consumeStringView => consumeStringView
  | .consumeInteger t => consumeInteger t
  | .consumeList t => consumeListAs t
  | .consumeDict t => consumeDictAs t
  | .skipValue => skipValue
  | .consumeListData => consumeListData
  | .consumeDictData => consumeDictData

/-- A question about the first byte. -/
structure Tests (x : BtReader Bool) (p : UInt8 → Bool) : Prop where
  nil : x.run [] = .error .undefined []
  cons (c : UInt8) (s : Bytes) : x.run (c :: s) = .ok (p c) (c :: s)

theorem tests_isFinished : Tests isFinished (· == 'e'.toUInt8) := ⟨rfl, run_isFinished_cons⟩

theorem tests_isString : Tests isString isDigit := ⟨rfl, run_isString_cons⟩

theorem tests_isInteger : Tests isInteger (· == 'i'.toUInt8) := ⟨rfl, run_isInteger_cons⟩

theorem tests_isList : Tests isList (· == 'l'.toUInt8) := ⟨rfl, run_isList_cons⟩

theorem tests_isDict : Tests isDict (· == 'd'.toUInt8) := ⟨rfl, run_isDict_cons⟩

theorem exists_run_isNegativeInteger (c : UInt8) (s : Bytes) :
    ∃ b, isNegativeInteger.run (c :: s) = .ok b (c :: s) := by
  rw [isNegativeInteger, run_bind_ok (tests_isInteger.cons c s)]
  split <;> exact ⟨_, rfl⟩

/-- What is read on a copy of the view leaves the view alone when it throws. -/
theorem run_onCopy_error_iff {α : Type} {x : BtReader α} {s t : Bytes} {e : BtError} :
    (onCopy x).run s = .error e t ↔ t = s ∧ ∃ u, x.run s = .error e u := by
  rw [EStateM.run, onCopy]
  split
  · rename_i h
    simp [h]
  · rename_i h
    simp [h, eq_comm, and_comm]

theorem run_consumeStringView_error {s t : Bytes} {e : BtError}
    (h : consumeStringView.run s = .error e t) :
    t = s ∧ (s = [] ∧ e = .invalid "expected a string, but reached end of data" ∨
      (∃ c, s.head? = some c ∧ isDigit c = false ∧
        e = .invalidType ("expected a string, but found " ++ byteText c)) ∨
      ∃ u, btDeserializeStringView.run s = .error e u) := by
  rcases s with _ | ⟨c, s⟩
  · obtain ⟨rfl, rfl⟩ := EStateM.Result.error.inj h
    exact ⟨rfl, .inl ⟨rfl, rfl⟩⟩
  rw [consumeStringView, run_get_bind, run_throwIf_bind (by simp)] at h
  by_cases hc : isDigit c = true
  · obtain ⟨rfl, hu⟩ := run_onCopy_error_iff.mp
      ((run_throwIf_bind (by simpa using hc) _ _).symm.trans h)
    exact ⟨rfl, .inr (.inr hu)⟩
  · obtain ⟨rfl, rfl⟩ := EStateM.Result.error.inj
      ((run_throwIf_bind_error (by simpa using hc) _ _).symm.trans h)
    exact ⟨rfl, .inr (.inl ⟨c, rfl, Bool.eq_false_iff.mpr hc, rfl⟩)⟩

end BtListConsumer

namespace BtDictConsumer

open BtListConsumer (Tests)

/-- `next_list<T>`. -/
def nextListAs (t : BtType) : Method (Bytes × t.Val) :=
  nextWith isList (return .invalidType "next bt value is not a list")
    (BtListConsumer.consumeListAs t)

/-- `next_dict<T>`. -/
def nextDictAs (t : BtType) : Method (Bytes × t.Val) :=
  nextWith isDict (return .invalidType "next bt value is not a dict")
    (BtListConsumer.consumeDictAs t)

/-- `next_list_consumer`, with what the constructor of the list consumer makes of
the text. -/
def nextListConsumer : Method (Bytes × Except String Bytes) := do
  let (k, data) ← nextListData
  return (k, BtListConsumer.ofData data)

/-- `next_dict_consumer`. -/
def nextDictConsumer : Method (Bytes × Except String BtDictConsumer) := do
  let (k, data) ← nextDictData
  return (k, ofData data)

/-- The methods that consume a pair. -/
inductive PairCall
  | string
  | integer (t : IntType)
  | list (t : BtType)
  | dict (t : BtType)
  | listData
  | dictData
  | listConsumer
  | dictConsumer

def PairCall.Value : PairCall → Type
  | .string | .listData | .dictData => Bytes
  | .integer _ => Int
  | .list t | .dict t => t.Val
  | .listConsumer => Except String Bytes
  | .dictConsumer => Except String BtDictConsumer

def nextPair : (op : PairCall) → Method (Bytes × op.Value)
  | .string => nextString
  | .integer t => nextInteger t
  | .list t => nextListAs t
  | .dict t => nextDictAs t
  | .listData => nextListData
  | .dictData => nextDictData
  | .listConsumer => nextListConsumer
  | .dictConsumer => nextDictConsumer

/-- A `consume_*` method is the `next_*` method without the key. -/
inductive Call
  | isFinished
  | operatorBool
  | isString
  | isInteger
  | isNegativeInteger
  | isList
  | isDict
  | key
  | next (op : PairCall)
  | consume (op : PairCall)
  | skipUntil (find : Bytes)

def Call.Result : Call → Type
  | .isFinished | .operatorBool | .isString | .isInteger | .isNegativeInteger | .isList | .isDict
  | .skipUntil _ => Bool
  | .key => Bytes
  | .next op => Bytes × op.Value
  | .consume op => op.Value

def call : (op : Call) → Method op.Result
  | .isFinished => isFinished
  | .operatorBool => return !(← isFinished)
  | .isString => isString
  | .isInteger => isInteger
  | .isNegativeInteger => isNegativeInteger
  | .isList => isList
  | .isDict => isDict
  | .key => key
  | .next op => nextPair op
  | .consume op => return (← nextPair op).2
  | .skipUntil find => skipUntil find

/-- What asking for the key can come to. -/
inductive KeyOutcome : BtDictConsumer → EStateM.Result BtError BtDictConsumer Bool → Prop
  | cached (data k : Bytes) : KeyOutcome ⟨data, some k⟩ (.ok true ⟨data, some k⟩)
  | outOfData : KeyOutcome ⟨[], none⟩
      (.error (.invalidType "expected a key or dict end, found end of string") ⟨[], none⟩)
  | atEnd (s : Bytes) :
      KeyOutcome ⟨'e'.toUInt8 :: s, none⟩ (.ok false ⟨'e'.toUInt8 :: s, none⟩)
  | noKey {s t : Bytes} {b : UInt8} {e : BtError} (hb : b ≠ 'e'.toUInt8)
      (h : BtListConsumer.consumeStringView.run (b :: s) = .error e t) :
      KeyOutcome ⟨b :: s, none⟩ (.error e ⟨b :: s, none⟩)
  | noValue {s k rest : Bytes} (h : BtListConsumer.consumeStringView.run s = .ok k rest)
      (hrest : rest = [] ∨ rest.head? = some 'e'.toUInt8) : KeyOutcome ⟨s, none⟩
      (.error (.invalid "dict key isn't followed by a value") ⟨rest, some k⟩)
  | found {s k rest : Bytes} {b : UInt8}
      (h : BtListConsumer.consumeStringView.run s = .ok k (b :: rest)) (hb : b ≠ 'e'.toUInt8) :
      KeyOutcome ⟨s, none⟩ (.ok true ⟨b :: rest, some k⟩)

theorem keyOutcome (c : BtDictConsumer) : KeyOutcome c (consumeKey.run c) := by
  rcases c with ⟨data, _ | k⟩
  swap
  · exact .cached data k
  rcases data with _ | ⟨d, s⟩
  · exact .outOfData
  rw [consumeKey, run_get_bind, if_neg (by simp), run_get_bind, if_neg (by simp),
    run_bind_ok (run_base_front d s none)]
  by_cases hd : d = 'e'.toUInt8
  · subst hd
    exact .atEnd s
  rw [if_neg hd]
  cases h : BtListConsumer.consumeStringView.run (d :: s) with
  | error e t =>
    obtain ⟨rfl, -⟩ := BtListConsumer.run_consumeStringView_error h
    rw [run_bind_error (run_base_error h)]
    exact .noKey hd h
  | ok k rest =>
    rw [run_bind_ok (run_base_ok h), run_modify_bind, run_get_bind]
    rcases rest with _ | ⟨b, rest⟩
    · exact .noValue h (.inl rfl)
    rw [if_neg (by simp), run_bind_ok (run_base_front b rest (some k))]
    by_cases hb : b = 'e'.toUInt8
    · rw [if_pos hb]
      exact .noValue h (.inr (by rw [hb]; rfl))
    · rw [if_neg hb]
      exact .found h hb

/-- Nothing but the next key was read, and it is still there. -/
def UpToKey (c c' : BtDictConsumer) : Prop :=
  c' = c ∨ c.key_ = none ∧
    ∃ k, c'.key_ = some k ∧ BtListConsumer.consumeStringView.run c.data = .ok k c'.data

variable {c c' : BtDictConsumer}

/-- Where a query answers, the key is cached or the dict is at its end. -/
theorem run_valueIs_ok {q : BtReader Bool} {p : UInt8 → Bool} (hq : Tests q p) {b : Bool}
    (h : (valueIs q).run c = .ok b c') : UpToKey c c' ∧ ∃ d s, c'.data = d :: s ∧
      (c'.key_.isSome = true ∧ b = p d ∨ c'.key_ = none ∧ d = 'e'.toUInt8 ∧ b = false) := by
  have hkey := keyOutcome c
  rw [valueIs, EStateM.run_bind] at h
  generalize consumeKey.run c = r at hkey h
  cases hkey with
  | cached data k =>
    rcases data with _ | ⟨d, s⟩
    · cases (run_base_error hq.nil).symm.trans h
    · cases (run_base_ok (hq.cons d s)).symm.trans h
      exact ⟨.inl rfl, d, s, rfl, .inl ⟨rfl, rfl⟩⟩
  | outOfData => cases h
  | atEnd s =>
    cases h
    exact ⟨.inl rfl, _, s, rfl, .inr ⟨rfl, rfl, rfl⟩⟩
  | noKey => cases h
  | noValue => cases h
  | found hrun =>
    cases (run_base_ok (hq.cons _ _)).symm.trans h
    exact ⟨.inr ⟨rfl, _, rfl, hrun⟩, _, _, rfl, .inl ⟨rfl, rfl⟩⟩

end BtDictConsumer

end ArqmaMQ
