import ArqmaMQ.BtValue

/-! Reading bt values. A reader advances a view of the remaining input; the
view it leaves behind is kept when it throws. -/

namespace ArqmaMQ

inductive BtError
  /-- `bt_deserialize_invalid` -/
  | invalid (what : String)
  /-- `bt_deserialize_invalid_type` -/
  | invalidType (what : String)
  /-- The first byte of an empty view was read. -/
  | undefined
  /-- A bounded recursion of the model ran out before the source's would end. -/
  | outOfFuel
  deriving DecidableEq, Repr

abbrev BtReader := EStateM BtError Bytes

instance instDecidableEqResult {ε σ α : Type} [DecidableEq ε] [DecidableEq σ] [DecidableEq α] :
    DecidableEq (EStateM.Result ε σ α)
  | .ok a s, .ok b t => decidable_of_iff (a = b ∧ s = t) (by simp)
  | .error e s, .error f t => decidable_of_iff (e = f ∧ s = t) (by simp)
  | .ok .., .error .. => isFalse nofun
  | .error .., .ok .. => isFalse nofun

/-- `s[0]`. -/
def front : BtReader UInt8 := fun s =>
  match s with
  | [] => .error .undefined s
  | c :: _ => .ok c s

/-- `s.remove_prefix(n)`. -/
def removePrefix (n : Nat) : BtReader Unit := fun s => .ok () (s.drop n)

/-- `if (c) throw e;`. -/
def throwIf (c : Prop) [Decidable c] (e : BtError) : BtReader Unit :=
  if c then throw e else pure ()

/-- A byte as it is appended to an error text. -/
def byteText (c : UInt8) : String := String.singleton (Char.ofNat c.toNat)

/-- The loop of `extract_unsigned`. The overflow test compares the next value,
reduced to 64 bits, with the previous one. -/
def digitLoop (uval : UInt64) : Bytes → EStateM.Result BtError Bytes UInt64
  | [] => .ok uval []
  | c :: s =>
    if isDigit c then
      let bigger := uval * 10 + (c - '0'.toUInt8).toUInt64
      if bigger < uval then
        .error (.invalid
          "Integer deserialization failed: value is too large for a 64-bit int") s
      else digitLoop bigger s
    else .ok uval (c :: s)

def extractDigits : BtReader UInt64 := fun s => digitLoop 0 s

def extractUnsigned : BtReader UInt64 := do
  throwIf (← get).isEmpty
    (.invalid "Expected 0-9 but found end of string")
  let c ← front
  throwIf (¬ isDigit c)
    (.invalid ("Expected 0-9 but found '" ++ byteText c))
  extractDigits

/-- `bt_deserialize<std::string_view>`. -/
def btDeserializeStringView : BtReader Bytes := do
  throwIf ((← get).length < 2)
    (.invalid "Deserialize failed: given data is not an bt-encoded string")
  let c ← front
  throwIf (¬ isDigit c)
    (.invalidType ("Expected 0-9 but found '" ++ byteText c ++ "'"))
  let len ← extractUnsigned
  throwIf (← get).isEmpty
    (.invalid "Did not find expected ':' during string deserialization")
  throwIf ((← front) ≠ ':'.toUInt8)
    (.invalid "Did not find expected ':' during string deserialization")
  removePrefix 1
  let s ← get
  throwIf (len.toNat > s.length)
    (.invalid ("String deserialization failed: encoded string length is longer than the "
      ++ "serialized data"))
  removePrefix len.toNat
  return s.take len.toNat

/-- `bt_deserialize_integer`: the magnitude, and whether a `-` was read. -/
def btDeserializeInteger : BtReader (UInt64 × Bool) := do
  throwIf ((← get).length < 3)
    (.invalid "Deserialization failed: end of string found where integer expected")
  let c ← front
  throwIf (c ≠ 'i'.toUInt8)
    (.invalidType ("Deserialization failed: expected 'i', found '" ++ byteText c ++ "'"))
  removePrefix 1
  let negative := (← front) == '-'.toUInt8
  removePrefix negative.toNat
  let magnitude ← extractUnsigned
  throwIf (← get).isEmpty
    (.invalid ("Integer deserialization failed: encountered end of string before integer "
      ++ "was finished"))
  let c ← front
  throwIf (c ≠ 'e'.toUInt8)
    (.invalid ("Integer deserialization failed: expected digit or 'e', found '"
      ++ byteText c ++ "'"))
  removePrefix 1
  throwIf (negative ∧ (1 : UInt64) <<< 63 < magnitude)
    (.invalid ("Deserialization of integer failed: negative integer value is too large for "
      ++ "a 64-bit signed int"))
  return (magnitude, negative)

/-- `while (!s.empty() && s[0] != 'e') body`, for at most `n - 1` rounds. -/
def untilEnd {α : Type} (body : α → BtReader α) : Nat → α → BtReader α
  | 0, _ => throw .outOfFuel
  | n + 1, acc => fun s =>
    match s with
    | [] => .ok acc []
    | c :: s =>
      if c = 'e'.toUInt8 then .ok acc (c :: s)
      else (body acc >>= untilEnd body n).run (c :: s)

/-- `bt_deserialize` for a list container with the given element reader. -/
def btDeserializeList {α : Type} (item : BtReader α) : BtReader (List α) := do
  let size := (← get).length
  throwIf (size < 2)
    (.invalid "Deserialization failed: end of string found where list expected")
  let c ← front
  throwIf (c ≠ 'l'.toUInt8)
    (.invalidType ("Deserialization failed: expected 'l', found '" ++ byteText c ++ "'"))
  removePrefix 1
  let list ← untilEnd (fun list => return list ++ [← item]) size []
  throwIf (← get).isEmpty
    (.invalid "Deserialization failed: encountered end of string before list was finished")
  removePrefix 1
  return list

/-- `bt_deserialize` for a dict container with the given value reader. -/
def btDeserializeDict {α : Type} (value : BtReader α) : BtReader (List (Bytes × α)) := do
  let size := (← get).length
  throwIf (size < 2)
    (.invalid "Deserialization failed: end of string found where dict expected")
  let c ← front
  throwIf (c ≠ 'd'.toUInt8)
    (.invalidType ("Deserialization failed: expected 'd', found '" ++ byteText c ++ "'"))
  removePrefix 1
  let dict ← untilEnd (fun dict => do
    let key ← btDeserializeStringView
    let val ← value
    return mapInsert key val dict) size []
  throwIf (← get).isEmpty
    (.invalid "Deserialization failed: encountered end of string before dict was finished")
  removePrefix 1
  return dict

/-- `bt_deserialize<bt_value>`, for values nested less than `n` deep. -/
def btDeserializeValue : Nat → BtReader BtVariant
  | 0 => throw .outOfFuel
  | n + 1 => do
    throwIf ((← get).length < 2)
      (.invalid "Deserialization failed: end of string found where bt-encoded value expected")
    let c ← front
    if c = 'd'.toUInt8 then
      return .dict (← btDeserializeDict (btDeserializeValue n))
    else if c = 'l'.toUInt8 then
      return .list (← btDeserializeList (btDeserializeValue n))
    else if c = 'i'.toUInt8 then
      let (magnitude, negative) ← btDeserializeInteger
      return if negative then .int (-magnitude.toInt64) else .uint magnitude
    else if isDigit c then
      return .string (← btDeserializeStringView)
    else
      throw (.invalid ("Deserialize failed: encountered invalid value '" ++ byteText c
        ++ "'; expected one of [0-9idl]"))

/-- `bt_deserialize<bt_value>` on a whole view. No encoding nests deeper than
it is long. -/
def btDeserialize : BtReader BtVariant := do
  btDeserializeValue ((← get).length + 1)

end ArqmaMQ
