import ArqmaMQ.BtConsumer

/-! Walking over the pairs of a dict: `bt_dict_consumer`. The key of the next
pair is read when it is first asked for, and kept until the value is consumed. -/

namespace ArqmaMQ

/-- The integral types of 8 to 64 bits. `long long` is not `int64_t`, and
`unsigned long long` is not `uint64_t`. -/
inductive IntType
  | int8
  | int16
  | int
  | int64
  | longLong
  | uint8
  | uint16
  | uint32
  | uint64
  | unsignedLongLong
  | bool
  deriving DecidableEq, Repr

namespace IntType

def isSigned : IntType → Bool
  | .int8 | .int16 | .int | .int64 | .longLong => true
  | .uint8 | .uint16 | .uint32 | .uint64 | .unsignedLongLong | .bool => false

/-- `std::numeric_limits<T>::max()`. -/
def max : IntType → Nat
  | .int8 => 2 ^ 7 - 1
  | .int16 => 2 ^ 15 - 1
  | .int => 2 ^ 31 - 1
  | .int64 | .longLong => 2 ^ 63 - 1
  | .uint8 => 2 ^ 8 - 1
  | .uint16 => 2 ^ 16 - 1
  | .uint32 => 2 ^ 32 - 1
  | .uint64 | .unsignedLongLong => 2 ^ 64 - 1
  | .bool => 1

/-- `std::numeric_limits<T>::min()`. -/
def min : IntType → Int
  | .int8 => -2 ^ 7
  | .int16 => -2 ^ 15
  | .int => -2 ^ 31
  | .int64 | .longLong => -2 ^ 63
  | .uint8 | .uint16 | .uint32 | .uint64 | .unsignedLongLong | .bool => 0

end IntType

/-- `bt_deserialize<T>` for an integer type. -/
def btDeserializeInt (t : IntType) : BtReader Int := do
  let (magnitude, negative) ← btDeserializeInteger
  if t.isSigned then
    if ¬ negative then
      throwIf (t.max < magnitude.toNat)
        (.invalid ("Integer deserialization failed: found too-large value " ++
          toString magnitude ++ " > " ++ toString t.max))
      return magnitude.toNat
    else
      let sval := (-magnitude.toInt64).toInt
      throwIf (t ≠ .int64 ∧ sval < t.min)
        (.invalid ("Integer deserialization failed: found too-low value " ++
          toString sval ++ " < " ++ toString t.min))
      return sval
  else
    throwIf negative
      (.invalid ("Integer deserialization failed: found negative value " ++
        toString magnitude ++ " but type is unsigned"))
    throwIf (t ≠ .uint64 ∧ t.max < magnitude.toNat)
      (.invalid ("Integer deserialization failed: found too-large value " ++
        toString magnitude ++ " > " ++ toString t.max))
    return magnitude.toNat

namespace BtListConsumer

def isNegativeInteger : BtReader Bool := do
  if ← isInteger then
    let data ← get
    return decide (2 ≤ data.length ∧ data[1]? = some '-'.toUInt8)
  else
    return false

/-- The common shape of the methods that consume a value of one type. -/
def consumeAs {α : Type} (isType : BtReader Bool) (wrongType : BtError) (x : BtReader α) :
    BtReader α := do
  throwIf (¬ (← isType)) wrongType
  onCopy x

def consumeInteger (t : IntType) : BtReader Int :=
  consumeAs isInteger (.invalidType "next value is not an integer") (btDeserializeInt t)

/-- `consume_list(bt_list&)`. -/
def consumeList : BtReader (List BtVariant) :=
  consumeAs isList (.invalidType "next bt value is not a list") btDeserializeBtList

/-- `consume_dict(bt_dict&)`. -/
def consumeDict : BtReader (List (Bytes × BtVariant)) :=
  consumeAs isDict (.invalidType "next bt value is not a dict") btDeserializeBtDict

end BtListConsumer

/-- The view and the cached key. A key is cached when its view is not null, so
the empty key is one. -/
structure BtDictConsumer where
  data : Bytes
  key_ : Option Bytes
  deriving DecidableEq, Repr

namespace BtDictConsumer

abbrev Method := EStateM BtError BtDictConsumer

/-- A call of a method of the base class. -/
def base {α : Type} (x : BtReader α) : Method α := fun c =>
  match x.run c.data with
  | .ok a data => .ok a { c with data }
  | .error e data => .error e { c with data }

/-- The constructor. It throws `std::runtime_error`. -/
def ofData (data : Bytes) : Except String BtDictConsumer :=
  if data.isEmpty then
    .error "Cannot create a bt_dict_consumer with an empty string_view"
  else if data.length < 2 ∨ data.head? ≠ some 'd'.toUInt8 then
    .error "Cannot create a bt_dict_consumer with non-dict data"
  else
    .ok { data := data.drop 1, key_ := none }

def consumeKey : Method Bool := do
  if (← get).key_.isSome then
    return true
  else if (← get).data.isEmpty then
    throw (.invalidType "expected a key or dict end, found end of string")
  else if (← base front) = 'e'.toUInt8 then
    return false
  else
    let k ← base BtListConsumer.consumeStringView
    modify fun c => { c with key_ := some k }
    if (← get).data.isEmpty then
      throw (.invalid "dict key isn't followed by a value")
    else if (← base front) = 'e'.toUInt8 then
      throw (.invalid "dict key isn't followed by a value")
    else
      return true

/-- `flush_key`; a null view is empty. -/
def flushKey : Method Bytes := do
  let k := (← get).key_
  modify fun c => { c with key_ := none }
  return k.getD []

def isFinished : Method Bool := do
  if ← consumeKey then return false else base BtListConsumer.isFinished

/-- `consume_key() && ...`, with a question that the base class answers. -/
def valueIs (x : BtReader Bool) : Method Bool := do
  if ← consumeKey then base x else return false

def isString : Method Bool := valueIs BtListConsumer.isString

def isInteger : Method Bool := valueIs BtListConsumer.isInteger

/-- `is_negative_integet`. -/
def isNegativeInteger : Method Bool := valueIs BtListConsumer.isNegativeInteger

def isList : Method Bool := valueIs BtListConsumer.isList

def isDict : Method Bool := valueIs BtListConsumer.isDict

def key : Method Bytes := do
  if ← consumeKey then
    return (← get).key_.getD []
  else
    throw (.invalid "Cannot access next key: at the end of the dict")

/-- The common shape of the methods that consume a pair. -/
def nextWith {α : Type} (isType : Method Bool) (wrongType : Method BtError) (x : BtReader α) :
    Method (Bytes × α) := do
  if ← isType then
    let v ← base x
    return (← flushKey, v)
  else
    throw (← wrongType)

def nextString : Method (Bytes × Bytes) :=
  nextWith isString
    (return .invalidType ("expected a string, but found " ++ byteText (← base front)))
    BtListConsumer.consumeStringView

def nextInteger (t : IntType) : Method (Bytes × Int) :=
  nextWith isInteger (return .invalidType "next bt dict value is not an integer")
    (BtListConsumer.consumeInteger t)

/-- `next_list(bt_list&)`. -/
def nextList : Method (Bytes × List BtVariant) :=
  nextWith isList (return .invalidType "next bt value is not a list") BtListConsumer.consumeList

/-- `next_dict(bt_dict&)`. -/
def nextDict : Method (Bytes × List (Bytes × BtVariant)) :=
  nextWith isDict (return .invalidType "next bt value is not a dict") BtListConsumer.consumeDict

/-- The loop of `skip_until`, for at most `n - 1` skipped pairs. -/
def skipLoop (find : Bytes) : Nat → Method Bool
  | 0 => throw .outOfFuel
  | n + 1 => do
    if ← consumeKey then
      if (← get).key_.getD [] < find then
        let _ ← flushKey
        base BtListConsumer.skipValue
        skipLoop find n
      else
        return (← get).key_.getD [] == find
    else
      return (← get).key_.getD [] == find

def skipUntil (find : Bytes) : Method Bool := do
  skipLoop find ((← get).data.length + 1)

def consumeString : Method Bytes := return (← nextString).2

def consumeInteger (t : IntType) : Method Int := return (← nextInteger t).2

def nextListData : Method (Bytes × Bytes) := do
  if (← get).data.length < 2 then
    throw (.invalidType "next bt dict value is not a list")
  else if ← isList then
    let k ← flushKey
    return (k, ← base BtListConsumer.consumeListData)
  else
    throw (.invalidType "next bt dict value is not a list")

def consumeListData : Method Bytes := return (← nextListData).2

def nextDictData : Method (Bytes × Bytes) := do
  if (← get).data.length < 2 then
    throw (.invalidType "next bt dict value is not a dict")
  else if ← isDict then
    let k ← flushKey
    return (k, ← base BtListConsumer.consumeDictData)
  else
    throw (.invalidType "next bt dict value is not a dict")

def consumeDictData : Method Bytes := return (← nextDictData).2

end BtDictConsumer

end ArqmaMQ
