import ArqmaMQ.BtExact

/-! The static types of the bt serialization, and the templates that are chosen
for each of them. A value of a map type is the sequence of pairs met by
iterating over the map. -/

namespace ArqmaMQ

/-- The types that can be written and read: integers, strings, `bt_value`, list
containers, maps with string keys, tuples and pairs. -/
inductive BtType
  | int (t : IntType)
  | string
  | value
  | list (t : BtType)
  | dict (t : BtType)
  | tuple (ts : List BtType)
  | pair (s t : BtType)

/-- `bt_serialize_tuple`. -/
def btSerializeTuple (elems : List Bytes) : Bytes :=
  'l'.toUInt8 :: elems.flatten ++ ['e'.toUInt8]

/-- `bt_deserialize_tuple`, with the reader of its components. -/
def btDeserializeTuple {α : Type} (elems : BtReader α) : BtReader α := do
  throwIf ((← get).length < 2)
    (.invalid "Deserialization failed. end of string found where tuple expected")
  let c ← front
  throwIf (c ≠ 'l'.toUInt8)
    (.invalidType ("Deserialization of tuple failed: expected 'l', found '" ++ byteText c ++ "'"))
  removePrefix 1
  let elems ← elems
  throwIf (← get).isEmpty
    (.invalid "Deserialization failed. encountered end of string before tuple was finished")
  throwIf ((← front) ≠ 'e'.toUInt8)
    (.invalid "Deserialization failed. expected end of tuple but found something else")
  removePrefix 1
  return elems

/-- One component of a tuple, then the others. -/
def readBoth {α β : Type} (x : BtReader α) (y : BtReader β) : BtReader (α × β) := do
  return (← x, ← y)

namespace BtType

/-- Induction over a type where every component of a tuple is a case of the
hypothesis. -/
@[elab_as_elim]
theorem induct {P : BtType → Prop} (int : ∀ t, P (.int t)) (string : P .string)
    (value : P .value) (list : ∀ t, P t → P (.list t)) (dict : ∀ t, P t → P (.dict t))
    (tuple : ∀ ts, (∀ t ∈ ts, P t) → P (.tuple ts))
    (pair : ∀ s t, P s → P t → P (.pair s t)) (t : BtType) : P t := by
  refine @BtType.rec P (fun ts => ∀ t ∈ ts, P t) int string value list dict tuple pair ?_ ?_ t
  · simp
  · intro t ts ht hts
    simpa using ⟨ht, hts⟩

mutual

def Val : BtType → Type
  | .int _ => Int
  | .string => Bytes
  | .value => BtVariant
  | .list t => List t.Val
  | .dict t => List (Bytes × t.Val)
  | .tuple ts => Fields ts
  | .pair s t => s.Val × t.Val

def Fields : List BtType → Type
  | [] => Unit
  | t :: ts => t.Val × Fields ts

end

mutual

/-- `bt_serialize<T>`. -/
def write : (t : BtType) → t.Val → Bytes
  | .int _, i => btSerializeInteger i
  | .string, s => btSerializeString s
  | .value, v => btSerialize v
  | .list t, l => btSerializeList (l.map t.write)
  | .dict t, d => btSerializeDict (d.map fun p => (p.1, t.write p.2))
  | .tuple ts, v => btSerializeTuple (writeFields ts v)
  | .pair s t, v => btSerializeTuple [s.write v.1, t.write v.2]

def writeFields : (ts : List BtType) → Fields ts → List Bytes
  | [], _ => []
  | t :: ts, v => t.write v.1 :: writeFields ts v.2

end

mutual

/-- `bt_deserialize<T>`. -/
def read : (t : BtType) → BtReader t.Val
  | .int t => btDeserializeInt t
  | .string => btDeserializeStringView
  | .value => btDeserialize
  | .list t => btDeserializeList t.read
  | .dict t => btDeserializeDict t.read
  | .tuple ts => btDeserializeTuple (readFields ts)
  | .pair s t => btDeserializeTuple (readBoth s.read t.read)

def readFields : (ts : List BtType) → BtReader (Fields ts)
  | [] => return ()
  | t :: ts => readBoth t.read (readFields ts)

end

mutual

/-- Every type that a type is built from passes a test. -/
def all (p : BtType → Bool) : BtType → Bool
  | .int t => p (.int t)
  | .string => p .string
  | .value => p .value
  | .list t => p (.list t) && t.all p
  | .dict t => p (.dict t) && t.all p
  | .tuple ts => p (.tuple ts) && allFields p ts
  | .pair s t => p (.pair s t) && s.all p && t.all p

def allFields (p : BtType → Bool) : List BtType → Bool
  | [] => true
  | t :: ts => t.all p && allFields p ts

end

/-- A container of pairs with a string first is a dict container, so no list is
one. -/
def noListOfPairs : BtType → Bool
  | .list (.pair .string _) => false
  | _ => true

def noValue : BtType → Bool
  | .value => false
  | t => t.noListOfPairs

/-- Built without `bt_value`. -/
def Static (t : BtType) : Prop := t.all noValue = true

def ValidItems {α : Type} (P : α → Prop) (l : List α) : Prop := ∀ v ∈ l, P v

/-- A map holds each key once. -/
def ValidPairs {α : Type} (P : α → Prop) (d : List (Bytes × α)) : Prop :=
  (d.map Prod.fst).Nodup ∧ ∀ p ∈ d, p.1.length < 2 ^ 64 ∧ P p.2

instance decidableValidPairs {α : Type} (P : α → Prop) [DecidablePred P]
    (d : List (Bytes × α)) : Decidable (ValidPairs P d) :=
  inferInstanceAs (Decidable (_ ∧ _))

/-- Two ways to iterate over maps with related values. -/
def SamePairs {α : Type} (R : α → α → Prop) (d e : List (Bytes × α)) : Prop :=
  ∃ e', e'.Perm e ∧ List.Forall₂ (fun p q => p.1 = q.1 ∧ R p.2 q.2) d e'

mutual

/-- What a C++ object of the type can be. -/
def Valid : (t : BtType) → t.Val → Prop
  | .int t, i => t.Holds i
  | .string, s => s.length < 2 ^ 64
  | .value, v => v.Valid
  | .list t, l => ValidItems t.Valid l
  | .dict t, d => ValidPairs t.Valid d
  | .tuple ts, v => ValidFields ts v
  | .pair s t, v => s.Valid v.1 ∧ t.Valid v.2

def ValidFields : (ts : List BtType) → Fields ts → Prop
  | [], _ => True
  | t :: ts, v => t.Valid v.1 ∧ ValidFields ts v.2

end

/-- The objects of a type. -/
def Object (t : BtType) := { v : t.Val // t.Valid v }

mutual

/-- Equality of objects: the order in which a map is iterated over does not
count, at any level. -/
def Same : (t : BtType) → t.Val → t.Val → Prop
  | .int _, i, j => i = j
  | .string, s, u => s = u
  | .value, v, w => v = w
  | .list t, l, m => List.Forall₂ t.Same l m
  | .dict t, d, e => SamePairs t.Same d e
  | .tuple ts, v, w => SameFields ts v w
  | .pair s t, v, w => s.Same v.1 w.1 ∧ t.Same v.2 w.2

def SameFields : (ts : List BtType) → Fields ts → Fields ts → Prop
  | [], _, _ => True
  | t :: ts, v, w => t.Same v.1 w.1 ∧ SameFields ts v.2 w.2

end

end BtType

end ArqmaMQ
