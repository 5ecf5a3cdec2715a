import ArqmaMQ.BtValue

/-! Writing bt values. The containers are written from the texts of their
elements, as the templates do for every element type. -/

namespace ArqmaMQ

def btSerializeString (s : Bytes) : Bytes :=
  Decimal.numeral s.length ++ ':'.toUInt8 :: s

/-- `os << 'i' << val << 'e'`. -/
def btSerializeInteger (i : Int) : Bytes :=
  'i'.toUInt8 :: (if i < 0 then '-'.toUInt8 :: Decimal.numeral i.natAbs
    else Decimal.numeral i.natAbs) ++ ['e'.toUInt8]

def btSerializeList (items : List Bytes) : Bytes :=
  'l'.toUInt8 :: items.flatten ++ ['e'.toUInt8]

/-- The pairs are sorted by key before they are written. -/
def btSerializeDict (pairs : List (Bytes × Bytes)) : Bytes :=
  'd'.toUInt8 :: ((pairs.mergeSort fun a b => !decide (b.1 < a.1)).flatMap
    fun p => btSerializeString p.1 ++ p.2) ++ ['e'.toUInt8]

mutual

def btSerialize : BtVariant → Bytes
  | .string s => btSerializeString s
  | .stringView s => btSerializeString s
  | .int i => btSerializeInteger i.toInt
  | .uint u => btSerializeInteger u.toNat
  | .list l => btSerializeList (btSerializeItems l)
  | .dict d => btSerializeDict (btSerializePairs d)

def btSerializeItems : List BtVariant → List Bytes
  | [] => []
  | v :: l => btSerialize v :: btSerializeItems l

def btSerializePairs : List (Bytes × BtVariant) → List (Bytes × Bytes)
  | [] => []
  | (k, v) :: d => (k, btSerialize v) :: btSerializePairs d

end

theorem btSerializeItems_eq_map (l : List BtVariant) :
    btSerializeItems l = l.map btSerialize := by
  induction l with
  | nil => rfl
  | cons v l ih => simp [btSerializeItems, ih]

theorem btSerializePairs_eq_map (d : List (Bytes × BtVariant)) :
    btSerializePairs d = d.map (fun p => (p.1, btSerialize p.2)) := by
  induction d with
  | nil => rfl
  | cons p d ih => simp [btSerializePairs, ih]

/-- A dict whose keys already ascend is written in its own order. -/
theorem btSerializeDict_of_pairwise {pairs : List (Bytes × Bytes)}
    (h : (pairs.map Prod.fst).Pairwise (· < ·)) :
    btSerializeDict pairs = 'd'.toUInt8 ::
      (pairs.flatMap fun p => btSerializeString p.1 ++ p.2) ++ ['e'.toUInt8] := by
  have hs : pairs.Pairwise (fun a b => (!decide (b.1 < a.1)) = true) := by
    apply (List.pairwise_map.mp h).imp
    intro a b hab
    simpa using bytes_lt_asymm hab
  rw [btSerializeDict, List.mergeSort_of_pairwise hs]

end ArqmaMQ
