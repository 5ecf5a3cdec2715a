import ArqmaMQ.Bytes

/-! The dynamic values of the bt serialization. A `BtVariant` is the tree of
alternatives; a `BtValue` is a tree that the C++ types can hold. -/

namespace ArqmaMQ

/-- `bt_variant`, with `bt_list` as a list and `bt_dict` as the sequence of
pairs met by iterating over the map. -/
inductive BtVariant
  | string (s : Bytes)
  | stringView (s : Bytes)
  | int (i : Int64)
  | uint (u : UInt64)
  | list (l : List BtVariant)
  | dict (d : List (Bytes × BtVariant))

mutual

/-- Strings have a `size_t` length and maps hold each key once, in order. -/
def BtVariant.Valid : BtVariant → Prop
  | .string s => s.length < 2 ^ 64
  | .stringView s => s.length < 2 ^ 64
  | .int _ => True
  | .uint _ => True
  | .list l => BtVariant.ValidList l
  | .dict d => (d.map Prod.fst).Pairwise (· < ·) ∧ BtVariant.ValidDict d

def BtVariant.ValidList : List BtVariant → Prop
  | [] => True
  | v :: l => v.Valid ∧ BtVariant.ValidList l

def BtVariant.ValidDict : List (Bytes × BtVariant) → Prop
  | [] => True
  | (k, v) :: d => k.length < 2 ^ 64 ∧ v.Valid ∧ BtVariant.ValidDict d

end

def BtValue := { v : BtVariant // v.Valid }

mutual

/-- The representation the decoder picks: owned strings, and `uint64_t` for
every integer that is not negative. -/
def BtVariant.normalise : BtVariant → BtVariant
  | .string s => .string s
  | .stringView s => .string s
  | .int i => if i < 0 then .int i else .uint i.toUInt64
  | .uint u => .uint u
  | .list l => .list (BtVariant.normaliseList l)
  | .dict d => .dict (BtVariant.normaliseDict d)

def BtVariant.normaliseList : List BtVariant → List BtVariant
  | [] => []
  | v :: l => v.normalise :: BtVariant.normaliseList l

def BtVariant.normaliseDict : List (Bytes × BtVariant) → List (Bytes × BtVariant)
  | [] => []
  | (k, v) :: d => (k, v.normalise) :: BtVariant.normaliseDict d

end

/-- Induction over a variant where every element of a container is a case of
the hypothesis. -/
@[elab_as_elim]
theorem BtVariant.induct {P : BtVariant → Prop} (string : ∀ s, P (.string s))
    (stringView : ∀ s, P (.stringView s)) (int : ∀ i, P (.int i)) (uint : ∀ u, P (.uint u))
    (list : ∀ l, (∀ v ∈ l, P v) → P (.list l))
    (dict : ∀ d, (∀ p ∈ d, P p.2) → P (.dict d)) (v : BtVariant) : P v := by
  refine @BtVariant.rec P (fun l => ∀ v ∈ l, P v) (fun d => ∀ p ∈ d, P p.2) (fun p => P p.2)
    string stringView int uint list dict ?_ ?_ ?_ ?_ ?_ v
  · simp
  · intro v l hv hl
    simpa using ⟨hv, hl⟩
  · simp
  · intro p d hp hd q hq
    rcases List.mem_cons.mp hq with rfl | hq
    · exact hp
    · exact hd q hq
  · exact fun _ _ h => h

theorem BtVariant.validList_iff {l : List BtVariant} :
    BtVariant.ValidList l ↔ ∀ v ∈ l, v.Valid := by
  induction l with
  | nil => simp [ValidList]
  | cons v l ih => simp [ValidList, ih]

theorem BtVariant.validDict_iff {d : List (Bytes × BtVariant)} :
    BtVariant.ValidDict d ↔ ∀ p ∈ d, p.1.length < 2 ^ 64 ∧ p.2.Valid := by
  induction d with
  | nil => simp [ValidDict]
  | cons p d ih => simp [ValidDict, ih, and_assoc]

theorem BtVariant.normaliseList_eq_map (l : List BtVariant) :
    BtVariant.normaliseList l = l.map BtVariant.normalise := by
  induction l with
  | nil => rfl
  | cons v l ih => simp [normaliseList, ih]

theorem BtVariant.normaliseDict_eq_map (d : List (Bytes × BtVariant)) :
    BtVariant.normaliseDict d = d.map (fun p => (p.1, p.2.normalise)) := by
  induction d with
  | nil => rfl
  | cons p d ih => simp [normaliseDict, ih]

/-- `map.insert(map.end(), {k, v})`: the pair goes to its place in the key
order, and a key that is already there keeps its value. -/
def mapInsert {α : Type} (k : Bytes) (v : α) : List (Bytes × α) → List (Bytes × α)
  | [] => [(k, v)]
  | (k', v') :: d =>
    if k < k' then (k, v) :: (k', v') :: d
    else if k' < k then (k', v') :: mapInsert k v d
    else (k', v') :: d

theorem bytes_lt_asymm {a b : Bytes} (h : a < b) : ¬ b < a :=
  List.lt_asymm h

theorem mapInsert_last {α : Type} {k : Bytes} {d : List (Bytes × α)} (v : α)
    (h : ∀ p ∈ d, p.1 < k) : mapInsert k v d = d ++ [(k, v)] := by
  induction d with
  | nil => rfl
  | cons p d ih =>
    have hk : p.1 < k := h p (by simp)
    have hh := ih (fun q hq => h q (by simp [hq]))
    simp [mapInsert, bytes_lt_asymm hk, hk, hh]

end ArqmaMQ
