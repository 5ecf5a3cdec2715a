import ArqmaMQ.BtExtract

/-! Tuples as dynamic values, and back: `tuple_to_list` and `get_tuple`. A list
converts to a tuple of integers and strings; the test for nested tuples is the
wrong way round, so that no tuple in a tuple ever converts. -/

namespace ArqmaMQ

/-- `var::get<bt_list>`. -/
def BtVariant.getList : BtVariant → Except GetError (List BtVariant)
  | .list l => .ok l
  | _ => .error .badVariantAccess

/-- `var::get<bt_dict>`. -/
def BtVariant.getDict : BtVariant → Except GetError (List (Bytes × BtVariant))
  | .dict d => .ok d
  | _ => .error .badVariantAccess

/-- The strings of `get_tuple_impl_one`. -/
def BtVariant.getString : BtVariant → Except GetError Bytes
  | .stringView s => .ok s
  | .string s => .ok s
  | _ => .error .badVariantAccess

/-- `get_tuple_impl`, with the conversion of the elements. -/
def getTupleImpl {α : Type} (size : Nat) (elems : List BtVariant → Except GetError α)
    (l : List BtVariant) : Except GetError α :=
  if l.length ≠ size then
    .error (.invalidArgument "Unable to convert tuple: bt_list has wrong size")
  else elems l

/-- The test for a nested tuple in `get_tuple_impl_one`. It throws where there is
a list. -/
def getNested {α : Type} (get : List BtVariant → Except GetError α) (v : BtVariant) :
    Except GetError α :=
  match v with
  | .list _ => .error (.invalidArgument
      "Unable to convert tuple: cannot create sub-tuple from non-bt_list")
  | v => do get (← v.getList)

/-- The first element of a list, then the others. -/
def getBoth {α β : Type} (x : BtVariant → Except GetError α)
    (y : List BtVariant → Except GetError β) : List BtVariant → Except GetError (α × β)
  | [] => .error .pastEnd
  | v :: l => do return (← x v, ← y l)

/-- The element at the iterator. -/
def getFirst {α : Type} (x : BtVariant → Except GetError α) :
    List BtVariant → Except GetError α
  | [] => .error .pastEnd
  | v :: _ => x v

/-- `tuple_to_list`: `{{bt_value{...}...}}`. Without elements the inner braces are
one value, an empty string. -/
def tupleToList : List BtVariant → List BtVariant
  | [] => [.string []]
  | l => l

/-- `bt_get`. -/
def btGet (s : Bytes) : Except BtError BtVariant :=
  match btDeserialize.run s with
  | .ok v _ => .ok v
  | .error e _ => .error e

namespace BtType

mutual

/-- `get_tuple_impl_one`. Of the containers only `bt_list` and `bt_dict` are
alternatives of the variant. -/
def getOne : (t : BtType) → BtVariant → Except GetError t.Val
  | .int t, v => getInt t v
  | .string, v => v.getString
  | .value, _ => .error .illFormed
  | .list .value, v => v.getList
  | .list _, _ => .error .illFormed
  | .dict .value, v => v.getDict
  | .dict _, _ => .error .illFormed
  | .tuple ts, v => getNested (getTupleImpl ts.length (getFields ts)) v
  | .pair s t, v => getNested (getTupleImpl 2 (getBoth s.getOne (getFirst t.getOne))) v

def getFields : (ts : List BtType) → List BtVariant → Except GetError (Fields ts)
  | [], _ => .ok ()
  | t :: ts, l => getBoth t.getOne (getFields ts) l

end

/-- `get_tuple<T>(const bt_value&)`. -/
def getTuple : (t : BtType) → BtVariant → Except GetError t.Val
  | .tuple ts, v => do getTupleImpl ts.length (getFields ts) (← v.getList)
  | .pair s t, v => do getTupleImpl 2 (getBoth s.getOne (getFirst t.getOne)) (← v.getList)
  | _, _ => .error .illFormed

mutual

/-- The constructors of `bt_value`. Of the containers only `bt_list` and `bt_dict`
have one. -/
def toBtValue : (t : BtType) → t.Val → BtVariant
  | .int t, i => if t.isSigned then .int (Int64.ofInt i) else .uint (UInt64.ofInt i)
  | .string, s => .string s
  | .value, v => v
  | .list t, l => .list (List.map t.toBtValue l)
  | .dict t, d => .dict (List.map (fun p => (p.1, t.toBtValue p.2)) d)
  | .tuple ts, v => .list (tupleToList (fieldValues ts v))
  | .pair s t, v => .list (tupleToList [s.toBtValue v.1, t.toBtValue v.2])

def fieldValues : (ts : List BtType) → Fields ts → List BtVariant
  | [], _ => []
  | t :: ts, v => t.toBtValue v.1 :: fieldValues ts v.2

end

def components : BtType → List BtType
  | .tuple ts => ts
  | .pair s t => [s, t]
  | _ => []

def isScalar : BtType → Bool
  | .int _ | .string => true
  | _ => false

/-- What tuples are built from. -/
def tupleNode : BtType → Bool
  | .int _ | .string | .tuple _ | .pair _ _ => true
  | _ => false

/-- A tuple or pair of integers, strings and such tuples and pairs. -/
def IsTuple (t : BtType) : Prop := t.all tupleNode = true ∧ t.isScalar = false

instance decidableIsTuple (t : BtType) : Decidable t.IsTuple :=
  inferInstanceAs (Decidable (_ ∧ _))

/-- A tuple with components, none of which is a tuple. -/
def Flat (t : BtType) : Prop :=
  t.components.isEmpty = false ∧ ∀ u ∈ t.components, u.isScalar = true

instance decidableFlat (t : BtType) : Decidable t.Flat :=
  inferInstanceAs (Decidable (_ ∧ _))

/-- The kind of value that a component is made from. -/
def KindMatches : BtType → BtVariant → Prop
  | .int _, v => ∃ i, v.integer? = some i
  | .string, v => ∃ s, v.getString = .ok s
  | .tuple _, v => ∃ l, v = .list l
  | .pair _ _, v => ∃ l, v = .list l
  | _, _ => False

end BtType

section Elements

variable {α β : Type} {x : BtVariant → Except GetError α} {y : List BtVariant → Except GetError β}
  {v : BtVariant} {l : List BtVariant} {a : α} {b : β} {e : GetError}

theorem getBoth_ok (hx : x v = .ok a) (hy : y l = .ok b) : getBoth x y (v :: l) = .ok (a, b) := by
  rw [getBoth, hx, hy]
  rfl

theorem of_getBoth_ok (h : getBoth x y (v :: l) = .ok (a, b)) : x v = .ok a ∧ y l = .ok b := by
  rw [getBoth] at h
  cases hx : x v with
  | error e =>
    rw [hx] at h
    cases h
  | ok a' =>
    rw [hx] at h
    cases hy : y l with
    | error e =>
      rw [hy] at h
      cases h
    | ok b' =>
      rw [hy] at h
      cases h
      exact ⟨rfl, rfl⟩

theorem of_getBoth_error (h : getBoth x y (v :: l) = .error e) :
    x v = .error e ∨ y l = .error e := by
  rw [getBoth] at h
  cases hx : x v with
  | error e' =>
    rw [hx] at h
    cases h
    exact .inl rfl
  | ok a =>
    rw [hx] at h
    cases hy : y l with
    | error e' =>
      rw [hy] at h
      cases h
      exact .inr rfl
    | ok b =>
      rw [hy] at h
      cases h

/-- The test lets no value through that the conversion accepts. -/
theorem getNested_error (get : List BtVariant → Except GetError α) (v : BtVariant) :
    ∃ e, getNested get v = .error e ∧
      (e = .badVariantAccess ∨ ∃ what, e = .invalidArgument what) := by
  cases v with
  | list l => exact ⟨_, rfl, .inr ⟨_, rfl⟩⟩
  | _ => exact ⟨_, rfl, .inl rfl⟩

end Elements

def GetError.Thrown : GetError → Prop
  | .overflow _ | .invalidArgument _ | .badVariantAccess => True
  | .pastEnd | .illFormed => False

namespace BtType

/-- Only integers and strings convert, and only from their kind. -/
theorem of_getOne_ok {t : BtType} (ht : t.all tupleNode = true) {v : BtVariant} {r : t.Val}
    (h : t.getOne v = .ok r) : t.isScalar = true ∧ t.KindMatches v := by
  cases t with
  | int t =>
    cases v with
    | int i => exact ⟨rfl, _, rfl⟩
    | uint u => exact ⟨rfl, _, rfl⟩
    | _ => cases h
  | string => exact ⟨rfl, r, h⟩
  | tuple ts =>
    obtain ⟨e, he, -⟩ := getNested_error (getTupleImpl ts.length (getFields ts)) v
    cases he.symm.trans h
  | pair s t =>
    obtain ⟨e, he, -⟩ := getNested_error (getTupleImpl 2 (getBoth s.getOne (getFirst t.getOne))) v
    cases he.symm.trans h
  | value => cases ht
  | list t => cases ht
  | dict t => cases ht

theorem thrown_of_getOne {t : BtType} (ht : t.all tupleNode = true) {v : BtVariant} {e : GetError}
    (h : t.getOne v = .error e) : e.Thrown := by
  have hnested {α : Type} {get : List BtVariant → Except GetError α}
      (h : getNested get v = .error e) : e.Thrown := by
    obtain ⟨e', he, h'⟩ := getNested_error get v
    cases he.symm.trans h
    rcases h' with rfl | ⟨what, rfl⟩ <;> trivial
  cases t with
  | int t =>
    cases v with
    | int i =>
      replace h : getInt t (.int i) = .error e := h
      rw [getInt] at h
      split at h
      · cases h
        trivial
      · cases h
    | uint u =>
      replace h : getInt t (.uint u) = .error e := h
      rw [getInt] at h
      split at h
      · cases h
        trivial
      · cases h
    | _ =>
      cases h
      trivial
  | string =>
    cases v with
    | string s => cases h
    | stringView s => cases h
    | _ =>
      cases h
      trivial
  | tuple ts => exact hnested h
  | pair s t => exact hnested h
  | value => cases ht
  | list t => cases ht
  | dict t => cases ht

theorem of_getFields_ok {ts : List BtType} (hts : allFields tupleNode ts = true)
    {l : List BtVariant} (hl : l.length = ts.length) {r : Fields ts} (h : getFields ts l = .ok r) :
    (∀ t ∈ ts, t.isScalar = true) ∧ List.Forall₂ KindMatches ts l := by
  induction ts generalizing l with
  | nil =>
    obtain rfl := List.length_eq_zero_iff.mp hl
    exact ⟨nofun, .nil⟩
  | cons t ts ih =>
    obtain ⟨v, l, rfl⟩ := List.exists_cons_of_length_eq_add_one hl
    obtain ⟨ht, hts⟩ := Bool.and_eq_true_iff.mp hts
    obtain ⟨hone, hrest⟩ := of_getBoth_ok (a := r.1) (b := r.2) h
    obtain ⟨hscalar, hkind⟩ := of_getOne_ok ht hone
    obtain ⟨hscalars, hkinds⟩ := ih hts (Nat.succ.inj hl) hrest
    exact ⟨List.forall_mem_cons.mpr ⟨hscalar, hscalars⟩, .cons hkind hkinds⟩

theorem thrown_of_getFields {ts : List BtType} (hts : allFields tupleNode ts = true)
    {l : List BtVariant} (hl : l.length = ts.length) {e : GetError}
    (h : getFields ts l = .error e) : e.Thrown := by
  induction ts generalizing l with
  | nil => cases h
  | cons t ts ih =>
    obtain ⟨v, l, rfl⟩ := List.exists_cons_of_length_eq_add_one hl
    obtain ⟨ht, hts⟩ := Bool.and_eq_true_iff.mp hts
    rcases of_getBoth_error h with hone | hrest
    · exact thrown_of_getOne ht hone
    · exact ih hts (Nat.succ.inj hl) hrest

/-- A pair converts as the tuple of its two components. -/
theorem getTuple_pair (s t : BtType) (x : BtVariant) : (pair s t).getTuple x =
    ((tuple [s, t]).getTuple x).map fun w => (w.1, w.2.1) := by
  cases x with
  | list l =>
    by_cases hl : l.length = 2
    · obtain ⟨v, w, rfl⟩ := List.length_eq_two.mp hl
      have hpair : (pair s t).getTuple (.list [v, w]) =
          getBoth s.getOne (getFirst t.getOne) [v, w] := rfl
      have htuple : (tuple [s, t]).getTuple (.list [v, w]) =
          getBoth s.getOne (getBoth t.getOne (getFields [])) [v, w] := rfl
      rw [hpair, htuple, getBoth, getBoth, getBoth, getFirst]
      cases s.getOne v <;> cases t.getOne w <;> rfl
    · have hpair : (pair s t).getTuple (.list l) = _ := if_pos hl
      have htuple : (tuple [s, t]).getTuple (.list l) = _ := if_pos hl
      rw [hpair, htuple]
      rfl
  | _ => rfl

/-- Whatever does not have the components' number and kinds is refused. -/
def RejectsMismatch (t : BtType) : Prop :=
  ∀ x, (∃ l, x = .list l ∧ List.Forall₂ KindMatches t.components l) ∨
    ∃ e, t.getTuple x = .error e ∧ e.Thrown

/-- The object is taken out of the value that is parsed from its text, and out of
the value it is converted to. -/
def Extracts (t : BtType) (v : t.Val) : Prop :=
  (∃ x, btGet (t.write v) = .ok x ∧ t.getTuple x = .ok v) ∧ t.getTuple (t.toBtValue v) = .ok v

theorem getTuple_tuple {ts : List BtType} (hts : allFields tupleNode ts = true) (x : BtVariant) :
    (∃ e, (tuple ts).getTuple x = .error e ∧ e.Thrown) ∨
      ∃ l r, x = .list l ∧ (tuple ts).getTuple x = .ok r ∧ List.Forall₂ KindMatches ts l ∧
        ∀ t ∈ ts, t.isScalar = true := by
  cases x with
  | list l =>
    by_cases hl : l.length = ts.length
    · have hget : (tuple ts).getTuple (.list l) = getFields ts l := if_neg (not_not.mpr hl)
      cases h : getFields ts l with
      | error e => exact .inl ⟨e, hget.trans h, thrown_of_getFields hts hl h⟩
      | ok r =>
        obtain ⟨hscalar, hkind⟩ := of_getFields_ok hts hl h
        exact .inr ⟨l, r, rfl, hget.trans h, hkind, hscalar⟩
    · have hget : (tuple ts).getTuple (.list l) = _ := if_pos hl
      exact .inl ⟨_, hget, trivial⟩
  | _ => exact .inl ⟨_, rfl, trivial⟩

/-- The two values that stand for the same scalar: the one it is converted to, and
the one the decoder picks. -/
structure Represents (t : BtType) (x : BtVariant) (v : t.Val) : Prop where
  valid : x.Valid
  text : btSerialize x = t.write v
  direct : t.getOne x = .ok v
  parsed : t.getOne x.normalise = .ok v

theorem integer?_normalise (x : BtVariant) : x.normalise.integer? = x.integer? := by
  cases x with
  | int i =>
    rw [BtVariant.normalise]
    split
    · rfl
    · rename_i h
      have hpos : ¬ i.toInt < 0 := by simpa [Int64.lt_iff_toInt_lt] using h
      have hlt := i.toInt_lt
      rw [← uint64_of_nonneg h, BtVariant.integer?, BtVariant.integer?,
        UInt64.toNat_ofNat_of_lt' (show i.toInt.natAbs < 2 ^ 64 by omega), Option.some.injEq]
      omega
  | string s => rw [BtVariant.normalise]
  | stringView s =>
    rw [BtVariant.normalise]
    rfl
  | uint u => rw [BtVariant.normalise]
  | list l =>
    rw [BtVariant.normalise]
    rfl
  | dict d =>
    rw [BtVariant.normalise]
    rfl

theorem neg_of_normalise_eq_int {x : BtVariant} {j : Int64} (h : x.normalise = .int j) :
    j.toInt < 0 := by
  cases x with
  | int i =>
    rw [BtVariant.normalise] at h
    split at h
    · cases h
      rename_i hneg
      simpa [Int64.lt_iff_toInt_lt] using hneg
    · cases h
  | _ =>
    simp only [BtVariant.normalise] at h
    cases h

theorem represents_int (t : IntType) {i : Int} (hi : t.Holds i) :
    Represents (.int t) (toBtValue (.int t) i) i := by
  have hmin := t.min_le
  obtain ⟨hlow, hhigh⟩ := id hi
  obtain ⟨x, hx, hint, hvalid, htext, hwide⟩ : ∃ x, toBtValue (.int t) i = x ∧
      x.integer? = some i ∧ x.Valid ∧ btSerialize x = btSerializeInteger i ∧
        ¬ (t.max = 2 ^ 64 - 1 ∧ 0 ≤ i ∧ ∃ j, x = .int j) := by
    by_cases hs : t.isSigned = true
    · have hmax : t.isSigned = true → t.max < 2 ^ 63 := by cases t <;> decide
      have hto : (Int64.ofInt i).toInt = i :=
        Int64.toInt_ofInt_of_le (by omega) (by have := hmax hs; omega)
      refine ⟨.int (Int64.ofInt i), if_pos hs, ?_, ?_, ?_, ?_⟩
      · rw [BtVariant.integer?, hto]
      · simp only [BtVariant.Valid]
      · rw [btSerialize, hto]
      · have := hmax hs
        omega
    · have hmax : t.max < 2 ^ 64 := by cases t <;> decide
      have hzero : t.isSigned = false → t.min = 0 := by cases t <;> decide
      have := hzero (Bool.eq_false_iff.mpr hs)
      have hto : ((UInt64.ofInt i).toNat : Int) = i := by
        rw [UInt64.ofInt, UInt64.toNat_ofNat']
        omega
      refine ⟨.uint (UInt64.ofInt i), if_neg hs, ?_, ?_, ?_, ?_⟩
      · rw [BtVariant.integer?, hto]
      · simp only [BtVariant.Valid]
      · rw [btSerialize, hto]
      · rintro ⟨-, -, j, hj⟩
        cases hj
  rw [hx]
  refine ⟨hvalid, htext, (getsExactly_of_not hint hwide).1 hi, ?_⟩
  refine (getsExactly_of_not ((integer?_normalise x).trans hint) ?_).1 hi
  rintro ⟨-, hi, j, hj⟩
  have hneg := neg_of_normalise_eq_int hj
  have := (integer?_normalise x).trans hint
  rw [hj, BtVariant.integer?, Option.some.injEq] at this
  omega

theorem represents_toBtValue {t : BtType} (ht : t.isScalar = true) {v : t.Val} (hv : t.Valid v) :
    Represents t (t.toBtValue v) v := by
  cases t with
  | int t => exact represents_int t hv
  | string =>
    change Bytes at v
    have hx : toBtValue .string v = .string v := rfl
    rw [hx]
    refine ⟨?_, ?_, rfl, ?_⟩
    · rw [BtVariant.Valid]
      exact hv
    · rw [btSerialize]
      rfl
    · rw [BtVariant.normalise]
      rfl
  | _ => cases ht

structure RepresentsFields (ts : List BtType) (xs : List BtVariant) (v : Fields ts) : Prop where
  valid : ∀ x ∈ xs, x.Valid
  texts : xs.map btSerialize = writeFields ts v
  length : xs.length = ts.length
  direct : getFields ts xs = .ok v
  parsed : getFields ts (xs.map BtVariant.normalise) = .ok v

theorem representsFields {ts : List BtType} (hts : ∀ t ∈ ts, t.isScalar = true) (v : Fields ts)
    (hv : ValidFields ts v) : RepresentsFields ts (fieldValues ts v) v := by
  induction ts with
  | nil => exact ⟨nofun, rfl, rfl, rfl, rfl⟩
  | cons t ts ih =>
    have hone := represents_toBtValue (hts t List.mem_cons_self) hv.1
    have hrest := ih (fun u hu => hts u (List.mem_cons_of_mem t hu)) v.2 hv.2
    refine ⟨List.forall_mem_cons.mpr ⟨hone.valid, hrest.valid⟩, ?_, ?_,
      getBoth_ok hone.direct hrest.direct, getBoth_ok hone.parsed hrest.parsed⟩
    · rw [fieldValues, writeFields, List.map_cons, hone.text, hrest.texts]
    · rw [fieldValues, List.length_cons, hrest.length, List.length_cons]

theorem extracts_tuple {ts : List BtType} (hne : ts.isEmpty = false)
    (hts : ∀ t ∈ ts, t.isScalar = true) (v : Fields ts) (hv : ValidFields ts v) :
    (tuple ts).Extracts v := by
  obtain ⟨hvalid, htexts, hlength, hdirect, hparsed⟩ := representsFields hts v hv
  have hlist : toBtValue (.tuple ts) v = .list (fieldValues ts v) := by
    cases ts with
    | nil => cases hne
    | cons t ts => rfl
  have htext : (tuple ts).write v = btSerialize (.list (fieldValues ts v)) := by
    rw [btSerialize, btSerializeItems_eq_map, htexts]
    rfl
  have hread := run_btDeserialize_of_valid (v := .list (fieldValues ts v))
    (by rwa [BtVariant.Valid, BtVariant.validList_iff]) []
  rw [List.append_nil, BtVariant.normalise, BtVariant.normaliseList_eq_map] at hread
  refine ⟨⟨.list ((fieldValues ts v).map BtVariant.normalise), ?_, ?_⟩, ?_⟩
  · rw [htext, btGet, hread]
  · exact (if_neg (by rw [List.length_map]; exact not_not.mpr hlength)).trans hparsed
  · rw [hlist]
    exact (if_neg (not_not.mpr hlength)).trans hdirect

theorem extracts_pair {s t : BtType} {v : s.Val × t.Val}
    (h : (tuple [s, t]).Extracts (v.1, v.2, ())) : (pair s t).Extracts v := by
  obtain ⟨⟨x, hx, hget⟩, hdirect⟩ := h
  refine ⟨⟨x, hx, ?_⟩, ?_⟩
  · rw [getTuple_pair, hget]
    rfl
  · rw [getTuple_pair]
    exact congrArg (Except.map fun w => (w.1, w.2.1)) hdirect

theorem rejectsMismatch {t : BtType} (ht : t.IsTuple) : t.RejectsMismatch := by
  intro x
  cases t with
  | tuple ts =>
    rcases getTuple_tuple (Bool.and_eq_true_iff.mp ht.1).2 x with h | ⟨l, r, hx, -, hkind, -⟩
    · exact .inr h
    · exact .inl ⟨l, hx, hkind⟩
  | pair s t =>
    have hts : allFields tupleNode [s, t] = true := by simpa [all, allFields, tupleNode] using ht.1
    rcases getTuple_tuple hts x with ⟨e, he, hthrown⟩ | ⟨l, r, hx, -, hkind, -⟩
    · refine .inr ⟨e, ?_, hthrown⟩
      rw [getTuple_pair, he]
      rfl
    · exact .inl ⟨l, hx, hkind⟩
  | int t => cases ht.2
  | string => cases ht.2
  | value => cases ht.1
  | list t => cases ht.1
  | dict t => cases ht.1

theorem flat_of_getTuple {t : BtType} (ht : t.IsTuple) {v : t.Val}
    (h : t.getTuple (t.toBtValue v) = .ok v) : t.Flat := by
  cases t with
  | tuple ts =>
    rcases getTuple_tuple (Bool.and_eq_true_iff.mp ht.1).2 (toBtValue (.tuple ts) v) with
      ⟨e, he, -⟩ | ⟨l, r, hx, -, hkind, hscalar⟩
    · cases he.symm.trans h
    · refine ⟨Bool.eq_false_iff.mpr fun hempty => ?_, hscalar⟩
      obtain rfl := List.isEmpty_iff.mp hempty
      cases hkind
      cases hx
  | pair s t =>
    have hts : allFields tupleNode [s, t] = true := by simpa [all, allFields, tupleNode] using ht.1
    refine ⟨rfl, ?_⟩
    rcases getTuple_tuple hts (toBtValue (.pair s t) v) with
      ⟨e, he, -⟩ | ⟨l, r, -, -, -, hscalar⟩
    · rw [getTuple_pair, he] at h
      cases h
    · exact hscalar
  | int t => cases ht.2
  | string => cases ht.2
  | value => cases ht.1
  | list t => cases ht.1
  | dict t => cases ht.1

/-- A tuple type converts in both ways, and refuses what does not match, exactly
if it has components and none of them is a tuple. -/
theorem extracts_iff_flat (t : BtType) (ht : t.IsTuple) (v : t.Object) :
    t.Extracts v.1 ∧ t.RejectsMismatch ↔ t.Flat := by
  refine ⟨fun h => flat_of_getTuple ht h.1.2, fun h => ⟨?_, rejectsMismatch ht⟩⟩
  obtain ⟨v, hv⟩ := v
  cases t with
  | tuple ts => exact extracts_tuple h.1 h.2 v hv
  | pair s t => exact extracts_pair (extracts_tuple h.1 h.2 (v.1, v.2, ()) ⟨hv.1, hv.2, trivial⟩)
  | int t => cases ht.2
  | string => cases ht.2
  | value => cases ht.1
  | list t => cases ht.1
  | dict t => cases ht.1

/-- A pair of the largest `uint64_t` and a string. -/
theorem extracts_of_pair : (pair (int .uint64) string).IsTuple ∧
    (pair (int .uint64) string).Extracts ((2 ^ 64 - 1 : Int), bytes "x") := by
  have htuple : (pair (int .uint64) string).IsTuple := by decide
  have hvalid : IntType.uint64.Holds (2 ^ 64 - 1) ∧ (bytes "x").length < 2 ^ 64 := by decide
  exact ⟨htuple, ((extracts_iff_flat _ htuple ⟨(_, _), hvalid⟩).mpr (by decide)).1⟩

/-- A string and a pair of integers: the list of the pair is refused. -/
theorem not_extracts_nested :
    ¬ (pair string (pair (int .int) (int .int))).Extracts (bytes "x", (1 : Int), (2 : Int)) := by
  rintro ⟨-, h⟩
  have hget : (pair string (pair (int .int) (int .int))).getTuple
      (.list [.string (bytes "x"), .list [.int 1, .int 2]]) = .error (.invalidArgument
        "Unable to convert tuple: cannot create sub-tuple from non-bt_list") := rfl
  cases hget.symm.trans h

example : (tuple []).getTuple ((tuple []).toBtValue ()) = .error (.invalidArgument
    "Unable to convert tuple: bt_list has wrong size") := rfl

end BtType

end ArqmaMQ
