import ArqmaMQ.Bytes

/-! Identities of connections and the access levels attached to them. -/

namespace ArqmaMQ

/-- The enumeration behind `AuthLevel`. An `AllowFunc` can return any value of
the underlying integer type, so the levels are not closed under it. -/
structure AuthLevel where
  value : Int
  deriving DecidableEq, Repr

namespace AuthLevel

def denied : AuthLevel := ⟨0⟩
def none : AuthLevel := ⟨1⟩
def basic : AuthLevel := ⟨2⟩
def admin : AuthLevel := ⟨3⟩

instance : LE AuthLevel := ⟨fun a b => a.value ≤ b.value⟩
instance : LT AuthLevel := ⟨fun a b => a.value < b.value⟩

instance (a b : AuthLevel) : Decidable (a ≤ b) := inferInstanceAs (Decidable (a.value ≤ b.value))
instance (a b : AuthLevel) : Decidable (a < b) := inferInstanceAs (Decidable (a.value < b.value))

end AuthLevel

structure Access where
  auth : AuthLevel := .none
  remoteSn : Bool := false
  localSn : Bool := false
  deriving DecidableEq, Repr

structure ConnectionID where
  id : Int := 0
  pk : Bytes := []
  route : Bytes := []
  deriving DecidableEq, Repr

namespace ConnectionID

/-- `SN_ID` -/
def snId : Int := -1

def sn (c : ConnectionID) : Bool := c.id == snId

/-- `ConnectionID{pubkey}`, which throws unless the key has 32 bytes. -/
def ofPubkey (pk : Bytes) : Option ConnectionID :=
  if pk.length = 32 then some { id := snId, pk } else none

theorem route_ofPubkey {pk : Bytes} {c : ConnectionID} (h : ofPubkey pk = some c) :
    c.route = [] := by
  obtain ⟨-, rfl⟩ : _ ∧ _ = c := by simpa [ofPubkey] using h
  rfl

/-- `operator==`: two service nodes are compared by key, anything else by id
and route. -/
def eq (a b : ConnectionID) : Bool :=
  if a.sn && b.sn then a.pk == b.pk else a.id == b.id && a.route == b.route

/-- Nothing but the entries of that service node is found under its id. -/
theorem eq_of_sn {b : ConnectionID} (hb : b.sn = true) (a : ConnectionID) :
    a.eq b = (a.sn && a.pk == b.pk) := by
  have hb' : b.id = snId := beq_iff_eq.mp hb
  by_cases ha : a.sn = true
  · simp [eq, ha, hb]
  · have ha' : ¬ a.id = snId := fun h => ha (beq_iff_eq.mpr h)
    simp [eq, Bool.eq_false_iff.mpr ha, hb', ha']

def unrouted (c : ConnectionID) : ConnectionID := { c with route := [] }

end ConnectionID

end ArqmaMQ
