import ArqmaMQ.Connections

/-! The requests that wait for a reply. -/

namespace ArqmaMQ

structure PendingRequest where
  expiry : Int
  callback : Nat
  deriving DecidableEq, Repr

/-- `pending_requests`: tags, each at most once, in the order of iteration. -/
abbrev Requests := List (Bytes × PendingRequest)

namespace Requests

def find? (rs : Requests) (tag : Bytes) : Option PendingRequest := rs.lookup tag

def erase (rs : Requests) (tag : Bytes) : Requests := rs.filter (·.1 ≠ tag)

/-- `insert`, which keeps an entry that is already there. -/
def insert (rs : Requests) (tag : Bytes) (r : PendingRequest) : Requests :=
  if (rs.find? tag).isSome then rs else rs ++ [(tag, r)]

/-- The part of `proxy_conn_cleanup` about requests: those that remain, and the
callbacks of those that do not. -/
def timeOut (now : Int) (rs : Requests) : Requests × List Effect :=
  (rs.filter (¬ ·.2.expiry < now), (rs.filter (·.2.expiry < now)).map fun r =>
    .job (.reply r.2.callback false [bytes "TIMEOUT"]))

/-- A request is answered: its entry goes and its callback is scheduled. -/
def answer (rs : Requests) (tag : Bytes) (success : Bool) (data : List Bytes) :
    Requests × List Effect :=
  match rs.find? tag with
  | some r => (rs.erase tag, [.replyJob (.reply r.callback success data)])
  | none => (rs, [])

variable {rs : Requests} {tag : Bytes} {r : PendingRequest}

theorem mem_of_find? (h : rs.find? tag = some r) : (tag, r) ∈ rs := by
  induction rs with
  | nil => cases h
  | cons x rs ih =>
    rw [find?, List.lookup_cons] at h
    split at h
    · rename_i hx
      obtain rfl := Option.some.inj h
      obtain rfl := beq_iff_eq.mp hx
      exact List.mem_cons_self
    · exact List.mem_cons_of_mem x (ih h)

theorem find?_eq_none : rs.find? tag = none ↔ tag ∉ rs.map Prod.fst := by
  rw [find?, List.lookup_eq_none_iff, List.mem_map]
  constructor
  · rintro h ⟨x, hx, rfl⟩
    simpa using h x hx
  · intro h x hx
    rw [bne_iff_ne]
    rintro rfl
    exact h ⟨x, hx, rfl⟩

/-- With tags that are all different, an entry is all there is under its tag. -/
theorem perm_erase (hn : (rs.map Prod.fst).Nodup) (h : (tag, r) ∈ rs) :
    List.Perm rs ((tag, r) :: rs.erase tag) := by
  unfold erase
  induction rs with
  | nil => cases h
  | cons x rs ih =>
    rw [List.map_cons, List.nodup_cons] at hn
    rcases List.mem_cons.mp h with rfl | h
    · have hrest : rs.filter (·.1 ≠ tag) = rs := by
        refine List.filter_eq_self.mpr fun y hy => ?_
        have hne : y.1 ≠ tag := fun he => hn.1 (List.mem_map.mpr ⟨y, hy, he⟩)
        simpa using hne
      rw [List.filter_cons_of_neg (by simp), hrest]
    · have hne : x.1 ≠ tag := by
        rintro rfl
        exact hn.1 (List.mem_map.mpr ⟨_, h, rfl⟩)
      rw [List.filter_cons_of_pos (by simpa using hne)]
      exact ((ih hn.2 h).cons x).trans (.swap ..)

end Requests

end ArqmaMQ
