import ArqmaMQ.Transition
import Mathlib.Algebra.Ring.Nat
import Mathlib.Data.List.Basic

/-! The sockets over which threads send their control messages. Each thread has one
for each object, and remembers the one it used last. -/

namespace ArqmaMQ

structure ControlObject where
  objectId : Int32
  /-- From the id of a thread to its socket. -/
  controlSockets : List (Nat × Nat) := []
  proxyShuttingDown : Bool := false
  /-- The object has not been destroyed. -/
  alive : Bool := true
  deriving DecidableEq, Repr

/-- A thread with its `thread_local` variables. Ids of threads that have ended are
given to new ones. -/
structure CallingThread where
  id : Nat
  running : Bool := true
  lastId : Int32 := -1
  lastSocket : Option Nat := none
  deriving DecidableEq, Repr

inductive ControlResult
  | socket (s : Nat)
  /-- The exception. -/
  | shuttingDown
  | nullPointer
  deriving DecidableEq, Repr

structure ControlSockets where
  nextId : Int32 := 1
  objects : List ControlObject := []
  threads : List CallingThread := []
  /-- Auxiliary: for each socket the object and the id of the thread it was made for. A
  socket is named by its place here. -/
  made : List (Nat × Nat) := []
  deriving DecidableEq, Repr

inductive ControlSocketEvent
  | construct
  /-- `proxy_quit` -/
  | quit (o : Nat)
  | destroy (o : Nat)
  | startThread (id : Nat)
  | endThread (t : Nat)
  | getControlSocket (o t : Nat)
  deriving DecidableEq, Repr

namespace ControlSockets

def setObject (s : ControlSockets) (o : Nat) (obj : ControlObject) : ControlSockets :=
  { s with objects := s.objects.set o obj }

def setThread (s : ControlSockets) (t : Nat) (thread : CallingThread) : ControlSockets :=
  { s with threads := s.threads.set t thread }

/-- The socket goes into `last_socket`. -/
def remember (s : ControlSockets) (obj : ControlObject) (t : Nat) (thread : CallingThread)
    (socket : Nat) : ControlResult × ControlSockets :=
  (.socket socket, s.setThread t { thread with
    lastId := obj.objectId, lastSocket := some socket })

/-- A running thread calls it on an object that exists. -/
def getControlSocket (s : ControlSockets) (o t : Nat) : Option (ControlResult × ControlSockets) :=
  match s.objects[o]?, s.threads[t]? with
  | some obj, some thread =>
    if obj.alive ∧ thread.running then
      if obj.objectId = thread.lastId then
        some (thread.lastSocket.elim .nullPointer .socket, s)
      else if obj.proxyShuttingDown then some (.shuttingDown, s)
      else match obj.controlSockets.lookup thread.id with
        | some socket => some (s.remember obj t thread socket)
        | none =>
          let socket := s.made.length
          let s := s.setObject o { obj with
            controlSockets := (thread.id, socket) :: obj.controlSockets }
          some ({ s with made := s.made ++ [(o, thread.id)] }.remember obj t thread socket)
    else none
  | _, _ => none

def step (s : ControlSockets) : ControlSocketEvent → Option ControlSockets
  | .construct =>
    some { s with nextId := s.nextId + 1, objects := s.objects ++ [{ objectId := s.nextId }] }
  | .quit o =>
    match s.objects[o]? with
    | some obj => if obj.alive then some (s.setObject o { obj with proxyShuttingDown := true })
      else none
    | none => none
  | .destroy o =>
    match s.objects[o]? with
    | some obj =>
      if obj.alive then some (s.setObject o { obj with alive := false, controlSockets := [] })
      else none
    | none => none
  | .startThread id =>
    if ∀ thread ∈ s.threads, thread.running → thread.id ≠ id then
      some { s with threads := s.threads ++ [{ id }] }
    else none
  | .endThread t =>
    match s.threads[t]? with
    | some thread => if thread.running then some (s.setThread t { thread with running := false })
      else none
    | none => none
  | .getControlSocket o t => (s.getControlSocket o t).map Prod.snd

def machine : Transition.Machine ControlSockets ControlSocketEvent where
  Init s := s = {}
  step := step

/-- The id of the object with a given place. -/
def idOf (o : Nat) : Int32 := Int32.ofNat (o + 1)

/-- A thread remembers nothing, or a socket that was made for it. -/
def Remembers (s : ControlSockets) (thread : CallingThread) : Prop :=
  thread.lastId = -1 ∧ thread.lastSocket = none ∨
    ∃ o socket, o < s.objects.length ∧ thread.lastId = idOf o ∧
      thread.lastSocket = some socket ∧ s.made[socket]? = some (o, thread.id)

/-- The table of an object has the sockets that were made for it. -/
def Lists (s : ControlSockets) (o : Nat) (obj : ControlObject) : Prop :=
  ∀ id socket, obj.controlSockets.lookup id = some socket ↔
    obj.alive = true ∧ s.made[socket]? = some (o, id)

structure Sound (s : ControlSockets) : Prop where
  nextId : s.nextId = idOf s.objects.length
  objectId : ∀ (o : Nat) (obj : ControlObject), s.objects[o]? = some obj → obj.objectId = idOf o
  lists : ∀ (o : Nat) (obj : ControlObject), s.objects[o]? = some obj → s.Lists o obj
  made : ∀ m ∈ s.made, m.1 < s.objects.length
  remembers : ∀ (t : Nat) (thread : CallingThread), s.threads[t]? = some thread →
    s.Remembers thread

theorem getElem?_concat_eq_some {α : Type} {l : List α} {a x : α} {i : Nat} :
    (l ++ [a])[i]? = some x ↔ l[i]? = some x ∨ i = l.length ∧ a = x := by
  rcases Nat.lt_trichotomy i l.length with hlt | rfl | hgt
  · simp [List.getElem?_append_left hlt, Nat.ne_of_lt hlt]
  · simp
  · have hnone : (l ++ [a])[i]? = none :=
      List.getElem?_eq_none (by simpa using Nat.succ_le_of_lt hgt)
    simp [hnone, List.getElem?_eq_none (Nat.le_of_lt hgt), Nat.ne_of_gt hgt]

/-- What a call can do. -/
inductive Call : ControlSockets → Nat → Nat → ControlResult → ControlSockets → Prop
  | remembered {s o t obj thread r} (ho : s.objects[o]? = some obj)
    (ht : s.threads[t]? = some thread) (ha : obj.alive = true)
    (hid : obj.objectId = thread.lastId)
    (hr : thread.lastSocket.elim .nullPointer .socket = r) : Call s o t r s
  | refused {s o t obj} (ho : s.objects[o]? = some obj) (ha : obj.alive = true)
    (hq : obj.proxyShuttingDown = true) : Call s o t .shuttingDown s
  | found {s o t obj thread socket} (ho : s.objects[o]? = some obj)
    (ht : s.threads[t]? = some thread) (ha : obj.alive = true)
    (hs : obj.controlSockets.lookup thread.id = some socket) :
    Call s o t (.socket socket) (s.remember obj t thread socket).2
  | made {s o t obj thread} (ho : s.objects[o]? = some obj) (ht : s.threads[t]? = some thread)
    (ha : obj.alive = true) (hs : obj.controlSockets.lookup thread.id = none) :
    Call s o t (.socket s.made.length) (remember
      { s.setObject o { obj with
          controlSockets := (thread.id, s.made.length) :: obj.controlSockets } with
        made := s.made ++ [(o, thread.id)] } obj t thread s.made.length).2

variable {s s' : ControlSockets} {o t : Nat} {obj obj' : ControlObject}
  {thread thread' : CallingThread}

theorem Sound.setThread (h : s.Sound) (hr : s.Remembers thread') :
    (s.setThread t thread').Sound := by
  refine ⟨h.nextId, h.objectId, h.lists, h.made, fun u thread₁ hu => ?_⟩
  rcases List.mem_or_eq_of_mem_set (List.mem_of_getElem? hu) with hmem | rfl
  · obtain ⟨v, hv⟩ := List.mem_iff_getElem?.mp hmem
    exact h.remembers v thread₁ hv
  · exact hr

theorem object_cases {i : Nat} {obj₁ : ControlObject}
    (hi : (s.setObject o obj').objects[i]? = some obj₁) :
    o = i ∧ obj' = obj₁ ∨ o ≠ i ∧ s.objects[i]? = some obj₁ := by
  rw [ControlSockets.setObject, List.getElem?_set] at hi
  split at hi
  · split at hi
    · exact .inl ⟨‹_›, Option.some.inj hi⟩
    · cases hi
  · exact .inr ⟨‹_›, hi⟩

/-- An object changes, and sockets are made. -/
theorem Sound.setObject (h : s.Sound) (ho : s.objects[o]? = some obj)
    (hid : obj'.objectId = obj.objectId) (new : List (Nat × Nat)) (hnew : ∀ m ∈ new, m.1 = o)
    (hl : Lists { s with made := s.made ++ new } o obj') :
    Sound { s.setObject o obj' with made := s.made ++ new } := by
  have hlen : (s.setObject o obj').objects.length = s.objects.length := List.length_set
  have hmade {socket : Nat} {m : Nat × Nat} (hm : m.1 ≠ o) :
      (s.made ++ new)[socket]? = some m ↔ s.made[socket]? = some m := by
    rcases Nat.lt_or_ge socket s.made.length with hlt | hge
    · rw [List.getElem?_append_left hlt]
    · rw [List.getElem?_append_right hge, List.getElem?_eq_none hge]
      exact iff_of_false (fun hs => hm (hnew m (List.mem_of_getElem? hs))) (by simp)
  refine ⟨?_, fun i obj₁ hi => ?_, fun i obj₁ hi => ?_, fun m hm => ?_, fun u thread₁ hu => ?_⟩
  · rw [hlen]
    exact h.nextId
  · rcases object_cases hi with ⟨rfl, rfl⟩ | ⟨-, hi⟩
    · rw [hid, h.objectId o obj ho]
    · exact h.objectId i obj₁ hi
  · rcases object_cases hi with ⟨rfl, rfl⟩ | ⟨hne, hi⟩
    · exact hl
    · intro id socket
      rw [h.lists i obj₁ hi id socket, hmade (m := (i, id)) (Ne.symm hne)]
  · rw [hlen]
    rcases List.mem_append.mp hm with hm | hm
    · exact h.made m hm
    · rw [hnew m hm]
      exact (List.getElem?_eq_some_iff.mp ho).1
  · rcases h.remembers u thread₁ hu with hn | ⟨o₁, socket, ho₁, hlast, hsocket, hm⟩
    · exact .inl hn
    · refine .inr ⟨o₁, socket, by rw [hlen]; exact ho₁, hlast, hsocket, ?_⟩
      rw [List.getElem?_append_left (List.getElem?_eq_some_iff.mp hm).1]
      exact hm

theorem Sound.keepMade (h : s.Sound) (ho : s.objects[o]? = some obj)
    (hid : obj'.objectId = obj.objectId) (hl : s.Lists o obj') : (s.setObject o obj').Sound := by
  have hmade : s.made ++ [] = (s.setObject o obj').made := List.append_nil _
  have hs := h.setObject ho hid [] (by simp) (by rwa [List.append_nil])
  rwa [hmade] at hs

theorem Sound.construct (h : s.Sound) :
    Sound { s with
      nextId := s.nextId + 1, objects := s.objects ++ [{ objectId := s.nextId }] } := by
  refine ⟨?_, fun i obj₁ hi => ?_, fun i obj₁ hi => ?_, fun m hm => ?_, fun u thread₁ hu => ?_⟩
  · simp [h.nextId, idOf, Int32.ofNat_add]
  · rcases getElem?_concat_eq_some.mp hi with hi | ⟨rfl, rfl⟩
    · exact h.objectId i obj₁ hi
    · exact h.nextId
  · rcases getElem?_concat_eq_some.mp hi with hi | ⟨rfl, rfl⟩
    · exact h.lists i obj₁ hi
    · -- nothing was made for it yet
      refine fun id socket => iff_of_false (by simp) fun ⟨_, hm⟩ => ?_
      exact Nat.lt_irrefl _ (h.made _ (List.mem_of_getElem? hm))
  · rw [List.length_append]
    exact Nat.lt_add_right 1 (h.made m hm)
  · rcases h.remembers u thread₁ hu with hn | ⟨o₁, socket, ho₁, hrest⟩
    · exact .inl hn
    · refine .inr ⟨o₁, socket, ?_, hrest⟩
      rw [List.length_append]
      exact Nat.lt_add_right 1 ho₁

/-- A socket is made for a thread that has none. -/
theorem Sound.make (h : s.Sound) (ho : s.objects[o]? = some obj) (ha : obj.alive = true)
    {id : Nat} (hn : obj.controlSockets.lookup id = none) :
    Sound { s.setObject o { obj with
      controlSockets := (id, s.made.length) :: obj.controlSockets } with
        made := s.made ++ [(o, id)] } := by
  refine h.setObject ho (by rfl) [(o, id)] (by simp) fun id₁ socket => ?_
  rw [List.lookup_cons, getElem?_concat_eq_some]
  by_cases hid : id₁ = id
  · subst hid
    -- none of the earlier sockets is its own
    have hnot : s.made[socket]? ≠ some (o, id₁) := fun hm => by
      rw [(h.lists o obj ho id₁ socket).mpr ⟨ha, hm⟩] at hn
      cases hn
    simp [ha, hnot, eq_comm]
  · have hne : id ≠ id₁ := Ne.symm hid
    simpa [beq_false_of_ne hid, hne] using h.lists o obj ho id₁ socket

theorem call_of_eq_some {r : ControlResult} (h : s.getControlSocket o t = some (r, s')) :
    Call s o t r s' := by
  unfold getControlSocket at h
  split at h
  · rename_i obj thread ho ht
    obtain ⟨⟨ha, -⟩, h⟩ := Option.ite_none_right_eq_some.mp h
    split at h
    · obtain ⟨hr, rfl⟩ := Prod.mk.inj (Option.some.inj h)
      exact .remembered ho ht ha ‹_› hr
    · split at h
      · obtain ⟨rfl, rfl⟩ := Prod.mk.inj (Option.some.inj h)
        exact .refused ho ha ‹_›
      · split at h
        · obtain ⟨rfl, rfl⟩ := Prod.mk.inj (Option.some.inj h)
          exact .found ho ht ha ‹_›
        · obtain ⟨rfl, rfl⟩ := Prod.mk.inj (Option.some.inj h)
          exact .made ho ht ha ‹_›
  · cases h

theorem Sound.call (h : s.Sound) {r : ControlResult} (hc : Call s o t r s') : s'.Sound := by
  cases hc with
  | remembered => exact h
  | refused => exact h
  | found ho ht ha hs =>
    refine h.setThread (.inr ⟨o, _, (List.getElem?_eq_some_iff.mp ho).1, h.objectId o _ ho,
      rfl, ?_⟩)
    exact ((h.lists o _ ho _ _).mp hs).2
  | made ho ht ha hs =>
    refine (h.make ho ha hs).setThread
      (.inr ⟨o, _, ?_, h.objectId o _ ho, rfl, List.getElem?_concat_length⟩)
    exact Nat.lt_of_lt_of_eq (List.getElem?_eq_some_iff.mp ho).1 List.length_set.symm

theorem made_prefix_of_call {r : ControlResult} (hc : Call s o t r s') : s.made <+: s'.made := by
  cases hc with
  | made => exact List.prefix_append _ _
  | _ => exact List.prefix_rfl

theorem Sound.step (h : s.Sound) {e : ControlSocketEvent} (hs : s.step e = some s') :
    s'.Sound ∧ s.made <+: s'.made := by
  cases e with
  | construct =>
    obtain rfl := Option.some.inj hs
    exact ⟨h.construct, List.prefix_rfl⟩
  | quit o =>
    simp only [ControlSockets.step] at hs
    split at hs
    · rename_i obj ho
      obtain ⟨-, ⟨⟩⟩ := Option.ite_none_right_eq_some.mp hs
      exact ⟨h.keepMade ho rfl (h.lists o obj ho), List.prefix_rfl⟩
    · cases hs
  | destroy o =>
    simp only [ControlSockets.step] at hs
    split at hs
    · rename_i obj ho
      obtain ⟨-, ⟨⟩⟩ := Option.ite_none_right_eq_some.mp hs
      exact ⟨h.keepMade ho rfl fun id socket => by simp, List.prefix_rfl⟩
    · cases hs
  | startThread id =>
    obtain ⟨-, ⟨⟩⟩ := Option.ite_none_right_eq_some.mp hs
    refine ⟨⟨h.nextId, h.objectId, h.lists, h.made, fun t thread ht => ?_⟩, List.prefix_rfl⟩
    rcases getElem?_concat_eq_some.mp ht with ht | ⟨-, rfl⟩
    · exact h.remembers t thread ht
    · exact .inl ⟨rfl, rfl⟩
  | endThread t =>
    simp only [ControlSockets.step] at hs
    split at hs
    · rename_i thread ht
      obtain ⟨-, ⟨⟩⟩ := Option.ite_none_right_eq_some.mp hs
      exact ⟨h.setThread (h.remembers t thread ht), List.prefix_rfl⟩
    · cases hs
  | getControlSocket o t =>
    obtain ⟨⟨r, s₁⟩, hr, rfl⟩ := Option.map_eq_some_iff.mp hs
    exact ⟨h.call (call_of_eq_some hr), made_prefix_of_call (call_of_eq_some hr)⟩

theorem Sound.runs (h : s.Sound) (hr : machine.Runs s s') : s'.Sound ∧ s.made <+: s'.made := by
  refine hr.invariant (P := fun s' => s'.Sound ∧ s.made <+: s'.made) ?_ ⟨h, List.prefix_rfl⟩
  rintro s₁ e s₂ ⟨h₁, hpre⟩ hs
  exact ⟨(h₁.step hs).1, hpre.trans (h₁.step hs).2⟩

theorem sound_of_reachable (h : machine.Reachable s) : s.Sound := by
  refine h.invariant ?_ fun s e s' h hs => (h.step hs).1
  rintro s rfl
  exact ⟨rfl, by simp, by simp, by simp, by simp⟩

theorem idOf_inj {o' : Nat} (ho : o < 2 ^ 32 - 1) (ho' : o' < 2 ^ 32 - 1) (h : idOf o = idOf o') :
    o = o' := by
  have hb := congrArg (fun x : Int32 => x.toBitVec.toNat) h
  simp [idOf] at hb
  omega

theorem idOf_ne_neg_one (ho : o < 2 ^ 32 - 2) : idOf o ≠ -1 := by
  intro h
  have hb := congrArg (fun x : Int32 => x.toBitVec.toNat) h
  simp [idOf] at hb
  omega

/-- Unless the call is refused, it returns a socket that was made for the caller. -/
theorem Sound.made_of_call (h : s.Sound) (hlen : s.objects.length < 2 ^ 32 - 1)
    (ht : s.threads[t]? = some thread) {r : ControlResult} (hc : Call s o t r s') :
    r = .shuttingDown ∨ ∃ socket, r = .socket socket ∧ s'.made[socket]? = some (o, thread.id) := by
  cases hc with
  | remembered ho ht' ha hid hr =>
    obtain rfl := Option.some.inj (ht.symm.trans ht')
    have hlt := (List.getElem?_eq_some_iff.mp ho).1
    rw [h.objectId o _ ho] at hid
    rcases h.remembers t thread ht with ⟨hlast, -⟩ | ⟨o₁, socket, ho₁, hlast, hsocket, hm⟩
    · exact (idOf_ne_neg_one (by omega) (hid.trans hlast)).elim
    · obtain rfl : o = o₁ := idOf_inj (by omega) (by omega) (hid.trans hlast)
      refine .inr ⟨socket, ?_, hm⟩
      rw [← hr, hsocket]
      rfl
  | refused => exact .inl rfl
  | found ho ht' ha hs =>
    obtain rfl := Option.some.inj (ht.symm.trans ht')
    exact .inr ⟨_, rfl, ((h.lists o _ ho _ _).mp hs).2⟩
  | made ho ht' =>
    obtain rfl := Option.some.inj (ht.symm.trans ht')
    exact .inr ⟨_, rfl, List.getElem?_concat_length⟩

theorem exists_call (ho : s.objects[o]? = some obj) (ha : obj.alive = true)
    (ht : s.threads[t]? = some thread) (hrun : thread.running = true) :
    ∃ r s', s.getControlSocket o t = some (r, s') := by
  simp only [getControlSocket, ho, ht, ha, hrun, and_self, if_true]
  split
  · exact ⟨_, _, rfl⟩
  · split
    · exact ⟨_, _, rfl⟩
    · split <;> exact ⟨_, _, rfl⟩

theorem shuttingDown_of_call (hc : Call s o t .shuttingDown s') (ho : s.objects[o]? = some obj) :
    obj.proxyShuttingDown = true := by
  cases hc with
  | @remembered _ thread _ _ _ _ _ hr =>
    cases hl : thread.lastSocket with
    | none => simp [hl] at hr
    | some socket => simp [hl] at hr
  | refused ho' _ hq =>
    obtain rfl := Option.some.inj (ho.symm.trans ho')
    exact hq

/-- A call leaves the object in place. -/
theorem object_of_call {r : ControlResult} (hc : Call s o t r s') :
    ∃ obj, s'.objects[o]? = some obj ∧ obj.alive = true := by
  cases hc with
  | made ho _ ha => exact ⟨_, List.getElem?_set_self (List.getElem?_eq_some_iff.mp ho).1, ha⟩
  | remembered ho _ ha => exact ⟨_, ho, ha⟩
  | refused ho ha => exact ⟨_, ho, ha⟩
  | found ho _ ha => exact ⟨_, ho, ha⟩

/-- The socket a thread gets exists, and is used by nobody else: another call, then or later,
returns it just when it is on the same object, by a thread of that id. No two running threads
have the same id. -/
theorem control_socket_of_caller (h : machine.Reachable s) (hlen : s.objects.length < 2 ^ 32 - 1)
    (ho : s.objects[o]? = some obj) (ha : obj.alive = true) (ht : s.threads[t]? = some thread)
    (hrun : thread.running = true) :
    ∃ r s', s.getControlSocket o t = some (r, s') ∧
      (r = .shuttingDown ∧ obj.proxyShuttingDown = true ∨
        ∃ socket, r = .socket socket ∧
          (∃ obj', s'.objects[o]? = some obj' ∧ obj'.alive = true ∧
            obj'.controlSockets.lookup thread.id = some socket) ∧
          ∀ s₁ o₁ t₁ thread₁ socket₁ s₂, machine.Runs s' s₁ → s₁.objects.length < 2 ^ 32 - 1 →
            s₁.threads[t₁]? = some thread₁ →
            s₁.getControlSocket o₁ t₁ = some (.socket socket₁, s₂) →
            (socket₁ = socket ↔ o₁ = o ∧ thread₁.id = thread.id)) := by
  have hsound := sound_of_reachable h
  obtain ⟨r, s', hcall⟩ := exists_call ho ha ht hrun
  have hc := call_of_eq_some hcall
  refine ⟨r, s', hcall, ?_⟩
  rcases hsound.made_of_call hlen ht hc with rfl | ⟨socket, rfl, hmade⟩
  · exact .inl ⟨rfl, shuttingDown_of_call hc ho⟩
  have hsound' := hsound.call hc
  refine .inr ⟨socket, rfl, ?_, fun s₁ o₁ t₁ thread₁ socket₁ s₂ hruns hlen₁ ht₁ hcall₁ => ?_⟩
  · obtain ⟨obj', ho', ha'⟩ := object_of_call hc
    exact ⟨obj', ho', ha', (hsound'.lists o obj' ho' _ _).mpr ⟨ha', hmade⟩⟩
  · obtain ⟨hsound₁, hpre⟩ := hsound'.runs hruns
    have hc₁ := call_of_eq_some hcall₁
    have hmade₂ : s₂.made[socket]? = some (o, thread.id) := by
      obtain ⟨new, hnew⟩ := hpre.trans (made_prefix_of_call hc₁)
      rw [← hnew, List.getElem?_append_left (List.getElem?_eq_some_iff.mp hmade).1, hmade]
    rcases hsound₁.made_of_call hlen₁ ht₁ hc₁ with hr | ⟨_, hr, hmade₁⟩
    · cases hr
    obtain rfl := ControlResult.socket.inj hr
    constructor
    · rintro rfl
      exact Prod.mk.inj (Option.some.inj (hmade₁.symm.trans hmade₂))
    · -- the object still exists, and its table has one socket for a thread
      rintro ⟨rfl, hid⟩
      obtain ⟨obj₂, ho₂, ha₂⟩ := object_of_call hc₁
      have hlists := (hsound₁.call hc₁).lists o₁ obj₂ ho₂
      have hlookup := (hlists thread₁.id socket₁).mpr ⟨ha₂, hmade₁⟩
      rw [hid, (hlists thread.id socket).mpr ⟨ha₂, hmade₂⟩] at hlookup
      exact (Option.some.inj hlookup).symm

/-- The thread remembers the socket of an object that has been destroyed. -/
def replacedObject : ControlSockets where
  nextId := 3
  objects := [{ objectId := 1, alive := false }, { objectId := 2 }]
  threads := [{ id := 7, lastId := 1, lastSocket := some 0 }]
  made := [(0, 7)]

theorem control_socket_of_replaced_object :
    ∃ socket s', replacedObject.getControlSocket 1 0 = some (.socket socket, s') ∧
      ∃ obj, s'.objects[1]? = some obj ∧ obj.alive = true ∧
        obj.controlSockets.lookup 7 = some socket := by
  have hinit : machine.Reachable {} := .init rfl
  have hrun : machine.run {} [.construct, .startThread 7, .getControlSocket 0 0, .destroy 0,
      .construct] = some replacedObject := by decide
  obtain ⟨r, s', hcall, ⟨-, hq⟩ | ⟨socket, rfl, hobj, -⟩⟩ :=
    control_socket_of_caller (o := 1) (t := 0) (hinit.run hrun) (by decide) rfl rfl rfl rfl
  · cases hq
  · exact ⟨socket, s', hcall, hobj⟩

end ControlSockets

end ArqmaMQ
