import ArqmaMQ.DispatchLoop
import ArqmaMQ.Variant

/-! How tagged threads come up and go away again. They are created before `start()`,
and wait until the proxy has heard from all of them; without `start()` the destructor
sends them away. -/

namespace ArqmaMQ

/-- How far the owner has got, or the proxy once it runs. `threw` is an exception
from a socket that does not know the thread it is to send to. -/
inductive StartupStage
  | configuring
  | gathering (waitingOn : List Nat)
  | releasing (next : Nat)
  | looping
  | quitting (next : Nat)
  | joining (next : Nat)
  | destroyed
  | threw
  deriving DecidableEq, Repr

structure StartupThread where
  /-- Its socket is connected and has sent STARTING. -/
  announced : Bool := false
  thread : Thread := { pc := .waitStart }
  deriving DecidableEq, Repr

structure Startup where
  threads : List StartupThread := []
  /-- The STARTING messages that wait on `workers_socket`, by thread. -/
  announcements : List Nat := []
  stage : StartupStage := .configuring
  deriving DecidableEq, Repr

inductive StartupEvent
  /-- `add_tagged_thread` -/
  | addThread
  /-- `start()`, which goes on in `proxy_loop`. -/
  | start
  | gather
  | release
  /-- The destructor of an object that was never started. -/
  | destroy
  | quit
  | join
  | announce (i : Nat)
  | receive (i : Nat)
  deriving DecidableEq, Repr

namespace Startup

def setThread (s : Startup) (i : Nat) (t : StartupThread) : Startup :=
  { s with threads := s.threads.set i t }

/-- `route_control` to a thread. -/
def send (s : Startup) (i : Nat) (t : StartupThread) (c : WorkerCommand) : Startup :=
  s.setThread i { t with thread := { t.thread with inbox := t.thread.inbox ++ [c] } }

def step (s : Startup) : StartupEvent → Option Startup
  | .addThread =>
    if s.stage = .configuring then some { s with threads := s.threads ++ [{}] } else none
  | .start =>
    if s.stage = .configuring then
      some { s with
        stage := if s.threads = [] then .looping else .gathering (List.range s.threads.length) }
    else none
  | .gather =>
    match s.stage, s.announcements with
    | .gathering [], _ => some { s with stage := .releasing 0 }
    | .gathering waitingOn, i :: announcements =>
      some { s with stage := .gathering (waitingOn.erase i), announcements }
    | _, _ => none
  | .release =>
    match s.stage with
    | .releasing next =>
      match s.threads[next]? with
      | some t =>
        if t.announced then some { s.send next t .start with stage := .releasing (next + 1) }
        else some { s with stage := .threw }
      | none => some { s with stage := .looping }
    | _ => none
  | .destroy =>
    if s.stage = .configuring then
      some { s with stage := if s.threads = [] then .destroyed else .quitting 0 }
    else none
  | .quit =>
    match s.stage with
    | .quitting next =>
      match s.threads[next]? with
      | some t =>
        -- the exception is caught, and the message sent again
        if t.announced then some { s.send next t .quit with stage := .quitting (next + 1) }
        else some s
      | none => some { s with stage := .joining 0 }
    | _ => none
  | .join =>
    match s.stage with
    | .joining next =>
      match s.threads[next]? with
      | some t =>
        if t.thread.pc = .exited then some { s with stage := .joining (next + 1) } else none
      | none => some { s with stage := .destroyed }
    | _ => none
  | .announce i =>
    match s.threads[i]? with
    | some t =>
      if t.announced then none
      else some { s.setThread i { t with announced := true } with
        announcements := s.announcements ++ [i] }
    | none => none
  | .receive i =>
    match s.threads[i]? with
    | some t =>
      if t.announced then t.thread.receive.map fun thread => s.setThread i { t with thread }
      else none
    | none => none

def machine : Transition.Machine Startup StartupEvent where
  Init s := s = {}
  step := step

/-- What can happen, with the reason why it can. -/
inductive Move : Startup → StartupEvent → Startup → Prop
  | addThread {s} (hs : s.stage = .configuring) :
    Move s .addThread { s with threads := s.threads ++ [{}] }
  | start {s} (hs : s.stage = .configuring) :
    Move s .start { s with
      stage := if s.threads = [] then .looping else .gathering (List.range s.threads.length) }
  | gathered {s} (hs : s.stage = .gathering []) : Move s .gather { s with stage := .releasing 0 }
  | gather {s waitingOn i announcements} (hs : s.stage = .gathering waitingOn)
    (hw : waitingOn ≠ []) (ha : s.announcements = i :: announcements) :
    Move s .gather { s with stage := .gathering (waitingOn.erase i), announcements }
  | release {s next t} (hs : s.stage = .releasing next) (ht : s.threads[next]? = some t)
    (ha : t.announced = true) :
    Move s .release { s.send next t .start with stage := .releasing (next + 1) }
  | unreachable {s next t} (hs : s.stage = .releasing next) (ht : s.threads[next]? = some t)
    (ha : t.announced = false) : Move s .release { s with stage := .threw }
  | released {s next} (hs : s.stage = .releasing next) (ht : s.threads[next]? = none) :
    Move s .release { s with stage := .looping }
  | destroy {s} (hs : s.stage = .configuring) :
    Move s .destroy { s with stage := if s.threads = [] then .destroyed else .quitting 0 }
  | quit {s next t} (hs : s.stage = .quitting next) (ht : s.threads[next]? = some t)
    (ha : t.announced = true) :
    Move s .quit { s.send next t .quit with stage := .quitting (next + 1) }
  | retry {s next t} (hs : s.stage = .quitting next) (ht : s.threads[next]? = some t)
    (ha : t.announced = false) : Move s .quit s
  | told {s next} (hs : s.stage = .quitting next) (ht : s.threads[next]? = none) :
    Move s .quit { s with stage := .joining 0 }
  | join {s next t} (hs : s.stage = .joining next) (ht : s.threads[next]? = some t)
    (hpc : t.thread.pc = .exited) : Move s .join { s with stage := .joining (next + 1) }
  | joined {s next} (hs : s.stage = .joining next) (ht : s.threads[next]? = none) :
    Move s .join { s with stage := .destroyed }
  | announce {s i t} (ht : s.threads[i]? = some t) (ha : t.announced = false) :
    Move s (.announce i) { s.setThread i { t with announced := true } with
      announcements := s.announcements ++ [i] }
  | receive {s i t thread} (ht : s.threads[i]? = some t) (ha : t.announced = true)
    (hr : t.thread.receive = some thread) : Move s (.receive i) (s.setThread i { t with thread })

theorem step_of_move {s s' : Startup} {e : StartupEvent} (h : Move s e s') :
    s.step e = some s' := by
  cases h with
  | addThread hs | start hs | destroy hs => exact if_pos hs
  | gathered hs => simp [step, hs]
  | @gather waitingOn _ _ hs hw ha =>
    cases waitingOn with
    | nil => exact (hw rfl).elim
    | cons j waitingOn => simp [step, hs, ha]
  | released hs ht | told hs ht | joined hs ht => simp [step, hs, ht]
  | release hs ht ha | unreachable hs ht ha | quit hs ht ha | retry hs ht ha =>
    simp [step, hs, ht, ha]
  | join hs ht hpc => simp [step, hs, ht, hpc]
  | announce ht ha => simp [step, ht, ha]
  | receive ht ha hr => simp [step, ht, ha, hr]

theorem move_of_step {s s' : Startup} {e : StartupEvent} (h : s.step e = some s') :
    Move s e s' := by
  cases e with
  | addThread =>
    obtain ⟨hs, ⟨⟩⟩ := Option.ite_none_right_eq_some.mp h
    exact .addThread hs
  | start =>
    obtain ⟨hs, ⟨⟩⟩ := Option.ite_none_right_eq_some.mp h
    exact .start hs
  | gather =>
    simp only [step] at h
    split at h
    · obtain rfl := Option.some.inj h
      exact .gathered ‹_›
    · rename_i waitingOn i announcements hne hs ha
      obtain rfl := Option.some.inj h
      refine .gather hs ?_ ha
      rintro rfl
      exact hne rfl
    · cases h
  | release =>
    simp only [step] at h
    split at h
    · split at h
      · split at h
        · obtain rfl := Option.some.inj h
          exact .release ‹_› ‹_› ‹_›
        · obtain rfl := Option.some.inj h
          exact .unreachable ‹_› ‹_› (Bool.eq_false_iff.mpr ‹_›)
      · obtain rfl := Option.some.inj h
        exact .released ‹_› ‹_›
    · cases h
  | destroy =>
    obtain ⟨hs, ⟨⟩⟩ := Option.ite_none_right_eq_some.mp h
    exact .destroy hs
  | quit =>
    simp only [step] at h
    split at h
    · split at h
      · split at h
        · obtain rfl := Option.some.inj h
          exact .quit ‹_› ‹_› ‹_›
        · obtain rfl := Option.some.inj h
          exact .retry ‹_› ‹_› (Bool.eq_false_iff.mpr ‹_›)
      · obtain rfl := Option.some.inj h
        exact .told ‹_› ‹_›
    · cases h
  | join =>
    simp only [step] at h
    split at h
    · split at h
      · obtain ⟨hpc, ⟨⟩⟩ := Option.ite_none_right_eq_some.mp h
        exact .join ‹_› ‹_› hpc
      · obtain rfl := Option.some.inj h
        exact .joined ‹_› ‹_›
    · cases h
  | announce i =>
    simp only [step] at h
    split at h
    · split at h
      · cases h
      · obtain rfl := Option.some.inj h
        exact .announce ‹_› (Bool.eq_false_iff.mpr ‹_›)
    · cases h
  | receive i =>
    simp only [step] at h
    split at h
    · obtain ⟨ha, h⟩ := Option.ite_none_right_eq_some.mp h
      obtain ⟨thread, hr, rfl⟩ := Option.map_eq_some_iff.mp h
      exact .receive ‹_› ha hr
    · cases h

end Startup

namespace Thread

/-- A thread that nothing has been sent to. -/
def fresh : Thread := { pc := .waitStart }

/-- Nothing but START has been sent, and nothing run. -/
def Released (t : Thread) : Prop :=
  t = { pc := .waitStart, inbox := [.start] } ∨ t = { pc := .waitRun }

def Dismissed (t : Thread) : Prop :=
  t = { pc := .waitStart, inbox := [.quit] } ∨ t = { pc := .exited, outbox := [.quitting] }

theorem receive_fresh : fresh.receive = none := rfl

theorem Released.receive {t t' : Thread} (h : t.Released) (hr : t.receive = some t') :
    t' = { pc := .waitRun } := by
  rcases h with rfl | rfl
  · exact (Option.some.inj hr).symm
  · cases hr

theorem Dismissed.exited {t : Thread} (h : t.Dismissed) (hp : t.pc = .exited) :
    t = { pc := .exited, outbox := [.quitting] } := by
  rcases h with rfl | rfl
  · cases hp
  · rfl

theorem Dismissed.receive {t t' : Thread} (h : t.Dismissed) (hr : t.receive = some t') :
    t' = { pc := .exited, outbox := [.quitting] } := by
  rcases h with rfl | rfl
  · exact (Option.some.inj hr).symm
  · cases hr

end Thread

namespace StartupStage

/-- What the thread with index `i` is like. -/
def Expects : StartupStage → Nat → StartupThread → Prop
  | .configuring, _, t => t.thread = .fresh
  | .gathering waitingOn, i, t => t.thread = .fresh ∧ (i ∉ waitingOn → t.announced = true)
  | .releasing next, i, t =>
    t.announced = true ∧ (i < next → t.thread.Released) ∧ (next ≤ i → t.thread = .fresh)
  | .looping, _, t => t.announced = true ∧ t.thread.Released
  | .quitting next, i, t =>
    (i < next → t.announced = true ∧ t.thread.Dismissed) ∧ (next ≤ i → t.thread = .fresh)
  | .joining next, i, t =>
    t.announced = true ∧ t.thread.Dismissed ∧ (i < next → t.thread.pc = .exited)
  | .destroyed, _, t => t.thread = { pc := .exited, outbox := [.quitting] }
  | .threw, _, _ => False

/-- The proxy has not heard from the thread. -/
def Awaits : StartupStage → Nat → Prop
  | .configuring, _ => True
  | .gathering waitingOn, i => i ∈ waitingOn
  | _, _ => False

theorem Expects.cases {g : StartupStage} {i : Nat} {t : StartupThread} (h : g.Expects i t) :
    t.thread = .fresh ∨ t.thread.Released ∨ t.thread.Dismissed := by
  cases g with
  | configuring => exact .inl h
  | gathering waitingOn => exact .inl h.1
  | releasing next => exact (Nat.lt_or_ge i next).elim (.inr ∘ .inl ∘ h.2.1) (.inl ∘ h.2.2)
  | looping => exact .inr (.inl h.2)
  | quitting next =>
    rcases Nat.lt_or_ge i next with hi | hi
    · exact .inr (.inr (h.1 hi).2)
    · exact .inl (h.2 hi)
  | joining next => exact .inr (.inr h.2.1)
  | destroyed => exact .inr (.inr (.inr h))
  | threw => exact h.elim

/-- A thread gets past START only after all have announced themselves. -/
theorem Expects.past_start {g : StartupStage} {i : Nat} {t : StartupThread} (h : g.Expects i t)
    (hpc : t.thread.pc = .waitRun) :
    (∀ j u, g.Expects j u → u.announced = true) ∧ g ≠ .configuring := by
  have hfresh (hf : t.thread = .fresh) : False := by
    rw [hf] at hpc
    cases hpc
  have hdismissed (hd : t.thread.Dismissed) : False := by
    rcases hd with hd | hd <;> simp [hd] at hpc
  cases g with
  | configuring => exact (hfresh h).elim
  | gathering waitingOn => exact (hfresh h.1).elim
  | releasing next => exact ⟨fun j u hu => hu.1, by simp⟩
  | looping => exact ⟨fun j u hu => hu.1, by simp⟩
  | quitting next =>
    exact (Nat.lt_or_ge i next).elim (fun hi => (hdismissed (h.1 hi).2).elim)
      fun hi => (hfresh (h.2 hi)).elim
  | joining next => exact (hdismissed h.2.1).elim
  | destroyed => exact (hdismissed (.inr h)).elim
  | threw => exact h.elim

/-- Threads take steps of their own. -/
theorem Expects.announce {g : StartupStage} {i : Nat} {t : StartupThread} (h : g.Expects i t) :
    g.Expects i { t with announced := true } := by
  cases g with
  | gathering waitingOn => exact ⟨h.1, fun _ => rfl⟩
  | quitting next => exact ⟨fun hi => ⟨rfl, (h.1 hi).2⟩, h.2⟩
  | configuring => exact h
  | destroyed => exact h
  | threw => exact h
  | _ => exact ⟨rfl, h.2⟩

theorem Expects.receive {g : StartupStage} {i : Nat} {t : StartupThread} {thread : Thread}
    (h : g.Expects i t) (hr : t.thread.receive = some thread) :
    g.Expects i { t with thread } := by
  have hfresh (hf : t.thread = .fresh) : False := by
    rw [hf, Thread.receive_fresh] at hr
    cases hr
  cases g with
  | configuring => exact (hfresh h).elim
  | gathering waitingOn => exact (hfresh h.1).elim
  | releasing next =>
    refine ⟨h.1, fun hi => .inr ((h.2.1 hi).receive hr), fun hi => (hfresh (h.2.2 hi)).elim⟩
  | looping => exact ⟨h.1, .inr (h.2.receive hr)⟩
  | quitting next =>
    exact ⟨fun hi => ⟨(h.1 hi).1, .inr ((h.1 hi).2.receive hr)⟩, fun hi => (hfresh (h.2 hi)).elim⟩
  | joining next =>
    have ht := h.2.1.receive hr
    exact ⟨h.1, .inr ht, fun _ => by rw [ht]⟩
  | destroyed =>
    rw [show t.thread = _ from h] at hr
    cases hr
  | threw => exact h

end StartupStage

namespace Startup

/-- What holds of the threads at every stage. -/
structure Ordered (s : Startup) : Prop where
  threads : ∀ (i : Nat) (t : StartupThread), s.threads[i]? = some t → s.stage.Expects i t
  announced : ∀ i ∈ s.announcements, ∃ t, s.threads[i]? = some t ∧ t.announced = true
  heard : ∀ (i : Nat) (t : StartupThread), s.threads[i]? = some t → t.announced = true →
    s.stage.Awaits i → i ∈ s.announcements
  gathering : ∀ waitingOn, s.stage = .gathering waitingOn →
    waitingOn.Nodup ∧ ∀ i ∈ waitingOn, i < s.threads.length
  running : s.stage ≠ .threw

variable {s s' : Startup} {i : Nat} {t t' : StartupThread}

theorem getElem?_setThread (ht : s.threads[i]? = some t) (j : Nat) :
    (s.setThread i t').threads[j]? = if i = j then some t' else s.threads[j]? := by
  have hi := (List.getElem?_eq_some_iff.mp ht).1
  simp [setThread, List.getElem?_set, hi]

/-- A thread changes its state. -/
theorem Ordered.setThread (h : s.Ordered) (ht : s.threads[i]? = some t)
    (hexp : s.stage.Expects i t') (ha : t'.announced = t.announced) :
    (s.setThread i t').Ordered := by
  have hget {j : Nat} {u : StartupThread} (hu : (s.setThread i t').threads[j]? = some u) :
      (i = j ∧ t' = u) ∨ s.threads[j]? = some u := by
    rw [getElem?_setThread ht] at hu
    split at hu
    · rename_i hij
      exact .inl ⟨hij, Option.some.inj hu⟩
    · exact .inr hu
  refine ⟨fun j u hu => ?_, fun j hj => ?_, fun j u hu hau haw => ?_, fun w hw => ?_, h.running⟩
  · rcases hget hu with ⟨rfl, rfl⟩ | hu
    · exact hexp
    · exact h.threads j u hu
  · obtain ⟨u, hu, hau⟩ := h.announced j hj
    rw [getElem?_setThread ht]
    split
    · rename_i hij
      subst hij
      obtain rfl := Option.some.inj (ht.symm.trans hu)
      exact ⟨t', rfl, ha.trans hau⟩
    · exact ⟨u, hu, hau⟩
  · rcases hget hu with ⟨rfl, rfl⟩ | hu
    · exact h.heard i t ht (ha.symm.trans hau) haw
    · exact h.heard j u hu hau haw
  · simpa [Startup.setThread] using h.gathering w hw

theorem Ordered.announce (h : s.Ordered) (ht : s.threads[i]? = some t) :
    Ordered { s.setThread i { t with announced := true } with
      announcements := s.announcements ++ [i] } := by
  refine ⟨fun j u hu => ?_, fun j hj => ?_, fun j u hu hau haw => ?_, fun w hw => ?_, h.running⟩
  · change (s.setThread i _).threads[j]? = some u at hu
    rw [getElem?_setThread ht] at hu
    split at hu
    · rename_i hij
      subst hij
      obtain rfl := Option.some.inj hu
      exact (h.threads i t ht).announce
    · exact h.threads j u hu
  · change ∃ u, (s.setThread i _).threads[j]? = some u ∧ _
    rw [getElem?_setThread ht]
    by_cases hij : i = j
    · exact ⟨_, if_pos hij, rfl⟩
    · rcases List.mem_append.mp hj with hj | hj
      · rw [if_neg hij]
        exact h.announced j hj
      · exact absurd (List.mem_singleton.mp hj).symm hij
  · change (s.setThread i _).threads[j]? = some u at hu
    rw [getElem?_setThread ht] at hu
    split at hu
    · rename_i hij
      exact List.mem_append_right _ (List.mem_singleton.mpr hij.symm)
    · exact List.mem_append_left _ (h.heard j u hu hau haw)
  · simpa [Startup.setThread] using h.gathering w hw

/-- A stage that waits for no thread follows. -/
theorem Ordered.advance (h : s.Ordered) {threads : List StartupThread} {g : StartupStage}
    (hexp : ∀ (i : Nat) (t : StartupThread), threads[i]? = some t → g.Expects i t)
    (hann : ∀ (i : Nat) (t : StartupThread), s.threads[i]? = some t → t.announced = true →
      ∃ t', threads[i]? = some t' ∧ t'.announced = true)
    (hg : ∀ i, ¬ g.Awaits i) (hw : ∀ w, g ≠ .gathering w) (hne : g ≠ .threw) :
    Ordered { s with threads, stage := g } := by
  refine ⟨hexp, fun i hi => ?_, fun i t _ _ haw => (hg i haw).elim, fun w hw' => (hw w hw').elim,
    hne⟩
  obtain ⟨t, ht, hat⟩ := h.announced i hi
  exact hann i t ht hat

theorem Ordered.addThread (h : s.Ordered) (hs : s.stage = .configuring) :
    Ordered { s with threads := s.threads ++ [{}] } := by
  have hold {j : Nat} {u : StartupThread} (hu : s.threads[j]? = some u) :
      (s.threads ++ [({} : StartupThread)])[j]? = some u := by
    rw [List.getElem?_append_left (List.getElem?_eq_some_iff.mp hu).1]
    exact hu
  refine ⟨fun j u hu => ?_, fun j hj => ?_, fun j u hu hau haw => ?_, fun w hw => ?_, h.running⟩
  · rw [hs]
    rcases List.mem_append.mp (List.mem_of_getElem? hu) with hmem | hmem
    · obtain ⟨k, hk⟩ := List.mem_iff_getElem?.mp hmem
      have hexp := h.threads k u hk
      rw [hs] at hexp
      exact hexp
    · rw [List.mem_singleton.mp hmem]
      rfl
  · obtain ⟨u, hu, hau⟩ := h.announced j hj
    exact ⟨u, hold hu, hau⟩
  · rcases Nat.lt_or_ge j s.threads.length with hj | hj
    · rw [List.getElem?_append_left hj] at hu
      exact h.heard j u hu hau haw
    · rw [List.getElem?_append_right hj] at hu
      rw [List.mem_singleton.mp (List.mem_of_getElem? hu)] at hau
      cases hau
  · rw [hs] at hw
    cases hw

theorem Ordered.start (h : s.Ordered) (hs : s.stage = .configuring) :
    Ordered { s with stage := .gathering (List.range s.threads.length) } := by
  refine ⟨fun i t ht => ⟨?_, fun hi => ?_⟩, h.announced, fun i t ht ha _ => ?_, fun w hw => ?_,
    by simp⟩
  · have hexp := h.threads i t ht
    rw [hs] at hexp
    exact hexp
  · exact absurd (List.mem_range.mpr (List.getElem?_eq_some_iff.mp ht).1) hi
  · refine h.heard i t ht ha ?_
    rw [hs]
    trivial
  · obtain rfl := StartupStage.gathering.inj hw
    exact ⟨List.nodup_range, fun i hi => List.mem_range.mp hi⟩

theorem Ordered.gather (h : s.Ordered) {waitingOn announcements : List Nat}
    (hs : s.stage = .gathering waitingOn) (ha : s.announcements = i :: announcements) :
    Ordered { s with stage := .gathering (waitingOn.erase i), announcements } := by
  obtain ⟨hnodup, hlt⟩ := h.gathering waitingOn hs
  obtain ⟨t, ht, hat⟩ := h.announced i (by simp [ha])
  refine ⟨fun j u hu => ?_, fun j hj => h.announced j (by simp [ha, hj]), fun j u hu hau haw => ?_,
    fun w hw => ?_, by simp⟩
  · have hexp := h.threads j u hu
    rw [hs] at hexp
    refine ⟨hexp.1, fun hj => ?_⟩
    by_cases hij : j = i
    · subst hij
      obtain rfl := Option.some.inj (ht.symm.trans hu)
      exact hat
    · exact hexp.2 fun hmem => hj ((List.mem_erase_of_ne hij).mpr hmem)
  · obtain ⟨hne, hmem⟩ := hnodup.mem_erase_iff.mp haw
    have hj := h.heard j u hu hau (by rw [hs]; exact hmem)
    rw [ha] at hj
    exact (List.mem_cons.mp hj).resolve_left hne
  · obtain rfl := StartupStage.gathering.inj hw
    exact ⟨hnodup.erase i, fun j hj => hlt j (List.mem_of_mem_erase hj)⟩

/-- A message is sent to the thread whose turn it is. -/
theorem Ordered.send (h : s.Ordered) (ht : s.threads[i]? = some t) (c : WorkerCommand)
    {g : StartupStage}
    (hself : g.Expects i { t with thread := { t.thread with inbox := t.thread.inbox ++ [c] } })
    (hother : ∀ (j : Nat) (u : StartupThread), i ≠ j → s.threads[j]? = some u → g.Expects j u)
    (hg : ∀ i, ¬ g.Awaits i) (hw : ∀ w, g ≠ .gathering w) (hne : g ≠ .threw) :
    Ordered { s.send i t c with stage := g } := by
  refine h.advance (fun j u hu => ?_) (fun j u hu hau => ?_) hg hw hne
  · change (s.setThread i _).threads[j]? = some u at hu
    rw [getElem?_setThread ht] at hu
    split at hu
    · rename_i hij
      subst hij
      obtain rfl := Option.some.inj hu
      exact hself
    · rename_i hij
      exact hother j u hij hu
  · change ∃ u', (s.setThread i _).threads[j]? = some u' ∧ _
    rw [getElem?_setThread ht]
    split
    · rename_i hij
      subst hij
      obtain rfl := Option.some.inj (ht.symm.trans hu)
      exact ⟨_, rfl, hau⟩
    · exact ⟨u, hu, hau⟩

/-- The next stage, without a message. -/
theorem Ordered.move (h : s.Ordered) {g : StartupStage}
    (hexp : ∀ (i : Nat) (t : StartupThread), s.threads[i]? = some t → g.Expects i t)
    (hg : ∀ i, ¬ g.Awaits i) (hw : ∀ w, g ≠ .gathering w) (hne : g ≠ .threw) :
    Ordered { s with stage := g } :=
  h.advance hexp (fun _ t ht ha => ⟨t, ht, ha⟩) hg hw hne

theorem Ordered.expects (h : s.Ordered) {g : StartupStage} (hs : s.stage = g)
    (ht : s.threads[i]? = some t) : g.Expects i t := hs ▸ h.threads i t ht

theorem Ordered.release (h : s.Ordered) {next : Nat} (hs : s.stage = .releasing next)
    (ht : s.threads[next]? = some t) :
    t.announced = true ∧ Ordered { s.send next t .start with stage := .releasing (next + 1) } := by
  obtain ⟨ha, -, hfresh⟩ := h.expects hs ht
  refine ⟨ha, h.send ht .start ⟨ha, fun _ => .inl ?_, fun hi => ?_⟩ (fun j u hij hu => ?_)
    (by simp [StartupStage.Awaits]) (by simp) (by simp)⟩
  · rw [hfresh (Nat.le_refl _)]
    rfl
  · omega
  · obtain ⟨hau, hlt, hge⟩ := h.expects hs hu
    exact ⟨hau, fun hj => hlt (by omega), fun hj => hge (by omega)⟩

theorem Ordered.quit (h : s.Ordered) {next : Nat} (hs : s.stage = .quitting next)
    (ht : s.threads[next]? = some t) (ha : t.announced = true) :
    Ordered { s.send next t .quit with stage := .quitting (next + 1) } := by
  obtain ⟨-, hfresh⟩ := h.expects hs ht
  refine h.send ht .quit ⟨fun _ => ⟨ha, .inl ?_⟩, fun hi => ?_⟩ (fun j u hij hu => ?_)
    (by simp [StartupStage.Awaits]) (by simp) (by simp)
  · rw [hfresh (Nat.le_refl _)]
    rfl
  · omega
  · obtain ⟨hlt, hge⟩ := h.expects hs hu
    exact ⟨fun hj => hlt (by omega), fun hj => hge (by omega)⟩

theorem lt_of_none {next : Nat} (hnone : s.threads[next]? = none) (ht : s.threads[i]? = some t) :
    i < next :=
  Nat.lt_of_lt_of_le (List.getElem?_eq_some_iff.mp ht).1 (List.getElem?_eq_none_iff.mp hnone)

theorem Ordered.step (h : s.Ordered) {e : StartupEvent} (hm : Move s e s') : s'.Ordered := by
  cases hm with
  | addThread hs => exact h.addThread hs
  | start hs =>
    split
    · rename_i hnil
      exact h.move (by simp [hnil]) (by simp [StartupStage.Awaits]) (by simp) (by simp)
    · exact h.start hs
  | gathered hs =>
    refine h.move (fun i t ht => ?_) (by simp [StartupStage.Awaits]) (by simp) (by simp)
    obtain ⟨hfresh, ha⟩ := h.expects hs ht
    exact ⟨ha (by simp), fun hi => by omega, fun _ => hfresh⟩
  | gather hs _ ha => exact h.gather hs ha
  | release hs ht => exact (h.release hs ht).2
  | unreachable hs ht ha =>
    rw [(h.release hs ht).1] at ha
    cases ha
  | released hs hnone =>
    refine h.move (fun i t ht => ?_) (by simp [StartupStage.Awaits]) (by simp) (by simp)
    obtain ⟨ha, hlt, -⟩ := h.expects hs ht
    exact ⟨ha, hlt (lt_of_none hnone ht)⟩
  | destroy hs =>
    split
    · rename_i hnil
      exact h.move (by simp [hnil]) (by simp [StartupStage.Awaits]) (by simp) (by simp)
    · refine h.move (fun i t ht => ⟨fun hi => by omega, fun _ => ?_⟩)
        (by simp [StartupStage.Awaits]) (by simp) (by simp)
      exact h.expects hs ht
  | quit hs ht ha => exact h.quit hs ht ha
  | retry => exact h
  | told hs hnone =>
    refine h.move (fun i t ht => ?_) (by simp [StartupStage.Awaits]) (by simp) (by simp)
    obtain ⟨ha, hd⟩ := (h.expects hs ht).1 (lt_of_none hnone ht)
    exact ⟨ha, hd, fun hi => by omega⟩
  | join hs ht hpc =>
    refine h.move (fun i u hu => ?_) (by simp [StartupStage.Awaits]) (by simp) (by simp)
    obtain ⟨ha, hd, hlt⟩ := h.expects hs hu
    refine ⟨ha, hd, fun hi => ?_⟩
    rcases Nat.lt_succ_iff_lt_or_eq.mp hi with hi | rfl
    · exact hlt hi
    · obtain rfl := Option.some.inj (ht.symm.trans hu)
      exact hpc
  | joined hs hnone =>
    refine h.move (fun i t ht => ?_) (by simp [StartupStage.Awaits]) (by simp) (by simp)
    obtain ⟨-, hd, hlt⟩ := h.expects hs ht
    exact hd.exited (hlt (lt_of_none hnone ht))
  | announce ht => exact h.announce ht
  | receive ht ha hr => exact h.setThread ht ((h.threads _ _ ht).receive hr) rfl

theorem ordered_of_reachable (h : machine.Reachable s) : s.Ordered := by
  refine h.invariant ?_ fun s e s' h hs => h.step (move_of_step hs)
  rintro s rfl
  exact ⟨by simp, by simp, by simp, by simp, by simp⟩

end Startup

end ArqmaMQ
