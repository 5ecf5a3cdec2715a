import ArqmaMQ.Polling
import ArqmaMQ.RoundRobin

/-! The loop over incoming messages with its queue of socket indices. It restricts
the order in which the proxy reads from its sockets, and never asks for one that is
not there. -/

namespace ArqmaMQ

open Transition.Machine RoundRobin

variable {ι R : Type} [DecidableEq ι]

theorem Dispatch.phase_perform {d d' : Dispatch ι R} {es : List Effect}
    (h : d.perform es = some d') : d'.phase = d.phase := by
  induction es generalizing d with
  | nil =>
    obtain rfl : d = d' := by simpa [perform] using h
    rfl
  | cons e es ih =>
    obtain ⟨d₁, hd₁, h⟩ := perform_cons.mp h
    exact (ih h).trans (phase_step (by cases e <;> simp [Effect.event]) hd₁)

theorem Dispatch.phase_next_of_incoming {d d' : Dispatch ι R} (hp : d.phase = .incoming)
    (h : d.step .next = some d') : d'.phase ≠ .incoming := by
  simp only [step, next, hp] at h
  split at h <;> obtain rfl := Option.some.inj h <;> simp

namespace Proxy

variable {p p' : Proxy ι R} {m : Incoming} {l : Link}

/-- The sockets are as they were, and the loop is where it was. -/
structure SameSockets (p p' : Proxy ι R) : Prop where
  phase : p'.dispatch.phase = p.dispatch.phase
  numSockets : p'.numSockets = p.numSockets
  connections : p'.conns.connections = p.conns.connections
  stale : p'.conns.pollitemsStale = p.conns.pollitemsStale

omit [DecidableEq ι] in
theorem SameSockets.trans {p'' : Proxy ι R} (h : SameSockets p p') (h' : SameSockets p' p'') :
    SameSockets p p'' :=
  ⟨h'.phase.trans h.phase, h'.numSockets.trans h.numSockets, h'.connections.trans h.connections,
    h'.stale.trans h.stale⟩

omit [DecidableEq ι] in
theorem sameSockets_touch (p : Proxy ι R) (i : Option Nat) (now : Int) :
    SameSockets p (p.touch i now) := by
  unfold touch
  split <;> exact ⟨rfl, rfl, rfl, rfl⟩

theorem sameSockets_proxyToWorker {sender : Sender} {name : Bytes} {data : List Bytes}
    (hl : p.link m = some l) (hs : l.sender = some sender)
    (h : p.proxyToWorker m l sender name data = some p') : SameSockets p p' := by
  obtain ⟨peers, hconns⟩ := exists_peers_of_sender hl hs
  have hsockets : sender.conns.connections = p.conns.connections := by rw [hconns]
  have hstale : sender.conns.pollitemsStale = p.conns.pollitemsStale := by rw [hconns]
  unfold proxyToWorker at h
  dsimp only at h
  split at h
  · obtain rfl := Option.some.inj h
    exact ⟨rfl, rfl, hsockets, hstale⟩
  split at h
  · obtain rfl := Option.some.inj h
    exact ⟨rfl, rfl, hsockets, hstale⟩
  obtain ⟨d, hd, h⟩ := Option.bind_eq_some_iff.mp h
  have hphase : d.phase = p.dispatch.phase := Dispatch.phase_step (by simp) hd
  have haccept : SameSockets p ({ p with conns := sender.conns }.accept (l.origin name) d) :=
    ⟨hphase, rfl, hsockets, hstale⟩
  obtain rfl := Option.some.inj h
  split
  · exact haccept.trans (sameSockets_touch _ _ _)
  · exact haccept

omit [DecidableEq ι] in
/-- A builtin command that changes the sockets says so. -/
theorem sameSockets_afterBuiltin {d : Dispatch ι R} (hd : d.phase = p.dispatch.phase)
    (h : (p.builtin m l).conns.pollitemsStale = false) :
    SameSockets p (p.afterBuiltin m l d) := by
  suffices hc : (p.builtin m l).conns.connections = p.conns.connections ∧
      (p.builtin m l).conns.pollitemsStale = p.conns.pollitemsStale from ⟨hd, rfl, hc.1, hc.2⟩
  rcases p.builtin_case m l with hc | ⟨-, -, -, hc⟩ | ⟨-, -, -, hc⟩ | ⟨-, hc⟩ | ⟨-, hc⟩
  · exact hc ▸ ⟨rfl, rfl⟩
  · exact hc ▸ ⟨rfl, rfl⟩
  · exact hc ▸ ⟨rfl, rfl⟩
  · rw [hc]
    unfold Connections.hello
    split
    · split <;> exact ⟨rfl, rfl⟩
    · exact ⟨rfl, rfl⟩
  · rw [hc] at h
    cases h

/-- After a message the loop is left, or goes on with the same sockets. -/
theorem receive_sockets (hp : p.dispatch.phase = .incoming) (h : p.receive m = some p') :
    p'.dispatch.phase ≠ .incoming ∨ SameSockets p p' := by
  obtain ⟨l, hl, h⟩ := Option.bind_eq_some_iff.mp h
  obtain ⟨d, hd, h⟩ := Option.bind_eq_some_iff.mp h
  obtain ⟨p₁, hp₁, h⟩ := Option.bind_eq_some_iff.mp h
  have hforward : SameSockets (p.afterBuiltin m l d) p₁ := by
    unfold forward at hp₁
    split at hp₁
    · rename_i hh hparts hs
      have hl' : (p.afterBuiltin m l d).link m = some l := by
        rw [← hl]
        exact link_congr (conns_of_not_handled hh) rfl
      exact sameSockets_proxyToWorker hl' hs hp₁
    · obtain rfl := Option.some.inj hp₁
      exact ⟨rfl, rfl, rfl, rfl⟩
  have hphase : p₁.dispatch.phase = .incoming :=
    (hforward.phase.trans (Dispatch.phase_perform hd)).trans hp
  split at h
  · obtain ⟨d', stale, hd', rfl⟩ := next_eq_some h
    exact .inl (Dispatch.phase_next_of_incoming hphase hd')
  · rename_i hstale
    obtain rfl := Option.some.inj h
    have hfresh : (p.builtin m l).conns.pollitemsStale = false :=
      hforward.stale.symm.trans (Bool.not_eq_true _ ▸ hstale)
    exact .inr ((sameSockets_afterBuiltin (Dispatch.phase_perform hd) hfresh).trans hforward)

/-- While messages are read, the number of sockets is the one the loop started with. -/
def Sized (p : Proxy ι R) : Prop :=
  p.dispatch.phase = .incoming → p.numSockets = p.conns.connections.length

omit [DecidableEq ι] in
theorem Sized.same (h : p.Sized) (hs : SameSockets p p') : p'.Sized := by
  intro hp
  rw [hs.numSockets, hs.connections]
  exact h (hs.phase.symm.trans hp)

/-- What reads no message leaves the sockets alone while messages are read: control
messages, timers and ZAP requests have parts of the loop of their own. -/
theorem step_sockets {e : ProxyEvent ι R} (he : e ≠ .next) (hm : ∀ m, e ≠ .incoming m)
    (h : p.step e = some p') : SameSockets p p' ∨
      p'.dispatch.phase = p.dispatch.phase ∧ p.dispatch.phase ≠ .incoming := by
  have hcontrol (hp : p.inControl) : p.dispatch.phase ≠ .incoming := by
    rw [show p.dispatch.phase = .control from hp]
    simp
  cases e with
  | next => exact absurd rfl he
  | incoming m => exact absurd rfl (hm m)
  | dispatch e =>
    obtain ⟨hout, -⟩ := dispatch_step h
    simp only [step, hout] at h
    obtain ⟨d, hd, rfl⟩ := Option.map_eq_some_iff.mp h
    have hphase := Dispatch.phase_step (by rintro rfl; cases hout) hd
    left
    split <;> exact ⟨hphase, rfl, rfl, rfl⟩
  | requestConn =>
    obtain rfl := Option.some.inj h
    exact .inl ⟨rfl, rfl, rfl, rfl⟩
  | send env o sentAt =>
    simp only [step] at h
    split at h
    · rename_i hp
      obtain ⟨s, -, h⟩ := Option.bind_eq_some_iff.mp h
      obtain ⟨d, hd, h⟩ := Option.bind_eq_some_iff.mp h
      obtain rfl := Option.some.inj h
      exact .inr ⟨Dispatch.phase_perform hd, hcontrol hp.1⟩
    · cases h
  | control msg =>
    simp only [step] at h
    split at h
    · rename_i hp
      obtain ⟨c, -, rfl⟩ := Option.map_eq_some_iff.mp h
      exact .inr ⟨rfl, hcontrol hp⟩
    · cases h
  | connectRemote net now data =>
    simp only [step] at h
    split at h
    · rename_i hp
      obtain ⟨⟨c, es⟩, -, h⟩ := Option.bind_eq_some_iff.mp h
      obtain ⟨d, hd, h⟩ := Option.bind_eq_some_iff.mp h
      obtain rfl := Option.some.inj h
      exact .inr ⟨Dispatch.phase_perform hd, hcontrol hp.1⟩
    · cases h
  | cleanup clock now =>
    simp only [step] at h
    split at h
    · rename_i hp
      obtain ⟨d, hd, h⟩ := Option.bind_eq_some_iff.mp h
      obtain rfl := Option.some.inj h
      exact .inr ⟨Dispatch.phase_perform hd, by simp [hp]⟩
    · cases h
  | zap frames =>
    obtain ⟨hp, rfl⟩ : _ ∧ _ = p' := by simpa [step] using h
    exact .inr ⟨rfl, by simp [hp]⟩
  | rehash peers requests =>
    obtain ⟨-, rfl⟩ : _ ∧ _ = p' := by simpa [step] using h
    exact .inl ⟨rfl, rfl, rfl, rfl⟩

theorem incoming_sockets (h : p.step (.incoming m) = some p') :
    p'.dispatch.phase ≠ .incoming ∨ SameSockets p p' := by
  simp only [step] at h
  split at h
  · rename_i hp
    exact receive_sockets hp.1 h
  · cases h

theorem sized_next (h : p.next = some p') : p'.Sized := by
  obtain ⟨d, stale, -, rfl⟩ := next_eq_some h
  exact fun hp => if_pos hp

end Proxy

/-- The proxy with the local variables of the loop over incoming messages. -/
structure IncomingLoop (ι R : Type) where
  proxy : Proxy ι R
  queueIndex : List Nat := []
  /-- Auxiliary: the sockets that were found to have nothing to read. -/
  drained : List Nat := []
  /-- Auxiliary: the sockets that messages were read from, once for each message. -/
  handled : List Nat := []

namespace IncomingLoop

inductive Event (ι R : Type)
  /-- The socket at the front has no message. -/
  | nothing
  | message (m : Incoming)
  /-- What other threads and libzmq do, and what the other parts of the loop do. -/
  | other (e : ProxyEvent ι R)
  | next

def ofProxy (p : Proxy ι R) : IncomingLoop ι R where
  proxy := p
  queueIndex := if p.dispatch.phase = .incoming then List.range p.numSockets else []

def step (s : IncomingLoop ι R) : Event ι R → Option (IncomingLoop ι R)
  | .nothing =>
    match s.queueIndex with
    | i :: queueIndex => some { s with queueIndex, drained := s.drained ++ [i] }
    | [] => none
  | .message m =>
    match s.queueIndex with
    | i :: queueIndex =>
      if m.index = i then
        (s.proxy.step (.incoming m)).map fun p =>
          -- with stale poll items the loop has been left
          if p.dispatch.phase = .incoming then
            { s with proxy := p, queueIndex := queueIndex ++ [i], handled := s.handled ++ [i] }
          else ofProxy p
      else none
    | [] => none
  | .other (.incoming _) | .other .next => none
  | .other e => (s.proxy.step e).map fun p => { s with proxy := p }
  | .next => if s.queueIndex = [] then s.proxy.next.map ofProxy else none

variable [Fintype ι]

def machine (ι R : Type) [DecidableEq ι] [Fintype ι] :
    Transition.Machine (IncomingLoop ι R) (Event ι R) where
  Init s := ∃ p, (Proxy.machine ι R).Init p ∧ s = { proxy := p }
  step := step

/-- The invariant of the loop. -/
structure Sound (s : IncomingLoop ι R) : Prop where
  reachable : (Proxy.machine ι R).Reachable s.proxy
  sized : s.proxy.Sized
  outside : s.proxy.dispatch.phase ≠ .incoming → s.queueIndex = []
  sockets : s.proxy.dispatch.phase = .incoming →
    (s.queueIndex ++ s.drained).Perm (List.range s.proxy.numSockets)
  fair : Fair s.queueIndex s.handled

variable {s s' : IncomingLoop ι R}

theorem sound_ofProxy {p : Proxy ι R} (h : (Proxy.machine ι R).Reachable p) (hs : p.Sized) :
    (ofProxy p).Sound := by
  refine ⟨h, hs, fun hp => if_neg hp, fun hp => ?_, fair_nil ?_⟩
  · simp [ofProxy, show p.dispatch.phase = .incoming from hp]
  · unfold ofProxy
    split
    · exact List.nodup_range
    · exact List.nodup_nil

/-- The same sockets are still to be looked at. -/
theorem Sound.same (h : s.Sound) {p : Proxy ι R} (hp : (Proxy.machine ι R).Reachable p)
    (hs : Proxy.SameSockets s.proxy p) : Sound { s with proxy := p } where
  reachable := hp
  sized := h.sized.same hs
  outside hne := h.outside (hs.phase ▸ hne)
  sockets heq := by
    rw [hs.numSockets]
    exact h.sockets (hs.phase.symm.trans heq)
  fair := h.fair

theorem Sound.nothing (h : s.Sound) {i : Nat} {queueIndex : List Nat}
    (hq : s.queueIndex = i :: queueIndex) :
    Sound { s with queueIndex, drained := s.drained ++ [i] } where
  reachable := h.reachable
  sized := h.sized
  outside hne := absurd (h.outside hne) (by simp [hq])
  sockets hp := by
    refine .trans ?_ (h.sockets hp)
    rw [hq, ← List.append_assoc]
    exact List.perm_append_singleton i _
  fair := (hq ▸ h.fair).leave

theorem Sound.requeue (h : s.Sound) {i : Nat} {queueIndex : List Nat}
    (hq : s.queueIndex = i :: queueIndex) :
    Sound { s with queueIndex := queueIndex ++ [i], handled := s.handled ++ [i] } where
  reachable := h.reachable
  sized := h.sized
  outside hne := absurd (h.outside hne) (by simp [hq])
  sockets hp := by
    refine .trans ?_ (h.sockets hp)
    rw [hq]
    exact (List.perm_append_singleton i _).append_right _
  fair := (hq ▸ h.fair).serve

theorem Sound.step (h : s.Sound) {e : Event ι R} (hs : s.step e = some s') : s'.Sound := by
  unfold IncomingLoop.step at hs
  split at hs
  case h_1 =>
    split at hs
    · rename_i i queueIndex hq
      obtain rfl := Option.some.inj hs
      exact h.nothing hq
    · cases hs
  case h_2 m =>
    split at hs
    · rename_i i queueIndex hq
      split at hs
      · obtain ⟨p, hp, rfl⟩ := Option.map_eq_some_iff.mp hs
        have hreach : (Proxy.machine ι R).Reachable p :=
          .step (e := ProxyEvent.incoming m) h.reachable hp
        obtain hleft | hsame := Proxy.incoming_sockets hp
        · rw [if_neg hleft]
          exact sound_ofProxy hreach fun hin => absurd hin hleft
        · have hloop := (h.same hreach hsame).requeue hq
          split
          · exact hloop
          · rename_i hne
            exact absurd (h.outside (hsame.phase ▸ hne)) (by simp [hq])
      · cases hs
    · cases hs
  case h_3 => cases hs
  case h_4 => cases hs
  case h_5 e hm hn =>
    obtain ⟨p, hp, rfl⟩ := Option.map_eq_some_iff.mp hs
    have hreach := h.reachable.step (e := e) hp
    obtain hsame | ⟨hphase, hout⟩ := Proxy.step_sockets hn hm hp
    · exact h.same hreach hsame
    · have hout' : p.dispatch.phase ≠ .incoming := hphase ▸ hout
      exact ⟨hreach, fun hin => absurd hin hout', fun _ => h.outside hout,
        fun hin => absurd hin hout', h.fair⟩
  case h_6 =>
    split at hs
    · obtain ⟨p, hp, rfl⟩ := Option.map_eq_some_iff.mp hs
      exact sound_ofProxy (h.reachable.step (e := .next) hp) (Proxy.sized_next hp)
    · cases hs

theorem sound_of_reachable (h : (machine ι R).Reachable s) : s.Sound := by
  refine h.invariant ?_ fun s e s' hs => hs.step
  rintro s ⟨p, hinit, rfl⟩
  have hp : p.dispatch.phase = .control := by
    obtain ⟨cfg, listeners, sns, commands, localServiceNode, -, rfl⟩ := hinit
    rfl
  have hout : p.dispatch.phase ≠ .incoming := by simp [hp]
  exact ⟨.init hinit, fun hin => absurd hin hout, fun _ => rfl, fun hin => absurd hin hout,
    fair_nil List.nodup_nil⟩

/-- With its queue of socket indices the proxy does nothing that it could not do
without. While it reads messages every socket is either still to be looked at or was
found empty, none twice, and no socket is more than one message ahead of one that is
still to be looked at. -/
theorem round_robin (h : (machine ι R).Reachable s) :
    (Proxy.machine ι R).Reachable s.proxy ∧ (s.proxy.dispatch.phase = .incoming →
      (s.queueIndex ++ s.drained).Perm (List.range s.proxy.conns.connections.length) ∧
      ∀ i, ∀ j ∈ s.queueIndex, s.handled.count i ≤ s.handled.count j + 1) := by
  have hs := sound_of_reachable h
  refine ⟨hs.reachable, fun hp => ⟨?_, fun i j hj => hs.fair.count_le hj i⟩⟩
  rw [← hs.sized hp]
  exact hs.sockets hp

theorem round_robin_with_two_sockets : ∃ s, (machine Unit Unit).Reachable s ∧
    s.queueIndex = [1, 0] ∧ s.handled = [0, 1, 0] ∧ (Proxy.machine Unit Unit).Reachable s.proxy ∧
    (s.queueIndex ++ s.drained).Perm (List.range s.proxy.conns.connections.length) ∧
    ∀ i, ∀ j ∈ s.queueIndex, s.handled.count i ≤ s.handled.count j + 1 := by
  have hinit : (machine Unit Unit).Reachable { proxy := Proxy.sample } :=
    .init ⟨_, ⟨_, _, _, _, _, by decide +kernel, rfl⟩, rfl⟩
  obtain ⟨s, hreach, hstate⟩ := hinit.exists_of_run
    [.other .requestConn,
      .other (.connectRemote Proxy.sampleNetwork 0
        { connId := 2, connect := 0, failure := 1, remote := bytes "tcp://1:1" }),
      .next, .next, .next, .next, .next, .nothing, .nothing, .next, .next, .next, .next,
      .other (.zap [bytes "1.0", bytes "1", bytes "i0e", bytes "::1", [], bytes "CURVE",
        Proxy.sampleKey]), .next, .next,
      .message { index := 0, session := some (0, bytes "r"), parts := [bytes "HI"], now := 0 },
      .message { index := 1, parts := [bytes "HI"], now := 0 },
      .message { index := 0, session := some (0, bytes "r"), parts := [bytes "HI"], now := 0 }]
    (p := fun s => decide (s.proxy.dispatch.phase = .incoming ∧ s.queueIndex = [1, 0] ∧
      s.handled = [0, 1, 0])) (by decide +kernel)
  obtain ⟨hp, hqueue, hhandled⟩ := of_decide_eq_true hstate
  obtain ⟨hproxy, hloop⟩ := round_robin hreach
  exact ⟨s, hreach, hqueue, hhandled, hproxy, hloop hp⟩

end IncomingLoop

end ArqmaMQ
