import ArqmaMQ.Listeners
import ArqmaMQ.PendingConnects
import ArqmaMQ.RequestTimeouts

/-! What a cleanup closes: the connections that have been idle for too long and those
that were not established in time, and nothing else. -/

namespace ArqmaMQ

open Renumber Sweep

namespace Connections

variable {c c' c'' : Connections} {gone gone' : Socket → Bool}

/-- Some sockets are closed: they go from all tables, and nothing else changes but
indices. -/
structure Closes (gone : Socket → Bool) (c c' : Connections) : Prop where
  sockets : c'.connections.zip c'.connIndexToId =
    (c.connections.zip c.connIndexToId).filter (!gone ·.1)
  peers : c'.peers.map detached = (c.peers.map detached).filter (!gone ·.2.socket)
  pendingConnects : c'.pendingConnects.map unindexed =
    (c.pendingConnects.map unindexed).filter (!gone ·.socket)
  bind : c'.bind.map unindexedBind = (c.bind.map unindexedBind).filter (!gone ·.socket)
  listening : c'.incomingConnIndex.map unindexedListen =
    (c.incomingConnIndex.map unindexedListen).filter (!gone ·.socket)
  activeServiceNodes : c'.activeServiceNodes = c.activeServiceNodes
  nextSocket : c'.nextSocket = c.nextSocket

namespace Closes

theorem refl (c : Connections) : c.Closes (fun _ => false) c := by
  constructor <;> simp

theorem trans (h : c.Closes gone c') (h' : c'.Closes gone' c'') :
    c.Closes (fun s => gone s || gone' s) c'' := by
  constructor
  · rw [h'.sockets, h.sockets, List.filter_filter]
    simp only [Bool.not_or, Bool.and_comm]
  · rw [h'.peers, h.peers, List.filter_filter]
    simp only [Bool.not_or, Bool.and_comm]
  · rw [h'.pendingConnects, h.pendingConnects, List.filter_filter]
    simp only [Bool.not_or, Bool.and_comm]
  · rw [h'.bind, h.bind, List.filter_filter]
    simp only [Bool.not_or, Bool.and_comm]
  · rw [h'.listening, h.listening, List.filter_filter]
    simp only [Bool.not_or, Bool.and_comm]
  · exact h'.activeServiceNodes.trans h.activeServiceNodes
  · exact h'.nextSocket.trans h.nextSocket

theorem connections (h : c.Closes gone c') (hc : c.Consistent) (hc' : c'.Consistent) :
    c'.connections = c.connections.filter (!gone ·) := by
  have hfst := congrArg (List.map Prod.fst) h.sockets
  have hcomp : (fun x : Socket × ConnectionID => !gone x.1) = (fun s => !gone s) ∘ Prod.fst := rfl
  rw [List.map_fst_zip hc'.length.ge, hcomp, ← List.filter_map, List.map_fst_zip hc.length.ge]
    at hfst
  exact hfst

end Closes

theorem Consistent.closes_closeConnection (h : c.Consistent) {k : Nat} {s : Socket}
    (hk : c.connections[k]? = some s) : c.Closes (· = s) (c.closeConnection k) := by
  have hneg {α : Type} (g : α → Socket) (l : List α) :
      l.filter (fun a => !decide (g a = s)) = l.filter (g · ≠ s) :=
    List.filter_congr fun a _ => by simp
  constructor
  · obtain ⟨id, hid⟩ : ∃ id, c.connIndexToId[k]? = some id := by
      have hlt := (List.getElem?_eq_some_iff.mp hk).1
      exact ⟨_, List.getElem?_eq_getElem (h.length ▸ hlt)⟩
    refine (zip_eraseIdx ..).trans ?_
    rw [hneg Prod.fst]
    have hpos : (c.connections.zip c.connIndexToId)[k]? = some (s, id) := by
      rw [List.getElem?_zip_eq_some]
      exact ⟨hk, hid⟩
    refine (filter_ne_eq_eraseIdx hpos fun j b hj hb => ?_).symm
    have hjs := (List.getElem?_zip_eq_some.mp hj).1
    refine (List.getElem?_inj (List.getElem?_eq_some_iff.mp hjs).1 h.nodup).mp ?_
    rw [hjs, hk, hb]
  · rw [hneg fun e : ConnectionID × PeerInfo => e.2.socket]
    exact h.peers.map_update_of_getElem? detached _ h.nodup (fun _ _ => rfl) (fun _ => rfl) hk
  · rw [hneg PendingConnect.socket]
    exact h.pendingConnects.map_update_of_getElem? unindexed _ h.nodup (fun _ _ => rfl)
      (fun _ => rfl) hk
  · rw [hneg BindData.socket]
    exact h.bind.map_update_of_getElem? unindexedBind _ h.nodup (fun _ _ => rfl) (fun _ => rfl) hk
  · rw [hneg ListenIndex.socket]
    exact h.listening.map_update_of_getElem? unindexedListen _ h.nodup (fun _ _ => rfl)
      (fun _ => rfl) hk
  · rfl
  · rfl

theorem Closes.congr (h : c.Closes gone c') (hg : ∀ s, gone s = gone' s) : c.Closes gone' c' := by
  obtain rfl : gone = gone' := funext hg
  exact h

/-- An outgoing entry is the only one that goes with its socket. -/
theorem Consistent.detached_closeOutgoing (h : c.Consistent) {pos : Nat}
    {e : ConnectionID × PeerInfo} (he : c.peers[pos]? = some e) (ho : e.2.outgoing = true) :
    (c.closeConnection e.2.connIndex).peers.map detached =
      (c.peers.map detached).eraseIdx pos := by
  rw [h.detached_closeConnection (List.mem_of_getElem? he)]
  refine filter_ne_eq_eraseIdx (f := fun x : ConnectionID × PeerInfo => x.2.socket)
    (a := detached e) (by simp [he]) fun j x hx hs => ?_
  rw [List.getElem?_map] at hx
  obtain ⟨e', he', rfl⟩ := Option.map_eq_some_iff.mp hx
  exact h.entry_unique he ho he' hs

theorem Consistent.closes_proxyExpireIdlePeers (h : c.Consistent) (now : ConnectionID → Int) :
    c.Closes (fun s => c.peers.any fun e => idle now e && e.2.socket = s)
      (c.proxyExpireIdlePeers now) := by
  have hsweep := sweep_all Connections.peers detached (idle now)
    (fun _ e c =>
      if e.2.outgoing ∧ nanos e.2.idleExpiry < int64 (now e.1 - e.2.lastActivity) then
        some (c.closeConnection e.2.connIndex)
      else none)
    (fun entries c' => c'.Consistent ∧ c.Closes (fun s => entries.any (·.2.socket = s)) c')
    ?_ ?_ (s := c) ⟨h, .refl c⟩
  · refine hsweep.2.congr fun s => ?_
    simp only [List.filter_map, List.any_map, List.any_filter]
    rfl
  · intro pos e s hidle
    refine if_neg fun hcond => Bool.eq_false_iff.mp hidle ?_
    rw [idle, Bool.and_eq_true, decide_eq_true_iff]
    exact hcond
  · rintro pos e s entries ⟨hs, hclosed⟩ he hidle
    rw [idle, Bool.and_eq_true, decide_eq_true_iff] at hidle
    have hidx := hs.peers e (List.mem_of_getElem? he)
    refine ⟨_, if_pos hidle, ⟨hs.closeConnection _, ?_⟩, hs.detached_closeOutgoing he hidle.1⟩
    refine (hclosed.trans (hs.closes_closeConnection hidx)).congr fun t => ?_
    simp [detached, eq_comm]

theorem Consistent.closes_timeOutConnects (h : c.Consistent)
    (hn : ((c.pendingConnects.map unindexed).map (·.socket)).Nodup) (now : Int) :
    c.Closes (fun s => c.pendingConnects.any fun pc => pc.expiry < now && pc.socket = s)
      (c.timeOutConnects now).1 := by
  have hsweep := sweep_all (fun s : Connections × List Effect => s.1.pendingConnects) unindexed
    (·.expiry < now)
    (fun pos pc (s : Connections × List Effect) =>
      if pc.expiry < now then
        some ({ s.1 with pendingConnects := s.1.pendingConnects.eraseIdx pos }.closeConnection
          pc.connIndex, s.2 ++ [timedOut pc])
      else none)
    (fun connects s => s.1.Consistent ∧ c.Closes (fun t => connects.any (·.socket = t)) s.1)
    ?_ ?_ (s := (c, [])) ⟨h, .refl c⟩
  · refine hsweep.2.congr fun s => ?_
    simp only [List.filter_map, List.any_map, List.any_filter]
    rfl
  · intro pos pc s hexp
    exact if_neg (of_decide_eq_false hexp)
  · rintro pos pc s connects ⟨hs, hclosed⟩ hpc hexp
    have hidx := hs.pendingConnects pc (List.mem_of_getElem? hpc)
    refine ⟨_, if_pos (of_decide_eq_true hexp), ?_, ?_⟩ <;> dsimp only <;>
      rw [erasePending_closeConnection hpc]
    · refine ⟨hs.closeConnection _, ?_⟩
      refine (hclosed.trans (hs.closes_closeConnection hidx)).congr fun t => ?_
      simp [unindexed, eq_comm]
    · refine (hs.pending_closeConnection hidx).trans ?_
      have hnd : ((s.1.pendingConnects.map unindexed).map (·.socket)).Nodup := by
        rw [hclosed.pendingConnects]
        exact hn.sublist (List.filter_sublist.map _)
      refine filter_ne_eq_eraseIdx (f := fun x : PendingConnect => x.socket) (a := unindexed pc)
        (by simp [hpc]) fun j x hx hxs => ?_
      have hj : ((s.1.pendingConnects.map unindexed).map (·.socket))[j]? = some pc.socket := by
        rw [List.getElem?_map, hx]
        exact congrArg some hxs
      refine (List.getElem?_inj (List.getElem?_eq_some_iff.mp hj).1 hnd).mp (hj.trans ?_)
      simp [hpc, unindexed]

/-- An outgoing connection has been idle for longer than it is to be kept. Clock
readings count nanoseconds and the time to keep it milliseconds. -/
def outlived (clock : ConnectionID → Int) (e : ConnectionID × PeerInfo) : Bool :=
  e.2.outgoing && e.2.idleExpiry * 1000000 < clock e.1 - e.2.lastActivity

/-- The times that are compared fit 64 bits of nanoseconds, some 292 years. -/
def TimesFit (c : Connections) (clock : ConnectionID → Int) : Prop :=
  ∀ e ∈ c.peers, e.2.outgoing = true →
    (-2 ^ 63 ≤ e.2.idleExpiry * 1000000 ∧ e.2.idleExpiry * 1000000 < 2 ^ 63) ∧
      -2 ^ 63 ≤ clock e.1 - e.2.lastActivity ∧ clock e.1 - e.2.lastActivity < 2 ^ 63

instance (c : Connections) (clock : ConnectionID → Int) : Decidable (c.TimesFit clock) :=
  inferInstanceAs (Decidable (∀ e ∈ c.peers, _))

theorem int64_of_fits {x : Int} (h : -2 ^ 63 ≤ x) (h' : x < 2 ^ 63) : int64 x = x :=
  Int.bmod_eq_of_le (by omega) (by omega)

theorem TimesFit.idle_eq {clock : ConnectionID → Int} (h : c.TimesFit clock)
    {e : ConnectionID × PeerInfo} (he : e ∈ c.peers) : idle clock e = outlived clock e := by
  rw [idle, outlived]
  cases ho : e.2.outgoing with
  | false => rfl
  | true =>
    obtain ⟨⟨hlow, hhigh⟩, hlow', hhigh'⟩ := h e he ho
    rw [nanos, int64_of_fits hlow hhigh, int64_of_fits hlow' hhigh']

theorem TimesFit.any_idle {clock : ConnectionID → Int} (h : c.TimesFit clock) (s : Socket) :
    (c.peers.any fun e => idle clock e && e.2.socket = s) =
      c.peers.any fun e => outlived clock e && e.2.socket = s := by
  rw [Bool.eq_iff_iff, List.any_eq_true, List.any_eq_true]
  exact exists_congr fun e => and_congr_right fun he => by rw [h.idle_eq he]

/-- A connection that a cleanup closes. -/
def overdue (c : Connections) (clock : ConnectionID → Int) (now : Int) (s : Socket) : Bool :=
  (c.peers.any fun e => outlived clock e && e.2.socket = s) ||
    c.pendingConnects.any fun pc => pc.expiry < now && pc.socket = s

theorem Consistent.closes_overdue (h : c.Consistent)
    (hn : ((c.pendingConnects.map unindexed).map (·.socket)).Nodup) {clock : ConnectionID → Int}
    (hfit : c.TimesFit clock) (now : Int) :
    c.Closes (c.overdue clock now) ((c.proxyExpireIdlePeers clock).timeOutConnects now).1 := by
  have hidle := h.closes_proxyExpireIdlePeers clock
  have hnd : (((c.proxyExpireIdlePeers clock).pendingConnects.map unindexed).map
      (·.socket)).Nodup := by
    rw [hidle.pendingConnects]
    exact hn.sublist (List.filter_sublist.map _)
  refine (hidle.trans ((h.proxyExpireIdlePeers clock).closes_timeOutConnects hnd now)).congr
    fun s => ?_
  -- a connect whose connection was idle is gone before the connects are looked at
  have hany (pcs : List PendingConnect) : (pcs.any fun pc => pc.expiry < now && pc.socket = s) =
      (pcs.map unindexed).any fun pc => pc.expiry < now && pc.socket = s := by
    rw [List.any_map]
    rfl
  rw [overdue, ← hfit.any_idle, hany, hany c.pendingConnects, hidle.pendingConnects,
    List.any_filter]
  cases hgone : c.peers.any fun e => idle clock e && e.2.socket = s with
  | true => rfl
  | false =>
    rw [Bool.false_or, Bool.false_or]
    refine List.any_congr rfl fun pc => ?_
    by_cases hs : pc.socket = s
    · simp [hs, hgone]
    · simp [hs]

/-- Failures are reported for the connects that are overdue, unless they were idle. -/
theorem Consistent.timedOut_overdue (h : c.Consistent)
    (hn : ((c.pendingConnects.map unindexed).map (·.socket)).Nodup) {clock : ConnectionID → Int}
    (hfit : c.TimesFit clock) (now : Int) :
    ((c.proxyExpireIdlePeers clock).timeOutConnects now).2 =
      (c.pendingConnects.filter fun pc => pc.expiry < now &&
        !c.peers.any fun e => outlived clock e && e.2.socket = pc.socket).map timedOut := by
  simp only [← hfit.any_idle]
  have hexpire := h.pending_proxyExpireIdlePeers clock
  have hnd : (((c.proxyExpireIdlePeers clock).pendingConnects.map unindexed).map
      (·.socket)).Nodup := by
    rw [hexpire]
    exact hn.sublist (List.filter_sublist.map _)
  rw [((h.proxyExpireIdlePeers clock).timeOutConnects_spec hnd now).2, hexpire,
    List.filter_filter, List.filter_map, List.map_map]
  rfl

end Connections

namespace Proxy

variable {ι R : Type} [DecidableEq ι] [Fintype ι] {p : Proxy ι R}

/-- All of a cleanup: the sockets it closes are those of idle and of overdue connections,
none of them a listening one; of the requests those go that have timed out; and the callbacks
that tell of it are scheduled, but none for a connect whose connection was idle. Times are
compared in 64 bits, which must hold them, and the index of a connect that has timed out is
taken to be read before its entry is erased. -/
theorem cleanup_closes_overdue (h : (machine ι R).Reachable p) (hp : p.dispatch.phase = .timers)
    {clock : ConnectionID → Int} (hfit : p.conns.TimesFit clock) (now : Int) :
    ∃ p', p.step (.cleanup clock now) = some p' ∧
      p.conns.Closes (p.conns.overdue clock now) p'.conns ∧
      (∀ s, p.conns.overdue clock now s = true → s.dealer = true) ∧
      p'.pendingRequests = p.pendingRequests.filter (¬ ·.2.expiry < now) ∧
      p'.scheduled = p.scheduled ++
        (p.conns.pendingConnects.filter fun pc => pc.expiry < now &&
          !p.conns.peers.any fun e => Connections.outlived clock e && e.2.socket = pc.socket).map
            (fun pc => .connectFailure pc.onFailure { id := pc.connId }
              (bytes "connection attempt timed out")) ++
        (p.pendingRequests.filter (·.2.expiry < now)).map
          (fun r => .reply r.2.callback false [bytes "TIMEOUT"]) := by
  have hcons := consistent_of_reachable h
  have hident := identified_of_reachable h
  obtain ⟨p', hp'⟩ := exists_proxyConnCleanup p clock now
  refine ⟨p', (if_pos hp).trans hp', ?_⟩
  obtain ⟨d, hd, hp'⟩ := Option.bind_eq_some_iff.mp hp'
  obtain rfl := Option.some.inj hp'
  refine ⟨hcons.closes_overdue hident.sockets hfit now, fun s hs => ?_, rfl, ?_⟩
  · rcases Bool.or_eq_true_iff.mp hs with hs | hs
    · obtain ⟨e, he, hs⟩ := List.any_eq_true.mp hs
      obtain ⟨hidle, rfl⟩ : Connections.outlived clock e = true ∧ e.2.socket = s := by
        simpa using hs
      exact (hcons.dealers e he).trans (Bool.and_eq_true_iff.mp hidle).1
    · obtain ⟨pc, hpc, hs⟩ := List.any_eq_true.mp hs
      obtain ⟨-, rfl⟩ : pc.expiry < now ∧ pc.socket = s := by simpa using hs
      exact (hident.pending _ (List.mem_map_of_mem hpc)).1
  · have hd : p.dispatch.perform (((p.conns.proxyExpireIdlePeers clock).timeOutConnects now).2 ++
        (p.pendingRequests.timeOut now).2) = some d := hd
    have hsched := (Dispatch.schedules_perform hd).closures
    rw [hcons.timedOut_overdue hident.sockets hfit, List.map_append, List.map_map, Requests.timeOut,
      List.map_map] at hsched
    rw [List.append_assoc]
    exact hsched

/-- A connection to a service node that is not kept alive is closed, and the listening
socket stays. -/
theorem cleanup_closes_overdue_of_idle : ∃ p p' : Proxy Unit Unit, (machine Unit Unit).Reachable p ∧
    p.conns.connections = [⟨0, false⟩, ⟨1, true⟩] ∧ p.step (.cleanup (fun _ => 1) 1) = some p' ∧
      p'.conns.connections = [⟨0, false⟩] := by
  let events : List (ProxyEvent Unit Unit) :=
    [.control (.connectSn sampleNetwork 0 { keepAlive := 0, pubkey := some sampleKey }),
      .next, .next]
  obtain ⟨p, hp, hq⟩ := sample_reachable.exists_of_run events
    (p := fun p => decide (p.conns.connections = [⟨0, false⟩, ⟨1, true⟩] ∧
      p.dispatch.phase = .timers ∧ p.conns.TimesFit (fun _ => 1) ∧
      p.conns.overdue (fun _ => 1) 1 ⟨0, false⟩ = false ∧
      p.conns.overdue (fun _ => 1) 1 ⟨1, true⟩ = true)) (by decide +kernel)
  obtain ⟨hsockets, hphase, hfit, hstays, hgoes⟩ := of_decide_eq_true hq
  obtain ⟨p', hs, hcloses, -⟩ := cleanup_closes_overdue hp hphase hfit 1
  refine ⟨p, p', hp, hsockets, hs, ?_⟩
  rw [hcloses.connections (consistent_of_reachable hp)
    (consistent_of_reachable (hp.step (e := .cleanup (fun _ => 1) 1) hs)), hsockets]
  simp [hstays, hgoes]

end Proxy

end ArqmaMQ
