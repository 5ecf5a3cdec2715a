import ArqmaMQ.ConnectionIndices
import ArqmaMQ.ProxySteps
import ArqmaMQ.SendFailover

/-! In every state of the proxy the indices its tables hold denote the sockets
they were stored for. -/

namespace ArqmaMQ

namespace SendState

variable {env : SendEnv} {o : SendOptions} {s s' : SendState}

@[simp] theorem conns_finish (s : SendState) (r : SendOutcome) :
    (s.finish r).conns = s.conns := by
  cases r <;> simp only [finish, fail] <;> split <;> rfl

theorem consistent_target {t : Option Nat} (h : s.conns.Consistent)
    (ht : s.target env o = some (t, s')) : s'.conns.Consistent := by
  obtain rfl | ⟨r, c, conn, hc, rfl⟩ := target_eq_some ht
  · exact h
  · exact h.proxyConnectSn hc

/-- Only entries with a route are removed. -/
theorem consistent_removePeer {fuel : Nat} {retry : Bool} (h : s.conns.Consistent)
    (hr : s.removePeer fuel = some (retry, s')) : s'.conns.Consistent := by
  obtain rfl | ⟨hroute, it, hit, hsn, rfl⟩ := removePeer_eq_some hr
  · exact h
  obtain ⟨hi, heq⟩ := Connections.mem_equalRange.mp hit
  refine h.eraseRouted hi ?_
  by_cases hs : s.conn.sn = true
  · rw [PeerInfo.outgoing, hsn hs]
    simpa using hroute
  · have hkey := h.keys it.1 (List.mem_of_getElem? hi)
    simp only [ConnectionID.eq, hs, Bool.and_false, Bool.false_eq_true, if_false,
      Bool.and_eq_true, beq_iff_eq] at heq
    exact absurd (heq.2.symm.trans hkey) hroute

theorem consistent_sendLoop {fuel : Nat} (h : s.conns.Consistent)
    (hs : sendLoop env o fuel s = some s') : s'.conns.Consistent := by
  refine sendLoop_invariant (P := fun s => s.conns.Consistent) ?_ ?_ ?_ ?_ h hs
  · exact fun s t s' h ht => consistent_target h ht
  · exact fun s fuel retry s' h hr => consistent_removePeer h hr
  · exact fun s a h => h
  · intro s r h
    rw [conns_finish]
    exact h

end SendState

namespace Connections

variable {c c' : Connections}

/-- Fields that no index depends on. -/
theorem Consistent.frame (h : c.Consistent) {stale : Bool} {n : Int} {ids : List Int} :
    { c with pollitemsStale := stale, nextConnId := n, requestedIds := ids }.Consistent :=
  ⟨⟨h.length, h.bind, h.listening⟩, h.peers, h.pendingConnects, h.dealers, h.keys, h.routers,
    h.nodup, h.fresh, h.outgoing, h.serviceNodes⟩

theorem Consistent.replyLoop {conn : ConnectionID} {rounds skip : Nat}
    {outcome : Nat → SendOutcome} (h : c.Consistent)
    (hc : replyLoop conn rounds outcome skip c = some c') : c'.Consistent := by
  induction rounds generalizing outcome skip c with
  | zero =>
    obtain rfl := Option.some.inj hc
    exact h
  | succ rounds ih =>
    unfold Connections.replyLoop at hc
    split at hc
    · obtain rfl := Option.some.inj hc
      exact h
    rename_i e i hit
    have hi := (mem_equalRange.mp (List.mem_of_getElem? hit)).1
    split at hc
    · split at hc
      · cases hc
      · rename_i hout
        exact ih (h.eraseRouted hi (Bool.eq_false_iff.mpr hout)) hc
    · exact ih h hc
    · obtain rfl := Option.some.inj hc
      exact h

theorem Consistent.control {msg : ConnControl} (h : c.Consistent) (hc : c.control msg = some c') :
    c'.Consistent := by
  cases msg with
  | reply conn outcome => exact h.replyLoop hc
  | connectSn net now data =>
    obtain ⟨pk, -, hc⟩ := Option.bind_eq_some_iff.mp hc
    obtain ⟨⟨r, c₁⟩, hc₁, hc⟩ := Option.bind_eq_some_iff.mp hc
    obtain rfl := Option.some.inj hc
    exact h.proxyConnectSn hc₁
  | disconnect data =>
    simp only [Connections.control, proxyDisconnect] at hc
    split at hc
    · cases hc
    · obtain rfl := Option.some.inj hc
      exact h.disconnect _
  | setSns pubkeys =>
    simp only [Connections.control] at hc
    split at hc
    · exact h.proxySetActiveSns hc
    · cases hc
  | updateSns added removed =>
    simp only [Connections.control] at hc
    split at hc
    · exact h.proxyUpdateActiveSnsClean hc
    · cases hc

theorem Consistent.hello (h : c.Consistent) (connIndex : Nat) :
    (c.hello connIndex).1.Consistent := by
  unfold Connections.hello
  split
  · split
    · exact h
    · exact ⟨⟨h.length, h.bind, h.listening⟩, h.peers,
        h.pendingConnects.mono List.eraseP_sublist.subset, h.dealers, h.keys, h.routers, h.nodup,
        h.fresh, h.outgoing, h.serviceNodes⟩
  · exact h

theorem Consistent.incomingSender (h : c.Consistent) {connIndex : Nat} {socket : Socket}
    {route : Bytes} (m : Properties) (hs : c.connections[connIndex]? = some socket)
    (hd : socket.dealer = false) (hr : route ≠ []) :
    (c.incomingSender connIndex socket route m).conns.Consistent := by
  unfold Connections.incomingSender
  dsimp only
  split
  · split
    · exact h.modifyPeer (f := fun p => { p with authLevel := _ }) _ fun _ => ⟨rfl, rfl, rfl⟩
    · exact h.addRouted (by simpa [PeerInfo.outgoing] using hr) rfl hs hd
  · exact h

end Connections

namespace Proxy

variable {ι R : Type} [DecidableEq ι] {p p' : Proxy ι R}

omit [DecidableEq ι] in
theorem consistent_sender {m : Incoming} {l : Link} {sender : Sender} (h : p.conns.Consistent)
    (hl : p.link m = some l) (hs : l.sender = some sender) : sender.conns.Consistent := by
  obtain ⟨hsocket, -, hout | ⟨route, answer, hin⟩⟩ := link_cases hl
  · obtain ⟨id, e, i, -, -, rfl⟩ := Connections.outgoingSender_eq_some (hout.sender ▸ hs)
    exact h
  · obtain rfl := Option.some.inj (hin.sender.symm.trans hs)
    exact h.incomingSender _ hsocket hin.dealer hin.ne_nil

theorem consistent_act (h : p.conns.Consistent) (hact : Act p p') : p'.conns.Consistent := by
  cases hact with
  | requestConn => exact h.frame
  | send env o expiry _ hs _ => exact SendState.consistent_sendLoop h hs
  | control msg hc => exact h.control hc
  | connectRemote net now data _ hc _ => exact (h.proxyConnectRemote hc).frame
  | cleanup clock now _ => exact (h.proxyExpireIdlePeers clock).timeOutConnects now
  | @builtin d l m hl _ =>
    change (p.builtin m l).conns.Consistent
    rcases p.builtin_case m l with hc | ⟨-, -, -, hc⟩ | ⟨-, -, -, hc⟩ | ⟨-, hc⟩ | ⟨-, hc⟩
    · exact hc ▸ h
    · exact hc ▸ h
    · exact hc ▸ h
    · exact hc ▸ h.hello m.index
    · exact hc ▸ h.closeConnection m.index
  | refuse m sent hl hs => exact consistent_sender h hl hs
  | command m name data hl hs _ _ _ => exact consistent_sender h hl hs
  | touch i now =>
    unfold Proxy.touch
    split
    · exact h.modifyPeer (f := fun e => e.activity now) _ fun _ => ⟨rfl, rfl, rfl⟩
    · exact h
  | rehash peers requests hp _ => exact h.rehash hp
  | next hn =>
    obtain ⟨d, stale, -, rfl⟩ := next_eq_some hn
    exact h.frame
  | _ => exact h

end Proxy

/-- Every index is in range and denotes the socket its entry was made for; an
outgoing socket has its one entry, under the id of its index; an entry with a
route belongs to a listening socket; and no service node has two outgoing
entries. -/
structure Connections.Indexed (c : Connections) : Prop where
  length : c.connections.length = c.connIndexToId.length
  peers : ∀ e ∈ c.peers, c.connections[e.2.connIndex]? = some e.2.socket
  pendingConnects : ∀ pc ∈ c.pendingConnects, c.connections[pc.connIndex]? = some pc.socket
  incomingConnIndex : ∀ l ∈ c.incomingConnIndex, c.connections[l.index]? = some l.socket
  bind : ∀ b ∈ c.bind, c.connections[b.index]? = some b.socket
  outgoing : ∀ (i : Nat) s, c.connections[i]? = some s → s.dealer = true →
    ∃ id, c.connIndexToId[i]? = some id ∧
      (c.peers.filter fun e => e.2.route = [] ∧ e.2.connIndex = i).map Prod.fst = [id]
  routed : ∀ e ∈ c.peers, e.2.route ≠ [] → e.2.socket.dealer = false ∧
    ∃ l ∈ c.incomingConnIndex, l.index = e.2.connIndex
  serviceNodes : ∀ pk : Bytes,
    c.peers.countP (fun e => e.1.sn ∧ e.1.pk = pk ∧ e.2.route = []) ≤ 1

theorem Connections.Consistent.indexed {c : Connections} (h : c.Consistent) : c.Indexed := by
  have hlinks : links (c.peers.map view) =
      (c.peers.filter (·.2.outgoing)).map fun e => (e.1, e.2.socket) := by
    simp only [links, List.filter_map, List.map_map]
    rfl
  refine ⟨h.length.symm, h.peers, h.pendingConnects, h.listening, h.bind, ?_, ?_, ?_⟩
  · intro i s hs hd
    have hlt := (List.getElem?_eq_some_iff.mp hs).1
    have hid := List.getElem?_eq_getElem (h.length ▸ hlt : i < c.connIndexToId.length)
    refine ⟨_, hid, ?_⟩
    rw [← h.outgoing i s _ hs hd hid, hlinks, List.filter_map, List.map_map, List.filter_filter]
    refine congrArg (List.map _) (List.filter_congr fun e he => ?_)
    have hidx : e.2.connIndex = i ↔ e.2.socket = s := by
      constructor
      · rintro rfl
        exact Option.some.inj ((h.peers e he).symm.trans hs)
      · rintro rfl
        exact ((List.getElem?_inj hlt h.nodup).mp (hs.trans (h.peers e he).symm)).symm
    rw [Bool.eq_iff_iff]
    simp [PeerInfo.outgoing, hidx, and_comm]
  · intro e he hr
    have hd : e.2.socket.dealer = false := by
      rw [h.dealers e he, PeerInfo.outgoing]
      simpa using hr
    obtain ⟨l, hl, hls⟩ := h.routers _ (List.mem_of_getElem? (h.peers e he)) hd
    have hlt := (List.getElem?_eq_some_iff.mp (h.listening l hl)).1
    refine ⟨hd, l, hl, (List.getElem?_inj hlt h.nodup).mp ?_⟩
    exact ((h.listening l hl).trans (congrArg some hls)).trans (h.peers e he).symm
  · intro pk
    refine le_trans (le_of_eq ?_) (h.serviceNodes { id := ConnectionID.snId, pk } rfl)
    rw [hlinks, List.countP_map, List.countP_filter]
    refine List.countP_congr fun e he => ?_
    simp [ConnectionID.eq_of_sn, ConnectionID.sn, PeerInfo.outgoing, and_assoc]

theorem Proxy.consistent_of_reachable {ι R : Type} [DecidableEq ι] [Fintype ι] {p : Proxy ι R}
    (h : (Proxy.machine ι R).Reachable p) : p.conns.Consistent := by
  refine Proxy.reachable_invariant (P := fun p => p.conns.Consistent) ?_ ?_ h
  · intro _ listeners sns _ _
    exact (Connections.Consistent.start listeners sns).frame
  · exact fun p p' hp hact => Proxy.consistent_act hp hact

theorem Proxy.indexed_of_reachable {ι R : Type} [DecidableEq ι] [Fintype ι] {p : Proxy ι R}
    (h : (Proxy.machine ι R).Reachable p) : p.conns.Indexed :=
  (Proxy.consistent_of_reachable h).indexed

/-- A connection to a service node is closed, and the tables follow the one
behind it. -/
theorem Proxy.indexed_after_close : ∃ p : Proxy Unit Unit, (Proxy.machine Unit Unit).Reachable p ∧
    p.conns.peers.map (·.2.connIndex) = [1] ∧ p.conns.pendingConnects.map (·.connIndex) = [1] ∧
    p.conns.nextSocket = 3 ∧ p.conns.Indexed := by
  obtain ⟨p, hp, hstate⟩ := Proxy.sample_reachable.exists_of_run
    [.control (.connectSn Proxy.sampleNetwork 0 { keepAlive := 0, pubkey := some Proxy.sampleKey }),
      .requestConn,
      .connectRemote Proxy.sampleNetwork 0
        { connId := 2, connect := 0, failure := 1, remote := bytes "tcp://2:2" },
      .control (.disconnect { pubkey := Proxy.sampleKey })]
    (p := fun p => decide (p.conns.peers.map (·.2.connIndex) = [1] ∧
      p.conns.pendingConnects.map (·.connIndex) = [1] ∧ p.conns.nextSocket = 3)) (by decide +kernel)
  obtain ⟨hpeers, hpending, hsockets⟩ := of_decide_eq_true hstate
  exact ⟨p, hp, hpeers, hpending, hsockets, Proxy.indexed_of_reachable hp⟩

end ArqmaMQ
