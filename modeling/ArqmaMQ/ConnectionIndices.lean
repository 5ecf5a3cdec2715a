import ArqmaMQ.Connections

/-! The tables of the proxy refer to the right sockets: what the operations on
connections keep. -/

namespace ArqmaMQ

open Renumber Sweep

namespace Connections

variable {c : Connections}

/-- The peers without what the operations may change. -/
def view (e : ConnectionID × PeerInfo) : ConnectionID × Socket × Bool :=
  (e.1, e.2.socket, e.2.outgoing)

/-- The outgoing entries among the peers. -/
def links (vs : List (ConnectionID × Socket × Bool)) : List (ConnectionID × Socket) :=
  (vs.filter (·.2.2)).map fun v => (v.1, v.2.1)

/-- Every socket has an id, and the listening addresses refer to their sockets. -/
structure Aligned (c : Connections) : Prop where
  length : c.connIndexToId.length = c.connections.length
  bind : Denotes bindSlot (·.socket) c.connections c.bind
  listening : Denotes listenSlot (·.socket) c.connections c.incomingConnIndex

theorem Aligned.closeConnection (h : c.Aligned) (k : Nat) : (c.closeConnection k).Aligned := by
  refine ⟨?_, h.bind.erase (fun _ _ => rfl) k, h.listening.erase (fun _ _ => rfl) k⟩
  rw [Connections.closeConnection, List.length_eraseIdx, List.length_eraseIdx, h.length]

theorem Aligned.addOutgoing (h : c.Aligned) (id : ConnectionID)
    (info : Nat → Socket → PeerInfo) : (c.addOutgoing id info).Aligned := by
  refine ⟨?_, h.bind.append _, h.listening.append _⟩
  simp [Connections.addOutgoing, h.length]

structure Consistent (c : Connections) : Prop extends Aligned c where
  peers : Denotes peerSlot (·.2.socket) c.connections c.peers
  pendingConnects : Denotes connectSlot (·.socket) c.connections c.pendingConnects
  dealers : ∀ e ∈ c.peers, e.2.socket.dealer = e.2.outgoing
  keys : ∀ e ∈ c.peers, e.1.route = []
  routers : ∀ s ∈ c.connections, s.dealer = false → ∃ l ∈ c.incomingConnIndex, l.socket = s
  nodup : c.connections.Nodup
  fresh : ∀ s ∈ c.connections, s.handle < c.nextSocket
  outgoing : ∀ (i : Nat) s id, c.connections[i]? = some s → s.dealer = true →
    c.connIndexToId[i]? = some id →
      ((links (c.peers.map view)).filter (·.2 = s)).map Prod.fst = [id]
  serviceNodes : ∀ cid : ConnectionID, cid.sn →
    (links (c.peers.map view)).countP (·.1.eq cid) ≤ 1

namespace Consistent

/-- Closing drops the entries of the socket that is closed. -/
theorem view_closeConnection (h : c.Consistent) (k : Nat) :
    (c.closeConnection k).peers.map view =
      (c.peers.map view).filter fun v => c.connections[k]? ≠ some v.2.1 := by
  exact h.peers.map_update view _ h.nodup (fun _ _ => rfl) (fun _ => rfl) k

theorem links_filter (vs : List (ConnectionID × Socket × Bool)) (q : Socket → Bool) :
    links (vs.filter fun v => q v.2.1) = (links vs).filter fun l => q l.2 := by
  simp only [links, List.filter_map, List.filter_filter, Bool.and_comm]
  rfl

theorem closeConnection (h : c.Consistent) (k : Nat) : (c.closeConnection k).Consistent := by
  have hlinks : links ((c.closeConnection k).peers.map view) =
      (links (c.peers.map view)).filter fun l => c.connections[k]? ≠ some l.2 := by
    rw [h.view_closeConnection k]
    exact links_filter _ fun s => c.connections[k]? ≠ some s
  refine ⟨h.toAligned.closeConnection k, h.peers.erase (fun _ _ => rfl) k,
    h.pendingConnects.erase (fun _ _ => rfl) k, ?_, ?_, ?_,
    h.nodup.sublist (List.eraseIdx_sublist ..), ?_, ?_, ?_⟩
  · intro e he
    obtain ⟨e', he', j, -, rfl⟩ := mem_update.mp he
    exact h.dealers e' he'
  · intro e he
    obtain ⟨e', he', j, -, rfl⟩ := mem_update.mp he
    exact h.keys e' he'
  · intro s hs hd
    obtain ⟨j, hj⟩ := List.mem_iff_getElem?.mp hs
    obtain ⟨i, hi⟩ := exists_renumber k j
    have hsi : c.connections[i]? = some s := by
      rw [← getElem?_eraseIdx_of_renumber _ hi]
      exact hj
    obtain ⟨l, hl, rfl⟩ := h.routers s (List.mem_of_mem_eraseIdx hs) hd
    have hlt := (List.getElem?_eq_some_iff.mp hsi).1
    obtain rfl : i = l.index :=
      (List.getElem?_inj hlt h.nodup).mp (hsi.trans (h.listening l hl).symm)
    exact ⟨_, mem_update.mpr ⟨l, hl, j, hi, rfl⟩, rfl⟩
  · exact fun s hs => h.fresh s (List.mem_of_mem_eraseIdx hs)
  · intro j s id hs hd hid
    obtain ⟨i, hi⟩ := exists_renumber k j
    have hs' : c.connections[i]? = some s := by
      rw [← getElem?_eraseIdx_of_renumber _ hi]
      exact hs
    have hid' : c.connIndexToId[i]? = some id := by
      rw [← getElem?_eraseIdx_of_renumber _ hi]
      exact hid
    have hne : c.connections[k]? ≠ some s := by
      intro hk
      have hlt := (List.getElem?_eq_some_iff.mp hs').1
      rw [renumber_eq_none.mpr ((List.getElem?_inj hlt h.nodup).mp (hs'.trans hk.symm))] at hi
      cases hi
    rw [hlinks, List.filter_filter, ← h.outgoing i s id hs' hd hid']
    congr 1
    refine List.filter_congr fun l _ => ?_
    by_cases hl : l.2 = s <;> simp [hl, hne]
  · intro cid hcid
    rw [hlinks]
    exact (List.filter_sublist.countP_le ..).trans (h.serviceNodes cid hcid)

/-- The peers may change as long as the outgoing entries stay. -/
theorem setPeers {ps : List (ConnectionID × PeerInfo)} (h : c.Consistent)
    (hd : Denotes peerSlot (·.2.socket) c.connections ps)
    (hk : ∀ e ∈ ps, e.2.socket.dealer = e.2.outgoing ∧ e.1.route = [])
    (hl : (links (ps.map view)).Perm (links (c.peers.map view))) :
    { c with peers := ps }.Consistent := by
  refine ⟨⟨h.length, h.bind, h.listening⟩, hd, h.pendingConnects, fun e he => (hk e he).1,
    fun e he => (hk e he).2, h.routers, h.nodup, h.fresh, ?_, ?_⟩
  · intro i s id hs hds hid
    have hperm := (hl.filter (·.2 = s)).map Prod.fst
    rw [h.outgoing i s id hs hds hid] at hperm
    exact List.perm_singleton.mp hperm
  · intro cid hcid
    rw [hl.countP_eq]
    exact h.serviceNodes cid hcid

theorem kind (h : c.Consistent) {e : ConnectionID × PeerInfo} (he : e ∈ c.peers) :
    e.2.socket.dealer = e.2.outgoing ∧ e.1.route = [] :=
  ⟨h.dealers e he, h.keys e he⟩

theorem rehash {ps : List (ConnectionID × PeerInfo)} (h : c.Consistent) (hp : ps.Perm c.peers) :
    { c with peers := ps }.Consistent :=
  h.setPeers (h.peers.mono hp.subset) (fun _ he => h.kind (hp.subset he))
    (((hp.map view).filter _).map _)

theorem eraseRouted (h : c.Consistent) {i : Nat} {e : ConnectionID × PeerInfo}
    (he : c.peers[i]? = some e) (hr : e.2.outgoing = false) :
    { c with peers := c.peers.eraseIdx i }.Consistent := by
  have hsub : (c.peers.eraseIdx i).Sublist c.peers := List.eraseIdx_sublist ..
  refine h.setPeers (h.peers.mono hsub.subset) (fun _ he => h.kind (hsub.subset he)) ?_
  obtain ⟨hlt, rfl⟩ := List.getElem?_eq_some_iff.mp he
  have hperm := ((List.getElem_cons_eraseIdx_perm hlt).map view).filter (·.2.2)
  rw [List.map_cons, List.filter_cons_of_neg (by simpa [view] using hr)] at hperm
  exact hperm.map _

theorem modifyPeer (h : c.Consistent) (i : Nat) {f : PeerInfo → PeerInfo}
    (hf : ∀ p, (f p).connIndex = p.connIndex ∧ (f p).socket = p.socket ∧ (f p).route = p.route) :
    { c with peers := c.peers.modify i fun e => (e.1, f e.2) }.Consistent := by
  have hview : ∀ e : ConnectionID × PeerInfo, view (e.1, f e.2) = view e := by
    intro e
    simp [view, PeerInfo.outgoing, hf]
  have hmem : ∀ e ∈ c.peers.modify i (fun e => (e.1, f e.2)), ∃ e' ∈ c.peers,
      peerSlot.get e = peerSlot.get e' ∧ view e = view e' := by
    intro e he
    obtain ⟨j, hj⟩ := List.mem_iff_getElem?.mp he
    rw [List.getElem?_modify] at hj
    obtain ⟨e', he', rfl⟩ := Option.map_eq_some_iff.mp hj
    refine ⟨e', List.mem_of_getElem? he', ?_⟩
    split
    · exact ⟨(hf e'.2).1, hview e'⟩
    · exact ⟨rfl, rfl⟩
  refine h.setPeers ?_ ?_ ?_
  · intro e he
    obtain ⟨e', he', hget, hv⟩ := hmem e he
    rw [hget, h.peers e' he']
    exact congrArg (fun v => some v.2.1) hv.symm
  · intro e he
    obtain ⟨e', he', -, hv⟩ := hmem e he
    have hk : e.1 = e'.1 := congrArg (fun v => v.1) hv
    have hs : e.2.socket = e'.2.socket := congrArg (fun v => v.2.1) hv
    have ho : e.2.outgoing = e'.2.outgoing := congrArg (fun v => v.2.2) hv
    rw [hk, hs, ho]
    exact h.kind he'
  · have heq : (c.peers.modify i fun e => (e.1, f e.2)).map view = c.peers.map view := by
      refine List.ext_getElem? fun j => ?_
      simp only [List.getElem?_map, List.getElem?_modify]
      rcases c.peers[j]? with _ | e
      · rfl
      · by_cases hij : i = j <;> simp [hij, hview]
    rw [heq]

theorem addRouted (h : c.Consistent) {id : ConnectionID} {p : PeerInfo} (hr : p.outgoing = false)
    (hid : id.route = []) (hs : c.connections[p.connIndex]? = some p.socket)
    (hd : p.socket.dealer = false) :
    { c with peers := c.peers ++ [(id, p)] }.Consistent := by
  refine h.setPeers ?_ ?_ ?_
  · intro e he
    rcases List.mem_append.mp he with he | he
    · exact h.peers e he
    · obtain rfl := List.mem_singleton.mp he
      exact hs
  · intro e he
    rcases List.mem_append.mp he with he | he
    · exact h.kind he
    · obtain rfl := List.mem_singleton.mp he
      exact ⟨hd.trans hr.symm, hid⟩
  · simp [links, view, hr]

theorem mem_connections_of_links (h : c.Consistent) {l : ConnectionID × Socket}
    (hl : l ∈ links (c.peers.map view)) : l.2 ∈ c.connections := by
  obtain ⟨v, hv, rfl⟩ := List.mem_map.mp hl
  obtain ⟨e, he, rfl⟩ := List.mem_map.mp (List.mem_filter.mp hv).1
  exact List.mem_of_getElem? (h.peers e he)

theorem addOutgoing (h : c.Consistent) {id : ConnectionID} {info : Nat → Socket → PeerInfo}
    (hinfo : ∀ i s, (info i s).connIndex = i ∧ (info i s).socket = s ∧ (info i s).route = [])
    (hroute : id.route = []) (hid : id.sn → (links (c.peers.map view)).countP (·.1.eq id) = 0) :
    (c.addOutgoing id info).Consistent := by
  have hnew : ⟨c.nextSocket, true⟩ ∉ c.connections := fun hs => lt_irrefl _ (h.fresh _ hs)
  have hview : view (id, info c.connections.length ⟨c.nextSocket, true⟩) =
      (id, ⟨c.nextSocket, true⟩, true) := by
    simp [view, PeerInfo.outgoing, hinfo]
  have hlinks : links ((c.addOutgoing id info).peers.map view) =
      links (c.peers.map view) ++ [(id, ⟨c.nextSocket, true⟩)] := by
    simp [Connections.addOutgoing, links, hview]
  have hold : (links (c.peers.map view)).filter (·.2 = (⟨c.nextSocket, true⟩ : Socket)) = [] := by
    refine List.filter_eq_nil_iff.mpr fun l hl he => hnew ?_
    rw [← of_decide_eq_true he]
    exact h.mem_connections_of_links hl
  refine ⟨h.toAligned.addOutgoing id info, ?_, h.pendingConnects.append _, ?_, ?_, ?_, ?_, ?_, ?_,
    ?_⟩
  · have hs := (hinfo c.connections.length ⟨c.nextSocket, true⟩).2.1
    have hd := h.peers.concat (a := (id, info c.connections.length ⟨c.nextSocket, true⟩))
      (hinfo _ _).1
    rw [hs] at hd
    exact hd
  · intro e he
    rcases List.mem_append.mp he with he | he
    · exact h.dealers e he
    · obtain rfl := List.mem_singleton.mp he
      simp [PeerInfo.outgoing, hinfo]
  · intro e he
    rcases List.mem_append.mp he with he | he
    · exact h.keys e he
    · obtain rfl := List.mem_singleton.mp he
      exact hroute
  · intro s hs hd
    rcases List.mem_append.mp hs with hs | hs
    · exact h.routers s hs hd
    · obtain rfl := List.mem_singleton.mp hs
      cases hd
  · rw [Connections.addOutgoing, ← List.concat_eq_append]
    exact List.Nodup.concat hnew h.nodup
  · intro s hs
    rcases List.mem_append.mp hs with hs | hs
    · exact Nat.lt_succ_of_lt (h.fresh s hs)
    · obtain rfl := List.mem_singleton.mp hs
      exact Nat.lt_succ_self _
  · intro i s id' hs hd hid'
    rw [hlinks, List.filter_append, List.map_append]
    rcases Nat.lt_or_ge i c.connections.length with hi | hi
    · have hs' : c.connections[i]? = some s := by
        rw [← List.getElem?_append_left hi]
        exact hs
      have hid'' : c.connIndexToId[i]? = some id' := by
        rw [← List.getElem?_append_left (h.length ▸ hi)]
        exact hid'
      have hne : ¬ (⟨c.nextSocket, true⟩ : Socket) = s := by
        rintro rfl
        exact hnew (List.mem_of_getElem? hs')
      rw [h.outgoing i s id' hs' hd hid'', List.filter_cons_of_neg (by simpa using hne)]
      rfl
    · obtain rfl : i = c.connections.length := by
        have hlt := (List.getElem?_eq_some_iff.mp hs).1
        simp only [Connections.addOutgoing, List.length_append, List.length_singleton] at hlt
        omega
      obtain rfl : ⟨c.nextSocket, true⟩ = s := by
        simpa [Connections.addOutgoing] using hs
      obtain rfl : id = id' := by
        simpa [Connections.addOutgoing, ← h.length] using hid'
      rw [hold, List.filter_cons_of_pos (by simp)]
      rfl
  · intro cid hcid
    rw [hlinks, List.countP_append]
    have hle := h.serviceNodes cid hcid
    by_cases heq : id.eq cid = true
    · rw [ConnectionID.eq_of_sn hcid, Bool.and_eq_true, beq_iff_eq] at heq
      have hzero := hid heq.1
      simp only [ConnectionID.eq_of_sn heq.1, heq.2, ← ConnectionID.eq_of_sn hcid] at hzero
      rw [hzero]
      exact (Nat.zero_add _).trans_le List.countP_le_length
    · simpa [heq] using hle

theorem addPending (h : c.Consistent) {pc : PendingConnect}
    (hs : c.connections[pc.connIndex]? = some pc.socket) :
    { c with pendingConnects := c.pendingConnects ++ [pc] }.Consistent := by
  refine ⟨⟨h.length, h.bind, h.listening⟩, h.peers, ?_, h.dealers, h.keys, h.routers, h.nodup,
    h.fresh, h.outgoing, h.serviceNodes⟩
  intro pc' hpc'
  rcases List.mem_append.mp hpc' with hpc' | hpc'
  · exact h.pendingConnects pc' hpc'
  · obtain rfl := List.mem_singleton.mp hpc'
    exact hs

theorem proxyConnectSn {net : Network} {now : Int} {remote hint : Bytes}
    {optional incomingOnly outgoingOnly : Bool} {keepAlive : Int} {r : Option (Nat × Bytes)}
    {c' : Connections} (h : c.Consistent)
    (hc : c.proxyConnectSn net now remote hint optional incomingOnly outgoingOnly keepAlive =
      some (r, c')) : c'.Consistent := by
  obtain ⟨cid, hcid, ⟨e, i, -, -, rfl⟩ | ⟨-, -, -, rfl⟩ | ⟨hsel, ⟨-, rfl, -⟩, -, rfl⟩⟩ :=
    proxyConnectSn_eq_some hc
  · refine h.modifyPeer i fun p => ?_
    unfold reusePeer
    split <;> exact ⟨rfl, rfl, rfl⟩
  · exact h
  · refine h.addOutgoing (fun _ _ => ⟨rfl, rfl, rfl⟩) (ConnectionID.route_ofPubkey hcid) fun _ => ?_
    refine List.countP_eq_zero.mpr fun l hl heq => ?_
    obtain ⟨v, hv, rfl⟩ := List.mem_map.mp hl
    obtain ⟨hv, hout⟩ := List.mem_filter.mp hv
    obtain ⟨e, he, rfl⟩ := List.mem_map.mp hv
    obtain ⟨i, hi⟩ := List.mem_iff_getElem?.mp he
    have hout' : e.2.outgoing = true := hout
    have hnot := List.find?_eq_none.mp hsel (e, i) (mem_equalRange.mpr ⟨hi, heq⟩)
    simp [hout'] at hnot

theorem proxyConnectRemote {net : Network} {now : Int} {data : ConnectRemoteData}
    {es : List Effect} {c' : Connections} (h : c.Consistent)
    (hc : c.proxyConnectRemote net now data = some (c', es)) : c'.Consistent := by
  unfold Connections.proxyConnectRemote at hc
  split at hc
  · cases hc
  · rename_i hid
    split at hc
    · obtain ⟨rfl, -⟩ := Prod.mk.inj (Option.some.inj hc)
      exact h
    · obtain ⟨rfl, -⟩ := Prod.mk.inj (Option.some.inj hc)
      have hsn : ¬ data.connId = ConnectionID.snId := fun he => hid (.inl he)
      refine Consistent.addPending (h.addOutgoing (fun _ _ => ⟨rfl, rfl, rfl⟩) rfl ?_) ?_
      · intro he
        exact absurd (beq_iff_eq.mp he) hsn
      · simp [Connections.addOutgoing]

theorem disconnect (h : c.Consistent) (conn : ConnectionID) : (c.disconnect conn).Consistent := by
  unfold Connections.disconnect
  split
  · exact h.closeConnection _
  · exact h

theorem proxyExpireIdlePeers (h : c.Consistent) (now : ConnectionID → Int) :
    (c.proxyExpireIdlePeers now).Consistent := by
  refine sweep_invariant (fun pos e s s' hs _ hv => ?_) _ _ h
  split at hv
  · obtain rfl := Option.some.inj hv
    exact hs.closeConnection _
  · cases hv

/-- Whether the entry of a socket is taken out before the socket is closed or
with it makes no difference. -/
theorem erasePending_closeConnection {pos : Nat} {pc : PendingConnect}
    (hpc : c.pendingConnects[pos]? = some pc) :
    { c with pendingConnects := c.pendingConnects.eraseIdx pos }.closeConnection pc.connIndex =
      c.closeConnection pc.connIndex :=
  congrArg (fun pcs => { c.closeConnection pc.connIndex with pendingConnects := pcs })
    (update_eraseIdx connectSlot hpc)

theorem erasePeer_closeConnection {i : Nat} {e : ConnectionID × PeerInfo}
    (he : c.peers[i]? = some e) :
    { c with peers := c.peers.eraseIdx i }.closeConnection e.2.connIndex =
      c.closeConnection e.2.connIndex :=
  congrArg (fun ps => { c.closeConnection e.2.connIndex with peers := ps })
    (update_eraseIdx peerSlot he)

theorem timeOutConnects (h : c.Consistent) (now : Int) : (c.timeOutConnects now).1.Consistent := by
  refine sweep_invariant (P := fun s : Connections × List Effect => s.1.Consistent)
    (fun pos pc s s' hs hpc hv => ?_) _ _ h
  dsimp only at hv
  split at hv
  · obtain rfl := Option.some.inj hv
    dsimp only
    rw [erasePending_closeConnection hpc]
    exact hs.closeConnection _
  · cases hv

theorem dropPeers (h : c.Consistent) (cid : ConnectionID) (n : Nat) :
    (Connections.dropPeers cid n c).Consistent := by
  induction n generalizing c with
  | zero => exact h
  | succ n ih =>
    unfold Connections.dropPeers
    split
    · exact h
    · rename_i e i _ hrange
      have he : (e, i) ∈ c.equalRange cid := hrange ▸ List.mem_cons_self
      have hi := (mem_equalRange.mp he).1
      refine ih ?_
      split
      · rw [erasePeer_closeConnection hi]
        exact h.closeConnection _
      · rename_i hout
        exact h.eraseRouted hi (Bool.eq_false_iff.mpr hout)

theorem setActive (h : c.Consistent) (sns : List Bytes) :
    { c with activeServiceNodes := sns }.Consistent :=
  ⟨⟨h.length, h.bind, h.listening⟩, h.peers, h.pendingConnects, h.dealers, h.keys, h.routers,
    h.nodup, h.fresh, h.outgoing, h.serviceNodes⟩

theorem removeServiceNode {pk : Bytes} {c' : Connections} (h : c.Consistent)
    (hc : c.removeServiceNode pk = some c') : c'.Consistent := by
  obtain ⟨cid, -, hc⟩ := Option.bind_eq_some_iff.mp hc
  obtain rfl := Option.some.inj hc
  exact (h.setActive _).dropPeers cid _

theorem proxyUpdateActiveSnsClean {added removed : List Bytes} {c' : Connections}
    (h : c.Consistent) (hc : c.proxyUpdateActiveSnsClean added removed = some c') :
    c'.Consistent := by
  obtain ⟨c₁, hfold, hadd⟩ := Option.bind_eq_some_iff.mp hc
  obtain rfl := Option.some.inj hadd
  refine setActive ?_ _
  clear hadd hc
  induction removed generalizing c with
  | nil =>
    obtain rfl : c = c₁ := by simpa using hfold
    exact h
  | cons pk removed ih =>
    rw [List.foldlM_cons] at hfold
    obtain ⟨c₂, hc₂, hfold⟩ := Option.bind_eq_some_iff.mp hfold
    exact ih (h.removeServiceNode hc₂) hfold

theorem proxySetActiveSns {pubkeys : List Bytes} {c' : Connections} (h : c.Consistent)
    (hc : c.proxySetActiveSns pubkeys = some c') : c'.Consistent := by
  unfold Connections.proxySetActiveSns at hc
  dsimp only at hc
  split at hc
  · obtain rfl := Option.some.inj hc
    exact h
  · exact h.proxyUpdateActiveSnsClean hc

theorem listen (h : c.Consistent) (l : Listener) : (c.listen l).Consistent := by
  have hnew : ⟨c.nextSocket, false⟩ ∉ c.connections := fun hs => lt_irrefl _ (h.fresh _ hs)
  refine ⟨⟨?_, ?_, ?_⟩, h.peers.append _, h.pendingConnects.append _, h.dealers, h.keys, ?_, ?_, ?_,
    ?_, h.serviceNodes⟩
  · simp [Connections.listen, h.length]
  · exact h.bind.concat (a := ⟨l.address, l.curve, c.connections.length, l.allow, _⟩) rfl
  · exact h.listening.concat (a := ⟨_, c.connections.length, ⟨c.nextSocket, false⟩⟩) rfl
  · intro s hs hd
    rcases List.mem_append.mp hs with hs | hs
    · obtain ⟨l, hl, he⟩ := h.routers s hs hd
      exact ⟨l, List.mem_append_left _ hl, he⟩
    · obtain rfl := List.mem_singleton.mp hs
      exact ⟨_, List.mem_append_right _ (List.mem_singleton_self _), rfl⟩
  · rw [Connections.listen, ← List.concat_eq_append]
    exact List.Nodup.concat hnew h.nodup
  · intro s hs
    rcases List.mem_append.mp hs with hs | hs
    · exact Nat.lt_succ_of_lt (h.fresh s hs)
    · obtain rfl := List.mem_singleton.mp hs
      exact Nat.lt_succ_self _
  · intro i s id hs hd hid
    rcases Nat.lt_or_ge i c.connections.length with hi | hi
    · refine h.outgoing i s id ?_ hd ?_
      · rw [← List.getElem?_append_left hi]
        exact hs
      · rw [← List.getElem?_append_left (h.length ▸ hi)]
        exact hid
    · rcases List.mem_append.mp (List.mem_of_getElem? hs) with _ | hmem
      · rw [Connections.listen, List.getElem?_append_right hi] at hs
        obtain rfl := List.mem_singleton.mp (List.mem_of_getElem? hs)
        cases hd
      · obtain rfl := List.mem_singleton.mp hmem
        cases hd

theorem start (listeners : List Listener) (sns : List Bytes) :
    (Connections.start listeners sns).Consistent := by
  have hempty : ({ activeServiceNodes := sns } : Connections).Consistent := by
    refine ⟨⟨rfl, ?_, ?_⟩, ?_, ?_, ?_, ?_, ?_, List.nodup_nil, ?_, ?_, ?_⟩ <;> simp [Denotes, links]
  unfold Connections.start
  generalize ({ activeServiceNodes := sns } : Connections) = c at hempty
  induction listeners generalizing c with
  | nil => exact hempty
  | cons l ls ih => exact ih _ (hempty.listen l)

end Consistent

end Connections

end ArqmaMQ
