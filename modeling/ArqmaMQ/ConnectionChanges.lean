import ArqmaMQ.ProxyConnections

/-! What a step of the proxy can do to the entries of its tables, indices apart. -/

namespace ArqmaMQ

open Renumber Sweep

namespace Connections

variable {c c' c'' : Connections}

/-- A pending connect without its index. -/
def unindexed (pc : PendingConnect) : PendingConnect := { pc with connIndex := 0 }

/-- Entries may go, and entries of service nodes may come, an outgoing one with
a new socket. -/
structure Evolves (c c' : Connections) : Prop where
  peers : ∃ new, (c'.peers.map view).Subperm (c.peers.map view ++ new) ∧
    ∀ v ∈ new, v.1.sn = true ∧ (v.2.1.dealer = true → c.nextSocket ≤ v.2.1.handle)
  pending : (c'.pendingConnects.map unindexed).Sublist (c.pendingConnects.map unindexed)
  nextSocket : c.nextSocket ≤ c'.nextSocket
  nextConnId : c'.nextConnId = c.nextConnId
  requestedIds : c'.requestedIds = c.requestedIds

namespace Evolves

/-- Entries may go. -/
theorem of_subperm (hv : (c'.peers.map view).Subperm (c.peers.map view))
    (hp : (c'.pendingConnects.map unindexed).Sublist (c.pendingConnects.map unindexed))
    (hs : c'.nextSocket = c.nextSocket) (hn : c'.nextConnId = c.nextConnId)
    (hr : c'.requestedIds = c.requestedIds) : c.Evolves c' :=
  ⟨⟨[], by simpa using hv, by simp⟩, hp, hs.ge, hn, hr⟩

theorem refl (c : Connections) : c.Evolves c :=
  of_subperm (List.Subperm.refl _) (List.Sublist.refl _) rfl rfl rfl

theorem trans (h : c.Evolves c') (h' : c'.Evolves c'') : c.Evolves c'' := by
  obtain ⟨new, hv, hnew⟩ := h.peers
  obtain ⟨new', hv', hnew'⟩ := h'.peers
  refine ⟨⟨new ++ new', ?_, ?_⟩, h'.pending.trans h.pending, h.nextSocket.trans h'.nextSocket,
    h'.nextConnId.trans h.nextConnId, h'.requestedIds.trans h.requestedIds⟩
  · rw [← List.append_assoc]
    exact hv'.trans (List.subperm_append_right _ |>.mpr hv)
  · intro v hmem
    rcases List.mem_append.mp hmem with hmem | hmem
    · exact hnew v hmem
    · exact ⟨(hnew' v hmem).1, fun hd => h.nextSocket.trans ((hnew' v hmem).2 hd)⟩

theorem closeConnection (c : Connections) (k : Nat) : c.Evolves (c.closeConnection k) :=
  of_subperm (map_update_sublist (fun _ _ => rfl) k c.peers).subperm
    (map_update_sublist (fun _ _ => rfl) k c.pendingConnects) rfl rfl rfl

theorem eraseIdx (c : Connections) (i : Nat) :
    c.Evolves { c with peers := c.peers.eraseIdx i } :=
  of_subperm ((List.eraseIdx_sublist ..).map _).subperm (List.Sublist.refl _) rfl rfl rfl

theorem rehash {ps : List (ConnectionID × PeerInfo)} (h : ps.Perm c.peers) :
    c.Evolves { c with peers := ps } :=
  of_subperm (h.map _).subperm (List.Sublist.refl _) rfl rfl rfl

theorem view_modify (c : Connections) (i : Nat) {f : PeerInfo → PeerInfo}
    (hf : ∀ p, (f p).socket = p.socket ∧ (f p).route = p.route) :
    (c.peers.modify i fun e => (e.1, f e.2)).map view = c.peers.map view := by
  refine List.ext_getElem? fun j => ?_
  simp only [List.getElem?_map, List.getElem?_modify]
  rcases c.peers[j]? with _ | e
  · rfl
  · by_cases hij : i = j <;> simp [hij, view, PeerInfo.outgoing, hf]

theorem modifyPeer (c : Connections) (i : Nat) {f : PeerInfo → PeerInfo}
    (hf : ∀ p, (f p).socket = p.socket ∧ (f p).route = p.route) :
    c.Evolves { c with peers := c.peers.modify i fun e => (e.1, f e.2) } := by
  refine of_subperm ?_ (List.Sublist.refl _) rfl rfl rfl
  dsimp only
  rw [view_modify c i hf]

theorem addRouted {id : ConnectionID} {p : PeerInfo} (hid : id.sn = true)
    (hd : p.socket.dealer = false) : c.Evolves { c with peers := c.peers ++ [(id, p)] } := by
  refine ⟨⟨[view (id, p)], by rw [List.map_append]; exact List.Subperm.refl _, ?_⟩,
    List.Sublist.refl _, le_refl _, rfl, rfl⟩
  intro v hv
  obtain rfl := List.mem_singleton.mp hv
  exact ⟨hid, fun h => absurd h (by simp [view, hd])⟩

theorem proxyConnectSn {net : Network} {now : Int} {remote hint : Bytes}
    {optional incomingOnly outgoingOnly : Bool} {keepAlive : Int} {r : Option (Nat × Bytes)}
    (hc : c.proxyConnectSn net now remote hint optional incomingOnly outgoingOnly keepAlive =
      some (r, c')) : c.Evolves c' := by
  obtain ⟨cid, hcid, ⟨e, i, -, -, rfl⟩ | ⟨-, -, -, rfl⟩ | ⟨-, -, -, rfl⟩⟩ :=
    proxyConnectSn_eq_some hc
  · refine modifyPeer c i fun p => ?_
    unfold reusePeer
    split <;> exact ⟨rfl, rfl⟩
  · exact refl _
  · obtain ⟨-, rfl⟩ : _ ∧ _ = cid := by simpa [ConnectionID.ofPubkey] using hcid
    refine ⟨⟨[view (_, snPeer remote keepAlive now c.connections.length ⟨c.nextSocket, true⟩)],
      by rw [addOutgoing, List.map_append]; exact List.Subperm.refl _, ?_⟩,
      List.Sublist.refl _, Nat.le_succ _, rfl, rfl⟩
    intro v hv
    obtain rfl := List.mem_singleton.mp hv
    exact ⟨rfl, fun _ => le_refl _⟩

theorem setActive (c : Connections) (sns : List Bytes) :
    c.Evolves { c with activeServiceNodes := sns } :=
  of_subperm (List.Subperm.refl _) (List.Sublist.refl _) rfl rfl rfl

theorem disconnect (c : Connections) (conn : ConnectionID) : c.Evolves (c.disconnect conn) := by
  unfold Connections.disconnect
  split
  · exact closeConnection c _
  · exact refl c

theorem dropPeers (c : Connections) (cid : ConnectionID) (n : Nat) :
    c.Evolves (Connections.dropPeers cid n c) := by
  induction n generalizing c with
  | zero => exact refl c
  | succ n ih =>
    unfold Connections.dropPeers
    split
    · exact refl c
    · rename_i e i _ _
      refine (eraseIdx c i).trans (Evolves.trans ?_ (ih _))
      split
      · exact closeConnection _ _
      · exact refl _

theorem proxyUpdateActiveSnsClean {added removed : List Bytes}
    (hc : c.proxyUpdateActiveSnsClean added removed = some c') : c.Evolves c' := by
  obtain ⟨c₁, hfold, hadd⟩ := Option.bind_eq_some_iff.mp hc
  obtain rfl := Option.some.inj hadd
  refine Evolves.trans ?_ (setActive c₁ _)
  clear hadd hc
  induction removed generalizing c with
  | nil =>
    obtain rfl : c = c₁ := by simpa using hfold
    exact refl c
  | cons pk removed ih =>
    rw [List.foldlM_cons] at hfold
    obtain ⟨c₂, hc₂, hfold⟩ := Option.bind_eq_some_iff.mp hfold
    obtain ⟨cid, -, hc₂⟩ := Option.bind_eq_some_iff.mp hc₂
    obtain rfl := Option.some.inj hc₂
    exact ((setActive c _).trans (dropPeers _ cid _)).trans (ih hfold)

theorem replyLoop {conn : ConnectionID} {rounds skip : Nat} {outcome : Nat → SendOutcome}
    (hc : Connections.replyLoop conn rounds outcome skip c = some c') : c.Evolves c' := by
  induction rounds generalizing outcome skip c with
  | zero =>
    obtain rfl := Option.some.inj hc
    exact refl c
  | succ rounds ih =>
    unfold Connections.replyLoop at hc
    split at hc
    · obtain rfl := Option.some.inj hc
      exact refl c
    split at hc
    · split at hc
      · cases hc
      · exact (eraseIdx c _).trans (ih hc)
    · exact ih hc
    · obtain rfl := Option.some.inj hc
      exact refl c

theorem control {msg : ConnControl} (hc : c.control msg = some c') : c.Evolves c' := by
  cases msg with
  | reply conn outcome => exact replyLoop hc
  | connectSn net now data =>
    obtain ⟨pk, -, hc⟩ := Option.bind_eq_some_iff.mp hc
    obtain ⟨⟨r, c₁⟩, hc₁, hc⟩ := Option.bind_eq_some_iff.mp hc
    obtain rfl := Option.some.inj hc
    exact proxyConnectSn hc₁
  | disconnect data =>
    simp only [Connections.control, proxyDisconnect] at hc
    split at hc
    · cases hc
    · obtain rfl := Option.some.inj hc
      exact disconnect c _
  | setSns pubkeys =>
    simp only [Connections.control, proxySetActiveSns] at hc
    split at hc
    · split at hc
      · obtain rfl := Option.some.inj hc
        exact refl c
      · exact proxyUpdateActiveSnsClean hc
    · cases hc
  | updateSns added removed =>
    simp only [Connections.control] at hc
    split at hc
    · exact proxyUpdateActiveSnsClean hc
    · cases hc

theorem proxyExpireIdlePeers (c : Connections) (now : ConnectionID → Int) :
    c.Evolves (c.proxyExpireIdlePeers now) := by
  refine sweep_invariant (P := c.Evolves) (fun pos e s s' hs _ hv => ?_) _ _ (refl c)
  split at hv
  · obtain rfl := Option.some.inj hv
    exact hs.trans (closeConnection _ _)
  · cases hv

theorem timeOutConnects (c : Connections) (now : Int) : c.Evolves (c.timeOutConnects now).1 := by
  refine sweep_invariant (P := fun s : Connections × List Effect => c.Evolves s.1)
    (fun pos pc s s' hs hpc hv => ?_) _ _ (refl c)
  dsimp only at hv
  split at hv
  · obtain rfl := Option.some.inj hv
    dsimp only
    rw [Consistent.erasePending_closeConnection hpc]
    exact hs.trans (closeConnection _ _)
  · cases hv

theorem hello (c : Connections) (connIndex : Nat) : c.Evolves (c.hello connIndex).1 := by
  unfold Connections.hello
  split
  · split
    · exact refl c
    · exact of_subperm (List.Subperm.refl _) (List.eraseP_sublist.map _) rfl rfl rfl
  · exact refl c

end Evolves

end Connections

theorem SendState.evolves_sendLoop {env : SendEnv} {o : SendOptions} {s s' : SendState}
    {fuel : Nat} (hs : sendLoop env o fuel s = some s') : s.conns.Evolves s'.conns := by
  refine sendLoop_invariant (P := fun t => s.conns.Evolves t.conns) ?_ ?_ ?_ ?_ (.refl _) hs
  · intro s₁ t s₂ h ht
    obtain rfl | ⟨r, c, conn, hc, rfl⟩ := target_eq_some ht
    · exact h
    · exact h.trans (Connections.Evolves.proxyConnectSn hc)
  · intro s₁ fuel retry s₂ h hr
    obtain rfl | ⟨-, it, -, -, rfl⟩ := removePeer_eq_some hr
    · exact h
    · exact h.trans (Connections.Evolves.eraseIdx _ _)
  · exact fun s₁ a h => h
  · intro s₁ r h
    rw [conns_finish]
    exact h

namespace Connections

theorem Evolves.incomingSender (c : Connections) (connIndex : Nat) {socket : Socket}
    (route : Bytes) (m : Properties) (hd : socket.dealer = false) :
    c.Evolves (c.incomingSender connIndex socket route m).conns := by
  unfold Connections.incomingSender
  dsimp only
  split
  · split
    · exact Evolves.modifyPeer (f := fun p => { p with authLevel := _ }) c _ fun _ => ⟨rfl, rfl⟩
    · exact Evolves.addRouted rfl hd
  · exact refl c

theorem proxyConnectRemote_eq_some {c c' : Connections} {net : Network} {now : Int}
    {data : ConnectRemoteData} {es : List Effect}
    (h : c.proxyConnectRemote net now data = some (c', es)) :
    data.connId ≠ -1 ∧
    ((∃ what, c' = c ∧ es = [.replyJob (.connectFailure data.failure { id := data.connId } what)]) ∨
      ∃ expiry info, es = [] ∧ info.route = [] ∧ info.socket = ⟨c.nextSocket, true⟩ ∧
        c'.peers = c.peers ++ [({ id := data.connId, pk := data.pubkey }, info)] ∧
        c'.pendingConnects = c.pendingConnects ++
          [⟨c.connections.length, data.connId, expiry, data.connect, data.failure,
            ⟨c.nextSocket, true⟩⟩] ∧
        c'.nextSocket = c.nextSocket + 1 ∧ c'.nextConnId = c.nextConnId ∧
        c'.requestedIds = c.requestedIds) := by
  unfold proxyConnectRemote at h
  split at h
  · cases h
  rename_i hid
  refine ⟨fun he => hid (.inl he), ?_⟩
  split at h
  · obtain ⟨rfl, rfl⟩ := Prod.mk.inj (Option.some.inj h)
    exact .inl ⟨_, rfl, rfl⟩
  · obtain ⟨rfl, rfl⟩ := Prod.mk.inj (Option.some.inj h)
    exact .inr ⟨_, _, rfl, rfl, rfl, rfl, rfl, rfl, rfl, rfl⟩

end Connections

namespace Proxy

variable {ι R : Type} [DecidableEq ι] {p p' : Proxy ι R}

omit [DecidableEq ι] in
theorem evolves_sender {m : Incoming} {l : Link} {sender : Sender} (hl : p.link m = some l)
    (hs : l.sender = some sender) : p.conns.Evolves sender.conns := by
  obtain ⟨-, -, hout | ⟨route, answer, hin⟩⟩ := link_cases hl
  · obtain ⟨id, e, i, -, -, rfl⟩ := Connections.outgoingSender_eq_some (hout.sender ▸ hs)
    exact .refl _
  · obtain rfl := Option.some.inj (hin.sender.symm.trans hs)
    exact .incomingSender _ _ _ _ hin.dealer

/-- Ids are handed out, a remote is connected to, or the connections evolve. -/
theorem evolves_act (hact : Act p p') :
    p.conns.Evolves p'.conns ∧ p'.connects = p.connects ∨
    p'.conns = { p.conns with
      nextConnId := p.conns.nextConnId + 1
      requestedIds := p.conns.requestedIds ++ [p.conns.nextConnId] } ∧ p'.connects = p.connects ∨
    ∃ net now data c es, data.connId ∈ p.conns.requestedIds ∧
      p.conns.proxyConnectRemote net now data = some (c, es) ∧
      p'.conns = { c with requestedIds := c.requestedIds.erase data.connId } ∧
      p'.connects = p.connects ++ [data] := by
  cases hact with
  | requestConn => exact .inr (.inl ⟨rfl, rfl⟩)
  | connectRemote net now data hid hc _ =>
    exact .inr (.inr ⟨net, now, data, _, _, hid, hc, rfl, rfl⟩)
  | send env o expiry _ hs _ => exact .inl ⟨SendState.evolves_sendLoop hs, rfl⟩
  | control msg hc => exact .inl ⟨.control hc, rfl⟩
  | cleanup clock now _ =>
    exact .inl ⟨(Connections.Evolves.proxyExpireIdlePeers p.conns clock).trans
      (.timeOutConnects _ now), rfl⟩
  | @builtin d l m hl _ =>
    refine .inl ⟨?_, rfl⟩
    change p.conns.Evolves (p.builtin m l).conns
    rcases p.builtin_case m l with hc | ⟨-, -, -, hc⟩ | ⟨-, -, -, hc⟩ | ⟨-, hc⟩ | ⟨-, hc⟩
    · exact hc ▸ .refl _
    · exact hc ▸ .refl _
    · exact hc ▸ .refl _
    · exact hc ▸ .hello p.conns m.index
    · exact hc ▸ .closeConnection p.conns m.index
  | refuse m sent hl hs => exact .inl ⟨evolves_sender hl hs, rfl⟩
  | command m name data hl hs _ _ _ => exact .inl ⟨evolves_sender hl hs, rfl⟩
  | touch i now =>
    unfold Proxy.touch
    split
    · exact .inl ⟨.modifyPeer (f := fun e => e.activity now) p.conns _ fun _ => ⟨rfl, rfl⟩, rfl⟩
    · exact .inl ⟨.refl _, rfl⟩
  | rehash peers requests hp _ => exact .inl ⟨.rehash hp, rfl⟩
  | next hn =>
    obtain ⟨d, stale, -, rfl⟩ := next_eq_some hn
    exact .inl ⟨.of_subperm (List.Subperm.refl _) (List.Sublist.refl _) rfl rfl rfl, rfl⟩
  | _ => exact .inl ⟨.refl _, rfl⟩

end Proxy

end ArqmaMQ
