import ArqmaMQ.ConnectionIds
import ArqmaMQ.ServiceNodes

/-! The connects that wait for their HELLO, and how they go when connections are
closed. -/

namespace ArqmaMQ

open Renumber Sweep

theorem filter_ne_eq_eraseIdx {α β : Type} [DecidableEq β] {f : α → β} {l : List α} {i : Nat}
    {a : α} (ha : l[i]? = some a) (hu : ∀ j b, l[j]? = some b → f b = f a → j = i) :
    l.filter (f · ≠ f a) = l.eraseIdx i := by
  have hkeep : (l.eraseIdx i).filter (f · ≠ f a) = l.eraseIdx i := by
    refine List.filter_eq_self.mpr fun b hb => decide_eq_true fun he => ?_
    obtain ⟨j, hj⟩ := List.mem_iff_getElem?.mp hb
    rw [List.getElem?_eraseIdx] at hj
    split at hj
    · have := hu j b hj he
      omega
    · have := hu (j + 1) b hj he
      omega
  have herase : (l.eraseIdx i).filter (f · ≠ f a) = l.filter (f · ≠ f a) := by
    refine filter_eraseIdx fun b hb => ?_
    obtain rfl := Option.some.inj (ha.symm.trans hb)
    simp
  rw [← herase, hkeep]

theorem position_unique {α : Type} {q : α → Bool} {l : List α} (h : l.countP q ≤ 1) {i j : Nat}
    {a b : α} (ha : l[i]? = some a) (hb : l[j]? = some b) (hqa : q a = true) (hqb : q b = true) :
    i = j := by
  have hcount : l.zipIdx.countP (fun x => q x.1) ≤ 1 := by
    rw [← List.zipIdx_map_fst 0 l, List.countP_map] at h
    exact h
  have hsame : (a, i) = (b, j) := eq_of_countP_le_one hcount
    (List.mem_zipIdx_iff_getElem?.mpr ha) (List.mem_zipIdx_iff_getElem?.mpr hb) hqa hqb
  exact congrArg Prod.snd hsame

namespace Connections

variable {c c' : Connections}

theorem Consistent.pending_closeConnection (h : c.Consistent) {k : Nat} {s : Socket}
    (hk : c.connections[k]? = some s) :
    (c.closeConnection k).pendingConnects.map unindexed =
      (c.pendingConnects.map unindexed).filter (·.socket ≠ s) := by
  exact h.pendingConnects.map_update_of_getElem? unindexed _ h.nodup (fun _ _ => rfl) (fun _ => rfl)
    hk

/-- The socket of an outgoing entry has no other entry. -/
theorem Consistent.entry_unique (h : c.Consistent) {i j : Nat} {e e' : ConnectionID × PeerInfo}
    (he : c.peers[i]? = some e) (ho : e.2.outgoing = true) (he' : c.peers[j]? = some e')
    (hs : e'.2.socket = e.2.socket) : j = i := by
  have hmem := List.mem_of_getElem? he
  have hd : e.2.socket.dealer = true := (h.dealers e hmem).trans ho
  have hidx := h.peers e hmem
  have hlt := (List.getElem?_eq_some_iff.mp hidx).1
  have hone := h.outgoing _ _ _ hidx hd (List.getElem?_eq_getElem (h.length ▸ hlt))
  have hcount : c.peers.countP (fun x => x.2.outgoing && x.2.socket = e.2.socket) ≤ 1 := by
    have hlen := congrArg List.length hone
    rw [List.length_map, ← List.countP_eq_length_filter, links, List.countP_map,
      List.countP_filter, List.countP_map] at hlen
    refine le_of_eq ((List.countP_congr fun x _ => ?_).trans hlen)
    rw [Bool.and_comm]
    rfl
  have ho' : e'.2.outgoing = true := by
    rw [← h.dealers e' (List.mem_of_getElem? he'), hs, hd]
  exact position_unique hcount he' he (by simp [ho', hs]) (by simp [ho])

/-- The connection of an entry is closed for being idle. -/
def idle (now : ConnectionID → Int) (e : ConnectionID × PeerInfo) : Bool :=
  e.2.outgoing && nanos e.2.idleExpiry < int64 (now e.1 - e.2.lastActivity)

/-- The connects whose connections are idle go. -/
theorem Consistent.pending_proxyExpireIdlePeers (h : c.Consistent) (now : ConnectionID → Int) :
    (c.proxyExpireIdlePeers now).pendingConnects.map unindexed =
      (c.pendingConnects.map unindexed).filter fun pc =>
        !c.peers.any fun e => idle now e && e.2.socket = pc.socket := by
  have hsweep := sweep_all Connections.peers detached (idle now)
    (fun _ e c =>
      if e.2.outgoing ∧ nanos e.2.idleExpiry < int64 (now e.1 - e.2.lastActivity) then
        some (c.closeConnection e.2.connIndex)
      else none)
    (fun gone s => s.Consistent ∧ s.pendingConnects.map unindexed =
      (c.pendingConnects.map unindexed).filter fun pc => !gone.any (·.2.socket = pc.socket))
    ?_ ?_ (s := c) ⟨h, by simp⟩
  · refine hsweep.2.trans (List.filter_congr fun pc _ => ?_)
    simp only [List.filter_map, List.any_map, List.any_filter]
    rfl
  · intro pos e s hidle
    refine if_neg fun hcond => Bool.eq_false_iff.mp hidle ?_
    rw [idle, Bool.and_eq_true, decide_eq_true_iff]
    exact hcond
  · rintro pos e s gone ⟨hs, hpending⟩ he hidle
    have hcond : e.2.outgoing = true ∧
        nanos e.2.idleExpiry < int64 (now e.1 - e.2.lastActivity) := by
      rw [idle, Bool.and_eq_true, decide_eq_true_iff] at hidle
      exact hidle
    have hmem := List.mem_of_getElem? he
    refine ⟨_, if_pos hcond, ⟨hs.closeConnection _, ?_⟩, ?_⟩
    · refine (hs.pending_closeConnection (hs.peers e hmem)).trans ?_
      rw [hpending, List.filter_filter]
      refine List.filter_congr fun pc _ => ?_
      simp [detached, eq_comm, Bool.and_comm]
    · rw [hs.detached_closeConnection hmem]
      refine filter_ne_eq_eraseIdx (f := fun x : ConnectionID × PeerInfo => x.2.socket)
        (a := detached e) (by simp [he]) fun j x hx hxs => ?_
      rw [List.getElem?_map] at hx
      obtain ⟨e', he', rfl⟩ := Option.map_eq_some_iff.mp hx
      exact hs.entry_unique he hcond.1 he' hxs

/-- What a connect that is timed out leaves behind. -/
def timedOut (pc : PendingConnect) : Effect :=
  .job (.connectFailure pc.onFailure { id := pc.connId } (bytes "connection attempt timed out"))

theorem Consistent.timeOutConnects_spec (h : c.Consistent)
    (hn : ((c.pendingConnects.map unindexed).map (·.socket)).Nodup) (now : Int) :
    (c.timeOutConnects now).1.pendingConnects.map unindexed =
        (c.pendingConnects.map unindexed).filter (¬ ·.expiry < now) ∧
      (c.timeOutConnects now).2 =
        ((c.pendingConnects.map unindexed).filter (·.expiry < now)).map timedOut := by
  have hsweep := sweep_all (fun s : Connections × List Effect => s.1.pendingConnects) unindexed
    (·.expiry < now)
    (fun pos pc (s : Connections × List Effect) =>
      if pc.expiry < now then
        some ({ s.1 with pendingConnects := s.1.pendingConnects.eraseIdx pos }.closeConnection
          pc.connIndex, s.2 ++ [timedOut pc])
      else none)
    (fun gone s => s.1.Consistent ∧ s.2 = gone.map timedOut ∧
      s.1.pendingConnects.map unindexed =
        (c.pendingConnects.map unindexed).filter (·.socket ∉ gone.map (·.socket)))
    ?_ ?_ (s := (c, [])) ⟨h, by simp⟩
  · refine ⟨hsweep.2.2.trans (List.filter_congr fun pc hpc => ?_), hsweep.2.1⟩
    rw [decide_eq_decide, not_iff_not, List.mem_map]
    constructor
    · rintro ⟨pc', hpc', hs⟩
      obtain ⟨hmem, hexp⟩ := List.mem_filter.mp hpc'
      obtain rfl := List.inj_on_of_nodup_map hn hmem hpc hs
      exact of_decide_eq_true hexp
    · exact fun hexp => ⟨pc, List.mem_filter.mpr ⟨hpc, decide_eq_true hexp⟩, rfl⟩
  · intro pos pc s hexp
    exact if_neg (of_decide_eq_false hexp)
  · rintro pos pc s gone ⟨hs, hout, hpending⟩ hpc hexp
    have hidx := hs.pendingConnects pc (List.mem_of_getElem? hpc)
    have hclose := hs.pending_closeConnection hidx
    refine ⟨_, if_pos (of_decide_eq_true hexp), ?_, ?_⟩ <;> dsimp only <;>
      rw [erasePending_closeConnection hpc]
    · refine ⟨hs.closeConnection _, by rw [hout, List.map_append]; rfl, hclose.trans ?_⟩
      rw [hpending, List.filter_filter]
      refine List.filter_congr fun pc' _ => ?_
      rw [List.map_append, List.map_singleton]
      simp [unindexed, not_or, Bool.and_comm]
    · refine hclose.trans ?_
      have hnd : ((s.1.pendingConnects.map unindexed).map (·.socket)).Nodup := by
        rw [hpending]
        exact hn.sublist (List.filter_sublist.map _)
      refine filter_ne_eq_eraseIdx (f := fun x : PendingConnect => x.socket) (a := unindexed pc)
        (by simp [hpc]) fun j x hx hxs => ?_
      have hj : ((s.1.pendingConnects.map unindexed).map (·.socket))[j]? = some pc.socket := by
        rw [List.getElem?_map, hx]
        exact congrArg some hxs
      refine (List.getElem?_inj (List.getElem?_eq_some_iff.mp hj).1 hnd).mp (hj.trans ?_)
      simp [hpc, unindexed]

/-- The sockets of pending connects are not those of service nodes. -/
def RemotePending (c : Connections) : Prop :=
  ∀ pc ∈ c.pendingConnects.map unindexed, ∀ v ∈ c.peers.map view, v.2.1 = pc.socket →
    v.1.sn = false

/-- Connections of service nodes go, and no pending connect. -/
structure Spares (c c' : Connections) : Prop where
  consistent : c'.Consistent
  remote : c'.RemotePending
  pending : c'.pendingConnects.map unindexed = c.pendingConnects.map unindexed

namespace Spares

theorem closeConnection (h : c.Spares c') {e : ConnectionID × PeerInfo} (he : e ∈ c'.peers)
    (hsn : e.1.sn = true) : c.Spares (c'.closeConnection e.2.connIndex) := by
  have hall : (c'.closeConnection e.2.connIndex).pendingConnects.map unindexed =
      c'.pendingConnects.map unindexed := by
    refine (h.consistent.pending_closeConnection (h.consistent.peers e he)).trans ?_
    refine List.filter_eq_self.mpr fun pc hpc => decide_eq_true fun hs => ?_
    have hremote := h.remote pc hpc (view e) (List.mem_map_of_mem he) hs.symm
    exact absurd hsn (Bool.eq_false_iff.mp hremote)
  refine ⟨h.consistent.closeConnection _, ?_, hall.trans h.pending⟩
  intro pc hpc v hv
  rw [hall] at hpc
  exact h.remote pc hpc v ((map_update_sublist (fun _ _ => rfl) _ _).subset hv)

theorem eraseRouted (h : c.Spares c') {e : ConnectionID × PeerInfo} {i : Nat}
    (he : c'.peers[i]? = some e) (hr : e.2.outgoing = false) :
    c.Spares { c' with peers := c'.peers.eraseIdx i } :=
  ⟨h.consistent.eraseRouted he hr,
    fun pc hpc v hv => h.remote pc hpc v (((List.eraseIdx_sublist ..).map _).subset hv), h.pending⟩

theorem setActive (h : c.Spares c') (sns : List Bytes) :
    c.Spares { c' with activeServiceNodes := sns } :=
  ⟨h.consistent.setActive sns, h.remote, h.pending⟩

theorem dropPeers (h : c.Spares c') {cid : ConnectionID} (hcid : cid.sn = true) (n : Nat) :
    c.Spares (Connections.dropPeers cid n c') := by
  induction n generalizing c' with
  | zero => exact h
  | succ n ih =>
    unfold Connections.dropPeers
    split
    · exact h
    · rename_i e i _ hrange
      obtain ⟨hi, heq⟩ := mem_equalRange.mp
        (hrange ▸ List.mem_cons_self : (e, i) ∈ c'.equalRange cid)
      rw [ConnectionID.eq_of_sn hcid, Bool.and_eq_true] at heq
      refine ih ?_
      split
      · rw [Consistent.erasePeer_closeConnection hi]
        exact h.closeConnection (List.mem_of_getElem? hi) heq.1
      · rename_i hout
        exact h.eraseRouted hi (Bool.eq_false_iff.mpr hout)

theorem proxyUpdateActiveSnsClean {added removed : List Bytes} {c'' : Connections}
    (h : c.Spares c') (hc : c'.proxyUpdateActiveSnsClean added removed = some c'') :
    c.Spares c'' := by
  obtain ⟨c₁, hfold, hadd⟩ := Option.bind_eq_some_iff.mp hc
  obtain rfl := Option.some.inj hadd
  refine setActive ?_ _
  clear hadd hc
  induction removed generalizing c' with
  | nil =>
    obtain rfl : c' = c₁ := by simpa using hfold
    exact h
  | cons pk removed ih =>
    rw [List.foldlM_cons] at hfold
    obtain ⟨c₂, hc₂, hfold⟩ := Option.bind_eq_some_iff.mp hfold
    obtain ⟨cid, hcid, hc₂⟩ := Option.bind_eq_some_iff.mp hc₂
    obtain rfl := Option.some.inj hc₂
    obtain ⟨-, rfl⟩ : _ ∧ _ = cid := by simpa [ConnectionID.ofPubkey] using hcid
    exact ih ((h.setActive _).dropPeers rfl _) hfold

end Spares

theorem pendingConnects_proxyConnectSn {net : Network} {now : Int} {remote hint : Bytes}
    {optional incomingOnly outgoingOnly : Bool} {keepAlive : Int} {r : Option (Nat × Bytes)}
    (hc : c.proxyConnectSn net now remote hint optional incomingOnly outgoingOnly keepAlive =
      some (r, c')) : c'.pendingConnects = c.pendingConnects := by
  obtain ⟨cid, -, ⟨e, i, -, -, rfl⟩ | ⟨-, -, -, rfl⟩ | ⟨-, -, -, rfl⟩⟩ :=
    proxyConnectSn_eq_some hc <;> rfl

theorem pendingConnects_replyLoop {conn : ConnectionID} {rounds skip : Nat}
    {outcome : Nat → SendOutcome} (hc : replyLoop conn rounds outcome skip c = some c') :
    c'.pendingConnects = c.pendingConnects := by
  induction rounds generalizing outcome skip c with
  | zero =>
    obtain rfl := Option.some.inj hc
    rfl
  | succ rounds ih =>
    unfold replyLoop at hc
    split at hc
    · obtain rfl := Option.some.inj hc
      rfl
    split at hc
    · split at hc
      · cases hc
      · exact (ih hc :)
    · exact ih hc
    · obtain rfl := Option.some.inj hc
      rfl

/-- Control messages other than DISCONNECT leave pending connects alone. -/
theorem pending_control (h : c.Consistent) (hr : c.RemotePending) {msg : ConnControl}
    (hmsg : ∀ data, msg ≠ .disconnect data) (hc : c.control msg = some c') :
    c'.pendingConnects.map unindexed = c.pendingConnects.map unindexed := by
  have hself : c.Spares c := ⟨h, hr, rfl⟩
  cases msg with
  | reply conn outcome => rw [pendingConnects_replyLoop hc]
  | connectSn net now data =>
    obtain ⟨pk, -, hc⟩ := Option.bind_eq_some_iff.mp hc
    obtain ⟨⟨r, c₁⟩, hc₁, hc⟩ := Option.bind_eq_some_iff.mp hc
    obtain rfl := Option.some.inj hc
    rw [pendingConnects_proxyConnectSn hc₁]
  | disconnect data => exact absurd rfl (hmsg data)
  | setSns pubkeys =>
    simp only [Connections.control, proxySetActiveSns] at hc
    split at hc
    · split at hc
      · obtain rfl := Option.some.inj hc
        rfl
      · exact (hself.proxyUpdateActiveSnsClean hc).pending
    · cases hc
  | updateSns added removed =>
    simp only [Connections.control] at hc
    split at hc
    · exact (hself.proxyUpdateActiveSnsClean hc).pending
    · cases hc

end Connections

theorem SendState.pendingConnects_sendLoop {env : SendEnv} {o : SendOptions} {s s' : SendState}
    {fuel : Nat} (hs : sendLoop env o fuel s = some s') :
    s'.conns.pendingConnects = s.conns.pendingConnects := by
  refine sendLoop_invariant (P := fun t => t.conns.pendingConnects = s.conns.pendingConnects)
    ?_ ?_ ?_ ?_ rfl hs
  · intro s₁ t s₂ h ht
    obtain rfl | ⟨r, c, conn, hc, rfl⟩ := target_eq_some ht
    · exact h
    · exact (Connections.pendingConnects_proxyConnectSn hc).trans h
  · intro s₁ fuel retry s₂ h hr
    obtain rfl | ⟨-, it, -, -, rfl⟩ := removePeer_eq_some hr
    · exact h
    · exact h
  · exact fun s₁ a h => h
  · intro s₁ r h
    rw [conns_finish]
    exact h

theorem Proxy.pendingConnects_sender {ι R : Type} {p : Proxy ι R} {m : Incoming} {l : Link}
    {sender : Sender} (hl : p.link m = some l) (hs : l.sender = some sender) :
    sender.conns.pendingConnects = p.conns.pendingConnects := by
  obtain ⟨peers, hc⟩ := exists_peers_of_sender hl hs
  rw [hc]

end ArqmaMQ
