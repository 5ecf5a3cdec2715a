import ArqmaMQ.ConnectionChanges

/-! The ids of outgoing connections: who they are handed to, and which entry of
`peers` is found under them. -/

namespace ArqmaMQ

open Connections

/-- Listening makes no entries. -/
theorem Connections.start_eq (listeners : List Listener) (sns : List Bytes) :
    0 < (start listeners sns).nextConnId ∧ (start listeners sns).peers = [] ∧
      (start listeners sns).pendingConnects = [] ∧ (start listeners sns).requestedIds = [] := by
  have hlisten : ∀ c : Connections,
      0 < c.nextConnId ∧ c.peers = [] ∧ c.pendingConnects = [] ∧ c.requestedIds = [] →
      0 < (listeners.foldl listen c).nextConnId ∧ (listeners.foldl listen c).peers = [] ∧
        (listeners.foldl listen c).pendingConnects = [] ∧
        (listeners.foldl listen c).requestedIds = [] := by
    induction listeners with
    | nil => exact fun c hc => hc
    | cons l ls ih =>
      rintro c ⟨hn, hc⟩
      exact ih _ ⟨hn.trans (lt_add_one _), hc⟩
  exact hlisten _ ⟨Int.one_pos, rfl, rfl, rfl⟩

namespace Proxy

variable {ι R : Type}

/-- Ids are handed out once and used once. -/
structure Allotted (p : Proxy ι R) : Prop where
  next : 0 < p.conns.nextConnId
  requested : p.conns.requestedIds.Nodup
  handedOut : ∀ id ∈ p.conns.requestedIds, 0 < id ∧ id < p.conns.nextConnId
  connects : (p.connects.map (·.connId)).Nodup
  used : ∀ id ∈ p.connects.map (·.connId),
    0 < id ∧ id < p.conns.nextConnId ∧ id ∉ p.conns.requestedIds

structure Identified (p : Proxy ι R) : Prop where
  ids : p.Allotted
  routed : ∀ v ∈ p.conns.peers.map view, v.2.2 = false → v.1.sn = true
  known : ∀ v ∈ p.conns.peers.map view, v.1.sn = false → v.1.id ∈ p.connects.map (·.connId)
  distinct : (((p.conns.peers.map view).filter (!·.1.sn)).map (·.1.id)).Nodup
  pending : ∀ pc ∈ p.conns.pendingConnects.map unindexed, pc.socket.dealer = true ∧
    (∀ v ∈ p.conns.peers.map view, v.2.1 = pc.socket → v.1.sn = false ∧ v.1.id = pc.connId) ∧
    ∃ data ∈ p.connects, data.connId = pc.connId ∧ data.connect = pc.onConnect ∧
      data.failure = pc.onFailure
  sockets : ((p.conns.pendingConnects.map unindexed).map (·.socket)).Nodup

variable {p p' : Proxy ι R}

theorem Allotted.keep (h : p.Allotted) (hn : p'.conns.nextConnId = p.conns.nextConnId)
    (hr : p'.conns.requestedIds = p.conns.requestedIds) (hc : p'.connects = p.connects) :
    p'.Allotted := by
  constructor
  · exact hn ▸ h.next
  · exact hr ▸ h.requested
  · exact hn ▸ hr ▸ h.handedOut
  · exact hc ▸ h.connects
  · rw [hn, hr, hc]
    exact h.used

theorem Allotted.requestConn (h : p.Allotted)
    (hn : p'.conns.nextConnId = p.conns.nextConnId + 1)
    (hr : p'.conns.requestedIds = p.conns.requestedIds ++ [p.conns.nextConnId])
    (hc : p'.connects = p.connects) : p'.Allotted := by
  have hnew : p.conns.nextConnId ∉ p.conns.requestedIds :=
    fun hmem => lt_irrefl _ (h.handedOut _ hmem).2
  have hnext := h.next
  refine ⟨?_, ?_, ?_, hc ▸ h.connects, ?_⟩
  · rw [hn]
    exact hnext.trans (lt_add_one _)
  · rw [hr, ← List.concat_eq_append]
    exact h.requested.concat hnew
  · rw [hn, hr]
    intro id hid
    rcases List.mem_append.mp hid with hid | hid
    · exact ⟨(h.handedOut id hid).1, (h.handedOut id hid).2.trans (lt_add_one _)⟩
    · obtain rfl := List.mem_singleton.mp hid
      exact ⟨hnext, lt_add_one _⟩
  · rw [hn, hr, hc]
    intro id hid
    obtain ⟨hpos, hlt, hnot⟩ := h.used id hid
    refine ⟨hpos, hlt.trans (lt_add_one _), fun hmem => ?_⟩
    rcases List.mem_append.mp hmem with hmem | hmem
    · exact hnot hmem
    · exact hlt.ne (List.mem_singleton.mp hmem)

theorem Allotted.connect {data : ConnectRemoteData} (h : p.Allotted)
    (hid : data.connId ∈ p.conns.requestedIds) (hn : p'.conns.nextConnId = p.conns.nextConnId)
    (hr : p'.conns.requestedIds = p.conns.requestedIds.erase data.connId)
    (hc : p'.connects = p.connects ++ [data]) : p'.Allotted := by
  obtain ⟨hpos, hlt⟩ := h.handedOut _ hid
  have hconnects : p'.connects.map (·.connId) = p.connects.map (·.connId) ++ [data.connId] := by
    simp [hc]
  refine ⟨hn ▸ h.next, hr ▸ h.requested.erase _, ?_, ?_, ?_⟩
  · rw [hn, hr]
    exact fun id hmem => h.handedOut id (List.mem_of_mem_erase hmem)
  · rw [hconnects, ← List.concat_eq_append]
    exact h.connects.concat fun hmem => (h.used _ hmem).2.2 hid
  · rw [hconnects, hn, hr]
    intro id hmem
    rcases List.mem_append.mp hmem with hmem | hmem
    · obtain ⟨h₁, h₂, h₃⟩ := h.used id hmem
      exact ⟨h₁, h₂, fun hr => h₃ (List.mem_of_mem_erase hr)⟩
    · obtain rfl := List.mem_singleton.mp hmem
      exact ⟨hpos, hlt, by simp [h.requested.mem_erase_iff]⟩

/-- A socket that is yet to be made occurs in no table. -/
theorem ne_of_fresh (hcons : p.conns.Consistent) {s : Socket} (hs : p.conns.nextSocket ≤ s.handle) :
    (∀ v ∈ p.conns.peers.map view, v.2.1 ≠ s) ∧
      ∀ pc ∈ p.conns.pendingConnects.map unindexed, pc.socket ≠ s := by
  constructor
  · rintro v hv rfl
    obtain ⟨e, he, rfl⟩ := List.mem_map.mp hv
    exact absurd hs (not_le.mpr (hcons.fresh _ (List.mem_of_getElem? (hcons.peers e he))))
  · rintro pc hpc rfl
    obtain ⟨pc₀, hpc₀, rfl⟩ := List.mem_map.mp hpc
    exact absurd hs
      (not_le.mpr (hcons.fresh _ (List.mem_of_getElem? (hcons.pendingConnects pc₀ hpc₀))))

theorem Identified.evolves (h : p.Identified) (hcons : p.conns.Consistent)
    (he : p.conns.Evolves p'.conns) (hc : p'.connects = p.connects) : p'.Identified := by
  obtain ⟨new, hsub, hnew⟩ := he.peers
  have hmem : ∀ v ∈ p'.conns.peers.map view, v ∈ p.conns.peers.map view ∨ v ∈ new :=
    fun v hv => List.mem_append.mp (hsub.subset hv)
  refine ⟨h.ids.keep he.nextConnId he.requestedIds hc, ?_, ?_, ?_, ?_,
    h.sockets.sublist (he.pending.map _)⟩
  · intro v hv hr
    rcases hmem v hv with hv | hv
    · exact h.routed v hv hr
    · exact (hnew v hv).1
  · intro v hv hsn
    rw [hc]
    rcases hmem v hv with hv | hv
    · exact h.known v hv hsn
    · exact absurd (hnew v hv).1 (by simp [hsn])
  · have hnil : new.filter (!·.1.sn) = [] :=
      List.filter_eq_nil_iff.mpr fun v hv => by simp [(hnew v hv).1]
    obtain ⟨vs, hperm, hsub⟩ := hsub
    have hids := (hsub.filter (!·.1.sn)).map (·.1.id)
    rw [List.filter_append, hnil, List.append_nil] at hids
    exact ((hperm.filter _).map _).nodup_iff.mp (h.distinct.sublist hids)
  · intro pc hpc
    have hpc := he.pending.subset hpc
    obtain ⟨hd, hlink, hdata⟩ := h.pending pc hpc
    refine ⟨hd, fun v hv hs => ?_, hc ▸ hdata⟩
    rcases hmem v hv with hv | hv
    · exact hlink v hv hs
    · have hge := (hnew v hv).2 (by rw [hs]; exact hd)
      exact absurd hs.symm ((ne_of_fresh hcons hge).2 pc hpc)

/-- A new outgoing connection with an id of its own. -/
theorem Identified.connected {data : ConnectRemoteData} {pc : PendingConnect} (h : p.Identified)
    (hcons : p.conns.Consistent) (hids : p'.Allotted) (hsn : data.connId ≠ -1)
    (hunused : data.connId ∉ p.connects.map (·.connId))
    (hc : p'.connects = p.connects ++ [data])
    (hviews : p'.conns.peers.map view = p.conns.peers.map view ++
      [(⟨data.connId, data.pubkey, []⟩, ⟨p.conns.nextSocket, true⟩, true)])
    (hpending : p'.conns.pendingConnects.map unindexed =
      p.conns.pendingConnects.map unindexed ++ [pc])
    (hpc : pc.socket = ⟨p.conns.nextSocket, true⟩ ∧ pc.connId = data.connId ∧
      data.connect = pc.onConnect ∧ data.failure = pc.onFailure) : p'.Identified := by
  have hsnew : ConnectionID.sn ⟨data.connId, data.pubkey, []⟩ = false := by
    simpa [ConnectionID.sn, ConnectionID.snId] using hsn
  have hfresh := ne_of_fresh hcons (s := ⟨p.conns.nextSocket, true⟩) (le_refl _)
  have hold : p.connects ⊆ p'.connects := hc ▸ List.subset_append_left _ _
  have hself : data ∈ p'.connects := hc ▸ List.mem_append_right _ (List.mem_singleton_self _)
  refine ⟨hids, ?_, ?_, ?_, ?_, ?_⟩
  · rw [hviews]
    intro v hv hout
    rcases List.mem_append.mp hv with hv | hv
    · exact h.routed v hv hout
    · obtain rfl := List.mem_singleton.mp hv
      cases hout
  · rw [hviews]
    intro v hv hsn'
    rcases List.mem_append.mp hv with hv | hv
    · exact List.map_subset _ hold (h.known v hv hsn')
    · obtain rfl := List.mem_singleton.mp hv
      exact List.mem_map_of_mem hself
  · rw [hviews, List.filter_append, List.filter_cons_of_pos (by simp [hsnew]), List.filter_nil,
      List.map_append, List.map_singleton, ← List.concat_eq_append]
    refine h.distinct.concat fun hmem => hunused ?_
    obtain ⟨v, hv, he⟩ := List.mem_map.mp hmem
    obtain ⟨hv, hvsn⟩ := List.mem_filter.mp hv
    have hknown := h.known v hv (by simpa using hvsn)
    rwa [he] at hknown
  · rw [hviews, hpending]
    intro pc' hpc'
    rcases List.mem_append.mp hpc' with hpc' | hpc'
    · obtain ⟨hdealer, hlink, data', hdata', hcb⟩ := h.pending pc' hpc'
      refine ⟨hdealer, fun v hv hvs => ?_, data', hold hdata', hcb⟩
      rcases List.mem_append.mp hv with hv | hv
      · exact hlink v hv hvs
      · obtain rfl := List.mem_singleton.mp hv
        exact absurd hvs.symm (hfresh.2 pc' hpc')
    · obtain rfl := List.mem_singleton.mp hpc'
      refine ⟨by rw [hpc.1], fun v hv hvs => ?_, data, hself, hpc.2.1.symm, hpc.2.2⟩
      rcases List.mem_append.mp hv with hv | hv
      · exact absurd (hvs.trans hpc.1) (hfresh.1 v hv)
      · obtain rfl := List.mem_singleton.mp hv
        exact ⟨hsnew, hpc.2.1.symm⟩
  · rw [hpending, List.map_append, List.map_singleton, ← List.concat_eq_append]
    refine h.sockets.concat fun hmem => ?_
    obtain ⟨pc', hpc', hs⟩ := List.mem_map.mp hmem
    exact hfresh.2 pc' hpc' (hs.trans hpc.1)

theorem identified_act [DecidableEq ι] (h : p.Identified) (hcons : p.conns.Consistent)
    (hact : Act p p') : p'.Identified := by
  rcases evolves_act hact with ⟨he, hc⟩ | ⟨hconns, hc⟩ |
    ⟨net, now, data, c, es, hid, hc, hconns, hd⟩
  · exact h.evolves hcons he hc
  · refine ⟨h.ids.requestConn (by rw [hconns]) (by rw [hconns]) hc, ?_, ?_, ?_, ?_, ?_⟩ <;>
      rw [hconns]
    · exact h.routed
    · exact hc ▸ h.known
    · exact h.distinct
    · exact hc ▸ h.pending
    · exact h.sockets
  obtain ⟨hsn, ⟨what, rfl, -⟩ | ⟨expiry, info, -, hr, hs, hpeers, hpending, -, hn, hreq⟩⟩ :=
    proxyConnectRemote_eq_some hc
  · have hold : p.connects ⊆ p'.connects := hd ▸ List.subset_append_left _ _
    refine ⟨h.ids.connect hid (by rw [hconns]) (by rw [hconns]) hd, ?_, ?_, ?_, ?_, ?_⟩ <;>
      rw [hconns]
    · exact h.routed
    · exact fun v hv hs => List.map_subset _ hold (h.known v hv hs)
    · exact h.distinct
    · intro pc hpc
      obtain ⟨hdealer, hlink, data', hdata', hcb⟩ := h.pending pc hpc
      exact ⟨hdealer, hlink, data', hold hdata', hcb⟩
    · exact h.sockets
  · refine h.connected hcons (h.ids.connect hid (by rw [hconns, hn]) (by rw [hconns, hreq]) hd) hsn
      (fun hmem => (h.ids.used _ hmem).2.2 hid) hd ?_
      (by rw [hconns, hpending, List.map_append, List.map_singleton]) ⟨rfl, rfl, rfl, rfl⟩
    simp [hconns, hpeers, view, PeerInfo.outgoing, hr, hs]

variable [DecidableEq ι] [Fintype ι]

theorem identified_of_reachable (h : (machine ι R).Reachable p) : p.Identified := by
  refine (reachable_invariant (P := fun p => p.conns.Consistent ∧ p.Identified) ?_ ?_ h).2
  · intro cfg listeners sns commands localServiceNode
    obtain ⟨hnext, hpeers, hpending, hrequested⟩ := Connections.start_eq listeners sns
    refine ⟨(Connections.Consistent.start listeners sns).frame, ⟨hnext, ?_, ?_, ?_, ?_⟩, ?_, ?_,
      ?_, ?_, ?_⟩ <;> simp [Proxy.start, hpeers, hpending, hrequested]
  · rintro p p' ⟨hcons, h⟩ hact
    exact ⟨consistent_act hcons hact, identified_act h hcons hact⟩

end Proxy

theorem ConnectionID.eq_refl (id : ConnectionID) : id.eq id = true := by
  by_cases h : id.sn = true <;> simp [ConnectionID.eq, h]

theorem eq_of_countP_le_one {α : Type} {q : α → Bool} {l : List α} (h : l.countP q ≤ 1) {a b : α}
    (ha : a ∈ l) (hb : b ∈ l) (hqa : q a = true) (hqb : q b = true) : a = b := by
  have ha := List.mem_filter.mpr ⟨ha, hqa⟩
  have hb := List.mem_filter.mpr ⟨hb, hqb⟩
  rw [List.countP_eq_length_filter] at h
  rcases hl : l.filter q with _ | ⟨x, _ | ⟨y, rest⟩⟩
  · rw [hl] at ha
    cases ha
  · rw [hl, List.mem_singleton] at ha hb
    rw [ha, hb]
  · simp [hl] at h

theorem Connections.Consistent.exists_entry {c : Connections} (h : c.Consistent) {i : Nat}
    {s : Socket} {id : ConnectionID} (hs : c.connections[i]? = some s) (hd : s.dealer = true)
    (hid : c.connIndexToId[i]? = some id) :
    ∃ e ∈ c.peers, e.1 = id ∧ e.2.socket = s ∧ e.2.outgoing = true := by
  have hone := h.outgoing i s id hs hd hid
  obtain ⟨l, hl, hid'⟩ := List.mem_map.mp (hone ▸ List.mem_singleton_self id)
  obtain ⟨hl, hls⟩ := List.mem_filter.mp hl
  obtain ⟨v, hv, rfl⟩ := List.mem_map.mp hl
  obtain ⟨hv, ho⟩ := List.mem_filter.mp hv
  obtain ⟨e, he, rfl⟩ := List.mem_map.mp hv
  exact ⟨e, he, hid', of_decide_eq_true hls, ho⟩

/-- The record that is used for a message on socket `i` is that of socket `i`. -/
def Sender.Uses (sender : Sender) (c : Connections) (i : Nat) : Prop :=
  ∃ pos e, sender.position = some pos ∧ c.peers[pos]? = some e ∧ sender.peer = e.2 ∧
    e.2.connIndex = i

namespace Proxy

variable {ι R : Type} {p : Proxy ι R}

/-- Among the entries under the id of an outgoing socket only its own is
outgoing. -/
theorem Identified.own_entry (h : p.Identified) (hcons : p.conns.Consistent) {i : Nat}
    {s : Socket} {id : ConnectionID} (hs : p.conns.connections[i]? = some s)
    (hd : s.dealer = true) (hid : p.conns.connIndexToId[i]? = some id)
    {e : ConnectionID × PeerInfo} (he : e ∈ p.conns.peers) (heq : e.1.eq id = true) :
    e.2.outgoing = true ↔ e.2.connIndex = i := by
  have hidx : p.conns.connections[e.2.connIndex]? = some e.2.socket := hcons.peers e he
  constructor
  · intro ho
    have hone := hcons.outgoing i s id hs hd hid
    obtain ⟨⟨id', s'⟩, hl, rfl⟩ := List.mem_map.mp (hone ▸ List.mem_singleton_self id)
    obtain ⟨hmem, hls⟩ := List.mem_filter.mp hl
    have hss : s' = s := of_decide_eq_true hls
    have hlink : (e.1, e.2.socket) ∈ links (p.conns.peers.map view) :=
      List.mem_map.mpr ⟨view e, List.mem_filter.mpr ⟨List.mem_map_of_mem he, ho⟩, rfl⟩
    have hsame : e.2.socket = s' := by
      by_cases hsn : id'.sn = true
      · have hcount := hcons.serviceNodes id' hsn
        exact congrArg Prod.snd (eq_of_countP_le_one hcount hlink hmem heq id'.eq_refl)
      · obtain ⟨v, hv, hvl⟩ := List.mem_map.mp hmem
        obtain ⟨rfl, rfl⟩ := Prod.mk.inj hvl
        have hids : e.1.id = v.1.id := by
          simp only [ConnectionID.eq, hsn, Bool.and_false, Bool.false_eq_true, if_false,
            Bool.and_eq_true, beq_iff_eq] at heq
          exact heq.1
        have hesn : ¬ e.1.sn = true := by
          rw [ConnectionID.sn, hids]
          exact hsn
        have hview : view e = v := List.inj_on_of_nodup_map h.distinct
          (List.mem_filter.mpr ⟨List.mem_map_of_mem he, by simp [view, hesn]⟩)
          (List.mem_filter.mpr ⟨(List.mem_filter.mp hv).1, by simp [hsn]⟩) hids
        exact congrArg (·.2.1) hview
    have hlt := (List.getElem?_eq_some_iff.mp hidx).1
    refine (List.getElem?_inj hlt hcons.nodup).mp (hidx.trans ?_)
    rw [hs, hsame, hss]
  · rintro rfl
    obtain rfl : e.2.socket = s := Option.some.inj (hidx.symm.trans hs)
    exact (hcons.dealers e he).symm.trans hd

/-- A message on an outgoing socket is handled with the record of that socket
exactly when no incoming connection of the same service node comes before it. -/
theorem uses_iff_outgoing_first [DecidableEq ι] [Fintype ι] (h : (machine ι R).Reachable p)
    {m : Incoming} {l : Link} (hl : p.link m = some l) (hd : l.socket.dealer = true) :
    ∃ sender, l.sender = some sender ∧
      (sender.Uses p.conns m.index ↔
        ((p.conns.equalRange l.id).head?.all (·.1.2.outgoing)) = true) := by
  have hcons := consistent_of_reachable h
  have hident := identified_of_reachable h
  obtain ⟨hs, hid, hout | ⟨route, answer, hin⟩⟩ := link_cases hl
  · have hne : p.conns.equalRange l.id ≠ [] := by
      obtain ⟨e, he, hkey, -⟩ := hcons.exists_entry hs hd hid
      obtain ⟨pos, hpos⟩ := List.mem_iff_getElem?.mp he
      exact List.ne_nil_of_mem (mem_equalRange.mpr ⟨hpos, hkey ▸ e.1.eq_refl⟩)
    obtain ⟨⟨e, pos⟩, range, hrange⟩ := List.exists_cons_of_ne_nil hne
    obtain ⟨hpos, heq⟩ := mem_equalRange.mp
      (hrange ▸ List.mem_cons_self : (e, pos) ∈ p.conns.equalRange l.id)
    have hown := hident.own_entry hcons hs hd hid (List.mem_of_getElem? hpos) heq
    refine ⟨{ conns := p.conns, peer := e.2, position := some pos }, ?_, ?_⟩
    · simp [hout.sender, outgoingSender, hid, hrange]
    · simp only [hrange, List.head?_cons, Option.all_some]
      rw [hown]
      constructor
      · rintro ⟨pos', e', hpos', -, hpeer, hidx⟩
        rw [← hidx, ← hpeer]
      · exact fun hidx => ⟨pos, e, rfl, hpos, rfl, hidx⟩
  · cases hin.dealer.symm.trans hd

/-- A message from a remote that was connected to. -/
theorem uses_of_remote : ∃ (p : Proxy Unit Unit) (l : Link) (sender : Sender),
    (machine Unit Unit).Reachable p ∧
    p.link { index := 1, parts := [bytes "c.r"], now := 0 } = some l ∧
    l.sender = some sender ∧ sender.Uses p.conns 1 := by
  obtain ⟨p, hp, hstate⟩ := sample_reachable.exists_of_run
    [.requestConn,
      .connectRemote sampleNetwork 0
        { connId := 2, connect := 0, failure := 1, remote := bytes "tcp://2:2" }]
    (p := fun p => (p.link { index := 1, parts := [bytes "c.r"], now := 0 }).any fun l =>
      l.socket.dealer && (p.conns.equalRange l.id).head?.all (·.1.2.outgoing)) (by decide +kernel)
  obtain ⟨l, hl, hstate⟩ := (Option.any_eq_true _ _).mp hstate
  obtain ⟨hd, hfirst⟩ := Bool.and_eq_true_iff.mp hstate
  obtain ⟨sender, hs, hiff⟩ := uses_iff_outgoing_first hp hl hd
  exact ⟨p, l, sender, hp, hl, hs, hiff.mpr hfirst⟩

/-- A service node connects in after it was connected to: a message on the outgoing
socket is handled with the record of the incoming connection, which is newer and comes
first in `peers`. -/
theorem uses_incoming_record : ∃ (p : Proxy Unit Unit) (l : Link) (sender : Sender),
    (machine Unit Unit).Reachable p ∧
    p.link { index := 1, parts := [bytes "c.r"], now := 0 } = some l ∧ l.socket.dealer = true ∧
    l.sender = some sender ∧ sender.peer.connIndex = 0 ∧ sender.peer.route = [1] ∧
    sender.position = some 0 := by
  obtain ⟨p₀, hp₀, hstate⟩ := sample_reachable.exists_of_run
    [.control (.connectSn sampleNetwork 0 { keepAlive := 0, pubkey := some sampleKey }),
      .next, .next, .next,
      .zap [bytes "1.0", bytes "1", bytes "i0e", bytes "::1", [], bytes "CURVE", sampleKey],
      .next, .next,
      .incoming { index := 0, session := some (0, [1]), parts := [bytes "c.r", [9]], now := 0 }]
    (p := fun p => ((machine Unit Unit).step p
      (.rehash p.conns.peers.reverse p.pendingRequests)).any fun (p : Proxy Unit Unit) =>
        (p.link { index := 1, parts := [bytes "c.r"], now := 0 }).any fun l =>
          l.socket.dealer && l.sender.any fun sender => sender.peer.connIndex = 0 &&
            sender.peer.route = [1] && sender.position = some 0) (by decide +kernel)
  obtain ⟨p, hstep, hstate⟩ := (Option.any_eq_true _ _).mp hstate
  have hp := hp₀.step hstep
  obtain ⟨l, hl, hstate⟩ := (Option.any_eq_true _ _).mp hstate
  obtain ⟨hd, hstate⟩ := Bool.and_eq_true_iff.mp hstate
  obtain ⟨sender, hs, hstate⟩ := (Option.any_eq_true _ _).mp hstate
  simp only [Bool.and_eq_true, decide_eq_true_eq] at hstate
  exact ⟨p, l, sender, hp, hl, hd, hs, hstate.1.1, hstate.1.2, hstate.2⟩

end Proxy

end ArqmaMQ
