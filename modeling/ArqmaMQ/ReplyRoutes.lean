import ArqmaMQ.Listeners

/-! Connections are known to callers by their ids. As long as a socket is open its
id leads to it, and an id never comes to stand for another socket. -/

namespace ArqmaMQ

open Connections

namespace Connections

variable {c c' c'' : Connections}

/-- Sockets keep their ids, and new sockets are new. -/
structure Aged (c c' : Connections) : Prop where
  nextSocket : c.nextSocket ≤ c'.nextSocket
  ids : ∀ x ∈ c'.connections.zip c'.connIndexToId,
    x ∈ c.connections.zip c.connIndexToId ∨ c.nextSocket ≤ x.1.handle

theorem Aged.refl (c : Connections) : Aged c c := ⟨Nat.le_refl _, fun _ => .inl⟩

theorem Aged.trans (h : Aged c c') (h' : Aged c' c'') : Aged c c'' := by
  refine ⟨h.nextSocket.trans h'.nextSocket, fun x hx => ?_⟩
  rcases h'.ids x hx with hx | hx
  · exact h.ids x hx
  · exact .inr (h.nextSocket.trans hx)

theorem Listening.aged_edit (h : c.Listening) (he : Edit c c') : Aged c c' := by
  cases he with
  | close k _ =>
    refine ⟨Nat.le_refl _, fun x hx => .inl ?_⟩
    rw [closeConnection, Renumber.zip_eraseIdx] at hx
    exact List.mem_of_mem_eraseIdx hx
  | connect id info =>
    refine ⟨Nat.le_succ _, fun x hx => ?_⟩
    rw [addOutgoing, List.zip_append h.length.symm] at hx
    rcases List.mem_append.mp hx with hx | hx
    · exact .inl hx
    · obtain rfl := List.mem_singleton.mp hx
      exact .inr (Nat.le_refl _)
  | _ => exact ⟨Nat.le_refl _, fun _ => .inl⟩

theorem Listening.aged (h : c.Listening) (he : Edits c c') : Aged c c' := by
  induction he with
  | refl => exact .refl c
  | tail hes he ih => exact ih.trans ((h.edits hes).1.aged_edit he)

/-- A socket that is still open has the id it had. -/
theorem Aged.id_eq (h : Aged c c') (hcons : c.Consistent) {i j : Nat} {s : Socket}
    {id id' : ConnectionID} (hs : c.connections[i]? = some s) (hid : c.connIndexToId[i]? = some id)
    (hs' : c'.connections[j]? = some s) (hid' : c'.connIndexToId[j]? = some id') : id' = id := by
  have hmem : (s, id') ∈ c'.connections.zip c'.connIndexToId :=
    List.mem_of_getElem? (List.getElem?_zip_eq_some.mpr ⟨hs', hid'⟩)
  rcases h.ids _ hmem with hmem | hnew
  · obtain ⟨k, hk⟩ := List.mem_iff_getElem?.mp hmem
    obtain ⟨hks, hkid⟩ := List.getElem?_zip_eq_some.mp hk
    have hlt := (List.getElem?_eq_some_iff.mp hs).1
    obtain rfl := (List.getElem?_inj hlt hcons.nodup).mp (hs.trans hks.symm)
    exact Option.some.inj (hkid.symm.trans hid)
  · exact absurd hnew (Nat.not_le.mpr (hcons.fresh s (List.mem_of_getElem? hs)))

/-- The listening sockets are numbered from 0, and their ids from 1. -/
structure Established (c : Connections) (n : Nat) : Prop where
  sockets : c.listeningSockets = (List.range n).map fun i => (⟨i, false⟩, { id := i + 1 })
  listening : c.incomingConnIndex.map unindexedListen =
    ((List.range n).map listenEntry).map unindexedListen

theorem Started.established {listeners : List Listener} (h : c.Started listeners) :
    c.Established listeners.length :=
  ⟨h.listeningSockets, by rw [h.incomingConnIndex]⟩

theorem Established.retains {n : Nat} (h : c.Established n) (hr : Retains c c') :
    c'.Established n :=
  ⟨hr.sockets.trans h.sockets, hr.listening.trans h.listening⟩

theorem Established.id_eq {n i : Nat} {s : Socket} {id : ConnectionID} (h : c.Established n)
    (hs : c.connections[i]? = some s) (hid : c.connIndexToId[i]? = some id)
    (hd : s.dealer = false) : s.handle < n ∧ id = { id := s.handle + 1 } := by
  have hmem : (s, id) ∈ c.listeningSockets := List.mem_filter.mpr
    ⟨List.mem_of_getElem? (List.getElem?_zip_eq_some.mpr ⟨hs, hid⟩), by simp [hd]⟩
  rw [h.sockets] at hmem
  obtain ⟨j, hj, heq⟩ := List.mem_map.mp hmem
  obtain ⟨rfl, rfl⟩ := Prod.mk.inj heq
  exact ⟨List.mem_range.mp hj, rfl⟩

theorem eq_listenId (i j : Nat) :
    ConnectionID.eq { id := (j : Int) + 1 } { id := (i : Int) + 1 } = true ↔ j = i := by
  have hsn : ConnectionID.sn { id := (j : Int) + 1 } = false := by
    simp only [ConnectionID.sn, ConnectionID.snId, beq_eq_false_iff_ne]
    omega
  simp [ConnectionID.eq, hsn]

/-- The id of a listening socket leads to it. -/
theorem Established.find? {n i : Nat} (h : c.Established n) (hcons : c.Consistent) (hi : i < n) :
    ∃ l, c.incomingConnIndex.find? (·.connId.eq { id := i + 1 }) = some l ∧
      c.connections[l.index]? = some ⟨i, false⟩ := by
  have hentry {l : ListenIndex} (hl : l ∈ c.incomingConnIndex) :
      ∃ j, j < n ∧ l.connId = { id := j + 1 } ∧ l.socket = ⟨j, false⟩ := by
    have hmem := List.mem_map_of_mem (f := unindexedListen) hl
    rw [h.listening, List.map_map] at hmem
    obtain ⟨j, hj, heq⟩ := List.mem_map.mp hmem
    obtain ⟨hid, -, hs⟩ := ListenIndex.mk.inj heq
    exact ⟨j, List.mem_range.mp hj, hid.symm, hs.symm⟩
  have hsome : (c.incomingConnIndex.find? (·.connId.eq { id := i + 1 })).isSome = true := by
    have hmem : unindexedListen (listenEntry i) ∈ c.incomingConnIndex.map unindexedListen := by
      rw [h.listening]
      exact List.mem_map_of_mem (List.mem_map_of_mem (List.mem_range.mpr hi))
    obtain ⟨l, hl, heq⟩ := List.mem_map.mp hmem
    obtain ⟨hid, -⟩ := ListenIndex.mk.inj heq
    rw [List.find?_isSome]
    exact ⟨l, hl, by rw [hid]; exact (eq_listenId i i).mpr rfl⟩
  obtain ⟨l, hl⟩ := Option.isSome_iff_exists.mp hsome
  have hmem := List.mem_of_find?_eq_some hl
  obtain ⟨j, -, hid, hs⟩ := hentry hmem
  have heq := List.find?_some hl
  rw [hid, eq_listenId] at heq
  subst heq
  exact ⟨l, hl, hs ▸ hcons.listening l hmem⟩

theorem route_of_incomingSender {connIndex : Nat} {socket : Socket} {route : Bytes}
    {m : Properties} (h : (c.incomingSender connIndex socket route m).peer.serviceNode = false) :
    (c.incomingSender connIndex socket route m).route = route := by
  unfold incomingSender at h ⊢
  dsimp only at h ⊢
  split at h
  · rename_i hsn
    rw [if_pos hsn]
    split at h
    · rfl
    · rw [hsn] at h
      cases h
  · rename_i hsn
    rw [if_neg hsn]

end Connections

namespace Proxy

variable {ι R : Type} [DecidableEq ι] {p p' p'' : Proxy ι R}

/-- What `p'`, which comes later than `p`, has in common with it. -/
structure Follows (p p' : Proxy ι R) : Prop where
  retaining : Retaining p p'
  identified : p'.Identified
  aged : Aged p.conns p'.conns
  connects : p.connects ⊆ p'.connects
  entries : ∀ v ∈ p'.conns.peers.map view, v.1.sn = false →
    v.1.id ∈ p.connects.map (·.connId) → v ∈ p.conns.peers.map view

omit [DecidableEq ι] in
theorem Follows.refl (h : Retaining p p) (hident : p.Identified) : Follows p p :=
  ⟨h, hident, .refl _, List.Subset.refl _, fun _ hv _ _ => hv⟩

theorem Follows.act (h : Follows p p') (hact : Act p' p'') : Follows p p'' := by
  have hedits := edits_act h.retaining.consistent h.retaining.pending hact
  refine ⟨h.retaining.act hact, identified_act h.identified h.retaining.consistent hact,
    h.aged.trans (h.retaining.listening.aged hedits), ?_, ?_⟩
  · rcases evolves_act hact with ⟨-, hc⟩ | ⟨-, hc⟩ | ⟨-, -, data, -, -, -, -, -, hc⟩
    · exact hc ▸ h.connects
    · exact hc ▸ h.connects
    · rw [hc]
      exact fun d hd => List.mem_append_left _ (h.connects hd)
  · intro v hv hsn hid
    rcases evolves_act hact with ⟨he, -⟩ | ⟨hc, -⟩ | ⟨net, now, data, c, es, hdata, hc, hconns, -⟩
    · obtain ⟨new, hsub, hnew⟩ := he.peers
      rcases List.mem_append.mp (hsub.subset hv) with hv | hv
      · exact h.entries v hv hsn hid
      · rw [(hnew v hv).1] at hsn
        cases hsn
    · rw [hc] at hv
      exact h.entries v hv hsn hid
    · rw [hconns] at hv
      obtain ⟨-, ⟨what, rfl, -⟩ | ⟨expiry, info, -, -, -, hpeers, -⟩⟩ :=
        proxyConnectRemote_eq_some hc
      · exact h.entries v hv hsn hid
      · change v ∈ c.peers.map view at hv
        rw [hpeers, List.map_append] at hv
        rcases List.mem_append.mp hv with hv | hv
        · exact h.entries v hv hsn hid
        · -- the id of a new connection has not been used before
          obtain rfl := List.mem_singleton.mp hv
          have hused := List.map_subset (·.connId) h.connects hid
          exact absurd hdata (h.identified.ids.used _ hused).2.2

variable {m : Incoming} {l : Link}

omit [DecidableEq ι] in
/-- An id that `connect_remote` gave out leads to its socket, or is not known any more. -/
theorem lookup_outgoing (h : Follows p p') (hcons : p.conns.Consistent) (hident : p.Identified)
    (hl : p.link m = some l) (hd : l.socket.dealer = true) (hsn : l.id.sn = false) :
    (∀ e i, (p'.conns.equalRange { id := l.id.id }).head? = some (e, i) →
      p'.conns.connections[e.2.connIndex]? = some l.socket) ∧
    (p'.conns.equalRange { id := l.id.id } = [] → l.socket ∉ p'.conns.connections) := by
  obtain ⟨hsocket, hid, -⟩ := link_cases hl
  obtain ⟨e₀, he₀, heid, hes, -⟩ := hcons.exists_entry hsocket hd hid
  have hroute : l.id.route = [] := heid ▸ hcons.keys e₀ he₀
  have hview₀ : view e₀ ∈ p.conns.peers.map view := List.mem_map_of_mem he₀
  have hsn₀ : (view e₀).1.sn = false := by rw [view, heid, hsn]
  have hknown : l.id.id ∈ p.connects.map (·.connId) := by
    have hknown := hident.known _ hview₀ hsn₀
    rwa [view, heid] at hknown
  have hcons' := h.retaining.consistent
  have hsn' : ConnectionID.sn { id := l.id.id } = false := hsn
  refine ⟨fun e i hhead => ?_, fun hnil hmem => ?_⟩
  · obtain ⟨hpos, heq⟩ := mem_equalRange.mp (List.mem_of_head? hhead)
    have hmem := List.mem_of_getElem? hpos
    simp only [ConnectionID.eq, hsn', Bool.and_false, Bool.false_eq_true, if_false,
      Bool.and_eq_true, beq_iff_eq] at heq
    have hesn : (view e).1.sn = false := by
      rw [view, ConnectionID.sn, heq.1]
      exact hsn
    have hview := h.entries _ (List.mem_map_of_mem hmem) hesn (by rw [view, heq.1]; exact hknown)
    have hsame : view e = view e₀ := List.inj_on_of_nodup_map hident.distinct
      (List.mem_filter.mpr ⟨hview, by simp [hesn]⟩)
      (List.mem_filter.mpr ⟨hview₀, by simp [hsn₀]⟩) (by rw [view, view, heq.1, heid])
    have hsock : e.2.socket = l.socket := (congrArg (·.2.1) hsame).trans hes
    exact hsock ▸ hcons'.peers e hmem
  · obtain ⟨j, hj⟩ := List.mem_iff_getElem?.mp hmem
    have hlt := (List.getElem?_eq_some_iff.mp hj).1
    have hid' := List.getElem?_eq_getElem (hcons'.length ▸ hlt : j < p'.conns.connIndexToId.length)
    obtain ⟨e, he, heid', -⟩ := hcons'.exists_entry hj hd hid'
    rw [h.aged.id_eq hcons hsocket hid hj hid'] at heid'
    obtain ⟨pos, hpos⟩ := List.mem_iff_getElem?.mp he
    have hrange : (e, pos) ∈ p'.conns.equalRange { id := l.id.id } := by
      refine mem_equalRange.mpr ⟨hpos, ?_⟩
      simp [ConnectionID.eq, hsn', heid', hroute]
    rw [hnil] at hrange
    cases hrange

variable [Fintype ι]

theorem retaining_of_reachable (h : (machine ι R).Reachable p) : Retaining p p := by
  obtain ⟨p₀, ⟨cfg, listeners, sns, commands, localServiceNode, -, rfl⟩, hruns⟩ := h.exists_runs
  obtain ⟨hcons, hpending, hlistening, -⟩ :=
    retaining_of_runs (retaining_start cfg listeners sns commands localServiceNode) hruns
  exact ⟨hcons, hpending, hlistening, .refl _⟩

theorem follows_of_runs (h : (machine ι R).Reachable p) (hruns : (machine ι R).Runs p p') :
    Follows p p' := by
  refine hruns.invariant (P := Follows p) ?_
    (.refl (retaining_of_reachable h) (identified_of_reachable h))
  intro s e s' hs hstep
  exact Transition.reflTransGen_invariant (fun _ _ hact h => h.act hact) (acts_of_step hstep) hs

theorem exists_established (h : (machine ι R).Reachable p) : ∃ n, p.conns.Established n := by
  obtain ⟨p₀, ⟨cfg, listeners, sns, commands, localServiceNode, -, rfl⟩, hruns⟩ := h.exists_runs
  have hretains :=
    (retaining_of_runs (retaining_start cfg listeners sns commands localServiceNode) hruns).retains
  exact ⟨_, (started_proxy cfg listeners sns commands localServiceNode).established.retains
    hretains⟩

/-- The socket that a message to the sender of `m` is sent on, however much later, is
the one that `m` came in on, unless that has been closed. -/
theorem target_of_link (hp : (machine ι R).Reachable p) (hruns : (machine ι R).Runs p p')
    (hl : p.link m = some l) {sender : Sender} (hs : l.sender = some sender)
    (hpeer : sender.peer.serviceNode = false) (hsn : l.id.sn = false) (env : SendEnv)
    {o : SendOptions} (ho : o.conn = { id := l.id.id, route := sender.route }) :
    sender.route = l.route.getD [] ∧
    ∃ t, (SendState.start o p'.conns).target env o = some (t, .start o p'.conns) ∧
      (∀ i, t = some i → p'.conns.connections[i]? = some l.socket) ∧
      (t = none → l.socket ∉ p'.conns.connections) := by
  have hfollows := follows_of_runs hp hruns
  have hcons := consistent_of_reachable hp
  obtain ⟨hsocket, hid, hlink⟩ := link_cases hl
  have hconn : (SendState.start o p'.conns).conn = { id := l.id.id, route := sender.route } := ho
  have hconnsn : (SendState.start o p'.conns).conn.sn = false := by
    rw [hconn]
    exact hsn
  rw [SendState.target, if_neg (by simp [hconnsn]), hconn]
  rcases hlink with hout | ⟨route, answer, hin⟩
  · have hempty : sender.route = [] := by
      obtain ⟨id, e, i, -, -, rfl⟩ := outgoingSender_eq_some (hout.sender ▸ hs)
      rfl
    obtain ⟨hfound, hgone⟩ := lookup_outgoing hfollows hcons (identified_of_reachable hp) hl
      hout.dealer hsn
    refine ⟨by rw [hempty, hout.route]; rfl, _, if_neg (by simp [hempty]), ?_, ?_⟩
    · intro i hi
      rw [hempty] at hi
      obtain ⟨⟨e, pos⟩, hhead, rfl⟩ := Option.map_eq_some_iff.mp hi
      exact hfound e pos hhead
    · intro hnone
      rw [hempty] at hnone
      exact hgone (List.head?_eq_none_iff.mp (Option.map_eq_none_iff.mp hnone))
  · have hroute' : sender.route = route := by
      obtain rfl := Option.some.inj (hin.sender.symm.trans hs)
      exact route_of_incomingSender hpeer
    have hd := hin.dealer
    obtain ⟨n, hn⟩ := exists_established hp
    obtain ⟨hlt, hlid⟩ := hn.id_eq hsocket hid hd
    obtain ⟨l', hfind, hindex⟩ := (hn.retains hfollows.retaining.retains).find?
      hfollows.retaining.consistent hlt
    have hlsocket : l.socket = ⟨l.socket.handle, false⟩ := by rw [← hd]
    refine ⟨by rw [hroute', hin.via]; rfl, some l'.index, ?_, ?_, by simp⟩
    · rw [if_pos (by rw [hroute']; exact hin.ne_nil)]
      have hunrouted : ConnectionID.unrouted { id := l.id.id, route := sender.route } =
          { id := l.socket.handle + 1 } := by
        rw [hlid]
        rfl
      rw [hunrouted]
      change some ((p'.conns.incomingConnIndex.find? _).map _, _) = _
      rw [hfind]
      rfl
    · intro i hi
      obtain rfl := Option.some.inj hi
      rw [hindex, ← hlsocket]

end Proxy

end ArqmaMQ
