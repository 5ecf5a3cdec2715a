import ArqmaMQ.PendingConnects
import ArqmaMQ.ProxyRequests

/-! What comes of a CONNECT_REMOTE: it is pending, or one of its callbacks is
scheduled, unless its connection is closed from elsewhere. -/

namespace ArqmaMQ

open Jobs Connections

theorem perm_cons_eraseP {α : Type} {q : α → Bool} {l : List α} {a : α} (h : l.find? q = some a) :
    l.Perm (a :: l.eraseP q) := by
  induction l with
  | nil => cases h
  | cons b l ih =>
    by_cases hb : q b = true
    · obtain rfl : b = a := by simpa [hb] using h
      rw [List.eraseP_cons_of_pos hb]
    · rw [List.find?_cons_of_neg hb] at h
      rw [List.eraseP_cons_of_neg hb]
      exact ((ih h).cons b).trans (.swap ..)

/-- The connect whose outcome a function reports. -/
def Closure.connect? : Closure → Option Int
  | .connectSuccess _ conn => some conn.id
  | .connectFailure _ conn _ => some conn.id
  | _ => none

/-- One of the callbacks of a CONNECT_REMOTE, called for its id. -/
def Closure.Concludes (data : ConnectRemoteData) : Closure → Prop
  | .connectSuccess callback conn => callback = data.connect ∧ conn.id = data.connId
  | .connectFailure callback conn _ => callback = data.failure ∧ conn.id = data.connId
  | _ => False

theorem Closure.connect?_of_isUser {f : Closure} (h : f.isUser = true) : f.connect? = none := by
  cases f <;> first | rfl | cases h

theorem Closure.Concludes.connect? {data : ConnectRemoteData} {f : Closure} (h : f.Concludes data) :
    f.connect? = some data.connId := by
  cases f with
  | connectSuccess callback conn => exact congrArg some h.2
  | connectFailure callback conn what => exact congrArg some h.2
  | _ => cases h

theorem SendState.Failures.connect?_afterLoop {s : SendState} (h : s.Failures) (o : SendOptions) :
    ∀ e ∈ s.afterLoop o, e.closure.connect? = none := by
  have hnone : ∀ e ∈ s.effects, e.closure.connect? = none := by
    intro e he
    obtain ⟨f, num, rfl⟩ := h e he
    rfl
  by_cases hsent : s.sent = true
  · rw [SendState.afterLoop, if_pos hsent]
    exact hnone
  · rw [s.afterLoop_eq o hsent]
    intro e he
    rcases List.mem_append.mp he with he | he
    · exact hnone e he
    · obtain ⟨f, hf, rfl⟩ := List.mem_map.mp he
      rcases List.mem_append.mp hf with hf | hf
      · obtain ⟨r, -, rfl⟩ := List.mem_map.mp hf
        rfl
      · obtain ⟨g, rfl | rfl⟩ := SendState.eq_of_notice (Option.mem_toList.mp hf) <;> rfl

theorem Requests.connect?_answer (rs : Requests) (tag : Bytes) (success : Bool)
    (data : List Bytes) : ∀ e ∈ (rs.answer tag success data).2, e.closure.connect? = none := by
  unfold answer
  split <;> simp [Effect.closure, Closure.connect?]

theorem Connections.Consistent.index_eq_iff {c : Connections} (h : c.Consistent)
    {e : ConnectionID × PeerInfo} {pc : PendingConnect} (he : e ∈ c.peers)
    (hpc : pc ∈ c.pendingConnects) : e.2.connIndex = pc.connIndex ↔ e.2.socket = pc.socket := by
  have hidx : c.connections[e.2.connIndex]? = some e.2.socket := h.peers e he
  have hidx' : c.connections[pc.connIndex]? = some pc.socket := h.pendingConnects pc hpc
  constructor
  · intro hi
    rw [hi] at hidx
    exact Option.some.inj (hidx.symm.trans hidx')
  · intro hs
    refine (List.getElem?_inj (List.getElem?_eq_some_iff.mp hidx).1 h.nodup).mp ?_
    rw [hidx, hidx', hs]

def Connections.pendingIds (c : Connections) : List Int := c.pendingConnects.map (·.connId)

theorem Connections.pendingIds_eq (c : Connections) :
    c.pendingIds = (c.pendingConnects.map unindexed).map (·.connId) := by
  rw [List.map_map]
  rfl

/-- A cleanup closes idle connections without a word, and reports the connects
that have timed out. -/
theorem Connections.Consistent.perm_cleanup {c : Connections} (h : c.Consistent)
    (hn : ((c.pendingConnects.map unindexed).map (·.socket)).Nodup) (clock : ConnectionID → Int)
    (now : Int) :
    c.pendingIds.Perm (((c.proxyExpireIdlePeers clock).timeOutConnects now).1.pendingIds ++
      (((c.proxyExpireIdlePeers clock).timeOutConnects now).2.map Effect.closure).filterMap
        Closure.connect? ++
      (c.pendingConnects.filter fun pc =>
        c.peers.any fun e => idle clock e && e.2.connIndex = pc.connIndex).map (·.connId)) ∧
    ∀ e ∈ ((c.proxyExpireIdlePeers clock).timeOutConnects now).2,
      ∃ pc ∈ c.pendingConnects.map unindexed, e = timedOut pc := by
  have hexpire := h.pending_proxyExpireIdlePeers clock
  have hnd : (((c.proxyExpireIdlePeers clock).pendingConnects.map unindexed).map
      (·.socket)).Nodup := by
    rw [hexpire]
    exact hn.sublist (List.filter_sublist.map _)
  obtain ⟨hleft, hout⟩ := (h.proxyExpireIdlePeers clock).timeOutConnects_spec hnd now
  have hfailures (pcs : List PendingConnect) :
      ((pcs.map timedOut).map Effect.closure).filterMap Closure.connect? = pcs.map (·.connId) := by
    rw [List.map_map, List.filterMap_map]
    exact congrFun List.filterMap_eq_map _
  have hlost : (c.pendingConnects.filter fun pc =>
      c.peers.any fun e => idle clock e && e.2.connIndex = pc.connIndex).map (·.connId) =
      ((c.pendingConnects.map unindexed).filter fun pc =>
        c.peers.any fun e => idle clock e && e.2.socket = pc.socket).map (·.connId) := by
    rw [List.filter_map, List.map_map]
    refine congrArg (List.map PendingConnect.connId) (List.filter_congr fun pc hpc => ?_)
    rw [Bool.eq_iff_iff]
    simp only [Function.comp_apply, List.any_eq_true, Bool.and_eq_true, decide_eq_true_eq]
    refine exists_congr fun e => and_congr_right fun he => and_congr_right fun _ => ?_
    exact h.index_eq_iff he hpc
  have hkept (q : PendingConnect → Bool) (l : List PendingConnect) :
      l.Perm (l.filter (!q ·) ++ l.filter q) :=
    (List.filter_append_perm q l).symm.trans List.perm_append_comm
  constructor
  · rw [hlost, pendingIds_eq, pendingIds_eq, hleft, hout, hfailures, hexpire, ← List.map_append,
      ← List.map_append]
    refine List.Perm.map _ ((hkept _ _).trans (List.Perm.append_right _ ?_))
    simpa only [decide_not] using hkept (·.expiry < now) _
  · intro e he
    rw [hout, hexpire] at he
    obtain ⟨pc, hpc, rfl⟩ := List.mem_map.mp he
    exact ⟨pc, (List.mem_filter.mp (List.mem_filter.mp hpc).1).1, rfl⟩

namespace Proxy

variable {ι R : Type}

/-- The calls that report the outcome of a connect. -/
def outcomes (p : Proxy ι R) (id : Int) : List Closure :=
  p.scheduled.filter (·.connect? == some id)

/-- Every CONNECT_REMOTE is pending with neither callback called, or not pending
any more and one of its callbacks has been called once. -/
def OneOutcome (p : Proxy ι R) : Prop :=
  ∀ data ∈ p.connects,
    data.connId ∈ p.conns.pendingIds ∧ p.outcomes data.connId = [] ∨
    data.connId ∉ p.conns.pendingIds ∧ ∃ f, p.outcomes data.connId = [f] ∧ f.Concludes data

/-- The event closes the connection of a pending connect: DISCONNECT and BYE
do, and the time after which idle connections are closed. -/
def interrupts (p : Proxy ι R) (e : ProxyEvent ι R) (pc : PendingConnect) : Bool :=
  match e with
  | .control (.disconnect data) =>
    ((p.conns.equalRange { id := data.connId, pk := data.pubkey }).find? (·.1.2.outgoing)).any
      fun it => pc.connIndex = it.1.2.connIndex
  | .cleanup clock _ => p.conns.peers.any fun e => idle clock e && e.2.connIndex = pc.connIndex
  | .incoming m => m.session.isNone && m.parts.head? = some (bytes "BYE") && pc.connIndex = m.index
  | _ => false

def Concluded (p : Proxy ι R) (f : Closure) : Prop :=
  f.connect? = none ∨ ∃ data ∈ p.connects, f.Concludes data

structure Balanced (p : Proxy ι R) : Prop where
  balance : (p.connects.map (·.connId)).Perm
    (p.conns.pendingIds ++ p.scheduled.filterMap Closure.connect?)
  concluded : ∀ f ∈ p.scheduled, p.Concluded f

/-- The books of a step: connects come and are concluded, or get lost. -/
def Books (p p' : Proxy ι R) (lost : List Int) : Prop :=
  ∃ new fs, p'.connects = p.connects ++ new ∧
    Schedules p.dispatch.jobs p'.dispatch.jobs fs ∧
    (p.conns.pendingIds ++ new.map (·.connId)).Perm
      (p'.conns.pendingIds ++ fs.filterMap Closure.connect? ++ lost) ∧
    ∀ f ∈ fs, p'.Concluded f

variable {p p' p'' : Proxy ι R} {lost : List Int}

/-- A step that has nothing to do with connects. -/
structure Calm (p p' : Proxy ι R) : Prop where
  connects : p'.connects = p.connects
  pending : p'.conns.pendingIds = p.conns.pendingIds
  scheduled : ∃ fs, Schedules p.dispatch.jobs p'.dispatch.jobs fs ∧ ∀ f ∈ fs, f.connect? = none

theorem Calm.of_jobs (hc : p'.connects = p.connects) (hp : p'.conns.pendingIds = p.conns.pendingIds)
    (hj : Schedules p.dispatch.jobs p'.dispatch.jobs []) : Calm p p' :=
  ⟨hc, hp, [], hj, by simp⟩

theorem Calm.of_effects {es : List Effect} (hc : p'.connects = p.connects)
    (hp : p'.conns.pendingIds = p.conns.pendingIds)
    (hj : Schedules p.dispatch.jobs p'.dispatch.jobs (es.map Effect.closure))
    (hes : ∀ e ∈ es, e.closure.connect? = none) : Calm p p' :=
  ⟨hc, hp, _, hj, by simpa using hes⟩

theorem Calm.refl (p : Proxy ι R) : Calm p p := .of_jobs rfl rfl (.refl _)

theorem Calm.trans (h : Calm p p') (h' : Calm p' p'') : Calm p p'' := by
  obtain ⟨fs, hs, hf⟩ := h.scheduled
  obtain ⟨gs, hs', hg⟩ := h'.scheduled
  refine ⟨h'.connects.trans h.connects, h'.pending.trans h.pending, fs ++ gs, hs.trans hs', ?_⟩
  intro f hmem
  rcases List.mem_append.mp hmem with hmem | hmem
  · exact hf f hmem
  · exact hg f hmem

theorem Books.calm (h : Books p p' lost) (h' : Calm p' p'') : Books p p'' lost := by
  obtain ⟨new, fs, hc, hs, hperm, hf⟩ := h
  obtain ⟨gs, hs', hg⟩ := h'.scheduled
  refine ⟨new, fs ++ gs, h'.connects.trans hc, hs.trans hs', ?_, ?_⟩
  · rw [List.filterMap_append, List.filterMap_eq_nil_iff.mpr hg, List.append_nil, h'.pending]
    exact hperm
  · intro f hmem
    rcases List.mem_append.mp hmem with hmem | hmem
    · rw [Concluded, h'.connects]
      exact hf f hmem
    · exact .inl (hg f hmem)

theorem Books.refl (p : Proxy ι R) : Books p p [] :=
  ⟨[], [], by simp, .refl _, by simp, by simp⟩

theorem Calm.books (h : Calm p p') : Books p p' [] := (Books.refl p).calm h

/-- A connection is closed, and nobody told. -/
theorem Books.close (k : Nat) (hc : p'.connects = p.connects)
    (hs : Schedules p.dispatch.jobs p'.dispatch.jobs [])
    (hp : p'.conns.pendingConnects = (p.conns.closeConnection k).pendingConnects) :
    Books p p' ((p.conns.pendingConnects.filter (·.connIndex = k)).map (·.connId)) := by
  refine ⟨[], [], by simp [hc], hs, ?_, by simp⟩
  have hperm := Renumber.perm_update connectSlot (f := fun pc => pc.connId)
    (fun _ _ => rfl) k p.conns.pendingConnects
  rw [List.map_nil, List.append_nil, List.filterMap_nil, List.append_nil, pendingIds, pendingIds,
    hp]
  exact hperm

theorem Balanced.step (h : p.Balanced) (hb : Books p p' []) : p'.Balanced := by
  obtain ⟨new, fs, hc, hs, hperm, hf⟩ := hb
  have hsched : p'.scheduled = p.scheduled ++ fs := hs.closures
  constructor
  · refine List.perm_iff_count.mpr fun id => ?_
    have hold := h.balance.count_eq id
    have hnew := hperm.count_eq id
    rw [hc, hsched]
    simp only [List.map_append, List.filterMap_append, List.count_append, List.count_nil]
      at hold hnew ⊢
    omega
  · intro f hmem
    rw [hsched] at hmem
    rcases List.mem_append.mp hmem with hmem | hmem
    · refine (h.concluded f hmem).imp_right ?_
      rintro ⟨data, hdata, hcon⟩
      exact ⟨data, hc ▸ List.mem_append_left _ hdata, hcon⟩
    · exact hf f hmem

theorem length_outcomes (p : Proxy ι R) (id : Int) :
    (p.outcomes id).length = (p.scheduled.filterMap Closure.connect?).count id := by
  rw [List.count_filterMap, List.countP_eq_length_filter]
  rfl

theorem Balanced.oneOutcome (h : p.Balanced) (hn : (p.connects.map (·.connId)).Nodup) :
    p.OneOutcome := by
  intro data hdata
  have hone : p.conns.pendingIds.count data.connId + (p.outcomes data.connId).length = 1 := by
    rw [length_outcomes, ← List.count_append, ← h.balance.count_eq]
    exact List.count_eq_one_of_mem hn (List.mem_map_of_mem hdata)
  by_cases hp : data.connId ∈ p.conns.pendingIds
  · have hpos := List.count_pos_iff.mpr hp
    exact .inl ⟨hp, List.length_eq_zero_iff.mp (by omega)⟩
  · rw [List.count_eq_zero.mpr hp, Nat.zero_add] at hone
    obtain ⟨f, hf⟩ := List.length_eq_one_iff.mp hone
    refine .inr ⟨hp, f, hf, ?_⟩
    obtain ⟨hmem, hid⟩ :=
      List.mem_filter.mp (hf ▸ List.mem_singleton_self f : f ∈ p.outcomes data.connId)
    have hid : f.connect? = some data.connId := beq_iff_eq.mp hid
    rcases h.concluded f hmem with hnone | ⟨data', hdata', hcon⟩
    · rw [hnone] at hid
      cases hid
    · have hsame : data'.connId = data.connId :=
        Option.some.inj (hcon.connect?.symm.trans hid)
      rwa [List.inj_on_of_nodup_map hn hdata' hdata hsame] at hcon

/-- A connect that gets lost is neither pending nor concluded. -/
theorem Balanced.not_oneOutcome (h : p.Balanced) (hb : Books p p' lost)
    (hn : (p'.connects.map (·.connId)).Nodup) {id : Int} (hid : id ∈ lost) : ¬ p'.OneOutcome := by
  obtain ⟨new, fs, hc, hs, hperm, -⟩ := hb
  have hsched : p'.scheduled = p.scheduled ++ fs := hs.closures
  have hold := h.balance.count_eq id
  have hnew := hperm.count_eq id
  have hpos := List.count_pos_iff.mpr hid
  have hone := List.nodup_iff_count_le_one.mp hn id
  have hout := p'.length_outcomes id
  rw [hsched] at hout
  rw [hc] at hone
  simp only [List.map_append, List.filterMap_append, List.count_append] at hold hnew hone hout
  have hmem : id ∈ p'.connects.map (·.connId) := by
    rw [← List.count_pos_iff, hc, List.map_append, List.count_append]
    omega
  obtain ⟨data, hdata, rfl⟩ := List.mem_map.mp hmem
  intro hall
  rcases hall data hdata with ⟨hp, -⟩ | ⟨-, f, hf, -⟩
  · have := List.count_pos_iff.mpr hp
    omega
  · rw [hf, List.length_singleton] at hout
    omega

theorem books_control {msg : ConnControl} {c : Connections} (hcons : p.conns.Consistent)
    (hident : p.Identified) (hc : p.conns.control msg = some c) :
    Books p { p with conns := c }
      ((p.conns.pendingConnects.filter (p.interrupts (.control msg))).map (·.connId)) := by
  have hcalm (hmsg : ∀ data, msg ≠ .disconnect data) : Calm p { p with conns := c } := by
    have hremote : p.conns.RemotePending := fun pc hpc v hv hs =>
      ((hident.pending pc hpc).2.1 v hv hs).1
    have hsame := congrArg (List.map (·.connId)) (pending_control hcons hremote hmsg hc)
    rw [List.map_map, List.map_map] at hsame
    exact .of_jobs rfl hsame (.refl _)
  have hnone (hi : p.interrupts (.control msg) = fun _ => false) :
      (p.conns.pendingConnects.filter (p.interrupts (.control msg))).map (·.connId) = [] := by
    simp [hi]
  cases msg with
  | disconnect data =>
    simp only [Connections.control, proxyDisconnect] at hc
    split at hc
    · cases hc
    obtain rfl := Option.some.inj hc
    rcases hfind : (p.conns.equalRange { id := data.connId, pk := data.pubkey }).find?
        (·.1.2.outgoing) with _ | ⟨e, i⟩
    · have hi : p.interrupts (.control (.disconnect data)) = fun _ => false := by
        funext pc
        simp [interrupts, hfind]
      rw [hnone hi]
      simp only [Connections.disconnect, hfind]
      exact .refl p
    · have hi : p.interrupts (.control (.disconnect data)) =
          fun pc : PendingConnect => decide (pc.connIndex = e.2.connIndex) := by
        funext pc
        simp [interrupts, hfind]
      rw [hi]
      simp only [Connections.disconnect, hfind]
      exact .close e.2.connIndex rfl (.refl _) rfl
  | _ =>
    rw [hnone rfl]
    exact (hcalm (by simp)).books

/-- HELLO concludes the connect of its connection. -/
theorem books_hello {i : Nat} (hcons : p.conns.Consistent) (hident : p.Identified)
    (hc : p'.connects = p.connects) (hp : p'.conns = (p.conns.hello i).1)
    (hs : Schedules p.dispatch.jobs p'.dispatch.jobs ((p.conns.hello i).2.map Effect.closure)) :
    Books p p' [] := by
  have hidle (he : p.conns.hello i = (p.conns, [])) : Books p p' [] := by
    rw [he] at hs hp
    exact (Calm.of_jobs hc (by rw [hp]) hs).books
  rcases hfind : p.conns.pendingConnects.find? (·.connIndex = i) with _ | pc
  · exact hidle (by simp [Connections.hello, hfind])
  rcases hid : p.conns.connIndexToId[i]? with _ | conn
  · exact hidle (by simp [Connections.hello, hfind, hid])
  by_cases hrange : p.conns.equalRange { id := pc.connId } = []
  · exact hidle (by simp [Connections.hello, hfind, hid, hrange])
  have hhello : p.conns.hello i =
      ({ p.conns with pendingConnects := p.conns.pendingConnects.eraseP (·.connIndex = i) },
        [.replyJob (.connectSuccess pc.onConnect conn)]) := by
    simp [Connections.hello, hfind, hid, hrange]
  have hpc := List.mem_of_find?_eq_some hfind
  obtain rfl : pc.connIndex = i := by simpa using List.find?_some hfind
  obtain ⟨hdealer, hlink, data, hdata, hdid, hconnect, -⟩ :=
    hident.pending (unindexed pc) (List.mem_map_of_mem hpc)
  obtain ⟨e, he, rfl, hes, -⟩ := hcons.exists_entry (hcons.pendingConnects pc hpc) hdealer hid
  have hconn : e.1.id = pc.connId := (hlink (view e) (List.mem_map_of_mem he) hes).2
  have hpending : p'.conns.pendingIds =
      (p.conns.pendingConnects.eraseP (·.connIndex = pc.connIndex)).map (·.connId) := by
    rw [hp, hhello]
    rfl
  have hout : ((p.conns.hello pc.connIndex).2.map Effect.closure).filterMap Closure.connect? =
      [pc.connId] := by
    rw [hhello, ← hconn]
    rfl
  refine ⟨[], _, by simp [hc], hs, ?_, ?_⟩
  · rw [hpending, hout, List.map_nil, List.append_nil, List.append_nil]
    exact ((perm_cons_eraseP hfind).map (·.connId)).trans (List.perm_append_singleton _ _).symm
  · intro f hf
    rw [hhello] at hf
    obtain rfl := List.mem_singleton.mp hf
    exact .inr ⟨data, hc ▸ hdata, hconnect.symm, hconn.trans hdid.symm⟩

theorem link_route {m : Incoming} {l : Link} (hl : p.link m = some l) :
    l.route = none ↔ m.session = none := by
  obtain ⟨-, -, hout | ⟨route, answer, hin⟩⟩ := link_cases hl
  · exact iff_of_true hout.route hout.session
  · obtain ⟨session, hsession⟩ := hin.session
    simp [hin.via, hsession]

variable [DecidableEq ι]

theorem books_connectRemote {net : Network} {now : Int} {data : ConnectRemoteData}
    {c : Connections} {es : List Effect} {d : Dispatch ι R}
    (hc : p.conns.proxyConnectRemote net now data = some (c, es))
    (hd : p.dispatch.perform es = some d) :
    Books p { p with
      dispatch := d, conns := { c with requestedIds := c.requestedIds.erase data.connId }
      connects := p.connects ++ [data] } [] := by
  have hs := Dispatch.schedules_perform hd
  obtain ⟨-, ⟨what, rfl, rfl⟩ | ⟨expiry, info, rfl, -, -, -, hpending, -⟩⟩ :=
    proxyConnectRemote_eq_some hc
  · refine ⟨[data], _, rfl, hs, ?_, ?_⟩
    · simp [pendingIds, Effect.closure, Closure.connect?]
    · intro f hf
      obtain rfl : f = _ := by simpa [Effect.closure] using hf
      exact .inr ⟨data, by simp, rfl, rfl⟩
  · refine ⟨[data], _, rfl, hs, ?_, by simp⟩
    simp [pendingIds, hpending]

theorem books_cleanup {clock : ConnectionID → Int} {now : Int} {d : Dispatch ι R}
    (hcons : p.conns.Consistent) (hident : p.Identified)
    (hd : p.dispatch.perform (((p.conns.proxyExpireIdlePeers clock).timeOutConnects now).2 ++
      (p.pendingRequests.timeOut now).2) = some d) :
    Books p { p with
      dispatch := d, conns := ((p.conns.proxyExpireIdlePeers clock).timeOutConnects now).1
      pendingRequests := (p.pendingRequests.timeOut now).1 }
      ((p.conns.pendingConnects.filter (p.interrupts (.cleanup clock now))).map (·.connId)) := by
  have htimeouts : ∀ f ∈ (p.pendingRequests.timeOut now).2.map Effect.closure,
      f.connect? = none := by
    intro f hf
    obtain ⟨e, he, rfl⟩ := List.mem_map.mp hf
    obtain ⟨r, -, rfl⟩ := List.mem_map.mp he
    rfl
  obtain ⟨hperm, hfailed⟩ := hcons.perm_cleanup hident.sockets clock now
  have hs := Dispatch.schedules_perform hd
  rw [List.map_append] at hs
  refine ⟨[], _, (List.append_nil _).symm, hs, ?_, fun f hf => ?_⟩
  · rw [List.map_nil, List.append_nil, List.filterMap_append,
      List.filterMap_eq_nil_iff.mpr htimeouts, List.append_nil]
    exact hperm
  · rcases List.mem_append.mp hf with hf | hf
    · obtain ⟨e, he, rfl⟩ := List.mem_map.mp hf
      obtain ⟨pc, hpc, rfl⟩ := hfailed e he
      obtain ⟨-, -, data, hdata, hid, -, hfail⟩ := hident.pending pc hpc
      exact .inr ⟨data, hdata, hfail.symm, hid.symm⟩
    · exact .inl (htimeouts f hf)

theorem books_builtin {m : Incoming} {l : Link} {d : Dispatch ι R} (hcons : p.conns.Consistent)
    (hident : p.Identified) (hl : p.link m = some l)
    (hd : p.dispatch.perform (p.builtin m l).effects = some d) :
    Books p (p.afterBuiltin m l d)
      ((p.conns.pendingConnects.filter (p.interrupts (.incoming m))).map (·.connId)) := by
  have hs := Dispatch.schedules_perform hd
  have hroute := link_route hl
  by_cases hbye : m.session = none ∧ m.parts.head? = some (bytes "BYE")
  · have hi : p.interrupts (.incoming m) = fun pc => decide (pc.connIndex = m.index) := by
      funext pc
      simp [interrupts, hbye.1, hbye.2]
    have hb : p.builtin m l =
        { conns := p.conns.closeConnection m.index, requests := p.pendingRequests } := by
      rw [builtin, hroute.mpr hbye.1]
      exact handleBuiltin_bye _ _ _ hbye.2
    rw [hi]
    rw [hb] at hs
    exact .close m.index rfl hs (by rw [afterBuiltin, hb])
  · have hi : p.interrupts (.incoming m) = fun _ => false := by
      funext pc
      refine Bool.eq_false_iff.mpr fun h => hbye ?_
      simp only [interrupts, Bool.and_eq_true, Option.isNone_iff_eq_none, decide_eq_true_eq] at h
      exact h.1
    rw [hi, List.filter_eq_nil_iff.mpr (by simp), List.map_nil]
    rcases p.builtin_case m l with ⟨hc, hr, he⟩ | ⟨tag, data, hparts, hc, hr, he⟩ |
      ⟨cmd, tag, hcmd, hc, hr, he⟩ | ⟨-, hc, hr, he⟩ | ⟨hb, hc, hr, he⟩
    · rw [he] at hs
      exact Calm.books (.of_jobs rfl (congrArg pendingIds hc) hs)
    · rw [he] at hs
      exact Calm.books (.of_effects rfl (congrArg pendingIds hc) hs
        (p.pendingRequests.connect?_answer _ _ _))
    · rw [he] at hs
      exact Calm.books (.of_effects rfl (congrArg pendingIds hc) hs
        (p.pendingRequests.connect?_answer _ _ _))
    · rw [he] at hs
      exact books_hello hcons hident rfl hc hs
    · exact absurd ⟨hroute.mp hb.1, hb.2.2⟩ hbye

theorem calm_command {q : PendingCommand ι} {d : Dispatch ι R} {sender : Sender} (origin : Origin)
    (hp : sender.conns.pendingConnects = p.conns.pendingConnects)
    (hd : p.dispatch.step (.command q) = some d) :
    Calm p ({ p with conns := sender.conns }.accept origin d) := by
  obtain ⟨-, rfl⟩ : _ ∧ p.dispatch.proxyCommand q = d := by simpa [Dispatch.step] using hd
  exact .of_jobs rfl (congrArg (List.map PendingConnect.connId) hp)
    (Dispatch.schedules_proxyCommand _ _)

theorem calm_next (h : p.next = some p') : Calm p p' := by
  obtain ⟨d, stale, hd, rfl⟩ := next_eq_some h
  exact .of_jobs rfl rfl (Dispatch.schedules_next hd)

theorem calm_proxyToWorker {m : Incoming} {l : Link} {sender : Sender} {name : Bytes}
    {data : List Bytes} (hp : sender.conns.pendingConnects = p.conns.pendingConnects)
    (h : p.proxyToWorker m l sender name data = some p') : Calm p p' := by
  have hids : sender.conns.pendingIds = p.conns.pendingIds :=
    congrArg (List.map PendingConnect.connId) hp
  unfold proxyToWorker at h
  dsimp only at h
  split at h
  · obtain rfl := Option.some.inj h
    exact .of_jobs rfl hids (.refl _)
  split at h
  · obtain rfl := Option.some.inj h
    exact .of_jobs rfl hids (.refl _)
  obtain ⟨d, hd, h⟩ := Option.bind_eq_some_iff.mp h
  have hcalm := calm_command (l.origin name) hp hd
  obtain rfl := Option.some.inj h
  split
  · refine hcalm.trans ?_
    unfold touch
    split
    · exact .of_jobs rfl rfl (.refl _)
    · exact .refl _
  · exact hcalm

theorem books_receive {m : Incoming} (hcons : p.conns.Consistent) (hident : p.Identified)
    (h : p.receive m = some p') :
    Books p p' ((p.conns.pendingConnects.filter (p.interrupts (.incoming m))).map (·.connId)) := by
  obtain ⟨l, hl, h⟩ := Option.bind_eq_some_iff.mp h
  obtain ⟨d, hd, h⟩ := Option.bind_eq_some_iff.mp h
  obtain ⟨p₁, hp₁, h⟩ := Option.bind_eq_some_iff.mp h
  have hforward : Calm (p.afterBuiltin m l d) p₁ := by
    unfold forward at hp₁
    split at hp₁
    · rename_i hh hparts hs
      refine calm_proxyToWorker ?_ hp₁
      rw [pendingConnects_sender hl hs]
      exact congrArg Connections.pendingConnects (conns_of_not_handled hh).symm
    · obtain rfl := Option.some.inj hp₁
      exact .refl _
  have hbooks := (books_builtin hcons hident hl hd).calm hforward
  split at h
  · exact hbooks.calm (calm_next h)
  · obtain rfl := Option.some.inj h
    exact hbooks

/-- The connects that a step concerns are taken on, concluded or interrupted. -/
theorem books_step {e : ProxyEvent ι R} (hcons : p.conns.Consistent) (hident : p.Identified)
    (ht : p.dispatch.jobs.UserTimers) (h : p.step e = some p') :
    Books p p' ((p.conns.pendingConnects.filter (p.interrupts e)).map (·.connId)) := by
  have hcalm (hc : Calm p p') (hi : p.interrupts e = fun _ => false) :
      Books p p' ((p.conns.pendingConnects.filter (p.interrupts e)).map (·.connId)) := by
    rw [hi, List.filter_eq_nil_iff.mpr (by simp)]
    exact hc.books
  cases e with
  | dispatch e =>
    refine hcalm ?_ rfl
    simp only [step] at h
    split at h
    · rename_i he
      obtain ⟨d, hd, rfl⟩ := Option.map_eq_some_iff.mp h
      obtain ⟨fs, hs, hu, -⟩ := Dispatch.schedules_outside ht he hd
      have hf : ∀ f ∈ fs, f.connect? = none := fun f hf => Closure.connect?_of_isUser (hu f hf)
      split <;> exact ⟨rfl, rfl, fs, hs, hf⟩
    · cases h
  | requestConn =>
    obtain rfl := Option.some.inj h
    exact hcalm (.of_jobs rfl rfl (.refl _)) rfl
  | send env o sentAt =>
    refine hcalm ?_ rfl
    simp only [step] at h
    split at h
    · obtain ⟨s, hs, h⟩ := Option.bind_eq_some_iff.mp h
      obtain ⟨d, hd, h⟩ := Option.bind_eq_some_iff.mp h
      obtain rfl := Option.some.inj h
      have hstart : (SendState.start o p.conns).Failures := by
        simp [SendState.Failures, SendState.start]
      exact .of_effects rfl
        (congrArg (List.map PendingConnect.connId) (SendState.pendingConnects_sendLoop hs))
        (Dispatch.schedules_perform hd) ((hstart.sendLoop hs).connect?_afterLoop o)
    · cases h
  | control msg =>
    simp only [step] at h
    split at h
    · obtain ⟨c, hc, rfl⟩ := Option.map_eq_some_iff.mp h
      exact books_control hcons hident hc
    · cases h
  | connectRemote net now data =>
    simp only [step] at h
    split at h
    · obtain ⟨⟨c, es⟩, hc, h⟩ := Option.bind_eq_some_iff.mp h
      obtain ⟨d, hd, h⟩ := Option.bind_eq_some_iff.mp h
      obtain rfl := Option.some.inj h
      rw [List.filter_eq_nil_iff.mpr (by simp [interrupts])]
      exact books_connectRemote hc hd
    · cases h
  | cleanup clock now =>
    simp only [step] at h
    split at h
    · obtain ⟨d, hd, h⟩ := Option.bind_eq_some_iff.mp h
      obtain rfl := Option.some.inj h
      exact books_cleanup hcons hident hd
    · cases h
  | zap frames =>
    obtain ⟨-, rfl⟩ : _ ∧ _ = p' := by simpa [step] using h
    exact hcalm (.of_jobs rfl rfl (.refl _)) rfl
  | incoming m =>
    simp only [step] at h
    split at h
    · exact books_receive hcons hident h
    · cases h
  | rehash peers requests =>
    obtain ⟨-, rfl⟩ : _ ∧ _ = p' := by simpa [step] using h
    exact hcalm (.of_jobs rfl rfl (.refl _)) rfl
  | next => exact hcalm (calm_next h) rfl

variable [Fintype ι]

/-- No event closes the connection of a pending connect. -/
def Uninterrupted (p : Proxy ι R) (e : ProxyEvent ι R) : Prop :=
  ∀ pc ∈ p.conns.pendingConnects, p.interrupts e pc = false

instance (p : Proxy ι R) (e : ProxyEvent ι R) : Decidable (p.Uninterrupted e) :=
  inferInstanceAs (Decidable (∀ pc ∈ p.conns.pendingConnects, _))

/-- As long as the connections of pending connects are left alone every connect
has one outcome, and an event keeps it so exactly if it leaves them alone. The index
of a connect that has timed out is taken to be read before its entry is erased. -/
theorem oneOutcome_iff_uninterrupted (h : ((machine ι R).restrict Uninterrupted).Reachable p) :
    p.OneOutcome ∧ ∀ e p', p.step e = some p' → (p'.OneOutcome ↔ p.Uninterrupted e) := by
  have hlost {p : Proxy ι R} {e : ProxyEvent ι R} (hu : p.Uninterrupted e) :
      (p.conns.pendingConnects.filter (p.interrupts e)).map (·.connId) = [] := by
    rw [List.filter_eq_nil_iff.mpr fun pc hpc => by simp [hu pc hpc], List.map_nil]
  have hbooks {p p' : Proxy ι R} {e : ProxyEvent ι R} (hp : (machine ι R).Reachable p)
      (hs : p.step e = some p') :=
    books_step (consistent_of_reachable hp) (identified_of_reachable hp)
      (settled_of_reachable hp).timers hs
  have hbal : p.Balanced := by
    induction h with
    | init h =>
      obtain ⟨cfg, listeners, sns, commands, localServiceNode, -, rfl⟩ := h
      obtain ⟨-, -, hpending, -⟩ := Connections.start_eq listeners sns
      constructor
      · simp [start, pendingIds, hpending, scheduled, Dispatch.start, Jobs.closures]
      · simp [scheduled, start, Dispatch.start, Jobs.closures]
    | step hreach hs ih =>
      obtain ⟨hu, hs⟩ := Transition.Machine.restrict_step hs
      exact ih.step (hlost hu ▸ hbooks hreach.of_restrict hs)
  have hreach := h.of_restrict
  refine ⟨hbal.oneOutcome (identified_of_reachable hreach).ids.connects, fun e p' hs => ?_⟩
  have hreach' : (machine ι R).Reachable p' := hreach.step (e := e) hs
  have hn := (identified_of_reachable hreach').ids.connects
  constructor
  · intro hone pc hpc
    by_contra hi
    have hid : pc.connId ∈ (p.conns.pendingConnects.filter (p.interrupts e)).map (·.connId) :=
      List.mem_map_of_mem (List.mem_filter.mpr ⟨hpc, by simpa using hi⟩)
    exact hbal.not_oneOutcome (hbooks hreach hs) hn hid hone
  · intro hu
    exact (hbal.step (hlost hu ▸ hbooks hreach hs)).oneOutcome hn

def sampleConnect : ConnectRemoteData where
  connId := 2
  connect := 0
  failure := 1
  remote := bytes "tcp://2:2"

/-- A remote is connected to and answers. -/
theorem oneOutcome_of_hello : ∃ p : Proxy Unit Unit, (machine Unit Unit).Reachable p ∧
    p.connects.map (·.connId) = [2] ∧ p.outcomes 2 = [.connectSuccess 0 { id := 2 }] ∧
    p.OneOutcome := by
  have hinit : ((machine Unit Unit).restrict Uninterrupted).Reachable sample :=
    .init ⟨_, _, _, _, _, by decide +kernel, rfl⟩
  obtain ⟨p, hp, hstate⟩ := hinit.exists_of_run
    [.requestConn, .connectRemote sampleNetwork 0 sampleConnect, .next, .next, .next, .next, .next,
      .incoming { index := 1, parts := [bytes "HELLO"], now := 0 }]
    (p := fun p => decide (p.connects.map (·.connId) = [2] ∧
      p.outcomes 2 = [.connectSuccess 0 { id := 2 }])) (by decide +kernel)
  obtain ⟨hconnects, hout⟩ := of_decide_eq_true hstate
  exact ⟨p, hp.of_restrict, hconnects, hout, (oneOutcome_iff_uninterrupted hp).1⟩

/-- A remote is connected to, and disconnected before it answers: neither
callback is ever called. -/
theorem no_outcome_of_disconnect : ∃ p : Proxy Unit Unit, (machine Unit Unit).Reachable p ∧
    p.connects.map (·.connId) = [2] ∧ p.conns.pendingIds = [] ∧ p.outcomes 2 = [] ∧
    ¬ p.OneOutcome := by
  obtain ⟨p, hp, hstate⟩ := sample_reachable.exists_of_run
    [.requestConn, .connectRemote sampleNetwork 0 sampleConnect,
      .control (.disconnect { connId := 2 })]
    (p := fun p => decide (p.connects.map (·.connId) = [2] ∧ p.conns.pendingIds = [] ∧
      p.outcomes 2 = [])) (by decide +kernel)
  obtain ⟨hconnects, hpending, hout⟩ := of_decide_eq_true hstate
  refine ⟨p, hp, hconnects, hpending, hout, fun hall => ?_⟩
  obtain ⟨data, hdata, hid⟩ := List.mem_map.mp (hconnects ▸ List.mem_singleton_self (2 : Int))
  rcases hall data hdata with ⟨hmem, -⟩ | ⟨-, f, hf, -⟩
  · simp [hpending] at hmem
  · rw [hid, hout] at hf
    cases hf

end Proxy

end ArqmaMQ
