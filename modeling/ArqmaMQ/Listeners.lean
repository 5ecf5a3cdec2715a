import ArqmaMQ.ConnectionIds

/-! The listening sockets. What is done to the connections comes to a few edits, of
which none closes a listening socket. -/

namespace ArqmaMQ

open Renumber Sweep

namespace Connections

/-- What the operations on connections consist of. -/
inductive Edit : Connections → Connections → Prop
  | peers {c} (peers : List (ConnectionID × PeerInfo)) : Edit c { c with peers }
  | pending {c} (pendingConnects : List PendingConnect)
    (h : ∀ pc ∈ pendingConnects, pc ∈ c.pendingConnects ∨ pc.socket.dealer = true) :
    Edit c { c with pendingConnects }
  | close {c} (k : Nat) (h : ∀ s, c.connections[k]? = some s → s.dealer = true) :
    Edit c (c.closeConnection k)
  | connect {c} (id : ConnectionID) (info : Nat → Socket → PeerInfo) :
    Edit c (c.addOutgoing id info)
  | aside {c} (activeServiceNodes : List Bytes) (pollitemsStale : Bool) (nextConnId : Int)
    (requestedIds : List Int) :
    Edit c { c with activeServiceNodes, pollitemsStale, nextConnId, requestedIds }

abbrev Edits : Connections → Connections → Prop := Relation.ReflTransGen Edit

/-- Only outgoing connections are waited for. -/
def PendingDealers (c : Connections) : Prop := ∀ pc ∈ c.pendingConnects, pc.socket.dealer = true

variable {c c' : Connections}

theorem PendingDealers.edit (h : c.PendingDealers) (he : Edit c c') : c'.PendingDealers := by
  cases he with
  | pending pcs hpcs => exact fun pc hpc => (hpcs pc hpc).elim (h pc) id
  | close k _ =>
    intro pc hpc
    obtain ⟨pc', hpc', j, -, rfl⟩ := mem_update.mp hpc
    exact h pc' hpc'
  | _ => exact h

theorem PendingDealers.edits (h : c.PendingDealers) (he : Edits c c') : c'.PendingDealers :=
  Transition.reflTransGen_invariant (fun _ _ he h => h.edit he) he h

/-- Closing the connection of an outgoing peer. -/
theorem edit_closeOutgoing (h : c.Consistent) {e : ConnectionID × PeerInfo} (he : e ∈ c.peers)
    (ho : e.2.outgoing = true) : Edit c (c.closeConnection e.2.connIndex) := by
  refine .close _ fun s hs => ?_
  obtain rfl : e.2.socket = s := Option.some.inj ((h.peers e he).symm.trans hs)
  exact (h.dealers e he).trans ho

theorem edits_setActive (c : Connections) (sns : List Bytes) :
    Edits c { c with activeServiceNodes := sns } :=
  .single (.aside sns c.pollitemsStale c.nextConnId c.requestedIds)

theorem edits_proxyConnectSn {net : Network} {now : Int} {remote hint : Bytes}
    {optional incomingOnly outgoingOnly : Bool} {keepAlive : Int} {r : Option (Nat × Bytes)}
    (hc : c.proxyConnectSn net now remote hint optional incomingOnly outgoingOnly keepAlive =
      some (r, c')) : Edits c c' := by
  obtain ⟨cid, -, ⟨e, i, -, -, rfl⟩ | ⟨-, -, -, rfl⟩ | ⟨-, -, -, rfl⟩⟩ := proxyConnectSn_eq_some hc
  · exact .single (.peers _)
  · exact .refl
  · exact .single (.connect _ _)

theorem edits_proxyConnectRemote {net : Network} {now : Int} {data : ConnectRemoteData}
    {es : List Effect} (hc : c.proxyConnectRemote net now data = some (c', es)) : Edits c c' := by
  unfold proxyConnectRemote at hc
  split at hc
  · cases hc
  split at hc
  · obtain ⟨rfl, -⟩ := Prod.mk.inj (Option.some.inj hc)
    exact .refl
  · obtain ⟨rfl, -⟩ := Prod.mk.inj (Option.some.inj hc)
    refine .tail (.single (.connect _ _)) (.pending _ fun pc hpc => ?_)
    rcases List.mem_append.mp hpc with hpc | hpc
    · exact .inl hpc
    · exact .inr (by rw [List.mem_singleton.mp hpc])

theorem edits_disconnect (h : c.Consistent) (conn : ConnectionID) :
    Edits c (c.disconnect conn) := by
  unfold disconnect
  split
  · rename_i e i hfind
    have hmem := (mem_equalRange.mp (List.mem_of_find?_eq_some hfind)).1
    have hout : e.2.outgoing = true := by simpa using List.find?_some hfind
    exact .single (edit_closeOutgoing h (List.mem_of_getElem? hmem) hout)
  · exact .refl

theorem edits_proxyExpireIdlePeers (h : c.Consistent) (now : ConnectionID → Int) :
    Edits c (c.proxyExpireIdlePeers now) := by
  refine (sweep_invariant (P := fun c' => Edits c c' ∧ c'.Consistent)
    (fun pos e s s' hs he hv => ?_) _ _ ⟨.refl, h⟩).1
  split at hv
  · rename_i hidle
    obtain rfl := Option.some.inj hv
    exact ⟨hs.1.tail (edit_closeOutgoing hs.2 (List.mem_of_getElem? he) hidle.1),
      hs.2.closeConnection _⟩
  · cases hv

theorem edits_timeOutConnects (h : c.Consistent) (hp : c.PendingDealers) (now : Int) :
    Edits c (c.timeOutConnects now).1 := by
  refine (sweep_invariant
    (P := fun s : Connections × List Effect => Edits c s.1 ∧ s.1.Consistent)
    (fun pos pc s s' hs hpc hv => ?_) _ _ ⟨.refl, h⟩).1
  dsimp only at hv
  split at hv
  · obtain rfl := Option.some.inj hv
    have hmem : pc ∈ s.1.pendingConnects := List.mem_of_getElem? hpc
    dsimp only
    rw [Consistent.erasePending_closeConnection hpc]
    refine ⟨hs.1.tail (.close _ fun t ht => ?_), hs.2.closeConnection _⟩
    obtain rfl : pc.socket = t := Option.some.inj ((hs.2.pendingConnects pc hmem).symm.trans ht)
    exact hp.edits hs.1 pc hmem
  · cases hv

theorem edits_dropPeers (h : c.Consistent) (cid : ConnectionID) (n : Nat) :
    Edits c (dropPeers cid n c) := by
  induction n generalizing c with
  | zero => exact .refl
  | succ n ih =>
    unfold dropPeers
    split
    · exact .refl
    · rename_i e i _ hrange
      have hi := (mem_equalRange.mp (hrange ▸ List.mem_cons_self : (e, i) ∈ c.equalRange cid)).1
      dsimp only
      split
      · rename_i hout
        rw [Consistent.erasePeer_closeConnection hi]
        exact .head (edit_closeOutgoing h (List.mem_of_getElem? hi) hout)
          (ih (h.closeConnection _))
      · rename_i hout
        exact .head (.peers _) (ih (h.eraseRouted hi (Bool.eq_false_iff.mpr hout)))

theorem edits_proxyUpdateActiveSnsClean {added removed : List Bytes} (h : c.Consistent)
    (hc : c.proxyUpdateActiveSnsClean added removed = some c') : Edits c c' := by
  obtain ⟨c₁, hfold, hadd⟩ := Option.bind_eq_some_iff.mp hc
  obtain rfl := Option.some.inj hadd
  refine .trans ?_ (edits_setActive c₁ _)
  clear hadd hc
  induction removed generalizing c with
  | nil =>
    obtain rfl : c = c₁ := by simpa using hfold
    exact .refl
  | cons pk removed ih =>
    rw [List.foldlM_cons] at hfold
    obtain ⟨c₂, hc₂, hfold⟩ := Option.bind_eq_some_iff.mp hfold
    refine .trans ?_ (ih (h.removeServiceNode hc₂) hfold)
    obtain ⟨cid, -, hc₂⟩ := Option.bind_eq_some_iff.mp hc₂
    obtain rfl := Option.some.inj hc₂
    exact (edits_setActive c _).trans (edits_dropPeers (h.setActive _) cid _)

theorem edits_replyLoop {conn : ConnectionID} {rounds skip : Nat} {outcome : Nat → SendOutcome}
    (hc : replyLoop conn rounds outcome skip c = some c') : Edits c c' := by
  induction rounds generalizing outcome skip c with
  | zero =>
    obtain rfl := Option.some.inj hc
    exact .refl
  | succ rounds ih =>
    unfold replyLoop at hc
    split at hc
    · obtain rfl := Option.some.inj hc
      exact .refl
    split at hc
    · split at hc
      · cases hc
      · exact .head (.peers _) (ih hc)
    · exact ih hc
    · obtain rfl := Option.some.inj hc
      exact .refl

theorem edits_control {msg : ConnControl} (h : c.Consistent) (hc : c.control msg = some c') :
    Edits c c' := by
  cases msg with
  | reply conn outcome => exact edits_replyLoop hc
  | connectSn net now data =>
    obtain ⟨pk, -, hc⟩ := Option.bind_eq_some_iff.mp hc
    obtain ⟨⟨r, c₁⟩, hc₁, hc⟩ := Option.bind_eq_some_iff.mp hc
    obtain rfl := Option.some.inj hc
    exact edits_proxyConnectSn hc₁
  | disconnect data =>
    simp only [control, proxyDisconnect] at hc
    split at hc
    · cases hc
    · obtain rfl := Option.some.inj hc
      exact edits_disconnect h _
  | setSns pubkeys =>
    simp only [control, proxySetActiveSns] at hc
    split at hc
    · split at hc
      · obtain rfl := Option.some.inj hc
        exact .refl
      · exact edits_proxyUpdateActiveSnsClean h hc
    · cases hc
  | updateSns added removed =>
    simp only [control] at hc
    split at hc
    · exact edits_proxyUpdateActiveSnsClean h hc
    · cases hc

theorem edits_hello (c : Connections) (connIndex : Nat) : Edits c (c.hello connIndex).1 := by
  unfold hello
  split
  · split
    · exact .refl
    · exact .single (.pending _ fun pc hpc => .inl (List.mem_of_mem_eraseP hpc))
  · exact .refl

end Connections

open Connections

theorem SendState.edits_sendLoop {env : SendEnv} {o : SendOptions} {s s' : SendState} {fuel : Nat}
    (hs : sendLoop env o fuel s = some s') : Edits s.conns s'.conns := by
  refine sendLoop_invariant (P := fun t => Edits s.conns t.conns) ?_ ?_ ?_ ?_ .refl hs
  · intro s₁ t s₂ h ht
    obtain rfl | ⟨r, c, conn, hc, rfl⟩ := target_eq_some ht
    · exact h
    · exact h.trans (edits_proxyConnectSn hc)
  · intro s₁ fuel retry s₂ h hr
    obtain rfl | ⟨-, it, -, -, rfl⟩ := removePeer_eq_some hr
    · exact h
    · exact h.tail (.peers _)
  · exact fun s₁ a h => h
  · intro s₁ r h
    rw [conns_finish]
    exact h

namespace Proxy

variable {ι R : Type} [DecidableEq ι] {p p' : Proxy ι R}

theorem edits_act (h : p.conns.Consistent) (hp : p.conns.PendingDealers) (hact : Act p p') :
    Edits p.conns p'.conns := by
  cases hact with
  | requestConn => exact .single (.aside _ _ _ _)
  | send env o expiry _ hs _ => exact SendState.edits_sendLoop hs
  | control msg hc => exact edits_control h hc
  | connectRemote net now data _ hc _ =>
    exact (edits_proxyConnectRemote hc).tail (.aside _ _ _ _)
  | cleanup clock now _ =>
    have hidle := edits_proxyExpireIdlePeers h clock
    exact hidle.trans
      (edits_timeOutConnects (h.proxyExpireIdlePeers clock) (hp.edits hidle) now)
  | @builtin d l m hl _ =>
    change Edits p.conns (p.builtin m l).conns
    rcases p.builtin_case m l with hc | ⟨-, -, -, hc⟩ | ⟨-, -, -, hc⟩ | ⟨-, hc⟩ | ⟨hb, hc⟩
    · exact hc ▸ .refl
    · exact hc ▸ .refl
    · exact hc ▸ .refl
    · exact hc ▸ edits_hello p.conns m.index
    · rw [hc]
      refine .single (.close _ fun s hs => ?_)
      obtain ⟨hsocket, -, hout | ⟨route, answer, hin⟩⟩ := link_cases hl
      · obtain rfl := Option.some.inj (hs.symm.trans hsocket)
        exact hout.dealer
      · cases hb.1.symm.trans hin.via
  | refuse m sent hl hs =>
    obtain ⟨peers, hc⟩ := exists_peers_of_sender hl hs
    exact hc ▸ .single (.peers peers)
  | command m name data hl hs _ _ _ =>
    obtain ⟨peers, hc⟩ := exists_peers_of_sender hl hs
    exact hc ▸ .single (.peers peers)
  | touch i now =>
    unfold Proxy.touch
    split
    · exact .single (.peers _)
    · exact .refl
  | rehash peers requests _ _ => exact .single (.peers _)
  | next hn =>
    obtain ⟨d, stale, -, rfl⟩ := next_eq_some hn
    exact .single (.aside _ _ _ _)
  | _ => exact .refl

end Proxy

namespace Connections

variable {c c' c'' : Connections}

/-- The listening sockets with their ids. -/
def listeningSockets (c : Connections) : List (Socket × ConnectionID) :=
  (c.connections.zip c.connIndexToId).filter (!·.1.dealer)

/-- What a listening address is known by, apart from the index of its socket. -/
def unindexedBind (b : BindData) : BindData := { b with index := 0 }

def unindexedListen (l : ListenIndex) : ListenIndex := { l with index := 0 }

structure Listening (c : Connections) : Prop extends Aligned c where
  routers : ∀ l ∈ c.incomingConnIndex, l.socket.dealer = false
  bound : ∀ b ∈ c.bind, b.socket.dealer = false

/-- The same sockets listen, whatever their indices are. -/
structure Retains (c c' : Connections) : Prop where
  sockets : c'.listeningSockets = c.listeningSockets
  listening : c'.incomingConnIndex.map unindexedListen = c.incomingConnIndex.map unindexedListen
  bind : c'.bind.map unindexedBind = c.bind.map unindexedBind

theorem Retains.refl (c : Connections) : Retains c c := ⟨rfl, rfl, rfl⟩

theorem Retains.trans (h : Retains c c') (h' : Retains c' c'') : Retains c c'' :=
  ⟨h'.sockets.trans h.sockets, h'.listening.trans h.listening, h'.bind.trans h.bind⟩

/-- No record of a listening socket refers to the socket of an outgoing connection. -/
theorem map_update_of_dealer {α : Type} {slot : Slot α} {f : α → α} {rs : List α} {k : Nat}
    {sockets : List Socket} {socket : α → Socket} (hd : Denotes slot socket sockets rs)
    (hrouter : ∀ a ∈ rs, (socket a).dealer = false)
    (hk : ∀ s, sockets[k]? = some s → s.dealer = true) (hf : ∀ a i, f (slot.set a i) = f a) :
    (update slot k rs).map f = rs.map f := by
  have hne : ∀ a ∈ rs, true = true ↔ slot.get a ≠ k := by
    refine fun a ha => ⟨fun _ he => ?_, fun _ => rfl⟩
    have hdealer := hk _ (he ▸ hd a ha)
    rw [hrouter a ha] at hdealer
    cases hdealer
  rw [map_update (q := fun _ => true) hf hne, List.filter_true]

theorem Listening.close (h : c.Listening) {k : Nat}
    (hk : ∀ s, c.connections[k]? = some s → s.dealer = true) :
    (c.closeConnection k).Listening ∧ Retains c (c.closeConnection k) := by
  refine ⟨⟨h.toAligned.closeConnection k, ?_, ?_⟩, ?_, ?_, ?_⟩
  · intro l hl
    obtain ⟨l', hl', j, -, rfl⟩ := mem_update.mp hl
    exact h.routers l' hl'
  · intro b hb
    obtain ⟨b', hb', j, -, rfl⟩ := mem_update.mp hb
    exact h.bound b' hb'
  · rw [listeningSockets, closeConnection, zip_eraseIdx]
    refine filter_eraseIdx fun x hx => ?_
    obtain ⟨hs, -⟩ := List.getElem?_zip_eq_some.mp hx
    simp [hk _ hs]
  · exact map_update_of_dealer h.listening h.routers hk fun _ _ => rfl
  · exact map_update_of_dealer h.bind h.bound hk fun _ _ => rfl

theorem Listening.connect (h : c.Listening) (id : ConnectionID)
    (info : Nat → Socket → PeerInfo) :
    (c.addOutgoing id info).Listening ∧ Retains c (c.addOutgoing id info) := by
  refine ⟨⟨h.toAligned.addOutgoing id info, h.routers, h.bound⟩, ?_, rfl, rfl⟩
  simp [listeningSockets, addOutgoing, List.zip_append h.length.symm]

theorem Listening.edit (h : c.Listening) (he : Edit c c') : c'.Listening ∧ Retains c c' := by
  cases he with
  | close k hk => exact h.close hk
  | connect id info => exact h.connect id info
  | _ => exact ⟨⟨⟨h.length, h.bind, h.listening⟩, h.routers, h.bound⟩, rfl, rfl, rfl⟩

theorem Listening.edits (h : c.Listening) (he : Edits c c') : c'.Listening ∧ Retains c c' := by
  induction he with
  | refl => exact ⟨h, .refl c⟩
  | tail _ he ih =>
    obtain ⟨hl, hr⟩ := ih.1.edit he
    exact ⟨hl, ih.2.trans hr⟩

def listenEntry (i : Nat) : ListenIndex := ⟨{ id := i + 1 }, i, ⟨i, false⟩⟩

def bindEntry (i : Nat) (l : Listener) : BindData := ⟨l.address, l.curve, i, l.allow, ⟨i, false⟩⟩

/-- The tables when the loop is entered. -/
structure Started (c : Connections) (listeners : List Listener) : Prop where
  connections : c.connections = (List.range listeners.length).map fun i => ⟨i, false⟩
  connIndexToId : c.connIndexToId = (List.range listeners.length).map fun i => { id := i + 1 }
  incomingConnIndex : c.incomingConnIndex = (List.range listeners.length).map listenEntry
  bind : c.bind = listeners.mapIdx bindEntry
  pendingConnects : c.pendingConnects = []
  nextConnId : c.nextConnId = listeners.length + 1
  nextSocket : c.nextSocket = listeners.length

theorem started_start (listeners : List Listener) (sns : List Bytes) :
    (start listeners sns).Started listeners := by
  induction listeners using List.reverseRecOn with
  | nil => exact ⟨rfl, rfl, rfl, rfl, rfl, rfl, rfl⟩
  | append_singleton listeners l ih =>
    obtain ⟨hconnections, hids, hlisten, hbind, hpending, hnext, hsocket⟩ := ih
    have hstart : start (listeners ++ [l]) sns = (start listeners sns).listen l := by
      simp [start]
    have hlen : (start listeners sns).connections.length = listeners.length := by
      simp [hconnections]
    rw [hstart]
    constructor <;>
      simp [listen, hconnections, hids, hlisten, hbind, hpending, hnext, hsocket, listenEntry,
        bindEntry, List.range_succ]

section Started

variable {listeners : List Listener}

theorem Started.listening (h : c.Started listeners) (hc : c.Aligned) : c.Listening := by
  refine ⟨hc, ?_, ?_⟩
  · intro l hl
    rw [h.incomingConnIndex] at hl
    obtain ⟨i, -, rfl⟩ := List.mem_map.mp hl
    rfl
  · intro b hb
    rw [h.bind] at hb
    obtain ⟨i, hi, rfl⟩ := List.mem_mapIdx.mp hb
    rfl

theorem Started.listeningSockets (h : c.Started listeners) : c.listeningSockets =
    (List.range listeners.length).map fun i => (⟨i, false⟩, { id := i + 1 }) := by
  rw [Connections.listeningSockets, h.connections, h.connIndexToId, List.zip_map']
  exact List.filter_eq_self.mpr fun x hx => by
    obtain ⟨i, -, rfl⟩ := List.mem_map.mp hx
    rfl

end Started

/-- A socket that listens is found at its index by both tables. -/
theorem Retains.exists_index (h : Retains c c') (hcons : c'.Consistent) {l : ListenIndex}
    {b : BindData} (hl : l ∈ c.incomingConnIndex) (hb : b ∈ c.bind) (hbl : b.socket = l.socket)
    {id : ConnectionID} (hs : (l.socket, id) ∈ c.listeningSockets) :
    ∃ index, c'.connections[index]? = some l.socket ∧ c'.connIndexToId[index]? = some id ∧
      { l with index } ∈ c'.incomingConnIndex ∧ { b with index } ∈ c'.bind := by
  rw [← h.sockets] at hs
  obtain ⟨index, hindex⟩ := List.mem_iff_getElem?.mp (List.mem_filter.mp hs).1
  obtain ⟨hsocket, hid⟩ := List.getElem?_zip_eq_some.mp hindex
  have hlt := (List.getElem?_eq_some_iff.mp hsocket).1
  have hunique {j : Nat} (hj : c'.connections[j]? = some l.socket) : index = j :=
    (List.getElem?_inj hlt hcons.nodup).mp (hsocket.trans hj.symm)
  refine ⟨index, hsocket, hid, ?_, ?_⟩
  · have hmem := List.mem_map_of_mem (f := unindexedListen) hl
    rw [← h.listening] at hmem
    obtain ⟨⟨connId, j, socket⟩, hl', heq⟩ := List.mem_map.mp hmem
    obtain ⟨rfl, -, rfl⟩ := ListenIndex.mk.inj heq
    have hj : c'.connections[j]? = some l.socket := hcons.listening _ hl'
    exact hunique hj ▸ hl'
  · have hmem := List.mem_map_of_mem (f := unindexedBind) hb
    rw [← h.bind] at hmem
    obtain ⟨⟨address, curve, j, allow, socket⟩, hb', heq⟩ := List.mem_map.mp hmem
    obtain ⟨rfl, rfl, -, rfl, rfl⟩ := BindData.mk.inj heq
    have hj : c'.connections[j]? = some b.socket := hcons.bind _ hb'
    exact hunique (hbl ▸ hj) ▸ hb'

theorem Listening.countP_eq (h : c.Listening) :
    c.connections.countP (!·.dealer) = c.listeningSockets.length := by
  rw [listeningSockets, ← List.countP_eq_length_filter]
  conv_lhs => rw [← List.map_fst_zip h.length.ge, List.countP_map]
  rfl

end Connections

namespace Proxy

variable {ι R : Type} [DecidableEq ι] [Fintype ι] {p p' : Proxy ι R}

/-- What a run keeps of the listening sockets. -/
structure Retaining (p p' : Proxy ι R) : Prop where
  consistent : p'.conns.Consistent
  pending : p'.conns.PendingDealers
  listening : p'.conns.Listening
  retains : Retains p.conns p'.conns

omit [Fintype ι] in
theorem Retaining.act {p'' : Proxy ι R} (h : Retaining p p') (hact : Act p' p'') :
    Retaining p p'' := by
  have hedits := edits_act h.consistent h.pending hact
  obtain ⟨hl, hr⟩ := h.listening.edits hedits
  exact ⟨consistent_act h.consistent hact, h.pending.edits hedits, hl, h.retains.trans hr⟩

theorem retaining_of_runs (h₀ : Retaining p p) (h : (machine ι R).Runs p p') :
    Retaining p p' := by
  refine h.invariant (P := Retaining p) ?_ h₀
  intro s e s' hs hstep
  exact Transition.reflTransGen_invariant (fun _ _ hact h => h.act hact) (acts_of_step hstep) hs

omit [DecidableEq ι] in
theorem started_proxy (cfg : Config ι) (listeners : List Listener) (sns : List Bytes)
    (commands : Commands ι) (localServiceNode : Bool) :
    (start (R := R) cfg listeners sns commands localServiceNode).conns.Started listeners := by
  obtain ⟨h₁, h₂, h₃, h₄, h₅, h₆, h₇⟩ := started_start listeners sns
  exact ⟨h₁, h₂, h₃, h₄, h₅, h₆, h₇⟩

omit [DecidableEq ι] in
theorem retaining_start (cfg : Config ι) (listeners : List Listener) (sns : List Bytes)
    (commands : Commands ι) (localServiceNode : Bool) :
    Retaining (start (R := R) cfg listeners sns commands localServiceNode)
      (start cfg listeners sns commands localServiceNode) := by
  have hstarted := started_proxy (R := R) cfg listeners sns commands localServiceNode
  have hcons : (start (R := R) cfg listeners sns commands localServiceNode).conns.Consistent :=
    (Consistent.start listeners sns).frame
  refine ⟨hcons, ?_, hstarted.listening hcons.toAligned, .refl _⟩
  intro pc hpc
  rw [hstarted.pendingConnects] at hpc
  cases hpc

/-- Listening goes on for as long as the proxy runs: each address that was listened
on at the start has its socket, under the id it was given then, and both tables of
listening sockets still find it; and no other socket listens. The index of a connect
that has timed out is taken to be read before its entry is erased. -/
theorem listeners_stay {cfg : Config ι} {listeners : List Listener} {sns : List Bytes}
    {commands : Commands ι} {localServiceNode : Bool}
    (h : (machine ι R).Runs (start cfg listeners sns commands localServiceNode) p) :
    p.conns.connections.countP (!·.dealer) = listeners.length ∧
      ∀ (i : Nat) (l : Listener), listeners[i]? = some l →
        ∃ index, p.conns.connections[index]? = some ⟨i, false⟩ ∧
          p.conns.connIndexToId[index]? = some { id := i + 1 } ∧
          ⟨{ id := i + 1 }, index, ⟨i, false⟩⟩ ∈ p.conns.incomingConnIndex ∧
          ⟨l.address, l.curve, index, l.allow, ⟨i, false⟩⟩ ∈ p.conns.bind := by
  have hstarted := started_proxy (R := R) cfg listeners sns commands localServiceNode
  obtain ⟨hcons, -, hlistening, hretains⟩ :=
    retaining_of_runs (retaining_start cfg listeners sns commands localServiceNode) h
  refine ⟨?_, fun i l hl => ?_⟩
  · rw [hlistening.countP_eq, hretains.sockets, hstarted.listeningSockets]
    simp
  · have hi : i < listeners.length := (List.getElem?_eq_some_iff.mp hl).1
    have hlisten : listenEntry i ∈ (start (R := R) cfg listeners sns commands
        localServiceNode).conns.incomingConnIndex := by
      rw [hstarted.incomingConnIndex]
      exact List.mem_map_of_mem (List.mem_range.mpr hi)
    have hbind : bindEntry i l ∈ (start (R := R) cfg listeners sns commands
        localServiceNode).conns.bind := by
      rw [hstarted.bind]
      exact List.mem_mapIdx.mpr ⟨i, hi, by rw [(List.getElem?_eq_some_iff.mp hl).2]⟩
    refine hretains.exists_index hcons hlisten hbind rfl ?_
    rw [hstarted.listeningSockets]
    exact List.mem_map.mpr ⟨i, List.mem_range.mpr hi, rfl⟩

/-- The listening socket of the sample, when a connection has come and gone. -/
theorem listeners_stay_after_disconnect : ∃ p, (machine Unit Unit).Runs sample p ∧
    p.conns.nextSocket = 2 ∧ p.conns.connections.countP (!·.dealer) = 1 ∧
    ∃ index : Nat, p.conns.connections[index]? = some ⟨0, false⟩ := by
  let events : List (ProxyEvent Unit Unit) :=
    [.control (.connectSn sampleNetwork 0 { keepAlive := 0, pubkey := some sampleKey }),
      .control (.disconnect { pubkey := sampleKey })]
  have hrun : ((machine Unit Unit).run sample events).any
      (fun p => decide (p.conns.nextSocket = 2)) = true := by
    decide +kernel
  obtain ⟨p, hp, hnext⟩ := (Option.any_eq_true _ _).mp hrun
  have hruns : (machine Unit Unit).Runs sample p := ⟨events, hp⟩
  obtain ⟨hcount, hstay⟩ := listeners_stay hruns
  obtain ⟨index, hindex, -⟩ := hstay 0 _ rfl
  exact ⟨p, hruns, of_decide_eq_true hnext, hcount, index, hindex⟩

end Proxy

end ArqmaMQ
