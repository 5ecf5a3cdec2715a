import ArqmaMQ.Batch
import ArqmaMQ.Renumber
import ArqmaMQ.Sweep

/-! The connections of the proxy: the sockets, and the tables that refer to
them by index. -/

namespace ArqmaMQ

open Renumber Sweep

/-- A ZMQ socket, told apart from all others by `handle`: a DEALER for an
outgoing connection, a ROUTER for a listening address. -/
structure Socket where
  handle : Nat
  dealer : Bool
  deriving DecidableEq, Repr

/-- `socket` is auxiliary, here and in the tables below: the socket an entry
was created for. -/
structure PeerInfo where
  pubkey : Bytes := []
  serviceNode : Bool := false
  authLevel : AuthLevel := .none
  connIndex : Nat
  route : Bytes := []
  lastActivity : Int := 0
  idleExpiry : Int := 0
  socket : Socket
  deriving DecidableEq, Repr

def PeerInfo.outgoing (p : PeerInfo) : Bool := p.route.isEmpty

def PeerInfo.activity (p : PeerInfo) (now : Int) : PeerInfo := { p with lastActivity := now }

structure PendingConnect where
  connIndex : Nat
  connId : Int
  expiry : Int
  onConnect : Nat
  onFailure : Nat
  socket : Socket
  deriving DecidableEq, Repr

abbrev AllowFunc := Bytes → Bytes → Bool → AuthLevel

structure BindData where
  address : Bytes
  curve : Bool
  index : Nat
  allow : AllowFunc
  socket : Socket

structure ListenIndex where
  connId : ConnectionID
  index : Nat
  socket : Socket
  deriving DecidableEq, Repr

structure Connections where
  connections : List Socket := []
  connIndexToId : List ConnectionID := []
  /-- The multimap, in the order of iteration. -/
  peers : List (ConnectionID × PeerInfo) := []
  pendingConnects : List PendingConnect := []
  bind : List BindData := []
  incomingConnIndex : List ListenIndex := []
  activeServiceNodes : List Bytes := []
  pollitemsStale : Bool := true
  nextConnId : Int := 1
  /-- Ids that `connect_remote` has handed out and whose CONNECT_REMOTE message
  has not reached the proxy. -/
  requestedIds : List Int := []
  /-- Auxiliary: the handle of the next socket. -/
  nextSocket : Nat := 0

/-- Clock readings count nanoseconds and durations milliseconds, in 64 bits. -/
def int64 (x : Int) : Int := x.bmod (2 ^ 64)

def nanos (ms : Int) : Int := int64 (ms * 1000000)

/-- What the connection handlers leave for the job queues: `job`, which comes
back as a BATCH message, or `proxy_schedule_reply_job`. -/
inductive Effect
  | job (f : Closure)
  | replyJob (f : Closure)
  deriving DecidableEq, Repr

/-- What connecting depends on outside the proxy: the `SNRemoteAddress` lookup,
and the error, if any, that setting up and connecting a socket throws. -/
structure Network where
  snLookup : Bytes → Bytes
  connectError : Bytes → Option Bytes

/-- A service node without a connection of the wanted kind is connected to: it may
be, it has an address and `connect()` does not throw. -/
def Network.Opens (net : Network) (remote hint : Bytes) (optional incomingOnly : Bool) : Prop :=
  let addr := if hint.isEmpty then net.snLookup remote else hint
  optional = false ∧ incomingOnly = false ∧ addr ≠ [] ∧ net.connectError addr = none

instance (net : Network) (remote hint : Bytes) (optional incomingOnly : Bool) :
    Decidable (net.Opens remote hint optional incomingOnly) :=
  inferInstanceAs (Decidable (_ ∧ _))

namespace Connections

def peerSlot : Slot (ConnectionID × PeerInfo) where
  get e := e.2.connIndex
  set e i := (e.1, { e.2 with connIndex := i })
  get_set _ _ := rfl

def connectSlot : Slot PendingConnect where
  get pc := pc.connIndex
  set pc i := { pc with connIndex := i }
  get_set _ _ := rfl

def bindSlot : Slot BindData where
  get b := b.index
  set b i := { b with index := i }
  get_set _ _ := rfl

def listenSlot : Slot ListenIndex where
  get l := l.index
  set l i := { l with index := i }
  get_set _ _ := rfl

/-- `proxy_close_connection`, the linger time apart. -/
def closeConnection (c : Connections) (index : Nat) : Connections :=
  { c with
    pollitemsStale := true
    connections := c.connections.eraseIdx index
    peers := update peerSlot index c.peers
    pendingConnects := update connectSlot index c.pendingConnects
    bind := update bindSlot index c.bind
    incomingConnIndex := update listenSlot index c.incomingConnIndex
    connIndexToId := c.connIndexToId.eraseIdx index }

/-- A new DEALER socket with its id and its entry in `peers`. The entry comes last here;
the hash table of the source may be iterated in any other order. -/
def addOutgoing (c : Connections) (id : ConnectionID) (info : Nat → Socket → PeerInfo) :
    Connections :=
  let socket : Socket := { handle := c.nextSocket, dealer := true }
  { c with
    connections := c.connections ++ [socket]
    connIndexToId := c.connIndexToId ++ [id]
    peers := c.peers ++ [(id, info c.connections.length socket)]
    pollitemsStale := true
    nextSocket := c.nextSocket + 1 }

/-- `peers.equal_range`: the entries of a connection, each with its place. -/
def equalRange (c : Connections) (conn : ConnectionID) : List ((ConnectionID × PeerInfo) × Nat) :=
  c.peers.zipIdx.filter (·.1.1.eq conn)

theorem mem_equalRange {c : Connections} {conn : ConnectionID} {e : ConnectionID × PeerInfo}
    {i : Nat} : (e, i) ∈ c.equalRange conn ↔ c.peers[i]? = some e ∧ e.1.eq conn = true := by
  rw [equalRange, List.mem_filter, List.mem_zipIdx_iff_getElem?]

theorem map_fst_equalRange (c : Connections) (conn : ConnectionID) :
    (c.equalRange conn).map Prod.fst = c.peers.filter (·.1.eq conn) := by
  conv_rhs => rw [← List.zipIdx_map_fst 0 c.peers, List.filter_map]
  rfl

/-- The first peer of a service node that the flags allow. -/
def selectPeer (c : Connections) (cid : ConnectionID) (incomingOnly outgoingOnly : Bool) :
    Option ((ConnectionID × PeerInfo) × Nat) :=
  (c.equalRange cid).find? fun it =>
    !(incomingOnly && it.1.2.outgoing) && !(outgoingOnly && !it.1.2.outgoing)

theorem map_fst_selectPeer (c : Connections) (cid : ConnectionID)
    (incomingOnly outgoingOnly : Bool) :
    (c.selectPeer cid incomingOnly outgoingOnly).map Prod.fst =
      (c.peers.filter (·.1.eq cid)).find? fun e =>
        !(incomingOnly && e.2.outgoing) && !(outgoingOnly && !e.2.outgoing) := by
  rw [← map_fst_equalRange, List.find?_map]
  rfl

/-- An existing connection is used again. -/
def reusePeer (keepAlive now : Int) (p : PeerInfo) : PeerInfo :=
  if p.outgoing then
    { p with
      idleExpiry := if p.idleExpiry < keepAlive then keepAlive else p.idleExpiry }.activity now
  else p

/-- The entry of a new connection to a service node. -/
def snPeer (remote : Bytes) (keepAlive now : Int) (connIndex : Nat) (socket : Socket) : PeerInfo :=
  { serviceNode := true, pubkey := remote, connIndex, idleExpiry := keepAlive, lastActivity := now,
    socket }

/-- `proxy_connect_sn`: the index and route to send on, if there is a
connection. A key of the wrong size throws. -/
def proxyConnectSn (net : Network) (now : Int) (remote hint : Bytes)
    (optional incomingOnly outgoingOnly : Bool) (keepAlive : Int) (c : Connections) :
    Option (Option (Nat × Bytes) × Connections) := do
  let cid ← ConnectionID.ofPubkey remote
  match c.selectPeer cid incomingOnly outgoingOnly with
  | some ((_, peer), i) =>
    some (some (peer.connIndex, peer.route),
      { c with peers := c.peers.modify i fun e => (e.1, reusePeer keepAlive now e.2) })
  | none =>
    if optional || incomingOnly then some (none, c)
    else
      let addr := if hint.isEmpty then net.snLookup remote else hint
      if addr.isEmpty then some (none, c)
      else if (net.connectError addr).isSome then some (none, c)
      else some (some (c.connections.length, []), c.addOutgoing cid (snPeer remote keepAlive now))

theorem proxyConnectSn_eq_some {net : Network} {now : Int} {remote hint : Bytes}
    {optional incomingOnly outgoingOnly : Bool} {keepAlive : Int} {c c' : Connections}
    {r : Option (Nat × Bytes)}
    (h : c.proxyConnectSn net now remote hint optional incomingOnly outgoingOnly keepAlive =
      some (r, c')) : ∃ cid, ConnectionID.ofPubkey remote = some cid ∧
    ((∃ e i, c.selectPeer cid incomingOnly outgoingOnly = some (e, i) ∧
        r = some (e.2.connIndex, e.2.route) ∧
        c' = { c with peers := c.peers.modify i fun e => (e.1, reusePeer keepAlive now e.2) }) ∨
      c.selectPeer cid incomingOnly outgoingOnly = none ∧
        ¬ net.Opens remote hint optional incomingOnly ∧ r = none ∧ c' = c ∨
      c.selectPeer cid incomingOnly outgoingOnly = none ∧
        net.Opens remote hint optional incomingOnly ∧ r = some (c.connections.length, []) ∧
        c' = c.addOutgoing cid (snPeer remote keepAlive now)) := by
  obtain ⟨cid, hcid, h⟩ := Option.bind_eq_some_iff.mp h
  refine ⟨cid, hcid, ?_⟩
  rcases hsel : c.selectPeer cid incomingOnly outgoingOnly with _ | ⟨e, i⟩
  · simp only [hsel] at h
    unfold Network.Opens
    generalize (if hint.isEmpty then net.snLookup remote else hint) = addr at h ⊢
    split_ifs at h with hopt haddr herr
    all_goals obtain ⟨rfl, rfl⟩ := Prod.mk.inj (Option.some.inj h)
    · refine .inr (.inl ⟨rfl, fun ho => ?_, rfl, rfl⟩)
      simp [ho.1, ho.2.1] at hopt
    · exact .inr (.inl ⟨rfl, fun ho => ho.2.2.1 (List.isEmpty_iff.mp haddr), rfl, rfl⟩)
    · refine .inr (.inl ⟨rfl, fun ho => ?_, rfl, rfl⟩)
      simp [ho.2.2.2] at herr
    · simp only [Bool.or_eq_true, not_or, Bool.not_eq_true] at hopt
      exact .inr (.inr ⟨rfl, ⟨hopt.1, hopt.2, mt List.isEmpty_iff.mpr haddr, by simpa using herr⟩,
        rfl, rfl⟩)
  · simp only [hsel] at h
    obtain ⟨rfl, rfl⟩ := Prod.mk.inj (Option.some.inj h)
    exact .inl ⟨e, i, rfl, rfl, rfl⟩

/-- The dictionary of CONNECT_SN. -/
structure ConnectSnData where
  hint : Bytes := []
  incomingOnly : Bool := false
  keepAlive : Int
  optional : Bool := false
  outgoingOnly : Bool := false
  pubkey : Option Bytes

def proxyConnectSnData (net : Network) (now : Int) (data : ConnectSnData) (c : Connections) :
    Option Connections := do
  let remotePk ← data.pubkey
  let (_, c) ← c.proxyConnectSn net now remotePk data.hint data.optional data.incomingOnly
    data.outgoingOnly data.keepAlive
  some c

/-- The dictionary of CONNECT_REMOTE. -/
structure ConnectRemoteData where
  authLevel : AuthLevel := .none
  connId : Int := -1
  connect : Nat
  failure : Nat
  pubkey : Bytes := []
  remote : Bytes := []
  /-- `REMOTE_CONNECT_TIMEOUT` -/
  timeout : Int := 10000

/-- `24h * 10 * 365` in milliseconds -/
def forever : Int := 315360000000

def proxyConnectRemote (net : Network) (now : Int) (data : ConnectRemoteData) (c : Connections) :
    Option (Connections × List Effect) :=
  if data.connId = -1 ∨ data.remote = [] then none
  else match net.connectError data.remote with
    | some what => some (c, [.replyJob (.connectFailure data.failure { id := data.connId }
        (bytes "connect() failed: " ++ what))])
    | none =>
      let socket : Socket := { handle := c.nextSocket, dealer := true }
      let pc : PendingConnect :=
        { connIndex := c.connections.length, connId := data.connId,
          expiry := int64 (now + nanos data.timeout), onConnect := data.connect,
          onFailure := data.failure, socket }
      let c := c.addOutgoing { id := data.connId, pk := data.pubkey } fun connIndex socket =>
        { pubkey := data.pubkey, authLevel := data.authLevel, connIndex, idleExpiry := forever,
          lastActivity := now, socket }
      some ({ c with pendingConnects := c.pendingConnects ++ [pc] }, [])

/-- `proxy_disconnect` of a connection -/
def disconnect (c : Connections) (conn : ConnectionID) : Connections :=
  match (c.equalRange conn).find? (·.1.2.outgoing) with
  | some (e, _) => c.closeConnection e.2.connIndex
  | none => c

/-- The dictionary of DISCONNECT. -/
structure DisconnectData where
  connId : Int := -1
  pubkey : Bytes := []

def proxyDisconnect (data : DisconnectData) (c : Connections) : Option Connections :=
  let connid : ConnectionID := { id := data.connId, pk := data.pubkey }
  if connid.sn && connid.pk.length ≠ 32 then none else some (c.disconnect connid)

/-- `proxy_expire_idle_peers`; `now` is the clock when an entry is looked at. -/
def proxyExpireIdlePeers (now : ConnectionID → Int) (c : Connections) : Connections :=
  sweep (fun c pos => c.peers[pos]?)
    (fun _ e c =>
      if e.2.outgoing ∧ nanos e.2.idleExpiry < int64 (now e.1 - e.2.lastActivity) then
        some (c.closeConnection e.2.connIndex)
      else none)
    c.peers.length 0 c

/-- The part of `proxy_conn_cleanup` about pending outgoing connections. The
index of a timed-out entry is read before the entry is erased; the source reads it
through a reference to the entry, after the erase. -/
def timeOutConnects (now : Int) (c : Connections) : Connections × List Effect :=
  sweep (fun s pos => s.1.pendingConnects[pos]?)
    (fun pos pc (c, effects) =>
      if pc.expiry < now then
        some ({ c with pendingConnects := c.pendingConnects.eraseIdx pos }.closeConnection
            pc.connIndex,
          effects ++ [.job (.connectFailure pc.onFailure { id := pc.connId }
            (bytes "connection attempt timed out"))])
      else none)
    c.pendingConnects.length 0 (c, [])

/-- The loop over the peers of a removed service node. -/
def dropPeers (cid : ConnectionID) : Nat → Connections → Connections
  | 0, c => c
  | n + 1, c =>
    match c.equalRange cid with
    | [] => c
    | (e, i) :: _ =>
      let c := { c with peers := c.peers.eraseIdx i }
      dropPeers cid n (if e.2.outgoing then c.closeConnection e.2.connIndex else c)

def removeServiceNode (c : Connections) (pk : Bytes) : Option Connections := do
  let cid ← ConnectionID.ofPubkey pk
  let c := { c with activeServiceNodes := c.activeServiceNodes.erase pk }
  some (dropPeers cid (c.equalRange cid).length c)

def proxyUpdateActiveSnsClean (added removed : List Bytes) (c : Connections) :
    Option Connections := do
  let c ← removed.foldlM removeServiceNode c
  some { c with
    activeServiceNodes := added.foldl (fun sns pk => sns.insert pk) c.activeServiceNodes }

def proxyUpdateActiveSns (added removed : List Bytes) (c : Connections) : Option Connections :=
  let removed := removed.filter fun pk =>
    pk.length = 32 ∧ pk ∈ c.activeServiceNodes ∧ pk ∉ added
  let added := added.filter fun pk => pk.length = 32 ∧ pk ∉ c.activeServiceNodes
  c.proxyUpdateActiveSnsClean added removed

/-- The loop of `proxy_set_active_sns` over the old set, which stops as soon as
the sizes agree. -/
def findRemoved (pubkeys : List Bytes) (size : Nat) : List Bytes → List Bytes → List Bytes
  | [], removed => removed
  | pk :: sns, removed =>
    let removed := if pk ∈ pubkeys then removed else removed ++ [pk]
    if size - removed.length = pubkeys.length then removed
    else findRemoved pubkeys size sns removed

def proxySetActiveSns (pubkeys : List Bytes) (c : Connections) : Option Connections :=
  let pubkeys := pubkeys.filter (·.length = 32)
  let added := pubkeys.filter (· ∉ c.activeServiceNodes)
  if added = [] ∧ c.activeServiceNodes.length = pubkeys.length then some c
  else
    c.proxyUpdateActiveSnsClean added
      (findRemoved pubkeys (c.activeServiceNodes.length + added.length) c.activeServiceNodes [])

/-- What `listen_curve` and `listen_plain` record. -/
structure Listener where
  address : Bytes
  curve : Bool
  allow : AllowFunc

/-- `proxy_loop` sets up one listening address. -/
def listen (c : Connections) (l : Listener) : Connections :=
  let socket : Socket := { handle := c.nextSocket, dealer := false }
  let index := c.connections.length
  let connId : ConnectionID := { id := c.nextConnId }
  { c with
    connections := c.connections ++ [socket]
    connIndexToId := c.connIndexToId ++ [connId]
    incomingConnIndex := c.incomingConnIndex ++ [{ connId, index, socket }]
    bind := c.bind ++ [{ address := l.address, curve := l.curve, index, allow := l.allow, socket }]
    nextConnId := c.nextConnId + 1
    nextSocket := c.nextSocket + 1 }

/-- The connections when `proxy_loop` enters its loop. -/
def start (listeners : List Listener) (activeServiceNodes : List Bytes) : Connections :=
  listeners.foldl listen { activeServiceNodes }

end Connections

end ArqmaMQ
