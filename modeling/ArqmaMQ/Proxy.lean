import ArqmaMQ.DispatchLoop
import ArqmaMQ.Incoming
import ArqmaMQ.Send

/-! The proxy as a whole: connections, requests and the scheduler, driven by
control messages, timers, ZAP requests and messages from other nodes. -/

namespace ArqmaMQ

/-- Where an accepted command came from. For a message on a listening socket:
the answer that let its connection in, the active service nodes at the time,
and the name it arrived under. -/
inductive Origin
  | injected
  | outgoing
  | incoming (answer : ZapAnswer) (activeServiceNodes : List Bytes) (name : Bytes)

structure Proxy (ι R : Type) where
  dispatch : Dispatch ι R
  conns : Connections
  commands : Commands ι
  localServiceNode : Bool
  pendingRequests : Requests := []
  /-- `num_sockets` of the loop over incoming messages. -/
  numSockets : Nat := 0
  /-- Auxiliary: the answers to ZAP requests so far. -/
  answers : List ZapAnswer := []
  /-- Auxiliary: where the accepted commands came from. -/
  origins : List Origin := []
  /-- Auxiliary: the CONNECT_REMOTE messages handled so far. -/
  connects : List Connections.ConnectRemoteData := []
  /-- Auxiliary: tags and callbacks of the requests handled so far. -/
  issued : List (Bytes × Nat) := []
  /-- Auxiliary: the messages read from other nodes, without their routes. -/
  received : List (List Bytes) := []
  /-- Auxiliary: the messages sent back by the proxy itself. -/
  sent : List (Socket × List Bytes) := []

/-- A message as libzmq delivers it. On a listening socket it belongs to the
session some answer has opened, and is reached by a route. -/
structure Incoming where
  index : Nat
  session : Option (Nat × Bytes) := none
  peerAddress : Option Bytes := none
  parts : List Bytes
  now : Int

/-- The control messages that are about connections only. -/
inductive ConnControl
  | reply (conn : ConnectionID) (outcome : Nat → SendOutcome)
  | connectSn (net : Network) (now : Int) (data : Connections.ConnectSnData)
  | disconnect (data : Connections.DisconnectData)
  | setSns (pubkeys : List Bytes)
  | updateSns (added removed : List Bytes)

inductive ProxyEvent (ι R : Type)
  | dispatch (e : DispatchEvent ι R)
  /-- `connect_remote` hands out an id. -/
  | requestConn
  | send (env : SendEnv) (o : SendOptions) (sentAt : Int)
  | control (msg : ConnControl)
  | connectRemote (net : Network) (now : Int) (data : Connections.ConnectRemoteData)
  | cleanup (clock : ConnectionID → Int) (now : Int)
  | zap (frames : List Bytes)
  | incoming (m : Incoming)
  /-- The hash tables come to be iterated in another order. -/
  | rehash (peers : List (ConnectionID × PeerInfo)) (requests : Requests)
  | next

def Closure.isUser : Closure → Bool
  | .user _ => true
  | _ => false

/-- What callers and worker threads can do to the scheduler by themselves. -/
def DispatchEvent.fromOutside {ι R : Type} : DispatchEvent ι R → Bool
  | .submit jobs comp => jobs.all (·.1.isUser) && comp.all (·.1.isUser)
  | .inject p => p.callback.elim (fun _ => false) Closure.isUser
  | .addTimer _ function _ _ _ => function.isUser
  | .command _ | .replyJob _ | .next => false
  | _ => true

def Effect.event {ι R : Type} : Effect → DispatchEvent ι R
  | .job f => .submit [(f, 0)] none
  | .replyJob f => .replyJob f

def Dispatch.perform {ι R : Type} [DecidableEq ι] (d : Dispatch ι R) (es : List Effect) :
    Option (Dispatch ι R) :=
  es.foldlM (fun d e => d.step e.event) d

/-- The loop of `proxy_reply`, which has passed over `skip` entries of the
range. EHOSTUNREACH removes an entry; libzmq never raises it for a DEALER. -/
def Connections.replyLoop (conn : ConnectionID) :
    Nat → (Nat → SendOutcome) → Nat → Connections → Option Connections
  | 0, _, _, c => some c
  | rounds + 1, outcome, skip, c =>
    match (c.equalRange conn)[skip]? with
    | none => some c
    | some (e, i) =>
      match outcome 0 with
      | .hostUnreachable =>
        if e.2.outgoing then none
        else replyLoop conn rounds (outcome ∘ Nat.succ) skip { c with peers := c.peers.eraseIdx i }
      | .error _ => replyLoop conn rounds (outcome ∘ Nat.succ) (skip + 1) c
      | _ => some c

/-- Keys come in sets, so none is repeated. -/
def Connections.control (c : Connections) : ConnControl → Option Connections
  | .reply conn outcome =>
    replyLoop conn.unrouted (c.equalRange conn.unrouted).length outcome 0 c
  | .connectSn net now data => c.proxyConnectSnData net now data
  | .disconnect data => c.proxyDisconnect data
  | .setSns pubkeys => if pubkeys.Nodup then c.proxySetActiveSns pubkeys else none
  | .updateSns added removed =>
    if added.Nodup ∧ removed.Nodup then c.proxyUpdateActiveSns added removed else none

namespace Proxy

variable {ι R : Type} [DecidableEq ι]

def next (p : Proxy ι R) : Option (Proxy ι R) := do
  let d ← p.dispatch.step .next
  let polled := p.dispatch.phase = .incoming && !p.dispatch.proxySkipOnePoll
  some { p with
    dispatch := d
    numSockets := if d.phase = .incoming then p.conns.connections.length else p.numSockets
    conns := { p.conns with pollitemsStale := p.conns.pollitemsStale && !polled } }

/-- The scheduler is given a command, and may accept it. -/
def accept (p : Proxy ι R) (origin : Origin) (d : Dispatch ι R) : Proxy ι R :=
  { p with
    dispatch := d
    origins := if d.accepted.length = p.dispatch.accepted.length then p.origins
      else p.origins ++ [origin] }

/-- The table of requests after a SEND. -/
def requestSent (p : Proxy ι R) (o : SendOptions) (sent : Bool) (expiry : Int) : Requests :=
  match o.request with
  | some (tag, callback) =>
    if sent then p.pendingRequests.insert tag { expiry, callback } else p.pendingRequests
  | none => p.pendingRequests

def proxySend (p : Proxy ι R) (env : SendEnv) (o : SendOptions) (sentAt : Int) :
    Option (Proxy ι R) := do
  let s ← SendState.sendLoop env o ((p.conns.equalRange o.conn).length + 2) (.start o p.conns)
  let d ← p.dispatch.perform (s.afterLoop o)
  some { p with
    dispatch := d
    conns := s.conns
    pendingRequests := p.requestSent o s.sent (int64 (sentAt + nanos o.requestTimeout))
    issued := p.issued ++ o.request.toList }

/-- `proxy_conn_cleanup` -/
def proxyConnCleanup (p : Proxy ι R) (clock : ConnectionID → Int) (now : Int) :
    Option (Proxy ι R) := do
  let (conns, failures) := (p.conns.proxyExpireIdlePeers clock).timeOutConnects now
  let (pendingRequests, timeouts) := p.pendingRequests.timeOut now
  let d ← p.dispatch.perform (failures ++ timeouts)
  some { p with dispatch := d, conns, pendingRequests }

/-- The command handed to the scheduler. -/
def pendingCommand (p : Proxy ι R) (id : ConnectionID) (sender : Sender)
    (peerAddress : Option Bytes) (command : Bytes) (call : ι × CommandCallback)
    (data : List Bytes) : PendingCommand ι where
  cat := call.1
  command
  dataParts := data
  callback := .inl call.2
  conn := { id := if sender.peer.serviceNode then ConnectionID.snId else id.id
            pk := sender.peer.pubkey, route := sender.route }
  access := { auth := sender.peer.authLevel, remoteSn := sender.peer.serviceNode
              localSn := p.localServiceNode }
  remote := peerAddress.getD (bytes "(unknown)")

/-- What is known of a message before it is looked at. -/
structure Link where
  socket : Socket
  id : ConnectionID
  route : Option Bytes
  origin : Bytes → Origin
  sender : Option Sender

/-- Messages on a listening socket come from sessions its ZAP domain has let in,
with the metadata of the answer; routes are not empty. -/
def link (p : Proxy ι R) (m : Incoming) : Option Link := do
  let socket ← p.conns.connections[m.index]?
  let id ← p.conns.connIndexToId[m.index]?
  match m.session with
  | none =>
    if socket.dealer ∧ m.parts ≠ [] then
      some { socket, id, route := none, origin := fun _ => .outgoing
             sender := p.conns.outgoingSender m.index }
    else none
  | some (session, route) =>
    let answer ← p.answers[session]?
    let v ← answer.verdict
    if socket.dealer = false ∧ route ≠ [] ∧ answer.statusCode = bytes "200" ∧
        v.bind.socket = socket then
      some { socket, id, route := some route
             origin := .incoming answer p.conns.activeServiceNodes
             sender := some (p.conns.incomingSender m.index socket route
               (answer.properties m.peerAddress)) }
    else none

/-- Activity on an outgoing connection. -/
def touch (p : Proxy ι R) (position : Option Nat) (now : Int) : Proxy ι R :=
  match position with
  | some i => { p with conns.peers := p.conns.peers.modify i fun e => (e.1, e.2.activity now) }
  | none => p

/-- `proxy_to_worker`, once the sender is known. Only a command that is started
at once counts as activity. -/
def proxyToWorker (p : Proxy ι R) (m : Incoming) (l : Link) (sender : Sender) (name : Bytes)
    (data : List Bytes) : Option (Proxy ι R) :=
  let p := { p with conns := sender.conns }
  let (command, call) := p.commands.getCommand name
  match p.commands.proxyCheckAuth p.localServiceNode l.socket.dealer sender.peer name call data with
  | .error reply => some { p with sent := p.sent ++ [(l.socket, reply)] }
  | .ok call =>
    let direct : Bool := p.dispatch.HasSlot (.category call.1)
    if direct && call.2.isRequest && data.isEmpty then some p
    else do
      let q := p.pendingCommand l.id sender m.peerAddress command call data
      let d ← p.dispatch.step (.command q)
      let p := p.accept (l.origin name) d
      some (if direct then p.touch sender.position m.now else p)

def builtin (p : Proxy ι R) (m : Incoming) (l : Link) : BuiltinResult :=
  p.conns.handleBuiltin p.pendingRequests m.index l.route m.parts

def afterBuiltin (p : Proxy ι R) (m : Incoming) (l : Link) (d : Dispatch ι R) : Proxy ι R :=
  { p with
    dispatch := d
    conns := (p.builtin m l).conns
    pendingRequests := (p.builtin m l).requests
    received := p.received ++ [m.parts]
    sent := p.sent ++ (p.builtin m l).sent.map (l.socket, ·) }

/-- What is not builtin goes to a worker. -/
def forward (p : Proxy ι R) (m : Incoming) (l : Link) (d : Dispatch ι R) : Option (Proxy ι R) :=
  match (p.builtin m l).handled, m.parts, l.sender with
  | false, name :: data, some sender => (p.afterBuiltin m l d).proxyToWorker m l sender name data
  | _, _, _ => some (p.afterBuiltin m l d)

/-- One message from another node. With stale poll items the loop is left. -/
def receive (p : Proxy ι R) (m : Incoming) : Option (Proxy ι R) := do
  let l ← p.link m
  let d ← p.dispatch.perform (p.builtin m l).effects
  let p' ← p.forward m l d
  if p'.conns.pollitemsStale then p'.next else some p'

def inControl (p : Proxy ι R) : Prop := p.dispatch.phase = .control

instance (p : Proxy ι R) : Decidable p.inControl := inferInstanceAs (Decidable (_ = _))

/-- A request has a tag and a callback of its own. -/
def Fresh (p : Proxy ι R) (o : SendOptions) : Prop :=
  ∀ r ∈ o.request, r.1 ∉ p.issued.map Prod.fst ∧ r.2 ∉ p.issued.map Prod.snd

instance (p : Proxy ι R) (o : SendOptions) : Decidable (p.Fresh o) :=
  inferInstanceAs (Decidable (∀ r ∈ o.request, _))

def step (p : Proxy ι R) : ProxyEvent ι R → Option (Proxy ι R)
  | .dispatch e =>
    if e.fromOutside then
      (p.dispatch.step e).map fun d => match e with
        | .inject _ => p.accept .injected d
        | _ => { p with dispatch := d }
    else none
  | .requestConn =>
    some { p with
      conns.nextConnId := p.conns.nextConnId + 1
      conns.requestedIds := p.conns.requestedIds ++ [p.conns.nextConnId] }
  | .send env o sentAt => if p.inControl ∧ p.Fresh o then p.proxySend env o sentAt else none
  | .control msg =>
    if p.inControl then (p.conns.control msg).map fun conns => { p with conns } else none
  | .connectRemote net now data =>
    if p.inControl ∧ data.connId ∈ p.conns.requestedIds then do
      let (conns, effects) ← p.conns.proxyConnectRemote net now data
      let d ← p.dispatch.perform effects
      some { p with
        dispatch := d
        conns := { conns with requestedIds := conns.requestedIds.erase data.connId }
        connects := p.connects ++ [data] }
    else none
  | .cleanup clock now =>
    if p.dispatch.phase = .timers then p.proxyConnCleanup clock now else none
  | .zap frames =>
    if p.dispatch.phase = .zap then
      some { p with answers := p.answers ++ [p.conns.processZapRequest frames] }
    else none
  | .incoming m =>
    if p.dispatch.phase = .incoming ∧ m.index < p.numSockets then p.receive m else none
  | .rehash peers requests =>
    if peers.Perm p.conns.peers ∧ requests.Perm p.pendingRequests then
      some { p with conns.peers := peers, pendingRequests := requests }
    else none
  | .next => p.next

variable [Fintype ι]

/-- The first round starts with fresh poll items. -/
def start (cfg : Config ι) (listeners : List Connections.Listener) (sns : List Bytes)
    (commands : Commands ι) (localServiceNode : Bool) : Proxy ι R where
  dispatch := .start cfg
  conns := { Connections.start listeners sns with pollitemsStale := false }
  commands
  localServiceNode

def machine (ι R : Type) [DecidableEq ι] [Fintype ι] :
    Transition.Machine (Proxy ι R) (ProxyEvent ι R) where
  Init p := ∃ cfg listeners sns commands localServiceNode,
    0 ≤ cfg.maxWorkers ∧ p = start cfg listeners sns commands localServiceNode
  step := step

/-- A service node with one listening address, one request command for other
service nodes, and one such node. -/
def sampleKey : Bytes := List.replicate 32 7

def sampleCommands : Commands Unit where
  category c := if c = bytes "c" then some () else none
  access _ := { auth := .basic, remoteSn := true, localSn := true }
  command _ c := if c = bytes "r" then some ⟨0, true⟩ else none
  aliases c := if c = bytes "old" then some (bytes "c.r") else none

def sample : Proxy Unit Unit :=
  start Dispatch.smallConfig
    [{ address := bytes "tcp://*:1", curve := true, allow _ _ _ := .basic }]
    [sampleKey] sampleCommands true

def sampleNetwork : Network where
  snLookup _ := bytes "tcp://1:1"
  connectError _ := none

theorem sample_reachable : (machine Unit Unit).Reachable sample :=
  .init ⟨_, _, _, _, _, by decide +kernel, rfl⟩

end Proxy

end ArqmaMQ
