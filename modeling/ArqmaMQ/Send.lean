import ArqmaMQ.Connections

/-! SEND: choosing a connection, and trying the other connections of a service
node when one turns out to be dead. -/

namespace ArqmaMQ

/-- What `send_message_parts` comes to: all parts were taken, the queue is full,
or a `zmq::error_t` is thrown. -/
inductive SendOutcome
  | sent
  | wouldBlock
  | hostUnreachable
  | error (num : Nat)
  deriving DecidableEq, Repr

/-- `EHOSTUNREACH` -/
def ehostunreach : Nat := 113

/-- The local variables of `proxy_send` once the message is decoded. -/
structure SendOptions where
  conn : ConnectionID
  hint : Bytes := []
  /-- `DEFAULT_SEND_KEEP_ALIVE` -/
  keepAlive : Int := 30000
  optional : Bool := false
  outgoing : Bool := false
  incoming : Bool := false
  /-- `request_tag` and `request_callback` -/
  request : Option (Bytes × Nat) := none
  /-- `DEFAULT_REQUEST_TIMEOUT` -/
  requestTimeout : Int := 15000
  callbackNosend : Option Nat := none
  callbackNoqueue : Option Nat := none

structure SendEnv where
  net : Network
  now : Int
  /-- The outcome of the `n`th attempt. -/
  outcome : Nat → SendOutcome

structure Attempt where
  connIndex : Nat
  route : Bytes
  outcome : SendOutcome
  before : List (ConnectionID × PeerInfo)
  after : List (ConnectionID × PeerInfo)
  deriving DecidableEq, Repr

structure SendState where
  conns : Connections
  conn : ConnectionID
  sent : Bool := false
  callbackNosend : Option Nat := none
  effects : List Effect := []
  /-- Auxiliary: the attempts so far. -/
  attempts : List Attempt := []

namespace SendState

variable (env : SendEnv) (o : SendOptions)

def start (c : Connections) : SendState where
  conns := c
  conn := o.conn
  callbackNosend := o.callbackNosend

/-- The answer of `proxy_connect_sn` is taken over. -/
def takeRoute (s : SendState) : Option (Nat × Bytes) × Connections → Option Nat × SendState
  | (none, conns) => (none, { s with conns })
  | (some (index, route), conns) => (some index, { s with conns, conn := { s.conn with route } })

/-- The socket to send on. Without one the loop is left. -/
def target (s : SendState) : Option (Option Nat × SendState) :=
  if s.conn.sn then
    (s.conns.proxyConnectSn env.net env.now s.conn.pk o.hint o.optional o.incoming o.outgoing
      o.keepAlive).map s.takeRoute
  else if s.conn.route ≠ [] then
    some ((s.conns.incomingConnIndex.find? (·.connId.eq s.conn.unrouted)).map (·.index), s)
  else some ((s.conns.equalRange s.conn).head?.map (·.1.2.connIndex), s)

def erasePeer (s : SendState) (i : Nat) : SendState :=
  { s with conns := { s.conns with peers := s.conns.peers.eraseIdx i } }

/-- The loop that looks for the entry to remove. Its iterator stays where it
is when the route is another one. -/
def findRoute (route : Bytes) : Nat → List ((ConnectionID × PeerInfo) × Nat) → Option (Option Nat)
  | 0, _ => none
  | _ + 1, [] => some none
  | fuel + 1, it :: range =>
    if it.1.2.route = route then some (some it.2) else findRoute route fuel (it :: range)

/-- What EHOSTUNREACH does to `peers`, and whether to retry. -/
def removePeer (fuel : Nat) (s : SendState) : Option (Bool × SendState) :=
  if s.conn.route = [] then some (false, s)
  else match s.conns.equalRange s.conn with
    | [] => some (false, s)
    | it :: range =>
      if s.conn.sn then
        (findRoute s.conn.route fuel (it :: range)).map fun
          | some i => (true, s.erasePeer i)
          | none => (false, s)
      else some (false, s.erasePeer it.2)

/-- An error that is not retried goes to the failure callback. -/
def fail (s : SendState) (num : Nat) : SendState :=
  match s.callbackNosend with
  | some f => { s with effects := s.effects ++ [.job (.sendFail f (some num))],
                       callbackNosend := none }
  | none => s

def finish (s : SendState) : SendOutcome → SendState
  | .sent => { s with sent := true }
  | .wouldBlock => s
  | .hostUnreachable => s.fail ehostunreach
  | .error num => s.fail num

def record (s : SendState) (a : Attempt) : SendState := { s with attempts := s.attempts ++ [a] }

/-- The retry loop of `proxy_send`. Both it and the loop inside run on `fuel`. -/
def sendLoop : Nat → SendState → Option SendState
  | 0, _ => none
  | fuel + 1, s => do
    match ← s.target env o with
    | (none, s) => some s
    | (some connIndex, s) =>
      let outcome := env.outcome s.attempts.length
      let (retry, s') ← if outcome = .hostUnreachable then s.removePeer fuel else some (false, s)
      let s' := s'.record
        { connIndex, route := s.conn.route, outcome, before := s.conns.peers,
          after := s'.conns.peers }
      if retry then sendLoop fuel s' else some (s'.finish outcome)

/-- What follows the loop, the table of requests apart. -/
def afterLoop (s : SendState) : List Effect :=
  if s.sent then s.effects
  else
    let effects := match o.request with
      | some (_, f) => s.effects ++ [.job (.reply f false [bytes "TIMEOUT"])]
      | none => s.effects
    match s.callbackNosend, o.callbackNoqueue with
    | some f, _ => effects ++ [.job (.sendFail f none)]
    | none, some f => effects ++ [.job (.sendFullQueue f)]
    | none, none => effects

end SendState

end ArqmaMQ
