import ArqmaMQ.BtDictField
import ArqmaMQ.Address
import ArqmaMQ.Send

/-! The control messages SEND, CONNECT_REMOTE, CONNECT_SN and DISCONNECT: how
their data is put together by the threads that send them, and how the proxy
takes it apart. Pointers to callbacks stand for the objects they point to. -/

namespace ArqmaMQ

open SortedMap BtDictConsumer
open scoped ByteOrder

/-- A string of the source; its length is a `size_t`. -/
abbrev StdString := { s : Bytes // s.length < 2 ^ 64 }

/-- A duration in milliseconds that is not negative. -/
abbrev Millis := { t : Int64 // 0 ≤ t }

/-- A `bool` is stored as an unsigned integer. -/
def BtVariant.ofBool (b : Bool) : BtVariant := .uint (if b then 1 else 0)

section Send

inductive SendOption
  /-- A string argument. -/
  | data (s : StdString)
  /-- A `std::optional` string. -/
  | maybe (s : Option StdString)
  | dataParts (parts : List StdString)
  | hint (connectHint : StdString)
  | optional (isOptional : Bool)
  | incoming (isIncoming : Bool)
  | outgoing (isOutgoing : Bool)
  | keepAlive (time : Millis)
  | requestTimeout (time : Millis)
  | queueFailure (callback : UInt64)
  | queueFull (callback : UInt64)

structure SendBuilder where
  parts : List BtVariant
  controlData : List (Bytes × BtVariant)

namespace SendBuilder

def append (b : SendBuilder) (data : List StdString) : SendBuilder :=
  { b with parts := b.parts ++ data.map fun s => .stringView s.1 }

def set (b : SendBuilder) (key : String) (v : BtVariant) : SendBuilder :=
  { b with controlData := assign (bytes key) v b.controlData }

end SendBuilder

def applySendOption (b : SendBuilder) : SendOption → SendBuilder
  | .data s => b.append [s]
  | .maybe s => b.append s.toList
  | .dataParts parts => b.append parts
  | .hint connectHint => b.set "hint" (.string connectHint.1)
  | .optional isOptional => b.set "optional" (.ofBool isOptional)
  | .incoming isIncoming => b.set "incoming" (.ofBool isIncoming)
  | .outgoing isOutgoing => b.set "outgoing" (.ofBool isOutgoing)
  | .keepAlive time => b.set "keep_alive" (.int time.1)
  | .requestTimeout time => b.set "request_timeout" (.int time.1)
  | .queueFailure callback => b.set "send_fail" (.uint callback)
  | .queueFull callback => b.set "send_full_q" (.uint callback)

def buildSend (conn : ConnectionID) (cmd : StdString) (opts : List SendOption) :
    List (Bytes × BtVariant) :=
  let b := opts.foldl applySendOption ⟨[.stringView cmd.1], []⟩
  let b := if conn.sn then b.set "conn_pubkey" (.string conn.pk)
    else (b.set "conn_id" (.int (Int64.ofInt conn.id))).set "conn_route" (.string conn.route)
  (b.set "send" (.list b.parts)).controlData

/-- The tag and the callback of a request. -/
structure Request where
  replyTag : StdString
  callback : UInt64

/-- The data of `send`, or of `request`. -/
def sendData (conn : ConnectionID) (cmd : StdString) (opts : List SendOption) :
    Option Request → List (Bytes × BtVariant)
  | none => buildSend conn cmd opts
  | some req =>
    let controlData := buildSend conn cmd (.data req.replyTag :: opts)
    let controlData := assign (bytes "request") (.ofBool true) controlData
    let controlData := assign (bytes "request_callback") (.uint req.callback) controlData
    assign (bytes "request_tag") (.stringView req.replyTag.1) controlData

end Send

section Connect

inductive ConnectOption
  | authLevel (auth : Int32)
  | ephemeralRoutingId (useEphemeralRoutingId : Bool)
  | timeout (time : Millis)
  | keepAlive (time : Millis)
  | hint (address : StdString)
  /-- The deprecated `std::chrono::milliseconds`. -/
  | time (time : Millis)
  /-- The deprecated string. -/
  | string (hint : StdString)

def applyConnectOption (remote : Bool) (opts : List (Bytes × BtVariant)) :
    ConnectOption → List (Bytes × BtVariant)
  | .authLevel auth => if remote then assign (bytes "auth_level") (.int auth.toInt64) opts else opts
  | .ephemeralRoutingId use => assign (bytes "ephemeral_rid") (.ofBool use) opts
  | .timeout time => if remote then assign (bytes "timeout") (.int time.1) opts else opts
  | .keepAlive time => if remote then opts else assign (bytes "keep_alive") (.int time.1) opts
  | .hint address => if remote then opts else assign (bytes "hint") (.string address.1) opts
  | .time time =>
    if remote then assign (bytes "timeout") (.int time.1) opts
    else assign (bytes "keep_alive") (.int time.1) opts
  | .string hint => if remote then opts else assign (bytes "hint") (.stringView hint.1) opts

/-- The data of `connect_remote`; `id` is taken from `next_conn_id`. -/
def connectRemoteData (remote : Address) (onConnect onFailure : UInt64) (id : Int64)
    (options : List ConnectOption) : List (Bytes × BtVariant) :=
  let opts := options.foldl (applyConnectOption true) []
  let opts := assign (bytes "conn_id") (.int id) opts
  let opts := assign (bytes "connect") (.uint onConnect) opts
  let opts := assign (bytes "failure") (.uint onFailure) opts
  let opts := if remote.curve then assign (bytes "pubkey") (.string remote.pubkey) opts else opts
  assign (bytes "remote") (.string remote.zmqAddress) opts

/-- The data of `connect_sn`. -/
def connectSnData (ephemeralRoutingId : Bool) (pubkey : StdString)
    (options : List ConnectOption) : List (Bytes × BtVariant) :=
  let opts := assignAll [(bytes "keep_alive", .int 300000),
    (bytes "ephemeral_rid", .ofBool ephemeralRoutingId)] []
  let opts := options.foldl (applyConnectOption false) opts
  assign (bytes "pubkey") (.stringView pubkey.1) opts

/-- The data of `disconnect`. -/
def disconnectData (id : ConnectionID) (linger : Int64) : List (Bytes × BtVariant) :=
  assignAll [(bytes "conn_id", .int (Int64.ofInt id.id)), (bytes "linger_ms", .int linger),
    (bytes "pubkey", .string id.pk)] []

end Connect

inductive ControlError
  | bt (e : BtError)
  /-- `std::runtime_error` -/
  | runtime (what : String)
  /-- A variable was read that had no value. -/
  | uninitialised
  deriving DecidableEq, Repr

/-- The handlers of control messages, as far as they read the data. -/
abbrev Control := EStateM ControlError BtDictConsumer

instance : MonadLift Method Control where
  monadLift x c :=
    match x.run c with
    | .ok a c' => .ok a c'
    | .error e c' => .error (.bt e) c'

theorem run_lift {α : Type} {x : Method α} {a : α} {c c' : BtDictConsumer}
    (h : x.run c = .ok a c') :
    (liftM x : Control α).run c = .ok a c' := by
  change (match x.run c with
    | .ok a c' => EStateM.Result.ok a c'
    | .error e c' => .error (ControlError.bt e) c') = _
  rw [h]

/-- `if (c) throw std::runtime_error(what);` -/
def failIf (c : Prop) [Decidable c] (what : String) : Control Unit :=
  if c then throw (.runtime what) else pure ()

def consumeBool : Method Bool := return (← consumeInteger .bool) != 0

/-- `std::chrono::milliseconds{data.consume_integer<uint64_t>()}` -/
def consumeMillis : Method Int := return int64 (← consumeInteger .uint64)

/-- `deserialize_object(data.consume_integer<uintptr_t>())` -/
def consumeObject : Method Nat := return (← consumeInteger .uint64).toNat

def consumeListConsumer : Control Bytes := do
  match BtListConsumer.ofData (← consumeListData) with
  | .ok send => return send
  | .error what => throw (.runtime what)

section ProxySend

structure SendMessage where
  options : SendOptions
  /-- The view of the list consumer `send`. -/
  send : Bytes

def parseConn : Control ConnectionID := do
  let id ← fieldOr (bytes "conn_id") (some <$> consumeInteger .longLong) none
  failIf (id = some (-1)) "Invalid error: invalid conn_id value (-1)"
  if ← skipUntil (bytes "conn_pubkey") then
    failIf id.isSome
      "Internal error: Invalid proxy send command; conn_id and conn_pubkey are exclusive"
    return { id := ConnectionID.snId, pk := ← consumeString }
  else
    failIf id.isNone
      "Internal error: Invalid proxy send command; conn_pubkey or conn_id missing"
    return { id := id.getD 0 }

/-- The request and its timeout, which is `DEFAULT_REQUEST_TIMEOUT` otherwise. -/
def parseRequest : Control (Option (Bytes × Nat) × Int) := do
  if ← fieldOr (bytes "request") consumeBool false then
    failIf (¬ (← skipUntil (bytes "request_callback")))
      "Internal error: received request without request_callback"
    let callback ← consumeObject
    failIf (¬ (← skipUntil (bytes "request_tag")))
      "Internal error: received request without request_name"
    let tag ← consumeString
    let timeout ← fieldOr (bytes "request_timeout") consumeMillis 15000
    return (some (tag, callback), timeout)
  else
    return (none, 15000)

/-- `proxy_send`, up to the loop. -/
def parseSend : Control SendMessage := do
  let conn ← parseConn
  let route ← fieldOr (bytes "conn_route") consumeString []
  let hint ← fieldOr (bytes "hint") consumeString []
  let incoming ← fieldOr (bytes "incoming") consumeBool false
  let keepAlive ← fieldOr (bytes "keep_alive") consumeMillis 30000
  let optional ← fieldOr (bytes "optional") consumeBool false
  let outgoing ← fieldOr (bytes "outgoing") consumeBool false
  let (request, requestTimeout) ← parseRequest
  failIf (¬ (← skipUntil (bytes "send")))
    "Internal error: Invalid proxy send command; send parts missing"
  let send ← consumeListConsumer
  let callbackNosend ← fieldOr (bytes "send_fail") (some <$> consumeObject) none
  let callbackNoqueue ← fieldOr (bytes "send_full_q") (some <$> consumeObject) none
  return {
    options := {
      conn := { conn with route }
      hint, keepAlive, optional, outgoing, incoming, request, requestTimeout, callbackNosend
      callbackNoqueue }
    send }

/-- The loop of `build_send_parts`, for less than `n` parts. -/
def sendPartsLoop : Nat → BtReader (List Bytes)
  | 0 => throw .outOfFuel
  | n + 1 => do
    if ← BtListConsumer.isFinished then
      return []
    else
      let part ← BtListConsumer.consumeStringView
      return part :: (← sendPartsLoop n)

def buildSendParts (send route : Bytes) : Except BtError (List Bytes) :=
  match (sendPartsLoop (send.length + 1)).run send with
  | .ok parts _ => .ok (if route.isEmpty then parts else route :: parts)
  | .error e _ => .error e

end ProxySend

section ProxyConnect

structure ConnectRemoteMessage extends Connections.ConnectRemoteData where
  ephemeralRid : Bool

/-- `proxy_connect_remote`, up to the new socket. -/
def parseConnectRemote (ephemeralRoutingId : Bool) : Control ConnectRemoteMessage := do
  let authLevel ← fieldOr (bytes "auth_level") (AuthLevel.mk <$> consumeInteger .int) .none
  let connId ← fieldOr (bytes "conn_id") (consumeInteger .longLong) (-1)
  let connect ← fieldOr (bytes "connect") consumeObject 0
  let ephemeralRid ← fieldOr (bytes "ephemeral_rid") consumeBool ephemeralRoutingId
  let failure ← fieldOr (bytes "failure") consumeObject 0
  let pubkey ← fieldOr (bytes "pubkey") consumeString []
  let remote ← fieldOr (bytes "remote") consumeString []
  let timeout ← fieldOr (bytes "timeout") consumeMillis 10000
  failIf (connId = -1 ∨ remote = [])
    ("Internal error: CONNECT_REMOTE proxy command missing required " ++
      "'conn_id' and/or 'remote' value")
  return { authLevel, connId, connect, failure, pubkey, remote, timeout, ephemeralRid }

structure ConnectSnMessage extends Connections.ConnectSnData where
  ephemeralRid : Bool

/-- `proxy_connect_sn`; `keep_alive` has no default. -/
def parseConnectSn (ephemeralRoutingId : Bool) : Control ConnectSnMessage := do
  let ephemeralRid ← fieldOr (bytes "ephemeral_rid") consumeBool ephemeralRoutingId
  let hint ← fieldOr (bytes "hint") consumeString []
  let incomingOnly ← fieldOr (bytes "incoming") consumeBool false
  let keepAlive ← fieldOr (bytes "keep_alive") (some <$> consumeMillis) none
  let optional ← fieldOr (bytes "optional") consumeBool false
  let outgoingOnly ← fieldOr (bytes "outgoing_only") consumeBool false
  failIf (¬ (← skipUntil (bytes "pubkey")))
    "Internal error: Invalid proxy_connect_sn command; pubkey missing"
  let pubkey ← consumeString
  match keepAlive with
  | none => throw .uninitialised
  | some keepAlive =>
    return {
      hint, incomingOnly, keepAlive, optional, outgoingOnly, ephemeralRid
      pubkey := some pubkey }

structure DisconnectMessage extends Connections.DisconnectData where
  linger : Int

/-- `proxy_disconnect`, up to the search for the peer. -/
def parseDisconnect : Control DisconnectMessage := do
  let connId ← fieldOr (bytes "conn_id") (consumeInteger .longLong) (-1)
  let linger ← fieldOr (bytes "linger_ms") (consumeInteger .longLong) 1000
  let pubkey ← fieldOr (bytes "pubkey") consumeString []
  failIf (connId = -1 ∧ pubkey.length ≠ 32)
    "Error: invalid disconnect of SN without a valid pubkey"
  return { connId, pubkey, linger }

end ProxyConnect

/-- A handler applied to the data of a control message. -/
def Control.decode {α : Type} (x : Control α) (data : Bytes) : Except ControlError α :=
  match BtDictConsumer.ofData data with
  | .error what => .error (.runtime what)
  | .ok c =>
    match x.run c with
    | .ok a _ => .ok a
    | .error e _ => .error e

end ArqmaMQ
