import ArqmaMQ.Dispatch
import ArqmaMQ.Requests
import ArqmaMQ.Zap

/-! Messages from other nodes: the builtin commands, and who a command comes
from and whether they may use it. -/

namespace ArqmaMQ

/-- `is_error_response` -/
def isErrorResponse (cmd : Bytes) : Bool :=
  cmd ∈ [bytes "FORBIDDEN", bytes "FORBIDDEN_SN", bytes "NOT_A_SERVICE_NODE",
    bytes "UNKNOWNCOMMAND", bytes "NO_REPLY_TAG"]

/-- What a builtin command leaves behind, and what it sends back. -/
structure BuiltinResult where
  handled : Bool := true
  conns : Connections
  requests : Requests
  effects : List Effect := []
  sent : List (List Bytes) := []

namespace Connections

/-- HELLO on an outgoing connection: the pending connect is done. -/
def hello (c : Connections) (connIndex : Nat) : Connections × List Effect :=
  match c.pendingConnects.find? (·.connIndex = connIndex), c.connIndexToId[connIndex]? with
  | some pc, some conn =>
    if c.equalRange { id := pc.connId } = [] then (c, [])
    else ({ c with pendingConnects := c.pendingConnects.eraseP (·.connIndex = connIndex) },
      [.replyJob (.connectSuccess pc.onConnect conn)])
  | _, _ => (c, [])

/-- `proxy_handle_builtin`. A message on a listening socket starts with its
route, which is given apart. -/
def handleBuiltin (c : Connections) (rs : Requests) (connIndex : Nat) (route : Option Bytes) :
    List Bytes → BuiltinResult
  | [] => { conns := c, requests := rs }
  | cmd :: args =>
    if cmd = bytes "REPLY" then
      match args with
      | [] => { conns := c, requests := rs }
      | tag :: data =>
        { conns := c, requests := (rs.answer tag true data).1
          effects := (rs.answer tag true data).2 }
    else if cmd = bytes "HI" then
      { conns := c, requests := rs
        sent := route.elim [] fun route => [[route, bytes "HELLO"]] }
    else if cmd = bytes "HELLO" then
      if route.isSome then { conns := c, requests := rs }
      else { conns := (c.hello connIndex).1, requests := rs, effects := (c.hello connIndex).2 }
    else if cmd = bytes "BYE" then
      { conns := if route.isSome then c else c.closeConnection connIndex, requests := rs }
    else if isErrorResponse cmd then
      match args with
      | [reply, tag] =>
        if reply = bytes "REPLY" then
          { conns := c, requests := (rs.answer tag false [cmd]).1
            effects := (rs.answer tag false [cmd]).2 }
        else { conns := c, requests := rs }
      | _ => { conns := c, requests := rs }
    else { handled := false, conns := c, requests := rs }

/-- Besides leaving things alone a builtin command can answer a request,
conclude a pending connect or close a connection. -/
inductive BuiltinCase (c : Connections) (rs : Requests) (connIndex : Nat) (route : Option Bytes)
    (parts : List Bytes) (r : BuiltinResult) : Prop
  | idle (hc : r.conns = c) (hr : r.requests = rs) (he : r.effects = [])
  | reply (tag : Bytes) (data : List Bytes) (h : parts = bytes "REPLY" :: tag :: data)
    (hc : r.conns = c) (hr : r.requests = (rs.answer tag true data).1)
    (he : r.effects = (rs.answer tag true data).2)
  | error (cmd tag : Bytes) (h : isErrorResponse cmd = true) (hc : r.conns = c)
    (hr : r.requests = (rs.answer tag false [cmd]).1)
    (he : r.effects = (rs.answer tag false [cmd]).2)
  | hello (h : route = none ∧ r.handled = true) (hc : r.conns = (c.hello connIndex).1)
    (hr : r.requests = rs) (he : r.effects = (c.hello connIndex).2)
  | bye (h : route = none ∧ r.handled = true ∧ parts.head? = some (bytes "BYE"))
    (hc : r.conns = c.closeConnection connIndex) (hr : r.requests = rs) (he : r.effects = [])

theorem handleBuiltin_case (c : Connections) (rs : Requests) (connIndex : Nat)
    (route : Option Bytes) (parts : List Bytes) :
    BuiltinCase c rs connIndex route parts (c.handleBuiltin rs connIndex route parts) := by
  rcases parts with _ | ⟨cmd, args⟩
  · exact .idle rfl rfl rfl
  simp only [handleBuiltin]
  split
  · rename_i hreply
    rcases args with _ | ⟨tag, data⟩
    · exact .idle rfl rfl rfl
    · exact .reply tag data (by rw [hreply]) rfl rfl rfl
  split
  · exact .idle rfl rfl rfl
  split
  · split
    · exact .idle rfl rfl rfl
    · rename_i hroute
      exact .hello ⟨by simpa using hroute, rfl⟩ rfl rfl rfl
  split
  · rename_i hbye
    by_cases hroute : route.isSome = true
    · exact .idle (if_pos hroute) rfl rfl
    · exact .bye ⟨by simpa using hroute, rfl, by rw [hbye]; rfl⟩ (if_neg hroute) rfl rfl
  split
  · rename_i herr
    split
    · rename_i reply tag
      split
      · exact .error cmd tag herr rfl rfl rfl
      · exact .idle rfl rfl rfl
    · exact .idle rfl rfl rfl
  · exact .idle rfl rfl rfl

theorem handleBuiltin_of_not_handled {c : Connections} {rs : Requests} {connIndex : Nat}
    {route : Option Bytes} {parts : List Bytes}
    (h : (c.handleBuiltin rs connIndex route parts).handled = false) :
    c.handleBuiltin rs connIndex route parts =
      { handled := false, conns := c, requests := rs } := by
  rcases parts with _ | ⟨cmd, args⟩
  · cases h
  simp only [handleBuiltin] at h ⊢
  split at h
  · split at h <;> cases h
  split at h
  · cases h
  split at h
  · split at h <;> cases h
  split at h
  · cases h
  split at h
  · split at h
    · split at h <;> cases h
    · cases h
  · simp only [*, if_false, Bool.false_eq_true]

theorem handleBuiltin_bye (c : Connections) (rs : Requests) (connIndex : Nat) {parts : List Bytes}
    (h : parts.head? = some (bytes "BYE")) : c.handleBuiltin rs connIndex none parts =
      { conns := c.closeConnection connIndex, requests := rs } := by
  obtain ⟨args, rfl⟩ := List.head?_eq_some_iff.mp h
  have hreply : ¬ bytes "BYE" = bytes "REPLY" := by decide
  have hhi : ¬ bytes "BYE" = bytes "HI" := by decide
  have hhello : ¬ bytes "BYE" = bytes "HELLO" := by decide
  simp only [handleBuiltin, if_neg hreply, if_neg hhi, if_neg hhello, if_true]
  rfl

end Connections

/-- The categories, commands and aliases, fixed once the proxy runs. -/
structure Commands (ι : Type) where
  category : Bytes → Option ι
  access : ι → Access
  command : ι → Bytes → Option CommandCallback
  aliases : Bytes → Option Bytes

namespace Commands

variable {ι : Type}

/-- Category and command, around the first dot. -/
def split (command : Bytes) : Option (Bytes × Bytes) :=
  match command.span (· ≠ '.'.toUInt8) with
  | ([], _) => none
  | (_, []) => none
  | (category, _ :: cmd) => some (category, cmd)

/-- `get_command`: the name with its alias resolved, and what it refers to. The
longest name is `MAX_CATEGORY_LENGTH + 1 + MAX_COMMAND_LENGTH`. -/
def getCommand (r : Commands ι) (command : Bytes) : Bytes × Option (ι × CommandCallback) :=
  if command.length > 50 + 1 + 200 then (command, none)
  else
    let command := (r.aliases command).getD command
    (command, do
      let (category, cmd) ← split command
      let cat ← r.category category
      let callback ← r.command cat cmd
      return (cat, callback))

/-- Why `proxy_check_auth` turns a command down. -/
def refusal (r : Commands ι) (localServiceNode : Bool) (peer : PeerInfo)
    (call : Option (ι × CommandCallback)) (data : List Bytes) : Option Bytes :=
  match call with
  | none => some (bytes "UNKNOWNCOMMAND")
  | some (cat, callback) =>
    if peer.authLevel < (r.access cat).auth then some (bytes "FORBIDDEN")
    else if (r.access cat).localSn && !localServiceNode then some (bytes "NOT_A_SERVICE_NODE")
    else if (r.access cat).remoteSn && !peer.serviceNode then some (bytes "FORBIDDEN_SN")
    else if callback.isRequest && data.isEmpty then some (bytes "NO_REPLY_TAG")
    else none

/-- `proxy_check_auth`: the command to run, or the message that turns it down. -/
def proxyCheckAuth (r : Commands ι) (localServiceNode outgoing : Bool) (peer : PeerInfo)
    (cmd : Bytes) (call : Option (ι × CommandCallback)) (data : List Bytes) :
    Except (List Bytes) (ι × CommandCallback) :=
  match r.refusal localServiceNode peer call data, call with
  | none, some cat => .ok cat
  | reply, call => .error <|
    (if outgoing then [] else [peer.route]) ++ reply.toList ++
      match call, data with
      | some (_, { isRequest := true, .. }), tag :: _ => [bytes "REPLY", tag]
      | _, _ => [cmd]

end Commands

/-- Who a message is from, as `proxy_to_worker` finds out: the peer, where an
outgoing one stands in `peers`, and what is left of the route in `tmp_peer`. -/
structure Sender where
  conns : Connections
  peer : PeerInfo
  position : Option Nat := none
  route : Bytes := []

namespace Connections

def outgoingSender (c : Connections) (connIndex : Nat) : Option Sender := do
  let id ← c.connIndexToId[connIndex]?
  let (e, i) ← (c.equalRange id).head?
  some { conns := c, peer := e.2, position := some i }

theorem outgoingSender_eq_some {c : Connections} {connIndex : Nat} {sender : Sender}
    (h : c.outgoingSender connIndex = some sender) :
    ∃ id e i, c.connIndexToId[connIndex]? = some id ∧ (c.equalRange id).head? = some (e, i) ∧
      sender = { conns := c, peer := e.2, position := some i } := by
  obtain ⟨id, hid, h⟩ := Option.bind_eq_some_iff.mp h
  obtain ⟨⟨e, i⟩, hrange, h⟩ := Option.bind_eq_some_iff.mp h
  exact ⟨id, e, i, hid, hrange, (Option.some.inj h).symm⟩

/-- A service node gets an entry in `peers`; what its messages carry replaces
the level stored there. -/
def incomingSender (c : Connections) (connIndex : Nat) (socket : Socket) (route : Bytes)
    (m : Properties) : Sender :=
  let (pubkey, authLevel) := extractMetadata m
  let serviceNode := pubkey.length = 32 && pubkey ∈ c.activeServiceNodes
  let tmp : PeerInfo := { pubkey, serviceNode, authLevel, connIndex, route, socket }
  if serviceNode then
    let cid : ConnectionID := { id := ConnectionID.snId, pk := pubkey }
    match (c.equalRange cid).find? fun it =>
        it.1.2.connIndex = connIndex && it.1.2.route = route with
    | some (e, i) =>
      let set (p : PeerInfo) : PeerInfo := { p with authLevel }
      { conns := { c with peers := c.peers.modify i fun e => (e.1, set e.2) }, peer := set e.2,
        route }
    | none => { conns := { c with peers := c.peers ++ [(cid, tmp)] }, peer := tmp }
  else { conns := c, peer := tmp, route }

end Connections

end ArqmaMQ
