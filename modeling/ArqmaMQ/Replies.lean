import ArqmaMQ.ControlConnect
import ArqmaMQ.DispatchPaths
import ArqmaMQ.LoadedWorkers
import ArqmaMQ.Refusals
import ArqmaMQ.ReplyRoutes
import ArqmaMQ.SendErrors

/-! A reply, from the callback that a worker runs for a request to the node that
made the request. -/

namespace ArqmaMQ

open Connections

/-- The data of `send_reply`, or of `reply` later on. -/
def Message.sendReply (m : Message) (htag : m.replyTag.length < 2 ^ 64)
    (args : List SendOption) : List (Bytes × BtVariant) :=
  sendData m.conn ⟨bytes "REPLY", by decide⟩
    (.data ⟨m.replyTag, htag⟩ :: .optional (!m.conn.sn) :: args) none

/-- The parts that the arguments of `send_reply` add to the message. -/
def replyData (args : List SendOption) : List Bytes :=
  (args.flatMap SendOption.parts).map Subtype.val

/-- An empty route is that of an outgoing connection. -/
def routeOf (route : Bytes) : Option Bytes := if route = [] then none else some route

theorem deliver_frames (route : Bytes) (parts : List Bytes) :
    deliver (routeOf route) (if route = [] then parts else route :: parts) = some parts := by
  by_cases hr : route = []
  · simp [routeOf, hr, deliver]
  · simp [routeOf, hr, deliver]

/-- The request with the tag, if there is one, succeeds with the data; all others
are left alone. -/
structure CompletesRequest (rs : Requests) (tag : Bytes) (data : List Bytes)
    (r : BuiltinResult) : Prop where
  pending : ∀ q, rs.find? tag = some q →
    r.requests.find? tag = none ∧ r.effects = [.replyJob (.reply q.callback true data)]
  unknown : rs.find? tag = none → r.requests = rs ∧ r.effects = []
  others : ∀ t, t ≠ tag → r.requests.find? t = rs.find? t

theorem completesRequest_reply (c : Connections) (rs : Requests) (connIndex : Nat)
    (route : Option Bytes) (tag : Bytes) (data : List Bytes) :
    CompletesRequest rs tag data
      (c.handleBuiltin rs connIndex route (bytes "REPLY" :: tag :: data)) := by
  have hreply : c.handleBuiltin rs connIndex route (bytes "REPLY" :: tag :: data) =
      { conns := c, requests := (rs.answer tag true data).1
        effects := (rs.answer tag true data).2 } := by
    rw [handleBuiltin, if_pos rfl]
  rw [hreply, Requests.answer]
  rcases hq : rs.find? tag with _ | q
  · exact ⟨fun q' hq' => (by rw [hq] at hq'; cases hq'), fun _ => ⟨rfl, rfl⟩, fun _ _ => rfl⟩
  · refine ⟨fun q' hq' => ?_, fun hnone => ?_, fun t ht => Requests.find?_erase_of_ne ht⟩
    · obtain rfl := Option.some.inj (hq.symm.trans hq')
      exact ⟨rs.find?_erase_self tag, rfl⟩
    · rw [hq] at hnone
      cases hnone

namespace SendState

variable {env : SendEnv} {o : SendOptions} {s s' : SendState} {c : Connections}

/-- There is at most one attempt to reach a remote that is not a service node. -/
theorem attempts_of_not_sn (hsn : o.conn.sn = false) {t : Option Nat} {fuel : Nat}
    (ht : (start o c).target env o = some (t, start o c))
    (hs : sendLoop env o (fuel + 1) (start o c) = some s) :
    (s.attempts = [] ↔ t = none) ∧
      ∀ a ∈ s.attempts, t = some a.connIndex ∧ a.route = o.conn.route := by
  rcases t with _ | i
  · obtain rfl : start o c = s := by simpa [sendLoop, ht] using hs
    simp [start]
  · rw [sendLoop_succ ht] at hs
    obtain ⟨⟨retry, s₁⟩, h₁, hs⟩ := Option.bind_eq_some_iff.mp hs
    have hone : retry = false ∧ s₁.attempts = [] := by
      split at h₁
      · obtain ⟨s₂, h₂⟩ := removePeer_of_not_sn (s := start o c) hsn fuel
        obtain ⟨rfl, -⟩ := Prod.mk.inj (Option.some.inj (h₂.symm.trans h₁))
        obtain rfl | ⟨-, it, -, -, rfl⟩ := removePeer_eq_some h₁ <;> exact ⟨rfl, rfl⟩
      · obtain ⟨rfl, rfl⟩ := Prod.mk.inj (Option.some.inj h₁)
        exact ⟨rfl, rfl⟩
    obtain ⟨rfl, hnil⟩ := hone
    obtain rfl := Option.some.inj hs
    simp [record, hnil, start]

theorem attempts_ne_nil {fuel : Nat} (h : s.attempts ≠ [])
    (hs : sendLoop env o fuel s = some s') : s'.attempts ≠ [] := by
  refine sendLoop_invariant (P := fun s => s.attempts ≠ []) ?_ ?_ ?_ ?_ h hs
  · intro s t s' h ht
    obtain rfl | ⟨r, c, route, -, rfl⟩ := target_eq_some ht <;> exact h
  · intro s fuel retry s' h hr
    obtain rfl | ⟨-, it, -, -, rfl⟩ := removePeer_eq_some hr <;> exact h
  · exact fun s a _ => List.append_ne_nil_of_right_ne_nil _ (List.cons_ne_nil a [])
  · exact fun s r h => by rwa [attempts_finish]

theorem attempts_ne_nil_of_target {i fuel : Nat} (ht : s.target env o = some (some i, s'))
    {s'' : SendState} (hs : sendLoop env o (fuel + 1) s = some s'') : s''.attempts ≠ [] := by
  rw [sendLoop_succ ht] at hs
  obtain ⟨⟨retry, s₁⟩, -, hs⟩ := Option.bind_eq_some_iff.mp hs
  have hrecord (a : Attempt) : (s₁.record a).attempts ≠ [] :=
    List.append_ne_nil_of_right_ne_nil _ (List.cons_ne_nil a [])
  dsimp only at hs
  split at hs
  · exact attempts_ne_nil (hrecord _) hs
  · obtain rfl := Option.some.inj hs
    rw [attempts_finish]
    exact hrecord _

/-- A service node is tried unless it has no connection of the wanted kind and
none can be opened. -/
theorem attempts_eq_nil_iff (hsn : o.conn.sn = true) (hpk : o.conn.pk.length = 32)
    (hs : result env o c = some s) :
    s.attempts = [] ↔ (c.peers.filter (·.1.eq o.conn)).find? o.admits = none ∧
      ¬ env.net.Opens o.conn.pk o.hint o.optional o.incoming := by
  have hfind := find_admits (s := start o c) hsn ⟨hsn, rfl⟩ rfl
  obtain ⟨t, s₁, ht, hatt, hcases⟩ := target_cases (s := start o c) env o hsn hpk
  rcases hcases with ⟨rfl, hsel, hno⟩ | ⟨i, rfl, -, ⟨it, hsel, -⟩ | ⟨-, hopens⟩⟩ |
    ⟨e, i, hsel, -, rfl, -⟩
  · rw [hsel] at hfind
    obtain rfl : s₁ = s := by simpa [result, sendLoop, ht] using hs
    exact iff_of_true hatt ⟨hfind, hno⟩
  · rw [hsel] at hfind
    exact iff_of_false (attempts_ne_nil_of_target ht hs) fun hh => by cases hfind.symm.trans hh.1
  · exact iff_of_false (attempts_ne_nil_of_target ht hs) fun hh => hh.2 hopens
  · rw [hsel] at hfind
    exact iff_of_false (attempts_ne_nil_of_target ht hs) fun hh => by cases hfind.symm.trans hh.1

/-- A message to a service node by any of the names it has, or to anyone else, is
done with if it does not get stuck. -/
theorem exists_result_towards (c : Connections) {conn : ConnectionID}
    (hsame : o.conn.sn = conn.sn) (hnode : conn.sn = true → o.conn.pk = conn.pk)
    (hpk : conn.sn = true → conn.pk.length = 32)
    (hstuck : ¬ (conn.sn = true ∧ Stuck o env.outcome (c.peers.filter (·.1.eq conn)))) :
    ∃ s, result env o c = some s ∧ (conn.sn = true → (s.attempts = [] ↔
      (c.peers.filter (·.1.eq conn)).find? o.admits = none ∧
        ¬ env.net.Opens conn.pk o.hint o.optional o.incoming)) := by
  have heq (hsn : conn.sn = true) (id : ConnectionID) : id.eq o.conn = id.eq conn :=
    ConnectionID.eq_congr_of_sn (hsame.trans hsn) hsn (hnode hsn) id
  have hlen (hsn : o.conn.sn = true) : o.conn.pk.length = 32 := by
    rw [hsame] at hsn
    rw [hnode hsn, hpk hsn]
  have hend : ¬ (o.conn.sn = true ∧ Stuck o env.outcome (c.peers.filter (·.1.eq o.conn))) := by
    rintro ⟨hsn, h⟩
    rw [hsame] at hsn
    simp only [heq hsn] at h
    exact hstuck ⟨hsn, h⟩
  obtain ⟨s, hs⟩ := (sendLoop_isSome_iff c hlen).mpr hend
  refine ⟨s, hs, fun hsn => ?_⟩
  have hiff := attempts_eq_nil_iff (hsame.trans hsn) (hlen (hsame.trans hsn)) hs
  simpa only [hnode hsn, heq hsn] using hiff

/-- The attempts to reach a service node, each made over one of its connections. -/
structure Aimed (conn : ConnectionID) (s : SendState) : Prop where
  sn : s.conn.sn = true
  pk : s.conn.pk = conn.pk
  attempts : ∀ a ∈ s.attempts, ∃ e ∈ a.before, e.1.eq conn = true ∧
    e.2.connIndex = a.connIndex ∧ e.2.route = a.route

/-- A service node is sent to over an entry in `peers`, perhaps a new one. -/
theorem entry_of_target (hsn : s.conn.sn = true) {t : Option Nat}
    (ht : s.target env o = some (t, s')) : s'.conn.sn = true ∧ s'.conn.pk = s.conn.pk ∧
      s'.attempts = s.attempts ∧ ∀ i, t = some i → ∃ e ∈ s'.conns.peers, e.1.eq s.conn = true ∧
        e.2.connIndex = i ∧ e.2.route = s'.conn.route := by
  rw [target, if_pos hsn] at ht
  obtain ⟨⟨r, c⟩, hc, hr⟩ := Option.map_eq_some_iff.mp ht
  obtain ⟨cid, hcid, hcases⟩ := proxyConnectSn_eq_some hc
  obtain ⟨hpk, rfl⟩ :
      s.conn.pk.length = 32 ∧ { id := ConnectionID.snId, pk := s.conn.pk } = cid := by
    simpa [ConnectionID.ofPubkey] using hcid
  rcases hcases with ⟨e, i, hsel, rfl, rfl⟩ | ⟨-, -, rfl, rfl⟩ | ⟨-, -, rfl, rfl⟩
  · obtain ⟨rfl, rfl⟩ := Prod.mk.inj hr
    refine ⟨hsn, rfl, rfl, fun j hj => ?_⟩
    obtain rfl := Option.some.inj hj
    obtain ⟨hpos, heq⟩ := mem_equalRange.mp (List.mem_of_find?_eq_some hsel)
    refine ⟨(e.1, reusePeer o.keepAlive env.now e.2), ?_, ?_, ?_, ?_⟩
    · exact List.mem_of_getElem? (i := i) (by simp [hpos])
    · have hcid : ConnectionID.sn { id := ConnectionID.snId, pk := s.conn.pk } = true := rfl
      rw [ConnectionID.eq_congr_of_sn hsn hcid rfl]
      exact heq
    · unfold reusePeer
      split <;> rfl
    · unfold reusePeer
      split <;> rfl
  · obtain ⟨rfl, rfl⟩ := Prod.mk.inj hr
    exact ⟨hsn, rfl, rfl, by simp⟩
  · obtain ⟨rfl, rfl⟩ := Prod.mk.inj hr
    refine ⟨hsn, rfl, rfl, fun j hj => ?_⟩
    obtain rfl := Option.some.inj hj
    refine ⟨_, List.mem_append_right _ (List.mem_singleton_self _), ?_, rfl, rfl⟩
    exact (ConnectionID.eq_of_sn hsn _).trans (by simp [ConnectionID.sn])

theorem conn_finish (s : SendState) (r : SendOutcome) : (s.finish r).conn = s.conn := by
  cases r <;> simp only [finish, fail] <;> split <;> rfl

theorem aimed_sendLoop {conn : ConnectionID} (h : s.Aimed conn) {fuel : Nat}
    (hconn : conn.sn = true) (hs : sendLoop env o fuel s = some s') : s'.Aimed conn := by
  refine sendLoop_rule (P := fun s => s.Aimed conn) ?_ ?_ h hs
  · intro s s' h ht
    obtain ⟨hsn, hpk, hattempts, -⟩ := entry_of_target h.sn ht
    exact ⟨hsn, hpk.trans h.pk, hattempts ▸ h.attempts⟩
  · intro s i s₁ fuel retry s₂ h ht h₂
    obtain ⟨hsn, hpk, hattempts, hentry⟩ := entry_of_target h.sn ht
    obtain ⟨e, he, heq, hi, hroute⟩ := hentry i rfl
    have hsame : s₂.conn = s₁.conn ∧ s₂.attempts = s₁.attempts := by
      split at h₂
      · obtain rfl | ⟨-, it, -, -, rfl⟩ := removePeer_eq_some h₂ <;> exact ⟨rfl, rfl⟩
      · obtain ⟨-, rfl⟩ := Prod.mk.inj (Option.some.inj h₂)
        exact ⟨rfl, rfl⟩
    have hrecord : (s₂.record ⟨i, s₁.conn.route, env.outcome s₁.attempts.length, s₁.conns.peers,
        s₂.conns.peers⟩).Aimed conn := by
      refine ⟨by rw [← hsn, ← hsame.1]; rfl, ?_, fun a ha => ?_⟩
      · rw [← h.pk, ← hpk, ← hsame.1]
        rfl
      · rcases List.mem_append.mp ha with ha | ha
        · exact h.attempts a (by rwa [hsame.2, hattempts] at ha)
        · obtain rfl := List.mem_singleton.mp ha
          exact ⟨e, he, (ConnectionID.eq_congr_of_sn hconn h.sn h.pk.symm e.1).trans heq, hi,
            hroute⟩
    dsimp only
    split
    · exact hrecord
    · exact ⟨by rw [conn_finish]; exact hrecord.sn, by rw [conn_finish]; exact hrecord.pk,
        by rw [attempts_finish]; exact hrecord.attempts⟩

end SendState

theorem RunInfo.LoadedWith.message_of_request {ι : Type} {r : RunInfo ι} {q : PendingCommand ι}
    {callback : CommandCallback} {old msg : Message} (h : r.LoadedWith q)
    (hq : q.callback = .inl callback) (hrequest : callback.isRequest = true)
    (hmsg : r.commandMessage old callback = some msg) :
    q.dataParts = msg.replyTag :: msg.data ∧ msg.conn = q.conn := by
  obtain ⟨r₀, hr⟩ := h
  have hfields : r.dataParts = q.dataParts ∧ r.conn = q.conn := by
    rw [hr, loadPending, hq]
    exact ⟨rfl, rfl⟩
  rw [RunInfo.commandMessage, if_pos hrequest, hfields.1, hfields.2] at hmsg
  split at hmsg
  · cases hmsg
  · rename_i tag parts hparts
    obtain rfl := Option.some.inj hmsg
    exact ⟨hparts, rfl⟩

/-- The proxy finds in the data of `send_reply` what was put there. -/
theorem decode_sendReply {msg : Message} (hconn : msg.conn.Fits)
    (htag : msg.replyTag.length < 2 ^ 64) (args : List SendOption) :
    ∃ send, parseSend.decode (btSerialize (.dict (msg.sendReply htag args))) = .ok send ∧
      send.options.conn = (if msg.conn.sn then { id := ConnectionID.snId, pk := msg.conn.pk }
        else { id := msg.conn.id, route := msg.conn.route }) ∧
      ∀ route, buildSendParts send.send route = .ok (if route = [] then
        bytes "REPLY" :: msg.replyTag :: replyData args
        else route :: bytes "REPLY" :: msg.replyTag :: replyData args) := by
  let opts : List SendOption := .data ⟨msg.replyTag, htag⟩ :: .optional (!msg.conn.sn) :: args
  have hparts : (messageParts ⟨bytes "REPLY", by decide⟩ opts none).map Subtype.val =
      bytes "REPLY" :: msg.replyTag :: replyData args := by
    simp [messageParts, SendOption.parts, replyData, opts]
  rw [← hparts]
  obtain ⟨send, hdecode, hoptions, hbuild⟩ := decode_sendData hconn
  exact ⟨send, hdecode, by rw [hoptions]; rfl, hbuild⟩

namespace Proxy

variable {ι κ R S : Type} [DecidableEq ι] [Fintype ι] {p p' : Proxy ι R} {m : Incoming}
  {c : Call ι}

omit [DecidableEq ι] [Fintype ι] in
theorem remote_of_not_sn (h : (p.queueEntry c).conn.sn = false) :
    c.sender.peer.serviceNode = false ∧ c.link.id.sn = false ∧
      (p.queueEntry c).conn.id = c.link.id.id := by
  rcases hpeer : c.sender.peer.serviceNode with _ | _
  · have hid : (p.queueEntry c).conn.id = c.link.id.id := by simp [queueEntry, hpeer]
    refine ⟨rfl, ?_, hid⟩
    rw [← h, ConnectionID.sn, ConnectionID.sn, hid]
  · simp [queueEntry, hpeer, ConnectionID.sn] at h

omit [DecidableEq ι] [Fintype ι] in
theorem routeOf_link {l : Link} (hl : p.link m = some l) : routeOf (l.route.getD []) = l.route := by
  obtain ⟨-, -, hout | ⟨route, answer, hin⟩⟩ := link_cases hl
  · rw [hout.route]
    rfl
  · rw [hin.via, Option.getD_some, routeOf, if_neg hin.ne_nil]

/-- A worker runs the callback of a request, with the request's own tag and data. What
the callback then replies, at once or at any later time, goes back over the socket and
route the request came by, as long as the socket is open, or for a service node over
one of its connections, if it has one that is wanted or one can be opened and the loop
does not get stuck; and at the other end it completes the request it answers, and
nothing else. -/
theorem reply_completes_request (hp : (machine ι R).Reachable p) (hc : p.Authorised m c)
    (hrequest : c.callback.isRequest = true) {r : RunInfo ι} (hr : r.LoadedWith (p.queueEntry c))
    {old msg : Message} (hmsg : r.commandMessage old c.callback = some msg)
    (hconn : msg.conn.Fits) (hpk : msg.conn.sn = true → msg.conn.pk.length = 32)
    (htag : msg.replyTag.length < 2 ^ 64) (args : List SendOption)
    (hruns : (machine ι R).Runs p p') :
    c.dataParts = msg.replyTag :: msg.data ∧
    ∃ send, parseSend.decode (btSerialize (.dict (msg.sendReply htag args))) = .ok send ∧
      ∀ env, ¬ (msg.conn.sn = true ∧ SendState.Stuck send.options env.outcome
          (p'.conns.peers.filter (·.1.eq msg.conn))) →
        ∃ s, SendState.result env send.options p'.conns = some s ∧
        (msg.conn.sn = false → (s.attempts = [] ↔ c.link.socket ∉ p'.conns.connections)) ∧
        (msg.conn.sn = true → (s.attempts = [] ↔
          (p'.conns.peers.filter (·.1.eq msg.conn)).find? send.options.admits = none ∧
            ¬ env.net.Opens msg.conn.pk send.options.hint send.options.optional
              send.options.incoming)) ∧
        ∀ a ∈ s.attempts,
          (msg.conn.sn = false → p'.conns.connections[a.connIndex]? = some c.link.socket ∧
            routeOf a.route = c.link.route) ∧
          (msg.conn.sn = true → ∃ e ∈ a.before, e.1.eq msg.conn = true ∧
            e.2.connIndex = a.connIndex ∧ e.2.route = a.route) ∧
          ∃ frames, buildSendParts send.send a.route = .ok frames ∧
            deliver (routeOf a.route) frames =
              some (bytes "REPLY" :: msg.replyTag :: replyData args) ∧
            ∀ (q : Proxy κ S) (m' : Incoming) (l' : Link),
              m'.parts = bytes "REPLY" :: msg.replyTag :: replyData args →
              CompletesRequest q.pendingRequests msg.replyTag (replyData args)
                (q.builtin m' l') := by
  obtain ⟨hparts, hmsgconn⟩ := hr.message_of_request rfl hrequest hmsg
  refine ⟨hparts, ?_⟩
  obtain ⟨send, hdecode, hto, hbuild⟩ := decode_sendReply hconn htag args
  have hsame : send.options.conn.sn = msg.conn.sn := by
    rw [hto]
    split
    case isTrue hsn => exact hsn.symm
    case isFalse => rfl
  refine ⟨send, hdecode, fun env hstuck => ?_⟩
  obtain ⟨s, hs, hsnode⟩ := SendState.exists_result_towards p'.conns hsame
    (fun hsn => by rw [hto, if_pos hsn]) hpk hstuck
  refine ⟨s, hs, ?_⟩
  have hremote (hsn : msg.conn.sn = false) :
      (s.attempts = [] ↔ c.link.socket ∉ p'.conns.connections) ∧ ∀ a ∈ s.attempts,
        p'.conns.connections[a.connIndex]? = some c.link.socket ∧
          routeOf a.route = c.link.route := by
    obtain ⟨hpeer, hidsn, hid⟩ := remote_of_not_sn (hmsgconn ▸ hsn)
    rw [if_neg (by simp [hsn]), hmsgconn, hid] at hto
    obtain ⟨hroute, t, ht, hfound, hgone⟩ :=
      target_of_link hp hruns hc.link hc.sender hpeer hidsn env hto
    obtain ⟨hnil, hattempts⟩ := SendState.attempts_of_not_sn (hsame.trans hsn) ht hs
    refine ⟨hnil.trans ⟨hgone, fun hclosed => ?_⟩, fun a ha => ?_⟩
    · rcases t with _ | i
      · rfl
      · exact absurd (List.mem_of_getElem? (hfound i rfl)) hclosed
    · obtain ⟨hi, hsame⟩ := hattempts a ha
      refine ⟨hfound _ hi, ?_⟩
      rw [hsame, hto]
      change routeOf c.sender.route = c.link.route
      rw [hroute]
      exact routeOf_link hc.link
  refine ⟨fun hsn => (hremote hsn).1, hsnode, fun a ha => ⟨fun hsn => (hremote hsn).2 a ha,
    fun hsn => ?_, _, hbuild a.route, deliver_frames a.route _, fun q m' l' hm' => ?_⟩⟩
  · rw [if_pos hsn] at hto
    have haimed : (SendState.start send.options p'.conns).Aimed msg.conn :=
      ⟨by rw [SendState.start, hto]; rfl, by rw [SendState.start, hto], by simp [SendState.start]⟩
    exact (SendState.aimed_sendLoop haimed hsn hs).attempts a ha
  · rw [builtin, hm']
    exact completesRequest_reply _ _ _ _ _ _

/-- The sample with its request command open to everyone. -/
def openSample : Proxy Unit Unit :=
  start Dispatch.smallConfig
    [{ address := bytes "tcp://*:1", curve := true, allow _ _ _ := .basic }]
    [] { sampleCommands with access _ := { auth := .basic } } false

theorem reply_completes_request_of_stranger : ∃ (p : Proxy Unit Unit) (c : Call Unit)
    (msg : Message) (send : SendMessage), (machine Unit Unit).Reachable p ∧
    p.Authorised strangerMessage c ∧ msg.replyTag = [9] ∧
    ∀ env, ∃ s, SendState.result env send.options p.conns = some s ∧
      s.attempts ≠ [] ∧ ∀ a ∈ s.attempts, routeOf a.route = some [1] ∧
        ∃ frames, buildSendParts send.send a.route = .ok frames ∧
          deliver (some [1]) frames = some [bytes "REPLY", [9], bytes "x"] ∧
          CompletesRequest stranger.pendingRequests [9] [bytes "x"] (stranger.builtin
            { index := 0, parts := [bytes "REPLY", [9], bytes "x"], now := 0 } c.link) := by
  have hinit : (machine Unit Unit).Reachable openSample :=
    .init ⟨_, _, _, _, _, by decide +kernel, rfl⟩
  obtain ⟨p, hp, hstate⟩ := hinit.exists_of_run
    [.next, .next, .next,
      .zap [bytes "1.0", bytes "1", bytes "i0e", bytes "::1", [], bytes "CURVE", sampleKey],
      .next, .next]
    (p := fun p => (p.call? strangerMessage).any fun c : Call Unit => decide (
      c.callback.isRequest = true ∧ c.dataParts = [[9]] ∧ (p.queueEntry c).conn.id = 1 ∧
      (p.queueEntry c).conn.pk.length < 2 ^ 64 ∧ (p.queueEntry c).conn.route = [1] ∧
      c.link.route = some [1] ∧ c.link.socket ∈ p.conns.connections)) (by decide +kernel)
  obtain ⟨c, hcall, hstate⟩ := (Option.any_eq_true _ _).mp hstate
  obtain ⟨hrequest, hdata, hid, hpk, hroute, hlink, hopen⟩ := of_decide_eq_true hstate
  have hc := authorised_of_call? hcall
  let r : RunInfo Unit := ({} : RunInfo Unit).loadPending (p.queueEntry c)
  let msg : Message := { conn := (p.queueEntry c).conn, access := r.access, remote := r.remote
                         data := [], replyTag := [9] }
  have hr : r.LoadedWith (p.queueEntry c) := ⟨{}, rfl⟩
  have hmsg : r.commandMessage {} c.callback = some msg := by
    have hparts : r.dataParts = [[9]] := hdata
    rw [RunInfo.commandMessage, if_pos hrequest, hparts]
    rfl
  have hfits : msg.conn.Fits := ⟨by simp [msg, hid], hpk, by simp [msg, hroute]⟩
  have hsn : msg.conn.sn = false := by simp [msg, ConnectionID.sn, ConnectionID.snId, hid]
  obtain ⟨-, send, -, hsend⟩ := reply_completes_request (κ := Unit) (S := Unit) hp hc hrequest hr
    hmsg hfits (by simp [hsn]) (by simp [msg]) [.data ⟨bytes "x", by decide⟩] (.refl _ p)
  refine ⟨p, c, msg, send, hp, hc, rfl, fun env => ?_⟩
  obtain ⟨s, hs, hnil, -, hattempts⟩ := hsend env (by simp [hsn])
  refine ⟨s, hs, fun h => (hnil hsn).mp h hopen, fun a ha => ?_⟩
  obtain ⟨hremote, -, frames, hframes, hdeliver, hfar⟩ := hattempts a ha
  obtain ⟨-, hsame⟩ := hremote hsn
  rw [hsame, hlink] at hdeliver
  exact ⟨hsame.trans hlink, frames, hframes, hdeliver, hfar stranger _ c.link rfl⟩

end Proxy

end ArqmaMQ
