import ArqmaMQ.ProxyAccess

/-! A refused request fails at the node that made it. The message in which
`proxy_check_auth` turns a command down is followed to the other end of the
connection, where `proxy_handle_builtin` looks for the request. -/

namespace ArqmaMQ

/-- The frames one end of a connection sends, as the other end receives them. A
listening end knows the other by its route: its ROUTER socket takes the route off
what it sends, and passes it on apart with what it receives. -/
def deliver : Option Bytes → List Bytes → Option (List Bytes)
  | none, frames => some frames
  | some route, frame :: parts => if frame = route then some parts else none
  | some _, [] => none

/-- The request with the tag, if there is one, fails with the code; all others
are left alone. -/
structure FailsRequest (rs : Requests) (tag code : Bytes) (r : BuiltinResult) : Prop where
  pending : ∀ q, rs.find? tag = some q →
    r.requests.find? tag = none ∧ r.effects = [.replyJob (.reply q.callback false [code])]
  unknown : rs.find? tag = none → r.requests = rs ∧ r.effects = []
  others : ∀ t, t ≠ tag → r.requests.find? t = rs.find? t

namespace Requests

variable {rs : Requests} {tag t : Bytes}

theorem find?_erase_self (rs : Requests) (tag : Bytes) : (rs.erase tag).find? tag = none := by
  rw [find?_eq_none, erase]
  intro hmem
  obtain ⟨x, hx, rfl⟩ := List.mem_map.mp hmem
  exact (by simpa using (List.mem_filter.mp hx).2)

theorem find?_erase_of_ne (h : t ≠ tag) : (rs.erase tag).find? t = rs.find? t := by
  induction rs with
  | nil => rfl
  | cons x rs ih =>
    by_cases hx : x.1 = tag
    · have hne : (t == x.1) = false := by simpa [hx] using h
      rw [erase, List.filter_cons_of_neg (by simpa using hx), find?, find?, List.lookup_cons, hne]
      exact ih
    · rw [erase, List.filter_cons_of_pos (by simpa using hx), find?, find?, List.lookup_cons,
        List.lookup_cons]
      cases t == x.1
      · exact ih
      · rfl

end Requests

theorem failsRequest_answer (rs : Requests) (tag code : Bytes) (c : Connections) :
    FailsRequest rs tag code { conns := c, requests := (rs.answer tag false [code]).1
                               effects := (rs.answer tag false [code]).2 } := by
  rcases hq : rs.find? tag with _ | q
  · have hanswer : rs.answer tag false [code] = (rs, []) := by rw [Requests.answer, hq]
    rw [hanswer]
    refine ⟨?_, fun _ => ⟨rfl, rfl⟩, fun _ _ => rfl⟩
    intro q hq'
    rw [hq] at hq'
    cases hq'
  · have hanswer : rs.answer tag false [code] =
        (rs.erase tag, [.replyJob (.reply q.callback false [code])]) := by
      rw [Requests.answer, hq]
    rw [hanswer]
    refine ⟨?_, ?_, fun t ht => Requests.find?_erase_of_ne ht⟩
    · intro q' hq'
      obtain rfl := Option.some.inj (hq.symm.trans hq')
      exact ⟨rs.find?_erase_self tag, rfl⟩
    · intro hnone
      rw [hq] at hnone
      cases hnone

namespace Connections

variable {code : Bytes}

/-- The codes of refusals are none of the other builtin commands. -/
theorem ne_of_isErrorResponse (h : isErrorResponse code = true) : code ≠ bytes "REPLY" ∧
    code ≠ bytes "HI" ∧ code ≠ bytes "HELLO" ∧ code ≠ bytes "BYE" := by
  have hcodes : code = bytes "FORBIDDEN" ∨ code = bytes "FORBIDDEN_SN" ∨
      code = bytes "NOT_A_SERVICE_NODE" ∨ code = bytes "UNKNOWNCOMMAND" ∨
      code = bytes "NO_REPLY_TAG" := by
    simpa [isErrorResponse] using h
  rcases hcodes with rfl | rfl | rfl | rfl | rfl <;> decide

theorem handleBuiltin_refusedRequest (h : isErrorResponse code = true) (c : Connections)
    (rs : Requests) (connIndex : Nat) (route : Option Bytes) (tag : Bytes) :
    c.handleBuiltin rs connIndex route [code, bytes "REPLY", tag] =
      { conns := c, requests := (rs.answer tag false [code]).1
        effects := (rs.answer tag false [code]).2 } := by
  obtain ⟨hreply, hhi, hhello, hbye⟩ := ne_of_isErrorResponse h
  simp only [handleBuiltin, if_neg hreply, if_neg hhi, if_neg hhello, if_neg hbye, if_pos h,
    if_true]

theorem handleBuiltin_refusedCommand (h : isErrorResponse code = true) (c : Connections)
    (rs : Requests) (connIndex : Nat) (route : Option Bytes) (cmd : Bytes) :
    c.handleBuiltin rs connIndex route [code, cmd] = { conns := c, requests := rs } := by
  obtain ⟨hreply, hhi, hhello, hbye⟩ := ne_of_isErrorResponse h
  simp only [handleBuiltin, if_neg hreply, if_neg hhi, if_neg hhello, if_neg hbye, if_pos h]

theorem incomingSender_route (c : Connections) (connIndex : Nat) (socket : Socket)
    (route : Bytes) (m : Properties) :
    (c.incomingSender connIndex socket route m).peer.route = route := by
  unfold incomingSender
  dsimp only
  split
  · split
    · rename_i e i hfind
      have hfound := List.find?_some hfind
      simp only [Bool.and_eq_true, decide_eq_true_eq] at hfound
      exact hfound.2
    · rfl
  · rfl

end Connections

namespace Commands

variable {ι : Type} {r : Commands ι} {localServiceNode : Bool} {peer : PeerInfo}
  {call : Option (ι × CommandCallback)} {data : List Bytes} {code : Bytes}

theorem isErrorResponse_refusal (h : r.refusal localServiceNode peer call data = some code) :
    isErrorResponse code = true := by
  rcases call with _ | ⟨cat, callback⟩
  · obtain rfl := Option.some.inj h
    decide
  · simp only [refusal] at h
    split_ifs at h
    all_goals
      obtain rfl := Option.some.inj h
      decide

/-- A request that carries a tag is only refused for want of rights. -/
theorem refusal_of_request {cat : ι} {callback : CommandCallback} {tag : Bytes}
    (h : r.refusal localServiceNode peer (some (cat, callback)) (tag :: data) = some code) :
    code = bytes "FORBIDDEN" ∨ code = bytes "NOT_A_SERVICE_NODE" ∨ code = bytes "FORBIDDEN_SN" := by
  simp only [refusal, List.isEmpty_cons, Bool.and_false, Bool.false_eq_true, if_false] at h
  split_ifs at h
  · exact .inl (Option.some.inj h).symm
  · exact .inr (.inl (Option.some.inj h).symm)
  · exact .inr (.inr (Option.some.inj h).symm)

/-- What the refusal of a command says: the tag of a request, else the command. -/
theorem proxyCheckAuth_refused (h : r.refusal localServiceNode peer call data = some code)
    (outgoing : Bool) (cmd : Bytes) : ∃ details,
      r.proxyCheckAuth localServiceNode outgoing peer cmd call data =
        .error ((if outgoing then [] else [peer.route]) ++ code :: details) ∧
      ((∃ cat callback tag rest, call = some (cat, callback) ∧ callback.isRequest = true ∧
          data = tag :: rest ∧ details = [bytes "REPLY", tag]) ∨
        (∀ cat callback, call = some (cat, callback) → callback.isRequest = true → data = []) ∧
          details = [cmd]) := by
  rcases call with _ | ⟨cat, f, isRequest⟩
  · refine ⟨[cmd], ?_, .inr ⟨fun cat callback hc => (by cases hc), rfl⟩⟩
    simp [proxyCheckAuth, h]
  rcases isRequest with _ | _
  · refine ⟨[cmd], by simp [proxyCheckAuth, h], .inr ⟨?_, rfl⟩⟩
    intro cat' callback hc hrequest
    obtain ⟨-, rfl⟩ := Prod.mk.inj (Option.some.inj hc)
    cases hrequest
  rcases data with _ | ⟨tag, rest⟩
  · exact ⟨[cmd], by simp [proxyCheckAuth, h], .inr ⟨fun _ _ _ _ => rfl, rfl⟩⟩
  · exact ⟨[bytes "REPLY", tag], by simp [proxyCheckAuth, h],
      .inl ⟨cat, ⟨f, true⟩, tag, rest, rfl, rfl, rfl, rfl⟩⟩

end Commands

namespace Proxy

variable {ι κ R S : Type} [DecidableEq ι] {p : Proxy ι R} {m : Incoming} {l : Link}
  {sender : Sender}

omit [DecidableEq ι] in
/-- The answer to a message goes back to where it came from. -/
theorem deliver_of_link (hl : p.link m = some l) (hs : l.sender = some sender)
    (parts : List Bytes) :
    deliver l.route ((if l.socket.dealer then [] else [sender.peer.route]) ++ parts) =
      some parts := by
  obtain ⟨-, -, hout | ⟨route, answer, hin⟩⟩ := link_cases hl
  · simp [deliver, hout.route, hout.dealer]
  · obtain rfl := Option.some.inj (hin.sender.symm.trans hs)
    simp [deliver, hin.via, hin.dealer, Connections.incomingSender_route]

/-- A refusal, seen from both ends of the connection: the proxy `p` turns a
command down, and the proxy `q` gets what `p` sends. -/
theorem refusal_understood (hl : p.link m = some l) (hs : l.sender = some sender)
    {name : Bytes} {data : List Bytes} {code : Bytes}
    (hr : p.commands.refusal p.localServiceNode sender.peer (p.commands.getCommand name).2 data =
      some code) :
    ∃ frames parts, p.proxyToWorker m l sender name data =
        some { p with conns := sender.conns, sent := p.sent ++ [(l.socket, frames)] } ∧
      deliver l.route frames = some parts ∧
      ∀ (q : Proxy κ S) (m' : Incoming) (l' : Link), m'.parts = parts →
        (∀ cat callback tag rest, (p.commands.getCommand name).2 = some (cat, callback) →
          callback.isRequest = true → data = tag :: rest →
            code ∈ [bytes "FORBIDDEN", bytes "NOT_A_SERVICE_NODE", bytes "FORBIDDEN_SN"] ∧
            FailsRequest q.pendingRequests tag code (q.builtin m' l')) ∧
        ((∀ cat callback, (p.commands.getCommand name).2 = some (cat, callback) →
          callback.isRequest = false) →
            (q.builtin m' l').requests = q.pendingRequests ∧ (q.builtin m' l').effects = []) := by
  obtain ⟨details, hcheck, hdetails⟩ :=
    Commands.proxyCheckAuth_refused hr l.socket.dealer name
  have herror := Commands.isErrorResponse_refusal hr
  refine ⟨_, code :: details, ?_, deliver_of_link hl hs _, ?_⟩
  · simp only [proxyToWorker, hcheck]
  · intro q m' l' hparts
    rw [builtin, hparts]
    rcases hdetails with ⟨cat, callback, tag, rest, hcall, hrequest, rfl, rfl⟩ | ⟨hplain, rfl⟩
    · rw [Connections.handleBuiltin_refusedRequest herror]
      refine ⟨?_, ?_⟩
      · rintro - - tag' rest' - - hdata
        obtain ⟨rfl, rfl⟩ := List.cons.inj hdata
        rw [hcall] at hr
        refine ⟨?_, failsRequest_answer q.pendingRequests tag code q.conns⟩
        simpa using Commands.refusal_of_request hr
      · intro hnone
        rw [hnone cat callback hcall] at hrequest
        cases hrequest
    · rw [Connections.handleBuiltin_refusedCommand herror]
      refine ⟨?_, fun _ => ⟨rfl, rfl⟩⟩
      intro cat callback tag rest hcall hrequest hdata
      rw [hplain cat callback hcall hrequest] at hdata
      cases hdata

/-- A request by someone who is not a service node. -/
def strangerMessage : Incoming where
  index := 0
  session := some (0, [1])
  parts := [bytes "c.r", [9]]
  now := 0

/-- The other end, with two requests pending. -/
def stranger : Proxy Unit Unit :=
  { sample with pendingRequests := [([8], ⟨0, 5⟩), ([9], ⟨0, 4⟩)] }

theorem refusal_understood_by_stranger : ∃ (p : Proxy Unit Unit) (l : Link) (sender : Sender)
    (frames parts : List Bytes), (machine Unit Unit).Reachable p ∧
    p.link strangerMessage = some l ∧ l.sender = some sender ∧
    p.proxyToWorker strangerMessage l sender (bytes "c.r") [[9]] =
      some { p with conns := sender.conns, sent := p.sent ++ [(l.socket, frames)] } ∧
    deliver l.route frames = some parts ∧
    FailsRequest stranger.pendingRequests [9] (bytes "FORBIDDEN_SN")
      (stranger.builtin { index := 0, parts, now := 0 } { l with route := none }) := by
  obtain ⟨p, hp, hstate⟩ := sample_reachable.exists_of_run
    [.next, .next, .next,
      .zap [bytes "1.0", bytes "1", bytes "i0e", bytes "::1", [], bytes "CURVE",
        List.replicate 32 8], .next, .next]
    (p := fun p => (p.link strangerMessage).any fun l => l.sender.any fun sender =>
      decide ((p.commands.getCommand (bytes "c.r")).2 = some ((), ⟨0, true⟩) ∧
        p.commands.refusal p.localServiceNode sender.peer
          (p.commands.getCommand (bytes "c.r")).2 [[9]] = some (bytes "FORBIDDEN_SN")))
    (by decide +kernel)
  obtain ⟨l, hl, hstate⟩ := (Option.any_eq_true _ _).mp hstate
  obtain ⟨sender, hs, hstate⟩ := (Option.any_eq_true _ _).mp hstate
  obtain ⟨hcall, hr⟩ := of_decide_eq_true hstate
  obtain ⟨frames, parts, hsent, hdeliver, hfar⟩ := refusal_understood hl hs hr
  have hfails := (hfar stranger { index := 0, parts, now := 0 } { l with route := none } rfl).1
    () ⟨0, true⟩ [9] [] hcall rfl rfl
  exact ⟨p, l, sender, frames, parts, hp, hl, hs, hsent, hdeliver, hfails.2⟩

end Proxy

end ArqmaMQ
