import ArqmaMQ.Proxy

/-! What the steps of the proxy come to, and that its scheduler only ever does
what the scheduler by itself can do. -/

namespace ArqmaMQ

open Transition.Machine

variable {ι R : Type} [DecidableEq ι]

theorem Dispatch.perform_cons {d d' : Dispatch ι R} {e : Effect} {es : List Effect} :
    d.perform (e :: es) = some d' ↔ ∃ d₁, d.step e.event = some d₁ ∧ d₁.perform es = some d' := by
  rw [perform, List.foldlM_cons]
  exact Option.bind_eq_some_iff

/-- What the proxy asks of its scheduler by itself. -/
def DispatchEvent.internal {ι R : Type} : DispatchEvent ι R → Bool
  | .submit _ comp => comp.isNone
  | .replyJob _ | .command _ | .next => true
  | _ => false

namespace Dispatch

variable {d d' : Dispatch ι R}

def Asked (d d' : Dispatch ι R) : Prop := ∃ e, e.internal = true ∧ d.step e = some d'

abbrev Asks : Dispatch ι R → Dispatch ι R → Prop := Relation.ReflTransGen Asked

theorem asks_perform {es : List Effect} (h : d.perform es = some d') : Asks d d' := by
  induction es generalizing d with
  | nil =>
    obtain rfl : d = d' := by simpa [perform] using h
    exact .refl
  | cons e es ih =>
    obtain ⟨d₁, hd₁, h⟩ := perform_cons.mp h
    exact .head ⟨e.event, by cases e <;> rfl, hd₁⟩ (ih h)

theorem reachable_asks [Fintype ι] (hreach : (machine ι R).Reachable d) (h : Asks d d') :
    (machine ι R).Reachable d' := by
  induction h with
  | refl => exact hreach
  | tail _ hs ih =>
    obtain ⟨e, -, hs⟩ := hs
    exact ih.step hs

end Dispatch

namespace Proxy

/-- The ways in which a step changes the proxy. -/
inductive Act : Proxy ι R → Proxy ι R → Prop
  | outside {p d} (e : DispatchEvent ι R) (he : e.fromOutside = true) (hq : ∀ q, e ≠ .inject q)
    (h : p.dispatch.step e = some d) : Act p { p with dispatch := d }
  | inject {p d} (q : PendingCommand ι) (hq : q.callback.isRight)
    (h : p.dispatch.step (.inject q) = some d) : Act p (p.accept .injected d)
  | requestConn {p} :
    Act p { p with conns := { p.conns with
      nextConnId := p.conns.nextConnId + 1
      requestedIds := p.conns.requestedIds ++ [p.conns.nextConnId] } }
  | send {p d s} (env : SendEnv) (o : SendOptions) (expiry : Int) (hf : p.Fresh o)
    (hs : SendState.sendLoop env o ((p.conns.equalRange o.conn).length + 2) (.start o p.conns) =
      some s) (hd : p.dispatch.perform (s.afterLoop o) = some d) :
    Act p { p with
      dispatch := d, conns := s.conns, pendingRequests := p.requestSent o s.sent expiry
      issued := p.issued ++ o.request.toList }
  | control {p c} (msg : ConnControl) (h : p.conns.control msg = some c) :
    Act p { p with conns := c }
  | connectRemote {p d c es} (net : Network) (now : Int) (data : Connections.ConnectRemoteData)
    (hid : data.connId ∈ p.conns.requestedIds)
    (hc : p.conns.proxyConnectRemote net now data = some (c, es))
    (hd : p.dispatch.perform es = some d) :
    Act p { p with
      dispatch := d, conns := { c with requestedIds := c.requestedIds.erase data.connId }
      connects := p.connects ++ [data] }
  | cleanup {p d} (clock : ConnectionID → Int) (now : Int)
    (hd : p.dispatch.perform (((p.conns.proxyExpireIdlePeers clock).timeOutConnects now).2 ++
      (p.pendingRequests.timeOut now).2) = some d) :
    Act p { p with
      dispatch := d, conns := ((p.conns.proxyExpireIdlePeers clock).timeOutConnects now).1
      pendingRequests := (p.pendingRequests.timeOut now).1 }
  | zap {p} (frames : List Bytes) :
    Act p { p with answers := p.answers ++ [p.conns.processZapRequest frames] }
  | builtin {p d l} (m : Incoming) (hl : p.link m = some l)
    (hd : p.dispatch.perform (p.builtin m l).effects = some d) : Act p (p.afterBuiltin m l d)
  | refuse {p l sender} (m : Incoming) (sent : List (Socket × List Bytes))
    (hl : p.link m = some l) (hs : l.sender = some sender) :
    Act p { p with conns := sender.conns, sent }
  | command {p d l sender call} (m : Incoming) (name : Bytes) (data : List Bytes)
    (hl : p.link m = some l) (hs : l.sender = some sender)
    (hcall : (p.commands.getCommand name).2 = some call)
    (hr : p.commands.refusal p.localServiceNode sender.peer (some call) data = none)
    (hd : p.dispatch.step (.command (p.pendingCommand l.id sender m.peerAddress
      (p.commands.getCommand name).1 call data)) = some d) :
    Act p ({ p with conns := sender.conns }.accept (l.origin name) d)
  | touch {p} (i : Option Nat) (now : Int) : Act p (p.touch i now)
  | rehash {p} (peers : List (ConnectionID × PeerInfo)) (requests : Requests)
    (hp : peers.Perm p.conns.peers) (hr : requests.Perm p.pendingRequests) :
    Act p { p with conns := { p.conns with peers }, pendingRequests := requests }
  | next {p p'} (h : p.next = some p') : Act p p'

abbrev Acts : Proxy ι R → Proxy ι R → Prop := Relation.ReflTransGen Act

/-- An action the proxy takes by itself, with what it asks of the scheduler. -/
def Inner (p p' : Proxy ι R) : Prop := Act p p' ∧ Dispatch.Asks p.dispatch p'.dispatch

abbrev Inners : Proxy ι R → Proxy ι R → Prop := Relation.ReflTransGen Inner

variable {p p' : Proxy ι R} {m : Incoming} {l : Link}

theorem next_eq_some (h : p.next = some p') : ∃ d stale, p.dispatch.step .next = some d ∧
    p' = { p with
      dispatch := d
      numSockets := if d.phase = .incoming then p.conns.connections.length else p.numSockets
      conns.pollitemsStale := stale } := by
  obtain ⟨d, hd, h⟩ := Option.bind_eq_some_iff.mp h
  obtain rfl := Option.some.inj h
  exact ⟨d, _, hd, rfl⟩

omit [DecidableEq ι] in
theorem link_congr {p₁ : Proxy ι R} (hc : p₁.conns = p.conns) (ha : p₁.answers = p.answers) :
    p₁.link m = p.link m := by
  simp only [link, hc, ha]

omit [DecidableEq ι] in
theorem builtin_case (p : Proxy ι R) (m : Incoming) (l : Link) :
    p.conns.BuiltinCase p.pendingRequests m.index l.route m.parts (p.builtin m l) :=
  Connections.handleBuiltin_case _ _ _ _ _

omit [DecidableEq ι] in
theorem conns_of_not_handled (h : (p.builtin m l).handled = false) :
    (p.builtin m l).conns = p.conns := by
  rcases p.builtin_case m l with hc | ⟨-, -, -, hc⟩ | ⟨-, -, -, hc⟩ | ⟨hh⟩ | ⟨hh⟩
  · exact hc
  · exact hc
  · exact hc
  · simp [h] at hh
  · simp [h] at hh

/-- A message on an outgoing connection. -/
structure Outward (p : Proxy ι R) (m : Incoming) (l : Link) : Prop where
  dealer : l.socket.dealer = true
  session : m.session = none
  parts : m.parts ≠ []
  route : l.route = none
  origin : l.origin = fun _ => .outgoing
  sender : l.sender = p.conns.outgoingSender m.index

/-- A message by a route from a session on a listening socket, which a ZAP answer has
let in. -/
structure Inward (p : Proxy ι R) (m : Incoming) (l : Link) (route : Bytes) (answer : ZapAnswer) :
    Prop where
  dealer : l.socket.dealer = false
  session : ∃ session, m.session = some (session, route)
  mem : answer ∈ p.answers
  accepted : answer.statusCode = bytes "200"
  bound : ∃ v, answer.verdict = some v ∧ v.bind.socket = l.socket
  ne_nil : route ≠ []
  via : l.route = some route
  origin : l.origin = .incoming answer p.conns.activeServiceNodes
  sender : l.sender = some (p.conns.incomingSender m.index l.socket route
    (answer.properties m.peerAddress))

omit [DecidableEq ι] in
theorem link_cases (hl : p.link m = some l) : p.conns.connections[m.index]? = some l.socket ∧
    p.conns.connIndexToId[m.index]? = some l.id ∧
    (p.Outward m l ∨ ∃ route answer, p.Inward m l route answer) := by
  obtain ⟨socket, hsocket, hl⟩ := Option.bind_eq_some_iff.mp hl
  obtain ⟨id, hid, hl⟩ := Option.bind_eq_some_iff.mp hl
  split at hl
  · rename_i hsession
    split at hl
    · rename_i hguard
      obtain rfl := Option.some.inj hl
      exact ⟨hsocket, hid, .inl ⟨hguard.1, hsession, hguard.2, rfl, rfl, rfl⟩⟩
    · cases hl
  · rename_i session route hsession
    obtain ⟨answer, hanswer, hl⟩ := Option.bind_eq_some_iff.mp hl
    obtain ⟨v, hv, hl⟩ := Option.bind_eq_some_iff.mp hl
    split at hl
    · rename_i hguard
      obtain rfl := Option.some.inj hl
      exact ⟨hsocket, hid, .inr ⟨route, answer, hguard.1, ⟨session, hsession⟩,
        List.mem_of_getElem? hanswer, hguard.2.2.1, ⟨v, hv, hguard.2.2.2⟩, hguard.2.1, rfl, rfl,
        rfl⟩⟩
    · cases hl

omit [DecidableEq ι] in
/-- Finding out who a message is from touches nothing but `peers`. -/
theorem exists_peers_of_sender {sender : Sender} (hl : p.link m = some l)
    (hs : l.sender = some sender) : ∃ peers, sender.conns = { p.conns with peers } := by
  obtain ⟨-, -, hout | ⟨route, answer, hin⟩⟩ := link_cases hl
  · obtain ⟨id, e, i, -, -, rfl⟩ := Connections.outgoingSender_eq_some (hout.sender ▸ hs)
    exact ⟨_, rfl⟩
  · obtain rfl := Option.some.inj (hin.sender.symm.trans hs)
    unfold Connections.incomingSender
    dsimp only
    split
    · split <;> exact ⟨_, rfl⟩
    · exact ⟨_, rfl⟩

theorem asks_of_inners (h : Inners p p') : Dispatch.Asks p.dispatch p'.dispatch := by
  induction h with
  | refl => exact .refl
  | tail _ hs ih => exact ih.trans hs.2

theorem inner_touch (p : Proxy ι R) (i : Option Nat) (now : Int) : Inner p (p.touch i now) := by
  refine ⟨.touch i now, ?_⟩
  unfold touch
  split <;> exact .refl

theorem inner_next (h : p.next = some p') : Inner p p' := by
  refine ⟨.next h, ?_⟩
  obtain ⟨d, stale, hd, rfl⟩ := next_eq_some h
  exact .single ⟨.next, rfl, hd⟩

theorem inners_proxyToWorker {sender : Sender} {name : Bytes} {data : List Bytes}
    (hl : p.link m = some l) (hs : l.sender = some sender)
    (h : p.proxyToWorker m l sender name data = some p') : Inners p p' := by
  unfold proxyToWorker at h
  rcases hcall : p.commands.getCommand name with ⟨command, call?⟩
  simp only [hcall, Commands.proxyCheckAuth] at h
  rcases hr : p.commands.refusal p.localServiceNode sender.peer call? data with _ | reply
  · rcases call? with _ | call
    · simp [Commands.refusal] at hr
    · simp only [hr] at h
      split at h
      · obtain rfl := Option.some.inj h
        exact .single ⟨.refuse m p.sent hl hs, .refl⟩
      · obtain ⟨d, hd, h⟩ := Option.bind_eq_some_iff.mp h
        have hcommand : (p.commands.getCommand name).2 = some call := by rw [hcall]
        have hact := Act.command (d := d) m name data hl hs hcommand hr (by rw [hcall]; exact hd)
        have hinner : Inner p ({ p with conns := sender.conns }.accept (l.origin name) d) :=
          ⟨hact, .single ⟨_, rfl, hd⟩⟩
        obtain rfl := Option.some.inj h
        split
        · exact .tail (.single hinner) (inner_touch _ _ _)
        · exact .single hinner
  · simp only [hr] at h
    obtain rfl := Option.some.inj h
    exact .single ⟨.refuse m _ hl hs, .refl⟩

theorem inners_receive (h : p.receive m = some p') : Inners p p' := by
  obtain ⟨l, hl, h⟩ := Option.bind_eq_some_iff.mp h
  obtain ⟨d, hd, h⟩ := Option.bind_eq_some_iff.mp h
  obtain ⟨p₁, hp₁, h⟩ := Option.bind_eq_some_iff.mp h
  have hbuiltin : Inners p (p.afterBuiltin m l d) :=
    .single ⟨.builtin m hl hd, Dispatch.asks_perform hd⟩
  have hforward : Inners p p₁ := by
    unfold forward at hp₁
    split at hp₁
    · rename_i hh hparts hs
      have hl' : (p.afterBuiltin m l d).link m = some l := by
        rw [← hl]
        exact link_congr (conns_of_not_handled hh) rfl
      exact hbuiltin.trans (inners_proxyToWorker hl' hs hp₁)
    · obtain rfl := Option.some.inj hp₁
      exact hbuiltin
  split at h
  · exact hforward.tail (inner_next h)
  · obtain rfl := Option.some.inj h
    exact hforward

theorem dispatch_step {e : DispatchEvent ι R} (h : p.step (.dispatch e) = some p') :
    e.fromOutside = true ∧ p.dispatch.step e = some p'.dispatch ∧ Act p p' := by
  simp only [step] at h
  split at h
  · rename_i he
    obtain ⟨d, hd, rfl⟩ := Option.map_eq_some_iff.mp h
    split
    · rename_i q
      refine ⟨he, hd, .inject q ?_ hd⟩
      rcases hq : q.callback with c | f <;> simp_all [DispatchEvent.fromOutside]
    · rename_i hq
      exact ⟨he, hd, .outside e he hq hd⟩
  · cases h

/-- An event reaches the scheduler directly, or the proxy decides what it is to do. -/
theorem step_cases {e : ProxyEvent ι R} (h : p.step e = some p') :
    (∃ e', e = .dispatch e' ∧ e'.fromOutside = true ∧ p.dispatch.step e' = some p'.dispatch ∧
      Act p p') ∨ Inners p p' := by
  cases e with
  | dispatch e => exact .inl ⟨e, rfl, dispatch_step h⟩
  | requestConn =>
    obtain rfl := Option.some.inj h
    exact .inr (.single ⟨.requestConn, .refl⟩)
  | send env o sentAt =>
    simp only [step] at h
    split at h
    · rename_i hf
      obtain ⟨s, hs, h⟩ := Option.bind_eq_some_iff.mp h
      obtain ⟨d, hd, h⟩ := Option.bind_eq_some_iff.mp h
      obtain rfl := Option.some.inj h
      exact .inr (.single ⟨.send env o _ hf.2 hs hd, Dispatch.asks_perform hd⟩)
    · cases h
  | control msg =>
    simp only [step] at h
    split at h
    · obtain ⟨c, hc, rfl⟩ := Option.map_eq_some_iff.mp h
      exact .inr (.single ⟨.control msg hc, .refl⟩)
    · cases h
  | connectRemote net now data =>
    simp only [step] at h
    split at h
    · rename_i hid
      obtain ⟨⟨c, es⟩, hc, h⟩ := Option.bind_eq_some_iff.mp h
      obtain ⟨d, hd, h⟩ := Option.bind_eq_some_iff.mp h
      obtain rfl := Option.some.inj h
      exact .inr (.single ⟨.connectRemote net now data hid.2 hc hd, Dispatch.asks_perform hd⟩)
    · cases h
  | cleanup clock now =>
    simp only [step] at h
    split at h
    · obtain ⟨d, hd, h⟩ := Option.bind_eq_some_iff.mp h
      obtain rfl := Option.some.inj h
      exact .inr (.single ⟨.cleanup clock now hd, Dispatch.asks_perform hd⟩)
    · cases h
  | zap frames =>
    obtain ⟨-, rfl⟩ : _ ∧ _ = p' := by simpa [step] using h
    exact .inr (.single ⟨.zap frames, .refl⟩)
  | incoming m =>
    simp only [step] at h
    split at h
    · exact .inr (inners_receive h)
    · cases h
  | rehash peers requests =>
    obtain ⟨⟨hp, hr⟩, rfl⟩ : _ ∧ _ = p' := by simpa [step] using h
    exact .inr (.single ⟨.rehash peers requests hp hr, .refl⟩)
  | next => exact .inr (.single (inner_next h))

theorem acts_of_step {e : ProxyEvent ι R} (h : p.step e = some p') : Acts p p' := by
  rcases step_cases h with ⟨e, -, -, -, hact⟩ | hinners
  · exact .single hact
  · exact Relation.ReflTransGen.mono (fun _ _ => And.left) _ _ hinners

variable [Fintype ι]

/-- What holds at the start and is kept by every action holds in every
reachable state. -/
theorem reachable_invariant {P : Proxy ι R → Prop}
    (hinit : ∀ cfg listeners sns commands localServiceNode,
      P (start cfg listeners sns commands localServiceNode))
    (hact : ∀ p p', P p → Act p p' → P p') (h : (machine ι R).Reachable p) : P p := by
  refine h.invariant ?_ ?_
  · rintro p ⟨cfg, listeners, sns, commands, localServiceNode, -, rfl⟩
    exact hinit _ _ _ _ _
  · intro p e p' hp hs
    exact Transition.reflTransGen_invariant (fun s t hst hs => hact s t hs hst) (acts_of_step hs) hp

/-- The proxy refines the scheduler. -/
theorem reachable_dispatch (h : (machine ι R).Reachable p) :
    (Dispatch.machine ι R).Reachable p.dispatch := by
  induction h with
  | init hinit =>
    obtain ⟨cfg, _, _, _, _, hmax, rfl⟩ := hinit
    exact .init ⟨cfg, hmax, rfl⟩
  | step _ hs ih =>
    rcases step_cases hs with ⟨e, -, -, hd, -⟩ | hinners
    · exact ih.step hd
    · exact Dispatch.reachable_asks ih (asks_of_inners hinners)

end Proxy

end ArqmaMQ
