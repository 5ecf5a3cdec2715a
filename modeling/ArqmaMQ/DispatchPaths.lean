import ArqmaMQ.ConnectionIds
import ArqmaMQ.ProxyAccess

/-! The two ways in which `proxy_to_worker` gets a command to a worker: at once,
or by way of `pending_commands`. -/

namespace ArqmaMQ

/-- What a worker is given to run, apart from its thread and what only batch
jobs use. -/
def RunInfo.contents {ι : Type} (r : RunInfo ι) : RunInfo ι :=
  { r with batchJobno := 0, workerThread := none, serial := 0 }

namespace Proxy

variable {ι R : Type}

/-- The variables of `proxy_to_worker` once a command has passed the check. -/
structure Call (ι : Type) where
  link : Link
  sender : Sender
  name : Bytes
  command : Bytes
  category : ι
  callback : CommandCallback
  dataParts : List Bytes
  remote : Bytes
  now : Int

/-- A message that is authorised. -/
structure Authorised (p : Proxy ι R) (m : Incoming) (c : Call ι) : Prop where
  link : p.link m = some c.link
  sender : c.link.sender = some c.sender
  parts : m.parts = c.name :: c.dataParts
  builtin : (p.builtin m c.link).handled = false
  command : p.commands.getCommand c.name = (c.command, some (c.category, c.callback))
  allowed : p.commands.refusal p.localServiceNode c.sender.peer (some (c.category, c.callback))
    c.dataParts = none
  remote : c.remote = m.peerAddress.getD (bytes "(unknown)")
  now : c.now = m.now

/-- The call that a message amounts to, if it is authorised. -/
def call? (p : Proxy ι R) (m : Incoming) : Option (Call ι) := do
  let link ← p.link m
  let sender ← link.sender
  match m.parts, (p.builtin m link).handled with
  | name :: dataParts, false =>
    match p.commands.getCommand name with
    | (command, some (category, callback)) =>
      if p.commands.refusal p.localServiceNode sender.peer (some (category, callback)) dataParts =
          none then
        some { link, sender, name, command, category, callback, dataParts
               remote := m.peerAddress.getD (bytes "(unknown)"), now := m.now }
      else none
    | _ => none
  | _, _ => none

theorem authorised_of_call? {p : Proxy ι R} {m : Incoming} {c : Call ι} (h : p.call? m = some c) :
    p.Authorised m c := by
  obtain ⟨link, hl, h⟩ := Option.bind_eq_some_iff.mp h
  obtain ⟨sender, hs, h⟩ := Option.bind_eq_some_iff.mp h
  split at h
  · rename_i hparts hb
    split at h
    · rename_i hcall
      split at h
      · rename_i hr
        obtain rfl := Option.some.inj h
        exact ⟨hl, hs, hparts, hb, hcall, hr, rfl, rfl⟩
      · cases h
    · cases h
  · cases h

def access (p : Proxy ι R) (c : Call ι) : Access :=
  { auth := c.sender.peer.authLevel, remoteSn := c.sender.peer.serviceNode
    localSn := p.localServiceNode }

/-- The entry that is queued. -/
def queueEntry (p : Proxy ι R) (c : Call ι) : PendingCommand ι where
  cat := c.category
  command := c.command
  dataParts := c.dataParts
  callback := .inl c.callback
  conn :=
    { id := if c.sender.peer.serviceNode then ConnectionID.snId else c.link.id.id
      pk := c.sender.peer.pubkey, route := c.sender.route }
  access := p.access c
  remote := c.remote
  serial := p.dispatch.accepted.length

/-- What an idle worker is loaded with at once. -/
def loadNow (p : Proxy ι R) (c : Call ι) (run : RunInfo ι) : RunInfo ι :=
  let conn : ConnectionID :=
    { id := if c.sender.peer.serviceNode then ConnectionID.snId else c.link.id.id
      pk := c.sender.peer.pubkey }
  let conn := { conn with route := c.sender.route }
  run.loadCommand c.category c.command conn (p.access c) c.remote c.dataParts c.callback
    p.dispatch.accepted.length

variable [DecidableEq ι]

def queueForLater (p : Proxy ι R) (c : Call ι) : Proxy ι R :=
  { p with
    dispatch := { p.dispatch with
      pendingCommands := p.dispatch.pendingCommands ++ [p.queueEntry c]
      queued := Function.update p.dispatch.queued c.category (p.dispatch.queued c.category + 1)
      accepted := p.dispatch.accepted ++ [p.queueEntry c] }
    origins := p.origins ++ [c.link.origin c.name] }

def startNow (p : Proxy ι R) (c : Call ι) : Proxy ι R :=
  let p := { p with
    dispatch := { p.dispatch with
      pool := p.dispatch.pool.assign (.category c.category) (p.loadNow c)
      accepted := p.dispatch.accepted ++ [p.queueEntry c] }
    origins := p.origins ++ [c.link.origin c.name] }
  if c.link.socket.dealer then p.touch c.sender.position c.now else p

/-- The rest of `proxy_to_worker`, branch by branch. -/
def dispatchCall (p : Proxy ι R) (c : Call ι) : Proxy ι R :=
  if ¬ p.dispatch.HasSlot (.category c.category) then
    if 0 ≤ p.dispatch.cfg.maxQueue c.category ∧
        p.dispatch.cfg.maxQueue c.category ≤ p.dispatch.queued c.category then p
    else p.queueForLater c
  else if c.callback.isRequest && c.dataParts.isEmpty then p
  else p.startNow c

variable {p p' p'' : Proxy ι R} {m : Incoming} {c : Call ι}

omit [DecidableEq ι] in
theorem loadNow_eq (p : Proxy ι R) (c : Call ι) (run : RunInfo ι) :
    p.loadNow c run = run.loadPending (p.queueEntry c) := rfl

omit [DecidableEq ι] in
/-- Messages on outgoing sockets have an entry in `peers`, and others are not
looked up there. -/
theorem Authorised.position (h : p.Authorised m c) :
    (c.link.socket.dealer = true ∧ c.sender.conns = p.conns ∧ ∃ i e, c.sender.position = some i ∧
      p.conns.peers[i]? = some e ∧ c.sender.peer = e.2) ∨
    c.link.socket.dealer = false ∧ c.sender.position = none := by
  have hs := h.sender
  obtain ⟨-, -, hout | ⟨route, answer, hin⟩⟩ := link_cases h.link
  · rw [hout.sender] at hs
    obtain ⟨id, e, i, -, hrange, hsender⟩ := Connections.outgoingSender_eq_some hs
    rw [hsender]
    refine .inl ⟨hout.dealer, rfl, i, e, rfl, ?_, rfl⟩
    exact (Connections.mem_equalRange.mp (List.mem_of_head? hrange)).1
  · rw [hin.sender] at hs
    rw [← Option.some.inj hs]
    refine .inr ⟨hin.dealer, ?_⟩
    unfold Connections.incomingSender
    dsimp only
    split
    · split <;> rfl
    · rfl

omit [DecidableEq ι] in
theorem accept_of_append {d : Dispatch ι R} {q : PendingCommand ι} {origin : Origin}
    (h : d.accepted = p.dispatch.accepted ++ [q]) :
    p.accept origin d = { p with dispatch := d, origins := p.origins ++ [origin] } := by
  simp [accept, h]

/-- `proxyToWorker` treats the two ways as one; this is what they come to. -/
theorem proxyToWorker_eq (h : p.Authorised m c) (hp : p.dispatch.phase = .incoming) :
    p.proxyToWorker m c.link c.sender c.name c.dataParts =
      some ({ p with conns := c.sender.conns }.dispatchCall c) := by
  have hcheck : p.commands.proxyCheckAuth p.localServiceNode c.link.socket.dealer c.sender.peer
      c.name (some (c.category, c.callback)) c.dataParts = .ok (c.category, c.callback) := by
    simp only [Commands.proxyCheckAuth, h.allowed]
  have hentry : { p.pendingCommand c.link.id c.sender m.peerAddress c.command
      (c.category, c.callback) c.dataParts with serial := p.dispatch.accepted.length } =
      p.queueEntry c := by
    simp [pendingCommand, queueEntry, access, h.remote]
  have hcommand : p.dispatch.step (.command (p.pendingCommand c.link.id c.sender m.peerAddress
      c.command (c.category, c.callback) c.dataParts)) =
      some (if p.dispatch.HasSlot (.category c.category) then
        p.dispatch.startCommand (p.queueEntry c)
      else if 0 ≤ p.dispatch.cfg.maxQueue c.category ∧
          p.dispatch.cfg.maxQueue c.category ≤ p.dispatch.queued c.category then p.dispatch
      else p.dispatch.queueCommand (p.queueEntry c)) := by
    simp only [Dispatch.step, hp, if_true, Dispatch.proxyCommand, hentry]
    rfl
  have htouch (q : Proxy ι R) : q.touch c.sender.position m.now =
      if c.link.socket.dealer then q.touch c.sender.position c.now else q := by
    rcases h.position with ⟨hd, -⟩ | ⟨hd, hpos⟩
    · rw [if_pos hd, h.now]
    · rw [if_neg (by simp [hd]), hpos]
      rfl
  unfold proxyToWorker dispatchCall
  simp only [h.command, hcheck]
  by_cases hslot : p.dispatch.HasSlot (.category c.category)
  · by_cases hdata : (c.callback.isRequest && c.dataParts.isEmpty) = true
    · simp [hslot, hdata]
    · have hmodel : p.dispatch.step (.command ({ p with conns := c.sender.conns }.pendingCommand
          c.link.id c.sender m.peerAddress c.command (c.category, c.callback) c.dataParts)) =
          some (p.dispatch.startCommand (p.queueEntry c)) := by
        rw [if_pos hslot] at hcommand
        exact hcommand
      simp only [hslot, hdata, hmodel, not_true_eq_false, if_false, decide_true, Bool.true_and,
        Bool.false_eq_true, Option.bind_eq_bind, Option.bind_some, if_true, htouch]
      rw [accept_of_append rfl]
      rfl
  · have hmodel : p.dispatch.step (.command ({ p with conns := c.sender.conns }.pendingCommand
        c.link.id c.sender m.peerAddress c.command (c.category, c.callback) c.dataParts)) =
        some (if 0 ≤ p.dispatch.cfg.maxQueue c.category ∧
          p.dispatch.cfg.maxQueue c.category ≤ p.dispatch.queued c.category then p.dispatch
        else p.dispatch.queueCommand (p.queueEntry c)) := by
      rw [if_neg hslot] at hcommand
      exact hcommand
    simp only [hslot, hmodel, not_false_eq_true, if_true, decide_false, Bool.false_and,
      Bool.false_eq_true, if_false, Option.bind_eq_bind, Option.bind_some]
    split
    · simp [accept]
    · rw [accept_of_append rfl]
      rfl

theorem accepted_dispatchCall (p : Proxy ι R) (c : Call ι) :
    (p.dispatchCall c).dispatch.accepted = p.dispatch.accepted ∨
      (p.dispatchCall c).dispatch.accepted = p.dispatch.accepted ++ [p.queueEntry c] := by
  unfold dispatchCall
  split
  · split
    · exact .inl rfl
    · exact .inr rfl
  · split
    · exact .inl rfl
    · refine .inr ?_
      unfold startNow touch
      split
      · split <;> rfl
      · rfl

/-- A message that is authorised is accepted as one and the same command,
whichever way it goes, or dropped. -/
theorem accepted_receive (h : p.Authorised m c) (hp : p.dispatch.phase = .incoming)
    (hr : p.receive m = some p') :
    p'.dispatch.accepted = p.dispatch.accepted ∨
      p'.dispatch.accepted = p.dispatch.accepted ++ [p.queueEntry c] := by
  have hidle := Connections.handleBuiltin_of_not_handled h.builtin
  obtain ⟨l, hl, hr⟩ := Option.bind_eq_some_iff.mp hr
  obtain rfl := Option.some.inj (hl.symm.trans h.link)
  obtain ⟨d, hd, hr⟩ := Option.bind_eq_some_iff.mp hr
  obtain ⟨p₁, hp₁, hr⟩ := Option.bind_eq_some_iff.mp hr
  obtain rfl : p.dispatch = d := by
    rw [builtin, hidle] at hd
    simpa [Dispatch.perform] using hd
  have hb : p.afterBuiltin m c.link p.dispatch =
      { p with received := p.received ++ [m.parts] } := by
    simp [afterBuiltin, builtin, hidle]
  have ha (received : List (List Bytes)) : ({ p with received } : Proxy ι R).Authorised m c :=
    ⟨h.link, h.sender, h.parts, h.builtin, h.command, h.allowed, h.remote, h.now⟩
  have hforward : p.forward m c.link p.dispatch =
      some ({ p with received := p.received ++ [m.parts], conns := c.sender.conns }.dispatchCall
        c) := by
    simp only [forward, h.builtin, h.parts, h.sender, hb]
    exact proxyToWorker_eq (ha _) hp
  obtain rfl := Option.some.inj (hforward.symm.trans hp₁)
  have hcall := accepted_dispatchCall
    { p with received := p.received ++ [m.parts], conns := c.sender.conns } c
  split at hr
  · obtain ⟨d, stale, hd, rfl⟩ := next_eq_some hr
    rw [Dispatch.accepted_next hd]
    exact hcall
  · obtain rfl := Option.some.inj hr
    exact hcall

theorem accepted_act (h : Act p p') : p.dispatch.accepted <+: p'.dispatch.accepted := by
  have hcommand (d : Dispatch ι R) (q : PendingCommand ι) :
      d.accepted <+: (d.proxyCommand q).accepted := by
    rcases d.accepted_proxyCommand q with ha | ha <;> rw [ha]
    exact List.prefix_append _ _
  cases h with
  | outside e he hq hd =>
    rw [Dispatch.accepted_step hd fun q => ⟨hq q, by rintro rfl; cases he⟩]
  | inject q _ hd =>
    obtain ⟨-, rfl⟩ : _ ∧ p.dispatch.proxyCommand q = _ := by simpa [Dispatch.step] using hd
    exact hcommand _ q
  | send _ _ _ _ _ hd => exact (Dispatch.accepted_perform hd).symm ▸ List.prefix_rfl
  | connectRemote _ _ _ _ _ hd => exact (Dispatch.accepted_perform hd).symm ▸ List.prefix_rfl
  | cleanup _ _ hd => exact (Dispatch.accepted_perform hd).symm ▸ List.prefix_rfl
  | builtin m _ hd => exact (Dispatch.accepted_perform hd).symm ▸ List.prefix_rfl
  | @command d _ _ _ m name data _ _ _ _ hd =>
    obtain ⟨-, rfl⟩ : _ ∧ p.dispatch.proxyCommand _ = d := by simpa [Dispatch.step] using hd
    exact hcommand _ _
  | touch i now =>
    unfold touch
    split <;> exact List.prefix_rfl
  | next hn =>
    obtain ⟨d, stale, hd, rfl⟩ := next_eq_some hn
    exact (Dispatch.accepted_next hd).symm ▸ List.prefix_rfl
  | _ => exact List.prefix_rfl

variable [Fintype ι]

/-- An entry of the queue is what it was when it was accepted. -/
theorem pending_of_runs (h : (machine ι R).Reachable p) (hr : (machine ι R).Runs p p')
    {q : PendingCommand ι} (hq : q ∈ p'.dispatch.pendingCommands)
    (hlt : q.serial < p.dispatch.accepted.length) : p.dispatch.accepted[q.serial]? = some q := by
  have hprefix : p.dispatch.accepted <+: p'.dispatch.accepted := by
    refine hr.invariant (P := fun p' => p.dispatch.accepted <+: p'.dispatch.accepted)
      (fun s e s' hs hstep => ?_) List.prefix_rfl
    exact Transition.reflTransGen_invariant
      (P := fun p' : Proxy ι R => p.dispatch.accepted <+: p'.dispatch.accepted)
      (fun s t hst hs => hs.trans (accepted_act hst)) (acts_of_step hstep) hs
  have hreach : (machine ι R).Reachable p' := by
    obtain ⟨es, hes⟩ := hr
    exact h.run hes
  have hd := reachable_dispatch hreach
  obtain ⟨i, hi⟩ := List.mem_iff_getElem?.mp ((Dispatch.accounted_of_reachable hd).pending q hq)
  obtain rfl := (Dispatch.numbered_of_reachable hd).serial_eq hi
  rw [← hi]
  exact (List.prefix_iff_getElem?.mp hprefix q.serial hlt).symm ▸ List.getElem?_eq_getElem hlt

/-- Starting a command and queuing it come to the same: the worker is given the
same contents, now or from the entry that is found in the queue at any later
time, and `peers` is left the same. -/
structure SameDispatch (p : Proxy ι R) (m : Incoming) (c : Call ι) : Prop where
  contents : ∀ run run' : RunInfo ι,
    (p.loadNow c run).contents = (run'.loadPending (p.queueEntry c)).contents
  later : ∀ p₁ p₂, p.step (.incoming m) = some p₁ → p₁.dispatch.accepted ≠ p.dispatch.accepted →
    (machine ι R).Runs p₁ p₂ → ∀ q ∈ p₂.dispatch.pendingCommands,
      q.serial = p.dispatch.accepted.length → q = p.queueEntry c
  peers : ({ p with conns := c.sender.conns }.startNow c).conns.peers =
    ({ p with conns := c.sender.conns }.queueForLater c).conns.peers

/-- The two ways differ for a message on an outgoing connection that comes later
than the last activity on record. -/
theorem sameDispatch_iff (h : (machine ι R).Reachable p) (ha : p.Authorised m c) :
    p.SameDispatch m c ↔
      (c.link.socket.dealer = true → c.sender.peer.lastActivity = m.now) := by
  have hpeers : (({ p with conns := c.sender.conns }.startNow c).conns.peers =
      ({ p with conns := c.sender.conns }.queueForLater c).conns.peers) ↔
      (c.link.socket.dealer = true → c.sender.peer.lastActivity = m.now) := by
    rcases ha.position with ⟨hd, hconns, i, e, hpos, he, hpeer⟩ | ⟨hd, -⟩
    · have hnow : ({ p with conns := c.sender.conns }.startNow c).conns.peers =
          p.conns.peers.modify i fun e => (e.1, e.2.activity m.now) := by
        simp [startNow, hd, hpos, touch, hconns, ha.now]
      have hlater : ({ p with conns := c.sender.conns }.queueForLater c).conns.peers =
          p.conns.peers := congrArg Connections.peers hconns
      rw [hnow, hlater, hpeer]
      constructor
      · intro hsame _
        have hat := congrArg (·[i]?) hsame
        rw [List.getElem?_modify_eq, he] at hat
        exact (congrArg (fun e => e.2.lastActivity) (Option.some.inj hat)).symm
      · intro hact
        refine List.ext_getElem? fun j => ?_
        rw [List.getElem?_modify]
        by_cases hj : i = j
        · subst hj
          rw [he]
          simp [PeerInfo.activity, ← hact hd]
        · simp [hj]
    · simp [startNow, hd, queueForLater]
  refine ⟨fun hsame => hpeers.mp hsame.peers, fun hcond => ⟨?_, ?_, hpeers.mpr hcond⟩⟩
  · intro run run'
    rw [loadNow_eq]
    rfl
  · intro p₁ p₂ hs hacc hr q hq hserial
    have hreach : (machine ι R).Reachable p₁ := h.step (e := .incoming m) hs
    simp only [step] at hs
    split at hs
    · rename_i hguard
      have hp₁ := (accepted_receive ha hguard.1 hs).resolve_left hacc
      have hget := pending_of_runs hreach hr hq (by rw [hp₁, hserial]; simp)
      rw [hp₁, hserial, List.getElem?_concat_length] at hget
      exact (Option.some.inj hget).symm
    · cases hs

/-- A request, on a listening socket or on an outgoing one. -/
def sampleMessage (session : Option (Nat × Bytes)) (now : Int) : Incoming :=
  { index := 0, session, parts := [bytes "c.r", [9]], now }

theorem sameDispatch_of_incoming : ∃ (p : Proxy Unit Unit) (c : Call Unit),
    (machine Unit Unit).Reachable p ∧ p.call? (sampleMessage (some (0, [1])) 5) = some c ∧
    p.SameDispatch (sampleMessage (some (0, [1])) 5) c := by
  obtain ⟨p, hp, hstate⟩ := sample_reachable.exists_of_run
    [.next, .next, .next,
      .zap [bytes "1.0", bytes "1", bytes "i0e", bytes "::1", [], bytes "CURVE", sampleKey],
      .next, .next]
    (p := fun p => (p.call? (sampleMessage (some (0, [1])) 5)).any fun c => !c.link.socket.dealer)
    (by decide +kernel)
  obtain ⟨c, hc, hstate⟩ := (Option.any_eq_true _ _).mp hstate
  refine ⟨p, c, hp, hc, (sameDispatch_iff hp (authorised_of_call? hc)).mpr fun hd => ?_⟩
  simp [hd] at hstate

/-- A remote that has been connected to sends two commands, and there is one
worker: the first is started, the second queued, and only the first counts as
activity. -/
theorem activity_of_queued : ∃ (p p' : Proxy Unit Unit) (c : Call Unit),
    (machine Unit Unit).Reachable p ∧ p.Authorised (sampleMessage none 6) c ∧
    p.step (.incoming (sampleMessage none 6)) = some p' ∧
    p'.dispatch.pendingCommands = [p.queueEntry c] ∧
    p'.conns.peers.map (·.2.lastActivity) = [5] ∧
    (startNow { p with conns := c.sender.conns } c).conns.peers.map (·.2.lastActivity) = [6] := by
  have hinit : (machine Unit Unit).Reachable
      (start Dispatch.smallConfig [] [] { sampleCommands with access := fun _ => {} } false) :=
    .init ⟨_, _, _, _, _, by decide +kernel, rfl⟩
  obtain ⟨p, hp, hstate⟩ := hinit.exists_of_run
    [.requestConn,
      .connectRemote sampleNetwork 0
        { connId := 1, connect := 0, failure := 1, remote := bytes "tcp://2:2" },
      .next, .next, .next, .next, .next, .incoming (sampleMessage none 5),
      .next, .next, .next, .next, .next]
    (p := fun p : Proxy Unit Unit => (p.call? (sampleMessage none 6)).any fun c =>
      (p.step (.incoming (sampleMessage none 6))).any fun p' =>
        p'.dispatch.pendingCommands = [p.queueEntry c] &&
        p'.conns.peers.map (·.2.lastActivity) = [5] &&
        (startNow { p with conns := c.sender.conns } c).conns.peers.map (·.2.lastActivity) = [6])
    (by decide +kernel)
  obtain ⟨c, hc, hstate⟩ := (Option.any_eq_true _ _).mp hstate
  obtain ⟨p', hp', hstate⟩ := (Option.any_eq_true _ _).mp hstate
  simp only [Bool.and_eq_true, decide_eq_true_eq] at hstate
  exact ⟨p, p', c, hp, authorised_of_call? hc, hp', hstate.1.1, hstate.1.2, hstate.2⟩

end Proxy

end ArqmaMQ
