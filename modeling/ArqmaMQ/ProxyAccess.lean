import ArqmaMQ.CommandOrder
import ArqmaMQ.ProxySteps

/-! Access control from end to end: a command on an incoming connection gets to
a worker, or into the queue, only with the rights the AllowFunc of its listening
address gave to the connection. -/

namespace ArqmaMQ

variable {ι R : Type} [DecidableEq ι]

namespace Dispatch

variable {d d' : Dispatch ι R}

/-- Only accepted commands are queued or given to a worker. -/
structure Accounted (d : Dispatch ι R) : Prop where
  pending : ∀ q ∈ d.pendingCommands, q ∈ d.accepted
  started : ∀ c, ∀ n ∈ d.pool.started c, ∃ q ∈ d.accepted, q.cat = c ∧ q.serial = n

theorem Accounted.frame (h : d.Accounted) (hp : d'.pendingCommands = d.pendingCommands)
    (ha : d'.accepted = d.accepted) (hs : ∀ c, d'.pool.started c = d.pool.started c) :
    d'.Accounted := by
  refine ⟨fun q hq => ha ▸ h.pending q (hp ▸ hq), fun c n hn => ?_⟩
  rw [ha]
  exact h.started c n (hs c ▸ hn)

theorem Accounted.load (h : d.Accounted) (hh : d.HandOff) {q : PendingCommand ι}
    (hs : d'.pool = d.pool.assign (.category q.cat) (·.loadPending q))
    (hp : ∀ q' ∈ d'.pendingCommands, q' ∈ d'.accepted) (ha : ∀ q' ∈ d.accepted, q' ∈ d'.accepted)
    (hq : q ∈ d'.accepted) : d'.Accounted := by
  refine ⟨hp, fun c n hn => ?_⟩
  rw [hs, started_loadPending hh] at hn
  rcases List.mem_append.mp hn with hn | hn
  · obtain ⟨q', hq', hcat⟩ := h.started c n hn
    exact ⟨q', ha q' hq', hcat⟩
  · by_cases hc : q.cat = c
    · rw [if_pos hc, List.mem_singleton] at hn
      exact ⟨q, hq, hc, hn.symm⟩
    · rw [if_neg hc] at hn
      cases hn

theorem Accounted.startCommand (h : d.Accounted) (hh : d.HandOff) (q : PendingCommand ι) :
    (d.startCommand q).Accounted :=
  h.load hh rfl (fun q' hq' => List.mem_append_left _ (h.pending q' hq'))
    (fun _ hq' => List.mem_append_left _ hq') (List.mem_append_right _ (List.mem_singleton_self q))

theorem Accounted.move (h : d.Accounted) (hh : d.HandOff) (hm : Move d d') : d'.Accounted := by
  cases hm with
  | quit =>
    refine h.frame rfl rfl fun c => ?_
    rw [Pool.started, quit, Pool.log_sendQuit]
    rfl
  | workerMessage w _ hw =>
    have hs := started_workerMessage hw
    obtain ⟨pool, jobs, rfl⟩ := workerMessage_frame hw
    exact h.frame rfl rfl hs
  | queueCommand p _ _ =>
    refine ⟨fun q hq => ?_, fun c n hn => ?_⟩
    · rcases List.mem_append.mp hq with hq | hq
      · exact List.mem_append_left _ (h.pending q hq)
      · exact List.mem_append_right _ hq
    · obtain ⟨q, hq, hcat⟩ := h.started c n hn
      exact ⟨q, List.mem_append_left _ hq, hcat⟩
  | startTagged i _ =>
    obtain ⟨-, -, hp, ha⟩ := startTagged_frame d i
    exact h.frame hp ha (started_startTagged hh i)
  | startBatchJob reply job rest _ _ _ _ =>
    exact h.frame rfl rfl (started_startBatchJob hh reply job rest)
  | startPending pre p post _ _ hc _ _ =>
    refine h.load hh rfl (fun q hq => h.pending q ?_) (fun _ hq => hq) (h.pending p (by simp [hc]))
    rw [hc]
    rcases List.mem_append.mp hq with hq | hq
    · exact List.mem_append_left _ hq
    · exact List.mem_append_right _ (List.mem_cons_of_mem p hq)
  | receive w hs => exact h.frame rfl rfl (started_stepThread hs)
  | sendRan w hs => exact h.frame rfl rfl (started_stepThread hs)
  | execute w r he =>
    obtain ⟨_, pool, jobs, -, hp, rfl, -⟩ := execute_eq_some he
    exact h.frame rfl rfl (started_execute hp)
  | _ => exact h.frame rfl rfl fun _ => rfl

theorem accounted_of_reachable [Fintype ι] (h : (machine ι R).Reachable d) : d.Accounted := by
  refine (reachable_invariant (P := fun d => d.HandOff ∧ d.Accounted) ?_ ?_ ?_ h).2
  · intro cfg
    exact ⟨HandOff.init cfg, by simp [start], by simp [start, Pool.started]⟩
  · rintro d d' ⟨hh, ha⟩ hm
    exact ⟨hh.move hm, ha.move hh hm⟩
  · rintro d p ⟨hh, ha⟩ - - -
    exact ⟨hh.startCommand p, ha.startCommand hh p⟩

theorem accepted_next (h : d.next = some d') : d'.accepted = d.accepted := by
  refine next_invariant (P := fun e => e.accepted = d.accepted) ?_ (fun _ _ _ => id) h rfl
  intro e e' hs he
  cases hs with
  | tagged i => exact (startTagged_frame e i).2.2.2.trans he
  | _ => exact he

/-- Nothing but a command changes what was accepted. -/
theorem accepted_step {e : DispatchEvent ι R} (h : d.step e = some d')
    (he : ∀ q, e ≠ .inject q ∧ e ≠ .command q) : d'.accepted = d.accepted := by
  cases e with
  | inject q => exact absurd rfl (he q).1
  | command q => exact absurd rfl (he q).2
  | next => exact accepted_next h
  | workerMessage w =>
    obtain ⟨-, hw⟩ : _ ∧ d.proxyWorkerMessage w = some d' := by simpa [step] using h
    obtain ⟨pool, jobs, rfl⟩ := workerMessage_frame hw
    rfl
  | batch b =>
    simp only [step] at h
    split at h
    · obtain ⟨batch, -, rfl⟩ := Option.map_eq_some_iff.mp h
      rfl
    · cases h
  | receive w =>
    obtain ⟨pool, -, rfl⟩ := Option.map_eq_some_iff.mp h
    rfl
  | sendRan w =>
    obtain ⟨pool, -, rfl⟩ := Option.map_eq_some_iff.mp h
    rfl
  | execute w r =>
    obtain ⟨_, pool, jobs, -, -, rfl, -⟩ := execute_eq_some h
    rfl
  | _ =>
    obtain ⟨_, rfl⟩ : _ ∧ _ = d' := by simpa [step] using h
    rfl

theorem accepted_perform {es : List Effect} (h : d.perform es = some d') :
    d'.accepted = d.accepted := by
  induction es generalizing d with
  | nil =>
    obtain rfl : d = d' := by simpa [perform] using h
    rfl
  | cons e es ih =>
    obtain ⟨d₁, hd₁, h⟩ := perform_cons.mp h
    rw [ih h]
    exact accepted_step hd₁ fun q => by cases e <;> simp [Effect.event]

theorem accepted_proxyCommand (d : Dispatch ι R) (q : PendingCommand ι) :
    (d.proxyCommand q).accepted = d.accepted ∨
      (d.proxyCommand q).accepted = d.accepted ++ [{ q with serial := d.accepted.length }] := by
  simp only [proxyCommand]
  split
  · exact .inr rfl
  · split
    · exact .inl rfl
    · exact .inr rfl

end Dispatch

namespace Commands

omit [DecidableEq ι] in
/-- What a command that is not turned down has passed. -/
theorem of_refusal_eq_none {r : Commands ι} {localServiceNode : Bool} {peer : PeerInfo}
    {call : ι × CommandCallback} {data : List Bytes}
    (h : r.refusal localServiceNode peer (some call) data = none) :
    (r.access call.1).auth ≤ peer.authLevel ∧
      ((r.access call.1).localSn = true → localServiceNode = true) ∧
      ((r.access call.1).remoteSn = true → peer.serviceNode = true) ∧
      (call.2.isRequest = true → data ≠ []) := by
  simp only [refusal] at h
  split_ifs at h with hauth hlocal hremote hrequest
  refine ⟨Int.not_lt.mp hauth, ?_, ?_, ?_⟩
  · simpa using hlocal
  · simpa using hremote
  · simpa using hrequest

end Commands

namespace Proxy

variable {p p' : Proxy ι R}

/-- The rights behind an accepted command, by where it came from. -/
def Permits (p : Proxy ι R) (q : PendingCommand ι) : Origin → Prop
  | .injected => q.callback.isRight = true
  | .outgoing => True
  | .incoming answer sns name => ∃ v callback, answer.Accepts v ∧
    p.commands.getCommand name = (q.command, some (q.cat, callback)) ∧
    q.callback = .inl callback ∧
    (p.commands.access q.cat).auth ≤ v.level ∧
    ((p.commands.access q.cat).localSn = true → p.localServiceNode = true) ∧
    ((p.commands.access q.cat).remoteSn = true →
      v.bind.curve = true ∧ v.pubkey.length = 32 ∧ v.pubkey ∈ sns) ∧
    (callback.isRequest = true → q.dataParts ≠ [])

structure Guarded (p : Proxy ι R) : Prop where
  answers : ∀ a ∈ p.answers, a.statusCode = bytes "200" → ∃ v, a.Accepts v
  length : p.origins.length = p.dispatch.accepted.length
  permits : ∀ (n : Nat) o q, p.origins[n]? = some o → p.dispatch.accepted[n]? = some q →
    p.Permits q o

omit [DecidableEq ι] in
theorem Guarded.frame (h : p.Guarded) (ha : p'.answers = p.answers) (ho : p'.origins = p.origins)
    (hd : p'.dispatch.accepted = p.dispatch.accepted) (hc : p'.commands = p.commands)
    (hl : p'.localServiceNode = p.localServiceNode) : p'.Guarded := by
  refine ⟨?_, ?_, ?_⟩
  · rw [ha]
    exact h.answers
  · rw [ho, hd]
    exact h.length
  · intro n o q hn hq
    rw [ho] at hn
    rw [hd] at hq
    have hp := h.permits n o q hn hq
    unfold Permits at hp ⊢
    rwa [hc, hl]

theorem Guarded.accept (h : p.Guarded) {q : PendingCommand ι} {origin : Origin}
    (hp : ∀ n, p.Permits { q with serial := n } origin) :
    (p.accept origin (p.dispatch.proxyCommand q)).Guarded := by
  rcases p.dispatch.accepted_proxyCommand q with ha | ha
  · exact h.frame rfl (if_pos (congrArg List.length ha)) ha rfl rfl
  · have ho : (p.accept origin (p.dispatch.proxyCommand q)).origins = p.origins ++ [origin] := by
      simp [Proxy.accept, ha]
    refine ⟨h.answers, ?_, ?_⟩
    · rw [ho]
      change _ = (p.dispatch.proxyCommand q).accepted.length
      rw [ha, List.length_append, List.length_append, h.length]
      rfl
    · intro n o q' hn hq'
      rw [ho] at hn
      change (p.dispatch.proxyCommand q).accepted[n]? = some q' at hq'
      rw [ha] at hq'
      rcases Nat.lt_or_ge n p.origins.length with hlt | hge
      · rw [List.getElem?_append_left hlt] at hn
        rw [List.getElem?_append_left (h.length ▸ hlt)] at hq'
        exact h.permits n o q' hn hq'
      · rw [List.getElem?_append_right hge] at hn
        rw [List.getElem?_append_right (h.length ▸ hge)] at hq'
        obtain rfl := List.mem_singleton.mp (List.mem_of_getElem? hn)
        obtain rfl := List.mem_singleton.mp (List.mem_of_getElem? hq')
        exact hp _

variable [Fintype ι]

end Proxy

end ArqmaMQ
