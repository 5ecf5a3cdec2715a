import ArqmaMQ.ProxyAccess
import ArqmaMQ.WorkConservation

/-! The loop never goes to sleep on work it could start. Commands that arrive
after the queue was processed find a slot or have none, and what else can be added
to the queues by then makes the loop skip its next poll. -/

namespace ArqmaMQ

variable {ι R : Type} [DecidableEq ι]

omit [DecidableEq ι] in
theorem Jobs.queues_jobCompletion (j : Jobs R) (b : Nat) :
    (j.jobCompletion b).taggedQueues = j.taggedQueues ∧
      (j.jobCompletion b).batchJobs = j.batchJobs ∧
        (j.jobCompletion b).replyJobs = j.replyJobs := by
  unfold jobCompletion
  split
  · exact ⟨rfl, rfl, rfl⟩
  · rename_i batch _
    rcases hc : batch.complete with _ | f
    · exact ⟨rfl, rfl, rfl⟩
    · cases f <;> exact ⟨rfl, rfl, rfl⟩

namespace Dispatch

variable {d d' : Dispatch ι R}

theorem phase_proxyCommand (d : Dispatch ι R) (q : PendingCommand ι) :
    (d.proxyCommand q).phase = d.phase := by
  simp only [proxyCommand]
  split
  · rfl
  · split <;> rfl

/-- The parts of the loop follow each other only by going on to the next. -/
theorem phase_step {e : DispatchEvent ι R} (he : e ≠ .next) (h : d.step e = some d') :
    d'.phase = d.phase := by
  cases e with
  | next => exact absurd rfl he
  | inject q =>
    obtain ⟨-, rfl⟩ : _ ∧ d.proxyCommand q = d' := by simpa [step] using h
    exact d.phase_proxyCommand q
  | command q =>
    obtain ⟨-, rfl⟩ : _ ∧ d.proxyCommand q = d' := by simpa [step] using h
    exact d.phase_proxyCommand q
  | batch b =>
    simp only [step] at h
    split at h
    · obtain ⟨batch, -, rfl⟩ := Option.map_eq_some_iff.mp h
      rfl
    · cases h
  | workerMessage w =>
    obtain ⟨-, hw⟩ : _ ∧ d.proxyWorkerMessage w = some d' := by simpa [step] using h
    obtain ⟨pool, jobs, rfl⟩ := workerMessage_frame hw
    rfl
  | receive w =>
    obtain ⟨pool, -, rfl⟩ := Option.map_eq_some_iff.mp h
    rfl
  | sendRan w =>
    obtain ⟨pool, -, rfl⟩ := Option.map_eq_some_iff.mp h
    rfl
  | execute w r =>
    obtain ⟨_, pool, jobs, -, -, rfl, -⟩ := execute_eq_some h
    rfl
  | _ =>
    obtain ⟨-, rfl⟩ : _ ∧ _ = d' := by simpa [step] using h
    rfl

/-- The queues are the same, and no worker has become free. -/
structure Steady (d d' : Dispatch ι R) : Prop where
  cfg : d'.cfg = d.cfg
  tagged : ∀ (i : Nat) (t' : TaggedWorker ι), d'.pool.taggedWorkers[i]? = some t' →
    ∃ t : TaggedWorker ι, d.pool.taggedWorkers[i]? = some t ∧ t.busy = t'.busy
  active : ∀ k, d.pool.active k ≤ d'.pool.active k
  activeWorkers : d.pool.activeWorkers ≤ d'.pool.activeWorkers
  taggedQueues : d'.jobs.taggedQueues = d.jobs.taggedQueues
  batchJobs : d'.jobs.batchJobs = d.jobs.batchJobs
  replyJobs : d'.jobs.replyJobs = d.jobs.replyJobs
  pending : ∀ q ∈ d'.pendingCommands, q ∈ d.pendingCommands ∨ ¬ d'.HasSlot (.category q.cat)

omit [DecidableEq ι] in
theorem WorkConserving.steady (h : d.WorkConserving) (hs : Steady d d') : d'.WorkConserving := by
  refine ⟨fun i t' queue ht' hqueue hidle => ?_, fun k hk => ?_⟩
  · obtain ⟨t, ht, hbusy⟩ := hs.tagged i t' ht'
    rw [hs.taggedQueues] at hqueue
    exact h.tagged i t queue ht hqueue (hbusy.trans hidle)
  · have hkeep (hw : d.Waiting k) : d'.cfg.reserved k ≤ d'.pool.active k ∧
        d'.cfg.generalWorkers ≤ d'.pool.activeWorkers := by
      obtain ⟨hres, hgen⟩ := h.general k hw
      rw [hs.cfg]
      exact ⟨hres.trans (hs.active k), hgen.trans hs.activeWorkers⟩
    cases k with
    | batch =>
      rw [Waiting, hs.batchJobs] at hk
      exact hkeep hk
    | reply =>
      rw [Waiting, hs.replyJobs] at hk
      exact hkeep hk
    | category c =>
      obtain ⟨q, hq, rfl⟩ := hk
      rcases hs.pending q hq with hq | hno
      · exact hkeep ⟨q, hq, rfl⟩
      · exact (not_or.mp hno).imp Nat.not_lt.mp Nat.not_lt.mp

omit [DecidableEq ι] in
theorem Steady.setRun {w : WorkerRef} {r : RunInfo ι} {pool : Pool ι} {jobs : Jobs R}
    (hp : ∃ log, pool = { d.pool.setRun w r with log })
    (ht : jobs.taggedQueues = d.jobs.taggedQueues) (hb : jobs.batchJobs = d.jobs.batchJobs)
    (hr : jobs.replyJobs = d.jobs.replyJobs) : Steady d { d with pool, jobs } := by
  obtain ⟨log, rfl⟩ := hp
  refine ⟨rfl, ?_, ?_, ?_, ht, hb, hr, fun q hq => .inl hq⟩
  · intro i t' ht'
    cases w with
    | general j => exact ⟨t', ht', rfl⟩
    | tagged j =>
      by_cases hj : j = i
      · subst hj
        obtain ⟨t, ht, rfl⟩ :
            ∃ t, d.pool.taggedWorkers[j]? = some t ∧ { t with run := r } = t' := by
          simpa [Pool.modifyRun] using ht'
        exact ⟨t, ht, rfl⟩
      · exact ⟨t', by simpa [Pool.modifyRun, hj] using ht', rfl⟩
  · intro k
    simp
  · simp [Pool.activeWorkers]

theorem Steady.proxyCommand (d : Dispatch ι R) (p : PendingCommand ι) :
    Steady d (d.proxyCommand p) := by
  simp only [Dispatch.proxyCommand]
  split
  · -- it takes a slot
    refine ⟨rfl, ?_, ?_, d.pool.activeWorkers_le_assign _ _, rfl, rfl, rfl, fun q hq => .inl hq⟩
    · intro i t ht
      rw [startCommand, Pool.taggedWorkers_assign] at ht
      exact ⟨t, ht, rfl⟩
    · intro k
      rw [startCommand, Pool.assign_active]
      by_cases hk : k = .category p.cat
      · subst hk
        rw [Function.update_self]
        exact Nat.le_succ _
      · rw [Function.update_of_ne hk]
  · rename_i hno
    have hrefl : Steady d d := ⟨rfl, fun i t ht => ⟨t, ht, rfl⟩, fun _ => le_refl _, le_refl _,
      rfl, rfl, rfl, fun q hq => .inl hq⟩
    split
    · exact hrefl
    · refine ⟨rfl, hrefl.tagged, hrefl.active, le_refl _, rfl, rfl, rfl, fun q hq => ?_⟩
      rcases List.mem_append.mp hq with hq | hq
      · exact .inl hq
      · rw [List.mem_singleton.mp hq]
        exact .inr hno

/-- What happens while incoming messages are handled leaves the queues as they
are, or has the next poll skipped. -/
theorem steady_of_incoming {e : DispatchEvent ι R} (hp : d.phase = .incoming)
    (h : d.step e = some d') (he : e ≠ .next) :
    d'.maxWorkers = d.maxWorkers ∧ (d'.proxySkipOnePoll = true ∨
      d'.proxySkipOnePoll = d.proxySkipOnePoll ∧ Steady d d') := by
  cases e with
  | next => exact absurd rfl he
  | command q =>
    obtain ⟨-, rfl⟩ : _ ∧ d.proxyCommand q = d' := by simpa [step] using h
    have hframe : (d.proxyCommand q).maxWorkers = d.maxWorkers ∧
        (d.proxyCommand q).proxySkipOnePoll = d.proxySkipOnePoll := by
      simp only [proxyCommand]
      split
      · exact ⟨rfl, rfl⟩
      · split <;> exact ⟨rfl, rfl⟩
    exact ⟨hframe.1, .inr ⟨hframe.2, .proxyCommand d q⟩⟩
  | submit jobs comp =>
    obtain ⟨-, rfl⟩ : _ ∧ _ = d' := by simpa [step] using h
    exact ⟨rfl, .inr ⟨rfl, rfl, fun i t ht => ⟨t, ht, rfl⟩, fun _ => le_refl _, le_refl _, rfl, rfl,
      rfl, fun q hq => .inl hq⟩⟩
  | replyJob f =>
    obtain ⟨-, rfl⟩ : _ ∧ _ = d' := by simpa [step] using h
    exact ⟨rfl, .inl rfl⟩
  | receive w =>
    obtain ⟨pool, hr, rfl⟩ := Option.map_eq_some_iff.mp h
    obtain ⟨r, t, t', -, -, -, rfl⟩ := Pool.stepThread_eq_some hr
    exact ⟨rfl, .inr ⟨rfl, .setRun ⟨_, rfl⟩ rfl rfl rfl⟩⟩
  | sendRan w =>
    obtain ⟨pool, hr, rfl⟩ := Option.map_eq_some_iff.mp h
    obtain ⟨r, t, t', -, -, -, rfl⟩ := Pool.stepThread_eq_some hr
    exact ⟨rfl, .inr ⟨rfl, .setRun ⟨_, rfl⟩ rfl rfl rfl⟩⟩
  | execute w res =>
    obtain ⟨run, pool, jobs, -, hx, rfl, hjobs⟩ := execute_eq_some h
    obtain ⟨r, r', -, -, rfl⟩ := Pool.execute_eq_some hx
    have hqueues : jobs.taggedQueues = d.jobs.taggedQueues ∧ jobs.batchJobs = d.jobs.batchJobs ∧
        jobs.replyJobs = d.jobs.replyJobs := by
      rw [hjobs]
      split
      · split
        · exact ⟨rfl, rfl, rfl⟩
        · split
          · exact d.jobs.queues_jobCompletion _
          · exact ⟨rfl, rfl, rfl⟩
      · exact ⟨rfl, rfl, rfl⟩
    exact ⟨rfl, .inr ⟨rfl, .setRun ⟨_, rfl⟩ hqueues.1 hqueues.2.1 hqueues.2.2⟩⟩
  | _ => simp [step, hp] at h

/-- Between rounds, before QUIT, nothing waits that could be started, unless the
poll is skipped. -/
def Awake (d : Dispatch ι R) : Prop :=
  d.phase = .incoming → d.maxWorkers ≠ 0 → d.proxySkipOnePoll = false → d.WorkConserving

variable [Fintype ι]

theorem awake_next (hfit : d.cfg.FitsInt) (hh : d.HandOff) (hr : d.Reserved)
    (h : d.next = some d') : d'.Awake := by
  intro hp hq hskip
  unfold next at h
  split at h
  case h_5 hqueue =>
    obtain rfl := Option.some.inj h
    have hmax := (proxyProcessQueue_progress hqueue).1.2.1
    obtain ⟨htagged, hgeneral⟩ :=
      proxyProcessQueue_workConserving hfit hh hr hqueue (by rwa [← hmax])
    exact ⟨htagged, hgeneral⟩
  case h_6 =>
    split at h <;> obtain rfl := Option.some.inj h <;> cases hp
  case h_7 => cases h
  all_goals
    obtain rfl := Option.some.inj h
    cases hp

theorem awake_of_reachable (h : (machine ι R).Reachable d) (hfit : d.cfg.FitsInt) :
    d.Awake := by
  induction h with
  | init hinit =>
    obtain ⟨cfg, -, rfl⟩ := hinit
    intro hp
    cases hp
  | @step d d' e hreach hs ih =>
    rw [cfg_step hs] at hfit
    by_cases he : e = .next
    · subst he
      exact awake_next hfit (handOff_of_reachable hreach) (reserved_of_reachable hreach) hs
    · intro hp hq hskip
      have hp₀ : d.phase = .incoming := (phase_step he hs).symm.trans hp
      obtain ⟨hmax, hs' | ⟨hsame, hsteady⟩⟩ := steady_of_incoming hp₀ hs he
      · rw [hs'] at hskip
        cases hskip
      · exact (ih hfit hp₀ (hmax ▸ hq) (hsame ▸ hskip)).steady hsteady

end Dispatch

namespace Proxy

variable [Fintype ι] {p : Proxy ι R}

/-- Where the loop goes on to `zmq::poll`, it could not have started anything. -/
theorem no_lost_wakeup (h : (machine ι R).Reachable p) (hfit : p.dispatch.cfg.FitsInt)
    (hp : p.dispatch.phase = .incoming) (hq : p.dispatch.maxWorkers ≠ 0)
    (hskip : p.dispatch.proxySkipOnePoll = false) : p.dispatch.WorkConserving :=
  Dispatch.awake_of_reachable (reachable_dispatch h) hfit hp hq hskip

theorem no_lost_wakeup_with_job_waiting : ∃ p, (machine Unit Unit).Reachable p ∧
    p.dispatch.Waiting .batch ∧ p.dispatch.WorkConserving := by
  obtain ⟨p, hreach, hstate⟩ := sample_reachable.exists_of_run
    [.dispatch (.submit [(.user 0, 0)] none), .dispatch (.submit [(.user 1, 0)] none),
      .dispatch (.batch 0), .dispatch (.batch 1), .next, .next, .next, .next, .next, .next,
      .next, .next, .next, .next, .next]
    (p := fun p => decide (p.dispatch.cfg.FitsInt ∧ p.dispatch.phase = .incoming ∧
      p.dispatch.maxWorkers ≠ 0 ∧ p.dispatch.proxySkipOnePoll = false ∧
      p.dispatch.jobs.batchJobs ≠ [])) (by decide +kernel)
  obtain ⟨hfit, hp, hq, hskip, hwaiting⟩ := of_decide_eq_true hstate
  exact ⟨p, hreach, hwaiting, no_lost_wakeup hreach hfit hp hq hskip⟩

end Proxy

end ArqmaMQ
