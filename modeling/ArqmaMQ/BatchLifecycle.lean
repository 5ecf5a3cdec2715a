import ArqmaMQ.BatchArrivals
import ArqmaMQ.HandOffRuns

/-! Every move of the scheduler, and every step of a worker thread, takes the
batches from one consistent state to another. -/

namespace ArqmaMQ

variable {ι R : Type}

open Custody (Live)

def Stage.job? : Stage ι → Option BatchJob
  | .loaded (some (.batch job)) => some job
  | .executed (some (.batch job)) => some job
  | _ => none

def Stage.unrunJob? : Stage ι → Option BatchJob
  | .loaded (some (.batch job)) => some job
  | _ => none

namespace Pool

variable [DecidableEq ι] {p p' : Pool ι} {w : WorkerRef} {s s' : Stage ι} {e : WorkerEvent ι}

/-- The batch jobs in the hands of workers, by what their histories say. -/
def held (p : Pool ι) : WorkerRef → Option BatchJob := (·.bind Stage.job?) ∘ p.stage

def unrun (p : Pool ι) : WorkerRef → Option BatchJob := (·.bind Stage.unrunJob?) ∘ p.stage

theorem stage_eq_update (hlog : p'.log = p.log ++ [e]) (hs : p.stage e.worker = some s)
    (hn : s.next e = some s') : p'.stage = Function.update p.stage e.worker (some s') := by
  have hrec : p'.stage = (p.record e).stage := by
    funext w
    rw [stage, history, hlog]
    rfl
  funext w
  rw [hrec, stage_record]
  by_cases hw : e.worker = w
  · subst hw
    rw [if_pos rfl, hs, Function.update_self, Option.bind_some, hn]
  · rw [if_neg hw, Function.update_of_ne (Ne.symm hw)]

theorem held_eq_update (h : p'.stage = Function.update p.stage w (some s)) :
    p'.held = Function.update p.held w s.job? := by
  rw [held, h, Function.comp_update]
  rfl

theorem unrun_eq_update (h : p'.stage = Function.update p.stage w (some s)) :
    p'.unrun = Function.update p.unrun w s.unrunJob? := by
  rw [unrun, h, Function.comp_update]
  rfl

theorem held_of_stage (h : p.stage w = some s) : p.held w = s.job? := by
  rw [held, Function.comp_apply, h]
  rfl

theorem unrun_of_stage (h : p.stage w = some s) : p.unrun w = s.unrunJob? := by
  rw [unrun, Function.comp_apply, h]
  rfl

theorem held_of_log (h : p'.log = p.log) : p'.held = p.held ∧ p'.unrun = p.unrun := by
  have hstage : p'.stage = p.stage := by
    funext w
    rw [stage, history, h]
    rfl
  rw [held, unrun, hstage]
  exact ⟨rfl, rfl⟩

/-- A step of a worker that has no batch job, or keeps it as it was. -/
theorem held_of_stage_update (h : p'.stage = Function.update p.stage w (some s'))
    (hs : p.stage w = some s) (hj : s'.job? = s.job?) : p'.held = p.held := by
  rw [held_eq_update h, hj, ← held_of_stage hs, Function.update_eq_self]

theorem unrun_of_stage_update (h : p'.stage = Function.update p.stage w (some s'))
    (hs : p.stage w = some s) (hj : s'.unrunJob? = s.unrunJob?) : p'.unrun = p.unrun := by
  rw [unrun_eq_update h, hj, ← unrun_of_stage hs, Function.update_eq_self]

end Pool

namespace Dispatch

variable [DecidableEq ι] {d d' : Dispatch ι R} {w : WorkerRef} {b : Nat}

def Batches (d : Dispatch ι R) : Prop :=
  d.jobs.Batches d.cfg.taggedWorkers d.pool.held d.pool.unrun

theorem Batches.of_log {pool : Pool ι} (h : d.Batches) (hl : pool.log = d.pool.log) :
    Batches { d with pool } := by
  obtain ⟨hheld, hunrun⟩ := Pool.held_of_log hl
  rw [Batches, hheld, hunrun]
  exact h

/-- A free worker is loaded with a job from a queue. -/
theorem Batches.startJob (h : d.Batches) {jobs : Jobs R} (hr : Jobs.Requeued d.jobs jobs)
    {job : BatchJob} (hperm : d.jobs.queued.Perm (job :: jobs.queued)) {pool : Pool ι} {n : Nat}
    (hs : d.pool.stage w = some .free)
    (hlog : pool.log = d.pool.log ++ [.loaded w (some (.batch job)) n]) :
    Batches { d with pool, jobs } := by
  have hstage := Pool.stage_eq_update hlog hs rfl
  have hheld : d.pool.held w = none := Pool.held_of_stage hs
  have hunrun : d.pool.unrun w = none := Pool.unrun_of_stage hs
  have htake := Jobs.Batches.take h hr hperm hheld hunrun
  rw [Batches, Pool.held_eq_update hstage, Pool.unrun_eq_update hstage]
  exact htake

theorem Batches.loadPending (h : d.Batches) (hh : d.HandOff) (p : PendingCommand ι) :
    Batches { d with pool := d.pool.assign (.category p.cat) (·.loadPending p) } := by
  obtain ⟨w, r, hs, hlog⟩ := hh.1.log_assign (.category p.cat) (·.loadPending p)
  have hstage := Pool.stage_eq_update hlog hs rfl
  rw [RunInfo.task_loadPending] at hstage
  rw [Batches, Pool.held_of_stage_update hstage hs rfl, Pool.unrun_of_stage_update hstage hs rfl]
  exact h

theorem Batches.startBatchJob (h : d.Batches) (hh : d.HandOff) {reply : Bool} {job : BatchJob}
    {rest : List BatchJob} (hj : d.batchQueue reply = job :: rest) :
    (d.startBatchJob reply job rest).Batches := by
  obtain ⟨w, r, hs, hlog⟩ := hh.1.log_assign (batchClass ι reply) (·.loadBatchJob job reply 0)
  rw [RunInfo.task_loadBatchJob] at hlog
  cases reply with
  | false =>
    have hq : d.jobs.batchJobs = job :: rest := hj
    exact h.startJob ⟨rest, _, _, rfl, rfl⟩ (by simp [Jobs.queued, hq]) hs hlog
  | true =>
    have hq : d.jobs.replyJobs = job :: rest := hj
    exact h.startJob ⟨_, rest, _, rfl, rfl⟩ (by simp [Jobs.queued, hq, List.perm_middle]) hs hlog

theorem Batches.startTagged (h : d.Batches) (hh : d.HandOff) (i : Nat) :
    (d.startTagged i).Batches := by
  unfold Dispatch.startTagged
  split
  · rename_i t job rest ht hj
    split
    · exact h
    · rename_i hb
      have hbusy : t.busy = false := by simpa using hb
      have hperm := (Jobs.flatten_set_perm hj).append_left (d.jobs.batchJobs ++ d.jobs.replyJobs)
      have hlog := hh.1.log_assignTagged ht hbusy (·.loadBatchJob job false (i + 1))
      rw [RunInfo.task_loadBatchJob] at hlog
      refine h.startJob ⟨_, _, _, List.length_set .., rfl⟩ ?_
        (hh.1.free_of_not_busy ht hbusy).1 hlog
      simpa [Jobs.queued] using hperm.trans List.perm_middle
  · exact h

theorem Batches.execute (h : d.Batches) (hh : d.HandOff) {r : JobResult R}
    (he : d.execute w r = some d') : d'.Batches := by
  obtain ⟨run, pool, jobs, hrun, hp, rfl, hjobs⟩ := execute_eq_some he
  obtain ⟨run', run₁, hr, hr₁, rfl⟩ := Pool.execute_eq_some hp
  obtain rfl := Option.some.inj (hrun.symm.trans hr)
  obtain ⟨hs, -, -⟩ := hh.1.loaded_of_execute hr hr₁
  have hlog : ((d.pool.setRun w run₁).record (.executed w run₁.task)).log =
      d.pool.log ++ [.executed w run.task] := by
    rw [← RunInfo.task_of_execute hr₁, ← Pool.log_modifyRun d.pool w fun _ => run₁]
    rfl
  have hstage := Pool.stage_eq_update hlog hs (if_pos rfl)
  have hheld := Pool.held_of_stage_update hstage hs (by rcases run.task with _ | ⟨_⟩ | _ <;> rfl)
  have hunrun : ((d.pool.setRun w run₁).record (.executed w run₁.task)).unrun =
      Function.update d.pool.unrun w none := Pool.unrun_eq_update hstage
  have hw := Pool.unrun_of_stage hs
  rw [Batches, hheld, hunrun]
  change Jobs.Batches d.cfg.taggedWorkers jobs _ _
  rw [hjobs]
  rcases htask : run.task with _ | ⟨⟨b, k⟩⟩ | ⟨c, n⟩
  · rw [htask] at hw
    rw [Function.update_eq_self_iff.mpr hw.symm]
    exact h
  · rw [htask] at hw
    replace hw : d.pool.unrun w = some (b, k) := hw
    have hl := Jobs.Batches.unrun_le h b k (.inr ⟨w, hw⟩)
    obtain ⟨batch, hb⟩ := Jobs.Batches.exists_batch h hl
    obtain ⟨s, hat⟩ := Jobs.Batches.views h b batch hb
    by_cases hk : k = -1
    · subst hk
      exact Jobs.Batches.jobCompletion h hw
    · obtain ⟨i, rfl⟩ := hat.exists_nat_of_live hl hk
      simp only [Int.natCast_nonneg, if_true, Int.toNat_natCast]
      exact Jobs.Batches.runJob h hw r
  · rw [htask] at hw
    rw [Function.update_eq_self_iff.mpr hw.symm]
    exact h

theorem Batches.workerRan {run run₁ : RunInfo ι} {t : Thread} {rest : List WorkerReply}
    (h : d.Batches) (hh : d.HandOff) (hr : d.pool.run? w = some run)
    (ht : run.workerThread = some t) (ho : t.outbox = .ran :: rest)
    (hr₁ : run₁ = { run with workerThread := some { t with outbox := rest } })
    (hd : Dispatch.workerRan { d with pool := d.pool.setRun w run₁ } w run₁ = some d') :
    d'.Batches := by
  obtain ⟨hs, -, -⟩ := hh.1.executed_of_ran hr ht ho
  have htask : run.task = run₁.task := by rw [hr₁]; rfl
  have hlog : d'.pool.log = d.pool.log ++ [.ran w run.task] := by
    rw [log_workerRan hd, htask]
    exact congrArg (· ++ _) (Pool.log_modifyRun d.pool w _)
  have hstage := Pool.stage_eq_update hlog hs (if_pos rfl)
  have hheld := Pool.held_eq_update hstage
  have hunrun := Pool.unrun_of_stage_update hstage hs (by rcases run.task with _ | ⟨_⟩ | _ <;> rfl)
  have hw := Pool.held_of_stage hs
  have hu : d.pool.unrun w = none := Pool.unrun_of_stage hs
  obtain ⟨q, clear, jobs, -, rfl, hcases⟩ := workerRan_eq_some hd
  rw [Batches, hheld, hunrun]
  rcases hcases with ⟨hb, -, rfl⟩ | ⟨hb, b, hto, rfl, rfl⟩
  · have hjob : (Stage.executed run.task).job? = none := by
      rw [htask, RunInfo.task, if_neg (by simp [hb])]
      cases run₁.cat <;> rfl
    rw [hjob] at hw
    change Jobs.Batches _ _ (Function.update d.pool.held w none) _
    rw [Function.update_eq_self_iff.mpr hw.symm]
    exact h
  · have hjob : (Stage.executed run.task).job? = some (b, run₁.batchJobno) := by
      rw [htask, RunInfo.task, if_pos hb, hto]
      rfl
    rw [hjob] at hw
    by_cases hk : run₁.batchJobno = -1
    · rw [hk] at hw ⊢
      exact Jobs.Batches.ranCompletion h hw hu
    · exact Jobs.Batches.ranJob h hk hw hu run₁.isReplyJob

theorem Batches.move (h : d.Batches) (hh : d.HandOff) (hm : Move d d') : d'.Batches := by
  cases hm with
  | submit jobs comp hv => exact Jobs.Batches.submit h hv
  | batch b batch hb hheap => exact Jobs.Batches.proxyBatch h hb hheap
  | addTimer id function squelch thread zmqTimerId hv =>
    exact Jobs.Batches.proxyTimer h id function squelch zmqTimerId hv
  | delTimer id => exact Jobs.Batches.proxyTimerDel h id
  | timer id => exact Jobs.Batches.queueTimerJob h id
  | replyJob f => exact Jobs.Batches.proxyScheduleReplyJob h f
  | quit => exact h.of_log (Pool.log_sendQuit _ _)
  | workerMessage w _ hw =>
    obtain ⟨r, t, rest, hr, ht, ⟨ho, r₁, hr₁, hran⟩ | ⟨-, rfl⟩⟩ := proxyWorkerMessage_eq_some hw
    · exact h.workerRan hh hr ht ho hr₁ hran
    · exact h.of_log (Pool.log_modifyRun d.pool w _)
  | startTagged i _ => exact h.startTagged hh i
  | startBatchJob reply job rest _ _ hj => exact h.startBatchJob hh hj
  | startPending pre p post => exact h.loadPending hh p
  | receive w hs =>
    obtain ⟨r, t, t', -, -, -, rfl⟩ := Pool.stepThread_eq_some hs
    exact h.of_log (Pool.log_modifyRun d.pool w _)
  | sendRan w hs =>
    obtain ⟨r, t, t', -, -, -, rfl⟩ := Pool.stepThread_eq_some hs
    exact h.of_log (Pool.log_modifyRun d.pool w _)
  | execute w r he => exact h.execute hh he
  | _ => exact h

theorem Batches.init [Fintype ι] (cfg : Config ι) : (start cfg : Dispatch ι R).Batches := by
  have hqueued : (start cfg : Dispatch ι R).jobs.queued = [] := by simp [start, Jobs.queued]
  have hlive : ∀ x, ¬ Live (start cfg : Dispatch ι R).jobs.waiting
      (start cfg : Dispatch ι R).pool.held x := by
    rintro x (hmem | ⟨w, hw⟩)
    · rw [Jobs.waiting, hqueued] at hmem
      simp [start] at hmem
    · rw [Pool.held_of_stage rfl] at hw
      cases hw
  refine ⟨⟨by simp [start], by simp [start], by simp [start], by simp [start]⟩, ⟨?_, ?_, ?_⟩, ?_,
    by simp [start], by simp [start], by simp [start], fun b _ => ⟨rfl, by simp [start],
      by simp [start], fun k => hlive _⟩⟩
  · rw [Jobs.waiting, hqueued]
    simp [start]
  · exact fun w t ht => absurd (.inr ⟨w, ht⟩) (hlive t)
  · exact fun w _ t ht => absurd (.inr ⟨w, ht⟩) (hlive t)
  · intro w t ht
    rw [Pool.unrun_of_stage rfl] at ht
    cases ht

theorem batches_of_reachable [Fintype ι] (h : (machine ι R).Reachable d) : d.Batches := by
  refine (reachable_invariant (P := fun d => d.HandOff ∧ d.Batches) ?_ ?_ ?_ h).2
  · exact fun cfg => ⟨HandOff.init cfg, Batches.init cfg⟩
  · exact fun d d' hd hm => ⟨hd.1.move hm, hd.2.move hd.1 hm⟩
  · exact fun d p hd _ _ _ => ⟨hd.1.startCommand p, hd.2.loadPending hd.1 p⟩

/-- A queue or the record of a worker at work refers to the batch. -/
def Refers (d : Dispatch ι R) (b : Nat) : Prop :=
  (∃ k, (b, k) ∈ d.jobs.queued) ∨
    ∃ w r, d.pool.run? w = some r ∧ r.inFlight ≠ 0 ∧ r.toRun = .batch (some b)

theorem Refers.live (h : d.Refers b) (hh : d.HandOff) :
    ∃ k, Live d.jobs.waiting d.pool.held (b, k) := by
  rcases h with ⟨k, hk⟩ | ⟨w, r, hr, hbusy, hto⟩
  · exact ⟨k, .inl (List.mem_append_right _ hk)⟩
  · obtain ⟨s, hs, hin⟩ := hh.1.worker w r hr
    have hne : s ≠ .free := by
      rw [hin.inFlight_eq] at hbusy
      exact mt Stage.loads_add_executions_eq_zero.mpr hbusy
    have htask : r.task = some (.batch (b, r.batchJobno)) := by
      rw [RunInfo.task, if_pos (hin.batch hne (.inr ⟨_, hto⟩)), hto]
    refine ⟨r.batchJobno, .inr ⟨w, ?_⟩⟩
    rw [Pool.held_of_stage hs]
    cases s with
    | free => exact absurd rfl hne
    | loaded t =>
      rw [← hin.task t (.inl rfl), htask]
      rfl
    | executed t =>
      rw [← hin.task t (.inr rfl), htask]
      rfl

/-- Once the proxy has a batch, its jobs are where they can be seen. -/
theorem refers_of_live (hh : d.HandOff) (hs : b ∉ d.jobs.submitted) {k : Int}
    (hl : Live d.jobs.waiting d.pool.held (b, k)) : d.Refers b := by
  rcases hl with hmem | ⟨w, hw⟩
  · rcases List.mem_append.mp hmem with hmem | hmem
    · obtain ⟨b', hb', hjob⟩ := List.mem_flatMap.mp hmem
      obtain ⟨i, -, he⟩ := List.mem_map.mp hjob
      obtain rfl : b' = b := congrArg Prod.fst he
      exact absurd hb' hs
    · exact .inl ⟨k, hmem⟩
  · have hfree : d.pool.stage w ≠ some .free := by
      intro hfree
      rw [Pool.held_of_stage hfree] at hw
      cases hw
    rcases hr : d.pool.run? w with _ | r
    · exact absurd (hh.1.unborn w hr) hfree
    · obtain ⟨s, hst, hin⟩ := hh.1.worker w r hr
      rw [Pool.held_of_stage hst] at hw
      have hbusy : r.inFlight ≠ 0 := by
        rw [hin.inFlight_eq]
        refine mt Stage.loads_add_executions_eq_zero.mp ?_
        rintro rfl
        exact hfree hst
      have htask : r.task = some (.batch (b, k)) := by
        rcases s with _ | t | t
        · cases hw
        · rw [hin.task t (.inl rfl)]
          rcases t with _ | ⟨job⟩ | _ <;> simp [Stage.job?] at hw
          rw [hw]
        · rw [hin.task t (.inr rfl)]
          rcases t with _ | ⟨job⟩ | _ <;> simp [Stage.job?] at hw
          rw [hw]
      exact .inr ⟨w, r, hr, hbusy, RunInfo.toRun_of_task htask⟩

end Dispatch

/-- The life of one batch, in terms of what happened so far and who refers to
it. The results a completion function gets are those of the jobs, in order. -/
structure Dispatch.BatchSafe [DecidableEq ι] (d : Dispatch ι R) (b : Nat) (batch : Batch R) :
    Prop where
  executed : ∀ i, d.jobs.log.countP (fun e => e.isExecuted i && e.batch = b) ≤ 1
  scheduled : d.jobs.log.countP (fun e => e.isScheduled && e.batch = b) ≤ 1
  completed : d.jobs.log.countP (fun e => e.isCompleted && e.batch = b) ≤ 1
  afterJobs : ∀ pre e post, d.jobs.log = pre ++ e :: post → e.batch = b →
    e.isScheduled ∨ e.isCompleted ∨ e.isDeleted →
      ∀ i < batch.jobs.length, ∃ r, .executed b i r ∈ pre
  results : ∀ rs, .completed b rs ∈ d.jobs.log → rs.length = batch.jobs.length ∧
    ∀ i < batch.jobs.length, ∃ r, rs[i]? = some (some r) ∧ .executed b i r ∈ d.jobs.log
  deleted : d.jobs.log.countP (fun e => e.isDeleted && e.batch = b) ≤ 1
  unreferenced : .deleted b ∈ d.jobs.log → ¬ d.Refers b ∧ b ∉ d.jobs.batches
  reclaimed : b ∉ d.jobs.submitted → ¬ d.Refers b → .deleted b ∈ d.jobs.log

theorem Dispatch.batchSafe [DecidableEq ι] [Fintype ι] {d : Dispatch ι R} {b : Nat}
    {batch : Batch R} (h : (Dispatch.machine ι R).Reachable d) (hb : d.jobs.heap[b]? = some batch) :
    d.BatchSafe b batch := by
  have hh := handOff_of_reachable h
  have hbatches := batches_of_reachable h
  obtain ⟨s, hat⟩ := Jobs.Batches.views hbatches b batch hb
  have hfacts : Life.Facts batch.jobs.length (d.jobs.history b) s := hat.lived.facts
  have hdeleted : s.phase = .deleted ↔ .deleted b ∈ d.jobs.log := by
    rw [hfacts.mem_deleted]
    refine ⟨?_, fun hmem => ⟨_, Jobs.mem_history.mpr ⟨hmem, rfl⟩, rfl⟩⟩
    rintro ⟨e, hmem, he⟩
    obtain ⟨hlog, heb⟩ := Jobs.mem_history.mp hmem
    cases e <;> simp [JobEvent.isDeleted] at he
    exact heb ▸ hlog
  refine ⟨?_, ?_, ?_, ?_, ?_, ?_, ?_, ?_⟩
  · intro i
    rw [← Jobs.countP_history, hfacts.executed i]
    split <;> simp
  · rw [← Jobs.countP_history]
    exact hfacts.scheduled.trans (by split <;> simp)
  · rw [← Jobs.countP_history]
    exact hfacts.completed.trans (by split <;> simp)
  · intro pre e post hlog he hkind i hi
    have hhist : d.jobs.history b = pre.filter (·.batch = b) ++ e :: post.filter (·.batch = b) := by
      rw [Jobs.history, hlog, List.filter_append, List.filter_cons_of_pos (by simpa using he)]
    have hlived : Life.Lived batch.complete.isSome batch.jobs.length (d.jobs.history b) s :=
      hat.lived
    rw [hhist] at hlived
    have hnot : ∀ i, e.isExecuted i = false := by
      cases e <;> simp [JobEvent.isScheduled, JobEvent.isCompleted, JobEvent.isDeleted] at hkind <;>
        exact fun _ => rfl
    obtain ⟨b', r, hmem⟩ := hlived.returned_before hnot hi
    obtain ⟨hpre, hb'⟩ := List.mem_filter.mp hmem
    exact ⟨r, of_decide_eq_true hb' ▸ hpre⟩
  · intro rs hmem
    obtain ⟨hp, rfl⟩ := hfacts.passed b rs (Jobs.mem_history.mpr ⟨hmem, rfl⟩)
    refine ⟨hfacts.length, ?_⟩
    intro i hi
    have hlt : i < s.results.length := by rwa [hfacts.length]
    obtain ⟨r, hr⟩ := Option.isSome_iff_exists.mp (hfacts.allReturned hp _ (List.getElem_mem hlt))
    have hri : s.results[i]? = some (some r) := by rw [List.getElem?_eq_getElem hlt, hr]
    obtain ⟨b', hex⟩ := hfacts.returned i r hri
    obtain ⟨hlog, hb'⟩ := Jobs.mem_history.mp hex
    exact ⟨r, hri, hb' ▸ hlog⟩
  · rw [← Jobs.countP_history, hfacts.deleted]
    split <;> simp
  · intro hmem
    have hp := hdeleted.mpr hmem
    refine ⟨?_, fun hown => (hat.owned.mp hown).1 hp⟩
    intro href
    obtain ⟨k, hk⟩ := href.live hh
    exact hat.deleted hp k hk
  · intro hs hnot
    exact hdeleted.mp (hat.deleted_of_not_live fun k hk => hnot (refers_of_live hh hs hk))

/-- Two jobs on two workers, the tagged one finishing last. -/
def Dispatch.twoJobs : List (DispatchEvent Unit Unit) :=
  [.submit [(.user 0, 0), (.user 1, 1)] none, .batch 0, .next, .next, .next, .next, .next,
    .execute (.general 0) (.value ()), .receive (.tagged 0), .receive (.tagged 0),
    .sendRan (.general 0), .next, .next, .workerMessage (.general 0), .next, .next, .next,
    .next, .next, .execute (.tagged 0) (.value ()), .sendRan (.tagged 0), .next,
    .workerMessage (.tagged 0)]

theorem Dispatch.batchSafe_after_two_jobs : ∃ d batch, (Dispatch.machine Unit Unit).Reachable d ∧
    d.jobs.heap[0]? = some batch ∧ batch.jobs.length = 2 ∧ .deleted 0 ∈ d.jobs.log ∧
      d.BatchSafe 0 batch := by
  obtain ⟨d, hd, hp⟩ := Dispatch.smallConfig_reachable.exists_of_run Dispatch.twoJobs
    (p := fun d => decide (d.jobs.heap[0]?.any (·.jobs.length = 2) ∧ .deleted 0 ∈ d.jobs.log))
    (by decide +kernel)
  obtain ⟨hlen, hdel⟩ := of_decide_eq_true hp
  obtain ⟨batch, hb, hlen⟩ := (Option.any_eq_true _ _).mp hlen
  exact ⟨d, batch, hd, hb, of_decide_eq_true hlen, hdel, Dispatch.batchSafe hd hb⟩

/-- The general worker has been idle since its own job, but its `run_info` still
has the pointer. -/
theorem Dispatch.stale_pointer_after_delete : ∃ d, (Dispatch.machine Unit Unit).Reachable d ∧
    .deleted 0 ∈ d.jobs.log ∧
      ∃ r, d.pool.run? (.general 0) = some r ∧ r.toRun = .batch (some 0) := by
  obtain ⟨d, hd, hp⟩ := Dispatch.smallConfig_reachable.exists_of_run Dispatch.twoJobs
    (p := fun d => decide (.deleted 0 ∈ d.jobs.log ∧
      (d.pool.run? (.general 0)).map (·.toRun) = some (.batch (some 0)))) (by decide +kernel)
  obtain ⟨hdel, hrun⟩ := of_decide_eq_true hp
  exact ⟨d, hd, hdel, Option.map_eq_some_iff.mp hrun⟩

end ArqmaMQ
