import ArqmaMQ.Dispatch

/-! The scheduler as a machine. `Move` says once what can happen to its state;
everything but starting a command on arrival is a sequence of moves. -/

namespace ArqmaMQ

/-- Threads as the callers can name them: a job runs on a general worker or on
one of the tagged ones, a completion also in the proxy. -/
structure ValidThreads (n : Nat) (jobs : List (Closure × Int)) (comp : Option (Closure × Int)) :
    Prop where
  ne_nil : jobs ≠ []
  jobs : ∀ j ∈ jobs, 0 ≤ j.2 ∧ j.2 ≤ n
  comp : ∀ c ∈ comp, -1 ≤ c.2 ∧ c.2 ≤ n

instance (n : Nat) (jobs : List (Closure × Int)) (comp : Option (Closure × Int)) :
    Decidable (ValidThreads n jobs comp) :=
  decidable_of_iff (jobs ≠ [] ∧ (∀ j ∈ jobs, 0 ≤ j.2 ∧ j.2 ≤ n) ∧
    ∀ c ∈ comp, -1 ≤ c.2 ∧ c.2 ≤ n) ⟨fun h => ⟨h.1, h.2.1, h.2.2⟩, fun h => ⟨h.1, h.2, h.3⟩⟩

inductive DispatchEvent (ι R : Type)
  /-- Some thread calls `batch()` or `job()`. -/
  | submit (jobs : List (Closure × Int)) (comp : Option (Closure × Int))
  | batch (b : Nat)
  | inject (p : PendingCommand ι)
  | addTimer (id : Int) (function : Closure) (squelch : Bool) (thread : Int) (zmqTimerId : Nat)
  | delTimer (id : Int)
  | quit
  | workerMessage (w : WorkerRef)
  | timer (id : Nat)
  | command (p : PendingCommand ι)
  | replyJob (f : Closure)
  /-- `proxy_loop` goes on to its next part. -/
  | next
  | receive (w : WorkerRef)
  | execute (w : WorkerRef) (r : JobResult R)
  | sendRan (w : WorkerRef)
  deriving DecidableEq, Repr

namespace Dispatch

variable {ι R : Type} [DecidableEq ι]

def next (d : Dispatch ι R) : Option (Dispatch ι R) :=
  match d.phase with
  | .control => some { d with phase := .worker }
  | .worker => some { d with phase := .timers }
  | .timers => some { d with phase := .zap }
  | .zap => some { d with phase := .queue }
  | .queue => some { d.proxyProcessQueue with phase := .incoming }
  | .incoming =>
    if d.maxWorkers = 0 ∧ d.joinable = false then some { d with phase := .stopped }
    else some { d with phase := .control, proxySkipOnePoll := false }
  | .stopped => none

def step (d : Dispatch ι R) : DispatchEvent ι R → Option (Dispatch ι R)
  | .submit jobs comp =>
    if ValidThreads d.cfg.taggedWorkers jobs comp then
      some { d with jobs := d.jobs.submit jobs comp }
    else none
  | .batch b =>
    if d.phase = .control ∧ b ∈ d.jobs.submitted then
      d.jobs.heap[b]?.map fun batch =>
        { d with jobs := d.jobs.proxyBatch b batch, proxySkipOnePoll := true }
    else none
  | .inject p => if d.phase = .control then some (d.proxyCommand p) else none
  | .addTimer id function squelch thread zmqTimerId =>
    if d.phase = .control ∧ -1 ≤ thread ∧ thread ≤ d.cfg.taggedWorkers then
      some { d with jobs := d.jobs.proxyTimer id function squelch thread zmqTimerId }
    else none
  | .delTimer id =>
    if d.phase = .control then some { d with jobs := d.jobs.proxyTimerDel id } else none
  | .quit => if d.phase = .control then some d.quit else none
  | .workerMessage w => if d.phase = .worker then d.proxyWorkerMessage w else none
  | .timer id =>
    if d.phase = .timers ∧ id ∈ d.jobs.timers then
      some { d with jobs := d.jobs.queueTimerJob id }
    else none
  | .command p => if d.phase = .incoming then some (d.proxyCommand p) else none
  | .replyJob f =>
    if d.phase = .control ∨ d.phase = .timers ∨ d.phase = .incoming then
      some { d with jobs := d.jobs.proxyScheduleReplyJob f, proxySkipOnePoll := true }
    else none
  | .next => d.next
  | .receive w => (d.pool.receive w).map fun pool => { d with pool }
  | .execute w r => d.execute w r
  | .sendRan w => (d.pool.sendRan w).map fun pool => { d with pool }

/-- How `proxy_process_queue` leaves the pending commands: it passed over those
without a slot, and stopped early only with every worker in use. -/
def Drained (d : Dispatch ι R) : Prop :=
  ∃ pre post, d.pendingCommands = pre ++ post ∧ (∀ q ∈ pre, ¬ d.HasSlot (.category q.cat)) ∧
    (post = [] ∨ d.maxWorkers ≤ d.pool.activeWorkers)

inductive Move : Dispatch ι R → Dispatch ι R → Prop
  | submit {d} (jobs comp) (h : ValidThreads d.cfg.taggedWorkers jobs comp) :
    Move d { d with jobs := d.jobs.submit jobs comp }
  | batch {d} (b batch) (hb : b ∈ d.jobs.submitted) (hh : d.jobs.heap[b]? = some batch) :
    Move d { d with jobs := d.jobs.proxyBatch b batch }
  | addTimer {d} (id function squelch) (thread : Int) (zmqTimerId)
    (h : -1 ≤ thread ∧ thread ≤ d.cfg.taggedWorkers) :
    Move d { d with jobs := d.jobs.proxyTimer id function squelch thread zmqTimerId }
  | delTimer {d} (id) : Move d { d with jobs := d.jobs.proxyTimerDel id }
  | timer {d} (id) : Move d { d with jobs := d.jobs.queueTimerJob id }
  | replyJob {d} (f) : Move d { d with jobs := d.jobs.proxyScheduleReplyJob f }
  | skipPoll {d} (b) : Move d { d with proxySkipOnePoll := b }
  | quit {d} : Move d d.quit
  | workerMessage {d d'} (w) (hp : d.phase = .worker) (h : d.proxyWorkerMessage w = some d') :
    Move d d'
  | queueCommand {d} (p) (hs : p.serial = d.accepted.length)
    (hslot : ¬ d.HasSlot (.category p.cat)) : Move d (d.queueCommand p)
  | startTagged {d} (i) (hq : d.maxWorkers ≠ 0) : Move d (d.startTagged i)
  | startBatchJob {d} (reply job rest) (hp : d.phase = .queue) (hq : d.maxWorkers ≠ 0)
    (hj : d.batchQueue reply = job :: rest) (hslot : d.HasSlot (batchClass ι reply)) :
    Move d (d.startBatchJob reply job rest)
  | startPending {d} (pre p post) (hp : d.phase = .queue) (hq : d.maxWorkers ≠ 0)
    (hc : d.pendingCommands = pre ++ p :: post) (hslot : d.HasSlot (.category p.cat))
    (hpre : ∀ q ∈ pre, ¬ d.HasSlot (.category q.cat)) : Move d (d.startPending pre p post)
  | toPhase {d} (p) (hc : p ≠ .control) (hi : p ≠ .incoming) : Move d { d with phase := p }
  | toControl {d} (hp : d.phase = .incoming) : Move d { d with phase := .control }
  | toIncoming {d} (h : d.maxWorkers ≠ 0 → d.Drained) : Move d { d with phase := .incoming }
  | receive {d pool} (w) (h : d.pool.receive w = some pool) : Move d { d with pool }
  | execute {d d'} (w r) (h : d.execute w r = some d') : Move d d'
  | sendRan {d pool} (w) (h : d.pool.sendRan w = some pool) : Move d { d with pool }

omit [DecidableEq ι] in
/-- A thread running its job changes the batch the job belongs to, if any. -/
theorem execute_eq_some {d d' : Dispatch ι R} {w : WorkerRef} {r : JobResult R}
    (h : d.execute w r = some d') : ∃ run pool jobs, d.pool.run? w = some run ∧
      d.pool.execute w r.threw = some pool ∧ d' = { d with pool, jobs } ∧
      jobs = match run.task with
        | some (.batch (b, i)) =>
          if 0 ≤ i then d.jobs.runJob b i.toNat r
          else if i = -1 then d.jobs.jobCompletion b else d.jobs
        | _ => d.jobs := by
  simp only [execute, Option.bind_eq_bind, Option.bind_eq_some_iff] at h
  obtain ⟨run, hrun, pool, hp, h⟩ := h
  refine ⟨run, pool, _, hrun, hp, ?_, rfl⟩
  rcases hb : run.isBatchJob
  · obtain rfl : _ = d' := by simpa [hb] using h
    rcases hc : run.cat with _ | c <;> simp [RunInfo.task, hb, hc]
  · rcases ht : run.toRun with c | b | f
    · obtain rfl : _ = d' := by simpa [hb, ht] using h
      simp [RunInfo.task, hb, ht]
    · rcases b with _ | b
      · obtain rfl : _ = d' := by simpa [hb, ht] using h
        simp [RunInfo.task, hb, ht]
      · simp only [hb, ht] at h
        simp only [RunInfo.task, hb, ht, if_true]
        split at h
        · rename_i h0
          rw [if_pos h0]
          exact (Option.some.inj h).symm
        · rename_i h0
          rw [if_neg h0]
          split at h
          · rename_i h1
            rw [if_pos h1]
            exact (Option.some.inj h).symm
          · rename_i h1
            rw [if_neg h1]
            exact (Option.some.inj h).symm
    · obtain rfl : _ = d' := by simpa [hb, ht] using h
      simp [RunInfo.task, hb, ht]

abbrev Moves : Dispatch ι R → Dispatch ι R → Prop := Relation.ReflTransGen Move

theorem finishActive_eq_some {p q : Pool ι} {w : WorkerRef} {r : RunInfo ι}
    (h : finishActive p w r = some q) :
    (∃ i, w = .tagged i ∧ r.isBatchJob = true ∧ q = p.setBusy i false) ∨
      ∃ k, r.jobClass = some k ∧ q = decActive p k ∧
        (r.isBatchJob = true → ∃ i, w = .general i) := by
  unfold finishActive at h
  by_cases hb : r.isBatchJob = true
  · simp only [hb, if_true] at h
    cases w with
    | tagged i => exact .inl ⟨i, rfl, hb, (Option.some.inj h).symm⟩
    | general i =>
      refine .inr ⟨batchClass ι r.isReplyJob, ?_, (Option.some.inj h).symm, fun _ => ⟨i, rfl⟩⟩
      simp [RunInfo.jobClass, hb, batchClass]
  · simp only [hb, if_false, Bool.false_eq_true] at h
    obtain ⟨c, hc, rfl⟩ := Option.map_eq_some_iff.mp h
    exact .inr ⟨.category c, by simp [RunInfo.jobClass, hb, hc], rfl, fun h => absurd h hb⟩

/-- What RAN does, given the record it finds. -/
theorem workerRan_eq_some {d d' : Dispatch ι R} {w : WorkerRef} {r : RunInfo ι}
    (h : d.workerRan w r = some d') : ∃ (q : Pool ι) (clear : Bool) (jobs : Jobs R),
      finishActive d.pool w r = some q ∧
      d' = { d with
        pool := (if clear then (q.record (.ran w r.task)).clearToRun w
          else q.record (.ran w r.task)).release (d.maxWorkers = 0) w
        jobs } ∧
      (r.isBatchJob = false ∧ clear = false ∧ jobs = d.jobs ∨
        r.isBatchJob = true ∧ ∃ b, r.toRun = .batch (some b) ∧
          clear = (d.jobs.jobRan (b, r.batchJobno) r.isReplyJob).2 ∧
          jobs = if clear then (d.jobs.jobRan (b, r.batchJobno) r.isReplyJob).1.clear b
            else (d.jobs.jobRan (b, r.batchJobno) r.isReplyJob).1) := by
  simp only [workerRan, Option.bind_eq_bind, Option.bind_eq_some_iff] at h
  obtain ⟨q, hq, h⟩ := h
  by_cases hb : r.isBatchJob = true
  · simp only [hb, if_true] at h
    split at h
    · rename_i b hto
      obtain rfl := Option.some.inj h
      rcases hj : d.jobs.jobRan (b, r.batchJobno) r.isReplyJob with ⟨jobs, clear⟩
      refine ⟨q, clear, if clear then jobs.clear b else jobs, hq, ?_,
        .inr ⟨hb, b, hto, by rw [hj], by rw [hj]⟩⟩
      cases clear <;> simp [finishBatch, releaseWorker, hj]
    · cases h
  · simp only [hb, if_false, Bool.false_eq_true] at h
    obtain rfl := Option.some.inj h
    exact ⟨q, false, d.jobs, hq, rfl, .inl ⟨by simpa using hb, rfl, rfl⟩⟩

/-- The proxy reads the oldest message of a worker: RAN, or QUITTING after
which it joins the thread. -/
theorem proxyWorkerMessage_eq_some {d d' : Dispatch ι R} {w : WorkerRef}
    (h : d.proxyWorkerMessage w = some d') : ∃ r t rest, d.pool.run? w = some r ∧
      r.workerThread = some t ∧
      ((t.outbox = .ran :: rest ∧
        ∃ r₁, r₁ = { r with workerThread := some { t with outbox := rest } } ∧
          workerRan { d with pool := d.pool.setRun w r₁ } w r₁ = some d') ∨
      (t.outbox = .quitting :: rest ∧
        d' = { d with pool := d.pool.setRun w { r with workerThread := none } })) := by
  simp only [proxyWorkerMessage, takeReply, Option.bind_eq_bind, Option.bind_eq_some_iff] at h
  obtain ⟨⟨m, pool⟩, ⟨r, hr, t, ht, hm⟩, r₁, hr₁, h⟩ := h
  rcases ho : t.outbox with _ | ⟨m', rest⟩
  · simp [ho] at hm
  · obtain ⟨rfl, rfl⟩ : m' = m ∧ _ = pool := by simpa [ho] using hm
    rw [Pool.modifyRun_eq_setRun hr] at hr₁ h
    obtain rfl : _ = r₁ := by simpa [Pool.run?_setRun hr] using hr₁
    refine ⟨r, t, rest, hr, ht, ?_⟩
    cases m' with
    | ran => exact .inl ⟨ho, _, rfl, h⟩
    | quitting =>
      rw [Pool.modifyRun_setRun] at h
      exact .inr ⟨ho, (Option.some.inj h).symm⟩

theorem workerMessage_frame {d d' : Dispatch ι R} {w : WorkerRef}
    (h : d.proxyWorkerMessage w = some d') : ∃ pool jobs, d' = { d with pool, jobs } := by
  obtain ⟨r, t, rest, -, -, ⟨-, r₁, -, hran⟩ | ⟨-, rfl⟩⟩ := proxyWorkerMessage_eq_some h
  · obtain ⟨q, clear, jobs, -, rfl, -⟩ := workerRan_eq_some hran
    exact ⟨_, jobs, rfl⟩
  · exact ⟨_, d.jobs, rfl⟩

omit [DecidableEq ι] in
theorem startTagged_frame (d : Dispatch ι R) (i : Nat) :
    (d.startTagged i).maxWorkers = d.maxWorkers ∧ (d.startTagged i).phase = d.phase ∧
      (d.startTagged i).pendingCommands = d.pendingCommands ∧
      (d.startTagged i).accepted = d.accepted := by
  unfold startTagged
  split
  · split <;> exact ⟨rfl, rfl, rfl, rfl⟩
  · exact ⟨rfl, rfl, rfl, rfl⟩

/-- `proxy_process_queue` serves one job or command after the other. -/
inductive Serve : Dispatch ι R → Dispatch ι R → Prop
  | tagged {d} (i) (hq : d.maxWorkers ≠ 0) : Serve d (d.startTagged i)
  | batchJob {d} (reply job rest) (hp : d.phase = .queue) (hq : d.maxWorkers ≠ 0)
    (hj : d.batchQueue reply = job :: rest) (hslot : d.HasSlot (batchClass ι reply)) :
    Serve d (d.startBatchJob reply job rest)
  | pending {d} (pre p post) (hp : d.phase = .queue) (hq : d.maxWorkers ≠ 0)
    (hc : d.pendingCommands = pre ++ p :: post) (hslot : d.HasSlot (.category p.cat))
    (hpre : ∀ q ∈ pre, ¬ d.HasSlot (.category q.cat)) : Serve d (d.startPending pre p post)

abbrev Serves : Dispatch ι R → Dispatch ι R → Prop := Relation.ReflTransGen Serve

theorem Serve.move {d d' : Dispatch ι R} (h : Serve d d') : Move d d' := by
  cases h with
  | tagged i hq => exact .startTagged i hq
  | batchJob reply job rest hp hq hj hslot => exact .startBatchJob reply job rest hp hq hj hslot
  | pending pre p post hp hq hc hslot hpre => exact .startPending pre p post hp hq hc hslot hpre

theorem Serve.frame {d d' : Dispatch ι R} (h : Serve d d') :
    d'.maxWorkers = d.maxWorkers ∧ d'.phase = d.phase := by
  cases h with
  | tagged i =>
    obtain ⟨hm, hp, -⟩ := startTagged_frame d i
    exact ⟨hm, hp⟩
  | _ => exact ⟨rfl, rfl⟩

/-- What the parts of `proxy_process_queue` have in common: they consist of
moves inside the queue phase. -/
def Progress (d d' : Dispatch ι R) : Prop :=
  Moves d d' ∧ d'.maxWorkers = d.maxWorkers ∧ d'.phase = d.phase

theorem progress_of_serves {d d' : Dispatch ι R} (h : Serves d d') : Progress d d' := by
  induction h with
  | refl => exact ⟨.refl, rfl, rfl⟩
  | tail _ hs ih =>
    obtain ⟨hm, hp⟩ := hs.frame
    exact ⟨ih.1.tail hs.move, hm.trans ih.2.1, hp.trans ih.2.2⟩

theorem runTagged_serves {d : Dispatch ι R} (hq : d.maxWorkers ≠ 0) : Serves d d.runTagged := by
  unfold runTagged
  generalize List.range d.pool.taggedWorkers.length = is
  induction is generalizing d with
  | nil => exact .refl
  | cons i is ih =>
    have hm := (startTagged_frame d i).1
    exact .head (.tagged i hq) (ih (by rwa [hm]))

theorem batchQueue_startBatchJob (d : Dispatch ι R) (reply : Bool) (job : BatchJob)
    (rest : List BatchJob) : (d.startBatchJob reply job rest).batchQueue reply = rest := by
  cases reply <;> rfl

theorem proxyRunBatchJobs_serves (reply : Bool) {jobs : List BatchJob} {d : Dispatch ι R}
    (hp : d.phase = .queue) (hq : d.maxWorkers ≠ 0) (hj : d.batchQueue reply = jobs) :
    Serves d (proxyRunBatchJobs reply jobs d) := by
  induction jobs generalizing d with
  | nil => exact .refl
  | cons job rest ih =>
    rw [proxyRunBatchJobs]
    split
    · rename_i hc
      exact .head (.batchJob reply job rest hp hq hj hc.2)
        (ih hp hq (batchQueue_startBatchJob d reply job rest))
    · exact .refl

/-- Starting a job never makes room for another. -/
theorem HasSlot.of_assign {d d' : Dispatch ι R} {k₀ k : JobClass ι} {f : RunInfo ι → RunInfo ι}
    (h : d'.HasSlot k) (hp : d'.pool = d.pool.assign k₀ f) (hc : d'.cfg = d.cfg) :
    d.HasSlot k := by
  have hle := d.pool.activeWorkers_le_assign k₀ f
  rw [HasSlot, hp, hc, Pool.assign_active] at h
  rcases h with h | h
  · left
    by_cases hk : k = k₀
    · subst hk
      rw [Function.update_self] at h
      omega
    · rwa [Function.update_of_ne hk] at h
  · exact .inr (lt_of_le_of_lt hle h)

theorem runPending_serves {pre post : List (PendingCommand ι)} {d : Dispatch ι R}
    (hp : d.phase = .queue) (hq : d.maxWorkers ≠ 0) (hc : d.pendingCommands = pre ++ post)
    (hpre : ∀ q ∈ pre, ¬ d.HasSlot (.category q.cat)) :
    Serves d (runPending pre post d) ∧ (runPending pre post d).Drained := by
  induction post generalizing d pre with
  | nil => exact ⟨.refl, pre, [], hc, hpre, .inl rfl⟩
  | cons p post ih =>
    rw [runPending]
    split
    · split
      · rename_i hslot
        obtain ⟨h, hd⟩ := ih (d := d.startPending pre p post) hp hq rfl
          (fun q hmem h => hpre q hmem (h.of_assign rfl rfl))
        exact ⟨.head (.pending pre p post hp hq hc hslot hpre) h, hd⟩
      · rename_i hslot
        refine ih hp hq (by simpa using hc) ?_
        intro q hmem
        rcases List.mem_append.mp hmem with hmem | hmem
        · exact hpre q hmem
        · rwa [List.mem_singleton.mp hmem]
    · rename_i hfull
      exact ⟨.refl, pre, p :: post, hc, hpre, .inr (Nat.not_lt.mp hfull)⟩

theorem proxyProcessQueue_serves {d : Dispatch ι R} (hp : d.phase = .queue) :
    Serves d d.proxyProcessQueue ∧ (d.maxWorkers ≠ 0 → d.proxyProcessQueue.Drained) := by
  unfold proxyProcessQueue
  split
  · rename_i hq
    exact ⟨.refl, fun h => absurd hq h⟩
  · rename_i hq
    have h₁ := runTagged_serves hq
    obtain ⟨-, hw₁, hp₁⟩ := progress_of_serves h₁
    have h₂ := h₁.trans (proxyRunBatchJobs_serves false (hp₁.trans hp) (by rwa [hw₁]) rfl)
    obtain ⟨-, hw₂, hp₂⟩ := progress_of_serves h₂
    have h₃ := h₂.trans (proxyRunBatchJobs_serves true (hp₂.trans hp) (by rwa [hw₂]) rfl)
    obtain ⟨-, hw₃, hp₃⟩ := progress_of_serves h₃
    obtain ⟨h₄, hd⟩ := runPending_serves (hp₃.trans hp) (by rwa [hw₃]) (List.nil_append _).symm
      (by simp)
    exact ⟨h₃.trans h₄, fun _ => hd⟩

theorem proxyProcessQueue_progress {d : Dispatch ι R} (hp : d.phase = .queue) :
    Progress d d.proxyProcessQueue ∧ (d.maxWorkers ≠ 0 → d.proxyProcessQueue.Drained) := by
  obtain ⟨hs, hd⟩ := proxyProcessQueue_serves hp
  exact ⟨progress_of_serves hs, hd⟩

/-- The next part of the loop is the queue's, or only the phase changes. -/
theorem next_cases {d d' : Dispatch ι R} (h : d.next = some d') :
    (∃ e, Serves d e ∧ (e.maxWorkers ≠ 0 → e.Drained) ∧ d' = { e with phase := .incoming }) ∨
      (d.phase = .incoming ∧ d' = { d with phase := .control, proxySkipOnePoll := false }) ∨
      ∃ p, p ≠ .control ∧ p ≠ .incoming ∧ d' = { d with phase := p } := by
  unfold next at h
  split at h
  case h_5 hp =>
    obtain rfl := Option.some.inj h
    obtain ⟨hs, hd⟩ := proxyProcessQueue_serves hp
    have hw := (progress_of_serves hs).2.1
    exact .inl ⟨_, hs, fun hq => hd (by rwa [hw] at hq), rfl⟩
  case h_6 hp =>
    split at h
    · exact .inr (.inr ⟨_, by simp, by simp, (Option.some.inj h).symm⟩)
    · exact .inr (.inl ⟨hp, (Option.some.inj h).symm⟩)
  case h_7 => cases h
  all_goals exact .inr (.inr ⟨_, by simp, by simp, (Option.some.inj h).symm⟩)

/-- What serving keeps, and the phase does not matter to, the loop keeps. -/
theorem next_invariant {P : Dispatch ι R → Prop} (hserve : ∀ d d', Serve d d' → P d → P d')
    (hphase : ∀ d p skip, P d → P { d with phase := p, proxySkipOnePoll := skip })
    {d d' : Dispatch ι R} (h : d.next = some d') (hd : P d) : P d' := by
  rcases next_cases h with ⟨e, hs, -, rfl⟩ | ⟨-, rfl⟩ | ⟨p, -, -, rfl⟩
  · have he : P e := Transition.reflTransGen_invariant hserve hs hd
    exact hphase e _ e.proxySkipOnePoll he
  · exact hphase d _ _ hd
  · exact hphase d p d.proxySkipOnePoll hd

theorem next_moves {d d' : Dispatch ι R} (h : d.next = some d') : Moves d d' := by
  rcases next_cases h with ⟨e, hs, hd, rfl⟩ | ⟨hp, rfl⟩ | ⟨p, hc, hi, rfl⟩
  · exact (progress_of_serves hs).1.tail (.toIncoming hd)
  · exact .tail (.single (.toControl hp)) (.skipPoll false)
  · exact .single (.toPhase p hc hi)

/-- A new command is started on arrival, or handled by moves. -/
theorem proxyCommand_cases (d : Dispatch ι R) (p : PendingCommand ι) :
    (d.HasSlot (.category p.cat) ∧
      d.proxyCommand p = d.startCommand { p with serial := d.accepted.length }) ∨
      Moves d (d.proxyCommand p) := by
  unfold proxyCommand
  by_cases hslot : d.HasSlot (.category p.cat)
  · exact .inl ⟨hslot, if_pos hslot⟩
  · right
    rw [if_neg hslot]
    split
    · exact .refl
    · exact .single (.queueCommand _ rfl hslot)

theorem step_cases {d d' : Dispatch ι R} {e : DispatchEvent ι R} (h : d.step e = some d') :
    Moves d d' ∨ ∃ p, (e = .inject p ∧ d.phase = .control ∨ e = .command p ∧ d.phase = .incoming) ∧
      d.HasSlot (.category p.cat) ∧ d' = d.startCommand { p with serial := d.accepted.length } := by
  cases e with
  | inject p =>
    obtain ⟨hp, rfl⟩ : d.phase = .control ∧ d.proxyCommand p = d' := by simpa [step] using h
    rcases d.proxyCommand_cases p with ⟨hslot, he⟩ | hm
    · exact .inr ⟨p, .inl ⟨rfl, hp⟩, hslot, he⟩
    · exact .inl hm
  | command p =>
    obtain ⟨hp, rfl⟩ : d.phase = .incoming ∧ d.proxyCommand p = d' := by simpa [step] using h
    rcases d.proxyCommand_cases p with ⟨hslot, he⟩ | hm
    · exact .inr ⟨p, .inr ⟨rfl, hp⟩, hslot, he⟩
    · exact .inl hm
  | submit jobs comp =>
    obtain ⟨hv, rfl⟩ : _ ∧ _ = d' := by simpa [step] using h
    exact .inl (.single (.submit jobs comp hv))
  | batch b =>
    simp only [step] at h
    split at h
    · rename_i hb
      obtain ⟨batch, hh, rfl⟩ := Option.map_eq_some_iff.mp h
      exact .inl (.tail (.single (.batch b batch hb.2 hh)) (.skipPoll true))
    · cases h
  | addTimer id function squelch thread zmqTimerId =>
    obtain ⟨⟨_, hv⟩, rfl⟩ : _ ∧ _ = d' := by simpa [step] using h
    exact .inl (.single (.addTimer id function squelch thread zmqTimerId hv))
  | delTimer id =>
    obtain ⟨_, rfl⟩ : _ ∧ _ = d' := by simpa [step] using h
    exact .inl (.single (.delTimer id))
  | quit =>
    obtain ⟨_, rfl⟩ : _ ∧ _ = d' := by simpa [step] using h
    exact .inl (.single .quit)
  | workerMessage w =>
    obtain ⟨hp, hw⟩ : d.phase = .worker ∧ d.proxyWorkerMessage w = some d' := by
      simpa [step] using h
    exact .inl (.single (.workerMessage w hp hw))
  | timer id =>
    obtain ⟨_, rfl⟩ : _ ∧ _ = d' := by simpa [step] using h
    exact .inl (.single (.timer id))
  | replyJob f =>
    obtain ⟨_, rfl⟩ : _ ∧ _ = d' := by simpa [step] using h
    exact .inl (.tail (.single (.replyJob f)) (.skipPoll true))
  | next => exact .inl (next_moves h)
  | receive w =>
    obtain ⟨pool, hr, rfl⟩ := Option.map_eq_some_iff.mp h
    exact .inl (.single (.receive w hr))
  | execute w r => exact .inl (.single (.execute w r h))
  | sendRan w =>
    obtain ⟨pool, hr, rfl⟩ := Option.map_eq_some_iff.mp h
    exact .inl (.single (.sendRan w hr))

theorem Move.cfg_eq {d d' : Dispatch ι R} (h : Move d d') : d'.cfg = d.cfg := by
  cases h with
  | workerMessage w _ hw =>
    obtain ⟨pool, jobs, rfl⟩ := workerMessage_frame hw
    rfl
  | startTagged i _ =>
    unfold Dispatch.startTagged
    split
    · split <;> rfl
    · rfl
  | execute w r he =>
    obtain ⟨_, pool, jobs, -, -, rfl, -⟩ := execute_eq_some he
    rfl
  | _ => rfl

theorem cfg_moves {d d' : Dispatch ι R} (h : Moves d d') : d'.cfg = d.cfg :=
  Transition.reflTransGen_invariant (P := fun e => e.cfg = d.cfg)
    (fun _ _ hm he => hm.cfg_eq.trans he) h rfl

theorem cfg_step {d d' : Dispatch ι R} {e : DispatchEvent ι R} (h : d.step e = some d') :
    d'.cfg = d.cfg := by
  rcases step_cases h with hm | ⟨p, -, -, rfl⟩
  · exact cfg_moves hm
  · rfl

variable [Fintype ι]

/-- The state in which `proxy_loop` enters its first round: the tagged workers
have reported in and been told to start. -/
def start (cfg : Config ι) : Dispatch ι R where
  cfg
  maxWorkers := cfg.capacity
  pool.taggedWorkers := List.replicate cfg.taggedWorkers
    { run.workerThread := some { pc := .waitStart, inbox := [.start] } }
  jobs.taggedQueues := List.replicate cfg.taggedWorkers []

def machine (ι R : Type) [DecidableEq ι] [Fintype ι] :
    Transition.Machine (Dispatch ι R) (DispatchEvent ι R) where
  -- a negative `max_workers` makes `workers.reserve` throw
  Init d := ∃ cfg, 0 ≤ cfg.maxWorkers ∧ d = start cfg
  step := step

/-- What holds at the start and is kept by moves and by commands started on
arrival holds in every reachable state. -/
theorem reachable_invariant {P : Dispatch ι R → Prop} (hinit : ∀ cfg, P (start cfg))
    (hmove : ∀ d d', P d → Move d d' → P d')
    (hstart : ∀ d p, P d → d.phase = .control ∨ d.phase = .incoming →
      d.HasSlot (.category p.cat) → p.serial = d.accepted.length → P (d.startCommand p))
    {d : Dispatch ι R} (h : (machine ι R).Reachable d) : P d := by
  refine h.invariant ?_ ?_
  · rintro d ⟨cfg, -, rfl⟩
    exact hinit cfg
  · intro d e d' hd hs
    rcases step_cases hs with hm | ⟨p, hp, hslot, rfl⟩
    · exact Transition.reflTransGen_invariant (fun s t hst hP => hmove s t hP hst) hm hd
    · exact hstart d _ hd (hp.imp And.right And.right) hslot rfl

/-- One general worker, one reserved for the only category, and a tagged one. -/
def smallConfig : Config Unit where
  generalWorkers := 1
  batchJobsReserved := 0
  replyJobsReserved := 0
  reservedThreads _ := 1
  maxQueue _ := 200
  taggedWorkers := 1
  generalWorkers_pos := Nat.one_pos

theorem smallConfig_reachable : (machine Unit Unit).Reachable (start smallConfig) :=
  .init ⟨_, by decide +kernel, rfl⟩

def smallCommand : PendingCommand Unit where
  cat := ()
  command := []
  callback := .inl ⟨0, false⟩
  remote := []

end Dispatch

end ArqmaMQ
