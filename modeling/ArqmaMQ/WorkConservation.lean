import ArqmaMQ.CommandOrder

/-! `proxy_process_queue` leaves nothing waiting that could be started. -/

namespace ArqmaMQ

variable {ι R : Type} [DecidableEq ι]

theorem Pool.taggedWorkers_assign (p : Pool ι) (k : JobClass ι) (f : RunInfo ι → RunInfo ι) :
    (p.assign k f).taggedWorkers = p.taggedWorkers := by
  unfold assign getIdleWorker
  cases p.idleWorkers.getLast? <;> rfl

omit [DecidableEq ι] in
theorem Pool.busy_assignTagged {p : Pool ι} {f : RunInfo ι → RunInfo ι} {i : Nat}
    {t : TaggedWorker ι} (h : (p.assignTagged i f).taggedWorkers[i]? = some t) :
    t.busy = true := by
  obtain ⟨t', -, rfl⟩ : ∃ t', p.taggedWorkers[i]? = some t' ∧
      { run := (f t'.run).runWorker, busy := true } = t := by
    simpa [assignTagged, load, proxyRunWorker, modifyRun, setBusy, record] using h
  rfl

omit [DecidableEq ι] in
theorem Pool.taggedWorkers_assignTagged_ne (p : Pool ι) (f : RunInfo ι → RunInfo ι) {i j : Nat}
    (h : i ≠ j) : (p.assignTagged i f).taggedWorkers[j]? = p.taggedWorkers[j]? := by
  simp [assignTagged, load, proxyRunWorker, modifyRun, setBusy, record, h]

namespace Dispatch

variable {d d' d'' : Dispatch ι R} {k : JobClass ι} {i j : Nat}

/-- Jobs have been started on general workers. -/
structure Fills (d d' : Dispatch ι R) : Prop where
  maxWorkers : d'.maxWorkers = d.maxWorkers
  taggedWorkers : d'.pool.taggedWorkers = d.pool.taggedWorkers
  taggedQueues : d'.jobs.taggedQueues = d.jobs.taggedQueues
  activeWorkers : d.pool.activeWorkers ≤ d'.pool.activeWorkers
  hasSlot : ∀ k, d'.HasSlot k → d.HasSlot k

omit [DecidableEq ι] in
theorem Fills.refl (d : Dispatch ι R) : Fills d d := ⟨rfl, rfl, rfl, le_refl _, fun _ => id⟩

omit [DecidableEq ι] in
theorem Fills.trans (h : Fills d d') (h' : Fills d' d'') : Fills d d'' :=
  ⟨h'.maxWorkers.trans h.maxWorkers, h'.taggedWorkers.trans h.taggedWorkers,
    h'.taggedQueues.trans h.taggedQueues, h.activeWorkers.trans h'.activeWorkers,
    fun k hk => h.hasSlot k (h'.hasSlot k hk)⟩

theorem Fills.of_assign {f : RunInfo ι → RunInfo ι} (hp : d'.pool = d.pool.assign k f)
    (hc : d'.cfg = d.cfg) (hm : d'.maxWorkers = d.maxWorkers)
    (hq : d'.jobs.taggedQueues = d.jobs.taggedQueues) : Fills d d' where
  maxWorkers := hm
  taggedWorkers := by rw [hp, Pool.taggedWorkers_assign]
  taggedQueues := hq
  activeWorkers := by rw [hp]; exact d.pool.activeWorkers_le_assign k f
  hasSlot _ h := h.of_assign hp hc

/-- No more jobs of the class are started: the workers are all in use, or there is
no slot for it. -/
def Spent (d : Dispatch ι R) (k : JobClass ι) : Prop :=
  d.maxWorkers ≤ d.pool.activeWorkers ∨ ¬ d.HasSlot k

omit [DecidableEq ι] in
theorem Spent.fills (h : d.Spent k) (hf : Fills d d') : d'.Spent k :=
  h.imp (fun hfull => hf.maxWorkers ▸ hfull.trans hf.activeWorkers) fun hno hk =>
    hno (hf.hasSlot k hk)

theorem startBatchJob_fills (d : Dispatch ι R) (reply : Bool) (job : BatchJob)
    (rest : List BatchJob) : Fills d (d.startBatchJob reply job rest) := by
  refine .of_assign rfl rfl rfl ?_
  cases reply <;> rfl

theorem proxyRunBatchJobs_fills (reply : Bool) (jobs : List BatchJob) (d : Dispatch ι R) :
    Fills d (proxyRunBatchJobs reply jobs d) ∧
      (proxyRunBatchJobs reply jobs d).batchQueue (!reply) = d.batchQueue (!reply) := by
  induction jobs generalizing d with
  | nil => exact ⟨.refl d, rfl⟩
  | cons job rest ih =>
    rw [proxyRunBatchJobs]
    split
    · obtain ⟨hf, hq⟩ := ih (d.startBatchJob reply job rest)
      refine ⟨(d.startBatchJob_fills reply job rest).trans hf, hq.trans ?_⟩
      cases reply <;> rfl
    · exact ⟨.refl d, rfl⟩

theorem proxyRunBatchJobs_spent {reply : Bool} {jobs : List BatchJob}
    (hj : d.batchQueue reply = jobs) :
    (proxyRunBatchJobs reply jobs d).batchQueue reply ≠ [] →
      (proxyRunBatchJobs reply jobs d).Spent (batchClass ι reply) := by
  induction jobs generalizing d with
  | nil => exact fun hne => (hne hj).elim
  | cons job rest ih =>
    rw [proxyRunBatchJobs]
    split
    case isTrue => exact ih (batchQueue_startBatchJob d reply job rest)
    case isFalse hstop => exact fun _ => (not_and_or.mp hstop).imp Nat.not_lt.mp id

theorem runPending_fills (pre post : List (PendingCommand ι)) (d : Dispatch ι R) :
    Fills d (runPending pre post d) ∧ (runPending pre post d).jobs = d.jobs := by
  induction post generalizing d pre with
  | nil => exact ⟨.refl d, rfl⟩
  | cons p post ih =>
    rw [runPending]
    split
    · split
      · obtain ⟨hf, hj⟩ := ih pre (d.startPending pre p post)
        have hstep : Fills d (d.startPending pre p post) := .of_assign rfl rfl rfl rfl
        exact ⟨hstep.trans hf, hj⟩
      · exact ih _ d
    · exact ⟨.refl d, rfl⟩

/-- A loop over batch jobs ends with its queue empty or its class spent, and later
loops only fill more slots. -/
theorem spent_of_batchQueue {reply : Bool} {d₁ d₂ : Dispatch ι R}
    (h : d₁ = proxyRunBatchJobs reply (d.batchQueue reply) d) (hf : Fills d₁ d₂)
    (hq : d₂.batchQueue reply = d₁.batchQueue reply) (hne : d₂.batchQueue reply ≠ []) :
    d₂.Spent (batchClass ι reply) := by
  subst h
  rw [hq] at hne
  exact (proxyRunBatchJobs_spent rfl hne).fills hf

/-- The tagged worker is busy, or nothing waits for it. -/
def TaggedServed (d : Dispatch ι R) (i : Nat) : Prop :=
  ∀ t queue, d.pool.taggedWorkers[i]? = some t → d.jobs.taggedQueues[i]? = some queue →
    t.busy = false → queue = []

omit [DecidableEq ι] in
theorem startTagged_served (d : Dispatch ι R) (i : Nat) : (d.startTagged i).TaggedServed i := by
  unfold startTagged
  split
  case h_1 t job rest ht hj =>
    split
    case isTrue hbusy =>
      intro t' queue ht' _ hidle
      obtain rfl := Option.some.inj (ht.symm.trans ht')
      rw [hbusy] at hidle
      cases hidle
    case isFalse =>
      intro t' queue ht' _ hidle
      rw [Pool.busy_assignTagged ht'] at hidle
      cases hidle
  case h_2 hnone =>
    intro t queue ht hj _
    cases queue with
    | nil => rfl
    | cons job rest => exact (hnone t job rest ht hj).elim

omit [DecidableEq ι] in
theorem TaggedServed.startTagged (h : d.TaggedServed j) (i : Nat) :
    (d.startTagged i).TaggedServed j := by
  by_cases hij : i = j
  · exact hij ▸ d.startTagged_served i
  unfold Dispatch.startTagged
  split
  · split
    · exact h
    · intro t queue ht hj
      rw [Pool.taggedWorkers_assignTagged_ne _ _ hij] at ht
      rw [List.getElem?_set_ne hij] at hj
      exact h t queue ht hj
  · exact h

omit [DecidableEq ι] in
theorem runTagged_served (d : Dispatch ι R) (i : Nat) : d.runTagged.TaggedServed i := by
  have hfold (is : List Nat) (d : Dispatch ι R) (h : i ∈ is ∨ d.TaggedServed i) :
      (is.foldl Dispatch.startTagged d).TaggedServed i := by
    induction is generalizing d with
    | nil => exact h.resolve_left List.not_mem_nil
    | cons j is ih =>
      refine ih _ ?_
      rcases h with h | h
      · rcases List.mem_cons.mp h with rfl | h
        · exact .inr (d.startTagged_served i)
        · exact .inl h
      · exact .inr (h.startTagged j)
  refine hfold _ d ?_
  by_cases hi : i < d.pool.taggedWorkers.length
  · exact .inl (List.mem_range.mpr hi)
  · refine .inr fun t queue ht => ?_
    rw [List.getElem?_eq_none (Nat.not_lt.mp hi)] at ht
    cases ht

omit [DecidableEq ι] in
theorem TaggedServed.fills (h : d.TaggedServed i) (hf : Fills d d') : d'.TaggedServed i := by
  intro t queue ht hj
  rw [hf.taggedWorkers] at ht
  rw [hf.taggedQueues] at hj
  exact h t queue ht hj

/-- A job of the class waits for a general worker. -/
def Waiting (d : Dispatch ι R) : JobClass ι → Prop
  | .batch => d.jobs.batchJobs ≠ []
  | .reply => d.jobs.replyJobs ≠ []
  | .category c => ∃ p ∈ d.pendingCommands, p.cat = c

/-- No job waits that the rules allow to be started. -/
structure WorkConserving (d : Dispatch ι R) : Prop where
  tagged : ∀ i, d.TaggedServed i
  general : ∀ k, d.Waiting k →
    d.cfg.reserved k ≤ d.pool.active k ∧ d.cfg.generalWorkers ≤ d.pool.activeWorkers

variable [Fintype ι]

theorem proxyProcessQueue_workConserving (hfit : d.cfg.FitsInt) (hh : d.HandOff) (hr : d.Reserved)
    (hp : d.phase = .queue) (hq : d.maxWorkers ≠ 0) : d.proxyProcessQueue.WorkConserving := by
  obtain ⟨⟨hmoves, hmax, -⟩, hdrained⟩ := proxyProcessQueue_progress hp
  have hq' : d.proxyProcessQueue.maxWorkers ≠ 0 := by rwa [hmax]
  have hfit' : d.proxyProcessQueue.cfg.FitsInt := by rwa [cfg_moves hmoves]
  have hreserved := hr.moves hh hmoves
  have hsaturated := (hdrained hq).saturated hfit' hq' hreserved
  -- the three loops, each of which keeps what the ones before have achieved
  obtain ⟨d₁, hd₁⟩ : ∃ d₁, d₁ = d.runTagged := ⟨_, rfl⟩
  obtain ⟨d₂, hd₂⟩ : ∃ d₂, d₂ = proxyRunBatchJobs false (d₁.batchQueue false) d₁ := ⟨_, rfl⟩
  obtain ⟨d₃, hd₃⟩ : ∃ d₃, d₃ = proxyRunBatchJobs true (d₂.batchQueue true) d₂ := ⟨_, rfl⟩
  have hd₄ : d.proxyProcessQueue = runPending [] d₃.pendingCommands d₃ := by
    rw [proxyProcessQueue, if_neg hq, hd₃, hd₂, hd₁]
    rfl
  have hf₂ := (proxyRunBatchJobs_fills false (d₁.batchQueue false) d₁).1
  obtain ⟨hf₃, hother⟩ := proxyRunBatchJobs_fills true (d₂.batchQueue true) d₂
  obtain ⟨hf₄, hjobs⟩ := runPending_fills [] d₃.pendingCommands d₃
  rw [← hd₂] at hf₂
  rw [← hd₃] at hf₃ hother
  rw [← hd₄] at hf₄ hjobs
  have hqueue (reply : Bool) : d.proxyProcessQueue.batchQueue reply = d₃.batchQueue reply := by
    rw [batchQueue, hjobs, ← batchQueue]
  refine ⟨fun i => ?_, fun k hk => ?_⟩
  · have hserved : d₁.TaggedServed i := hd₁ ▸ d.runTagged_served i
    exact ((hserved.fills hf₂).fills hf₃).fills hf₄
  have hspent : d.proxyProcessQueue.Spent k := by
    cases k with
    | batch =>
      exact spent_of_batchQueue hd₂ (hf₃.trans hf₄) ((hqueue false).trans hother) hk
    | reply => exact spent_of_batchQueue hd₃ hf₄ (hqueue true) hk
    | category c =>
      obtain ⟨p, hmem, rfl⟩ := hk
      exact .inr (hsaturated p hmem)
  have hno : ¬ d.proxyProcessQueue.HasSlot k :=
    hspent.elim (fun hfull => hreserved.not_hasSlot_of_full hfit' hq' hfull k) id
  exact (not_or.mp hno).imp Nat.not_lt.mp Nat.not_lt.mp

theorem workConserving_of_reachable (h : (machine ι R).Reachable d) (hfit : d.cfg.FitsInt)
    (hp : d.phase = .queue) (hq : d.maxWorkers ≠ 0) : d.proxyProcessQueue.WorkConserving :=
  proxyProcessQueue_workConserving hfit (handOff_of_reachable h) (reserved_of_reachable h) hp hq

theorem workConserving_with_job_waiting : ∃ d, (machine Unit Unit).Reachable d ∧
    d.proxyProcessQueue.Waiting .batch ∧ d.proxyProcessQueue.WorkConserving := by
  obtain ⟨d, hd, hstate⟩ := smallConfig_reachable.exists_of_run
    [.submit [(.user 0, 0)] none, .submit [(.user 1, 0)] none, .batch 0, .batch 1,
      .next, .next, .next, .next]
    (p := fun d => decide (d.cfg.FitsInt ∧ d.phase = .queue ∧ d.maxWorkers ≠ 0 ∧
      d.proxyProcessQueue.jobs.batchJobs ≠ [])) (by decide +kernel)
  obtain ⟨hfit, hp, hq, hwaiting⟩ := of_decide_eq_true hstate
  exact ⟨d, hd, hwaiting, workConserving_of_reachable hd hfit hp hq⟩

/-- The queue stops at `max_workers` with a command left whose category has a thread
to spare. -/
theorem idles_when_wrapped : ∃ d, (machine Bool Unit).Reachable d ∧ d.phase = .queue ∧
    d.maxWorkers = 3 ∧ d.proxyProcessQueue.pendingOf true = [5] ∧
      d.proxyProcessQueue.pool.active (.category true) = 2 ∧
      d.cfg.reserved (.category true) = 3 := by
  obtain ⟨d, hd, hp⟩ := shortConfig_reachable.exists_of_run shortRun
    (p := fun d => decide (d.phase = .queue ∧ d.maxWorkers = 3 ∧
      d.proxyProcessQueue.pendingOf true = [5] ∧
      d.proxyProcessQueue.pool.active (.category true) = 2 ∧
      d.cfg.reserved (.category true) = 3)) (by decide +kernel)
  exact ⟨d, hd, of_decide_eq_true hp⟩

end Dispatch

end ArqmaMQ
