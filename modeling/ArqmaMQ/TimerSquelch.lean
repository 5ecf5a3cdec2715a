import ArqmaMQ.BatchLifecycle
import ArqmaMQ.ProxySteps
import ArqmaMQ.TimerRan

/-! Squelched timers along runs of the proxy: such a timer has at most one batch
outstanding, and is suppressed while it has one and no longer. -/

namespace ArqmaMQ

variable {ι R : Type} [DecidableEq ι]

def DispatchEvent.zmqTimerId {ι R : Type} : DispatchEvent ι R → Option Nat
  | .addTimer _ _ _ _ zmqTimerId => some zmqTimerId
  | _ => none

theorem DispatchEvent.zmqTimerId_of_internal {ι R : Type} {e : DispatchEvent ι R}
    (h : e.internal = true) : e.zmqTimerId = none := by
  cases e <;> first | rfl | cases h

namespace Jobs

variable {j : Jobs R} {b b' z : Nat} {t : TimerJob}

theorem Squelched.eq_of_underWay (h : j.Squelched) (ht : (z, t) ∈ j.timerJobs)
    (hs : t.squelch = true) (hthread : t.thread ≠ -1) (hb : b ∈ j.batches)
    (hz : j.timerOf b = some z) (hb' : b' ∈ j.batches) (hz' : j.timerOf b' = some z) : b = b' := by
  have hcounted := h.counted z t ht hs hthread
  have hlen : (j.batches.filter (j.timerOf · = some z)).length ≤ 1 := by
    rw [← List.countP_eq_length_filter]
    change j.underWay z ≤ 1
    split at hcounted <;> omega
  have hmem : b ∈ j.batches.filter (j.timerOf · = some z) := by simp [hb, hz]
  have hmem' : b' ∈ j.batches.filter (j.timerOf · = some z) := by simp [hb', hz']
  match hfilter : j.batches.filter (j.timerOf · = some z) with
  | [] => simp [hfilter] at hmem
  | [x] =>
    rw [hfilter] at hmem hmem'
    rw [List.mem_singleton.mp hmem, List.mem_singleton.mp hmem']
  | _ :: _ :: _ => simp [hfilter] at hlen

theorem Squelched.running_iff (h : j.Squelched) (ht : (z, t) ∈ j.timerJobs)
    (hs : t.squelch = true) (hthread : t.thread ≠ -1) :
    t.running = true ↔ ∃ b ∈ j.batches, j.timerOf b = some z := by
  have hcounted := h.counted z t ht hs hthread
  have hpos : 0 < j.underWay z ↔ ∃ b ∈ j.batches, j.timerOf b = some z := by
    simp [underWay, List.countP_pos_iff]
  rw [← hpos, hcounted]
  cases t.running <;> simp

theorem timerJobs_push (j : Jobs R) (q : Queue) (job : BatchJob) :
    (j.push q job).timerJobs = j.timerJobs := by
  cases q <;> rfl

/-- A firing leaves the flag set. -/
theorem Squelched.running_queueTimerJob (h : j.Squelched) (ht : (z, t) ∈ j.timerJobs)
    (hs : t.squelch = true) (hthread : t.thread ≠ -1) :
    (z, { t with running := true }) ∈ (j.queueTimerJob z).timerJobs := by
  obtain ⟨x, hfind⟩ : ∃ x, j.timerJobs.find? (·.1 = z) = some x := by
    refine Option.isSome_iff_exists.mp (List.find?_isSome.mpr ⟨(z, t), ht, ?_⟩)
    exact decide_eq_true rfl
  have hx : x.1 = z := by simpa using List.find?_some hfind
  obtain rfl : x = (z, t) :=
    List.inj_on_of_nodup_map h.keys (List.mem_of_find?_eq_some hfind) ht hx
  rw [Jobs.queueTimerJob, hfind]
  cases hr : t.running with
  | true =>
    have he : { t with running := true } = t := by
      cases t
      cases hr
      rfl
    rw [he]
    simpa [hs, hr] using ht
  | false =>
    simp only [hs, hr, hthread, Bool.and_false, Bool.false_eq_true, if_true, if_false]
    rw [timerJobs_push]
    refine mem_setRunning.mpr ⟨t, ht, ?_⟩
    rw [if_pos rfl, hs]

end Jobs

namespace Dispatch

variable {d d' : Dispatch ι R} {w : WorkerRef} {b z : Nat}

theorem squelched_serve (h : d.jobs.Squelched) (hs : Serve d d') : d'.jobs.Squelched := by
  cases hs with
  | tagged i =>
    unfold startTagged
    split
    · split
      · exact h
      · exact h.requeue ⟨_, _, _, List.length_set .., rfl⟩
    · exact h
  | batchJob reply => cases reply <;> exact h.requeue ⟨_, _, _, rfl, rfl⟩
  | pending => exact h

theorem jobs_proxyCommand (d : Dispatch ι R) (q : PendingCommand ι) :
    (d.proxyCommand q).jobs = d.jobs := by
  simp only [proxyCommand]
  split
  · rfl
  · split <;> rfl

theorem squelched_execute (h : d.jobs.Squelched) (hh : d.HandOff) (hB : d.Batches)
    {r : JobResult R} (he : d.execute w r = some d') : d'.jobs.Squelched := by
  obtain ⟨run, pool, jobs, hrun, hp, rfl, hjobs⟩ := execute_eq_some he
  obtain ⟨run', run₁, hr, hr₁, rfl⟩ := Pool.execute_eq_some hp
  obtain rfl := Option.some.inj (hrun.symm.trans hr)
  obtain ⟨hs, -, -⟩ := hh.1.loaded_of_execute hr hr₁
  have hw := Pool.held_of_stage hs
  change jobs.Squelched
  rw [hjobs]
  rcases htask : run.task with _ | ⟨⟨b, k⟩⟩ | ⟨c, n⟩
  · exact h
  · rw [htask] at hw
    dsimp only
    split
    · exact h.runJob b _ r
    · split
      · rename_i hk
        subst hk
        exact h.jobCompletion (h.timerOf_of_live hB (.inr ⟨w, hw⟩))
      · exact h
  · exact h

theorem squelched_workerMessage (h : d.jobs.Squelched) (hh : d.HandOff) (hB : d.Batches)
    (hm : d.proxyWorkerMessage w = some d') : d'.jobs.Squelched := by
  obtain ⟨run, t, rest, hr, ht, ⟨ho, run₁, hr₁, hran⟩ | ⟨-, rfl⟩⟩ := proxyWorkerMessage_eq_some hm
  · obtain ⟨hs, -, -⟩ := hh.1.executed_of_ran hr ht ho
    have htask : run.task = run₁.task := by rw [hr₁]; rfl
    have hw := Pool.held_of_stage hs
    obtain ⟨q, clear, jobs, -, rfl, ⟨-, -, rfl⟩ | ⟨hb, b, hto, rfl, rfl⟩⟩ := workerRan_eq_some hran
    · exact h
    · have hjob : (Stage.executed run.task).job? = some (b, run₁.batchJobno) := by
        rw [htask, RunInfo.task, if_pos hb, hto]
        rfl
      rw [hjob] at hw
      exact h.ranJob hB hw run₁.isReplyJob
  · exact h

variable [Fintype ι]

/-- Only a timer's own batch may come with its completion function, and libzmq
uses no id twice. -/
theorem squelched_step {e : DispatchEvent ι R} (hreach : (machine ι R).Reachable d)
    (h : d.jobs.Squelched) (hs : d.step e = some d')
    (hcomp : ∀ jobs c, e = .submit jobs (some c) → c.1.timer? = none)
    (hfresh : ∀ z ∈ e.zmqTimerId, z ∉ d.jobs.timerJobs.map Prod.fst) : d'.jobs.Squelched := by
  have hh := handOff_of_reachable hreach
  have hB := batches_of_reachable hreach
  have hu := Jobs.Batches.unborn_length hB
  cases e with
  | submit jobs comp =>
    obtain ⟨-, rfl⟩ : _ ∧ _ = d' := by simpa [step] using hs
    refine h.submit hu jobs fun c hc => hcomp jobs c ?_
    rw [Option.mem_def.mp hc]
  | batch b =>
    simp only [step] at hs
    split at hs
    · rename_i hb
      obtain ⟨batch, hheap, rfl⟩ := Option.map_eq_some_iff.mp hs
      exact h.proxyBatch hB.valid hb.2 hheap
    · cases hs
  | inject p =>
    obtain ⟨-, rfl⟩ : _ ∧ d.proxyCommand p = d' := by simpa [step] using hs
    rw [jobs_proxyCommand]
    exact h
  | command p =>
    obtain ⟨-, rfl⟩ : _ ∧ d.proxyCommand p = d' := by simpa [step] using hs
    rw [jobs_proxyCommand]
    exact h
  | addTimer id function squelch thread zmqTimerId =>
    obtain ⟨-, rfl⟩ : _ ∧ _ = d' := by simpa [step] using hs
    exact h.proxyTimer (hfresh zmqTimerId rfl) id function squelch thread
  | delTimer id =>
    obtain ⟨-, rfl⟩ : _ ∧ _ = d' := by simpa [step] using hs
    exact h.proxyTimerDel id
  | quit =>
    obtain ⟨-, rfl⟩ : _ ∧ _ = d' := by simpa [step] using hs
    exact h
  | workerMessage w =>
    obtain ⟨-, hm⟩ : _ ∧ d.proxyWorkerMessage w = some d' := by simpa [step] using hs
    exact squelched_workerMessage h hh hB hm
  | timer id =>
    obtain ⟨-, rfl⟩ : _ ∧ _ = d' := by simpa [step] using hs
    exact h.queueTimerJob hu id
  | replyJob f =>
    obtain ⟨-, rfl⟩ : _ ∧ _ = d' := by simpa [step] using hs
    exact h.proxyScheduleReplyJob hu f
  | next =>
    refine next_invariant (P := fun e => e.jobs.Squelched) ?_ (fun _ _ _ => id) hs h
    exact fun e e' hserve he => squelched_serve he hserve
  | receive w =>
    obtain ⟨pool, -, rfl⟩ := Option.map_eq_some_iff.mp hs
    exact h
  | execute w r => exact squelched_execute h hh hB hs
  | sendRan w =>
    obtain ⟨pool, -, rfl⟩ := Option.map_eq_some_iff.mp hs
    exact h

theorem squelched_asks (hreach : (machine ι R).Reachable d) (h : d.jobs.Squelched)
    (ha : Asks d d') : d'.jobs.Squelched := by
  have hall : (machine ι R).Reachable d' ∧ d'.jobs.Squelched := by
    induction ha with
    | refl => exact ⟨hreach, h⟩
    | tail _ hs ih =>
      obtain ⟨e, he, hs⟩ := hs
      refine ⟨ih.1.step hs, squelched_step ih.1 ih.2 hs ?_ ?_⟩
      · rintro jobs c rfl
        cases he
      · intro z hz
        rw [DispatchEvent.zmqTimerId_of_internal he] at hz
        cases hz
  exact hall.2

/-- The batch was started by the timer, and waits in a queue, or a worker has it
whose RAN is still to be handled. -/
def Outstanding (d : Dispatch ι R) (z b : Nat) : Prop :=
  (∃ batch, d.jobs.heap[b]? = some batch ∧ batch.complete = some (.timerCompletion z)) ∧
    d.Refers b

omit [Fintype ι] in
theorem outstanding_iff (hh : d.HandOff) (hB : d.Batches) (h : d.jobs.Squelched) :
    d.Outstanding z b ↔ b ∈ d.jobs.batches ∧ d.jobs.timerOf b = some z := by
  constructor
  · rintro ⟨⟨batch, hb, hc⟩, hrefers⟩
    have hz : d.jobs.timerOf b = some z := by
      rw [Jobs.timerOf_of_heap hb, hc]
      rfl
    obtain ⟨k, hl⟩ := hrefers.live hh
    exact ⟨h.owned_of_live hB hl hz, hz⟩
  · rintro ⟨hown, hz⟩
    obtain ⟨batch, hb⟩ : ∃ batch, d.jobs.heap[b]? = some batch := by
      refine Option.ne_none_iff_exists'.mp fun hnone => ?_
      exact (Jobs.Batches.unborn hB b hnone).2.2.1 hown
    refine ⟨⟨batch, hb, Jobs.complete_of_timerOf hb hz⟩, ?_⟩
    obtain ⟨s, hat⟩ := Jobs.Batches.views hB b batch hb
    obtain ⟨hp, hsub⟩ := hat.owned.mp hown
    -- a batch that is not deleted has a job somewhere
    by_contra hnot
    exact hp (hat.deleted_of_not_live fun k hk => hnot (refers_of_live hh hsub hk))

end Dispatch

namespace Proxy

variable {p p' : Proxy ι R}

/-- Libzmq gives a new timer an id that no timer had before. -/
def FreshTimers (p : Proxy ι R) : ProxyEvent ι R → Prop
  | .dispatch e => ∀ z ∈ e.zmqTimerId, z ∉ p.dispatch.jobs.timerJobs.map Prod.fst
  | _ => True

instance (p : Proxy ι R) : (e : ProxyEvent ι R) → Decidable (p.FreshTimers e)
  | .dispatch _ => inferInstanceAs (Decidable (∀ z ∈ _, _))
  | .requestConn | .send .. | .control _ | .connectRemote .. | .cleanup .. | .zap _ | .incoming _
  | .rehash .. | .next => inferInstanceAs (Decidable True)

variable [Fintype ι]

theorem squelched_of_reachable (h : ((machine ι R).restrict FreshTimers).Reachable p) :
    p.dispatch.jobs.Squelched := by
  induction h with
  | init hinit =>
    obtain ⟨cfg, listeners, sns, commands, localServiceNode, -, rfl⟩ := hinit
    exact ⟨.nil, by simp [start, Dispatch.start, Jobs.completions], by simp [start, Dispatch.start],
      by simp [start, Dispatch.start], by simp [start, Dispatch.start],
      by simp [start, Dispatch.start], by simp [start, Dispatch.start]⟩
  | step hreach hs ih =>
    obtain ⟨hfresh, hs⟩ := Transition.Machine.restrict_step hs
    have hdispatch := reachable_dispatch hreach.of_restrict
    rcases step_cases hs with ⟨e, rfl, houtside, hd, -⟩ | hinners
    · refine Dispatch.squelched_step hdispatch ih hd ?_ hfresh
      rintro jobs ⟨f, thread⟩ rfl
      -- callers pass functions of their own
      have huser : f.isUser = true := (Bool.and_eq_true_iff.mp houtside).2
      cases f with
      | user => rfl
      | _ => cases huser
    · exact Dispatch.squelched_asks hdispatch ih (asks_of_inners hinners)

theorem outstanding_iff {z b : Nat} (h : ((machine ι R).restrict FreshTimers).Reachable p) :
    p.dispatch.Outstanding z b ↔
      b ∈ p.dispatch.jobs.batches ∧ p.dispatch.jobs.timerOf b = some z := by
  have hdispatch := reachable_dispatch h.of_restrict
  have hh := Dispatch.handOff_of_reachable hdispatch
  exact Dispatch.outstanding_iff hh (Dispatch.batches_of_reachable hdispatch)
    (squelched_of_reachable h)

/-- A timer that fires with no batch outstanding starts one. -/
theorem outstanding_of_timer {z : Nat} {t : TimerJob}
    (h : ((machine ι R).restrict FreshTimers).Reachable p)
    (ht : (z, t) ∈ p.dispatch.jobs.timerJobs) (hs : t.squelch = true) (hthread : t.thread ≠ -1)
    (hp : p.step (.dispatch (.timer z)) = some p') : ∃ b, p'.dispatch.Outstanding z b := by
  have hp' : ((machine ι R).restrict FreshTimers).Reachable p' := by
    have hfresh : p.FreshTimers (.dispatch (.timer z)) := fun z hz => (by cases hz)
    exact h.step (Transition.Machine.step_restrict hfresh hp)
  have hd := (dispatch_step hp).2.1
  have hjobs : p'.dispatch.jobs = p.dispatch.jobs.queueTimerJob z := by
    obtain ⟨-, hd⟩ : _ ∧ _ = p'.dispatch := by simpa [Dispatch.step] using hd
    rw [← hd]
  have hrunning := (squelched_of_reachable h).running_queueTimerJob ht hs hthread
  rw [← hjobs] at hrunning
  have hsq := squelched_of_reachable hp'
  obtain ⟨b, hb, hz⟩ := (hsq.running_iff hrunning hs hthread).mp rfl
  exact ⟨b, (outstanding_iff hp').mpr ⟨hb, hz⟩⟩

/-- A squelched timer never has two batches under way, its flag is set while it
has one, and when it has none it starts one as it fires. -/
theorem squelched_timer_exclusive {z : Nat} {t : TimerJob}
    (h : ((machine ι R).restrict FreshTimers).Reachable p)
    (ht : (z, t) ∈ p.dispatch.jobs.timerJobs) (hs : t.squelch = true) (hthread : t.thread ≠ -1) :
    (∀ b b', p.dispatch.Outstanding z b → p.dispatch.Outstanding z b' → b = b') ∧
      (t.running = true ↔ ∃! b, p.dispatch.Outstanding z b) ∧
      ∀ p', p.step (.dispatch (.timer z)) = some p' → ∃ b, p'.dispatch.Outstanding z b := by
  have hsq := squelched_of_reachable h
  have hone : ∀ b b', p.dispatch.Outstanding z b → p.dispatch.Outstanding z b' → b = b' := by
    intro b b' hb hb'
    obtain ⟨hb, hz⟩ := (outstanding_iff h).mp hb
    obtain ⟨hb', hz'⟩ := (outstanding_iff h).mp hb'
    exact hsq.eq_of_underWay ht hs hthread hb hz hb' hz'
  refine ⟨hone, ?_, fun p' hp => outstanding_of_timer h ht hs hthread hp⟩
  rw [hsq.running_iff ht hs hthread]
  constructor
  · rintro ⟨b, hb, hz⟩
    have hb := (outstanding_iff h).mpr ⟨hb, hz⟩
    exact ⟨b, hb, fun b' hb' => hone b' b hb' hb⟩
  · rintro ⟨b, hb, -⟩
    obtain ⟨hb, hz⟩ := (outstanding_iff h).mp hb
    exact ⟨b, hb, hz⟩

/-- The timer fires, its job throws, RAN is handled, and it fires again. -/
theorem squelched_timer_exclusive_after_exception : ∃ (p : Proxy Unit Unit) (t : TimerJob),
    ((machine Unit Unit).restrict FreshTimers).Reachable p ∧
      (5, t) ∈ p.dispatch.jobs.timerJobs ∧ .deleted 0 ∈ p.dispatch.jobs.log ∧
      ∃! b, p.dispatch.Outstanding 5 b := by
  have hinit : ((machine Unit Unit).restrict FreshTimers).Reachable sample :=
    .init ⟨_, _, _, _, _, by decide +kernel, rfl⟩
  obtain ⟨p, hp, hstate⟩ := hinit.exists_of_run
    [.dispatch (.addTimer 0 (.user 0) true 0 5), .next, .next, .dispatch (.timer 5), .next, .next,
      .next, .dispatch (.execute (.general 0) (.exception (bytes "x"))),
      .dispatch (.sendRan (.general 0)), .next, .next, .dispatch (.workerMessage (.general 0)),
      .next, .dispatch (.timer 5)]
    (p := fun p => decide ((5, ⟨.user 0, true, true, 0⟩) ∈ p.dispatch.jobs.timerJobs ∧
      .deleted 0 ∈ p.dispatch.jobs.log)) (by decide +kernel)
  obtain ⟨ht, hdel⟩ := of_decide_eq_true hstate
  obtain ⟨-, hrunning, -⟩ := squelched_timer_exclusive hp ht rfl (by decide)
  exact ⟨p, _, hp, ht, hdel, hrunning.mp rfl⟩

end Proxy

end ArqmaMQ
