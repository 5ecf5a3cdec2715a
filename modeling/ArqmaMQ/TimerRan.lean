import ArqmaMQ.TimerJobs

/-! What workers do with the jobs of timers' batches, and what RAN makes of it. -/

namespace ArqmaMQ

variable {R : Type}

namespace Life

variable {completion : Bool} {n : Nat} {l : List (JobEvent R)} {s : Life R}

theorem Lived.mem_scheduled (h : Lived completion n l s) (hp : s.phase = .scheduled) :
    ∃ e ∈ l, e.isScheduled = true := by
  cases h with
  | new => cases hp
  | step h hs =>
    cases hs with
    | executed hrunning =>
      rw [show _ = LifePhase.running from hrunning] at hp
      cases hp
    | scheduled => exact ⟨_, List.mem_concat_self, rfl⟩
    | completed => cases hp
    | deleted => cases hp

theorem Lived.mem_completed (h : Lived completion n l s) (hp : s.phase = .completed) :
    ∃ e ∈ l, e.isCompleted = true := by
  cases h with
  | new => cases hp
  | step h hs =>
    cases hs with
    | executed hrunning =>
      rw [show _ = LifePhase.running from hrunning] at hp
      cases hp
    | scheduled => cases hp
    | completed => exact ⟨_, List.mem_concat_self, rfl⟩
    | deleted => cases hp

end Life

namespace Jobs

open Custody (Live)

variable {j j' : Jobs R} {b z n : Nat} {batch batch' : Batch R}
  {held unrun : WorkerRef → Option BatchJob}

theorem Squelched.runJob (h : j.Squelched) (b i : Nat) (r : JobResult R) :
    (j.runJob b i r).Squelched := by
  refine h.congr (j.completions_runJob b i r) rfl rfl rfl ?_ ?_ ?_
  · intro b' hb'
    simpa [Jobs.runJob, record] using hb'
  · intro b' rs hb'
    simpa [Jobs.runJob, record] using hb'
  · intro b' hb'
    exact List.mem_append_left _ hb'

theorem timerOf_of_heap (hb : j.heap[b]? = some batch) :
    j.timerOf b = batch.complete.bind Closure.timer? := by
  simp [timerOf, completions, hb]

/-- The completion function of a timer never waits for a worker. -/
theorem Squelched.timerOf_of_live (h : j.Squelched) (hB : j.Batches n held unrun)
    (hl : Live j.waiting held (b, -1)) : j.timerOf b = none := by
  obtain ⟨batch, hb⟩ := hB.exists_batch hl
  obtain ⟨s, hat⟩ := hB.views b batch hb
  have hlived := hat.lived
  rcases hat.not_running_of_live hl with hp | hp
  · obtain ⟨e, he, hkind⟩ := hlived.mem_scheduled hp
    obtain ⟨hlog, heb⟩ := mem_history.mp he
    cases e with
    | scheduled b' =>
      obtain rfl : b' = b := heb
      exact h.scheduled b' hlog
    | _ => cases hkind
  · obtain ⟨e, he, hkind⟩ := hlived.mem_completed hp
    obtain ⟨hlog, heb⟩ := mem_history.mp he
    cases e with
    | completed b' rs =>
      obtain rfl : b' = b := heb
      by_contra hsome
      have hdel := h.completed b' rs hlog (Option.ne_none_iff_isSome.mp hsome)
      have hdeleted := hlived.facts.mem_deleted.mpr ⟨_, mem_history.mpr ⟨hdel, rfl⟩, rfl⟩
      rw [hp] at hdeleted
      cases hdeleted
    | _ => cases hkind

/-- A timer's batch belongs to the proxy as long as one of its jobs is around. -/
theorem Squelched.owned_of_live (h : j.Squelched) (hB : j.Batches n held unrun) {k : Int}
    (hl : Live j.waiting held (b, k)) (hz : j.timerOf b = some z) : b ∈ j.batches := by
  obtain ⟨batch, hb⟩ := hB.exists_batch hl
  obtain ⟨s, hat⟩ := hB.views b batch hb
  refine hat.owned.mpr ⟨fun hp => hat.deleted hp k hl, fun hsub => ?_⟩
  rw [h.submitted b hsub] at hz
  cases hz

theorem Squelched.heap_set (h : j.Squelched) (hb : j.heap[b]? = some batch) {batch' : Batch R}
    (hc : batch'.complete = batch.complete)
    (ht : batch'.completeInThread = batch.completeInThread) :
    Squelched { j with heap := j.heap.set b batch' } :=
  h.congr (completions_set hb hc ht) rfl rfl rfl (fun _ => id) (fun _ _ => id) fun _ => id

theorem timerOf_set (hb : j.heap[b]? = some batch) (hc : batch'.complete = batch.complete)
    (ht : batch'.completeInThread = batch.completeInThread) :
    timerOf { j with heap := j.heap.set b batch' } = j.timerOf := by
  funext i
  rw [timerOf, completions_set hb hc ht, timerOf]

theorem Squelched.record_scheduled (h : j.Squelched) (hb : j.timerOf b = none) :
    (j.record (.scheduled b)).Squelched := by
  refine ⟨h.keys, h.inProxy, h.submitted, ?_, ?_, h.known, h.counted⟩
  · intro b' hb'
    rcases List.mem_append.mp hb' with hb' | hb'
    · exact h.scheduled b' hb'
    · obtain rfl := JobEvent.scheduled.inj (List.mem_singleton.mp hb')
      exact hb
  · intro b' rs hb' hsome
    have hold : .completed b' rs ∈ j.log := by simpa [record] using hb'
    exact List.mem_append_left _ (h.completed b' rs hold hsome)

theorem Squelched.record_completed (h : j.Squelched) (hb : j.timerOf b = none)
    (rs : List (Option (JobResult R))) : (j.record (.completed b rs)).Squelched := by
  refine ⟨h.keys, h.inProxy, h.submitted, ?_, ?_, h.known, h.counted⟩
  · intro b' hb'
    exact h.scheduled b' (by simpa [record] using hb')
  · intro b' rs' hb' hsome
    rcases List.mem_append.mp hb' with hb' | hb'
    · exact List.mem_append_left _ (h.completed b' rs' hb' hsome)
    · obtain ⟨rfl, -⟩ := JobEvent.completed.inj (List.mem_singleton.mp hb')
      have hnone : (j.record (.completed b' rs)).timerOf b' = none := hb
      rw [hnone] at hsome
      cases hsome

theorem Squelched.clear (h : j.Squelched) (hb : j.timerOf b = none) : (j.clear b).Squelched := by
  refine ⟨h.keys, h.inProxy, h.submitted, ?_, ?_, ?_, ?_⟩
  · intro b' hb'
    exact h.scheduled b' (by simpa [Jobs.clear, record] using hb')
  · intro b' rs hb' hsome
    have hold : .completed b' rs ∈ j.log := by simpa [Jobs.clear, record] using hb'
    exact List.mem_append_left _ (h.completed b' rs hold hsome)
  · intro b' hb'
    exact h.known b' (List.mem_of_mem_erase hb')
  · intro z t ht hs hthread
    refine Eq.trans ?_ (h.counted z t ht hs hthread)
    change (j.batches.erase b).countP (j.timerOf · = some z) = _
    rw [List.countP_erase, hb, underWay]
    simp

/-- A completion function that is not a timer's leaves the timers alone. -/
theorem runClosure_of_timer? {f : Option Closure} (h : f.bind Closure.timer? = none) (j : Jobs R) :
    f.elim j j.runClosure = j := by
  rcases f with _ | f
  · rfl
  · cases f <;> first | rfl | cases h

theorem jobCompletion_of_timerOf (hb : j.timerOf b = none) (hheap : j.heap[b]? = some batch) :
    j.jobCompletion b = record { j with heap := j.heap.set b { batch with results := [] } }
      (.completed b batch.results) := by
  have hnone : batch.complete.bind Closure.timer? = none := (timerOf_of_heap hheap).symm.trans hb
  rw [jobCompletion, hheap]
  exact runClosure_of_timer? hnone _

theorem timerOf_jobCompletion (hb : j.timerOf b = none) :
    (j.jobCompletion b).timerOf b = none := by
  rcases hheap : j.heap[b]? with _ | batch
  · rw [jobCompletion, hheap]
    exact hb
  · rw [jobCompletion_of_timerOf hb hheap]
    have htimer : timerOf { j with heap := j.heap.set b { batch with results := [] } } =
        j.timerOf := timerOf_set hheap rfl rfl
    exact (congrFun htimer b).trans hb

theorem Squelched.jobCompletion (h : j.Squelched) (hb : j.timerOf b = none) :
    (j.jobCompletion b).Squelched := by
  have hnone := timerOf_jobCompletion hb
  rcases hheap : j.heap[b]? with _ | batch
  · rw [Jobs.jobCompletion, hheap]
    exact h
  · rw [jobCompletion_of_timerOf hb hheap] at hnone ⊢
    have hset : Squelched { j with heap := j.heap.set b { batch with results := [] } } :=
      h.heap_set hheap rfl rfl
    exact hset.record_completed hnone _

theorem complete_of_timerOf (hheap : j.heap[b]? = some batch) (hz : j.timerOf b = some z) :
    batch.complete = some (.timerCompletion z) := by
  rw [timerOf_of_heap hheap] at hz
  obtain ⟨f, hf, hz⟩ := Option.bind_eq_some_iff.mp hz
  rw [hf]
  cases f with
  | timerCompletion z' =>
    obtain rfl := Option.some.inj hz
    rfl
  | _ => cases hz

/-- RAN for a job of a timer's batch: while others are outstanding nothing
happens, and after the last the completion function is called at once. -/
theorem jobRan_of_timer (hheap : j.heap[b]? = some batch)
    (hc : batch.complete = some (.timerCompletion z)) (hthread : batch.completeInThread = -1)
    {k : Int} (hk : k ≠ -1) (reply : Bool)
    (hj' : j' = { j with
      heap := j.heap.set b { batch with jobsOutstanding := batch.jobsOutstanding - 1 } }) :
    j.jobRan (b, k) reply = (j', false) ∨ j.jobRan (b, k) reply = (j'.jobCompletion b, true) := by
  rw [jobRan, if_neg hk, hheap]
  by_cases hlast : batch.jobsOutstanding - 1 = 0
  · right
    simp [Batch.jobFinished, hlast, hc, hthread, hj']
  · left
    simp [Batch.jobFinished, hlast, hj']

/-- RAN for the job of a squelched timer: the completion function runs in the
proxy, which resets the flag and deletes the batch. -/
theorem Squelched.ranTimer (h : j.Squelched) (hb : b ∈ j.batches)
    (hheap : j.heap[b]? = some batch) (hz : batch.complete = some (.timerCompletion z)) :
    ((j.jobCompletion b).clear b).Squelched := by
  obtain ⟨j', hj'⟩ : ∃ j', j' = { j with heap := j.heap.set b { batch with results := [] } } :=
    ⟨_, rfl⟩
  have hset : j'.Squelched := by
    rw [hj']
    exact h.heap_set hheap rfl rfl
  have htimer : j'.timerOf = j.timerOf := by
    rw [hj']
    exact timerOf_set hheap rfl rfl
  have hbatches : j'.batches = j.batches := by rw [hj']
  have hlog : j'.log = j.log := by rw [hj']
  have hzb : j'.timerOf b = some z := by
    rw [htimer, timerOf_of_heap hheap, hz]
    rfl
  have hran : (j.jobCompletion b).clear b = { j'.setRunning z false with
      batches := j'.batches.erase b
      log := j'.log ++ [.completed b batch.results] ++ [.deleted b] } := by
    rw [Jobs.jobCompletion, hheap]
    dsimp only
    rw [hz, hj']
    rfl
  have hmem : b ∈ j'.batches := hbatches ▸ hb
  obtain ⟨t, ht, hs⟩ := hset.known b hmem z hzb
  have hcounted := hset.counted z t ht hs.1 hs.2
  -- the batch was the only one, and the flag was set
  have hone : j'.underWay z = 1 := by
    have hpos : 0 < j'.underWay z := List.countP_pos_iff.mpr ⟨b, hmem, decide_eq_true hzb⟩
    split at hcounted <;> omega
  rw [hran]
  refine hset.flag ht hs false _ ?_ ?_ ?_ ?_ ?_ ?_
  · exact fun b' hb' => .inl (List.mem_of_mem_erase hb')
  · rw [List.countP_erase, hzb]
    rw [underWay] at hone
    simp [hone, hmem]
  · intro z' hz'
    have hne : ¬ some z = some z' := fun he => hz' (Option.some.inj he).symm
    rw [List.countP_erase, hzb, decide_eq_false hne, underWay]
    simp
  · intro b' hb'
    simpa using hb'
  · intro b' rs hb'
    rcases List.mem_append.mp hb' with hb' | hb'
    · rcases List.mem_append.mp hb' with hb' | hb'
      · exact .inl hb'
      · obtain ⟨rfl, -⟩ := JobEvent.completed.inj (List.mem_singleton.mp hb')
        exact .inr (List.mem_append_right _ (List.mem_singleton.mpr rfl))
    · cases List.mem_singleton.mp hb'
  · intro b' hb'
    exact List.mem_append_left _ (List.mem_append_left _ hb')

/-- RAN for a job of a batch, whose completion function, if it has one and the
job was the last, is run or scheduled. -/
theorem Squelched.ranJob (h : j.Squelched) (hB : j.Batches n held unrun) {w : WorkerRef} {k : Int}
    (hw : held w = some (b, k)) (reply : Bool) :
    (if (j.jobRan (b, k) reply).2 then (j.jobRan (b, k) reply).1.clear b
      else (j.jobRan (b, k) reply).1).Squelched := by
  have hl : Live j.waiting held (b, k) := .inr ⟨w, hw⟩
  by_cases hk : k = -1
  · subst hk
    exact h.clear (h.timerOf_of_live hB hl)
  obtain ⟨batch, hb⟩ := hB.exists_batch hl
  obtain ⟨j', hj'⟩ : ∃ j', j' = { j with
      heap := j.heap.set b { batch with jobsOutstanding := batch.jobsOutstanding - 1 } } := ⟨_, rfl⟩
  have hset : j'.Squelched := by
    rw [hj']
    exact h.heap_set hb rfl rfl
  have htimer : j'.timerOf = j.timerOf := by
    rw [hj']
    exact timerOf_set hb rfl rfl
  rcases hz : j.timerOf b with _ | z
  · have hz' : j'.timerOf b = none := by rw [htimer, hz]
    rcases jobRan_cases hb hB.valid hk reply rfl hj' with
      ⟨-, he⟩ | ⟨-, ⟨-, he⟩ | ⟨-, he⟩ | ⟨-, q, -, he⟩⟩
    · rw [he]
      exact hset
    · rw [he]
      exact hset.clear hz'
    · rw [he]
      exact (hset.jobCompletion hz').clear (timerOf_jobCompletion hz')
    · rw [he]
      refine (hset.requeue (requeued_push j' q (b, -1))).record_scheduled ?_
      cases q <;> exact hz'
  · have hc := complete_of_timerOf hb hz
    have hthread : batch.completeInThread = -1 := by
      refine h.inProxy (batch.complete, batch.completeInThread) ?_ (by rw [hc]; rfl)
      exact List.mem_map.mpr ⟨batch, List.mem_of_getElem? hb, rfl⟩
    rcases jobRan_of_timer hb hc hthread hk reply hj' with he | he
    · rw [he]
      exact hset
    · rw [he]
      have hlt : b < j.heap.length := (List.getElem?_eq_some_iff.mp hb).1
      have hmem : b ∈ j'.batches := by
        rw [hj']
        exact h.owned_of_live hB hl hz
      have hb' : j'.heap[b]? =
          some { batch with jobsOutstanding := batch.jobsOutstanding - 1 } := by simp [hj', hlt]
      exact hset.ranTimer hmem hb' hc

end Jobs

end ArqmaMQ
