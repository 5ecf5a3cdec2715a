import ArqmaMQ.ProxySteps

/-! The functions that have been scheduled as jobs, and which events schedule
more of them. -/

namespace ArqmaMQ

def Effect.closure : Effect → Closure
  | .job f => f
  | .replyJob f => f

namespace Jobs

variable {R : Type} {j j' j'' : Jobs R}

/-- Every function handed to `batch()`, `job()` or the proxy's own schedulers,
in the order of the batches. -/
def closures (j : Jobs R) : List Closure := j.heap.flatMap fun b => b.jobs.map Prod.fst

/-- Timers run what callers passed in. -/
def UserTimers (j : Jobs R) : Prop := ∀ t ∈ j.timerJobs, t.2.function.isUser = true

/-- A change that schedules the functions `fs`. -/
structure Schedules (j j' : Jobs R) (fs : List Closure) : Prop where
  closures : j'.closures = j.closures ++ fs
  timers : j.UserTimers → j'.UserTimers

theorem Schedules.refl (j : Jobs R) : Schedules j j [] := ⟨(List.append_nil _).symm, id⟩

theorem Schedules.trans {fs gs : List Closure} (h : Schedules j j' fs) (h' : Schedules j' j'' gs) :
    Schedules j j'' (fs ++ gs) :=
  ⟨by rw [h'.closures, h.closures, List.append_assoc], h'.timers ∘ h.timers⟩

/-- Only the batches and the timers matter. -/
theorem Schedules.congr {fs : List Closure} {k : Jobs R} (h : Schedules j j' fs)
    (hh : k.heap = j'.heap) (ht : k.timerJobs = j'.timerJobs) : Schedules j k fs := by
  refine ⟨Eq.trans ?_ h.closures, fun hu => ?_⟩
  · simp only [Jobs.closures, hh]
  · rw [UserTimers, ht]
    exact h.timers hu

/-- What happens to the batches apart from their jobs is of no account. -/
theorem schedules_nil (h : j'.heap.map (·.jobs) = j.heap.map (·.jobs))
    (ht : j.UserTimers → j'.UserTimers) : Schedules j j' [] := by
  refine ⟨?_, ht⟩
  have hmap : ∀ k : Jobs R, k.closures = (k.heap.map (·.jobs)).flatMap (·.map Prod.fst) := by
    intro k
    rw [List.flatMap_map]
    rfl
  rw [hmap, hmap, h, List.append_nil]

theorem Schedules.push {fs : List Closure} (h : Schedules j j' fs) (q : Queue) (job : BatchJob) :
    Schedules j (j'.push q job) fs := by
  cases q <;> exact h.congr rfl rfl

theorem Schedules.foldl_push {α : Type} {fs : List Closure} (l : List α) (q : α → Queue)
    (job : α → BatchJob) (h : Schedules j j' fs) :
    Schedules j (l.foldl (fun j a => j.push (q a) (job a)) j') fs := by
  induction l generalizing j' with
  | nil => exact h
  | cons a l ih => exact ih (h.push (q a) (job a))

theorem userTimers_setRunning (timerId : Nat) (running : Bool) (h : j.UserTimers) :
    (j.setRunning timerId running).UserTimers := by
  intro t ht
  obtain ⟨⟨i, t⟩, hmem, rfl⟩ := List.mem_map.mp ht
  have hu := h (i, t) hmem
  dsimp only
  split <;> exact hu

theorem schedules_allocate (j : Jobs R) (jobs : List (Closure × Int))
    (comp : Option (Closure × Int)) : Schedules j (j.allocate jobs comp) (jobs.map Prod.fst) := by
  refine ⟨?_, id⟩
  simp [closures, allocate, Batch.build_eq]

theorem schedules_set {b : Nat} {batch batch' : Batch R} (hb : j.heap[b]? = some batch)
    (h : batch'.jobs = batch.jobs) : Schedules j { j with heap := j.heap.set b batch' } [] := by
  refine schedules_nil ?_ id
  rw [List.map_set, h]
  refine List.ext_getElem? fun i => ?_
  rw [List.getElem?_set]
  split
  · rename_i hi
    subst hi
    obtain ⟨hlt, rfl⟩ := List.getElem?_eq_some_iff.mp hb
    simp [hlt]
  · rfl

theorem schedules_jobCompletion (j : Jobs R) (b : Nat) : Schedules j (j.jobCompletion b) [] := by
  unfold jobCompletion
  split
  · exact .refl j
  · rename_i batch hb
    have hset : Schedules j { j with heap := j.heap.set b batch.jobCompletion.2 } [] :=
      schedules_set hb rfl
    rcases hc : batch.complete with _ | f
    · exact hset.congr rfl rfl
    · simp only [Option.elim_some]
      unfold runClosure
      split
      · exact ⟨hset.closures, fun h => userTimers_setRunning _ _ (hset.timers h)⟩
      · exact hset.congr rfl rfl

theorem schedules_jobRan (j : Jobs R) (job : BatchJob) (reply : Bool) :
    Schedules j (j.jobRan job reply).1 [] := by
  unfold jobRan
  split
  · exact .refl j
  split
  · exact .refl j
  rename_i batch hb
  have hjobs : batch.jobFinished.2.jobs = batch.jobs := by
    unfold Batch.jobFinished
    dsimp only
    split_ifs <;> rfl
  have hset := schedules_set hb hjobs
  rcases hf : batch.jobFinished with ⟨⟨state, thread⟩, batch'⟩
  rw [hf] at hset
  cases state with
  | running => exact hset
  | done => exact hset
  | complete =>
    dsimp only
    split
    · exact hset.trans (schedules_jobCompletion _ _)
    · exact (hset.push _ _).congr rfl rfl

theorem schedules_proxyBatch (j : Jobs R) (b : Nat) (batch : Batch R) :
    Schedules j (j.proxyBatch b batch) [] := by
  unfold proxyBatch
  dsimp only
  have hstart : Schedules j
      { j with submitted := j.submitted.erase b, batches := j.batches.insert b } [] :=
    (Schedules.refl j).congr rfl rfl
  split
  · exact hstart.foldl_push _ (fun a : Int × Nat => queueOf a.1 .batch) fun a => (b, (a.2 : Int))
  · exact hstart.foldl_push _ (fun _ => .batch) fun i : Nat => (b, (i : Int))

theorem schedules_runJob (j : Jobs R) (b i : Nat) (r : JobResult R) :
    Schedules j (j.runJob b i r) [] := by
  refine schedules_nil ?_ id
  refine List.ext_getElem? fun k => ?_
  simp only [runJob, record, List.getElem?_map, List.getElem?_modify]
  rcases j.heap[k]? with _ | batch
  · rfl
  · by_cases hk : b = k <;> simp [hk, Batch.runJob]

theorem schedules_queueTimerJob (j : Jobs R) (timerId : Nat) (h : j.UserTimers) :
    ∃ fs, Schedules j (j.queueTimerJob timerId) fs ∧ ∀ f ∈ fs, f.isUser = true := by
  unfold queueTimerJob
  split
  · exact ⟨[], .refl j, by simp⟩
  rename_i t hfind
  have hu := h _ (List.mem_of_find?_eq_some hfind)
  split
  · exact ⟨[], .refl j, by simp⟩
  split
  · exact ⟨[], .refl j, by simp⟩
  refine ⟨[t.function], Schedules.push ?_ _ _, by simpa using hu⟩
  split
  · have hsquelch : Schedules j ((j.allocate [(t.function, t.thread)]
        (some (.timerCompletion timerId, -1))).setRunning timerId true) [t.function] :=
      ⟨(schedules_allocate _ _ _).closures, fun ht => userTimers_setRunning timerId true ht⟩
    exact hsquelch.congr rfl rfl
  · exact (schedules_allocate j [(t.function, t.thread)] none).congr rfl rfl

end Jobs

namespace Dispatch

open Jobs

variable {ι R : Type} [DecidableEq ι] {d d' : Dispatch ι R}

theorem schedules_serve (h : Serve d d') : Schedules d.jobs d'.jobs [] := by
  cases h with
  | tagged i =>
    unfold startTagged
    split
    · split
      · exact .refl _
      · exact (Schedules.refl _).congr rfl rfl
    · exact .refl _
  | batchJob reply => cases reply <;> exact (Schedules.refl _).congr rfl rfl
  | pending => exact .refl _

theorem schedules_next (h : d.next = some d') : Schedules d.jobs d'.jobs [] := by
  refine next_invariant (P := fun e => Schedules d.jobs e.jobs []) ?_ (fun _ _ _ => id) h (.refl _)
  exact fun e e' hs he => he.trans (schedules_serve hs)

theorem schedules_workerMessage {w : WorkerRef} (h : d.proxyWorkerMessage w = some d') :
    Schedules d.jobs d'.jobs [] := by
  obtain ⟨r, t, rest, -, -, ⟨-, r₁, -, hran⟩ | ⟨-, rfl⟩⟩ := proxyWorkerMessage_eq_some h
  · obtain ⟨q, clear, jobs, -, rfl, ⟨-, -, rfl⟩ | ⟨-, b, -, -, rfl⟩⟩ := workerRan_eq_some hran
    · exact .refl _
    · have hjob := d.jobs.schedules_jobRan (b, r₁.batchJobno) r₁.isReplyJob
      dsimp only
      split
      · exact hjob.congr rfl rfl
      · exact hjob
  · exact .refl _

omit [DecidableEq ι] in
theorem schedules_execute {w : WorkerRef} {r : JobResult R} (h : d.execute w r = some d') :
    Schedules d.jobs d'.jobs [] := by
  obtain ⟨run, pool, jobs, -, -, rfl, rfl⟩ := execute_eq_some h
  dsimp only
  split
  · split
    · exact schedules_runJob _ _ _ _
    · split
      · exact schedules_jobCompletion _ _
      · exact .refl _
  · exact .refl _

theorem schedules_proxyCommand (d : Dispatch ι R) (q : PendingCommand ι) :
    Schedules d.jobs (d.proxyCommand q).jobs [] := by
  simp only [proxyCommand]
  split
  · exact .refl _
  · split <;> exact .refl _

/-- Events from outside schedule only functions that callers passed in. -/
theorem schedules_outside {e : DispatchEvent ι R} (ht : d.jobs.UserTimers)
    (he : e.fromOutside = true) (h : d.step e = some d') :
    ∃ fs, Schedules d.jobs d'.jobs fs ∧ (∀ f ∈ fs, f.isUser = true) ∧ d'.jobs.UserTimers := by
  have hnil (hs : Schedules d.jobs d'.jobs []) :
      ∃ fs, Schedules d.jobs d'.jobs fs ∧ (∀ f ∈ fs, f.isUser = true) ∧ d'.jobs.UserTimers :=
    ⟨[], hs, by simp, hs.timers ht⟩
  cases e with
  | submit jobs comp =>
    obtain ⟨-, rfl⟩ : _ ∧ _ = d' := by simpa [step] using h
    refine ⟨jobs.map Prod.fst, (schedules_allocate _ _ _).congr rfl rfl, ?_, ht⟩
    have hall := (Bool.and_eq_true_iff.mp he).1
    simpa using hall
  | batch b =>
    simp only [step] at h
    split at h
    · obtain ⟨batch, -, rfl⟩ := Option.map_eq_some_iff.mp h
      exact hnil (schedules_proxyBatch _ _ _)
    · cases h
  | inject q =>
    obtain ⟨-, rfl⟩ : _ ∧ d.proxyCommand q = d' := by simpa [step] using h
    exact hnil (d.schedules_proxyCommand q)
  | addTimer id function squelch thread zmqTimerId =>
    obtain ⟨-, rfl⟩ : _ ∧ _ = d' := by simpa [step] using h
    refine ⟨[], ⟨(List.append_nil _).symm, fun _ => ?_⟩, by simp, ?_⟩
    all_goals
      intro t hmem
      rcases List.mem_append.mp hmem with hmem | hmem
      · exact ht t (List.mem_filter.mp hmem).1
      · obtain rfl := List.mem_singleton.mp hmem
        exact he
  | delTimer id =>
    obtain ⟨-, rfl⟩ : _ ∧ _ = d' := by simpa [step] using h
    refine hnil ?_
    dsimp only
    unfold proxyTimerDel
    split
    · exact .refl _
    · exact (Schedules.refl _).congr rfl rfl
  | quit =>
    obtain ⟨-, rfl⟩ : _ ∧ _ = d' := by simpa [step] using h
    exact hnil (.refl _)
  | workerMessage w =>
    obtain ⟨-, hw⟩ : _ ∧ d.proxyWorkerMessage w = some d' := by simpa [step] using h
    exact hnil (schedules_workerMessage hw)
  | timer id =>
    obtain ⟨-, rfl⟩ : _ ∧ _ = d' := by simpa [step] using h
    obtain ⟨fs, hs, hu⟩ := d.jobs.schedules_queueTimerJob id ht
    exact ⟨fs, hs, hu, hs.timers ht⟩
  | receive w =>
    obtain ⟨pool, -, rfl⟩ := Option.map_eq_some_iff.mp h
    exact hnil (.refl _)
  | execute w r => exact hnil (schedules_execute h)
  | sendRan w =>
    obtain ⟨pool, -, rfl⟩ := Option.map_eq_some_iff.mp h
    exact hnil (.refl _)
  | _ => cases he

theorem schedules_effect {e : Effect} (h : d.step e.event = some d') :
    Schedules d.jobs d'.jobs [e.closure] := by
  cases e with
  | job f =>
    obtain ⟨-, rfl⟩ : _ ∧ _ = d' := by simpa [step, Effect.event] using h
    exact (schedules_allocate d.jobs [(f, 0)] none).congr rfl rfl
  | replyJob f =>
    obtain ⟨-, rfl⟩ : _ ∧ _ = d' := by simpa [step, Effect.event] using h
    refine Schedules.push ?_ .reply _
    exact (schedules_allocate d.jobs [(f, 0)] none).congr rfl rfl

theorem schedules_perform {es : List Effect} (h : d.perform es = some d') :
    Schedules d.jobs d'.jobs (es.map Effect.closure) := by
  induction es generalizing d with
  | nil =>
    obtain rfl : d = d' := by simpa [perform] using h
    exact .refl _
  | cons e es ih =>
    obtain ⟨d₁, hd₁, h⟩ := perform_cons.mp h
    exact (schedules_effect hd₁).trans (ih h)

end Dispatch

end ArqmaMQ
