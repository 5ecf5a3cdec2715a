import ArqmaMQ.ProxyAccess

/-! What the proxy has put into a worker's record is what the thread finds there:
every worker with a job in hand holds a batch job, or an accepted command as
`load` left it. -/

namespace ArqmaMQ

variable {ι R : Type}

/-- The record as its load has left it, up to the thread. -/
def RunInfo.LoadedWith (r : RunInfo ι) (q : PendingCommand ι) : Prop :=
  ∃ r₀ : RunInfo ι, r = { r₀.loadPending q with workerThread := r.workerThread }

theorem RunInfo.LoadedWith.thread {r : RunInfo ι} {q : PendingCommand ι} (h : r.LoadedWith q)
    (th : Option Thread) : LoadedWith { r with workerThread := th } q := by
  obtain ⟨r₀, hr⟩ := h
  exact ⟨r₀, by rw [hr]⟩

theorem RunInfo.runWorker_eq (r : RunInfo ι) :
    r.runWorker = { r with workerThread := r.runWorker.workerThread } := by
  rcases ht : r.workerThread with _ | t <;> simp [runWorker, ht]

theorem RunInfo.loadedWith_runWorker (r : RunInfo ι) (q : PendingCommand ι) :
    (r.loadPending q).runWorker.LoadedWith q :=
  ⟨r, runWorker_eq _⟩

variable [DecidableEq ι]

namespace Pool

variable {quit : Prop} {p : Pool ι}

/-- `assign` touches one worker, which was free. -/
theorem Synced.assign_spec (h : p.Synced quit) (k : JobClass ι) (f : RunInfo ι → RunInfo ι) :
    ∃ w r, Frame p (p.assign k f) w ∧ p.stage w = some .free ∧
      (p.assign k f).run? w = some (f r).runWorker ∧
      (p.assign k f).stage w = some (.loaded (f r).task) := by
  rcases List.eq_nil_or_concat p.idleWorkers with hi | ⟨l, i, hi⟩
  · rw [assign_of_nil k f hi]
    let q : Pool ι := { p with workers := p.workers ++ [(f {}).runWorker] }
    let e : WorkerEvent ι := .loaded (.general p.workers.length) (f {}).task 0
    have hfree : p.stage (.general p.workers.length) = some .free := h.unborn _ (by simp [run?])
    exact ⟨.general p.workers.length, {}, ((Frame.append p (f {}).runWorker).trans
      (Frame.record q e)).trans (Frame.active (q.record e) _ _), hfree, by simp [run?],
      stage_record_self (p := q) (e := e) hfree rfl rfl⟩
  · have hnodup := h.idle_nodup
    rw [hi, List.concat_eq_append] at hnodup
    obtain ⟨-, r, hr, hs, -⟩ := h.free_of_idle (i := i) (by simp [hi])
    rw [List.concat_eq_append] at hi
    rw [assign_of_concat k f hi hr]
    let q : Pool ι := p.setRun (.general i) (f r).runWorker
    let e : WorkerEvent ι := .loaded (.general i) (f r).task r.inFlight
    refine ⟨.general i, r, (((Frame.modifyRun p (.general i) _).trans (Frame.record q e)).trans
      (Frame.idle (q.record e) l i ?_)).trans (Frame.active _ _ _), hs, ?_, ?_⟩
    · intro j hj
      simp [q, e, record, hi, Ne.symm hj]
    · exact (run?_record q e _).trans (run?_setRun (w := .general i) hr _)
    · exact stage_record_self (p := q) (e := e) ((stage_modifyRun p _ _ _).trans hs) rfl rfl

theorem Synced.assignTagged_spec (h : p.Synced quit) {i : Nat} {t : TaggedWorker ι}
    (ht : p.taggedWorkers[i]? = some t) (hbusy : t.busy = false) (f : RunInfo ι → RunInfo ι) :
    Frame p (p.assignTagged i f) (.tagged i) ∧
      (p.assignTagged i f).stage (.tagged i) = some (.loaded (f t.run).task) := by
  obtain ⟨hs, -⟩ := h.free_of_not_busy ht hbusy
  rw [assignTagged_eq f (show p.run? (.tagged i) = some t.run by simp [run?, ht])]
  let q : Pool ι := (p.setBusy i true).setRun (.tagged i) (f t.run).runWorker
  let e : WorkerEvent ι := .loaded (.tagged i) (f t.run).task t.run.inFlight
  exact ⟨((Frame.setBusy p i true).trans (Frame.modifyRun _ (.tagged i) _)).trans
    (Frame.record q e),
    stage_record_self (p := q) (e := e) ((stage_modifyRun _ _ _ _).trans hs) rfl rfl⟩

omit [DecidableEq ι] in
theorem run?_foldl_sendQuit (ws : List WorkerRef) (p : Pool ι) (w : WorkerRef) :
    (ws.foldl sendQuit p).run? w = (p.run? w).map fun r => { r with
      workerThread := r.workerThread.map fun t =>
        { t with inbox := t.inbox ++ List.replicate (ws.count w) .quit } } := by
  induction ws generalizing p with
  | nil => simp
  | cons w' ws ih =>
    rw [List.foldl_cons, ih, sendQuit, run?_modifyRun]
    by_cases hw : w' = w
    · subst hw
      simp [Option.map_map, Function.comp_def, List.replicate_succ]
    · simp [hw]

theorem stage_foldl_sendQuit (ws : List WorkerRef) (p : Pool ι) (w : WorkerRef) :
    (ws.foldl sendQuit p).stage w = p.stage w := by
  induction ws generalizing p with
  | nil => rfl
  | cons w' ws ih => rw [List.foldl_cons, ih, sendQuit, stage_modifyRun]

end Pool

namespace Dispatch

variable {d d' : Dispatch ι R} {w : WorkerRef}

/-- What a step of the scheduler can do to one worker. -/
inductive Change (d d' : Dispatch ι R) (w : WorkerRef) : Prop
  | thread (hs : d'.pool.stage w = d.pool.stage w)
    (hr : ∀ r', d'.pool.run? w = some r' →
      ∃ r th, d.pool.run? w = some r ∧ r' = { r with workerThread := th })
  | batchJob (job : BatchJob) (hs : d'.pool.stage w = some (.loaded (some (.batch job))))
  | command (q : PendingCommand ι) (hq : q ∈ d'.accepted)
    (hr : ∃ r : RunInfo ι, d'.pool.run? w = some (r.loadPending q).runWorker)
    (hs : d'.pool.stage w = some (.loaded (some (.command q.cat q.serial))))
  | executed (t : Option (Task ι)) (hs : d.pool.stage w = some (.loaded t))
    (hs' : d'.pool.stage w = some (.executed t))
  | freed (hs : d'.pool.stage w = some .free)

theorem Change.same (hr : d'.pool.run? w = d.pool.run? w)
    (hs : d'.pool.stage w = d.pool.stage w) : Change d d' w := by
  refine .thread hs fun r' hr' => ?_
  rw [hr] at hr'
  exact ⟨r', r'.workerThread, hr', rfl⟩

theorem Change.of_frame {w' : WorkerRef} (hf : Pool.Frame d.pool d'.pool w') (hw : w' ≠ w) :
    Change d d' w :=
  .same (hf.run w hw) (hf.stage w hw)

theorem Change.of_loadPending (hh : d.HandOff) {q : PendingCommand ι}
    (hp : d'.pool = d.pool.assign (.category q.cat) (·.loadPending q)) (hq : q ∈ d'.accepted)
    (w : WorkerRef) : Change d d' w := by
  obtain ⟨w₀, r, hf, -, hr, hs⟩ := hh.1.assign_spec (.category q.cat) (·.loadPending q)
  rw [← hp] at hf hr hs
  by_cases hw : w₀ = w
  · subst hw
    rw [RunInfo.task_loadPending] at hs
    exact .command q hq ⟨r, hr⟩ hs
  · exact .of_frame hf hw

theorem change_startTagged (hh : d.HandOff) (i : Nat) (w : WorkerRef) :
    Change d (d.startTagged i) w := by
  unfold startTagged
  split
  · rename_i t job rest ht hj
    split
    · exact .same rfl rfl
    · rename_i hb
      obtain ⟨hf, hs⟩ := hh.1.assignTagged_spec ht (by simpa using hb)
        (·.loadBatchJob job false (i + 1))
      by_cases hw : .tagged i = w
      · subst hw
        exact .batchJob job hs
      · exact .of_frame hf hw
  · exact .same rfl rfl

theorem change_workerMessage (hh : d.HandOff) {w₀ : WorkerRef}
    (h : d.proxyWorkerMessage w₀ = some d') (w : WorkerRef) : Change d d' w := by
  obtain ⟨r, t, rest, hr, ht, ⟨ho, r₁, hr₁, hran⟩ | ⟨ho, rfl⟩⟩ := proxyWorkerMessage_eq_some h
  · obtain ⟨q, clear, jobs, hq, rfl, -⟩ := workerRan_eq_some hran
    obtain ⟨hs, -, -⟩ := hh.1.executed_of_ran hr ht ho
    have htask : r.task = r₁.task := by rw [hr₁]; rfl
    rw [htask] at hs
    let q₂ : Pool ι := q.record (.ran w₀ r₁.task)
    have hstage : q₂.stage w₀ = some .free := by
      refine Pool.stage_record_self (s := .executed r₁.task) ?_ rfl (by simp [Stage.next])
      rw [Pool.stage_finishActive hq]
      exact (Pool.stage_modifyRun d.pool w₀ w₀ _).trans hs
    have hframe : Pool.Frame d.pool q₂ w₀ :=
      ((Pool.Frame.modifyRun d.pool w₀ _).trans (Pool.Frame.finishActive hq)).trans
        (Pool.Frame.record q (.ran w₀ r₁.task))
    obtain ⟨q₃, hq₃, hframe₃, hstage₃⟩ : ∃ q₃, q₃ = (if clear then q₂.clearToRun w₀ else q₂) ∧
        Pool.Frame d.pool q₃ w₀ ∧ q₃.stage w₀ = some .free := by
      refine ⟨_, rfl, ?_⟩
      cases clear with
      | false => exact ⟨hframe, hstage⟩
      | true => exact ⟨hframe.trans (Pool.Frame.modifyRun q₂ w₀ _),
          (Pool.stage_modifyRun q₂ w₀ w₀ _).trans hstage⟩
    have hlog := Pool.log_release q₃ (d.maxWorkers = 0) w₀
    by_cases hw : w₀ = w
    · subst hw
      refine .freed ?_
      change ((if clear then q₂.clearToRun w₀ else q₂).release _ w₀).stage w₀ = _
      rw [← hq₃, Pool.stage, Pool.history, hlog]
      exact hstage₃
    · have hall := hframe₃.trans (Pool.Frame.release q₃ (d.maxWorkers = 0) w₀)
      rw [hq₃] at hall
      exact .of_frame hall hw
  · by_cases hw : w₀ = w
    · subst hw
      refine .thread (Pool.stage_modifyRun d.pool w₀ w₀ _) fun r' hr' => ?_
      obtain rfl := Option.some.inj ((Pool.run?_setRun hr _).symm.trans hr')
      exact ⟨r, none, hr, rfl⟩
    · exact .of_frame (Pool.Frame.modifyRun d.pool w₀ _) hw

theorem change_stepThread {p : Pool ι} {w₀ : WorkerRef} {f : Thread → Option Thread}
    (h : d.pool.stepThread w₀ f = some p) (w : WorkerRef) : Change d { d with pool := p } w := by
  obtain ⟨r, t, t', hr, -, -, rfl⟩ := Pool.stepThread_eq_some h
  by_cases hw : w₀ = w
  · subst hw
    refine .thread (Pool.stage_modifyRun d.pool w₀ w₀ _) fun r' hr' => ?_
    obtain rfl := Option.some.inj ((Pool.run?_setRun hr _).symm.trans hr')
    exact ⟨r, some t', hr, rfl⟩
  · exact .of_frame (Pool.Frame.modifyRun d.pool w₀ _) hw

theorem change_execute (hh : d.HandOff) {w₀ : WorkerRef} {res : JobResult R}
    (h : d.execute w₀ res = some d') (w : WorkerRef) : Change d d' w := by
  obtain ⟨_, pool, jobs, -, hp, rfl, -⟩ := execute_eq_some h
  obtain ⟨r, r', hr, hr', rfl⟩ := Pool.execute_eq_some hp
  obtain ⟨hs, -, -⟩ := hh.1.loaded_of_execute hr hr'
  by_cases hw : w₀ = w
  · subst hw
    refine .executed r.task hs ?_
    refine Pool.stage_record_self ((Pool.stage_modifyRun d.pool w₀ w₀ _).trans hs) rfl ?_
    simp [Stage.next, RunInfo.task_of_execute hr']
  · exact .of_frame ((Pool.Frame.modifyRun d.pool w₀ _).trans
      (Pool.Frame.record _ (.executed w₀ r'.task))) hw

theorem change_quit (d : Dispatch ι R) (w : WorkerRef) : Change d d.quit w := by
  refine .thread (Pool.stage_foldl_sendQuit _ _ w) fun r' hr' => ?_
  rw [quit, Pool.run?_foldl_sendQuit] at hr'
  obtain ⟨r, hr, rfl⟩ := Option.map_eq_some_iff.mp hr'
  exact ⟨r, _, by cases w <;> exact hr, rfl⟩

theorem Move.change (hh : d.HandOff) (ha : d.Accounted) (hm : Move d d') (w : WorkerRef) :
    Change d d' w := by
  cases hm with
  | quit => exact change_quit d w
  | workerMessage w₀ _ h => exact change_workerMessage hh h w
  | startTagged i _ => exact change_startTagged hh i w
  | startBatchJob reply job rest _ _ _ _ =>
    obtain ⟨w₀, r, hf, -, -, hs⟩ := hh.1.assign_spec (batchClass ι reply)
      (·.loadBatchJob job reply 0)
    by_cases hw : w₀ = w
    · subst hw
      exact .batchJob job hs
    · exact .of_frame hf hw
  | startPending pre q post _ _ hc _ _ =>
    have hpool : (d.startPending pre q post).pool =
        d.pool.assign (.category q.cat) (·.loadPending q) := rfl
    exact .of_loadPending hh hpool (ha.pending q (by simp [hc])) w
  | receive w₀ h => exact change_stepThread h w
  | sendRan w₀ h => exact change_stepThread h w
  | execute w₀ res h => exact change_execute hh h w
  | _ => exact .same rfl rfl

/-- Every job in hand can be told from the record, and a command that is still to
be run is an accepted one. -/
structure Intact (d : Dispatch ι R) : Prop where
  task : ∀ w t, d.pool.stage w = some (.loaded t) ∨ d.pool.stage w = some (.executed t) →
    t.isSome = true
  command : ∀ w r c n, d.pool.run? w = some r →
    d.pool.stage w = some (.loaded (some (.command c n))) →
    ∃ q ∈ d.accepted, r.LoadedWith q ∧ q.cat = c ∧ q.serial = n

theorem Intact.change (h : d.Intact) (ha : ∀ q ∈ d.accepted, q ∈ d'.accepted)
    (hc : ∀ w, Change d d' w) : d'.Intact := by
  refine ⟨?_, ?_⟩
  · intro w t ht
    cases hc w with
    | thread hs _ => exact h.task w t (by rwa [hs] at ht)
    | batchJob job hs => simp only [hs] at ht; rcases ht with ht | ht <;> cases ht; rfl
    | command q _ _ hs => simp only [hs] at ht; rcases ht with ht | ht <;> cases ht; rfl
    | executed t' hs hs' =>
      simp only [hs'] at ht
      rcases ht with ht | ht
      · cases ht
      · obtain rfl : t' = t := by simpa using ht
        exact h.task w t' (.inl hs)
    | freed hs => simp only [hs] at ht; rcases ht with ht | ht <;> cases ht
  · intro w r c n hr ht
    cases hc w with
    | thread hs hrun =>
      obtain ⟨r₀, th, hr₀, rfl⟩ := hrun r hr
      obtain ⟨q, hq, hload, hcat⟩ := h.command w r₀ c n hr₀ (by rwa [hs] at ht)
      exact ⟨q, ha q hq, hload.thread th, hcat⟩
    | batchJob job hs => rw [hs] at ht; cases ht
    | command q hq hrun hs =>
      rw [hs] at ht
      cases ht
      obtain ⟨r₀, hr₀⟩ := hrun
      obtain rfl := Option.some.inj (hr.symm.trans hr₀)
      exact ⟨q, hq, r₀.loadedWith_runWorker q, rfl, rfl⟩
    | executed t _ hs => rw [hs] at ht; cases ht
    | freed hs => rw [hs] at ht; cases ht

theorem Move.accepted_mem (hm : Move d d') {q : PendingCommand ι} (hq : q ∈ d.accepted) :
    q ∈ d'.accepted := by
  cases hm with
  | workerMessage w _ h =>
    obtain ⟨pool, jobs, rfl⟩ := workerMessage_frame h
    exact hq
  | queueCommand p _ _ => exact List.mem_append_left _ hq
  | startTagged i _ =>
    rw [(startTagged_frame d i).2.2.2]
    exact hq
  | execute w r h =>
    obtain ⟨_, pool, jobs, -, -, rfl, -⟩ := execute_eq_some h
    exact hq
  | _ => exact hq

theorem intact_of_reachable [Fintype ι] (h : (machine ι R).Reachable d) : d.Intact := by
  refine (reachable_invariant (P := fun d => d.HandOff ∧ d.Accounted ∧ d.Intact) ?_ ?_ ?_ h).2.2
  · intro cfg
    have hfree : ∀ w, (start cfg : Dispatch ι R).pool.stage w = some .free := fun _ => rfl
    refine ⟨HandOff.init cfg, ⟨by simp [start], by simp [start, Pool.started]⟩, ?_, ?_⟩
    · intro w t ht
      simp [hfree] at ht
    · intro w r c n _ ht
      simp [hfree] at ht
  · rintro d d' ⟨hh, ha, hi⟩ hm
    exact ⟨hh.move hm, ha.move hh hm,
      hi.change (fun q hq => hm.accepted_mem hq) (hm.change hh ha)⟩
  · rintro d p ⟨hh, ha, hi⟩ - - -
    exact ⟨hh.startCommand p, ha.startCommand hh p,
      hi.change (fun q hq => List.mem_append_left _ hq)
        (Change.of_loadPending hh rfl (List.mem_append_right _ (List.mem_singleton_self p)))⟩

end Dispatch

end ArqmaMQ
