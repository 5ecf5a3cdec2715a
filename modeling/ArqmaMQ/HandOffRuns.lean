import ArqmaMQ.HandOff

/-! Every move of the scheduler keeps the workers in step with the proxy. -/

namespace ArqmaMQ

variable {ι R : Type} [DecidableEq ι]

namespace Pool

variable {quit : Prop} {p p' : Pool ι} {w : WorkerRef} {r : RunInfo ι}

/-- A change of one worker's record, with nothing new in the histories. -/
theorem Synced.setRun (h : p.Synced quit) (hr : p.run? w = some r) (r' : RunInfo ι)
    (hw : ∀ s, InSync quit w (p.Busy w) s r → InSync quit w (p.Busy w) s r') :
    (p.setRun w r').Synced quit := by
  obtain ⟨s, hs, hin⟩ := h.worker w r hr
  refine h.update (Frame.modifyRun p w _) (by simpa using h.idle_nodup)
    (by simpa using h.idle_lt) (by simpa using h.idle_quit) ⟨r', s, run?_setRun hr r', ?_, ?_⟩
  · rw [stage_modifyRun, hs]
  · have hin' := hw s hin
    exact ⟨hin'.task, hin'.thread, fun ht => (busy_modifyRun p w w _).trans (hin'.busy_iff ht),
      hin'.batch⟩

theorem Synced.stepThread (h : p.Synced quit) {f : Thread → Option Thread}
    (hs : p.stepThread w f = some p')
    (hf : ∀ {t t' l e}, Thread.At t quit l e → f t = some t' → Thread.At t' quit l e) :
    p'.Synced quit := by
  obtain ⟨r, t, t', hr, ht, hft, rfl⟩ := stepThread_eq_some hs
  refine h.setRun hr _ ?_
  intro s hin
  have hat := hin.thread
  rw [ht] at hat
  exact ⟨hin.task, hf hat hft, hin.busy_iff, hin.batch⟩

/-- A thread runs the job its worker was loaded with. -/
theorem Synced.loaded_of_execute (h : p.Synced quit) {r' : RunInfo ι} {threw : Bool}
    (hr : p.run? w = some r) (hr' : r.execute threw = some r') : p.stage w = some (.loaded r.task) ∧
      InSync quit w (p.Busy w) (.loaded r.task) r ∧
      ∃ t, r'.workerThread = some t ∧ t.At quit 0 1 := by
  obtain ⟨s, hs, hin⟩ := h.worker w r hr
  obtain ⟨t, next, rem, m, ht, hpc, -, rfl⟩ := RunInfo.execute_eq_some hr'
  have hat := hin.thread
  rw [ht] at hat
  obtain ⟨hl, hat'⟩ := hat.execute s.loads_add_executions_le hpc m
  cases s with
  | free => simp [Stage.loads] at hl
  | executed _ => simp [Stage.loads] at hl
  | loaded task =>
    obtain rfl := hin.task task (.inl rfl)
    exact ⟨hs, hin, _, rfl, hat'⟩

theorem Synced.execute (h : p.Synced quit) {threw : Bool} (he : p.execute w threw = some p') :
    p'.Synced quit := by
  obtain ⟨r, r', hr, hr', rfl⟩ := execute_eq_some he
  obtain ⟨hs, hin, t, ht, hat⟩ := h.loaded_of_execute hr hr'
  have htask := RunInfo.task_of_execute hr'
  refine h.update ((Frame.modifyRun p w _).trans (Frame.record _ (.executed w r'.task)))
    (by simpa [record] using h.idle_nodup) (by simpa [record] using h.idle_lt)
    (by simpa [record] using h.idle_quit)
    ⟨r', .executed r.task, (run?_record _ _ _).trans (run?_setRun hr r'), ?_, ?_, ?_, ?_, ?_⟩
  · refine stage_record_self ((stage_modifyRun p w w _).trans hs) rfl ?_
    simp [Stage.next, htask]
  · rintro task (hc | hc)
    · cases hc
    · obtain rfl := Stage.executed.inj hc
      exact htask
  · rw [ht]
    exact hat
  · intro htr
    rw [busy_record, busy_modifyRun, hin.busy_iff htr]
    simp
  · intro _ hc
    obtain ⟨_, next, _, _, -, -, hnext, rfl⟩ := RunInfo.execute_eq_some hr'
    refine hin.batch (by simp) (hc.imp id ?_)
    rintro ⟨b, rfl⟩
    rcases hnext with hnext | ⟨-, hnext⟩
    · exact ⟨b, hnext.symm⟩
    · cases hnext

/-- An idle worker is free, and nothing of it is under way. -/
theorem Synced.free_of_idle (h : p.Synced quit) {i : Nat} (hi : i ∈ p.idleWorkers) :
    ¬ quit ∧ ∃ r, p.workers[i]? = some r ∧ p.stage (.general i) = some .free ∧
      InSync quit (.general i) (p.Busy (.general i)) .free r := by
  have hq : ¬ quit := fun hq => by simp [h.idle_quit hq] at hi
  have hr := List.getElem?_eq_getElem (h.idle_lt i hi)
  obtain ⟨s, hs, hin⟩ := h.worker (.general i) _ hr
  obtain rfl : s = .free := by
    by_contra hne
    exact (hin.busy_iff hq).mpr hne hi
  exact ⟨hq, _, hr, hs, hin⟩

theorem Synced.free_of_not_busy (h : p.Synced quit) {i : Nat} {t : TaggedWorker ι}
    (ht : p.taggedWorkers[i]? = some t) (hb : t.busy = false) :
    p.stage (.tagged i) = some .free ∧
      InSync quit (.tagged i) (p.Busy (.tagged i)) .free t.run := by
  obtain ⟨s, hs, hin⟩ := h.worker (.tagged i) t.run (by simp [run?, ht])
  obtain rfl : s = .free := by
    by_contra hne
    obtain ⟨t', ht', hb'⟩ := (hin.busy_iff trivial).mpr hne
    obtain rfl := Option.some.inj (ht.symm.trans ht')
    exact Bool.noConfusion (hb'.symm.trans hb)
  exact ⟨hs, hin⟩

theorem Synced.assign (h : p.Synced quit) (k : JobClass ι) (f : RunInfo ι → RunInfo ι)
    (hf : ∀ r, (f r).workerThread = r.workerThread)
    (hto : ∀ r b, (f r).toRun = .batch b → (f r).isBatchJob = true) :
    (p.assign k f).Synced quit := by
  rcases List.eq_nil_or_concat p.idleWorkers with hi | ⟨l, i, hi⟩
  · rw [assign_of_nil k f hi]
    let q : Pool ι := { p with workers := p.workers ++ [(f {}).runWorker] }
    let e : WorkerEvent ι := .loaded (.general p.workers.length) (f {}).task 0
    refine h.update (((Frame.append p (f {}).runWorker).trans (Frame.record q e)).trans
      (Frame.active (q.record e) _ _)) (by simp [hi]) (by simp [hi]) (by simp [hi])
      ⟨(f {}).runWorker, .loaded (f {}).task, by simp [run?], ?_, ?_⟩
    · exact stage_record_self (p := q) (e := e) (h.unborn _ (by simp [run?])) rfl rfl
    · exact InSync.spawn (hf {}) (by simp [Busy, hi]) (hto {})
  · have hnodup := h.idle_nodup
    rw [hi, List.concat_eq_append] at hnodup
    obtain ⟨hq, r, hr, hs, hin⟩ := h.free_of_idle (i := i) (by simp [hi])
    rw [List.concat_eq_append] at hi
    rw [assign_of_concat k f hi hr]
    let q : Pool ι := p.setRun (.general i) (f r).runWorker
    let e : WorkerEvent ι := .loaded (.general i) (f r).task r.inFlight
    have hnotin : i ∉ l := fun hil => by
      have := List.nodup_append.mp hnodup
      exact this.2.2 i hil i (by simp) rfl
    refine h.update ((((Frame.modifyRun p (.general i) _).trans (Frame.record q e)).trans
      (Frame.idle (q.record e) l i ?_)).trans (Frame.active _ _ _))
      (List.nodup_append.mp hnodup).1 ?_ (fun hq' => absurd hq' hq)
      ⟨(f r).runWorker, .loaded (f r).task, ?_, ?_, ?_⟩
    · intro j hj
      simp [q, e, record, hi, Ne.symm hj]
    · intro j hj
      simpa [record] using h.idle_lt j (by simp [hi, hj])
    · exact (run?_record q e _).trans (run?_setRun (w := .general i) hr _)
    · exact stage_record_self (p := q) (e := e) ((stage_modifyRun p _ _ _).trans hs) rfl rfl
    · refine InSync.load hin hq hnotin (hf r) ?_
      rintro (⟨j, hj⟩ | ⟨b, hb⟩)
      · cases hj
      · exact hto r b hb

theorem Synced.assignTagged (h : p.Synced quit) (hq : ¬ quit) {i : Nat} {t : TaggedWorker ι}
    (ht : p.taggedWorkers[i]? = some t) (hbusy : t.busy = false) (f : RunInfo ι → RunInfo ι)
    (hf : ∀ r, (f r).workerThread = r.workerThread ∧ (f r).isBatchJob = true) :
    (p.assignTagged i f).Synced quit := by
  have hr : p.run? (.tagged i) = some t.run := by simp [run?, ht]
  obtain ⟨hs, hin⟩ := h.free_of_not_busy ht hbusy
  rw [assignTagged_eq f hr]
  let q : Pool ι := (p.setBusy i true).setRun (.tagged i) (f t.run).runWorker
  let e : WorkerEvent ι := .loaded (.tagged i) (f t.run).task t.run.inFlight
  refine h.update (((Frame.setBusy p i true).trans (Frame.modifyRun _ (.tagged i) _)).trans
    (Frame.record q e)) (by simpa [record, setBusy] using h.idle_nodup)
    (by simpa [record, setBusy] using h.idle_lt) (fun hq' => absurd hq' hq)
    ⟨(f t.run).runWorker, .loaded (f t.run).task, ?_, ?_, ?_⟩
  · exact (run?_record q e _).trans (run?_setRun ((run?_setBusy p i true _).trans hr) _)
  · exact stage_record_self (p := q) (e := e) ((stage_modifyRun _ _ _ _).trans hs) rfl rfl
  · refine InSync.load hin hq ?_ (hf _).1 (fun _ => (hf _).2)
    rw [busy_record, busy_modifyRun]
    exact ⟨{ t with busy := true }, by simp [setBusy, ht], rfl⟩

theorem Frame.finishActive {q : Pool ι} (h : Dispatch.finishActive p w r = some q) :
    Frame p q w := by
  rcases Dispatch.finishActive_eq_some h with ⟨i, rfl, -, rfl⟩ | ⟨k, -, rfl, -⟩
  · exact Frame.setBusy p i false
  · exact Frame.active p _ w

theorem Frame.release (p : Pool ι) (quitting : Bool) (w : WorkerRef) :
    Frame p (p.release quitting w) w := by
  unfold Pool.release
  split
  · exact Frame.modifyRun p w _
  · cases w with
    | general i =>
      refine Frame.idle p _ i ?_
      intro j hj
      simp [Ne.symm hj]
    | tagged i => exact Frame.refl p _

theorem run?_finishActive {q : Pool ι} (h : Dispatch.finishActive p w r = some q) :
    q.run? w = p.run? w := by
  rcases Dispatch.finishActive_eq_some h with ⟨i, rfl, -, rfl⟩ | ⟨k, -, rfl, -⟩
  · exact run?_setBusy p i false _
  · cases w <;> rfl

theorem idle_finishActive {q : Pool ι} (h : Dispatch.finishActive p w r = some q) :
    q.idleWorkers = p.idleWorkers ∧ q.workers = p.workers := by
  rcases Dispatch.finishActive_eq_some h with ⟨i, rfl, -, rfl⟩ | ⟨k, -, rfl, -⟩ <;> exact ⟨rfl, rfl⟩

theorem not_busy_finishActive {q : Pool ι} {i : Nat} (h : Dispatch.finishActive p w r = some q)
    (hw : w = .tagged i) (hb : r.isBatchJob = true) : ¬ q.Busy w := by
  rcases Dispatch.finishActive_eq_some h with ⟨j, rfl, -, rfl⟩ | ⟨k, -, -, hk⟩
  · rcases ht : p.taggedWorkers[j]? with _ | t <;> simp [Busy, Pool.setBusy, ht]
  · obtain ⟨j, hj⟩ := hk hb
    rw [hw] at hj
    cases hj

theorem stage_finishActive {q : Pool ι} (h : Dispatch.finishActive p w r = some q) :
    q.stage w = p.stage w := by
  rcases Dispatch.finishActive_eq_some h with ⟨i, rfl, -, rfl⟩ | ⟨k, -, rfl, -⟩ <;> rfl

/-- A worker whose RAN is waiting has run the job it was loaded with. -/
theorem Synced.executed_of_ran (h : p.Synced quit) {t : Thread} {rest : List WorkerReply}
    (hr : p.run? w = some r) (ht : r.workerThread = some t) (ho : t.outbox = .ran :: rest) :
    p.stage w = some (.executed r.task) ∧ InSync quit w (p.Busy w) (.executed r.task) r ∧
      Thread.At { t with outbox := rest } quit 0 0 := by
  obtain ⟨s, hs, hin⟩ := h.worker w r hr
  have hat := hin.thread
  rw [ht] at hat
  obtain ⟨he, hat'⟩ := hat.takeRan s.loads_add_executions_le ho
  cases s with
  | free => simp [Stage.executions] at he
  | loaded _ => simp [Stage.executions] at he
  | executed task =>
    obtain rfl := hin.task task (.inr rfl)
    exact ⟨hs, hin, hat'⟩

/-- A worker that has reported is free again once it is released. -/
theorem Synced.release [Decidable quit] {q : Pool ι} {t : Thread} (h : p.Synced quit)
    (hf : Frame p q w) (hidle : q.idleWorkers = p.idleWorkers)
    (hlen : q.workers.length = p.workers.length) (hr : q.run? w = some r)
    (ht : r.workerThread = some t) (hat : t.At quit 0 0) (hs : q.stage w = some .free)
    (hg : ∀ i, w = .general i → ¬ quit → i ∉ p.idleWorkers)
    (ht' : ∀ i, w = .tagged i → ¬ q.Busy w) : (q.release (decide quit) w).Synced quit := by
  have hfr := hf.trans (Frame.release q (decide quit) w)
  by_cases hq : quit
  · have hnil := h.idle_quit hq
    have he : q.release (decide quit) w = q.sendQuit w := by simp [Pool.release, hq]
    rw [he] at hfr ⊢
    refine h.update hfr (by simp [sendQuit, hidle, hnil])
      (by simp [sendQuit, hidle, hnil]) (fun _ => by simp [sendQuit, hidle, hnil])
      ⟨{ r with workerThread := some { t with inbox := t.inbox ++ [.quit] } }, .free, ?_, ?_, ?_⟩
    · simp [sendQuit, run?_modifyRun, hr, ht]
    · exact (stage_modifyRun q w w _).trans hs
    · refine ⟨by simp, hat.sendQuit.mono fun _ => hq, ?_, by simp⟩
      intro htr
      cases w with
      | general i => exact absurd hq htr
      | tagged i =>
        have hb := ht' i rfl
        rw [sendQuit, busy_modifyRun]
        simp [hb]
  · cases w with
    | general i =>
      have hi := hg i rfl hq
      have he : q.release (decide quit) (.general i) =
          { q with idleWorkers := q.idleWorkers ++ [i] } := by simp [Pool.release, hq]
      rw [he] at hfr ⊢
      have hilt : i < q.workers.length := (List.getElem?_eq_some_iff.mp hr).1
      refine h.update hfr ?_ ?_ (fun hq' => absurd hq' hq) ⟨r, .free, hr, hs, ?_⟩
      · simp only [hidle, List.nodup_append]
        exact ⟨h.idle_nodup, by simp, by rintro j hj k hk rfl; simp at hk; exact hi (hk ▸ hj)⟩
      · intro j hj
        rcases List.mem_append.mp hj with hj | hj
        · rw [hidle] at hj
          exact hlen ▸ h.idle_lt j hj
        · rwa [List.mem_singleton.mp hj]
      · refine ⟨by simp, ?_, fun _ => by simp [Busy], by simp⟩
        rw [ht]
        exact hat
    | tagged i =>
      have he : q.release (decide quit) (.tagged i) = q := by simp [Pool.release, hq]
      rw [he] at hfr ⊢
      refine h.update hfr (hidle ▸ h.idle_nodup) (by rw [hidle, hlen]; exact h.idle_lt)
        (fun hq' => absurd hq' hq) ⟨r, .free, hr, hs, by simp, ?_, ?_, by simp⟩
      · rw [ht]
        exact hat
      · intro _
        simpa using ht' i rfl

/-- Every load found its worker with nothing under way. -/
def LoadsFree (p : Pool ι) : Prop := ∀ w t n, .loaded w t n ∈ p.log → n = 0

theorem Synced.log_assign (h : p.Synced quit) (k : JobClass ι) (f : RunInfo ι → RunInfo ι) :
    ∃ w r, p.stage w = some .free ∧
      (p.assign k f).log = p.log ++ [.loaded w (f r).task 0] := by
  rcases List.eq_nil_or_concat p.idleWorkers with hi | ⟨l, i, hi⟩
  · exact ⟨_, {}, h.unborn (.general p.workers.length) (by simp [run?]),
      by rw [assign_of_nil k f hi]⟩
  · obtain ⟨-, r, hr, hs, hin⟩ := h.free_of_idle (i := i) (by simp [hi])
    have hfree : r.inFlight = 0 := hin.inFlight_eq
    rw [List.concat_eq_append] at hi
    exact ⟨.general i, r, hs, by simp [assign_of_concat k f hi hr, record, hfree]⟩

theorem Synced.log_assignTagged (h : p.Synced quit) {i : Nat} {t : TaggedWorker ι}
    (ht : p.taggedWorkers[i]? = some t) (hbusy : t.busy = false) (f : RunInfo ι → RunInfo ι) :
    (p.assignTagged i f).log = p.log ++ [.loaded (.tagged i) (f t.run).task 0] := by
  have hfree : t.run.inFlight = 0 := (h.free_of_not_busy ht hbusy).2.inFlight_eq
  rw [assignTagged_eq f (show p.run? (.tagged i) = some t.run by simp [run?, ht])]
  simp [record, setBusy, hfree]

omit [DecidableEq ι] in
theorem LoadsFree.load (h : p.LoadsFree) {w : WorkerRef} {t : Option (Task ι)}
    (hl : p'.log = p.log ++ [.loaded w t 0]) : p'.LoadsFree := by
  intro w' t' n hmem
  rw [hl] at hmem
  rcases List.mem_append.mp hmem with hmem | hmem
  · exact h w' t' n hmem
  · simp only [List.mem_singleton, WorkerEvent.loaded.injEq] at hmem
    exact hmem.2.2

theorem LoadsFree.assign (hl : p.LoadsFree) (h : p.Synced quit) (k : JobClass ι)
    (f : RunInfo ι → RunInfo ι) : (p.assign k f).LoadsFree := by
  obtain ⟨w, r, -, hlog⟩ := h.log_assign k f
  exact hl.load hlog

end Pool

namespace Dispatch

variable {d d' : Dispatch ι R} {w : WorkerRef}

theorem synced_workerRan {r r₁ : RunInfo ι} {t : Thread} {rest : List WorkerReply}
    (h : d.pool.Synced (d.maxWorkers = 0)) (hr : d.pool.run? w = some r)
    (ht : r.workerThread = some t) (ho : t.outbox = .ran :: rest)
    (hr₁ : r₁ = { r with workerThread := some { t with outbox := rest } })
    (hd : workerRan { d with pool := d.pool.setRun w r₁ } w r₁ = some d') :
    d'.pool.Synced (d'.maxWorkers = 0) := by
  obtain ⟨q, clear, jobs, hq, rfl, -⟩ := workerRan_eq_some hd
  obtain ⟨hs, hin, hat'⟩ := h.executed_of_ran hr ht ho
  have htask : r.task = r₁.task := by rw [hr₁]; rfl
  rw [htask] at hs hin
  let q₂ : Pool ι := q.record (.ran w r₁.task)
  let q₃ : Pool ι := if clear then q₂.clearToRun w else q₂
  have hrun₂ : q₂.run? w = some r₁ := by
    rw [Pool.run?_record, Pool.run?_finishActive hq, Pool.run?_setRun hr]
  have hstage₂ : q₂.stage w = some .free := by
    refine Pool.stage_record_self (s := .executed r₁.task) ?_ rfl (by simp [Stage.next])
    rw [Pool.stage_finishActive hq]
    exact (Pool.stage_modifyRun d.pool w w _).trans hs
  have hframe₂ : Pool.Frame d.pool q₂ w :=
    ((Pool.Frame.modifyRun d.pool w _).trans (Pool.Frame.finishActive hq)).trans
      (Pool.Frame.record q (.ran w r₁.task))
  have hbusy : ∀ i, w = .tagged i → ¬ q₂.Busy w := by
    intro i hi
    have hb : r₁.isBatchJob = true := by
      rw [hr₁]
      exact hin.batch (by simp) (.inl ⟨i, hi⟩)
    rw [Pool.busy_record]
    exact Pool.not_busy_finishActive hq hi hb
  have hidle : ∀ i, w = .general i → ¬ d.maxWorkers = 0 → i ∉ d.pool.idleWorkers := by
    rintro i rfl hq
    exact (hin.busy_iff hq).mpr (by simp)
  have hq₂ := Pool.idle_finishActive hq
  have hthread₁ : r₁.workerThread = some { t with outbox := rest } := by rw [hr₁]
  cases clear with
  | false =>
    exact h.release hframe₂ (by simp [Pool.record, hq₂.1]) (by simp [Pool.record, hq₂.2])
      hrun₂ hthread₁ hat' hstage₂ hidle hbusy
  | true =>
    refine h.release (q := q₂.clearToRun w) (r := { r₁ with toRun := .batch none })
      (hframe₂.trans (Pool.Frame.modifyRun q₂ w _)) ?_ ?_ ?_ hthread₁ hat' ?_ hidle ?_
    · simp [q₂, Pool.clearToRun, Pool.record, hq₂.1]
    · simp [q₂, Pool.clearToRun, Pool.record, hq₂.2]
    · simp [Pool.clearToRun, Pool.run?_modifyRun, hrun₂]
    · exact (Pool.stage_modifyRun q₂ w w _).trans hstage₂
    · intro i hi
      rw [Pool.clearToRun, Pool.busy_modifyRun]
      exact hbusy i hi

theorem synced_workerMessage (h : d.pool.Synced (d.maxWorkers = 0))
    (hd : d.proxyWorkerMessage w = some d') : d'.pool.Synced (d'.maxWorkers = 0) := by
  obtain ⟨r, t, rest, hr, ht, ⟨ho, r₁, hr₁, hran⟩ | ⟨ho, rfl⟩⟩ := proxyWorkerMessage_eq_some hd
  · exact synced_workerRan h hr ht ho hr₁ hran
  · refine h.setRun hr _ ?_
    intro s hin
    have hat := hin.thread
    rw [ht] at hat
    obtain ⟨hq, hl, he⟩ := hat.takeQuitting ho
    refine ⟨hin.task, ⟨hq, ?_⟩, hin.busy_iff, hin.batch⟩
    cases s with
    | free => rfl
    | loaded _ => simp [Stage.loads] at hl
    | executed _ => simp [Stage.executions] at he

/-- Workers that are free may be told to quit. -/
theorem synced_sendQuit {p : Pool ι} (ws : List WorkerRef) (h : p.Synced True)
    (hw : ∀ w ∈ ws, p.stage w = some .free ∧ ∃ r, p.run? w = some r) :
    (ws.foldl Pool.sendQuit p).Synced True := by
  induction ws generalizing p with
  | nil => exact h
  | cons w ws ih =>
    obtain ⟨hs, r, hr⟩ := hw w (by simp)
    rw [List.foldl_cons]
    apply ih
    · rw [Pool.sendQuit, Pool.modifyRun_eq_setRun hr]
      refine h.update (Pool.Frame.modifyRun p w _) (by simpa using h.idle_nodup)
        (by simpa using h.idle_lt) (by simpa using h.idle_quit)
        ⟨_, .free, Pool.run?_setRun hr _, (Pool.stage_modifyRun p w w _).trans hs, ?_⟩
      obtain ⟨s, hs', hin⟩ := h.worker w r hr
      obtain rfl := Option.some.inj (hs.symm.trans hs')
      refine ⟨by simp, ?_, fun ht => (Pool.busy_modifyRun p w w _).trans (hin.busy_iff ht), by simp⟩
      have hat := hin.thread
      rcases ht : r.workerThread with _ | t
      · exact ⟨trivial, rfl⟩
      · rw [ht] at hat
        exact Thread.At.sendQuit hat
    · intro w' hw'
      obtain ⟨hs', r', hr'⟩ := hw w' (List.mem_cons_of_mem _ hw')
      refine ⟨(Pool.stage_modifyRun p w w' _).trans hs', ?_⟩
      rw [Pool.sendQuit, Pool.run?_modifyRun, hr']
      split <;> exact ⟨_, rfl⟩

theorem synced_quit (h : d.pool.Synced (d.maxWorkers = 0)) :
    d.quit.pool.Synced (d.quit.maxWorkers = 0) := by
  have hq : (d.quit.maxWorkers = 0) = True := by simp [quit]
  rw [hq]
  have hsync : Pool.Synced True { d.pool with idleWorkers := [] } := by
    refine ⟨?_, fun w hw => h.unborn w (by cases w <;> exact hw), by simp, by simp, fun _ => rfl⟩
    intro w r hr
    obtain ⟨s, hs, hin⟩ := h.worker w r (by cases w <;> exact hr)
    refine ⟨s, hs, hin.task, ?_, ?_, hin.batch⟩
    · have hat := hin.thread
      rcases ht : r.workerThread with _ | t
      · rw [ht] at hat
        exact ⟨trivial, hat.2⟩
      · rw [ht] at hat
        exact hat.mono fun _ => trivial
    · intro htr
      cases w with
      | general i => exact absurd trivial htr
      | tagged i => exact hin.busy_iff trivial
  refine synced_sendQuit _ hsync ?_
  intro w hw
  rcases List.mem_append.mp hw with hw | hw
  · obtain ⟨i, hi, rfl⟩ := List.mem_map.mp hw
    obtain ⟨-, r, hr, hs, -⟩ := h.free_of_idle hi
    exact ⟨hs, r, hr⟩
  · obtain ⟨i, hi, rfl⟩ := List.mem_map.mp hw
    obtain ⟨t, ht, hbusy⟩ := (Option.any_eq_true _ _).mp (List.mem_filter.mp hi).2
    exact ⟨(h.free_of_not_busy ht (by simpa using hbusy)).1, t.run, by simp [Pool.run?, ht]⟩

theorem log_workerRan {r : RunInfo ι} (h : d.workerRan w r = some d') :
    d'.pool.log = d.pool.log ++ [.ran w r.task] := by
  obtain ⟨q, clear, jobs, hq, rfl, -⟩ := workerRan_eq_some h
  have hlog : q.log = d.pool.log := by
    rcases finishActive_eq_some hq with ⟨i, -, -, rfl⟩ | ⟨k, -, rfl, -⟩ <;> rfl
  cases clear <;> simp [Pool.log_release, Pool.clearToRun, Pool.record, hlog]

theorem log_workerMessage (h : d.proxyWorkerMessage w = some d') :
    d'.pool.log = d.pool.log ∨ ∃ t, d'.pool.log = d.pool.log ++ [.ran w t] := by
  obtain ⟨r, t, rest, -, -, ⟨-, r₁, -, hran⟩ | ⟨-, rfl⟩⟩ := proxyWorkerMessage_eq_some h
  · refine .inr ⟨r₁.task, (log_workerRan hran).trans ?_⟩
    rw [Pool.log_modifyRun]
  · exact .inl (Pool.log_modifyRun d.pool w _)

/-- What the hand-off rests on: workers in step, and every load on a free one. -/
def HandOff (d : Dispatch ι R) : Prop := d.pool.Synced (d.maxWorkers = 0) ∧ d.pool.LoadsFree

theorem HandOff.loadPending (h : d.HandOff) (p : PendingCommand ι) :
    HandOff { d with pool := d.pool.assign (.category p.cat) (·.loadPending p) } :=
  ⟨h.1.assign _ _ (fun r => r.workerThread_loadPending p)
    fun r b hb => absurd hb (r.toRun_loadPending p b), h.2.assign h.1 _ _⟩

theorem HandOff.startCommand (h : d.HandOff) (p : PendingCommand ι) :
    (d.startCommand p).HandOff :=
  h.loadPending p

theorem HandOff.startTagged (h : d.HandOff) (hq : d.maxWorkers ≠ 0) (i : Nat) :
    (d.startTagged i).HandOff := by
  unfold Dispatch.startTagged
  split
  · rename_i t job rest ht hj
    split
    · exact h
    · rename_i hb
      have hbusy : t.busy = false := by simpa using hb
      exact ⟨h.1.assignTagged hq ht hbusy _ (fun r => ⟨rfl, rfl⟩),
        h.2.load (h.1.log_assignTagged ht hbusy _)⟩
  · exact h

theorem HandOff.move (h : d.HandOff) (hm : Move d d') : d'.HandOff := by
  cases hm with
  | quit =>
    refine ⟨synced_quit h.1, ?_⟩
    intro w t n hmem
    rw [quit, Pool.log_sendQuit] at hmem
    exact h.2 w t n hmem
  | workerMessage w _ hw =>
    refine ⟨synced_workerMessage h.1 hw, ?_⟩
    intro w' t n hmem
    rcases log_workerMessage hw with he | ⟨t', he⟩
    · exact h.2 w' t n (he ▸ hmem)
    · exact h.2 w' t n (by simpa [he] using hmem)
  | startTagged i hq => exact h.startTagged hq i
  | startBatchJob reply job rest =>
    exact ⟨h.1.assign _ _ (fun _ => rfl) fun _ _ _ => rfl, h.2.assign h.1 _ _⟩
  | startPending pre p post => exact h.loadPending p
  | receive w hr =>
    refine ⟨h.1.stepThread hr fun hat => hat.receive, ?_⟩
    obtain ⟨r, t, t', -, -, -, rfl⟩ := Pool.stepThread_eq_some hr
    intro w' t n hmem
    exact h.2 w' t n (by simpa using hmem)
  | sendRan w hr =>
    refine ⟨h.1.stepThread hr fun hat => hat.sendRan, ?_⟩
    obtain ⟨r, t, t', -, -, -, rfl⟩ := Pool.stepThread_eq_some hr
    intro w' t n hmem
    exact h.2 w' t n (by simpa using hmem)
  | execute w r he =>
    obtain ⟨_, pool, jobs, -, hp, rfl, -⟩ := execute_eq_some he
    refine ⟨h.1.execute hp, ?_⟩
    obtain ⟨r, r', -, -, hpool⟩ := Pool.execute_eq_some hp
    intro w' t n hmem
    exact h.2 w' t n (by simpa [hpool, Pool.record] using hmem)
  | _ => exact h

theorem HandOff.init [Fintype ι] (cfg : Config ι) : (start cfg : Dispatch ι R).HandOff := by
  refine ⟨⟨?_, fun _ _ => rfl, by simp [start], by simp [start], fun _ => rfl⟩,
    by simp [start, Pool.LoadsFree]⟩
  intro w r hr
  refine ⟨.free, rfl, ?_⟩
  cases w with
  | general i => simp [start, Pool.run?] at hr
  | tagged i =>
    obtain ⟨t, ht, rfl⟩ := Option.map_eq_some_iff.mp hr
    have htw : t = { run.workerThread := some { pc := .waitStart, inbox := [.start] } } :=
      List.eq_of_mem_replicate (List.mem_of_getElem? ht)
    refine ⟨by simp, ?_, ?_, by simp⟩
    · rw [htw]
      exact ⟨rfl, rfl, fun _ => ⟨[], rfl, by simp⟩, by simp, by simp⟩
    · intro _
      simp [Pool.Busy, ht, htw]

theorem handOff_of_reachable [Fintype ι] (h : (machine ι R).Reachable d) : d.HandOff :=
  reachable_invariant HandOff.init (fun _ _ hd hm => hd.move hm)
    (fun _ p hd _ _ _ => hd.startCommand p) h

end Dispatch

/-- The hand-off protocol, seen from the proxy. A worker has at most one RUN or
RAN on its way or job in progress, and the proxy knows when it has none; only
then is it loaded; and between a load and the RAN for it the job ran once. -/
structure Pool.HandOffSafe (p : Pool ι) : Prop where
  general : ∀ (i : Nat) r, p.workers[i]? = some r →
    r.inFlight ≤ 1 ∧ p.idleWorkers.count i = if r.inFlight = 0 then 1 else 0
  tagged : ∀ (i : Nat) (t : TaggedWorker ι), p.taggedWorkers[i]? = some t →
    t.run.inFlight ≤ 1 ∧ (t.busy = false ↔ t.run.inFlight = 0)
  loads : ∀ w t n, .loaded w t n ∈ p.log → n = 0
  protocol : ∀ w, (p.run? w).isSome → (p.stage w).isSome
  ran : ∀ w t pre post, (p.run? w).isSome → p.history w = pre ++ .ran w t :: post →
    ∃ pre' n, pre = pre' ++ [.loaded w t n, .executed w t]

theorem Dispatch.handOffSafe [Fintype ι] {d : Dispatch ι R}
    (h : (Dispatch.machine ι R).Reachable d) (hq : d.maxWorkers ≠ 0) : d.pool.HandOffSafe := by
  obtain ⟨hsync, hloads⟩ := Dispatch.handOff_of_reachable h
  refine ⟨?_, ?_, hloads, ?_, ?_⟩
  · intro i r hr
    obtain ⟨s, -, hin⟩ := hsync.worker (.general i) r hr
    have hbusy : i ∉ d.pool.idleWorkers ↔ s ≠ .free := hin.busy_iff hq
    rw [hin.inFlight_eq]
    refine ⟨s.loads_add_executions_le, ?_⟩
    by_cases hs : s = .free
    · rw [if_pos (Stage.loads_add_executions_eq_zero.mpr hs)]
      exact List.count_eq_one_of_mem hsync.idle_nodup (by simpa [hs] using hbusy)
    · rw [if_neg (mt Stage.loads_add_executions_eq_zero.mp hs)]
      exact List.count_eq_zero.mpr (hbusy.mpr hs)
  · intro i t ht
    obtain ⟨s, -, hin⟩ := hsync.worker (.tagged i) t.run (by simp [Pool.run?, ht])
    have hbusy : t.busy = true ↔ s ≠ .free := by simpa [Pool.Busy, ht] using hin.busy_iff trivial
    rw [hin.inFlight_eq]
    refine ⟨s.loads_add_executions_le, ?_⟩
    rw [Stage.loads_add_executions_eq_zero, ← not_iff_not, Bool.not_eq_false, hbusy]
  · intro w hw
    obtain ⟨r, hr⟩ := Option.isSome_iff_exists.mp hw
    obtain ⟨s, hs, -⟩ := hsync.worker w r hr
    simp [hs]
  · intro w t pre post hw hhist
    obtain ⟨r, hr⟩ := Option.isSome_iff_exists.mp hw
    obtain ⟨s, hs, -⟩ := hsync.worker w r hr
    rw [Pool.stage, hhist, List.foldlM_append] at hs
    obtain ⟨s₁, hs₁, hs⟩ := Option.bind_eq_some_iff.mp hs
    rw [List.foldlM_cons] at hs
    obtain ⟨s₂, hs₂, -⟩ := Option.bind_eq_some_iff.mp hs
    obtain rfl : s₁ = .executed t := by
      cases s₁ <;> simp [Stage.next] at hs₂
      rw [hs₂.1]
    obtain ⟨pre', w₁, w₂, n, rfl⟩ := Stage.eq_of_executed hs₁
    have hmem : ∀ e ∈ pre' ++ [.loaded w₁ t n, .executed w₂ t], e.worker = w := by
      intro e he
      have : e ∈ d.pool.history w := by
        rw [hhist]
        exact List.mem_append_left _ he
      simpa [Pool.history] using (List.mem_filter.mp this).2
    obtain rfl : w₁ = w := hmem (.loaded w₁ t n) (by simp)
    obtain rfl : w₂ = w₁ := hmem (.executed w₂ t) (by simp)
    exact ⟨pre', n, rfl⟩

theorem Dispatch.handOffSafe_after_ran : ∃ d, (Dispatch.machine Unit Unit).Reachable d ∧
    d.maxWorkers ≠ 0 ∧ d.pool.log.length = 5 ∧ d.pool.HandOffSafe := by
  obtain ⟨d, hd, hp⟩ := Dispatch.smallConfig_reachable.exists_of_run
    [.submit [(.user 0, 0), (.user 1, 1)] none, .batch 0, .next, .next, .next, .next, .next,
      .execute (.general 0) (.value ()), .receive (.tagged 0), .receive (.tagged 0),
      .sendRan (.general 0), .next, .next, .workerMessage (.general 0), .next, .next, .next,
      .next, .next, .execute (.tagged 0) (.value ())]
    (p := fun d => decide (d.maxWorkers ≠ 0 ∧ d.pool.log.length = 5)) (by decide +kernel)
  obtain ⟨hq, hlog⟩ := of_decide_eq_true hp
  exact ⟨d, hd, hq, hlog, Dispatch.handOffSafe hd hq⟩

end ArqmaMQ
