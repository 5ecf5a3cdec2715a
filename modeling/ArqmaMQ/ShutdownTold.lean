import ArqmaMQ.ShutdownCost

/-! No thread is forgotten: after QUIT every thread that is not joined has a job
in hand or has been told to quit. -/

namespace ArqmaMQ

variable {ι R : Type}

namespace Thread

/-- QUIT is on its way to the thread, or QUITTING on its way back. -/
def Told (t : Thread) : Prop :=
  t.pc ≠ .exited ∧ .quit ∈ t.inbox ∨ t.pc = .exited ∧ .quitting ∈ t.outbox

theorem Told.receive {t t' : Thread} (h : t.Told) (hr : t.receive = some t') : t'.Told := by
  obtain ⟨pc, inbox, outbox, message⟩ := t
  rcases inbox with _ | ⟨c, rest⟩
  · cases pc <;> simp [Thread.receive, waitFor] at hr
  · have hwait (expect : WorkerCommand) (hne : expect ≠ .quit) (next : Pc) (hnext : next ≠ .exited)
        (hpc : pc ≠ .exited)
        (hw : waitFor ⟨pc, c :: rest, outbox, message⟩ expect next = some t') : t'.Told := by
      have hq : .quit ∈ c :: rest := (h.resolve_right fun hexit => hpc hexit.1).2
      simp only [waitFor] at hw
      split at hw
      · rename_i hc
        obtain rfl := Option.some.inj hw
        exact .inl ⟨hnext, (List.mem_cons.mp hq).resolve_left fun h => hne (hc ▸ h.symm)⟩
      split at hw
      · obtain rfl := Option.some.inj hw
        exact .inr ⟨rfl, by simp⟩
      · rename_i hc
        obtain rfl := Option.some.inj hw
        exact .inl ⟨hpc, (List.mem_cons.mp hq).resolve_left fun h => hc h.symm⟩
    cases pc with
    | waitStart => exact hwait .start (by simp) _ (by simp) (by simp) hr
    | waitRun => exact hwait .run (by simp) _ (by simp) (by simp) hr
    | executing => simp [Thread.receive] at hr
    | sending => simp [Thread.receive] at hr
    | exited => simp [Thread.receive] at hr

theorem Told.append {t : Thread} (h : t.Told) (cs : List WorkerCommand) :
    Told { t with inbox := t.inbox ++ cs } :=
  h.imp (fun hq => ⟨hq.1, List.mem_append_left _ hq.2⟩) id

end Thread

namespace Dispatch

variable [DecidableEq ι] {d d' : Dispatch ι R}

/-- A thread that has nothing to run has been told to quit. -/
def AllTold (d : Dispatch ι R) : Prop :=
  d.maxWorkers = 0 → ∀ w r t, d.pool.run? w = some r → r.workerThread = some t →
    d.pool.stage w = some .free → t.Told

theorem AllTold.of_not_quit (hq : d.maxWorkers ≠ 0) : d.AllTold := fun h => absurd h hq

theorem AllTold.frame (h : d.AllTold) {w₀ : WorkerRef} (hm : d'.maxWorkers = d.maxWorkers)
    (hf : Pool.Frame d.pool d'.pool w₀)
    (hw : d'.maxWorkers = 0 → ∀ r t, d'.pool.run? w₀ = some r → r.workerThread = some t →
      d'.pool.stage w₀ = some .free → t.Told) : d'.AllTold := by
  intro hq w r t hr ht hs
  by_cases hww : w₀ = w
  · subst hww
    exact hw hq r t hr ht hs
  · rw [hf.run w hww] at hr
    rw [hf.stage w hww] at hs
    exact h (hm ▸ hq) w r t hr ht hs

/-- QUIT reaches every thread that is free. -/
theorem mem_freeWorkers (hh : d.HandOff) (hq : d.maxWorkers ≠ 0) {w : WorkerRef} {r : RunInfo ι}
    (hr : d.pool.run? w = some r) (hs : d.pool.stage w = some .free) :
    w ∈ freeWorkers d.pool := by
  obtain ⟨s, hs', hin⟩ := hh.1.worker w r hr
  obtain rfl := Option.some.inj (hs.symm.trans hs')
  refine List.mem_append.mpr ?_
  cases w with
  | general i =>
    have hbusy : ¬ i ∉ d.pool.idleWorkers := by simpa [Pool.Busy] using hin.busy_iff hq
    exact .inl (List.mem_map_of_mem (not_not.mp hbusy))
  | tagged i =>
    obtain ⟨t, ht, -⟩ := Option.map_eq_some_iff.mp hr
    have hlt := (List.getElem?_eq_some_iff.mp ht).1
    have hbusy : ¬ t.busy = true := by simpa [Pool.Busy, ht] using hin.busy_iff trivial
    refine .inr (List.mem_map_of_mem (List.mem_filter.mpr ⟨List.mem_range.mpr hlt, ?_⟩))
    simpa [ht] using hbusy

theorem AllTold.quit (h : d.AllTold) (hh : d.HandOff) : d.quit.AllTold := by
  intro _ w r' t' hr' ht' hs
  rw [Dispatch.quit, Pool.stage_foldl_sendQuit] at hs
  rw [Dispatch.quit, Pool.run?_foldl_sendQuit] at hr'
  obtain ⟨r, hr, rfl⟩ := Option.map_eq_some_iff.mp hr'
  obtain ⟨t, ht, rfl⟩ := Option.map_eq_some_iff.mp ht'
  have hr₀ : d.pool.run? w = some r := by cases w <;> exact hr
  by_cases hq : d.maxWorkers = 0
  · exact (h hq w r t hr₀ ht hs).append _
  · have hcount := List.count_pos_iff.mpr (mem_freeWorkers hh hq hr₀ hs)
    have hlive : t.pc ≠ .exited := by
      obtain ⟨s, -, hin⟩ := hh.1.worker w r hr₀
      have hat := hin.thread
      rw [ht] at hat
      exact fun hpc => hq (hat.quits (.inr (.inl hpc))).1
    refine .inl ⟨hlive, List.mem_append_right _ ?_⟩
    exact List.mem_replicate.mpr ⟨by omega, rfl⟩

theorem AllTold.workerMessage (h : d.AllTold) (hh : d.HandOff) {w : WorkerRef}
    (hd : d.proxyWorkerMessage w = some d') : d'.AllTold := by
  obtain ⟨pool, jobs, hd'⟩ := workerMessage_frame hd
  have hm : d'.maxWorkers = d.maxWorkers := by rw [hd']
  by_cases hq : d.maxWorkers = 0
  case neg => exact .of_not_quit (hm ▸ hq)
  obtain ⟨r, t, rest, hr, ht, ⟨ho, r₁, hr₁, hran⟩ | ⟨-, rfl⟩⟩ := proxyWorkerMessage_eq_some hd
  · obtain ⟨q, r', hpool, hframe, hr', ht', -⟩ := ran_of_quit hq hr hr₁ hran
    have hlive : t.pc ≠ .exited := by
      obtain ⟨-, hin, -⟩ := hh.1.executed_of_ran hr ht ho
      have hat := hin.thread
      rw [ht] at hat
      intro hpc
      exact Nat.one_ne_zero (hat.quits (.inr (.inl hpc))).2.2
    refine h.frame hm (by rw [hpool]; exact hframe.trans (Pool.Frame.modifyRun q w _)) ?_
    intro _ r₂ t₂ hr₂ ht₂ _
    rw [hpool, Pool.sendQuit, Pool.run?_modifyRun, if_pos rfl, hr'] at hr₂
    obtain rfl := Option.some.inj hr₂
    simp only [ht', Option.map_some] at ht₂
    obtain rfl := Option.some.inj ht₂
    exact .inl ⟨hlive, by simp⟩
  · refine h.frame rfl (Pool.Frame.modifyRun d.pool w _) ?_
    intro _ r' t' hr' ht' _
    obtain rfl := Option.some.inj ((Pool.run?_setRun hr _).symm.trans hr')
    cases ht'

theorem AllTold.receive (h : d.AllTold) {pool : Pool ι} {w : WorkerRef}
    (hr : d.pool.receive w = some pool) : AllTold { d with pool } := by
  obtain ⟨r, t, t', hrun, ht, hrecv, rfl⟩ := Pool.stepThread_eq_some hr
  refine h.frame rfl (Pool.Frame.modifyRun d.pool w _) ?_
  intro hq r₁ t₁ hr₁ ht₁ hs
  obtain rfl := Option.some.inj ((Pool.run?_setRun hrun _).symm.trans hr₁)
  obtain rfl := Option.some.inj ht₁
  have hs' : d.pool.stage w = some .free := (Pool.stage_modifyRun d.pool w w _).symm.trans hs
  exact (h hq w r t hrun ht hs').receive hrecv

/-- RAN comes from a thread that has run a job. -/
theorem AllTold.sendRan (h : d.AllTold) (hh : d.HandOff) {pool : Pool ι} {w : WorkerRef}
    (hr : d.pool.sendRan w = some pool) : AllTold { d with pool } := by
  obtain ⟨r, t, t', hrun, ht, hsend, rfl⟩ := Pool.stepThread_eq_some hr
  refine h.frame rfl (Pool.Frame.modifyRun d.pool w _) ?_
  intro hq r₁ t₁ hr₁ ht₁ hs
  have hs' : d.pool.stage w = some .free := (Pool.stage_modifyRun d.pool w w _).symm.trans hs
  obtain ⟨s, hs₀, hin⟩ := hh.1.worker w r hrun
  obtain rfl := Option.some.inj (hs'.symm.trans hs₀)
  have hat := hin.thread
  rw [ht] at hat
  obtain ⟨hpc, -⟩ : t.pc = .sending ∧ _ = t' := by simpa [Thread.sendRan] using hsend
  have hexec := hat.executed
  simp [hpc, Stage.executions] at hexec

theorem AllTold.loaded (h : d.AllTold) (hm : d'.maxWorkers = d.maxWorkers) {w : WorkerRef}
    {t : Option (Task ι)} (hf : Pool.Frame d.pool d'.pool w)
    (hs : d'.pool.stage w = some (.loaded t)) : d'.AllTold := by
  refine h.frame hm hf ?_
  intro _ _ _ _ _ hfree
  rw [hs] at hfree
  cases hfree

theorem AllTold.move (h : d.AllTold) (hh : d.HandOff) (hm : Move d d') : d'.AllTold := by
  cases hm with
  | quit => exact h.quit hh
  | workerMessage w _ hw => exact h.workerMessage hh hw
  | startTagged i hq => exact .of_not_quit (by rwa [(startTagged_frame d i).1])
  | startBatchJob _ _ _ _ hq => exact .of_not_quit hq
  | startPending _ _ _ _ hq => exact .of_not_quit hq
  | receive w hr => exact h.receive hr
  | sendRan w hr => exact h.sendRan hh hr
  | execute w res he =>
    obtain ⟨_, pool, jobs, -, hp, rfl, -⟩ := execute_eq_some he
    obtain ⟨r, r', hr, hr', rfl⟩ := Pool.execute_eq_some hp
    obtain ⟨hs, -, -⟩ := hh.1.loaded_of_execute hr hr'
    refine h.frame rfl ((Pool.Frame.modifyRun d.pool w _).trans
      (Pool.Frame.record _ (.executed w r'.task))) ?_
    intro _ _ _ _ _ hfree
    have hexec : ((d.pool.setRun w r').record (.executed w r'.task)).stage w =
        some (.executed r.task) := by
      refine Pool.stage_record_self ((Pool.stage_modifyRun d.pool w w _).trans hs) rfl ?_
      simp [Stage.next, RunInfo.task_of_execute hr']
    rw [hexec] at hfree
    cases hfree
  | _ => exact h

theorem AllTold.startCommand (h : d.AllTold) (hh : d.HandOff) (p : PendingCommand ι) :
    (d.startCommand p).AllTold := by
  obtain ⟨w, r, hf, -, -, hs⟩ := hh.1.assign_spec (.category p.cat) (·.loadPending p)
  have hm : (d.startCommand p).maxWorkers = d.maxWorkers := rfl
  exact h.loaded hm hf hs

theorem allTold_of_reachable [Fintype ι] (h : (machine ι R).Reachable d) (hfit : d.cfg.FitsInt) :
    d.AllTold := by
  refine (reachable_invariant (P := fun d => d.HandOff ∧ (d.cfg.FitsInt → d.AllTold))
    ?_ ?_ ?_ h).2 hfit
  · refine fun cfg => ⟨HandOff.init cfg, fun hfit => .of_not_quit ?_⟩
    have hpos := cfg.generalWorkers_pos
    have hle : cfg.generalWorkers ≤ cfg.threads := by
      rw [Config.threads]
      omega
    have hmax : cfg.capacity = cfg.threads := hfit.capacity_eq
    change cfg.capacity ≠ 0
    omega
  · rintro d d' ⟨hh, ht⟩ hm
    refine ⟨hh.move hm, fun hfit => ?_⟩
    rw [hm.cfg_eq] at hfit
    exact (ht hfit).move hh hm
  · rintro d p ⟨hh, ht⟩ - - -
    exact ⟨hh.startCommand p, fun hfit => (ht hfit).startCommand hh p⟩

end Dispatch

end ArqmaMQ
