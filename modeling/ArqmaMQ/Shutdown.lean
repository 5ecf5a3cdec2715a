import ArqmaMQ.ThreadReservation

/-! The table of workers during shutdown. QUIT empties the list of idle workers
and nothing refills it, so every command that is started from then on takes a
new place in the table. -/

namespace ArqmaMQ

namespace Dispatch

variable {ι R : Type} [DecidableEq ι] {d d' : Dispatch ι R} {w : WorkerRef}

theorem length_workerMessage (h : d.proxyWorkerMessage w = some d') :
    d'.pool.workers.length = d.pool.workers.length := by
  obtain ⟨r, t, rest, -, -, ⟨-, r₁, -, hran⟩ | ⟨-, rfl⟩⟩ := proxyWorkerMessage_eq_some h
  · obtain ⟨q, clear, jobs, hq, rfl, -⟩ := workerRan_eq_some hran
    have hlen : q.workers.length = d.pool.workers.length := by
      rw [(Pool.idle_finishActive hq).2, Pool.length_modifyRun]
    rw [← hlen]
    cases clear <;> by_cases h0 : d.maxWorkers = 0 <;> cases w <;>
      simp [h0, Pool.release, Pool.sendQuit, Pool.clearToRun, Pool.record]
  · exact Pool.length_modifyRun d.pool w _

variable [Fintype ι]

/-- During shutdown, when the table of workers is full, the threads reserved for the
category are all in use. -/
def HasRoom (d : Dispatch ι R) (c : ι) : Prop :=
  d.maxWorkers = 0 → d.pool.workers.length = d.cfg.capacity →
    d.cfg.reserved (.category c) ≤ d.pool.active (.category c)

instance (d : Dispatch ι R) (c : ι) : Decidable (d.HasRoom c) :=
  inferInstanceAs (Decidable (_ → _ → _ ≤ _))

/-- Whether there is room for a command or task that arrives. -/
def FitsTable (d : Dispatch ι R) : DispatchEvent ι R → Prop
  | .inject p | .command p => d.HasRoom p.cat
  | _ => True

instance (d : Dispatch ι R) : (e : DispatchEvent ι R) → Decidable (d.FitsTable e)
  | .inject p | .command p => inferInstanceAs (Decidable (d.HasRoom p.cat))
  | .submit .. | .batch _ | .addTimer .. | .delTimer _ | .quit | .workerMessage _ | .timer _
  | .replyJob _ | .next | .receive _ | .execute .. | .sendRan _ => inferInstanceAs (Decidable True)

/-- The table of workers stays within the room made for it at startup. -/
def InTable (d : Dispatch ι R) : Prop := d.pool.workers.length ≤ d.cfg.capacity

theorem InTable.of_reserved (h : d.Reserved) (hfit : d.cfg.FitsInt) (hq : d.maxWorkers ≠ 0) :
    d.InTable := by
  rw [InTable, hfit.capacity_eq]
  exact (h hq).2.length_le

theorem InTable.move (h : d.InTable) (hfit : d.cfg.FitsInt) (hh : d.HandOff) (hr : d.Reserved)
    (hm : Move d d') : d'.InTable := by
  have hr' := hr.move hh hm
  have hfit' : d'.cfg.FitsInt := by rwa [hm.cfg_eq]
  cases hm with
  | quit =>
    rw [InTable, quit, Pool.length_sendQuit]
    exact h
  | workerMessage w _ hw =>
    obtain ⟨pool, jobs, rfl⟩ := workerMessage_frame hw
    exact (length_workerMessage hw).trans_le h
  | startTagged i hq => exact .of_reserved hr' hfit' (by rwa [(startTagged_frame d i).1])
  | startBatchJob reply job rest _ hq => exact .of_reserved hr' hfit' hq
  | startPending pre p post _ hq => exact .of_reserved hr' hfit' hq
  | receive w hs =>
    obtain ⟨r, t, t', -, -, -, rfl⟩ := Pool.stepThread_eq_some hs
    simpa [InTable] using h
  | sendRan w hs =>
    obtain ⟨r, t, t', -, -, -, rfl⟩ := Pool.stepThread_eq_some hs
    simpa [InTable] using h
  | execute w r he =>
    obtain ⟨_, pool, jobs, -, hp, rfl, -⟩ := execute_eq_some he
    obtain ⟨r, r', -, -, rfl⟩ := Pool.execute_eq_some hp
    simpa [InTable, Pool.record] using h
  | _ => exact h

omit [Fintype ι] in
theorem length_startCommand (hh : d.HandOff) (hq : d.maxWorkers = 0) (p : PendingCommand ι) :
    (d.startCommand p).pool.workers.length = d.pool.workers.length + 1 := by
  rw [startCommand, Pool.assign_of_nil _ _ (hh.1.idle_quit hq), List.length_append]
  rfl

theorem InTable.startCommand (h : d.InTable) (hfit : d.cfg.FitsInt) (hh : d.HandOff)
    (hr : d.Reserved) {p : PendingCommand ι} (hslot : d.HasSlot (.category p.cat))
    (hroom : d.HasRoom p.cat) : (d.startCommand p).InTable := by
  by_cases hq : d.maxWorkers = 0
  · have hgeneral : d.cfg.generalWorkers ≤ d.cfg.capacity := by
      rw [hfit.capacity_eq, d.cfg.threads_eq]
      omega
    have hactive : d.pool.activeWorkers = d.pool.workers.length := by
      rw [Pool.activeWorkers, hh.1.idle_quit hq]
      rfl
    have hlen := length_startCommand hh hq p
    have hle : d.pool.workers.length ≤ d.cfg.capacity := h
    have hne : d.pool.workers.length ≠ d.cfg.capacity := by
      intro hfull
      rcases hslot with hlt | hlt
      · exact absurd (hroom hq hfull) (Nat.not_le.mpr hlt)
      · omega
    change (d.startCommand p).pool.workers.length ≤ d.cfg.capacity
    omega
  · exact .of_reserved (hr.startCommand hh hslot) hfit hq

/-- A category with a free reservation gets its thread, room or not. -/
theorem not_inTable_proxyCommand (hh : d.HandOff) (hq : d.maxWorkers = 0)
    (hfull : d.pool.workers.length = d.cfg.capacity) {p : PendingCommand ι}
    (hfree : d.pool.active (.category p.cat) < d.cfg.reserved (.category p.cat)) :
    ¬ (d.proxyCommand p).InTable := by
  have hslot : d.HasSlot (.category p.cat) := .inl hfree
  rw [proxyCommand, if_pos hslot]
  change ¬ (d.startCommand _).pool.workers.length ≤ d.cfg.capacity
  rw [length_startCommand hh hq, hfull]
  omega

theorem fitsTable_of_inTable_step (hh : d.HandOff) {e : DispatchEvent ι R}
    (hs : d.step e = some d') (h' : d'.InTable) : d.FitsTable e := by
  cases e with
  | inject p =>
    obtain ⟨-, rfl⟩ : d.phase = .control ∧ d.proxyCommand p = d' := by simpa [step] using hs
    intro hq hfull
    by_contra hlt
    exact not_inTable_proxyCommand hh hq hfull (Nat.not_le.mp hlt) h'
  | command p =>
    obtain ⟨-, rfl⟩ : d.phase = .incoming ∧ d.proxyCommand p = d' := by simpa [step] using hs
    intro hq hfull
    by_contra hlt
    exact not_inTable_proxyCommand hh hq hfull (Nat.not_le.mp hlt) h'
  | _ => trivial

theorem InTable.moves (h : d.InTable) (hfit : d.cfg.FitsInt) (hh : d.HandOff) (hr : d.Reserved)
    (hm : Moves d d') : d'.InTable := by
  refine (Transition.reflTransGen_invariant
    (P := fun d => d.InTable ∧ d.cfg.FitsInt ∧ d.HandOff ∧ d.Reserved) ?_ hm ⟨h, hfit, hh, hr⟩).1
  rintro d d' hm ⟨h, hfit, hh, hr⟩
  exact ⟨h.move hfit hh hr hm, by rwa [hm.cfg_eq], hh.move hm, hr.move hh hm⟩

theorem inTable_step_of_fitsTable (h : d.InTable) (hfit : d.cfg.FitsInt) (hh : d.HandOff)
    (hr : d.Reserved) {e : DispatchEvent ι R} (hs : d.step e = some d') (htable : d.FitsTable e) :
    d'.InTable := by
  rcases step_cases hs with hm | ⟨p, ⟨rfl, -⟩ | ⟨rfl, -⟩, hslot, rfl⟩
  · exact h.moves hfit hh hr hm
  · exact h.startCommand hfit hh hr hslot htable
  · exact h.startCommand hfit hh hr hslot htable

theorem inTable_of_fitsTable (h : ((machine ι R).restrict FitsTable).Reachable d)
    (hfit : d.cfg.FitsInt) : d.InTable := by
  induction h with
  | init h =>
    obtain ⟨cfg, -, rfl⟩ := h
    exact Nat.zero_le _
  | step hreach hs ih =>
    obtain ⟨htable, hs⟩ := Transition.Machine.restrict_step hs
    have hm := hreach.of_restrict
    rw [cfg_step hs] at hfit
    exact inTable_step_of_fitsTable (ih hfit) hfit (handOff_of_reachable hm)
      (reserved_of_reachable hm) hs htable

/-- The table of workers never outgrows its room in a run whose commands fit,
and it does as soon as one does not. -/
theorem inTable_iff_fitsTable (h : ((machine ι R).restrict FitsTable).Reachable d)
    (hfit : d.cfg.FitsInt) :
    d.InTable ∧ ∀ e d', d.step e = some d' → (d'.InTable ↔ d.FitsTable e) := by
  have hd := inTable_of_fitsTable h hfit
  have hm := h.of_restrict
  refine ⟨hd, ?_⟩
  intro e d' hs
  exact ⟨fitsTable_of_inTable_step (handOff_of_reachable hm) hs,
    inTable_step_of_fitsTable hd hfit (handOff_of_reachable hm) (reserved_of_reachable hm) hs⟩

/-- With one thread reserved for the category, QUIT arrives while a general
worker is busy; two more tasks are started, one after the other. -/
theorem outgrows_table_after_quit : ∃ d, (machine Unit Unit).Reachable d ∧
    d.maxWorkers = 0 ∧ d.cfg.capacity < d.pool.workers.length := by
  obtain ⟨d, hd, hp⟩ := smallConfig_reachable.exists_of_run
    [.submit [(.user 0, 0)] none, .batch 0, .next, .next, .next, .next, .next, .next, .quit,
      .inject smallCommand, .execute (.general 1) (.value ()), .sendRan (.general 1), .next,
      .workerMessage (.general 1), .next, .next, .next, .next, .next, .inject smallCommand]
    (p := fun d => decide (d.maxWorkers = 0 ∧ d.cfg.capacity < d.pool.workers.length))
    (by decide +kernel)
  exact ⟨d, hd, of_decide_eq_true hp⟩

theorem smallConfig_fitsTable :
    ((machine Unit Unit).restrict FitsTable).Reachable (start smallConfig) :=
  .init ⟨_, by decide +kernel, rfl⟩

theorem inTable_iff_fitsTable_after_quit : ∃ d,
    ((machine Unit Unit).restrict FitsTable).Reachable d ∧ d.maxWorkers = 0 ∧
      d.pool.workers.length = 2 ∧ d.InTable := by
  obtain ⟨d, hd, hp⟩ := smallConfig_fitsTable.exists_of_run
    [.submit [(.user 0, 0)] none, .batch 0, .next, .next, .next, .next, .next, .next, .quit,
      .inject smallCommand]
    (p := fun d => decide (d.cfg.FitsInt ∧ d.maxWorkers = 0 ∧ d.pool.workers.length = 2))
    (by decide +kernel)
  obtain ⟨hfit, hq, hlen⟩ := of_decide_eq_true hp
  exact ⟨d, hd, hq, hlen, (inTable_iff_fitsTable hd hfit).1⟩

end Dispatch

end ArqmaMQ
