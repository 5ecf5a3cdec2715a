import ArqmaMQ.CommandOrder

/-! The counters of the command queue: `queued` of a category is the number of
its commands that wait, and a command leaves the queue only with a worker. The
counters, of type `int`, are taken not to overflow. -/

namespace ArqmaMQ

namespace Dispatch

variable {ι R : Type} [DecidableEq ι] {d d' d'' : Dispatch ι R} {ps qs : List (PendingCommand ι)}

structure Tallied (d : Dispatch ι R) : Prop where
  counted : ∀ c, d.queued c = d.pendingCommands.countP (·.cat = c)
  bounded : ∀ c, 0 ≤ d.cfg.maxQueue c → d.queued c ≤ d.cfg.maxQueue c

/-- The commands `ps` leave the queue, and are given to workers in this order. -/
structure Starts (d : Dispatch ι R) (ps : List (PendingCommand ι)) (d' : Dispatch ι R) :
    Prop where
  entries : d.pendingCommands.Perm (ps ++ d'.pendingCommands)
  queued : ∀ c, d.queued c = d'.queued c + ps.countP (·.cat = c)
  active : ∀ c, d'.pool.active (.category c) =
    d.pool.active (.category c) + ps.countP (·.cat = c)
  started : ∀ c, d'.pool.started c =
    d.pool.started c ++ (ps.filter (·.cat = c)).map (·.serial)

theorem Starts.refl (d : Dispatch ι R) : Starts d [] d :=
  ⟨.refl _, by simp, by simp, by simp⟩

theorem Starts.trans (h : Starts d ps d') (h' : Starts d' qs d'') : Starts d (ps ++ qs) d'' := by
  refine ⟨?_, ?_, ?_, ?_⟩
  · have hrest := h'.entries.append_left ps
    rw [List.append_assoc]
    exact h.entries.trans hrest
  · intro c
    rw [h.queued, h'.queued, List.countP_append]
    push_cast
    omega
  · intro c
    rw [h'.active, h.active, List.countP_append]
    omega
  · intro c
    rw [h'.started, h.started, List.filter_append, List.map_append, List.append_assoc]

theorem starts_startTagged (hh : d.HandOff) (i : Nat) : Starts d [] (d.startTagged i) := by
  have hstarted := started_startTagged hh i
  revert hstarted
  unfold startTagged
  split
  · split
    · exact fun _ => .refl d
    · exact fun hstarted => ⟨.refl _, by simp, by simp [Pool.assignTagged, Pool.load,
        Pool.proxyRunWorker, Pool.setBusy, Pool.record], by simpa using hstarted⟩
  · exact fun _ => .refl d

theorem starts_startBatchJob (hh : d.HandOff) (reply : Bool) (job : BatchJob)
    (rest : List BatchJob) : Starts d [] (d.startBatchJob reply job rest) := by
  refine ⟨.refl _, fun c => (add_zero _).symm, ?_, ?_⟩
  · intro c
    have hne : JobClass.category c ≠ batchClass ι reply := by cases reply <;> simp [batchClass]
    rw [startBatchJob, Pool.assign_active, Function.update_of_ne hne]
    rfl
  · intro c
    simpa using started_startBatchJob hh reply job rest c

/-- One round of the loop over `pending_commands` that starts a command. -/
theorem starts_startPending (hh : d.HandOff) {pre post : List (PendingCommand ι)}
    {p : PendingCommand ι} (hc : d.pendingCommands = pre ++ p :: post) :
    Starts d [p] (d.startPending pre p post) := by
  refine ⟨?_, ?_, ?_, ?_⟩
  · rw [hc]
    exact List.perm_middle
  · intro c
    by_cases hcat : p.cat = c
    · subst hcat
      simp [startPending]
    · simp [startPending, hcat, Function.update_of_ne (Ne.symm hcat)]
  · intro c
    rw [startPending, Pool.assign_active]
    by_cases hcat : p.cat = c
    · subst hcat
      simp
    · have hne : JobClass.category c ≠ .category p.cat := by simpa using Ne.symm hcat
      simp [hcat, Function.update_of_ne hne]
  · intro c
    change (d.pool.assign (.category p.cat) (·.loadPending p)).started c = _
    rw [started_loadPending hh]
    by_cases hcat : p.cat = c <;> simp [hcat]

theorem starts_serve (hh : d.HandOff) (h : Serve d d') : ∃ ps, Starts d ps d' := by
  cases h with
  | tagged i => exact ⟨[], starts_startTagged hh i⟩
  | batchJob reply job rest => exact ⟨[], starts_startBatchJob hh reply job rest⟩
  | pending pre p post _ _ hc => exact ⟨[p], starts_startPending hh hc⟩

theorem starts_serves (hh : d.HandOff) (h : Serves d d') : ∃ ps, Starts d ps d' := by
  have hall : d'.HandOff ∧ ∃ ps, Starts d ps d' := by
    induction h with
    | refl => exact ⟨hh, [], .refl d⟩
    | tail _ hs ih =>
      obtain ⟨hmid, ps, hps⟩ := ih
      obtain ⟨qs, hqs⟩ := starts_serve hmid hs
      exact ⟨hmid.move hs.move, ps ++ qs, hps.trans hqs⟩
  exact hall.2

/-- What a step can do to the queue of commands. -/
inductive Flow (d d' : Dispatch ι R) : Prop
  | still (hp : d'.pendingCommands = d.pendingCommands) (hq : d'.queued = d.queued)
  | joins (p : PendingCommand ι)
    (hroom : 0 ≤ d.cfg.maxQueue p.cat → d.queued p.cat < d.cfg.maxQueue p.cat)
    (hp : d'.pendingCommands = d.pendingCommands ++ [p])
    (hq : d'.queued = Function.update d.queued p.cat (d.queued p.cat + 1))
  | starts (ps : List (PendingCommand ι)) (h : Starts d ps d')

theorem proxyCommand_flow (d : Dispatch ι R) (p : PendingCommand ι) :
    Flow d (d.proxyCommand p) := by
  unfold proxyCommand
  dsimp only
  split
  · exact .still rfl rfl
  split
  · exact .still rfl rfl
  · rename_i hfull
    refine .joins _ ?_ rfl rfl
    intro hmax
    exact not_le.mp fun hle => hfull ⟨hmax, hle⟩

theorem next_flow (hh : d.HandOff) (h : d.next = some d') : Flow d d' := by
  rcases next_cases h with ⟨e, hs, -, rfl⟩ | ⟨-, rfl⟩ | ⟨p, -, -, rfl⟩
  · obtain ⟨ps, hps⟩ := starts_serves hh hs
    exact .starts ps ⟨hps.entries, hps.queued, hps.active, hps.started⟩
  · exact .still rfl rfl
  · exact .still rfl rfl

theorem step_flow {e : DispatchEvent ι R} (hh : d.HandOff) (h : d.step e = some d') :
    Flow d d' := by
  cases e with
  | inject p =>
    obtain ⟨-, rfl⟩ : d.phase = .control ∧ d.proxyCommand p = d' := by simpa [step] using h
    exact d.proxyCommand_flow p
  | command p =>
    obtain ⟨-, rfl⟩ : d.phase = .incoming ∧ d.proxyCommand p = d' := by simpa [step] using h
    exact d.proxyCommand_flow p
  | next => exact next_flow hh h
  | batch b =>
    simp only [step] at h
    split at h
    · obtain ⟨batch, -, rfl⟩ := Option.map_eq_some_iff.mp h
      exact .still rfl rfl
    · cases h
  | workerMessage w =>
    obtain ⟨-, hw⟩ : d.phase = .worker ∧ d.proxyWorkerMessage w = some d' := by
      simpa [step] using h
    obtain ⟨pool, jobs, rfl⟩ := workerMessage_frame hw
    exact .still rfl rfl
  | receive w =>
    obtain ⟨pool, -, rfl⟩ := Option.map_eq_some_iff.mp h
    exact .still rfl rfl
  | execute w r =>
    obtain ⟨_, pool, jobs, -, -, rfl, -⟩ := execute_eq_some h
    exact .still rfl rfl
  | sendRan w =>
    obtain ⟨pool, -, rfl⟩ := Option.map_eq_some_iff.mp h
    exact .still rfl rfl
  | _ =>
    obtain ⟨-, rfl⟩ : _ ∧ _ = d' := by simpa [step] using h
    exact .still rfl rfl

theorem Tallied.flow (h : d.Tallied) (hf : Flow d d') (hcfg : d'.cfg = d.cfg) :
    d'.Tallied := by
  cases hf with
  | still hp hq =>
    refine ⟨?_, ?_⟩
    · rw [hp, hq]
      exact h.counted
    · rw [hcfg, hq]
      exact h.bounded
  | joins p hroom hp hq =>
    have hcounted := h.counted
    have hbounded := h.bounded
    refine ⟨?_, ?_⟩
    · intro c
      rw [hp, hq, List.countP_append]
      by_cases hcat : p.cat = c
      · subst hcat
        simp [hcounted]
      · simp [hcat, Function.update_of_ne (Ne.symm hcat), hcounted]
    · intro c hmax
      rw [hcfg] at hmax ⊢
      rw [hq]
      by_cases hcat : p.cat = c
      · subst hcat
        rw [Function.update_self]
        exact hroom hmax
      · rw [Function.update_of_ne (Ne.symm hcat)]
        exact hbounded c hmax
  | starts ps hs =>
    have hqueued := hs.queued
    refine ⟨?_, ?_⟩
    · intro c
      have hall := h.counted c
      rw [hs.entries.countP_eq, List.countP_append] at hall
      have hc := hqueued c
      push_cast at hall
      omega
    · intro c hmax
      rw [hcfg] at hmax ⊢
      have hle := h.bounded c hmax
      have hc := hqueued c
      omega

variable [Fintype ι]

theorem tallied_of_reachable (h : (machine ι R).Reachable d) : d.Tallied := by
  induction h with
  | init hinit =>
    obtain ⟨cfg, -, rfl⟩ := hinit
    exact ⟨fun _ => rfl, fun _ hmax => hmax⟩
  | step hreach hs ih => exact ih.flow (step_flow (handOff_of_reachable hreach) hs) (cfg_step hs)

/-- No step takes a command from the queue except by starting it. -/
theorem queueAccounting_of_reachable (h : (machine ι R).Reachable d) :
    (∀ c, d.queued c = d.pendingCommands.countP (·.cat = c)) ∧
      (∀ c, 0 ≤ d.cfg.maxQueue c → d.queued c ≤ d.cfg.maxQueue c) ∧
      ∀ e d', d.step e = some d' →
        d.pendingCommands <+: d'.pendingCommands ∨ ∃ ps, Starts d ps d' := by
  obtain ⟨hcounted, hbounded⟩ := tallied_of_reachable h
  refine ⟨hcounted, hbounded, ?_⟩
  intro e d' hs
  cases step_flow (handOff_of_reachable h) hs with
  | still hp =>
    left
    rw [hp]
  | joins p _ hp =>
    left
    rw [hp]
    exact List.prefix_append _ _
  | starts ps hps => exact .inr ⟨ps, hps⟩

theorem queueAccounting_with_queue : ∃ d d' ps, (machine Unit Unit).Reachable d ∧
    d.queued () = 3 ∧ d.step .next = some d' ∧ d'.queued () = 2 ∧ Starts d ps d' := by
  obtain ⟨d, hd, hp⟩ := smallConfig_reachable.exists_of_run
    [.inject smallCommand, .next, .next, .next, .next, .next, .command smallCommand,
      .command smallCommand, .command smallCommand, .execute (.general 0) (.value ()),
      .sendRan (.general 0), .next, .next, .workerMessage (.general 0), .next, .next, .next]
    (p := fun d => decide (d.queued () = 3 ∧ (d.step .next).any (·.queued () = 2)))
    (by decide +kernel)
  obtain ⟨hqueued, hnext⟩ := of_decide_eq_true hp
  obtain ⟨d', hs, hleft⟩ := (Option.any_eq_true _ _).mp hnext
  have hqueued' : d'.queued () = 2 := of_decide_eq_true hleft
  obtain ⟨hcounted, -, hleaves⟩ := queueAccounting_of_reachable hd
  have hd' : (machine Unit Unit).Reachable d' := hd.step (e := .next) hs
  have hcounted' := (queueAccounting_of_reachable hd').1 ()
  rcases hleaves _ d' hs with hprefix | ⟨ps, hps⟩
  · have hle := hprefix.sublist.countP_le (p := fun p => decide (p.cat = ()))
    have hc := hcounted ()
    omega
  · exact ⟨d, d', ps, hd, hqueued, hs, hqueued', hps⟩

end Dispatch

end ArqmaMQ
