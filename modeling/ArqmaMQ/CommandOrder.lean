import ArqmaMQ.ThreadReservation

/-! Commands and injected tasks of one category are started in the order in
which the proxy accepted them. The test for a free slot never looks at the
queue; it does not have to, because a queued command has no slot whenever new
ones are read. -/

namespace ArqmaMQ

variable {ι R : Type} [DecidableEq ι]

def WorkerEvent.startedSerial? (c : ι) : WorkerEvent ι → Option Nat
  | .loaded _ (some (.command c' n)) _ => if c' = c then some n else none
  | _ => none

/-- The commands of a category that were given to a worker, oldest first. -/
def Pool.started (p : Pool ι) (c : ι) : List Nat := p.log.filterMap (·.startedSerial? c)

theorem Pool.started_append {p p' : Pool ι} {e : WorkerEvent ι} (h : p'.log = p.log ++ [e])
    (c : ι) : p'.started c = p.started c ++ (e.startedSerial? c).toList := by
  rw [started, h, List.filterMap_append, ← started]
  rcases he : e.startedSerial? c with _ | n <;> simp [he]

namespace Dispatch

variable {d d' : Dispatch ι R} {w : WorkerRef}

def pendingOf (d : Dispatch ι R) (c : ι) : List Nat :=
  (d.pendingCommands.filter (·.cat = c)).map (·.serial)

def acceptedOf (d : Dispatch ι R) (c : ι) : List Nat :=
  (d.accepted.filter (·.cat = c)).map (·.serial)

def InOrder (d : Dispatch ι R) : Prop := ∀ c, d.pool.started c ++ d.pendingOf c = d.acceptedOf c

/-- No queued command could be started. -/
def Saturated (d : Dispatch ι R) : Prop := ∀ q ∈ d.pendingCommands, ¬ d.HasSlot (.category q.cat)

/-- Before QUIT, commands are in order, and where new ones are read the queue
is saturated. -/
def Orderly (d : Dispatch ι R) : Prop :=
  d.maxWorkers ≠ 0 → d.InOrder ∧ (d.phase = .control ∨ d.phase = .incoming → d.Saturated)

theorem Saturated.pendingOf_eq_nil (h : d.Saturated) {c : ι} (hslot : d.HasSlot (.category c)) :
    d.pendingOf c = [] := by
  rw [pendingOf, List.map_eq_nil_iff, List.filter_eq_nil_iff]
  intro q hq hc
  obtain rfl : q.cat = c := by simpa using hc
  exact h q hq hslot

omit [DecidableEq ι] in
theorem hasSlot_congr {pool : Pool ι} {jobs : Jobs R} (ha : pool.active = d.pool.active)
    (hl : pool.workers.length = d.pool.workers.length)
    (hi : pool.idleWorkers = d.pool.idleWorkers) (k : JobClass ι) :
    HasSlot { d with pool, jobs } k ↔ d.HasSlot k := by
  simp only [HasSlot, Pool.activeWorkers, ha, hl, hi]

/-- A change that starts no command and frees no slot. -/
theorem Orderly.frame (h : d.Orderly) {pool : Pool ι} {jobs : Jobs R}
    (hs : ∀ c, pool.started c = d.pool.started c)
    (hslot : d.phase = .control ∨ d.phase = .incoming →
      ∀ k, HasSlot { d with pool, jobs } k → d.HasSlot k) :
    Orderly { d with pool, jobs } := by
  intro hq
  obtain ⟨hord, hsat⟩ := h hq
  exact ⟨fun c => (congrArg (· ++ d.pendingOf c) (hs c)).trans (hord c),
    fun hp q hmem hk => hsat hp q hmem (hslot hp _ hk)⟩

theorem acceptedOf_append {p : PendingCommand ι} (h : d'.accepted = d.accepted ++ [p]) (c : ι) :
    d'.acceptedOf c = d.acceptedOf c ++ if p.cat = c then [p.serial] else [] := by
  by_cases hc : p.cat = c <;> simp [acceptedOf, h, List.filter_append, hc]

theorem started_loadPending (hh : d.HandOff) (p : PendingCommand ι) (c : ι) :
    (d.pool.assign (.category p.cat) (·.loadPending p)).started c =
      d.pool.started c ++ if p.cat = c then [p.serial] else [] := by
  obtain ⟨w, r, -, hlog⟩ := hh.1.log_assign (.category p.cat) (·.loadPending p)
  rw [Pool.started_append hlog, RunInfo.task_loadPending, WorkerEvent.startedSerial?]
  split <;> rfl

theorem started_startTagged (hh : d.HandOff) (i : Nat) (c : ι) :
    (d.startTagged i).pool.started c = d.pool.started c := by
  unfold Dispatch.startTagged
  split
  · rename_i t job rest ht hj
    split
    · rfl
    · rename_i hb
      rw [Pool.started_append (hh.1.log_assignTagged ht (by simpa using hb) _)]
      exact List.append_nil _
  · rfl

theorem started_startBatchJob (hh : d.HandOff) (reply : Bool) (job : BatchJob)
    (rest : List BatchJob) (c : ι) :
    (d.startBatchJob reply job rest).pool.started c = d.pool.started c := by
  obtain ⟨w, r, -, hlog⟩ := hh.1.log_assign (batchClass ι reply) (·.loadBatchJob job reply 0)
  exact (Pool.started_append hlog c).trans (List.append_nil _)

theorem started_workerMessage (hw : d.proxyWorkerMessage w = some d') (c : ι) :
    d'.pool.started c = d.pool.started c := by
  rcases log_workerMessage hw with he | ⟨t, he⟩
  · rw [Pool.started, he, ← Pool.started]
  · rw [Pool.started_append he]
    exact List.append_nil _

theorem started_execute {p p' : Pool ι} {threw : Bool} (hp : p.execute w threw = some p') (c : ι) :
    p'.started c = p.started c := by
  obtain ⟨r, r', -, -, rfl⟩ := Pool.execute_eq_some hp
  simp [Pool.started, Pool.record, WorkerEvent.startedSerial?]

theorem started_stepThread {p p' : Pool ι} {f : Thread → Option Thread}
    (hp : p.stepThread w f = some p') (c : ι) : p'.started c = p.started c := by
  obtain ⟨r, t, t', -, -, -, rfl⟩ := Pool.stepThread_eq_some hp
  simp [Pool.started]

theorem Orderly.startCommand (h : d.Orderly) (hh : d.HandOff) {p : PendingCommand ι}
    (hp : d.phase = .control ∨ d.phase = .incoming) (hslot : d.HasSlot (.category p.cat)) :
    (d.startCommand p).Orderly := by
  intro hq
  obtain ⟨hord, hsat⟩ := h hq
  refine ⟨?_, fun _ q hmem hk => hsat hp q hmem (hk.of_assign rfl rfl)⟩
  intro c
  have hpend : (d.startCommand p).pendingOf c = d.pendingOf c := rfl
  rw [acceptedOf_append rfl, ← hord c, hpend]
  change (d.pool.assign (.category p.cat) (·.loadPending p)).started c ++ _ = _
  rw [started_loadPending hh]
  by_cases hc : p.cat = c
  · subst hc
    simp [(hsat hp).pendingOf_eq_nil hslot]
  · simp [hc]

theorem Orderly.queueCommand (h : d.Orderly) {p : PendingCommand ι}
    (hslot : ¬ d.HasSlot (.category p.cat)) : (d.queueCommand p).Orderly := by
  intro hq
  obtain ⟨hord, hsat⟩ := h hq
  refine ⟨?_, ?_⟩
  · intro c
    rw [acceptedOf_append rfl, ← hord c, List.append_assoc]
    by_cases hc : p.cat = c <;> simp [Dispatch.queueCommand, pendingOf, List.filter_append, hc]
  · intro hp q hmem
    rcases List.mem_append.mp hmem with hmem | hmem
    · exact hsat hp q hmem
    · rw [List.mem_singleton.mp hmem]
      exact hslot

theorem Orderly.startPending (h : d.Orderly) (hh : d.HandOff) {p : PendingCommand ι}
    {pre post : List (PendingCommand ι)} (hp : d.phase = .queue)
    (hc : d.pendingCommands = pre ++ p :: post) (hslot : d.HasSlot (.category p.cat))
    (hpre : ∀ q ∈ pre, ¬ d.HasSlot (.category q.cat)) : (d.startPending pre p post).Orderly := by
  intro hq
  refine ⟨?_, ?_⟩
  · intro c
    have hord := (h hq).1 c
    change _ = d.acceptedOf c
    rw [← hord]
    change (d.pool.assign (.category p.cat) (·.loadPending p)).started c ++ _ = _
    rw [started_loadPending hh, List.append_assoc]
    congr 1
    by_cases hcat : p.cat = c
    · subst hcat
      have hnone : pre.filter (·.cat = p.cat) = [] := by
        rw [List.filter_eq_nil_iff]
        intro q hmem hqc
        exact hpre q hmem (by rwa [show q.cat = p.cat by simpa using hqc])
      simp [pendingOf, Dispatch.startPending, hc, List.filter_append, hnone]
    · simp [pendingOf, Dispatch.startPending, hc, List.filter_append, hcat]
  · intro hph
    rw [show (d.startPending pre p post).phase = .queue from hp] at hph
    simp at hph

/-- Once the queue was drained nothing in it has a slot: the loop passed over
the commands without one, and if it stopped early all reservations are in use. -/
theorem Drained.saturated [Fintype ι] (h : d.Drained) (hfit : d.cfg.FitsInt)
    (hq : d.maxWorkers ≠ 0) (hr : d.Reserved) : d.Saturated := by
  obtain ⟨pre, post, hc, hpre, hpost⟩ := h
  intro q hmem
  rcases hpost with rfl | hfull
  · exact hpre q (by simpa [hc] using hmem)
  · exact hr.not_hasSlot_of_full hfit hq hfull _

theorem Orderly.move [Fintype ι] (h : d.Orderly) (hfit : d.cfg.FitsInt) (hh : d.HandOff)
    (hr : d.Reserved) (hm : Move d d') : d'.Orderly := by
  cases hm with
  | quit => exact fun hq => absurd rfl hq
  | workerMessage w hp hw =>
    have hs := started_workerMessage hw
    obtain ⟨pool, jobs, rfl⟩ := workerMessage_frame hw
    exact h.frame hs fun hph => by simp [hp] at hph
  | queueCommand p _ hslot => exact h.queueCommand hslot
  | startTagged i _ =>
    have hs := started_startTagged hh i
    revert hs
    unfold Dispatch.startTagged
    split
    · split
      · exact fun _ => h
      · exact fun hs => h.frame hs fun _ k => (hasSlot_congr rfl rfl rfl k).mp
    · exact fun _ => h
  | startBatchJob reply job rest hp =>
    exact h.frame (started_startBatchJob hh reply job rest) fun hph => by simp [hp] at hph
  | startPending pre p post hp _ hc hslot hpre => exact h.startPending hh hp hc hslot hpre
  | toPhase p hc hi => exact fun hq => ⟨(h hq).1, fun hp => absurd hp (by simp [hc, hi])⟩
  | toControl hp => exact fun hq => ⟨(h hq).1, fun _ => (h hq).2 (.inr hp)⟩
  | toIncoming hd => exact fun hq => ⟨(h hq).1, fun _ => (hd hq).saturated hfit hq hr⟩
  | receive w hs =>
    have hst := started_stepThread hs
    obtain ⟨r, t, t', -, -, -, rfl⟩ := Pool.stepThread_eq_some hs
    refine h.frame hst fun _ k => (hasSlot_congr ?_ ?_ ?_ k).mp <;> simp
  | sendRan w hs =>
    have hst := started_stepThread hs
    obtain ⟨r, t, t', -, -, -, rfl⟩ := Pool.stepThread_eq_some hs
    refine h.frame hst fun _ k => (hasSlot_congr ?_ ?_ ?_ k).mp <;> simp
  | execute w r he =>
    obtain ⟨_, pool, jobs, -, hp, rfl, -⟩ := execute_eq_some he
    have hs := started_execute hp
    obtain ⟨r, r', -, -, rfl⟩ := Pool.execute_eq_some hp
    refine h.frame hs fun _ k => (hasSlot_congr ?_ ?_ ?_ k).mp <;> simp [Pool.record]
  | _ => exact h

/-- A command's serial is its place in the order of acceptance. -/
def Numbered (d : Dispatch ι R) : Prop :=
  d.accepted.map (·.serial) = List.range d.accepted.length

omit [DecidableEq ι] in
theorem Numbered.accept (h : d.Numbered) {p : PendingCommand ι} (hs : p.serial = d.accepted.length)
    (ha : d'.accepted = d.accepted ++ [p]) : d'.Numbered := by
  rw [Numbered, ha, List.length_append, List.length_singleton, List.range_succ, ← h, ← hs]
  simp

omit [DecidableEq ι] in
theorem Numbered.serial_eq (h : d.Numbered) {q : PendingCommand ι} {i : Nat}
    (hi : d.accepted[i]? = some q) : q.serial = i := by
  obtain ⟨hlt, rfl⟩ := List.getElem?_eq_some_iff.mp hi
  have hmap := congrArg (·[i]?) h
  simpa [hlt] using hmap

theorem Numbered.move (h : d.Numbered) (hm : Move d d') : d'.Numbered := by
  cases hm with
  | workerMessage w hp hw =>
    obtain ⟨pool, jobs, rfl⟩ := workerMessage_frame hw
    exact h
  | queueCommand p hs _ => exact h.accept hs rfl
  | startTagged i _ =>
    rw [Numbered, (startTagged_frame d i).2.2.2]
    exact h
  | execute w r he =>
    obtain ⟨_, pool, jobs, -, hp, rfl, -⟩ := execute_eq_some he
    exact h
  | _ => exact h

theorem started_proxyCommand {p : PendingCommand ι} (hslot : ¬ d.HasSlot (.category p.cat))
    (c : ι) : (d.proxyCommand p).pool.started c = d.pool.started c := by
  rw [proxyCommand, if_neg hslot]
  split <;> rfl

/-- A command that is started on arrival overtakes none of its category. -/
theorem pendingOf_eq_nil_of_started (h : d.Orderly) (hq : d.maxWorkers ≠ 0)
    {e : DispatchEvent ι R} {p : PendingCommand ι} (he : e = .inject p ∨ e = .command p)
    (hs : d.step e = some d') (hstart : d'.pool.started p.cat ≠ d.pool.started p.cat) :
    d.pendingOf p.cat = [] := by
  obtain ⟨hp, rfl⟩ : (d.phase = .control ∨ d.phase = .incoming) ∧ d.proxyCommand p = d' := by
    rcases he with rfl | rfl
    · obtain ⟨hp, hd⟩ : d.phase = .control ∧ d.proxyCommand p = d' := by simpa [step] using hs
      exact ⟨.inl hp, hd⟩
    · obtain ⟨hp, hd⟩ : d.phase = .incoming ∧ d.proxyCommand p = d' := by simpa [step] using hs
      exact ⟨.inr hp, hd⟩
  by_cases hslot : d.HasSlot (.category p.cat)
  · exact ((h hq).2 hp).pendingOf_eq_nil hslot
  · exact absurd (started_proxyCommand hslot _) hstart

variable [Fintype ι]

theorem numbered_of_reachable (h : (machine ι R).Reachable d) : d.Numbered :=
  reachable_invariant (fun _ => rfl) (fun _ _ hn hm => hn.move hm)
    (fun _ _ hn _ _ hs => hn.accept hs rfl) h

theorem orderly_of_reachable (h : (machine ι R).Reachable d) (hfit : d.cfg.FitsInt) :
    d.Orderly := by
  refine (reachable_invariant
    (P := fun d => (d.HandOff ∧ d.Reserved) ∧ (d.cfg.FitsInt → d.Orderly)) ?_ ?_ ?_ h).2 hfit
  · intro cfg
    exact ⟨⟨HandOff.init cfg, Reserved.init cfg⟩,
      fun _ _ => ⟨fun _ => rfl, fun _ q hmem => by simp [start] at hmem⟩⟩
  · rintro d d' ⟨⟨hh, hr⟩, ho⟩ hm
    refine ⟨⟨hh.move hm, hr.move hh hm⟩, fun hfit => ?_⟩
    rw [hm.cfg_eq] at hfit
    exact (ho hfit).move hfit hh hr hm
  · rintro d p ⟨⟨hh, hr⟩, ho⟩ hp hslot -
    exact ⟨⟨hh.startCommand p, hr.startCommand hh hslot⟩,
      fun hfit => (ho hfit).startCommand hh hp hslot⟩

theorem no_overtaking (h : (machine ι R).Reachable d) (hfit : d.cfg.FitsInt)
    (hq : d.maxWorkers ≠ 0) :
    (d.accepted.map (·.serial)).Pairwise (· < ·) ∧
      (∀ c, d.pool.started c ++ d.pendingOf c = d.acceptedOf c) ∧
      ∀ e p d', e = .inject p ∨ e = .command p → d.step e = some d' →
        d'.pool.started p.cat ≠ d.pool.started p.cat → d.pendingOf p.cat = [] := by
  have hord := orderly_of_reachable h hfit
  refine ⟨?_, (hord hq).1, fun e p d' he hs => pendingOf_eq_nil_of_started hord hq he hs⟩
  rw [numbered_of_reachable h]
  exact List.pairwise_lt_range

theorem no_overtaking_with_queue : ∃ d, (machine Unit Unit).Reachable d ∧ d.maxWorkers ≠ 0 ∧
    d.pool.started () = [0, 1] ∧ d.pendingOf () = [2, 3] ∧ d.acceptedOf () = [0, 1, 2, 3] := by
  obtain ⟨d, hd, hp⟩ := smallConfig_reachable.exists_of_run
    [.inject smallCommand, .next, .next, .next, .next, .next, .command smallCommand,
      .command smallCommand, .command smallCommand, .execute (.general 0) (.value ()),
      .sendRan (.general 0), .next, .next, .workerMessage (.general 0), .next, .next, .next, .next]
    (p := fun d => decide (d.cfg.FitsInt ∧ d.maxWorkers ≠ 0 ∧ d.pool.started () = [0, 1] ∧
      d.pendingOf () = [2, 3])) (by decide +kernel)
  obtain ⟨hfit, hq, hstarted, hpending⟩ := of_decide_eq_true hp
  have hord := (no_overtaking hd hfit hq).2.1 ()
  rw [hstarted, hpending] at hord
  exact ⟨d, hd, hq, hstarted, hpending, hord.symm⟩

/-- Two categories, of which the second has three threads reserved. The first makes
the sum wrap around to three. -/
def shortConfig : Config Bool where
  generalWorkers := 1
  batchJobsReserved := 0
  replyJobsReserved := 0
  reservedThreads c := if c then 3 else 4294967295
  maxQueue _ := 200
  taggedWorkers := 0
  generalWorkers_pos := Nat.one_pos

def shortCommand : PendingCommand Bool where
  cat := true
  command := []
  callback := .inl ⟨0, false⟩
  remote := []

theorem shortConfig_reachable : (machine Bool Unit).Reachable (start shortConfig) :=
  .init ⟨_, by decide +kernel, rfl⟩

/-- Three commands are run while three more and a job come in. The job then takes
a thread that is reserved for the category. -/
def shortRun : List (DispatchEvent Bool Unit) :=
  [.submit [(.user 0, 0)] none] ++ List.replicate 6 (.inject shortCommand) ++ [.batch 0, .next] ++
    (List.range 3).flatMap (fun i => [.execute (.general i) (.value ()), .sendRan (.general i),
      .workerMessage (.general i)]) ++ [.next, .next, .next]

/-- The sixth command is left in the queue, and the seventh is started on arrival. -/
theorem overtakes_when_wrapped : ∃ d d', (machine Bool Unit).Reachable d ∧ d.maxWorkers = 3 ∧
    d.pendingOf true = [5] ∧ d.step (.command shortCommand) = some d' ∧
      d'.pool.started true = [0, 1, 2, 3, 4, 6] := by
  obtain ⟨d, hd, hp⟩ := shortConfig_reachable.exists_of_run (shortRun ++ [.next])
    (p := fun d => decide (d.maxWorkers = 3 ∧ d.pendingOf true = [5] ∧
      (d.step (.command shortCommand)).any (·.pool.started true = [0, 1, 2, 3, 4, 6])))
    (by decide +kernel)
  obtain ⟨hmax, hpending, hstarted⟩ := of_decide_eq_true hp
  obtain ⟨d', hs, hd'⟩ := (Option.any_eq_true _ _).mp hstarted
  exact ⟨d, d', hd, hmax, hpending, hs, of_decide_eq_true hd'⟩

end Dispatch

end ArqmaMQ
