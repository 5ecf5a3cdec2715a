import ArqmaMQ.CommandRuns
import ArqmaMQ.Polling
import ArqmaMQ.ShutdownTold
import ArqmaMQ.Variant

/-! Shutdown comes to an end. As long as there is a thread, some thread or the
proxy can go on, and each such step brings the end of the loop nearer. -/

namespace ArqmaMQ

open Transition.Machine

variable {ι R : Type}

/-- A thread can put together the message for the command: a request comes with a
reply tag. -/
def PendingCommand.Answerable (q : PendingCommand ι) : Prop :=
  ∀ c, q.callback = .inl c → c.isRequest = true → q.dataParts ≠ []

theorem RunInfo.LoadedWith.runTask_isSome {r : RunInfo ι} {q : PendingCommand ι}
    (h : r.LoadedWith q) (ha : q.Answerable) (threw : Bool) (m : Message) :
    (r.runTask threw m).isSome = true := by
  obtain ⟨r₀, hr⟩ := h
  rcases hc : q.callback with c | f
  · have hmessage : (r.commandMessage m c).isSome = true := by
      by_cases hreq : c.isRequest = true
      · obtain ⟨tag, parts, hparts⟩ := List.exists_cons_of_ne_nil (ha c hc hreq)
        rw [hr]
        simp [commandMessage, loadPending, hc, loadCommand, hreq, hparts]
      · simp [commandMessage, hreq]
    rw [hr] at hmessage ⊢
    simp only [loadPending, hc, loadCommand, reset] at hmessage
    simp only [loadPending, hc, loadCommand, reset, runTask, Bool.false_eq_true, if_false,
      Option.isSome_map]
    exact hmessage
  · rw [hr]
    simp [loadPending, hc, loadInjected, reset, runTask]

theorem RunInfo.runTask_isSome_of_batch {r : RunInfo ι} {job : BatchJob}
    (h : r.task = some (.batch job)) (threw : Bool) (m : Message) :
    (r.runTask threw m).isSome = true := by
  have hto := toRun_of_task h
  by_cases hb : r.isBatchJob = true
  · simp [runTask, hb, hto]
  · rcases hc : r.cat with _ | c <;> simp [task, hb, hc] at h

namespace Dispatch

variable [DecidableEq ι] {d d' : Dispatch ι R} {w : WorkerRef} {r : RunInfo ι} {t : Thread}

/-- RAN is understood if the record tells the task. -/
theorem exists_workerMessage_ran {rest : List WorkerReply} (hr : d.pool.run? w = some r)
    (ht : r.workerThread = some t) (ho : t.outbox = .ran :: rest) (htask : r.task.isSome = true) :
    ∃ d', d.proxyWorkerMessage w = some d' := by
  obtain ⟨task, htask⟩ := Option.isSome_iff_exists.mp htask
  simp only [proxyWorkerMessage, takeReply, hr, ht, ho, Option.bind_eq_bind, Option.bind_some,
    Pool.run?_modifyRun, if_true, Option.map_some, workerRan]
  by_cases hb : r.isBatchJob = true
  · obtain ⟨b, hto⟩ : ∃ b, r.toRun = .batch (some b) := by
      simp only [RunInfo.task, hb, if_true] at htask
      split at htask
      · rename_i b hto
        exact ⟨b, hto⟩
      · cases htask
    cases w <;> simp [finishActive, hb, hto]
  · rcases hc : r.cat with _ | c
    · simp [RunInfo.task, hb, hc] at htask
    · simp [finishActive, hb]

theorem exists_workerMessage_quitting {rest : List WorkerReply} (hr : d.pool.run? w = some r)
    (ht : r.workerThread = some t) (ho : t.outbox = .quitting :: rest) :
    ∃ d', d.proxyWorkerMessage w = some d' := by
  simp [proxyWorkerMessage, takeReply, hr, ht, ho, Pool.run?_modifyRun]

theorem exists_receive (hr : d.pool.run? w = some r) (ht : r.workerThread = some t)
    (hpc : t.pc = .waitStart ∨ t.pc = .waitRun) (hin : t.inbox ≠ []) :
    ∃ d', d.step (.receive w) = some d' := by
  obtain ⟨c, rest, hc⟩ := List.exists_cons_of_ne_nil hin
  have hthread : ∃ t', t.receive = some t' := by
    rcases hpc with hpc | hpc <;> simp only [Thread.receive, hpc, Thread.waitFor, hc] <;>
      (split; exact ⟨_, rfl⟩; split <;> exact ⟨_, rfl⟩)
  obtain ⟨t', ht'⟩ := hthread
  simp [step, Pool.receive, Pool.stepThread, hr, ht, ht']

theorem exists_sendRan (hr : d.pool.run? w = some r) (ht : r.workerThread = some t)
    (hpc : t.pc = .sending) : ∃ d', d.step (.sendRan w) = some d' := by
  simp [step, Pool.sendRan, Pool.stepThread, hr, ht, Thread.sendRan, hpc]

theorem exists_execute (hr : d.pool.run? w = some r) (ht : r.workerThread = some t)
    (hpc : t.pc = .executing) (res : JobResult R)
    (hrun : (r.runTask res.threw t.message).isSome = true) :
    ∃ d', d.step (.execute w res) = some d' := by
  obtain ⟨⟨r', m⟩, hrm⟩ := Option.isSome_iff_exists.mp hrun
  have hexec : ∃ r₁, r.execute res.threw = some r₁ := by simp [RunInfo.execute, ht, hpc, hrm]
  obtain ⟨r₁, hr₁⟩ := hexec
  simp only [step, execute, Pool.execute, hr, hr₁, Option.bind_eq_bind, Option.bind_some,
    Option.pure_def]
  split
  · split
    · exact ⟨_, rfl⟩
    · split <;> exact ⟨_, rfl⟩
  · exact ⟨_, rfl⟩

/-- In the part of the loop that reads from the workers, some thread or the proxy
can go on as long as there is a thread. -/
theorem exists_winding (hh : d.HandOff) (hi : d.Intact) (htold : d.AllTold)
    (ha : ∀ q ∈ d.accepted, q.Answerable) (hq : d.maxWorkers = 0) (hp : d.phase = .worker)
    (hr : d.pool.run? w = some r) (ht : r.workerThread = some t) :
    ∃ (e : DispatchEvent ι R) (d' : Dispatch ι R), e.winding = true ∧ d.step e = some d' := by
  obtain ⟨s, hs, hin⟩ := hh.1.worker w r hr
  have hat := hin.thread
  rw [ht] at hat
  have hloaded := hat.loaded
  have hexecuted := hat.executed
  have hmessage {d' : Dispatch ι R} (hm : d.proxyWorkerMessage w = some d') :
      d.step (.workerMessage w) = some d' := by simpa [step, hp] using hm
  have hreceive (hpc : t.pc = .waitStart ∨ t.pc = .waitRun) (hne : t.inbox ≠ []) :
      ∃ (e : DispatchEvent ι R) (d' : Dispatch ι R), e.winding = true ∧ d.step e = some d' := by
    obtain ⟨d', hd'⟩ := exists_receive hr ht hpc hne
    exact ⟨_, d', rfl, hd'⟩
  cases s with
  | free =>
    rcases htold hq w r t hr ht hs with ⟨hpc, hmem⟩ | ⟨hpc, hmem⟩
    · -- QUIT is still to be read
      cases hc : t.pc with
      | waitStart => exact hreceive (.inl hc) (List.ne_nil_of_mem hmem)
      | waitRun => exact hreceive (.inr hc) (List.ne_nil_of_mem hmem)
      | executing => simp [hc, Stage.loads] at hloaded
      | sending => simp [hc, Stage.executions] at hexecuted
      | exited => exact absurd hc hpc
    · -- QUITTING is the only message, for no RAN is under way
      obtain ⟨m, rest, ho⟩ := List.exists_cons_of_ne_nil (List.ne_nil_of_mem hmem)
      cases m with
      | ran => simp [Thread.ransInFlight, ho, Stage.executions] at hexecuted
      | quitting =>
        obtain ⟨d', hd'⟩ := exists_workerMessage_quitting hr ht ho
        exact ⟨_, d', rfl, hmessage hd'⟩
  | loaded task =>
    have hrun : t.pc ≠ .executing → t.inbox ≠ [] := by
      rintro hpc hnil
      simp [Thread.runsInFlight, hnil, hpc, Stage.loads] at hloaded
    cases hc : t.pc with
    | waitStart => exact hreceive (.inl hc) (hrun (by simp [hc]))
    | waitRun => exact hreceive (.inr hc) (hrun (by simp [hc]))
    | executing =>
      obtain ⟨task, rfl⟩ := Option.isSome_iff_exists.mp (hi.task w task (.inl hs))
      have hready (threw : Bool) : (r.runTask threw t.message).isSome = true := by
        cases task with
        | batch job => exact RunInfo.runTask_isSome_of_batch (hin.task _ (.inl rfl)) _ _
        | command c n =>
          obtain ⟨q, hmem, hwith, -⟩ := hi.command w r c n hr hs
          exact hwith.runTask_isSome (ha q hmem) _ _
      obtain ⟨d', hd'⟩ := exists_execute hr ht hc (.exception []) (hready _)
      exact ⟨_, d', rfl, hd'⟩
    | sending => simp [hc, Stage.executions] at hexecuted
    | exited => simpa [Stage.loads] using (hat.quits (.inr (.inl hc))).2.1
  | executed task =>
    by_cases hc : t.pc = .sending
    · obtain ⟨d', hd'⟩ := exists_sendRan hr ht hc
      exact ⟨_, d', rfl, hd'⟩
    · rcases ho : t.outbox with _ | ⟨m, rest⟩
      · simp [hc, Thread.ransInFlight, ho, Stage.executions] at hexecuted
      · cases m with
        | ran =>
          have htask := hi.task w task (.inr hs)
          rw [← hin.task task (.inr rfl)] at htask
          obtain ⟨d', hd'⟩ := exists_workerMessage_ran hr ht ho htask
          exact ⟨_, d', rfl, hmessage hd'⟩
        | quitting => simpa [Stage.executions] using (hat.takeQuitting ho).2.2

/-- How far the loop is from reading from the workers, and from its end. -/
def toWorker : Phase → Nat
  | .timers => 5 | .zap => 4 | .queue => 3 | .incoming => 2 | .control => 1
  | .worker | .stopped => 0

def toEnd : Phase → Nat
  | .control => 6 | .worker => 5 | .timers => 4 | .zap => 3 | .queue => 2 | .incoming => 1
  | .stopped => 0

variable [Fintype ι]

/-- Only the phase has changed. -/
def Round (d d' : Dispatch ι R) : Prop :=
  ∃ p skip, d' = { d with phase := p, proxySkipOnePoll := skip }

omit [Fintype ι] in
theorem exists_next (hq : d.maxWorkers = 0) (hs : d.phase ≠ .stopped) :
    ∃ d', d.next = some d' ∧ Round d d' ∧
      (d.joinable = true → d'.phase ≠ .stopped ∧
        (d.phase ≠ .worker → toWorker d'.phase < toWorker d.phase)) ∧
      (d.joinable = false → toEnd d'.phase < toEnd d.phase) := by
  have hqueue : d.proxyProcessQueue = d := by rw [proxyProcessQueue, if_pos hq]
  cases hp : d.phase with
  | stopped => exact absurd hp hs
  | queue =>
    refine ⟨_, by rw [next, hp, hqueue], ⟨_, _, rfl⟩, fun _ => ?_, fun _ => ?_⟩ <;>
      simp [toWorker, toEnd]
  | incoming =>
    by_cases hj : d.joinable = true
    · refine ⟨{ d with phase := .control, proxySkipOnePoll := false }, by simp [next, hp, hj],
        ⟨_, _, rfl⟩, fun _ => ?_, fun h => by simp [hj] at h⟩
      simp [toWorker]
    · refine ⟨{ d with phase := .stopped }, by simp [next, hp, hj, hq], ⟨_, _, rfl⟩,
        fun h => absurd h hj, fun _ => ?_⟩
      simp [toEnd]
  | _ =>
    refine ⟨_, by rw [next, hp], ⟨_, _, rfl⟩, fun _ => ?_, fun _ => ?_⟩ <;> simp [toWorker, toEnd]

omit [DecidableEq ι] [Fintype ι] in
theorem Round.trans {d'' : Dispatch ι R} (h : Round d d') (h' : Round d' d'') : Round d d'' := by
  obtain ⟨p, skip, rfl⟩ := h
  obtain ⟨p', skip', rfl⟩ := h'
  exact ⟨p', skip', rfl⟩

/-- The loop comes round to the workers. -/
theorem runs_toWorker (hq : d.maxWorkers = 0) (hs : d.phase ≠ .stopped)
    (hj : d.joinable = true) : ∃ d', (machine ι R).RunsBy (· = .next) d d' ∧
      (Round d d' ∧ d'.phase ≠ .stopped) ∧ d'.phase = .worker := by
  refine reaches_of_variant (fun e => toWorker e.phase) ?_ ⟨⟨_, _, rfl⟩, hs⟩
  rintro e ⟨hround, hse⟩ hpe
  have hqe : e.maxWorkers = 0 ∧ e.joinable = true := by
    obtain ⟨p, skip, rfl⟩ := hround
    exact ⟨hq, hj⟩
  obtain ⟨e', hn, hround', hto, -⟩ := exists_next hqe.1 hse
  exact ⟨e', .single rfl hn, ⟨hround.trans hround', (hto hqe.2).1⟩, (hto hqe.2).2 hpe⟩

/-- Without threads the loop comes to its end. -/
theorem runs_toEnd (hq : d.maxWorkers = 0) (hj : d.joinable = false) :
    ∃ d', (machine ι R).RunsBy (· = .next) d d' ∧ Round d d' ∧ d'.phase = .stopped := by
  refine reaches_of_variant (fun e => toEnd e.phase) ?_ ⟨_, _, rfl⟩
  intro e hround hse
  have hqe : e.maxWorkers = 0 ∧ e.joinable = false := by
    obtain ⟨p, skip, rfl⟩ := hround
    exact ⟨hq, hj⟩
  obtain ⟨e', hn, hround', -, hto⟩ := exists_next hqe.1 hse
  exact ⟨e', .single rfl hn, hround.trans hround', hto hqe.2⟩

omit [DecidableEq ι] [Fintype ι] in
theorem joinable_iff : d.joinable = true ↔
    ∃ w r t, d.pool.run? w = some r ∧ r.workerThread = some t := by
  simp only [joinable, Bool.or_eq_true, List.any_eq_true, Option.isSome_iff_exists]
  constructor
  · rintro (⟨r, hmem, t, ht⟩ | ⟨tw, hmem, t, ht⟩)
    · obtain ⟨i, hi⟩ := List.mem_iff_getElem?.mp hmem
      exact ⟨.general i, r, t, hi, ht⟩
    · obtain ⟨i, hi⟩ := List.mem_iff_getElem?.mp hmem
      exact ⟨.tagged i, tw.run, t, by simp [Pool.run?, hi], ht⟩
  · rintro ⟨w, r, t, hr, ht⟩
    cases w with
    | general i => exact .inl ⟨r, List.mem_of_getElem? hr, t, ht⟩
    | tagged i =>
      obtain ⟨tw, htw, rfl⟩ := Option.map_eq_some_iff.mp hr
      exact .inr ⟨tw, List.mem_of_getElem? htw, t, ht⟩

/-- What the scheduler and its threads do without anything new from outside. -/
def Winding (e : DispatchEvent ι R) : Prop := e.winding = true ∨ e = .next

theorem reachable_runsBy {ok : DispatchEvent ι R → Prop} (h : (machine ι R).Reachable d)
    (hr : (machine ι R).RunsBy ok d d') : (machine ι R).Reachable d' := by
  obtain ⟨es, -, hes⟩ := hr
  exact h.run hes

/-- A state in which shutdown goes on. -/
structure Closing (d : Dispatch ι R) : Prop where
  reachable : (machine ι R).Reachable d
  fitsInt : d.cfg.FitsInt
  quit : d.maxWorkers = 0
  running : d.phase ≠ .stopped
  answerable : ∀ q ∈ d.accepted, q.Answerable

theorem runsBy_winding (h : (machine ι R).RunsBy (· = .next) d d') :
    (machine ι R).RunsBy Winding d d' := by
  obtain ⟨es, hes, hr⟩ := h
  exact ⟨es, fun e he => .inr (hes e he), hr⟩

/-- While there are threads, less and less remains to be done. -/
theorem Closing.progress (h : d.Closing) (hj : d.joinable = true) :
    ∃ d', (machine ι R).RunsBy Winding d d' ∧ d'.Closing ∧
      d'.pool.remaining < d.pool.remaining := by
  obtain ⟨d₁, hto, ⟨hround, hs⟩, hp⟩ := runs_toWorker h.quit h.running hj
  obtain ⟨hfit₁, hq₁, hpool, ha₁⟩ : d₁.cfg.FitsInt ∧ d₁.maxWorkers = 0 ∧ d₁.pool = d.pool ∧
      ∀ q ∈ d₁.accepted, q.Answerable := by
    obtain ⟨p, skip, rfl⟩ := hround
    exact ⟨h.fitsInt, h.quit, rfl, h.answerable⟩
  have hreach := reachable_runsBy h.reachable hto
  obtain ⟨w, r, t, hr, ht⟩ := joinable_iff.mp hj
  obtain ⟨e, d₂, he, hstep⟩ := exists_winding (handOff_of_reachable hreach)
    (intact_of_reachable hreach) (allTold_of_reachable hreach hfit₁) ha₁ hq₁ hp (hpool ▸ hr) ht
  obtain ⟨hq, ha, hlt⟩ := remaining_step hq₁ (.inl he) hstep
  rw [if_pos he, hpool] at hlt
  exact ⟨d₂, (runsBy_winding hto).trans (.single (.inl he) hstep),
    ⟨hreach.step hstep, by rwa [cfg_step hstep], hq,
      phase_step (by rintro rfl; cases he) hstep ▸ hs, ha ▸ ha₁⟩, hlt⟩

/-- Winding down joins all threads and comes to the end of the loop. -/
theorem Closing.runs_toStopped (h : d.Closing) :
    ∃ d', (machine ι R).RunsBy Winding d d' ∧ d'.phase = .stopped ∧ d'.joinable = false := by
  have hjoin : ∃ d', (machine ι R).RunsBy Winding d d' ∧ d'.Closing ∧ d'.joinable = false := by
    refine reaches_of_variant (fun e => e.pool.remaining) ?_ h
    intro e he hj
    exact he.progress (by simpa using hj)
  obtain ⟨d₁, hruns, h₁, hj⟩ := hjoin
  obtain ⟨d₂, hend, ⟨p, skip, rfl⟩, hp⟩ := runs_toEnd h₁.quit hj
  exact ⟨_, hruns.trans (runsBy_winding hend), hp, hj⟩

end Dispatch

end ArqmaMQ
