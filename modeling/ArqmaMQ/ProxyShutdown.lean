import ArqmaMQ.ShutdownRuns

/-! The end of `proxy_loop`. Once QUIT has been handled the proxy needs nothing
from outside to come to it, and it leaves no thread and no started command
behind. -/

namespace ArqmaMQ

open Transition.Machine

variable {ι R : Type} [DecidableEq ι]

namespace Dispatch

variable {d d' : Dispatch ι R}

/-- Only the end of a round stops the loop, with no thread left. -/
theorem stopped_next (h : d.next = some d') (hp : d'.phase = .stopped) :
    d.maxWorkers = 0 ∧ d.joinable = false ∧ d'.pool = d.pool ∧ d'.maxWorkers = d.maxWorkers := by
  unfold next at h
  split at h
  case h_6 =>
    split at h
    · rename_i hend
      obtain rfl := Option.some.inj h
      exact ⟨hend.1, hend.2, rfl, rfl⟩
    · obtain rfl := Option.some.inj h
      cases hp
  case h_7 => cases h
  all_goals
    obtain rfl := Option.some.inj h
    cases hp

omit [DecidableEq ι] in
theorem thread_of_joinable (h : d.joinable = false) {w : WorkerRef} {r : RunInfo ι}
    (hr : d.pool.run? w = some r) : r.workerThread = none := by
  by_contra hne
  obtain ⟨t, ht⟩ := Option.ne_none_iff_exists'.mp hne
  rw [joinable_iff.mpr ⟨w, r, t, hr, ht⟩] at h
  cases h

omit [DecidableEq ι] in
theorem stepThread_of_joinable (h : d.joinable = false) (w : WorkerRef)
    (f : Thread → Option Thread) : d.pool.stepThread w f = none := by
  rcases hs : d.pool.stepThread w f with _ | p
  · rfl
  · obtain ⟨r, t, t', hr, ht, -⟩ := Pool.stepThread_eq_some hs
    rw [thread_of_joinable h hr] at ht
    cases ht

/-- After the end only new batches can still be submitted, to no avail. -/
theorem pool_of_stopped {e : DispatchEvent ι R} (hp : d.phase = .stopped)
    (hj : d.joinable = false) (h : d.step e = some d') :
    d'.pool = d.pool ∧ d'.maxWorkers = d.maxWorkers := by
  cases e with
  | submit jobs comp =>
    obtain ⟨-, rfl⟩ : _ ∧ _ = d' := by simpa [step] using h
    exact ⟨rfl, rfl⟩
  | receive w => simp [step, Pool.receive, stepThread_of_joinable hj] at h
  | sendRan w => simp [step, Pool.sendRan, stepThread_of_joinable hj] at h
  | execute w res =>
    obtain ⟨_, pool, jobs, -, hx, -, -⟩ := execute_eq_some h
    obtain ⟨r, r', hr, hr', -⟩ := Pool.execute_eq_some hx
    obtain ⟨t, _, _, _, ht, -⟩ := RunInfo.execute_eq_some hr'
    rw [thread_of_joinable hj hr] at ht
    cases ht
  | _ => simp [step, next, hp] at h

/-- When the loop has stopped, all threads are joined. -/
theorem joined_of_stopped [Fintype ι] (h : (machine ι R).Reachable d) :
    d.phase = .stopped → d.maxWorkers = 0 ∧ d.joinable = false := by
  induction h with
  | init hinit =>
    obtain ⟨cfg, -, rfl⟩ := hinit
    intro hp
    cases hp
  | @step d d' e _ hs ih =>
    intro hp
    by_cases he : e = .next
    · subst he
      obtain ⟨hq, hj, hpool, hm⟩ := stopped_next hs hp
      exact ⟨hm.trans hq, by rw [joinable, hpool]; exact hj⟩
    · have hp₀ : d.phase = .stopped := (phase_step he hs).symm.trans hp
      obtain ⟨hq, hj⟩ := ih hp₀
      obtain ⟨hpool, hm⟩ := pool_of_stopped hp₀ hj hs
      exact ⟨hm.trans hq, by rw [joinable, hpool]; exact hj⟩

/-- The command still waits, or one worker has been given it, has run it and has
reported back. -/
def Settled (d : Dispatch ι R) (q : PendingCommand ι) : Prop :=
  (q ∈ d.pendingCommands ∧ d.pool.about q = []) ∨
    q ∉ d.pendingCommands ∧ ∃ w, d.pool.about q =
      [.loaded w (some (.command q.cat q.serial)) 0,
        .executed w (some (.command q.cat q.serial)),
        .ran w (some (.command q.cat q.serial))]

/-- A loop that has stopped leaves commands in the queue, but none half done. -/
theorem settled_of_stopped [Fintype ι] (h : (machine ι R).Reachable d) (hp : d.phase = .stopped)
    {q : PendingCommand ι} (hq : q ∈ d.accepted) : d.Settled q := by
  have hj := (joined_of_stopped h hp).2
  have hidle {w : WorkerRef} {r : RunInfo ι} (hr : d.pool.run? w = some r) : r.inFlight ≠ 1 := by
    rw [RunInfo.inFlight, thread_of_joinable hj hr]
    exact Nat.zero_ne_one
  cases command_fate h hq with
  | waiting hq hlog => exact .inl ⟨hq, hlog⟩
  | held w r _ _ hrun _ hone => exact absurd hone (hidle hrun)
  | executed w r _ _ hrun hone => exact absurd hone (hidle hrun)
  | ran w hq hlog => exact .inr ⟨hq, w, hlog⟩

/-- In a run that does not outgrow the table of workers nothing is left half done. -/
theorem stopped_fate [Fintype ι] (h : ((machine ι R).restrict FitsTable).Reachable d)
    (hfit : d.cfg.FitsInt) (hp : d.phase = .stopped) :
    d.InTable ∧ ∀ q ∈ d.accepted, d.Settled q :=
  ⟨inTable_of_fitsTable h hfit, fun _ hq => settled_of_stopped h.of_restrict hp hq⟩

theorem stopped_fate_with_queue : ∃ d, ((machine Unit Unit).restrict FitsTable).Reachable d ∧
    d.phase = .stopped ∧ d.accepted.length = 2 ∧ d.pendingCommands.length = 1 ∧
      ∀ q ∈ d.accepted, d.Settled q := by
  obtain ⟨d, hd, hstate⟩ := smallConfig_fitsTable.exists_of_run
    [.inject smallCommand, .inject smallCommand, .quit, .execute (.general 0) (.value ()),
      .sendRan (.general 0), .receive (.tagged 0), .receive (.tagged 0), .next,
      .workerMessage (.general 0), .receive (.general 0), .workerMessage (.general 0),
      .workerMessage (.tagged 0), .next, .next, .next, .next, .next]
    (p := fun d => decide (d.cfg.FitsInt ∧ d.phase = .stopped ∧ d.accepted.length = 2 ∧
      d.pendingCommands.length = 1)) (by decide +kernel)
  obtain ⟨hfit, hp, ha, hlen⟩ := of_decide_eq_true hstate
  exact ⟨d, hd, hp, ha, hlen, (stopped_fate hd hfit hp).2⟩

section Effects

variable [Fintype ι]

/-- What the proxy schedules by itself needs no room. -/
theorem runs_perform {es : List Effect} (h : d.perform es = some d') :
    ((machine ι R).restrict FitsTable).Runs d d' ∧ ∀ c, d.HasRoom c → d'.HasRoom c := by
  induction es generalizing d with
  | nil =>
    obtain rfl : d = d' := by simpa [perform] using h
    exact ⟨.refl _ d, fun _ => id⟩
  | cons e es ih =>
    obtain ⟨d₁, hd₁, h⟩ := perform_cons.mp h
    obtain ⟨hruns, hroom⟩ := ih h
    have hfits : d.FitsTable (e.event (ι := ι) (R := R)) := by cases e <;> trivial
    have hsame : ∀ c, d.HasRoom c → d₁.HasRoom c := by
      cases e <;>
        obtain ⟨-, rfl⟩ : _ ∧ _ = d₁ := by simpa [step, Effect.event] using hd₁
      · exact fun _ => id
      · exact fun _ => id
    exact ⟨(Runs.single (step_restrict hfits hd₁)).trans hruns, fun c hc => hroom c (hsame c hc)⟩

theorem runs_command {q : PendingCommand ι} (hroom : d.HasRoom q.cat)
    (h : d.step (.command q) = some d') : ((machine ι R).restrict FitsTable).Runs d d' := by
  have hfits : d.FitsTable (.command q : DispatchEvent ι R) := hroom
  exact .single (step_restrict hfits h)

end Effects

end Dispatch

def ProxyEvent.winding : ProxyEvent ι R → Bool
  | .dispatch e => e.winding
  | _ => false

namespace Proxy

variable {p p' : Proxy ι R}

/-- What the proxy and its threads do without anything new from outside. -/
def Winding (e : ProxyEvent ι R) : Prop := e.winding = true ∨ e = .next

/-- Every accepted command can be run. -/
theorem answerable_act (h : ∀ q ∈ p.dispatch.accepted, q.Answerable) (hact : Act p p') :
    ∀ q ∈ p'.dispatch.accepted, q.Answerable := by
  have hsame (ha : p'.dispatch.accepted = p.dispatch.accepted) :
      ∀ q ∈ p'.dispatch.accepted, q.Answerable := fun q hq => h q (ha ▸ hq)
  have haccept (q : PendingCommand ι) (hq : ∀ n, PendingCommand.Answerable { q with serial := n })
      (q' : PendingCommand ι) (hmem : q' ∈ (p.dispatch.proxyCommand q).accepted) :
      q'.Answerable := by
    rcases p.dispatch.accepted_proxyCommand q with ha | ha <;> rw [ha] at hmem
    · exact h q' hmem
    · rcases List.mem_append.mp hmem with hmem | hmem
      · exact h q' hmem
      · exact List.mem_singleton.mp hmem ▸ hq _
  cases hact with
  | outside e he hq hd =>
    refine hsame (Dispatch.accepted_step hd fun q => ⟨hq q, ?_⟩)
    rintro rfl
    cases he
  | inject q hq hd =>
    obtain ⟨-, rfl⟩ : _ ∧ p.dispatch.proxyCommand q = _ := by simpa [Dispatch.step] using hd
    refine haccept q fun n c hc => ?_
    have hc' : q.callback = .inl c := hc
    simp [hc'] at hq
  | send env o expiry _ _ hd => exact hsame (Dispatch.accepted_perform hd)
  | connectRemote net now data _ _ hd => exact hsame (Dispatch.accepted_perform hd)
  | cleanup clock now hd => exact hsame (Dispatch.accepted_perform hd)
  | builtin m _ hd => exact hsame (Dispatch.accepted_perform hd)
  | @command d l sender call m name data hl hs hcall hr hd =>
    obtain ⟨-, rfl⟩ : _ ∧ p.dispatch.proxyCommand _ = d := by simpa [Dispatch.step] using hd
    refine haccept _ fun n c hc hreq => ?_
    obtain rfl : call.2 = c := Sum.inl.inj hc
    exact (Commands.of_refusal_eq_none hr).2.2.2 hreq
  | touch i now =>
    refine hsame ?_
    unfold Proxy.touch
    split <;> rfl
  | next hn =>
    obtain ⟨d, stale, hd, rfl⟩ := next_eq_some hn
    exact hsame (Dispatch.accepted_next hd)
  | _ => exact hsame rfl

/-- The proxy goes along with its scheduler. -/
theorem exists_step_of_winding {e : DispatchEvent ι R} {d : Dispatch ι R}
    (he : Dispatch.Winding e) (h : p.dispatch.step e = some d) :
    ∃ e' p', Winding e' ∧ p.step e' = some p' ∧ p'.dispatch = d := by
  rcases he with he | rfl
  · refine ⟨.dispatch e, { p with dispatch := d }, .inl he, ?_, rfl⟩
    cases e <;> simp [DispatchEvent.winding] at he <;> simp [step, DispatchEvent.fromOutside, h]
  · exact ⟨.next, _, .inr rfl, by rw [step, next, h]; rfl, rfl⟩

theorem remaining_winding {e : ProxyEvent ι R} (hq : p.dispatch.maxWorkers = 0) (he : Winding e)
    (h : p.step e = some p') : p'.dispatch.maxWorkers = 0 ∧
      p'.dispatch.pool.remaining + (if e.winding then 1 else 0) ≤ p.dispatch.pool.remaining := by
  rcases he with he | rfl
  · cases e with
    | dispatch e =>
      obtain ⟨-, hd, -⟩ := dispatch_step h
      obtain ⟨hq', -, hlt⟩ := Dispatch.remaining_step hq (.inl he) hd
      exact ⟨hq', hlt⟩
    | _ => cases he
  · obtain ⟨d, stale, hd, rfl⟩ := next_eq_some h
    obtain ⟨hq', -, hle⟩ := Dispatch.remaining_step hq (.inr rfl) hd
    exact ⟨hq', hle⟩

variable [Fintype ι]

theorem answerable_of_reachable (h : (machine ι R).Reachable p) :
    ∀ q ∈ p.dispatch.accepted, q.Answerable := by
  refine reachable_invariant (P := fun p => ∀ q ∈ p.dispatch.accepted, q.Answerable) ?_
    (fun p p' hp hact => answerable_act hp hact) h
  intro cfg listeners sns commands localServiceNode q hq
  simp [start, Dispatch.start] at hq

theorem runsBy_of_dispatch {d : Dispatch ι R}
    (h : (Dispatch.machine ι R).RunsBy Dispatch.Winding p.dispatch d) :
    ∃ p', (machine ι R).RunsBy Winding p p' ∧ p'.dispatch = d := by
  obtain ⟨es, hes, hr⟩ := h
  induction es generalizing p with
  | nil =>
    obtain rfl : p.dispatch = d := by simpa [Transition.Machine.run] using hr
    exact ⟨p, .refl _ _ p, rfl⟩
  | cons e es ih =>
    rw [Transition.Machine.run, List.foldlM_cons] at hr
    obtain ⟨d₁, hd₁, hr⟩ := Option.bind_eq_some_iff.mp hr
    obtain ⟨e', p₁, he', hp₁, rfl⟩ := exists_step_of_winding (hes e (by simp)) hd₁
    obtain ⟨p', hp', hd⟩ := ih (fun e he => hes e (List.mem_cons_of_mem _ he)) hr
    exact ⟨p', (RunsBy.single he' hp₁).trans hp', hd⟩

omit [Fintype ι] in
theorem cfg_of_step {e : ProxyEvent ι R} (h : p.step e = some p') :
    p'.dispatch.cfg = p.dispatch.cfg := by
  rcases step_cases h with ⟨e, -, -, hd, -⟩ | hinners
  · exact Dispatch.cfg_step hd
  · refine Transition.reflTransGen_invariant (P := fun d => d.cfg = p.dispatch.cfg) ?_
      (asks_of_inners hinners) rfl
    rintro d d' ⟨e, -, hs⟩ hd
    exact (Dispatch.cfg_step hs).trans hd

/-- Whether there is room for the command or task that arrives. -/
def FitsTable (p : Proxy ι R) : ProxyEvent ι R → Prop
  | .dispatch e => p.dispatch.FitsTable e
  | .incoming m => ∀ name ∈ m.parts.head?, ∀ call ∈ (p.commands.getCommand name).2,
      p.dispatch.HasRoom call.1
  | _ => True

instance (p : Proxy ι R) : (e : ProxyEvent ι R) → Decidable (p.FitsTable e)
  | .dispatch e => inferInstanceAs (Decidable (p.dispatch.FitsTable e))
  | .incoming m => inferInstanceAs (Decidable (∀ name ∈ m.parts.head?,
      ∀ call ∈ (p.commands.getCommand name).2, p.dispatch.HasRoom call.1))
  | .requestConn | .send .. | .control _ | .connectRemote .. | .cleanup .. | .zap _ | .rehash ..
  | .next => inferInstanceAs (Decidable True)

omit [DecidableEq ι] [Fintype ι] in
theorem dispatch_touch (p : Proxy ι R) (i : Option Nat) (now : Int) :
    (p.touch i now).dispatch = p.dispatch := by
  cases i <;> rfl

theorem runs_proxyToWorker {m : Incoming} {l : Link} {sender : Sender} {name : Bytes}
    {data : List Bytes} (hroom : ∀ call ∈ (p.commands.getCommand name).2, p.dispatch.HasRoom call.1)
    (h : p.proxyToWorker m l sender name data = some p') :
    ((Dispatch.machine ι R).restrict Dispatch.FitsTable).Runs p.dispatch p'.dispatch := by
  unfold proxyToWorker at h
  rcases hcall : p.commands.getCommand name with ⟨command, call?⟩
  rw [hcall] at hroom
  simp only [hcall] at h
  split at h
  · obtain rfl := Option.some.inj h
    exact .refl _ _
  · rename_i call hauth
    have hsome : call? = some call := by
      unfold Commands.proxyCheckAuth at hauth
      split at hauth <;> cases hauth
      rfl
    split at h
    · obtain rfl := Option.some.inj h
      exact .refl _ _
    · obtain ⟨d, hd, h⟩ := Option.bind_eq_some_iff.mp h
      have hruns := Dispatch.runs_command (hroom call hsome) hd
      obtain rfl := Option.some.inj h
      split
      · rw [dispatch_touch]
        exact hruns
      · exact hruns

theorem runs_receive {m : Incoming} (hfits : p.FitsTable (.incoming m))
    (h : p.receive m = some p') :
    ((Dispatch.machine ι R).restrict Dispatch.FitsTable).Runs p.dispatch p'.dispatch := by
  obtain ⟨l, hl, h⟩ := Option.bind_eq_some_iff.mp h
  obtain ⟨d, hd, h⟩ := Option.bind_eq_some_iff.mp h
  obtain ⟨p₁, hp₁, h⟩ := Option.bind_eq_some_iff.mp h
  obtain ⟨hperform, hroom⟩ := Dispatch.runs_perform hd
  have hforward : ((Dispatch.machine ι R).restrict Dispatch.FitsTable).Runs d p₁.dispatch := by
    unfold forward at hp₁
    split at hp₁
    · rename_i name data sender hh hparts hs
      refine runs_proxyToWorker (fun call hcall => hroom _ ?_) hp₁
      exact hfits name (by rw [hparts]; rfl) call hcall
    · obtain rfl := Option.some.inj hp₁
      exact .refl _ _
  split at h
  · obtain ⟨d', stale, hd', rfl⟩ := next_eq_some h
    have hfits' : p₁.dispatch.FitsTable .next := trivial
    exact (hperform.trans hforward).trans (.single (step_restrict hfits' hd'))
  · obtain rfl := Option.some.inj h
    exact hperform.trans hforward

/-- A step of the proxy that fits is a run of its scheduler that does. -/
theorem runs_of_fitsTable {e : ProxyEvent ι R} (hfits : p.FitsTable e) (h : p.step e = some p') :
    ((Dispatch.machine ι R).restrict Dispatch.FitsTable).Runs p.dispatch p'.dispatch := by
  cases e with
  | dispatch e => exact .single (step_restrict hfits (dispatch_step h).2.1)
  | requestConn =>
    obtain rfl := Option.some.inj h
    exact .refl _ _
  | send env o sentAt =>
    simp only [step] at h
    split at h
    · obtain ⟨s, -, h⟩ := Option.bind_eq_some_iff.mp h
      obtain ⟨d, hd, h⟩ := Option.bind_eq_some_iff.mp h
      obtain rfl := Option.some.inj h
      exact (Dispatch.runs_perform hd).1
    · cases h
  | control msg =>
    simp only [step] at h
    split at h
    · obtain ⟨c, -, rfl⟩ := Option.map_eq_some_iff.mp h
      exact .refl _ _
    · cases h
  | connectRemote net now data =>
    simp only [step] at h
    split at h
    · obtain ⟨⟨c, es⟩, -, h⟩ := Option.bind_eq_some_iff.mp h
      obtain ⟨d, hd, h⟩ := Option.bind_eq_some_iff.mp h
      obtain rfl := Option.some.inj h
      exact (Dispatch.runs_perform hd).1
    · cases h
  | cleanup clock now =>
    simp only [step] at h
    split at h
    · obtain ⟨d, hd, h⟩ := Option.bind_eq_some_iff.mp h
      obtain rfl := Option.some.inj h
      exact (Dispatch.runs_perform hd).1
    · cases h
  | zap frames =>
    obtain ⟨-, rfl⟩ : _ ∧ _ = p' := by simpa [step] using h
    exact .refl _ _
  | incoming m =>
    simp only [step] at h
    split at h
    · exact runs_receive hfits h
    · cases h
  | rehash peers requests =>
    obtain ⟨-, rfl⟩ : _ ∧ _ = p' := by simpa [step] using h
    exact .refl _ _
  | next =>
    obtain ⟨d, stale, hd, rfl⟩ := next_eq_some h
    have hfits' : p.dispatch.FitsTable .next := trivial
    exact .single (step_restrict hfits' hd)

theorem reachable_dispatch_of_fitsTable (h : ((machine ι R).restrict FitsTable).Reachable p) :
    ((Dispatch.machine ι R).restrict Dispatch.FitsTable).Reachable p.dispatch := by
  induction h with
  | init hinit =>
    obtain ⟨cfg, _, _, _, _, hmax, rfl⟩ := hinit
    exact .init ⟨cfg, hmax, rfl⟩
  | step _ hs ih =>
    obtain ⟨hfits, hs⟩ := restrict_step hs
    obtain ⟨es, hes⟩ := runs_of_fitsTable hfits hs
    exact ih.run hes

omit [DecidableEq ι] in
theorem fitsTable_of_winding (p : Proxy ι R) (e : ProxyEvent ι R) (he : Winding e) :
    p.FitsTable e := by
  rcases he with he | rfl
  · cases e with
    | dispatch e => cases e <;> trivial
    | _ => cases he
  · trivial

/-- After QUIT the loop can always come to its end by itself, with every thread
joined, and it gets there as long as the threads go on: only so many messages and
jobs are left. This is so in runs that do not outgrow the table of workers, and it is
not outgrown on the way. -/
theorem shutdown_completes (h : ((machine ι R).restrict FitsTable).Reachable p)
    (hfit : p.dispatch.cfg.FitsInt) (hq : p.dispatch.maxWorkers = 0) :
    (∃ p', (machine ι R).RunsBy Winding p p' ∧ p'.dispatch.phase = .stopped ∧
      p'.dispatch.joinable = false) ∧
      ∀ es p', (∀ e ∈ es, Winding e) → (machine ι R).run p es = some p' →
        p'.dispatch.InTable ∧ es.countP ProxyEvent.winding ≤ p.dispatch.pool.remaining := by
  have hreach := h.of_restrict
  have hdispatch := reachable_dispatch hreach
  refine ⟨?_, fun es p' hes hr => ⟨?_, ?_⟩⟩
  · by_cases hs : p.dispatch.phase = .stopped
    · exact ⟨p, .refl _ _ p, hs, (Dispatch.joined_of_stopped hdispatch hs).2⟩
    · have hclosing : p.dispatch.Closing :=
        ⟨hdispatch, hfit, hq, hs, answerable_of_reachable hreach⟩
      obtain ⟨d, hruns, hp, hj⟩ := hclosing.runs_toStopped
      obtain ⟨p', hp', rfl⟩ := runsBy_of_dispatch hruns
      exact ⟨p', hp', hp, hj⟩
  · have hruns : (machine ι R).RunsBy Winding p p' := ⟨es, hes, hr⟩
    have htable := reachable_dispatch_of_fitsTable (hruns.reachable_restrict fitsTable_of_winding h)
    have hcfg : p'.dispatch.cfg = p.dispatch.cfg :=
      Runs.invariant (P := fun p' => p'.dispatch.cfg = p.dispatch.cfg)
        (fun _ _ _ hp hs => (cfg_of_step hs).trans hp) ⟨es, hr⟩ rfl
    exact Dispatch.inTable_of_fitsTable htable (hcfg ▸ hfit)
  · exact countP_le_of_variant (I := fun p => p.dispatch.maxWorkers = 0)
      (fun p => p.dispatch.pool.remaining) ProxyEvent.winding
      (fun p e p' hq he hs => remaining_winding hq he hs) hq hes hr

theorem shutdown_completes_with_job : ∃ p p', ((machine Unit Unit).restrict FitsTable).Reachable p ∧
    p.dispatch.maxWorkers = 0 ∧ p.dispatch.pool.remaining = 8 ∧
      (machine Unit Unit).RunsBy Winding p p' ∧ p'.dispatch.phase = .stopped := by
  have hinit : ((machine Unit Unit).restrict FitsTable).Reachable sample :=
    .init ⟨_, _, _, _, _, by decide +kernel, rfl⟩
  obtain ⟨p, hp, hstate⟩ := hinit.exists_of_run
    [.dispatch (.submit [(.user 0, 0)] none), .dispatch (.batch 0), .next, .next, .next, .next,
      .next, .next, .dispatch .quit]
    (p := fun p => decide (p.dispatch.cfg.FitsInt ∧ p.dispatch.maxWorkers = 0 ∧
      p.dispatch.pool.remaining = 8)) (by decide +kernel)
  obtain ⟨hfit, hq, hrem⟩ := of_decide_eq_true hstate
  obtain ⟨⟨p', hruns, hs, -⟩, -⟩ := shutdown_completes hp hfit hq
  exact ⟨p, p', hp, hq, hrem, hruns, hs⟩

end Proxy

end ArqmaMQ
