import ArqmaMQ.TaggedStartup

/-! Where the startup of tagged threads leads: to the state in which the scheduler's
runs begin, or to the end of every thread, in a bounded number of steps. -/

namespace ArqmaMQ

namespace StartupStage

/-- The stage in which `start()`, or the destructor, is done. -/
def last : StartupStage → StartupStage
  | .configuring => .configuring
  | .gathering _ | .releasing _ | .looping => .looping
  | .quitting _ | .joining _ | .destroyed => .destroyed
  | .threw => .threw

/-- What is left to do for `n` threads. -/
def remaining (n : Nat) : StartupStage → Nat
  | .gathering _ => n + 2
  | .releasing next => n - next + 1
  | .quitting next => n - next + (n + 2)
  | .joining next => n - next + 1
  | _ => 0

end StartupStage

namespace Startup

variable {s s' : Startup} {i : Nat} {t t' : StartupThread} {e : StartupEvent}

def unannounced (t : StartupThread) : Bool := !t.announced

def unreleased (t : StartupThread) : Bool := t.thread.pc = .waitStart

/-- A thread that has not announced itself still has a message to send, which the proxy
has to read. -/
def work (s : Startup) : Nat :=
  2 * s.threads.countP unannounced + s.announcements.length + s.threads.countP unreleased +
    s.stage.remaining s.threads.length

theorem countP_setThread (p : StartupThread → Bool) (ht : s.threads[i]? = some t)
    (t' : StartupThread) :
    (s.setThread i t').threads.countP p + (p t).toNat = s.threads.countP p + (p t').toNat := by
  obtain ⟨hi, rfl⟩ := List.getElem?_eq_some_iff.mp ht
  have hpos : (p s.threads[i]).toNat ≤ s.threads.countP p := by
    cases hp : p s.threads[i] with
    | false => exact Nat.zero_le _
    | true => exact List.countP_pos_iff.mpr ⟨_, List.getElem_mem hi, hp⟩
  rw [setThread, List.countP_set hi, Bool.toNat, Bool.toNat, Bool.cond_eq_ite, Bool.cond_eq_ite]
  rw [Bool.toNat, Bool.cond_eq_ite] at hpos
  omega

/-- Nothing is added any more, the end stays the same, and less is left to do. -/
structure Progress (s s' : Startup) : Prop where
  length : s'.threads.length = s.threads.length
  last : s'.stage.last = s.stage.last
  work : s'.work < s.work

theorem progress_setThread {announcements : List Nat} {g : StartupStage}
    (ht : s.threads[i]? = some t) (hl : g.last = s.stage.last)
    (hw : 2 * (unannounced t').toNat + announcements.length + (unreleased t').toNat +
        g.remaining s.threads.length <
      2 * (unannounced t).toNat + s.announcements.length + (unreleased t).toNat +
        s.stage.remaining s.threads.length) :
    s.Progress { s.setThread i t' with announcements, stage := g } := by
  have hlen : (s.setThread i t').threads.length = s.threads.length := List.length_set
  refine ⟨hlen, hl, ?_⟩
  have hu := countP_setThread unannounced ht t'
  have hr := countP_setThread unreleased ht t'
  simp only [work, hlen]
  omega

theorem progress_stage {announcements : List Nat} {g : StartupStage} (hl : g.last = s.stage.last)
    (hw : announcements.length + g.remaining s.threads.length <
      s.announcements.length + s.stage.remaining s.threads.length) :
    s.Progress { s with announcements, stage := g } := by
  refine ⟨rfl, hl, ?_⟩
  simp only [work]
  omega

theorem progress_send {g : StartupStage} (ht : s.threads[i]? = some t) (c : WorkerCommand)
    (hl : g.last = s.stage.last)
    (hr : g.remaining s.threads.length < s.stage.remaining s.threads.length) :
    s.Progress { s.send i t c with stage := g } :=
  progress_setThread ht hl (Nat.add_lt_add_left hr _)

/-- A thread waits for START when it gets the one message that it is sent. -/
theorem Ordered.receiving (h : s.Ordered) (ht : s.threads[i]? = some t) {thread : Thread}
    (hr : t.thread.receive = some thread) :
    t.thread.pc = .waitStart ∧ thread.pc ≠ .waitStart := by
  have hexp := h.threads i t ht
  rcases hexp.cases with hf | hf | hf
  · rw [hf] at hr
    cases hr
  · refine ⟨?_, by simp [hf.receive hr]⟩
    rcases hf with hf | hf
    · rw [hf]
    · rw [hf] at hr
      cases hr
  · refine ⟨?_, by simp [hf.receive hr]⟩
    rcases hf with hf | hf
    · rw [hf]
    · rw [hf] at hr
      cases hr

/-- Once `start()` or the destructor is called, all but the destructor's repeated
attempts to send QUIT makes progress. -/
theorem Ordered.progress (h : s.Ordered) (hc : s.stage ≠ .configuring) (hm : Move s e s') :
    s.Progress s' ∨ e = .quit ∧ s' = s := by
  cases hm with
  | addThread hs | start hs | destroy hs => exact (hc hs).elim
  | gathered hs => exact .inl (progress_stage (by simp [hs, StartupStage.last])
      (by simp [hs, StartupStage.remaining]))
  | gather hs _ ha => exact .inl (progress_stage (by simp [hs, StartupStage.last])
      (by simp [hs, ha, StartupStage.remaining]))
  | released hs => exact .inl (progress_stage (by simp [hs, StartupStage.last])
      (by simp [hs, StartupStage.remaining]))
  | told hs => exact .inl (progress_stage (by simp [hs, StartupStage.last])
      (by simp [hs, StartupStage.remaining]; omega))
  | joined hs => exact .inl (progress_stage (by simp [hs, StartupStage.last])
      (by simp [hs, StartupStage.remaining]))
  | join hs ht =>
    have hlt := (List.getElem?_eq_some_iff.mp ht).1
    exact .inl (progress_stage (by simp [hs, StartupStage.last])
      (by simp [hs, StartupStage.remaining]; omega))
  | unreachable hs ht ha =>
    rw [(h.release hs ht).1] at ha
    cases ha
  | release hs ht =>
    have hlt := (List.getElem?_eq_some_iff.mp ht).1
    exact .inl (progress_send ht _ (by simp [hs, StartupStage.last])
      (by simp [hs, StartupStage.remaining]; omega))
  | quit hs ht =>
    have hlt := (List.getElem?_eq_some_iff.mp ht).1
    exact .inl (progress_send ht _ (by simp [hs, StartupStage.last])
      (by simp [hs, StartupStage.remaining]; omega))
  | retry => exact .inr ⟨rfl, rfl⟩
  | announce ht ha =>
    refine .inl (progress_setThread ht rfl (Nat.add_lt_add_right (Nat.add_lt_add_right ?_ _) _))
    simp [unannounced, ha]
    omega
  | receive ht ha hr =>
    obtain ⟨hpc, hpc'⟩ := h.receiving ht hr
    refine .inl (progress_setThread ht rfl ?_)
    simp [unannounced, unreleased, hpc, hpc']

/-- Somebody can go on until the end is reached. -/
theorem Ordered.enabled (h : s.Ordered) (hg : s.stage ≠ s.stage.last) :
    ∃ e s', Move s e s' ∧ (e = .quit → s'.stage ≠ s.stage) := by
  cases hs : s.stage with
  | configuring | looping | destroyed | threw => simp [hs, StartupStage.last] at hg
  | gathering waitingOn =>
    rcases waitingOn with _ | ⟨i, waitingOn⟩
    · exact ⟨_, _, .gathered hs, by simp⟩
    · rcases hann : s.announcements with _ | ⟨j, announcements⟩
      · -- nothing to read: the thread it waits on has yet to announce itself
        have ht := List.getElem?_eq_getElem ((h.gathering _ hs).2 i (by simp))
        refine ⟨_, _, .announce ht (Bool.eq_false_iff.mpr fun ha => ?_), by simp⟩
        have hmem := h.heard i _ ht ha (by simp [hs, StartupStage.Awaits])
        simp [hann] at hmem
      · exact ⟨_, _, .gather hs (by simp) hann, by simp⟩
  | releasing next =>
    cases ht : s.threads[next]? with
    | none => exact ⟨_, _, .released hs ht, by simp⟩
    | some t => exact ⟨_, _, .release hs ht (h.release hs ht).1, by simp⟩
  | quitting next =>
    cases ht : s.threads[next]? with
    | none => exact ⟨_, _, .told hs ht, by simp⟩
    | some t =>
      cases ha : t.announced with
      | false => exact ⟨_, _, .announce ht ha, by simp⟩
      | true => exact ⟨_, _, .quit hs ht ha, by simp⟩
  | joining next =>
    cases ht : s.threads[next]? with
    | none => exact ⟨_, _, .joined hs ht, by simp⟩
    | some t =>
      obtain ⟨ha, hd | hd, -⟩ := h.expects hs ht
      · exact ⟨_, _, .receive ht ha (by rw [hd]; rfl), by simp⟩
      · exact ⟨_, _, .join hs ht (by rw [hd]), by simp⟩

/-- What every later state of the object has in common with `s`. -/
structure Continues (s s' : Startup) : Prop where
  ordered : s'.Ordered
  length : s'.threads.length = s.threads.length
  last : s'.stage.last = s.stage.last

theorem Ordered.continues (h : s.Ordered) : s.Continues s := ⟨h, rfl, rfl⟩

theorem stage_ne_configuring (h : s'.stage.last = s.stage.last) (hc : s.stage ≠ .configuring) :
    s'.stage ≠ .configuring := by
  intro hs
  rw [hs] at h
  cases hs' : s.stage <;> simp_all [StartupStage.last]

theorem Continues.step {s₀ : Startup} (h : s₀.Continues s) (hc : s₀.stage ≠ .configuring)
    (hm : Move s e s') : s₀.Continues s' ∧ (s'.work < s.work ∨ e = .quit ∧ s' = s) := by
  rcases h.ordered.progress (stage_ne_configuring h.last hc) hm with hp | ⟨he, rfl⟩
  · exact ⟨⟨h.ordered.step hm, hp.length.trans h.length, hp.last.trans h.last⟩, .inl hp.work⟩
  · exact ⟨h, .inr ⟨he, rfl⟩⟩

/-- No thread is added once `start()` is called, or the destructor. -/
theorem Ordered.continues_of_runs (h : s.Ordered) (hc : s.stage ≠ .configuring)
    (hr : machine.Runs s s') : s.Continues s' :=
  hr.invariant (fun _ _ _ hs hstep => (hs.step hc (move_of_step hstep)).1) h.continues

/-- What `start()` and the destructor wait for comes. The steps on the way are bounded,
but for the destructor's attempts to reach a thread. -/
theorem startup_completes (h : machine.Reachable s) (hc : s.stage ≠ .configuring) :
    (∃ s', machine.Runs s s' ∧ s'.stage = s.stage.last ∧ s'.threads.length = s.threads.length) ∧
      ∀ es s', machine.run s es = some s' → es.countP (· ≠ .quit) ≤ s.work := by
  have ho := (ordered_of_reachable h).continues
  constructor
  · have hnext (s₁ : Startup) (h₁ : s.Continues s₁) (hgoal : s₁.stage ≠ s.stage.last) :
        ∃ s₂, machine.RunsBy (fun _ => True) s₁ s₂ ∧ s.Continues s₂ ∧ s₂.work < s₁.work := by
      obtain ⟨e, s₂, hm, hq⟩ := h₁.ordered.enabled (h₁.last ▸ hgoal)
      obtain ⟨h₂, hlt | ⟨he, rfl⟩⟩ := h₁.step hc hm
      · exact ⟨s₂, .single trivial (step_of_move hm), h₂, hlt⟩
      · exact (hq he rfl).elim
    obtain ⟨s', ⟨es, -, hrun⟩, hs', hgoal⟩ := machine.reaches_of_variant work hnext ho
    exact ⟨s', ⟨es, hrun⟩, hgoal, hs'.length⟩
  · have hstep (s₁ : Startup) (e : StartupEvent) (s₂ : Startup) (h₁ : s.Continues s₁) (_ : True)
        (hstep : machine.step s₁ e = some s₂) :
        s.Continues s₂ ∧ s₂.work + (if decide (e ≠ .quit) then 1 else 0) ≤ s₁.work := by
      obtain ⟨h₂, hlt | ⟨rfl, rfl⟩⟩ := h₁.step hc (move_of_step hstep)
      · refine ⟨h₂, ?_⟩
        split <;> omega
      · exact ⟨h₂, by simp⟩
    exact fun es s' hrun => machine.countP_le_of_variant work _ hstep ho (fun _ _ => trivial) hrun

/-- The destructor runs before the thread has connected. -/
theorem startup_completes_when_destroyed_early :
    ∃ s, s.stage = .quitting 0 ∧ s.threads = [{}] ∧ (∃ s', machine.Runs s s' ∧
      s'.stage = .destroyed ∧ s'.threads.length = 1) ∧
      ∀ es s', machine.run s es = some s' → es.countP (· ≠ .quit) ≤ 7 := by
  have hinit : machine.Reachable {} := .init rfl
  have hrun : machine.run {} [.addThread, .destroy] =
      some { threads := [{}], stage := .quitting 0 } := by decide
  exact ⟨_, rfl, rfl, startup_completes (hinit.run hrun) (by simp)⟩

end Startup

section Refinement

variable {ι R : Type} [DecidableEq ι] [Fintype ι]

/-- The proxy's record of a thread that has been told to start. -/
def StartupThread.worker (ι : Type) (t : StartupThread) : TaggedWorker ι :=
  { run.workerThread := some t.thread }

def Dispatch.withTagged (d : Dispatch ι R) (taggedWorkers : List (TaggedWorker ι)) :
    Dispatch ι R := { d with pool := { d.pool with taggedWorkers } }

/-- Tagged threads take their messages. -/
abbrev Dispatch.TaggedReceives (d d' : Dispatch ι R) : Prop :=
  (Dispatch.machine ι R).RunsBy (fun e => ∃ i, e = .receive (.tagged i)) d d'

theorem modify_append_length {α : Type} (f : α → α) (pre : List α) (a : α) (post : List α) :
    (pre ++ a :: post).modify pre.length f = pre ++ f a :: post := by
  induction pre with
  | nil => rfl
  | cons x pre ih => simp [ih]

omit [Fintype ι] in
theorem Dispatch.step_receive_tagged (d : Dispatch ι R) (pre : List (TaggedWorker ι))
    {w : TaggedWorker ι} (post : List (TaggedWorker ι)) {t t' : Thread}
    (hw : w.run.workerThread = some t) (hr : t.receive = some t') :
    (d.withTagged (pre ++ w :: post)).step (.receive (.tagged pre.length)) =
      some (d.withTagged (pre ++ { w with run.workerThread := some t' } :: post)) := by
  simp [step, Pool.receive, Pool.stepThread, Pool.run?, withTagged, hw, hr, Pool.modifyRun,
    modify_append_length]

theorem Dispatch.taggedReceives_released (d : Dispatch ι R) (pre : List (TaggedWorker ι))
    {ts : List StartupThread} (h : ∀ t ∈ ts, t.thread.Released) :
    Dispatch.TaggedReceives
      (d.withTagged (pre ++ List.replicate ts.length
        { run.workerThread := some { pc := .waitStart, inbox := [.start] } }))
      (d.withTagged (pre ++ ts.map (·.worker ι))) := by
  induction ts generalizing pre with
  | nil => exact .refl _ _ _
  | cons t ts ih =>
    have hrest := ih (pre ++ [t.worker ι]) fun t ht => h t (List.mem_cons_of_mem _ ht)
    simp only [List.append_assoc, List.singleton_append] at hrest
    simp only [List.length_cons, List.replicate_succ, List.map_cons]
    rcases h t (by simp) with ht | ht
    · simp only [StartupThread.worker, ht] at hrest ⊢
      exact hrest
    · refine .trans (.single ⟨pre.length, rfl⟩ ?_) hrest
      simp only [StartupThread.worker, ht]
      exact d.step_receive_tagged pre _ rfl rfl

/-- A thread that is past START finds the records of the tagged workers complete. The loop
begins in a state of the scheduler's own runs. Without `start()` every thread ends, and has
run nothing. -/
theorem Startup.startup_barrier {s : Startup} (h : Startup.machine.Reachable s) :
    s.stage ≠ .threw ∧
      (∀ t ∈ s.threads, t.thread.pc = .waitRun → (∀ u ∈ s.threads, u.announced = true) ∧
        ∀ s', Startup.machine.Runs s s' → s'.threads.length = s.threads.length) ∧
      (s.stage = .looping → ∀ cfg : Config ι, cfg.taggedWorkers = s.threads.length →
        (Dispatch.start cfg : Dispatch ι R).TaggedReceives
          ((Dispatch.start cfg).withTagged (s.threads.map (·.worker ι)))) ∧
      (s.stage = .destroyed → ∀ t ∈ s.threads,
        t.thread = { pc := .exited, outbox := [.quitting] }) := by
  have ho := Startup.ordered_of_reachable h
  refine ⟨ho.running, fun t ht hpc => ?_, fun hs cfg hcfg => ?_, fun hs t ht => ?_⟩
  · obtain ⟨i, hi⟩ := List.mem_iff_getElem?.mp ht
    obtain ⟨hann, hc⟩ := (ho.threads i t hi).past_start hpc
    refine ⟨fun u hu => ?_, fun s' hr => (ho.continues_of_runs hc hr).length⟩
    obtain ⟨j, hj⟩ := List.mem_iff_getElem?.mp hu
    exact hann j u (ho.threads j u hj)
  · have hrel (t : StartupThread) (ht : t ∈ s.threads) : t.thread.Released := by
      obtain ⟨i, hi⟩ := List.mem_iff_getElem?.mp ht
      exact (ho.expects hs hi).2
    have hruns := (Dispatch.start cfg : Dispatch ι R).taggedReceives_released [] hrel
    rw [← hcfg] at hruns
    exact hruns
  · obtain ⟨i, hi⟩ := List.mem_iff_getElem?.mp ht
    exact ho.expects hs hi

end Refinement

/-- Two threads; the second announces itself first, the first is already past START. -/
theorem Startup.startup_barrier_of_two :
    ∃ s : Startup, s.stage = .looping ∧ s.threads.map (·.thread.pc) = [.waitRun, .waitStart] ∧
      ∀ cfg : Config Unit, cfg.taggedWorkers = 2 →
        (Dispatch.start cfg : Dispatch Unit Unit).TaggedReceives
          ((Dispatch.start cfg).withTagged (s.threads.map (·.worker Unit))) := by
  have hinit : Startup.machine.Reachable {} := .init rfl
  obtain ⟨s, hs, hp⟩ := hinit.exists_of_run
    [.addThread, .addThread, .announce 1, .start, .gather, .announce 0, .gather, .gather, .release,
      .receive 0, .release, .release]
    (p := fun s => decide (s.stage = .looping ∧
      s.threads.map (·.thread.pc) = [.waitRun, .waitStart])) (by decide)
  obtain ⟨hstage, hpcs⟩ := of_decide_eq_true hp
  refine ⟨s, hstage, hpcs, fun cfg hcfg => (Startup.startup_barrier hs).2.2.1 hstage cfg ?_⟩
  rw [hcfg, ← List.length_map (·.thread.pc), hpcs]
  rfl

end ArqmaMQ
