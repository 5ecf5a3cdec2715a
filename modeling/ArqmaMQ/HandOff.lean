import ArqmaMQ.DispatchLoop

/-! The hand-off between the proxy and its workers. Between two loads a worker
is sent RUN or created, runs its job, and reports RAN, each exactly once. -/

namespace ArqmaMQ

variable {ι R : Type}

/-- Where a thread is with `l` jobs loaded but not run and `e` jobs run but not
reported. QUIT is only ever sent to a thread without either. -/
structure Thread.At (t : Thread) (quit : Prop) (l e : Nat) : Prop where
  loaded : t.runsInFlight + (if t.pc = .executing then 1 else 0) = l
  executed : (if t.pc = .sending then 1 else 0) + t.ransInFlight = e
  booting : t.pc = .waitStart → ∃ rest, t.inbox = .start :: rest ∧ .start ∉ rest
  booted : t.pc ≠ .waitStart → .start ∉ t.inbox
  quits : .quit ∈ t.inbox ∨ t.pc = .exited ∨ .quitting ∈ t.outbox → quit ∧ l = 0 ∧ e = 0

namespace Thread.At

variable {t t' : Thread} {quit : Prop} {l e : Nat}

theorem inFlight_eq (h : t.At quit l e) : t.inFlight = l + e := by
  have hl := h.loaded
  have he := h.executed
  rcases hpc : t.pc <;> simp [hpc] at hl he <;> simp [inFlight, executions, hpc] <;> omega

theorem mono {quit' : Prop} (hq : quit → quit') (h : t.At quit l e) : t.At quit' l e :=
  ⟨h.loaded, h.executed, h.booting, h.booted, fun hh => ⟨hq (h.quits hh).1, (h.quits hh).2⟩⟩

theorem receive (h : t.At quit l e) (hr : t.receive = some t') : t'.At quit l e := by
  obtain ⟨pc, inbox, outbox, message⟩ := t
  rcases inbox with _ | ⟨c, rest⟩
  · cases pc <;> simp [Thread.receive, waitFor] at hr
  · cases pc with
    | waitStart =>
      obtain ⟨rest', hc, hrest⟩ := h.booting rfl
      obtain ⟨rfl, rfl⟩ := List.cons.inj hc
      obtain rfl : _ = t' := by simpa [Thread.receive, waitFor] using hr
      refine ⟨by simpa [runsInFlight] using h.loaded, by simpa [ransInFlight] using h.executed,
        by simp, by simpa using hrest, ?_⟩
      intro hq
      exact h.quits (by simpa using hq)
    | waitRun =>
      have hstart := h.booted (by simp)
      cases c with
      | start => simp at hstart
      | run =>
        obtain rfl : _ = t' := by simpa [Thread.receive, waitFor] using hr
        refine ⟨by simpa [runsInFlight] using h.loaded, by simpa [ransInFlight] using h.executed,
          by simp, fun _ hmem => hstart (List.mem_cons_of_mem _ hmem), ?_⟩
        intro hq
        exact h.quits (by simpa using hq)
      | quit =>
        obtain rfl : _ = t' := by simpa [Thread.receive, waitFor] using hr
        refine ⟨by simpa [runsInFlight] using h.loaded, by simpa [ransInFlight] using h.executed,
          by simp, fun _ hmem => hstart (List.mem_cons_of_mem _ hmem), ?_⟩
        intro _
        exact h.quits (by simp)
    | executing => simp [Thread.receive] at hr
    | sending => simp [Thread.receive] at hr
    | exited => simp [Thread.receive] at hr

theorem sendRan (h : t.At quit l e) (hr : t.sendRan = some t') : t'.At quit l e := by
  obtain ⟨hpc, rfl⟩ : t.pc = .sending ∧ _ = t' := by simpa [Thread.sendRan] using hr
  have hl := h.loaded
  have he := h.executed
  simp only [hpc] at hl he
  refine ⟨by simpa [runsInFlight] using hl, ?_, by simp, fun _ => h.booted (by simp [hpc]), ?_⟩
  · simpa [ransInFlight, Nat.add_comm] using he
  · intro hq
    exact h.quits (by simpa [hpc] using hq)

theorem execute (h : t.At quit l e) (hle : l + e ≤ 1) (hpc : t.pc = .executing) (m : Message) :
    l = 1 ∧ Thread.At { t with pc := .sending, message := m } quit 0 1 := by
  have hl := h.loaded
  have he := h.executed
  simp only [hpc] at hl he
  have hl1 : l = 1 := by simp at hl; omega
  refine ⟨hl1, ?_, ?_, by simp, fun _ => h.booted (by simp [hpc]), ?_⟩
  · simp [runsInFlight] at hl ⊢
    omega
  · simp [ransInFlight] at he ⊢
    omega
  · intro hq
    have := (h.quits (by simpa [hpc] using hq)).2
    omega

theorem run (h : t.At quit 0 0) (hq : ¬ quit) :
    Thread.At { t with inbox := t.inbox ++ [.run] } quit 1 0 := by
  have hnq := mt h.quits (fun hh => hq hh.1)
  refine ⟨?_, h.executed, ?_, ?_, ?_⟩
  · have hl := h.loaded
    simp only [runsInFlight, List.count_append, List.count_singleton_self] at hl ⊢
    omega
  · intro hpc
    obtain ⟨rest, hi, hrest⟩ := h.booting hpc
    exact ⟨rest ++ [.run], by simp [hi], by simpa using hrest⟩
  · intro hpc
    simpa using h.booted hpc
  · intro hh
    exact absurd (by simpa using hh) hnq

theorem sendQuit (h : t.At quit 0 0) :
    Thread.At { t with inbox := t.inbox ++ [.quit] } True 0 0 := by
  refine ⟨by simpa [runsInFlight] using h.loaded, h.executed, ?_, ?_, fun _ => ⟨trivial, rfl, rfl⟩⟩
  · intro hpc
    obtain ⟨rest, hi, hrest⟩ := h.booting hpc
    exact ⟨rest ++ [.quit], by simp [hi], by simpa using hrest⟩
  · intro hpc
    simpa using h.booted hpc

theorem takeRan (h : t.At quit l e) (hle : l + e ≤ 1) {rest : List WorkerReply}
    (ho : t.outbox = .ran :: rest) : e = 1 ∧ Thread.At { t with outbox := rest } quit 0 0 := by
  have he := h.executed
  simp only [ransInFlight, ho, List.count_cons_self] at he
  have he1 : e = 1 := by omega
  have hl0 : l = 0 := by omega
  subst he1 hl0
  refine ⟨rfl, h.loaded, ?_, h.booting, h.booted, ?_⟩
  · simp only [ransInFlight]
    omega
  · intro hh
    have := (h.quits (by simpa [ho] using hh)).2
    omega

theorem takeQuitting (h : t.At quit l e) {rest : List WorkerReply}
    (ho : t.outbox = .quitting :: rest) : quit ∧ l = 0 ∧ e = 0 :=
  h.quits (by simp [ho])

end Thread.At

/-- The protocol of one worker, as seen in its history. -/
inductive Stage (ι : Type)
  | free
  | loaded (task : Option (Task ι))
  | executed (task : Option (Task ι))
  deriving DecidableEq, Repr

def WorkerEvent.worker : WorkerEvent ι → WorkerRef
  | .loaded w _ _ => w
  | .executed w _ => w
  | .ran w _ => w

namespace Stage

def next [DecidableEq ι] : Stage ι → WorkerEvent ι → Option (Stage ι)
  | .free, .loaded _ t _ => some (.loaded t)
  | .loaded t, .executed _ t' => if t' = t then some (.executed t) else none
  | .executed t, .ran _ t' => if t' = t then some .free else none
  | _, _ => none

def loads : Stage ι → Nat
  | .loaded _ => 1
  | _ => 0

def executions : Stage ι → Nat
  | .executed _ => 1
  | _ => 0

/-- A job counts as run only right after its load and one execution. -/
theorem eq_of_executed [DecidableEq ι] {l : List (WorkerEvent ι)} {t : Option (Task ι)}
    (h : l.foldlM next .free = some (.executed t)) :
    ∃ l' w w' n, l = l' ++ [.loaded w t n, .executed w' t] := by
  rcases List.eq_nil_or_concat l with rfl | ⟨l₁, e₁, rfl⟩
  · simp at h
  · simp only [List.concat_eq_append, List.foldlM_append, Option.bind_eq_bind,
      Option.bind_eq_some_iff] at h
    obtain ⟨s₁, hs₁, h⟩ := h
    have hn : s₁.next e₁ = some (.executed t) := by simpa using h
    cases s₁ <;> cases e₁ <;> simp [next] at hn
    rename_i t₁ w' t'
    obtain ⟨rfl, rfl⟩ := hn
    rcases List.eq_nil_or_concat l₁ with rfl | ⟨l₂, e₂, rfl⟩
    · simp at hs₁
    · simp only [List.concat_eq_append, List.foldlM_append, Option.bind_eq_bind,
        Option.bind_eq_some_iff] at hs₁
      obtain ⟨s₂, -, hs₁⟩ := hs₁
      have hn₂ : s₂.next e₂ = some (.loaded t') := by simpa using hs₁
      cases s₂ <;> cases e₂ <;> simp [next] at hn₂
      rename_i w t₂ n
      subst hn₂
      exact ⟨l₂, w, w', n, by simp⟩

theorem loads_add_executions_le (s : Stage ι) : s.loads + s.executions ≤ 1 := by
  cases s <;> simp [loads, executions]

theorem loads_add_executions_eq_zero {s : Stage ι} :
    s.loads + s.executions = 0 ↔ s = .free := by
  cases s <;> simp [loads, executions]

end Stage

def WorkerRef.Tracked (quit : Prop) : WorkerRef → Prop
  | .general _ => ¬ quit
  | .tagged _ => True

/-- A worker's record and thread are at a stage of its protocol, and the proxy's
bookkeeping knows. The list of idle workers is not kept during shutdown. -/
structure InSync (quit : Prop) (w : WorkerRef) (busy : Prop) (s : Stage ι) (r : RunInfo ι) :
    Prop where
  task : ∀ t, s = .loaded t ∨ s = .executed t → r.task = t
  thread : match r.workerThread with
    | none => quit ∧ s = .free
    | some t => t.At quit s.loads s.executions
  busy_iff : w.Tracked quit → (busy ↔ s ≠ .free)
  batch : s ≠ .free → (∃ i, w = .tagged i) ∨ (∃ b, r.toRun = .batch b) → r.isBatchJob = true

namespace InSync

variable {quit : Prop} {w : WorkerRef} {r : RunInfo ι}

/-- Loading a free worker and starting it. -/
theorem load {busy busy' : Prop} {f : RunInfo ι → RunInfo ι}
    (h : InSync quit w busy .free r) (hq : ¬ quit) (hbusy : busy')
    (hf : (f r).workerThread = r.workerThread)
    (hb : (∃ i, w = .tagged i) ∨ (∃ b, (f r).toRun = .batch b) → (f r).isBatchJob = true) :
    InSync quit w busy' (.loaded (f r).task) (f r).runWorker := by
  refine ⟨?_, ?_, fun _ => by simpa using hbusy, ?_⟩
  · rintro t (hc | hc)
    · obtain rfl := Stage.loaded.inj hc
      exact RunInfo.task_runWorker _
    · cases hc
  · have hat := h.thread
    rcases ht : r.workerThread with _ | t
    · rw [ht] at hat
      exact absurd hat.1 hq
    · rw [ht] at hat
      simp only [RunInfo.runWorker, hf, ht]
      exact Thread.At.run hat hq
  · intro _ hc
    rw [RunInfo.toRun_runWorker] at hc
    rw [RunInfo.isBatchJob_runWorker, hb hc]

/-- A new thread starts with the job it was created for. -/
theorem spawn {f : RunInfo ι → RunInfo ι} {busy : Prop} {i : Nat}
    (hf : (f {}).workerThread = none) (hb : busy)
    (hto : ∀ b, (f {}).toRun = .batch b → (f {}).isBatchJob = true) :
    InSync quit (.general i) busy (.loaded (f {}).task) (f {}).runWorker := by
  refine ⟨?_, ?_, fun _ => by simpa using hb, ?_⟩
  · rintro t (hc | hc)
    · obtain rfl := Stage.loaded.inj hc
      exact RunInfo.task_runWorker _
    · cases hc
  · simp only [RunInfo.runWorker, hf]
    exact ⟨rfl, rfl, by simp, by simp, by simp⟩
  · rintro - (⟨j, hj⟩ | ⟨b, hc⟩)
    · cases hj
    · rw [RunInfo.toRun_runWorker] at hc
      rw [RunInfo.isBatchJob_runWorker, hto b hc]

theorem inFlight_eq {busy : Prop} {s : Stage ι} (h : InSync quit w busy s r) :
    r.inFlight = s.loads + s.executions := by
  have hat := h.thread
  rcases ht : r.workerThread with _ | t
  · rw [ht] at hat
    simp [RunInfo.inFlight, ht, hat.2, Stage.loads, Stage.executions]
  · rw [ht] at hat
    simpa [RunInfo.inFlight, ht] using hat.inFlight_eq

end InSync

namespace Pool

variable [DecidableEq ι]

def history (p : Pool ι) (w : WorkerRef) : List (WorkerEvent ι) := p.log.filter (·.worker = w)

def stage (p : Pool ι) (w : WorkerRef) : Option (Stage ι) :=
  (p.history w).foldlM Stage.next .free

theorem stage_record (p : Pool ι) (e : WorkerEvent ι) (w : WorkerRef) :
    (p.record e).stage w = if e.worker = w then (p.stage w).bind (·.next e) else p.stage w := by
  by_cases h : e.worker = w
  · simp [stage, history, record, List.filter_append, List.foldlM_append, h]
  · simp [stage, history, record, List.filter_append, h]

theorem stage_record_self {p : Pool ι} {e : WorkerEvent ι} {w : WorkerRef} {s s' : Stage ι}
    (hs : p.stage w = some s) (hw : e.worker = w) (hn : s.next e = some s') :
    (p.record e).stage w = some s' := by
  rw [stage_record, if_pos hw, hs, Option.bind_some, hn]

structure Synced (quit : Prop) (p : Pool ι) : Prop where
  worker : ∀ w r, p.run? w = some r → ∃ s, p.stage w = some s ∧ InSync quit w (p.Busy w) s r
  unborn : ∀ w, p.run? w = none → p.stage w = some .free
  idle_nodup : p.idleWorkers.Nodup
  idle_lt : ∀ i ∈ p.idleWorkers, i < p.workers.length
  idle_quit : quit → p.idleWorkers = []

/-- Only worker `w` differs. -/
structure Frame (p p' : Pool ι) (w : WorkerRef) : Prop where
  run : ∀ w', w ≠ w' → p'.run? w' = p.run? w'
  stage : ∀ w', w ≠ w' → p'.stage w' = p.stage w'
  busy : ∀ w', w ≠ w' → (p'.Busy w' ↔ p.Busy w')

theorem Frame.refl (p : Pool ι) (w : WorkerRef) : Frame p p w :=
  ⟨fun _ _ => rfl, fun _ _ => rfl, fun _ _ => Iff.rfl⟩

theorem Frame.trans {p p' p'' : Pool ι} {w : WorkerRef} (h : Frame p p' w)
    (h' : Frame p' p'' w) : Frame p p'' w :=
  ⟨fun w' hw => (h'.run w' hw).trans (h.run w' hw),
    fun w' hw => (h'.stage w' hw).trans (h.stage w' hw),
    fun w' hw => (h'.busy w' hw).trans (h.busy w' hw)⟩

theorem stage_modifyRun (p : Pool ι) (w w' : WorkerRef) (f : RunInfo ι → RunInfo ι) :
    (p.modifyRun w f).stage w' = p.stage w' := by
  cases w <;> rfl

theorem Frame.modifyRun (p : Pool ι) (w : WorkerRef) (f : RunInfo ι → RunInfo ι) :
    Frame p (p.modifyRun w f) w :=
  ⟨fun w' hw => by rw [run?_modifyRun, if_neg hw], fun w' _ => stage_modifyRun p w w' f,
    fun w' _ => busy_modifyRun p w w' f⟩

theorem Frame.record (p : Pool ι) (e : WorkerEvent ι) : Frame p (p.record e) e.worker :=
  ⟨fun w' _ => run?_record p e w', fun w' hw => by rw [stage_record, if_neg hw],
    fun w' _ => busy_record p e w'⟩

theorem Frame.setBusy (p : Pool ι) (i : Nat) (b : Bool) : Frame p (p.setBusy i b) (.tagged i) := by
  refine ⟨?_, fun w' _ => by cases w' <;> rfl, ?_⟩
  · intro w' hw
    cases w' with
    | general j => rfl
    | tagged j =>
      have hj : i ≠ j := fun h => hw (by rw [h])
      simp [Pool.setBusy, run?, hj]
  · intro w' hw
    cases w' with
    | general j => rfl
    | tagged j =>
      have hj : i ≠ j := fun h => hw (by rw [h])
      simp [Pool.setBusy, Busy, hj]

theorem Frame.active (p : Pool ι) (a : JobClass ι → Nat) (w : WorkerRef) :
    Frame p { p with active := a } w :=
  ⟨fun w' _ => by cases w' <;> rfl, fun _ _ => rfl, fun w' _ => by cases w' <;> rfl⟩

theorem Frame.append (p : Pool ι) (r : RunInfo ι) :
    Frame p { p with workers := p.workers ++ [r] } (.general p.workers.length) := by
  refine ⟨?_, fun _ _ => rfl, fun w' _ => by cases w' <;> rfl⟩
  intro w' hw
  cases w' with
  | general j =>
    have hj : p.workers.length ≠ j := fun h => hw (by rw [h])
    rcases Nat.lt_or_ge j p.workers.length with hlt | hge
    · simp [run?, List.getElem?_append_left hlt]
    · simp only [run?]
      rw [List.getElem?_eq_none_iff.mpr hge, List.getElem?_eq_none_iff]
      simp only [List.length_append, List.length_singleton]
      omega
  | tagged j => rfl

theorem Frame.idle (p : Pool ι) (l : List Nat) (i : Nat)
    (h : ∀ j, i ≠ j → (j ∈ l ↔ j ∈ p.idleWorkers)) :
    Frame p { p with idleWorkers := l } (.general i) := by
  refine ⟨fun w' _ => by cases w' <;> rfl, fun _ _ => rfl, ?_⟩
  intro w' hw
  cases w' with
  | general j => exact not_congr (h j fun hj => hw (by rw [hj]))
  | tagged j => rfl

/-- A change that touches one worker keeps the pool in sync if that worker is. -/
theorem Synced.update {quit : Prop} {p p' : Pool ι} {w : WorkerRef} (h : Synced quit p)
    (hf : Frame p p' w) (hnodup : p'.idleWorkers.Nodup)
    (hlt : ∀ i ∈ p'.idleWorkers, i < p'.workers.length) (hquit : quit → p'.idleWorkers = [])
    (hw : ∃ r s, p'.run? w = some r ∧ p'.stage w = some s ∧ InSync quit w (p'.Busy w) s r) :
    Synced quit p' := by
  obtain ⟨r, s, hr, hs, hin⟩ := hw
  refine ⟨?_, ?_, hnodup, hlt, hquit⟩
  · intro w' r' hr'
    by_cases hww : w = w'
    · subst hww
      rw [hr] at hr'
      obtain rfl := Option.some.inj hr'
      exact ⟨s, hs, hin⟩
    · rw [hf.run w' hww] at hr'
      obtain ⟨s', hs', hin'⟩ := h.worker w' r' hr'
      refine ⟨s', by rw [hf.stage w' hww, hs'], hin'.task, hin'.thread, ?_, hin'.batch⟩
      intro ht
      exact (hf.busy w' hww).trans (hin'.busy_iff ht)
  · intro w' hw'
    have hne : w ≠ w' := by
      rintro rfl
      rw [hr] at hw'
      cases hw'
    rw [hf.stage w' hne]
    exact h.unborn w' ((hf.run w' hne).symm.trans hw')

end Pool

end ArqmaMQ
