import ArqmaMQ.Worker

/-! The workers as the proxy keeps them: the general ones, created on demand,
with the list of idle ones, and the tagged ones with their busy flags. -/

namespace ArqmaMQ

/-- The routing ids "w0", "w1", ... and "t1", "t2", ...; tagged workers are
counted from 0 here. -/
inductive WorkerRef
  | general (i : Nat)
  | tagged (i : Nat)
  deriving DecidableEq, Repr

/-- What happens to a worker. A load records how many messages and executions
of the worker were under way at that moment. -/
inductive WorkerEvent (ι : Type)
  | loaded (w : WorkerRef) (task : Option (Task ι)) (inFlight : Nat)
  | executed (w : WorkerRef) (task : Option (Task ι))
  | ran (w : WorkerRef) (task : Option (Task ι))
  deriving DecidableEq, Repr

structure TaggedWorker (ι : Type) where
  run : RunInfo ι := {}
  busy : Bool := false
  deriving DecidableEq, Repr

structure Pool (ι : Type) where
  /-- Records do not move: threads keep a reference to theirs. In the source that holds
  until QUIT, if the thread counts fit an `int`, so that the room that `start` reserves
  is enough. -/
  workers : List (RunInfo ι) := []
  idleWorkers : List Nat := []
  taggedWorkers : List (TaggedWorker ι) := []
  /-- `batch_jobs_active`, `reply_jobs_active`, and `active_threads` of every
  category. -/
  active : JobClass ι → Nat := fun _ => 0
  /-- Auxiliary: the history of the workers. -/
  log : List (WorkerEvent ι) := []

namespace Pool

variable {ι : Type}

def activeWorkers (p : Pool ι) : Nat := p.workers.length - p.idleWorkers.length

def run? (p : Pool ι) : WorkerRef → Option (RunInfo ι)
  | .general i => p.workers[i]?
  | .tagged i => p.taggedWorkers[i]?.map TaggedWorker.run

def modifyRun (p : Pool ι) (w : WorkerRef) (f : RunInfo ι → RunInfo ι) : Pool ι :=
  match w with
  | .general i => { p with workers := p.workers.modify i f }
  | .tagged i => { p with
      taggedWorkers := p.taggedWorkers.modify i fun t => { t with run := f t.run } }

def setBusy (p : Pool ι) (i : Nat) (busy : Bool) : Pool ι :=
  { p with taggedWorkers := p.taggedWorkers.modify i fun t => { t with busy } }

def record (p : Pool ι) (e : WorkerEvent ι) : Pool ι := { p with log := p.log ++ [e] }

def getIdleWorker (p : Pool ι) : Nat × Pool ι :=
  match p.idleWorkers.getLast? with
  | none => (p.workers.length, { p with workers := p.workers ++ [{}] })
  | some id => (id, { p with idleWorkers := p.idleWorkers.dropLast })

/-- `run.load(...)` on a worker. -/
def load (p : Pool ι) (w : WorkerRef) (f : RunInfo ι → RunInfo ι) : Pool ι :=
  (p.modifyRun w f).record
    (.loaded w (((p.run? w).map f).bind RunInfo.task) ((p.run? w).elim 0 RunInfo.inFlight))

def proxyRunWorker (p : Pool ι) (w : WorkerRef) : Pool ι := p.modifyRun w RunInfo.runWorker

/-- `proxy_run_worker(get_idle_worker().load(...))`, and the class gains an
active worker. -/
def assign [DecidableEq ι] (p : Pool ι) (k : JobClass ι) (f : RunInfo ι → RunInfo ι) : Pool ι :=
  let (i, p) := p.getIdleWorker
  let p := (p.load (.general i) f).proxyRunWorker (.general i)
  { p with active := Function.update p.active k (p.active k + 1) }

def assignTagged (p : Pool ι) (i : Nat) (f : RunInfo ι → RunInfo ι) : Pool ι :=
  ((p.setBusy i true).load (.tagged i) f).proxyRunWorker (.tagged i)

/-- A thread's own step: the next message, the job, or the report. -/
def stepThread (p : Pool ι) (w : WorkerRef) (f : Thread → Option Thread) : Option (Pool ι) := do
  let t ← f (← (← p.run? w).workerThread)
  return p.modifyRun w fun r => { r with workerThread := some t }

def receive (p : Pool ι) (w : WorkerRef) : Option (Pool ι) := p.stepThread w Thread.receive

def sendRan (p : Pool ι) (w : WorkerRef) : Option (Pool ι) := p.stepThread w Thread.sendRan

def execute (p : Pool ι) (w : WorkerRef) (threw : Bool) : Option (Pool ι) := do
  let r ← (← p.run? w).execute threw
  return (p.modifyRun w fun _ => r).record (.executed w r.task)

/-- `route_control(workers_socket, ..., "QUIT")` -/
def sendQuit (p : Pool ι) (w : WorkerRef) : Pool ι :=
  p.modifyRun w fun r => { r with
    workerThread := r.workerThread.map fun t => { t with inbox := t.inbox ++ [.quit] } }

/-- `run.to_run = nullptr` -/
def clearToRun (p : Pool ι) (w : WorkerRef) : Pool ι :=
  p.modifyRun w fun r => { r with toRun := .batch none }

/-- The worker is free again: told to quit during shutdown, else idle. -/
def release (p : Pool ι) (quitting : Bool) (w : WorkerRef) : Pool ι :=
  if quitting then p.sendQuit w
  else match w with
    | .general i => { p with idleWorkers := p.idleWorkers ++ [i] }
    | .tagged _ => p

@[simp] theorem idleWorkers_modifyRun (p : Pool ι) (w : WorkerRef) (f : RunInfo ι → RunInfo ι) :
    (p.modifyRun w f).idleWorkers = p.idleWorkers := by
  cases w <;> rfl

@[simp] theorem active_modifyRun (p : Pool ι) (w : WorkerRef) (f : RunInfo ι → RunInfo ι) :
    (p.modifyRun w f).active = p.active := by
  cases w <;> rfl

@[simp] theorem log_modifyRun (p : Pool ι) (w : WorkerRef) (f : RunInfo ι → RunInfo ι) :
    (p.modifyRun w f).log = p.log := by
  cases w <;> rfl

@[simp] theorem length_modifyRun (p : Pool ι) (w : WorkerRef) (f : RunInfo ι → RunInfo ι) :
    (p.modifyRun w f).workers.length = p.workers.length := by
  cases w <;> simp [modifyRun]

theorem run?_modifyRun (p : Pool ι) (w w' : WorkerRef) (f : RunInfo ι → RunInfo ι) :
    (p.modifyRun w f).run? w' = if w = w' then (p.run? w').map f else p.run? w' := by
  cases w with
  | general i =>
    cases w' with
    | general j =>
      by_cases h : i = j
      · simp [modifyRun, run?, h]
      · simp [modifyRun, run?, h]
    | tagged j => simp [modifyRun, run?]
  | tagged i =>
    cases w' with
    | general j => simp [modifyRun, run?]
    | tagged j =>
      by_cases h : i = j
      · simp [modifyRun, run?, h, Function.comp_def]
      · simp [modifyRun, run?, h]

theorem modify_eq_set {α : Type} {l : List α} {i : Nat} {a : α} (h : l[i]? = some a) (f : α → α) :
    l.modify i f = l.set i (f a) := by
  obtain ⟨hi, rfl⟩ := List.getElem?_eq_some_iff.mp h
  apply List.ext_getElem?
  intro j
  by_cases hj : i = j
  · subst hj
    simp [hi]
  · simp [hj]

theorem modify_modify_eq_set {α : Type} {l : List α} {i : Nat} {a : α} (h : l[i]? = some a)
    (f g : α → α) : (l.modify i f).modify i g = l.set i (g (f a)) := by
  rw [List.modify_modify_eq, modify_eq_set h]
  rfl

theorem assign_of_nil [DecidableEq ι] {p : Pool ι} (k : JobClass ι) (f : RunInfo ι → RunInfo ι)
    (h : p.idleWorkers = []) : p.assign k f =
      { p with
        workers := p.workers ++ [(f {}).runWorker]
        active := Function.update p.active k (p.active k + 1)
        log := p.log ++ [.loaded (.general p.workers.length) (f {}).task 0] } := by
  have hset := modify_modify_eq_set
    (l := p.workers ++ [({} : RunInfo ι)]) (i := p.workers.length) (a := {})
    (by simp) f RunInfo.runWorker
  simp [assign, getIdleWorker, h, load, proxyRunWorker, modifyRun, record, run?, RunInfo.inFlight,
    hset]

abbrev setRun (p : Pool ι) (w : WorkerRef) (r : RunInfo ι) : Pool ι := p.modifyRun w fun _ => r

theorem modifyRun_eq_setRun {p : Pool ι} {w : WorkerRef} {r : RunInfo ι} (h : p.run? w = some r)
    (f : RunInfo ι → RunInfo ι) : p.modifyRun w f = p.setRun w (f r) := by
  cases w with
  | general i => simp [setRun, modifyRun, modify_eq_set h]
  | tagged i =>
    obtain ⟨t, ht, rfl⟩ := Option.map_eq_some_iff.mp h
    simp [setRun, modifyRun, modify_eq_set ht]

theorem modifyRun_setRun (p : Pool ι) (w : WorkerRef) (r : RunInfo ι)
    (f : RunInfo ι → RunInfo ι) : (p.setRun w r).modifyRun w f = p.setRun w (f r) := by
  cases w with
  | general i =>
    simp only [setRun, modifyRun, List.modify_modify_eq]
    rfl
  | tagged i =>
    simp only [setRun, modifyRun, List.modify_modify_eq]
    rfl

theorem run?_setRun {p : Pool ι} {w : WorkerRef} {r : RunInfo ι} (h : p.run? w = some r)
    (r' : RunInfo ι) : (p.setRun w r').run? w = some r' := by
  rw [setRun, run?_modifyRun, if_pos rfl, h, Option.map_some]

theorem assign_of_concat [DecidableEq ι] {p : Pool ι} (k : JobClass ι) (f : RunInfo ι → RunInfo ι)
    {l : List Nat} {i : Nat} {r : RunInfo ι} (h : p.idleWorkers = l ++ [i])
    (hr : p.workers[i]? = some r) : p.assign k f =
      { (p.setRun (.general i) (f r).runWorker).record
          (.loaded (.general i) (f r).task r.inFlight) with
        idleWorkers := l
        active := Function.update p.active k (p.active k + 1) } := by
  have hset : (p.workers.modify i f).modify i RunInfo.runWorker =
      p.workers.modify i fun _ => (f r).runWorker := by
    rw [modify_modify_eq_set hr, modify_eq_set hr]
  simp [assign, getIdleWorker, h, load, proxyRunWorker, modifyRun, record, run?, hr, hset]

theorem run?_setBusy (p : Pool ι) (i : Nat) (b : Bool) (w : WorkerRef) :
    (p.setBusy i b).run? w = p.run? w := by
  cases w with
  | general j => rfl
  | tagged j =>
    by_cases h : i = j
    · subst h
      simp [setBusy, run?, Function.comp_def]
    · simp [setBusy, run?, h]

theorem assignTagged_eq {p : Pool ι} (f : RunInfo ι → RunInfo ι) {i : Nat} {r : RunInfo ι}
    (h : p.run? (.tagged i) = some r) : p.assignTagged i f =
      ((p.setBusy i true).setRun (.tagged i) (f r).runWorker).record
        (.loaded (.tagged i) (f r).task r.inFlight) := by
  have hb : (p.setBusy i true).run? (.tagged i) = some r := by rw [run?_setBusy, h]
  have he : ((p.setBusy i true).modifyRun (.tagged i) f).modifyRun (.tagged i) RunInfo.runWorker =
      (p.setBusy i true).setRun (.tagged i) (f r).runWorker := by
    rw [modifyRun_eq_setRun hb, modifyRun_setRun]
  rw [assignTagged, load, hb, ← he]
  rfl

theorem assign_active [DecidableEq ι] (p : Pool ι) (k : JobClass ι) (f : RunInfo ι → RunInfo ι) :
    (p.assign k f).active = Function.update p.active k (p.active k + 1) := by
  unfold assign getIdleWorker
  cases p.idleWorkers.getLast? <;> rfl

theorem activeWorkers_le_assign [DecidableEq ι] (p : Pool ι) (k : JobClass ι)
    (f : RunInfo ι → RunInfo ι) : p.activeWorkers ≤ (p.assign k f).activeWorkers := by
  rcases List.eq_nil_or_concat p.idleWorkers with h | ⟨l, i, h⟩
  · simp [assign_of_nil k f h, activeWorkers, h]
  · simp [assign, getIdleWorker, h, load, proxyRunWorker, modifyRun, record, activeWorkers]
    omega

/-- The proxy does not count the worker as free. -/
def Busy (p : Pool ι) : WorkerRef → Prop
  | .general i => i ∉ p.idleWorkers
  | .tagged i => ∃ t, p.taggedWorkers[i]? = some t ∧ t.busy = true

theorem busy_modifyRun (p : Pool ι) (w w' : WorkerRef) (f : RunInfo ι → RunInfo ι) :
    (p.modifyRun w f).Busy w' ↔ p.Busy w' := by
  cases w with
  | general i => cases w' <;> rfl
  | tagged i =>
    cases w' with
    | general j => rfl
    | tagged j =>
      by_cases h : i = j
      · subst h
        rcases ht : p.taggedWorkers[i]? with _ | t <;> simp [modifyRun, Busy, ht]
      · simp [modifyRun, Busy, h]

theorem run?_record (p : Pool ι) (e : WorkerEvent ι) (w : WorkerRef) :
    (p.record e).run? w = p.run? w := by
  cases w <;> rfl

theorem busy_record (p : Pool ι) (e : WorkerEvent ι) (w : WorkerRef) :
    (p.record e).Busy w ↔ p.Busy w := by
  cases w <;> rfl

theorem stepThread_eq_some {p p' : Pool ι} {w : WorkerRef} {f : Thread → Option Thread}
    (h : p.stepThread w f = some p') : ∃ r t t', p.run? w = some r ∧ r.workerThread = some t ∧
      f t = some t' ∧ p' = p.setRun w { r with workerThread := some t' } := by
  simp only [stepThread, Option.bind_eq_bind, Option.bind_eq_some_iff, Option.pure_def] at h
  obtain ⟨r, hr, t, ht, t', ht', h⟩ := h
  obtain rfl := Option.some.inj h
  exact ⟨r, t, t', hr, ht, ht', modifyRun_eq_setRun hr _⟩

theorem execute_eq_some {p p' : Pool ι} {w : WorkerRef} {threw : Bool}
    (h : p.execute w threw = some p') :
    ∃ r r', p.run? w = some r ∧ r.execute threw = some r' ∧
      p' = (p.setRun w r').record (.executed w r'.task) := by
  simp only [execute, Option.bind_eq_bind, Option.bind_eq_some_iff, Option.pure_def] at h
  obtain ⟨r, hr, r', hr', h⟩ := h
  exact ⟨r, r', hr, hr', (Option.some.inj h).symm⟩

theorem log_sendQuit (ws : List WorkerRef) (p : Pool ι) :
    (ws.foldl sendQuit p).log = p.log := by
  induction ws generalizing p with
  | nil => rfl
  | cons w ws ih => rw [List.foldl_cons, ih, sendQuit, log_modifyRun]

theorem length_sendQuit (ws : List WorkerRef) (p : Pool ι) :
    (ws.foldl sendQuit p).workers.length = p.workers.length := by
  induction ws generalizing p with
  | nil => rfl
  | cons w ws ih => rw [List.foldl_cons, ih, sendQuit, length_modifyRun]

theorem log_release (p : Pool ι) (quitting : Bool) (w : WorkerRef) :
    (p.release quitting w).log = p.log := by
  cases quitting
  · cases w <;> rfl
  · exact log_modifyRun p w _

end Pool

end ArqmaMQ
