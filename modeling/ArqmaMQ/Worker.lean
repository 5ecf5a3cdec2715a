import ArqmaMQ.Batch

/-! A worker: its run record, which the proxy fills in, and its thread, which
reads the record. They synchronise only through the messages between them. -/

namespace ArqmaMQ

/-- Entries of `categories` are referred to by `ι`. -/
inductive JobClass (ι : Type)
  | batch
  | reply
  | category (c : ι)
  deriving DecidableEq, Repr

/-- `batch_job`: a batch and a job number, -1 for its completion. -/
abbrev BatchJob := Nat × Int

structure CommandCallback where
  f : Nat
  isRequest : Bool
  deriving DecidableEq, Repr

structure Message where
  conn : ConnectionID := {}
  access : Access := {}
  remote : Bytes := []
  data : List Bytes := []
  replyTag : Bytes := []
  deriving DecidableEq, Repr

inductive WorkerCommand
  | start | run | quit
  deriving DecidableEq, Repr

inductive WorkerReply
  | ran | quitting
  deriving DecidableEq, Repr

/-- Where `worker_thread` stands: waiting for START or RUN, inside the job,
about to send RAN, or returned. -/
inductive Pc
  | waitStart | waitRun | executing | sending | exited
  deriving DecidableEq, Repr

structure Thread where
  pc : Pc
  inbox : List WorkerCommand := []
  outbox : List WorkerReply := []
  message : Message := {}
  deriving DecidableEq, Repr

namespace Thread

/-- `worker_wait_for`, up to and including the next message. -/
def waitFor (t : Thread) (expect : WorkerCommand) (next : Pc) : Option Thread :=
  match t.inbox with
  | [] => none
  | c :: rest =>
    if c = expect then some { t with pc := next, inbox := rest }
    else if c = .quit then
      some { t with pc := .exited, inbox := rest, outbox := t.outbox ++ [.quitting] }
    else some { t with inbox := rest }

def receive (t : Thread) : Option Thread :=
  match t.pc with
  | .waitStart => t.waitFor .start .waitRun
  | .waitRun => t.waitFor .run .executing
  | _ => none

def sendRan (t : Thread) : Option Thread :=
  if t.pc = .sending then some { t with pc := .waitRun, outbox := t.outbox ++ [.ran] } else none

def runsInFlight (t : Thread) : Nat := t.inbox.count .run

def executions (t : Thread) : Nat := if t.pc = .executing ∨ t.pc = .sending then 1 else 0

def ransInFlight (t : Thread) : Nat := t.outbox.count .ran

def inFlight (t : Thread) : Nat := t.runsInFlight + t.executions + t.ransInFlight

end Thread

structure PendingCommand (ι : Type) where
  cat : ι
  command : Bytes
  dataParts : List Bytes := []
  callback : CommandCallback ⊕ Closure
  conn : ConnectionID := {}
  access : Access := {}
  remote : Bytes
  /-- Auxiliary: its place in the order of acceptance. -/
  serial : Nat := 0
  deriving DecidableEq, Repr

/-- The variant `to_run`; its pointers and function can be null. -/
inductive ToRun
  | callback (c : Option CommandCallback)
  | batch (b : Option Nat)
  | function (f : Option Closure)
  deriving DecidableEq, Repr

structure RunInfo (ι : Type) where
  isBatchJob : Bool := false
  isReplyJob : Bool := false
  isTaggedThreadJob : Bool := false
  isInjected : Bool := false
  cat : Option ι := none
  command : Bytes := []
  conn : ConnectionID := {}
  access : Access := {}
  remote : Bytes := []
  dataParts : List Bytes := []
  batchJobno : Int := 0
  toRun : ToRun := .callback none
  workerThread : Option Thread := none
  /-- Auxiliary: the serial of the command it was loaded with. -/
  serial : Nat := 0
  deriving DecidableEq, Repr

/-- What a worker is loaded with. -/
inductive Task (ι : Type)
  | batch (job : BatchJob)
  | command (cat : ι) (serial : Nat)
  deriving DecidableEq, Repr

namespace RunInfo

variable {ι : Type}

def reset (r : RunInfo ι) : RunInfo ι :=
  { r with
    isBatchJob := false, isReplyJob := false, isTaggedThreadJob := false, isInjected := false }

def loadCommand (r : RunInfo ι) (cat : ι) (command : Bytes) (conn : ConnectionID) (access : Access)
    (remote : Bytes) (dataParts : List Bytes) (callback : CommandCallback) (serial : Nat) :
    RunInfo ι :=
  { r.reset with
    cat := some cat, command, conn, access, remote, dataParts
    toRun := .callback (some callback), serial }

def loadInjected (r : RunInfo ι) (cat : ι) (command remote : Bytes) (callback : Closure)
    (serial : Nat) : RunInfo ι :=
  { r.reset with
    isInjected := true, cat := some cat, command, conn := {}, access := {}, remote
    toRun := .function (some callback), serial }

def loadPending (r : RunInfo ι) (p : PendingCommand ι) : RunInfo ι :=
  match p.callback with
  | .inr f => r.loadInjected p.cat p.command p.remote f p.serial
  | .inl c => r.loadCommand p.cat p.command p.conn p.access p.remote p.dataParts c p.serial

def loadBatchJob (r : RunInfo ι) (bj : BatchJob) (replyJob : Bool) (taggedThread : Nat) :
    RunInfo ι :=
  { r.reset with
    isBatchJob := true, isReplyJob := replyJob, isTaggedThreadJob := decide (0 < taggedThread)
    batchJobno := bj.2, toRun := .batch (some bj.1) }

/-- `proxy_run_worker`: a new thread starts inside its job, a waiting one is
sent RUN. -/
def runWorker (r : RunInfo ι) : RunInfo ι :=
  match r.workerThread with
  | none => { r with workerThread := some { pc := .executing } }
  | some t => { r with workerThread := some { t with inbox := t.inbox ++ [.run] } }

def task (r : RunInfo ι) : Option (Task ι) :=
  if r.isBatchJob then
    match r.toRun with
    | .batch (some b) => some (.batch (b, r.batchJobno))
    | _ => none
  else r.cat.map (.command · r.serial)

def jobClass (r : RunInfo ι) : Option (JobClass ι) :=
  if r.isBatchJob then some (if r.isReplyJob then .reply else .batch) else r.cat.map .category

def inFlight (r : RunInfo ι) : Nat := r.workerThread.elim 0 Thread.inFlight

/-- The message an external command is called with. Only a request writes the
reply tag. -/
def commandMessage (r : RunInfo ι) (m : Message) (c : CommandCallback) : Option Message :=
  let m := { m with conn := r.conn, access := r.access, remote := r.remote }
  if c.isRequest then
    match r.dataParts with
    | [] => none
    | tag :: parts => some { m with replyTag := tag, data := parts }
  else some { m with data := r.dataParts }

/-- The body of the `try` block of `worker_thread`: what is left of the record,
and the thread's message. What is called may throw, and an access to the wrong
alternative of `to_run` does; the exception is caught. A null pointer is followed
nowhere. -/
def runTask (r : RunInfo ι) (threw : Bool) (m : Message) : Option (RunInfo ι × Message) :=
  if r.isBatchJob then
    match r.toRun with
    | .batch none => none
    | _ => some (r, m)
  else if r.isInjected then
    match r.toRun with
    | .function f => some ({ r with toRun := .function (if threw then f else none) }, m)
    | _ => some (r, m)
  else
    match r.toRun with
    | .callback none => none
    | .callback (some c) => (r.commandMessage m c).map ({ r with remote := [] }, ·)
    | _ => some ({ r with remote := [] },
        { m with conn := r.conn, access := r.access, remote := r.remote, data := [] })

def execute (r : RunInfo ι) (threw : Bool) : Option (RunInfo ι) :=
  match r.workerThread with
  | none => none
  | some t =>
    if t.pc = .executing then
      (r.runTask threw t.message).map fun (r, m) =>
        { r with workerThread := some { t with pc := .sending, message := m } }
    else none

theorem task_loadPending (r : RunInfo ι) (p : PendingCommand ι) :
    (r.loadPending p).task = some (.command p.cat p.serial) := by
  rcases hc : p.callback with c | f
  · simp [loadPending, hc, loadCommand, task, reset]
  · simp [loadPending, hc, loadInjected, task, reset]

theorem jobClass_loadPending (r : RunInfo ι) (p : PendingCommand ι) :
    (r.loadPending p).jobClass = some (.category p.cat) := by
  rcases hc : p.callback with c | f
  · simp [loadPending, hc, loadCommand, jobClass, reset]
  · simp [loadPending, hc, loadInjected, jobClass, reset]

theorem toRun_of_task {r : RunInfo ι} {job : BatchJob} (h : r.task = some (.batch job)) :
    r.toRun = .batch (some job.1) := by
  unfold task at h
  split at h
  · split at h
    · rename_i hto
      obtain rfl : (_, r.batchJobno) = job := by simpa using h
      exact hto
    · cases h
  · rcases hc : r.cat with _ | c <;> simp [hc] at h

theorem toRun_loadPending (r : RunInfo ι) (p : PendingCommand ι) (b : Option Nat) :
    (r.loadPending p).toRun ≠ .batch b := by
  rcases hc : p.callback with c | f
  · simp [loadPending, hc, loadCommand]
  · simp [loadPending, hc, loadInjected]

theorem workerThread_loadPending (r : RunInfo ι) (p : PendingCommand ι) :
    (r.loadPending p).workerThread = r.workerThread := by
  rcases hc : p.callback with c | f
  · simp [loadPending, hc, loadCommand, reset]
  · simp [loadPending, hc, loadInjected, reset]

theorem task_loadBatchJob (r : RunInfo ι) (job : BatchJob) (replyJob : Bool) (tagged : Nat) :
    (r.loadBatchJob job replyJob tagged).task = some (.batch job) :=
  rfl

theorem task_runWorker (r : RunInfo ι) : r.runWorker.task = r.task := by
  rcases ht : r.workerThread with _ | t <;> simp [runWorker, ht, task]

theorem isBatchJob_runWorker (r : RunInfo ι) : r.runWorker.isBatchJob = r.isBatchJob := by
  rcases ht : r.workerThread with _ | t <;> simp [runWorker, ht]

theorem toRun_runWorker (r : RunInfo ι) : r.runWorker.toRun = r.toRun := by
  rcases ht : r.workerThread with _ | t <;> simp [runWorker, ht]

theorem jobClass_runWorker (r : RunInfo ι) : r.runWorker.jobClass = r.jobClass := by
  rcases ht : r.workerThread with _ | t <;> simp [runWorker, ht, jobClass]

theorem runTask_eq_some {r r' : RunInfo ι} {threw : Bool} {m m' : Message}
    (h : r.runTask threw m = some (r', m')) :
    ∃ next rem, r' = { r with toRun := next, remote := rem } ∧
      (next = r.toRun ∨ r.isBatchJob = false ∧ next = .function none) := by
  unfold runTask at h
  split at h
  · split at h
    · cases h
    · obtain ⟨rfl, -⟩ := Prod.mk.inj (Option.some.inj h)
      exact ⟨r.toRun, r.remote, rfl, .inl rfl⟩
  · rename_i hb
    split at h
    · split at h
      · rename_i hto
        obtain ⟨rfl, -⟩ := Prod.mk.inj (Option.some.inj h)
        cases threw with
        | false => exact ⟨.function none, r.remote, rfl, .inr ⟨by simpa using hb, rfl⟩⟩
        | true => exact ⟨_, r.remote, rfl, .inl hto.symm⟩
      · obtain ⟨rfl, -⟩ := Prod.mk.inj (Option.some.inj h)
        exact ⟨r.toRun, r.remote, rfl, .inl rfl⟩
    · split at h
      · cases h
      · obtain ⟨_, -, he⟩ := Option.map_eq_some_iff.mp h
        obtain ⟨rfl, -⟩ := Prod.mk.inj he
        exact ⟨r.toRun, [], rfl, .inl rfl⟩
      · obtain ⟨rfl, -⟩ := Prod.mk.inj (Option.some.inj h)
        exact ⟨r.toRun, [], rfl, .inl rfl⟩

/-- Executing a job moves the thread on and leaves alone what the proxy reads
when the worker reports back. -/
theorem execute_eq_some {r r' : RunInfo ι} {threw : Bool} (h : r.execute threw = some r') :
    ∃ t next rem m, r.workerThread = some t ∧ t.pc = .executing ∧
      (next = r.toRun ∨ r.isBatchJob = false ∧ next = .function none) ∧
      r' = { r with toRun := next, remote := rem
                    workerThread := some { t with pc := .sending, message := m } } := by
  unfold execute at h
  rcases ht : r.workerThread with _ | t
  · simp [ht] at h
  · rw [ht] at h
    simp only at h
    split at h
    · rename_i hpc
      obtain ⟨⟨r'', m⟩, hr, rfl⟩ := Option.map_eq_some_iff.mp h
      obtain ⟨next, rem, rfl, hto⟩ := runTask_eq_some hr
      exact ⟨t, next, rem, m, rfl, hpc, hto, rfl⟩
    · cases h

theorem task_of_execute {r r' : RunInfo ι} {threw : Bool} (h : r.execute threw = some r') :
    r'.task = r.task := by
  obtain ⟨t, next, rem, m, -, -, rfl | ⟨hb, -⟩, rfl⟩ := execute_eq_some h
  · rfl
  · simp [task, hb]

theorem jobClass_of_execute {r r' : RunInfo ι} {threw : Bool} (h : r.execute threw = some r') :
    r'.jobClass = r.jobClass := by
  obtain ⟨t, next, rem, m, -, -, -, rfl⟩ := execute_eq_some h
  rfl

end RunInfo

end ArqmaMQ
