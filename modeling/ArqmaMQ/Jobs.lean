import ArqmaMQ.Worker

/-! The batches the proxy owns, the queues that refer to their jobs, and the
timers that create them. -/

namespace ArqmaMQ

inductive JobEvent (R : Type)
  | executed (b i : Nat) (r : JobResult R)
  | scheduled (b : Nat)
  | completed (b : Nat) (results : List (Option (JobResult R)))
  | deleted (b : Nat)
  deriving DecidableEq, Repr

/-- `timer_data` -/
structure TimerJob where
  function : Closure
  squelch : Bool
  running : Bool
  thread : Int
  deriving DecidableEq, Repr

inductive Queue
  | batch
  | reply
  | tagged (i : Nat)
  deriving DecidableEq, Repr

structure Jobs (R : Type) where
  /-- Every batch ever allocated; a batch is its position here. -/
  heap : List (Batch R) := []
  /-- Batches whose BATCH message has not reached the proxy. -/
  submitted : List Nat := []
  batches : List Nat := []
  batchJobs : List BatchJob := []
  replyJobs : List BatchJob := []
  /-- The queues of `tagged_workers`. -/
  taggedQueues : List (List BatchJob) := []
  timerJobs : List (Nat × TimerJob) := []
  timerZmqId : List (Int × Nat) := []
  /-- The timers libzmq keeps. -/
  timers : List Nat := []
  /-- Auxiliary: the history of the batches. -/
  log : List (JobEvent R) := []

namespace Jobs

variable {R : Type}

def record (j : Jobs R) (e : JobEvent R) : Jobs R := { j with log := j.log ++ [e] }

def push (j : Jobs R) (q : Queue) (job : BatchJob) : Jobs R :=
  match q with
  | .batch => { j with batchJobs := j.batchJobs ++ [job] }
  | .reply => { j with replyJobs := j.replyJobs ++ [job] }
  | .tagged i => { j with taggedQueues := j.taggedQueues.modify i (· ++ [job]) }

/-- The queue of a thread: `tagged_workers[thread - 1]` if the thread is tagged. -/
def queueOf (thread : Int) (untagged : Queue) : Queue :=
  if 0 < thread then .tagged (thread - 1).toNat else untagged

/-- `new Batch`, filled in by its creator. -/
def allocate (j : Jobs R) (jobs : List (Closure × Int)) (comp : Option (Closure × Int)) : Jobs R :=
  { j with heap := j.heap ++ [Batch.build jobs comp] }

/-- `batch()` and `job()`, which send the new batch to the proxy. -/
def submit (j : Jobs R) (jobs : List (Closure × Int)) (comp : Option (Closure × Int)) : Jobs R :=
  { j.allocate jobs comp with submitted := j.submitted ++ [j.heap.length] }

def proxyBatch (j : Jobs R) (b : Nat) (batch : Batch R) : Jobs R :=
  let (jobs, taggedThreads) := batch.size
  let j := { j with submitted := j.submitted.erase b, batches := j.batches.insert b }
  if taggedThreads then
    (batch.threads.zipIdx).foldl (fun j (thread, i) => j.push (queueOf thread .batch) (b, i)) j
  else (List.range jobs).foldl (fun j (i : Nat) => j.push .batch (b, (i : Int))) j

def proxyScheduleReplyJob (j : Jobs R) (f : Closure) : Jobs R :=
  let b := j.heap.length
  let j := j.allocate [(f, 0)] none
  { j with batches := j.batches.insert b }.push .reply (b, 0)

def proxyTimer (j : Jobs R) (id : Int) (function : Closure) (squelch : Bool) (thread : Int)
    (zmqTimerId : Nat) : Jobs R :=
  { j with
    timers := j.timers ++ [zmqTimerId]
    timerJobs := j.timerJobs.filter (·.1 ≠ zmqTimerId) ++
      [(zmqTimerId, { function, squelch, running := false, thread })]
    timerZmqId := j.timerZmqId.filter (·.1 ≠ id) ++ [(id, zmqTimerId)] }

def proxyTimerDel (j : Jobs R) (id : Int) : Jobs R :=
  match j.timerZmqId.find? (·.1 = id) with
  | none => j
  | some (_, zmqTimerId) =>
    { j with timers := j.timers.erase zmqTimerId
             timerZmqId := j.timerZmqId.filter (·.1 ≠ id) }

def setRunning (j : Jobs R) (timerId : Nat) (running : Bool) : Jobs R :=
  { j with timerJobs := j.timerJobs.map fun (i, t) =>
      (i, if i = timerId then { t with running } else t) }

/-- `_queue_timer_job`. A timer of the proxy thread runs its function at once. -/
def queueTimerJob (j : Jobs R) (timerId : Nat) : Jobs R :=
  match j.timerJobs.find? (·.1 = timerId) with
  | none => j
  | some (_, t) =>
    if t.squelch && t.running then j
    else if t.thread = -1 then j
    else
      let b := j.heap.length
      let j := if t.squelch then
          (j.allocate [(t.function, t.thread)] (some (.timerCompletion timerId, -1))).setRunning
            timerId true
        else j.allocate [(t.function, t.thread)] none
      { j with batches := j.batches.insert b }.push (queueOf t.thread .batch) (b, 0)

/-- What running a completion function changes in the proxy. -/
def runClosure (j : Jobs R) (f : Closure) : Jobs R :=
  match f with
  | .timerCompletion timerId => j.setRunning timerId false
  | _ => j

def runJob (j : Jobs R) (b i : Nat) (r : JobResult R) : Jobs R :=
  { j with heap := j.heap.modify b (·.runJob i r) }.record (.executed b i r)

def jobCompletion (j : Jobs R) (b : Nat) : Jobs R :=
  match j.heap[b]? with
  | none => j
  | some batch =>
    let (results, batch') := batch.jobCompletion
    let j := { j with heap := j.heap.set b batch' }.record (.completed b results)
    batch.complete.elim j j.runClosure

/-- `batches.erase(batch); delete batch;` -/
def clear (j : Jobs R) (b : Nat) : Jobs R :=
  { j with batches := j.batches.erase b }.record (.deleted b)

/-- What RAN does with the batch of the finished job, and whether it clears it. -/
def jobRan (j : Jobs R) (job : BatchJob) (isReplyJob : Bool) : Jobs R × Bool :=
  if job.2 = -1 then (j, true)
  else match j.heap[job.1]? with
    | none => (j, false)
    | some batch =>
      let ((state, thread), batch) := batch.jobFinished
      let j := { j with heap := j.heap.set job.1 batch }
      match state with
      | .running => (j, false)
      | .complete =>
        if thread = -1 then (j.jobCompletion job.1, true)
        else ((j.push (queueOf thread (if isReplyJob then .reply else .batch)) (job.1, -1)).record
          (.scheduled job.1), false)
      | .done => (j, true)

end Jobs

end ArqmaMQ
