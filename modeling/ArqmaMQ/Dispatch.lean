import ArqmaMQ.Jobs
import ArqmaMQ.Pool
import ArqmaMQ.Transition
import Mathlib.Algebra.BigOperators.Group.Finset.Basic

/-! How the proxy distributes work over its workers: the scheduling part of
`proxy_loop`, with the worker threads running beside it. -/

namespace ArqmaMQ

/-- The settings in force when the proxy starts. -/
structure Config (ι : Type) where
  generalWorkers : Nat
  batchJobsReserved : Int
  replyJobsReserved : Int
  reservedThreads : ι → Nat
  maxQueue : ι → Int
  taggedWorkers : Nat
  generalWorkers_pos : 0 < generalWorkers

namespace Config

variable {ι : Type}

/-- Negative settings stand for the defaults chosen by `proxy_loop`. -/
def reserved (cfg : Config ι) : JobClass ι → Nat
  | .batch => if cfg.batchJobsReserved < 0 then (cfg.generalWorkers + 1) / 2
      else cfg.batchJobsReserved.toNat
  | .reply => if cfg.replyJobsReserved < 0 then (cfg.generalWorkers + 7) / 8
      else cfg.replyJobsReserved.toNat
  | .category c => cfg.reservedThreads c

variable [Fintype ι]

/-- The threads the settings ask for. -/
def threads (cfg : Config ι) : Nat :=
  cfg.generalWorkers + cfg.reserved .batch + cfg.reserved .reply + ∑ c, cfg.reservedThreads c

/-- `max_workers` as computed at startup: an `int` to which `unsigned` numbers are
added, so that it wraps around. -/
@[irreducible] def maxWorkers (cfg : Config ι) : Int := Int.bmod cfg.threads (2 ^ 32)

/-- The room made in `workers`. The proxy does not start with a negative number. -/
def capacity (cfg : Config ι) : Nat := cfg.maxWorkers.toNat

/-- The number of threads does not overflow an `int`. -/
def FitsInt (cfg : Config ι) : Prop := cfg.threads ≤ 2 ^ 31 - 1

instance (cfg : Config ι) : Decidable cfg.FitsInt := inferInstanceAs (Decidable (_ ≤ _))

theorem FitsInt.maxWorkers_eq {cfg : Config ι} (h : cfg.FitsInt) :
    cfg.maxWorkers = cfg.threads := by
  unfold FitsInt at h
  unfold maxWorkers
  exact Int.bmod_eq_of_le (by omega) (by omega)

theorem FitsInt.capacity_eq {cfg : Config ι} (h : cfg.FitsInt) : cfg.capacity = cfg.threads := by
  rw [capacity, h.maxWorkers_eq, Int.toNat_natCast]

end Config

/-- The parts of one round of `proxy_loop`. -/
inductive Phase
  | control | worker | timers | zap | queue | incoming | stopped
  deriving DecidableEq, Repr

structure Dispatch (ι R : Type) where
  cfg : Config ι
  maxWorkers : Nat
  pool : Pool ι
  jobs : Jobs R
  pendingCommands : List (PendingCommand ι) := []
  queued : ι → Int := fun _ => 0
  proxySkipOnePoll : Bool := false
  phase : Phase := .control
  /-- Auxiliary: the accepted commands, in order. -/
  accepted : List (PendingCommand ι) := []

namespace Dispatch

variable {ι R : Type} [DecidableEq ι]

/-- The test every dispatch path makes before it starts a job of a class. -/
def HasSlot (d : Dispatch ι R) (k : JobClass ι) : Prop :=
  d.pool.active k < d.cfg.reserved k ∨ d.pool.activeWorkers < d.cfg.generalWorkers

instance (d : Dispatch ι R) (k : JobClass ι) : Decidable (d.HasSlot k) :=
  inferInstanceAs (Decidable (_ ∨ _))

def startCommand (d : Dispatch ι R) (p : PendingCommand ι) : Dispatch ι R :=
  { d with pool := d.pool.assign (.category p.cat) (·.loadPending p)
           accepted := d.accepted ++ [p] }

def queueCommand (d : Dispatch ι R) (p : PendingCommand ι) : Dispatch ι R :=
  { d with pendingCommands := d.pendingCommands ++ [p]
           queued := Function.update d.queued p.cat (d.queued p.cat + 1)
           accepted := d.accepted ++ [p] }

/-- `proxy_inject_task`, and `proxy_to_worker` once the command is authorised:
start at once, queue, or drop. -/
def proxyCommand (d : Dispatch ι R) (p : PendingCommand ι) : Dispatch ι R :=
  let p := { p with serial := d.accepted.length }
  if d.HasSlot (.category p.cat) then d.startCommand p
  else if 0 ≤ d.cfg.maxQueue p.cat ∧ d.cfg.maxQueue p.cat ≤ d.queued p.cat then d
  else d.queueCommand p

def batchQueue (d : Dispatch ι R) (reply : Bool) : List BatchJob :=
  if reply then d.jobs.replyJobs else d.jobs.batchJobs

def batchClass (ι : Type) (reply : Bool) : JobClass ι := if reply then .reply else .batch

def startBatchJob (d : Dispatch ι R) (reply : Bool) (job : BatchJob) (rest : List BatchJob) :
    Dispatch ι R :=
  { d with
    pool := d.pool.assign (batchClass ι reply) (·.loadBatchJob job reply 0)
    jobs := if reply then { d.jobs with replyJobs := rest } else { d.jobs with batchJobs := rest } }

/-- `proxy_run_batch_jobs` on a queue whose entries are given. -/
def proxyRunBatchJobs (reply : Bool) : List BatchJob → Dispatch ι R → Dispatch ι R
  | [], d => d
  | job :: rest, d =>
    if d.pool.activeWorkers < d.maxWorkers ∧ d.HasSlot (batchClass ι reply) then
      proxyRunBatchJobs reply rest (d.startBatchJob reply job rest)
    else d

def startTagged (d : Dispatch ι R) (i : Nat) : Dispatch ι R :=
  match d.pool.taggedWorkers[i]?, d.jobs.taggedQueues[i]? with
  | some t, some (job :: rest) =>
    if t.busy then d
    else { d with
      pool := d.pool.assignTagged i (·.loadBatchJob job false (i + 1))
      jobs := { d.jobs with taggedQueues := d.jobs.taggedQueues.set i rest } }
  | _, _ => d

def startPending (d : Dispatch ι R) (pre : List (PendingCommand ι)) (p : PendingCommand ι)
    (post : List (PendingCommand ι)) : Dispatch ι R :=
  { d with
    pool := d.pool.assign (.category p.cat) (·.loadPending p)
    pendingCommands := pre ++ post
    queued := Function.update d.queued p.cat (d.queued p.cat - 1) }

/-- The loop over `pending_commands`: `pre` was passed over, the list is to come. -/
def runPending (pre : List (PendingCommand ι)) :
    List (PendingCommand ι) → Dispatch ι R → Dispatch ι R
  | [], d => d
  | p :: post, d =>
    if d.pool.activeWorkers < d.maxWorkers then
      if d.HasSlot (.category p.cat) then runPending pre post (d.startPending pre p post)
      else runPending (pre ++ [p]) post d
    else d

def runTagged (d : Dispatch ι R) : Dispatch ι R :=
  (List.range d.pool.taggedWorkers.length).foldl startTagged d

def proxyProcessQueue (d : Dispatch ι R) : Dispatch ι R :=
  if d.maxWorkers = 0 then d
  else
    let d := d.runTagged
    let d := proxyRunBatchJobs false d.jobs.batchJobs d
    let d := proxyRunBatchJobs true d.jobs.replyJobs d
    runPending [] d.pendingCommands d

def decActive (p : Pool ι) (k : JobClass ι) : Pool ι :=
  { p with active := Function.update p.active k (p.active k - 1) }

/-- The bookkeeping of RAN: the busy flag of a tagged worker or the counter of
the job's class. -/
def finishActive (p : Pool ι) (w : WorkerRef) (r : RunInfo ι) : Option (Pool ι) :=
  if r.isBatchJob then
    match w with
    | .tagged i => some (p.setBusy i false)
    | .general _ => some (decActive p (batchClass ι r.isReplyJob))
  else r.cat.map fun c => decActive p (.category c)

/-- RAN for a batch job: the batch may be done with, and is then deleted. -/
def finishBatch (d : Dispatch ι R) (w : WorkerRef) (r : RunInfo ι) (b : Nat) : Dispatch ι R :=
  let (jobs, clear) := d.jobs.jobRan (b, r.batchJobno) r.isReplyJob
  if clear then { d with pool := d.pool.clearToRun w, jobs := jobs.clear b } else { d with jobs }

def releaseWorker (d : Dispatch ι R) (w : WorkerRef) : Dispatch ι R :=
  { d with pool := d.pool.release (d.maxWorkers = 0) w }

/-- RAN from a worker. A null batch pointer would be followed, and another
alternative of `to_run` would throw in the proxy thread. -/
def workerRan (d : Dispatch ι R) (w : WorkerRef) (r : RunInfo ι) : Option (Dispatch ι R) := do
  let pool ← finishActive d.pool w r
  let d := { d with pool := pool.record (.ran w r.task) }
  if r.isBatchJob then
    match r.toRun with
    | .batch (some b) => some ((d.finishBatch w r b).releaseWorker w)
    | _ => none
  else some (d.releaseWorker w)

/-- The next message from a worker, which the thread put into its outbox. -/
def takeReply (p : Pool ι) (w : WorkerRef) : Option (WorkerReply × Pool ι) := do
  let t ← (← p.run? w).workerThread
  match t.outbox with
  | [] => none
  | m :: rest => some (m, p.modifyRun w fun r =>
      { r with workerThread := some { t with outbox := rest } })

def proxyWorkerMessage (d : Dispatch ι R) (w : WorkerRef) : Option (Dispatch ι R) := do
  let (m, pool) ← takeReply d.pool w
  let r ← pool.run? w
  match m with
  | .ran => workerRan { d with pool } w r
  | .quitting => some { d with pool := pool.modifyRun w fun r => { r with workerThread := none } }

/-- The workers QUIT finds free. -/
def freeWorkers (p : Pool ι) : List WorkerRef :=
  p.idleWorkers.map .general ++ ((List.range p.taggedWorkers.length).filter fun i =>
    p.taggedWorkers[i]?.any fun t => !t.busy).map .tagged

/-- QUIT: free workers are told to quit now, busy ones when they come back. -/
def quit (d : Dispatch ι R) : Dispatch ι R :=
  { d with
    maxWorkers := 0
    pool := (freeWorkers d.pool).foldl Pool.sendQuit { d.pool with idleWorkers := [] } }

def joinable (d : Dispatch ι R) : Bool :=
  d.pool.workers.any (·.workerThread.isSome) || d.pool.taggedWorkers.any (·.run.workerThread.isSome)

/-- The worker thread runs the job it was loaded with; `r` is what the job returns
or throws. -/
def execute (d : Dispatch ι R) (w : WorkerRef) (r : JobResult R) : Option (Dispatch ι R) := do
  let run ← d.pool.run? w
  let pool ← d.pool.execute w r.threw
  match run.isBatchJob, run.toRun with
  | true, .batch (some b) =>
    if 0 ≤ run.batchJobno then
      some { d with pool, jobs := d.jobs.runJob b run.batchJobno.toNat r }
    else if run.batchJobno = -1 then some { d with pool, jobs := d.jobs.jobCompletion b }
    else some { d with pool }
  | _, _ => some { d with pool }

end Dispatch

end ArqmaMQ
