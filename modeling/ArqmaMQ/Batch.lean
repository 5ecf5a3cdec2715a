import ArqmaMQ.ConnectionID

/-! Batches of jobs with an optional completion function. -/

namespace ArqmaMQ

/-- The functions the proxy hands to workers: what a caller passed in, or one
of the closures the proxy itself builds around a stored callback. -/
inductive Closure
  | user (f : Nat)
  | reply (callback : Nat) (success : Bool) (data : List Bytes)
  | connectSuccess (callback : Nat) (conn : ConnectionID)
  | connectFailure (callback : Nat) (conn : ConnectionID) (what : Bytes)
  | sendFail (callback : Nat) (error : Option Nat)
  | sendFullQueue (callback : Nat)
  | timerCompletion (timerId : Nat)
  deriving DecidableEq, Repr

inductive JobResult (R : Type)
  | value (v : R)
  | exception (what : Bytes)
  deriving DecidableEq, Repr

def JobResult.threw {R : Type} : JobResult R → Bool
  | .value _ => false
  | .exception _ => true

inductive BatchState
  | running | complete | done
  deriving DecidableEq, Repr

structure Batch (R : Type) where
  jobs : List (Closure × Int) := []
  results : List (Option (JobResult R)) := []
  complete : Option Closure := none
  jobsOutstanding : Nat := 0
  completeInThread : Int := 0
  taggedThreadJobs : Bool := false
  deriving DecidableEq, Repr

namespace Batch

variable {R : Type}

def addJob (b : Batch R) (job : Closure) (threadId : Int) : Batch R :=
  { b with
    jobs := b.jobs ++ [(job, threadId)]
    results := b.results ++ [none]
    jobsOutstanding := b.jobsOutstanding + 1
    taggedThreadJobs := b.taggedThreadJobs || threadId != 0 }

def completion (b : Batch R) (comp : Closure) (thread : Int) : Batch R :=
  { b with complete := some comp, completeInThread := thread }

/-- A batch as its creator leaves it: some `add_job` calls and at most one
`completion` call. -/
def build (jobs : List (Closure × Int)) (comp : Option (Closure × Int)) : Batch R :=
  let b := jobs.foldl (fun b j => b.addJob j.1 j.2) {}
  match comp with
  | none => b
  | some (f, thread) => b.completion f thread

def size (b : Batch R) : Nat × Bool := (b.jobs.length, b.taggedThreadJobs)

def threads (b : Batch R) : List Int := b.jobs.map Prod.snd

/-- `run_job(i)`, where the job returns or throws `r`. -/
def runJob (b : Batch R) (i : Nat) (r : JobResult R) : Batch R :=
  { b with results := b.results.set i (some r) }

def jobFinished (b : Batch R) : (BatchState × Int) × Batch R :=
  let b := { b with jobsOutstanding := b.jobsOutstanding - 1 }
  if b.jobsOutstanding ≠ 0 then ((.running, 0), b)
  else if b.complete.isSome then ((.complete, b.completeInThread), b)
  else ((.done, 0), b)

/-- `job_completion()` moves the results into the completion function. -/
def jobCompletion (b : Batch R) : List (Option (JobResult R)) × Batch R :=
  (b.results, { b with results := [] })

theorem foldl_addJob (jobs : List (Closure × Int)) (b : Batch R) :
    jobs.foldl (fun b j => b.addJob j.1 j.2) b =
      { b with
        jobs := b.jobs ++ jobs
        results := b.results ++ List.replicate jobs.length none
        jobsOutstanding := b.jobsOutstanding + jobs.length
        taggedThreadJobs := b.taggedThreadJobs || jobs.any fun j => j.2 != 0 } := by
  induction jobs generalizing b with
  | nil => simp
  | cons j jobs ih =>
    rw [List.foldl_cons, ih]
    simp [addJob, List.replicate_succ, Bool.or_assoc]
    omega

theorem build_eq (jobs : List (Closure × Int)) (comp : Option (Closure × Int)) :
    (build jobs comp : Batch R) =
      { jobs
        results := List.replicate jobs.length none
        complete := comp.map Prod.fst
        jobsOutstanding := jobs.length
        completeInThread := (comp.map Prod.snd).getD 0
        taggedThreadJobs := jobs.any fun j => j.2 != 0 } := by
  cases comp with
  | none => simp [build, foldl_addJob]
  | some c => simp [build, foldl_addJob, completion]

end Batch

end ArqmaMQ
