import ArqmaMQ.BatchLife
import ArqmaMQ.DispatchLoop
import Mathlib.Data.List.Perm.Subperm

/-! The batch jobs no worker has taken yet, wherever they wait. -/

namespace ArqmaMQ

namespace Jobs

variable {R : Type} {j : Jobs R} {n : Nat}

def size (heap : List (Batch R)) (b : Nat) : Nat := heap[b]?.elim 0 (·.jobs.length)

def jobsOf (heap : List (Batch R)) (b : Nat) : List BatchJob :=
  (List.range (size heap b)).map fun i : Nat => (b, (i : Int))

def queued (j : Jobs R) : List BatchJob := j.batchJobs ++ (j.replyJobs ++ j.taggedQueues.flatten)

def waiting (j : Jobs R) : List BatchJob := j.submitted.flatMap (jobsOf j.heap) ++ j.queued

/-- Threads as they are named by batches and timers that the proxy knows. -/
structure ValidFor (n : Nat) (j : Jobs R) : Prop where
  queues : j.taggedQueues.length = n
  jobs : ∀ batch ∈ j.heap, batch.jobs ≠ [] ∧ ∀ job ∈ batch.jobs, 0 ≤ job.2 ∧ job.2 ≤ n
  completions : ∀ batch ∈ j.heap, -1 ≤ batch.completeInThread ∧ batch.completeInThread ≤ n
  timers : ∀ t ∈ j.timerJobs, -1 ≤ t.2.thread ∧ t.2.thread ≤ n

theorem flatten_modify_perm {α : Type} {l : List (List α)} {i : Nat} (hi : i < l.length) (a : α) :
    (l.modify i (· ++ [a])).flatten.Perm (a :: l.flatten) := by
  induction l generalizing i with
  | nil => simp at hi
  | cons x l ih =>
    cases i with
    | zero => simp [List.perm_middle]
    | succ i =>
      have hperm := (ih (i := i) (by simpa using hi)).append_left x
      simpa using hperm.trans List.perm_middle

theorem flatten_set_perm {α : Type} {l : List (List α)} {i : Nat} {a : α} {rest : List α}
    (hi : l[i]? = some (a :: rest)) : l.flatten.Perm (a :: (l.set i rest).flatten) := by
  induction l generalizing i with
  | nil => simp at hi
  | cons x l ih =>
    cases i with
    | zero =>
      obtain rfl : x = a :: rest := by simpa using hi
      simp
    | succ i =>
      have hperm := (ih (i := i) (by simpa using hi)).append_left x
      simpa using hperm.trans List.perm_middle

/-- A queue that exists. -/
def Queue.Fits (n : Nat) : Queue → Prop
  | .tagged i => i < n
  | _ => True

theorem fits_queueOf {thread : Int} {q : Queue} (hq : Queue.Fits n q) (h : thread ≤ n) :
    Queue.Fits n (queueOf thread q) := by
  unfold queueOf
  split
  · simp only [Queue.Fits]
    omega
  · exact hq

/-- Only the queues differ. -/
def Requeued (j j' : Jobs R) : Prop := ∃ b r t, t.length = j.taggedQueues.length ∧
  j' = { j with batchJobs := b, replyJobs := r, taggedQueues := t }

theorem Requeued.trans {j' j'' : Jobs R} (h : Requeued j j') (h' : Requeued j' j'') :
    Requeued j j'' := by
  obtain ⟨b, r, t, hlen, rfl⟩ := h
  obtain ⟨b', r', t', hlen', rfl⟩ := h'
  exact ⟨b', r', t', hlen'.trans hlen, rfl⟩

theorem requeued_push (j : Jobs R) (q : Queue) (job : BatchJob) : Requeued j (j.push q job) := by
  cases q with
  | batch => exact ⟨_, _, _, rfl, rfl⟩
  | reply => exact ⟨_, _, _, rfl, rfl⟩
  | tagged i => exact ⟨_, _, _, List.length_modify _ _ _, rfl⟩

theorem queued_push (q : Queue) (job : BatchJob) (hq : Queue.Fits j.taggedQueues.length q) :
    (j.push q job).queued.Perm (job :: j.queued) := by
  cases q with
  | batch => simp [queued, push, List.perm_middle]
  | reply =>
    have hperm : (j.batchJobs ++ j.replyJobs ++ job :: j.taggedQueues.flatten).Perm
      (job :: (j.batchJobs ++ j.replyJobs ++ j.taggedQueues.flatten)) := List.perm_middle
    simpa [queued, push] using hperm
  | tagged i =>
    have hperm := (flatten_modify_perm hq job).append_left (j.batchJobs ++ j.replyJobs)
    simpa [queued, push] using hperm.trans List.perm_middle

theorem foldl_push {α : Type} (q : α → Queue) (f : α → BatchJob) (l : List α) (j : Jobs R)
    (hq : ∀ a ∈ l, Queue.Fits j.taggedQueues.length (q a)) :
    Requeued j (l.foldl (fun j a => j.push (q a) (f a)) j) ∧
      (l.foldl (fun j a => j.push (q a) (f a)) j).queued.Perm (l.map f ++ j.queued) := by
  induction l generalizing j with
  | nil => exact ⟨⟨_, _, _, rfl, rfl⟩, .refl _⟩
  | cons a l ih =>
    have hpush := requeued_push j (q a) (f a)
    have hlen : (j.push (q a) (f a)).taggedQueues.length = j.taggedQueues.length := by
      obtain ⟨_, _, t, ht, he⟩ := hpush
      rw [he]
      exact ht
    obtain ⟨hr, hp⟩ := ih (j.push (q a) (f a)) fun x hx => hlen ▸ hq x (List.mem_cons_of_mem _ hx)
    refine ⟨hpush.trans hr, hp.trans ?_⟩
    exact ((queued_push (q a) (f a) (hq a (by simp))).append_left _).trans List.perm_middle

/-- BATCH puts every job of the batch into a queue. -/
theorem queued_proxyBatch {b : Nat} {batch : Batch R} (hb : j.heap[b]? = some batch)
    (hv : j.ValidFor n) :
    Requeued { j with submitted := j.submitted.erase b, batches := j.batches.insert b }
        (j.proxyBatch b batch) ∧
      (j.proxyBatch b batch).queued.Perm (jobsOf j.heap b ++ j.queued) := by
  have hsize : size j.heap b = batch.jobs.length := by simp [size, hb]
  have hjobs := (hv.jobs batch (List.mem_of_getElem? hb)).2
  let j₀ := { j with submitted := j.submitted.erase b, batches := j.batches.insert b }
  cases htagged : batch.taggedThreadJobs with
  | true =>
    have he : j.proxyBatch b batch = batch.threads.zipIdx.foldl
        (fun j a => j.push (queueOf a.1 .batch) (b, (a.2 : Int))) j₀ := by
      simp [proxyBatch, Batch.size, htagged, j₀]
    have hfits : ∀ a ∈ batch.threads.zipIdx,
        Queue.Fits j₀.taggedQueues.length (queueOf a.1 .batch) := by
      rintro ⟨thread, i⟩ hmem
      have hthread : thread ∈ batch.threads := List.fst_mem_of_mem_zipIdx hmem
      obtain ⟨job, hjob, rfl⟩ := List.mem_map.mp hthread
      exact fits_queueOf trivial (hv.queues.symm ▸ (hjobs job hjob).2)
    obtain ⟨hr, hp⟩ := foldl_push _ (fun a => (b, (a.2 : Int))) _ j₀ hfits
    have hmap : batch.threads.zipIdx.map (fun a => (b, (a.2 : Int))) = jobsOf j.heap b := by
      have hsnd := List.zipIdx_map_snd 0 batch.threads
      have hlen : batch.threads.length = batch.jobs.length := List.length_map _
      rw [jobsOf, hsize, ← hlen, List.range_eq_range', ← hsnd, List.map_map]
      rfl
    rw [he]
    exact ⟨hr, by rw [← hmap]; exact hp⟩
  | false =>
    have he : j.proxyBatch b batch = (List.range batch.jobs.length).foldl
        (fun j (i : Nat) => j.push .batch (b, (i : Int))) j₀ := by
      simp [proxyBatch, Batch.size, htagged, j₀]
    obtain ⟨hr, hp⟩ := foldl_push (fun _ : Nat => Queue.batch) (fun i => (b, (i : Int)))
      (List.range batch.jobs.length) j₀ fun _ _ => trivial
    rw [he]
    exact ⟨hr, by rw [jobsOf, hsize]; exact hp⟩

end Jobs

end ArqmaMQ
