import ArqmaMQ.LoadedWorkers

/-! What remains to be done once QUIT has been handled. Every message that is
read, job that is run and report that is sent or handled takes something off. -/

namespace ArqmaMQ

variable {ι R : Type}

/-- The steps that a message or a state of a worker can still cause once it is
to quit. -/
def WorkerCommand.cost : WorkerCommand → Nat
  | .start => 1
  | .run => 6
  | .quit => 2

def WorkerReply.cost : WorkerReply → Nat
  | .ran => 3
  | .quitting => 1

def Pc.cost : Pc → Nat
  | .executing => 5
  | .sending => 4
  | _ => 0

namespace Thread

def remaining (t : Thread) : Nat :=
  (t.inbox.map WorkerCommand.cost).sum + t.pc.cost + (t.outbox.map WorkerReply.cost).sum

theorem remaining_receive {t t' : Thread} (h : t.receive = some t') :
    t'.remaining + 1 ≤ t.remaining := by
  obtain ⟨pc, inbox, outbox, message⟩ := t
  rcases inbox with _ | ⟨c, rest⟩
  · cases pc <;> simp [Thread.receive, waitFor] at h
  · cases pc <;> simp only [Thread.receive, waitFor] at h
    case waitStart | waitRun =>
      cases c <;> simp at h <;> subst h <;>
        simp only [remaining, WorkerCommand.cost, WorkerReply.cost, Pc.cost, List.map_cons,
          List.map_append, List.map_nil, List.sum_cons, List.sum_append, List.sum_nil] <;> omega
    all_goals cases h

theorem remaining_sendRan {t t' : Thread} (h : t.sendRan = some t') :
    t'.remaining + 1 ≤ t.remaining := by
  obtain ⟨hpc, rfl⟩ : t.pc = .sending ∧ _ = t' := by simpa [Thread.sendRan] using h
  simp [remaining, WorkerReply.cost, Pc.cost, hpc]
  omega

end Thread

def RunInfo.remaining (r : RunInfo ι) : Nat := r.workerThread.elim 0 Thread.remaining

namespace Pool

def remaining (p : Pool ι) : Nat :=
  (p.workers.map RunInfo.remaining).sum + (p.taggedWorkers.map (·.run.remaining)).sum

theorem sum_modify {α : Type} (f : α → Nat) (g : α → α) {l : List α} {i : Nat} {a : α}
    (h : l[i]? = some a) : ((l.modify i g).map f).sum + f a = (l.map f).sum + f (g a) := by
  induction l generalizing i with
  | nil => simp at h
  | cons b l ih =>
    cases i with
    | zero =>
      obtain rfl : b = a := by simpa using h
      simp
      omega
    | succ i =>
      have hrest := ih (i := i) (by simpa using h)
      simp
      omega

theorem remaining_modifyRun {p : Pool ι} {w : WorkerRef} {r : RunInfo ι} (hr : p.run? w = some r)
    (f : RunInfo ι → RunInfo ι) :
    (p.modifyRun w f).remaining + r.remaining = p.remaining + (f r).remaining := by
  cases w with
  | general i =>
    have hsum := sum_modify RunInfo.remaining f hr
    simp only [modifyRun, remaining]
    omega
  | tagged i =>
    obtain ⟨t, ht, rfl⟩ := Option.map_eq_some_iff.mp hr
    have hsum := sum_modify (fun t : TaggedWorker ι => t.run.remaining)
      (fun t => { t with run := f t.run }) ht
    simp only [modifyRun, remaining] at hsum ⊢
    omega

theorem remaining_setRun {p : Pool ι} {w : WorkerRef} {r : RunInfo ι} (hr : p.run? w = some r)
    (r' : RunInfo ι) : (p.setRun w r').remaining + r.remaining = p.remaining + r'.remaining :=
  remaining_modifyRun hr fun _ => r'

theorem remaining_setBusy (p : Pool ι) (i : Nat) (b : Bool) :
    (p.setBusy i b).remaining = p.remaining := by
  have hmap : ((p.taggedWorkers.modify i fun t => { t with busy := b }).map (·.run.remaining)) =
      p.taggedWorkers.map (·.run.remaining) := by
    apply List.ext_getElem?
    intro j
    by_cases hj : i = j
    · subst hj
      simp [Function.comp_def]
    · simp [hj]
  simp only [remaining, setBusy, hmap]

theorem remaining_sendQuit {p : Pool ι} {w : WorkerRef} {r : RunInfo ι} {t : Thread}
    (hr : p.run? w = some r) (ht : r.workerThread = some t) :
    (p.sendQuit w).remaining = p.remaining + 2 := by
  have hsum := remaining_modifyRun hr fun r => { r with
    workerThread := r.workerThread.map fun t => { t with inbox := t.inbox ++ [.quit] } }
  have hquit : Thread.remaining { t with inbox := t.inbox ++ [.quit] } = t.remaining + 2 := by
    simp [Thread.remaining, WorkerCommand.cost]
    omega
  simp only [RunInfo.remaining, ht, Option.map_some, Option.elim_some, hquit] at hsum
  simp only [sendQuit]
  omega

theorem remaining_stepThread {p p' : Pool ι} {w : WorkerRef} {f : Thread → Option Thread}
    (h : p.stepThread w f = some p')
    (hf : ∀ t t', f t = some t' → t'.remaining + 1 ≤ t.remaining) :
    p'.remaining + 1 ≤ p.remaining := by
  obtain ⟨r, t, t', hr, ht, ht', rfl⟩ := stepThread_eq_some h
  have hsum := remaining_setRun hr { r with workerThread := some t' }
  have hlt := hf t t' ht'
  simp only [RunInfo.remaining, ht, Option.elim_some] at hsum
  omega

theorem remaining_execute {p p' : Pool ι} {w : WorkerRef} {threw : Bool}
    (h : p.execute w threw = some p') :
    p'.remaining + 1 ≤ p.remaining := by
  obtain ⟨r, r', hr, hr', rfl⟩ := execute_eq_some h
  obtain ⟨t, next, rem, m, ht, hpc, -, rfl⟩ := RunInfo.execute_eq_some hr'
  have hsum := remaining_setRun hr { r with
    toRun := next, remote := rem, workerThread := some { t with pc := .sending, message := m } }
  have hrec (e : WorkerEvent ι) (q : Pool ι) : (q.record e).remaining = q.remaining := rfl
  simp only [RunInfo.remaining, ht, Option.elim_some, Thread.remaining, hpc, Pc.cost] at hsum
  rw [hrec]
  omega

end Pool

/-- What is left to happen once QUIT has been handled: threads read their
messages, run the jobs they have and report, and the proxy reads the reports. -/
def DispatchEvent.winding : DispatchEvent ι R → Bool
  | .workerMessage _ | .receive _ | .execute .. | .sendRan _ => true
  | _ => false

namespace Dispatch

variable [DecidableEq ι] {d d' : Dispatch ι R}

/-- RAN during shutdown: the worker is told to quit, and nothing else happens to
its thread. -/
theorem ran_of_quit (hq : d.maxWorkers = 0) {w : WorkerRef} {r r₁ : RunInfo ι} {t : Thread}
    {rest : List WorkerReply} (hr : d.pool.run? w = some r)
    (hr₁ : r₁ = { r with workerThread := some { t with outbox := rest } })
    (hran : workerRan { d with pool := d.pool.setRun w r₁ } w r₁ = some d') :
    ∃ q r', d'.pool = q.sendQuit w ∧ Pool.Frame d.pool q w ∧ q.run? w = some r' ∧
      r'.workerThread = some { t with outbox := rest } ∧
      q.remaining + r.remaining = d.pool.remaining + r'.remaining := by
  obtain ⟨q, clear, jobs, hfin, rfl, -⟩ := workerRan_eq_some hran
  have hsum := Pool.remaining_setRun hr r₁
  have hthread : r₁.workerThread = some { t with outbox := rest } := by rw [hr₁]
  have hrem : q.remaining = (d.pool.setRun w r₁).remaining := by
    rcases finishActive_eq_some hfin with ⟨i, -, -, rfl⟩ | ⟨k, -, rfl, -⟩
    · exact Pool.remaining_setBusy _ i false
    · rfl
  have hrun : (q.record (.ran w r₁.task)).run? w = some r₁ := by
    rw [Pool.run?_record, Pool.run?_finishActive hfin, Pool.run?_setRun hr]
  have hframe : Pool.Frame d.pool (q.record (.ran w r₁.task)) w :=
    ((Pool.Frame.modifyRun d.pool w _).trans (Pool.Frame.finishActive hfin)).trans
      (Pool.Frame.record q (.ran w r₁.task))
  have hrelease (p : Pool ι) : p.release (decide (d.maxWorkers = 0)) w = p.sendQuit w := by
    simp [Pool.release, hq]
  cases clear with
  | false => exact ⟨_, r₁, hrelease _, hframe, hrun, hthread, hrem ▸ hsum⟩
  | true =>
    have hclear := Pool.remaining_modifyRun hrun fun r => { r with toRun := .batch none }
    refine ⟨_, { r₁ with toRun := .batch none }, hrelease _,
      hframe.trans (Pool.Frame.modifyRun _ w _), ?_, hthread, ?_⟩
    · simp [Pool.clearToRun, Pool.run?_modifyRun, hrun]
    · have hsame : (Pool.clearToRun (q.record (.ran w r₁.task)) w).remaining = q.remaining :=
        Nat.add_right_cancel hclear
      rw [if_pos rfl, hsame, hrem]
      exact hsum

theorem remaining_workerMessage (hq : d.maxWorkers = 0) {w : WorkerRef}
    (h : d.proxyWorkerMessage w = some d') : d'.pool.remaining + 1 ≤ d.pool.remaining := by
  obtain ⟨r, t, rest, hr, ht, ⟨ho, r₁, hr₁, hran⟩ | ⟨ho, rfl⟩⟩ := proxyWorkerMessage_eq_some h
  · obtain ⟨q, r', hpool, -, hr', ht', hsum⟩ := ran_of_quit hq hr hr₁ hran
    have hquit := Pool.remaining_sendQuit hr' ht'
    have hrem : r'.remaining + 3 = r.remaining := by
      simp only [RunInfo.remaining, ht', ht, Option.elim_some, Thread.remaining, ho,
        List.map_cons, List.sum_cons, WorkerReply.cost]
      omega
    rw [hpool, hquit]
    omega
  · have hsum := Pool.remaining_setRun hr { r with workerThread := none }
    have hrem : 1 ≤ r.remaining := by
      simp only [RunInfo.remaining, ht, Option.elim_some, Thread.remaining, ho, List.map_cons,
        List.sum_cons, WorkerReply.cost]
      omega
    have hnone : RunInfo.remaining { r with workerThread := none } = 0 := rfl
    change (d.pool.setRun w { r with workerThread := none }).remaining + 1 ≤ _
    omega

/-- During shutdown the loop only goes round. -/
theorem next_of_quit (hq : d.maxWorkers = 0) (h : d.next = some d') :
    ∃ p skip, d' = { d with phase := p, proxySkipOnePoll := skip } := by
  have hqueue : d.proxyProcessQueue = d := by rw [proxyProcessQueue, if_pos hq]
  unfold next at h
  split at h
  case h_5 => exact ⟨_, _, by rw [← Option.some.inj h, hqueue]⟩
  case h_6 =>
    split at h
    · exact ⟨_, _, (Option.some.inj h).symm⟩
    · exact ⟨_, _, (Option.some.inj h).symm⟩
  case h_7 => cases h
  all_goals exact ⟨_, _, (Option.some.inj h).symm⟩

/-- Winding down uses up what remains, and accepts nothing new. -/
theorem remaining_step (hq : d.maxWorkers = 0) {e : DispatchEvent ι R}
    (he : e.winding = true ∨ e = .next) (h : d.step e = some d') :
    d'.maxWorkers = 0 ∧ d'.accepted = d.accepted ∧
      d'.pool.remaining + (if e.winding then 1 else 0) ≤ d.pool.remaining := by
  cases e with
  | next =>
    obtain ⟨p, skip, rfl⟩ := next_of_quit hq h
    exact ⟨hq, rfl, Nat.le_refl _⟩
  | workerMessage w =>
    obtain ⟨-, hw⟩ : _ ∧ d.proxyWorkerMessage w = some d' := by simpa [step] using h
    have hrem := remaining_workerMessage hq hw
    obtain ⟨pool, jobs, rfl⟩ := workerMessage_frame hw
    exact ⟨hq, rfl, hrem⟩
  | receive w =>
    obtain ⟨pool, hp, rfl⟩ := Option.map_eq_some_iff.mp h
    exact ⟨hq, rfl, Pool.remaining_stepThread hp fun _ _ => Thread.remaining_receive⟩
  | sendRan w =>
    obtain ⟨pool, hp, rfl⟩ := Option.map_eq_some_iff.mp h
    exact ⟨hq, rfl, Pool.remaining_stepThread hp fun _ _ => Thread.remaining_sendRan⟩
  | execute w r =>
    obtain ⟨_, pool, jobs, -, hp, rfl, -⟩ := execute_eq_some h
    exact ⟨hq, rfl, Pool.remaining_execute hp⟩
  | _ => rcases he with he | he <;> cases he

end Dispatch

end ArqmaMQ
