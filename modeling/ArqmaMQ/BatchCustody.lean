import ArqmaMQ.BatchQueues
import ArqmaMQ.BatchView
import ArqmaMQ.Custody

/-! Where the jobs of all batches are. Every job waits in one queue or is held by
one worker, and what a worker does with its job takes the batch one step further
in its life. -/

namespace ArqmaMQ

variable {R : Type}

open Custody (Live)

namespace Jobs

variable {j j' : Jobs R} {n b : Nat} {batch batch' : Batch R}
  {held unrun held' unrun' : WorkerRef → Option BatchJob}

def view (j : Jobs R) (held unrun : WorkerRef → Option BatchJob) (b : Nat) (batch : Batch R) :
    View R where
  batch
  history := j.history b
  live k := Live j.waiting held (b, k)
  unrun k := Live j.waiting unrun (b, k)
  owned := b ∈ j.batches
  submitted := b ∈ j.submitted

theorem view_ok {v : View R} (hok : v.Ok) (hb : v.batch = batch) (hh : j.history b = v.history)
    (hl : ∀ k, Live j.waiting held (b, k) ↔ v.live k)
    (hu : ∀ k, Live j.waiting unrun (b, k) ↔ v.unrun k) (ho : b ∈ j.batches ↔ v.owned)
    (hs : b ∈ j.submitted ↔ v.submitted) : (j.view held unrun b batch).Ok := by
  simp only [view, ← hb, hh, hl, hu, ho, hs]
  exact hok

/-- The batches while workers hold the given jobs, some of which have not run. -/
structure Batches (n : Nat) (j : Jobs R) (held unrun : WorkerRef → Option BatchJob) : Prop where
  valid : j.ValidFor n
  custody : Custody j.waiting held
  le : ∀ w t, unrun w = some t → held w = some t
  submitted_nodup : j.submitted.Nodup
  batches_nodup : j.batches.Nodup
  views : ∀ b batch, j.heap[b]? = some batch → (j.view held unrun b batch).Ok
  unborn : ∀ b, j.heap[b]? = none → j.history b = [] ∧ b ∉ j.submitted ∧ b ∉ j.batches ∧
    ∀ k, ¬ Live j.waiting held (b, k)

theorem Batches.unrun_le (h : j.Batches n held unrun) (b : Nat) (k : Int)
    (hk : Live j.waiting unrun (b, k)) : Live j.waiting held (b, k) :=
  Custody.live_mono h.le hk

theorem ValidFor.requeue (hv : j.ValidFor n) (hr : Requeued j j') : j'.ValidFor n := by
  obtain ⟨b, r, t, hlen, rfl⟩ := hr
  exact ⟨hlen.trans hv.queues, hv.jobs, hv.completions, hv.timers⟩

/-- Jobs change hands without getting lost. -/
theorem Batches.requeue (h : j.Batches n held unrun) (hr : Requeued j j')
    (hcustody : Custody j'.waiting held') (hle : ∀ w t, unrun' w = some t → held' w = some t)
    (hlive : ∀ x, Live j'.waiting held' x ↔ Live j.waiting held x)
    (hunrun : ∀ x, Live j'.waiting unrun' x ↔ Live j.waiting unrun x) :
    j'.Batches n held' unrun' := by
  have hv := h.valid.requeue hr
  obtain ⟨b, r, t, hlen, rfl⟩ := hr
  refine ⟨hv, hcustody, hle, h.submitted_nodup, h.batches_nodup, ?_, ?_⟩
  · intro b batch hb
    have hview := h.views b batch hb
    simp only [view, hlive, hunrun]
    exact hview
  · intro b hb
    obtain ⟨hhist, hsub, hbat, hdead⟩ := h.unborn b hb
    exact ⟨hhist, hsub, hbat, fun k => by rw [hlive]; exact hdead k⟩

/-- A free worker takes a waiting job. -/
theorem Batches.take (h : j.Batches n held unrun) (hr : Requeued j j') {job : BatchJob}
    (hperm : j.queued.Perm (job :: j'.queued)) {w : WorkerRef} (hw : held w = none)
    (hu : unrun w = none) : j'.Batches n (Function.update held w (some job))
      (Function.update unrun w (some job)) := by
  have hwait : j.waiting.Perm (job :: j'.waiting) := by
    obtain ⟨b, r, t, hlen, rfl⟩ := hr
    exact (hperm.append_left _).trans List.perm_middle
  refine h.requeue hr (h.custody.perm hwait).take ?_ ?_ ?_
  · intro w' t ht
    by_cases he : w' = w
    · rw [he, Function.update_self] at ht ⊢
      exact ht
    · rw [Function.update_of_ne he] at ht ⊢
      exact h.le w' t ht
  · intro x
    rw [Custody.live_take hw, Custody.live_perm hwait]
  · intro x
    rw [Custody.live_take hu, Custody.live_perm hwait]

/-- Only batch `b` was worked on, which now reads `batch`. -/
structure Touched (b : Nat) (batch : Batch R) (j j' : Jobs R) : Prop where
  heap : j'.heap = j.heap.set b batch
  submitted : j'.submitted = j.submitted
  queues : j'.taggedQueues.length = j.taggedQueues.length
  timers : ∀ t ∈ j'.timerJobs, ∃ t₀ ∈ j.timerJobs, t.2.thread = t₀.2.thread
  batches_nodup : j.batches.Nodup → j'.batches.Nodup
  batches : ∀ b', b ≠ b' → (b' ∈ j'.batches ↔ b' ∈ j.batches)
  history : ∀ b', b ≠ b' → j'.history b' = j.history b'

theorem Touched.trans {j'' : Jobs R} (h : Touched b batch j j') (h' : Touched b batch' j' j'') :
    Touched b batch' j j'' := by
  refine ⟨by rw [h'.heap, h.heap, List.set_set], h'.submitted.trans h.submitted,
    h'.queues.trans h.queues, ?_, fun hn => h'.batches_nodup (h.batches_nodup hn),
    fun b' hb => (h'.batches b' hb).trans (h.batches b' hb),
    fun b' hb => (h'.history b' hb).trans (h.history b' hb)⟩
  intro t ht
  obtain ⟨t₁, ht₁, he₁⟩ := h'.timers t ht
  obtain ⟨t₀, ht₀, he₀⟩ := h.timers t₁ ht₁
  exact ⟨t₀, ht₀, he₁.trans he₀⟩

theorem touched_set (j : Jobs R) (b : Nat) (batch : Batch R) :
    Touched b batch j { j with heap := j.heap.set b batch } :=
  ⟨rfl, rfl, rfl, fun t ht => ⟨t, ht, rfl⟩, id, fun _ _ => Iff.rfl, fun _ _ => rfl⟩

theorem set_self {α : Type} {l : List α} {i : Nat} {a : α} (h : l[i]? = some a) :
    l.set i a = l := by
  obtain ⟨hi, rfl⟩ := List.getElem?_eq_some_iff.mp h
  exact List.set_getElem_self hi

theorem history_record (j : Jobs R) (e : JobEvent R) (b : Nat) :
    (j.record e).history b = j.history b ++ if e.batch = b then [e] else [] := by
  by_cases he : e.batch = b <;> simp [history, record, List.filter_append, he]

theorem history_record_self (j : Jobs R) {e : JobEvent R} (he : e.batch = b) :
    (j.record e).history b = j.history b ++ [e] := by
  rw [history_record, if_pos he]

theorem touched_record {e : JobEvent R} (hb : j.heap[b]? = some batch) (he : e.batch = b) :
    Touched b batch j (j.record e) := by
  refine ⟨(set_self hb).symm, rfl, rfl, fun t ht => ⟨t, ht, rfl⟩, id, fun _ _ => Iff.rfl, ?_⟩
  intro b' hne
  rw [history_record, if_neg (by rwa [he]), List.append_nil]

theorem touched_push (hb : j.heap[b]? = some batch) (q : Queue) (job : BatchJob) :
    Touched b batch j (j.push q job) := by
  obtain ⟨_, _, t, hlen, he⟩ := requeued_push j q job
  rw [he]
  exact ⟨(set_self hb).symm, rfl, hlen, fun t ht => ⟨t, ht, rfl⟩, id, fun _ _ => Iff.rfl,
    fun _ _ => rfl⟩

theorem touched_clear (hb : j.heap[b]? = some batch) : Touched b batch j (j.clear b) := by
  refine ⟨(set_self hb).symm, rfl, rfl, fun t ht => ⟨t, ht, rfl⟩, fun hn => hn.erase b, ?_, ?_⟩
  · intro b' hne
    exact List.mem_erase_of_ne hne.symm
  · intro b' hne
    have hd : (JobEvent.deleted b : JobEvent R).batch ≠ b' := hne
    rw [clear, history_record, if_neg hd, List.append_nil]
    rfl

theorem thread_setRunning (j : Jobs R) (id : Nat) (running : Bool) :
    ∀ t ∈ (j.setRunning id running).timerJobs, ∃ t₀ ∈ j.timerJobs, t.2.thread = t₀.2.thread := by
  intro t ht
  obtain ⟨⟨i, t₀⟩, ht₀, rfl⟩ := List.mem_map.mp ht
  refine ⟨(i, t₀), ht₀, ?_⟩
  by_cases hi : i = id <;> simp [hi]

theorem runClosure_frame (j : Jobs R) (f : Option Closure) :
    ∃ timers, (∀ t ∈ timers, ∃ t₀ ∈ j.timerJobs, t.2.thread = t₀.2.thread) ∧
      f.elim j j.runClosure = { j with timerJobs := timers } := by
  rcases f with _ | f
  · exact ⟨j.timerJobs, fun t ht => ⟨t, ht, rfl⟩, rfl⟩
  · cases f with
    | timerCompletion id => exact ⟨_, j.thread_setRunning id false, rfl⟩
    | _ => exact ⟨j.timerJobs, fun t ht => ⟨t, ht, rfl⟩, rfl⟩

/-- The completion function takes the results; it may also stop a timer. -/
theorem jobCompletion_eq (hb : j.heap[b]? = some batch) :
    ∃ timers, (∀ t ∈ timers, ∃ t₀ ∈ j.timerJobs, t.2.thread = t₀.2.thread) ∧
      j.jobCompletion b = { j with
        heap := j.heap.set b { batch with results := [] }
        log := j.log ++ [.completed b batch.results], timerJobs := timers } := by
  obtain ⟨timers, htimers, he⟩ := runClosure_frame (record { j with
    heap := j.heap.set b { batch with results := [] } } (.completed b batch.results)) batch.complete
  refine ⟨timers, htimers, ?_⟩
  rw [jobCompletion, hb]
  exact he

theorem touched_jobCompletion (hb : j.heap[b]? = some batch) :
    Touched b { batch with results := [] } j (j.jobCompletion b) := by
  obtain ⟨timers, htimers, he⟩ := jobCompletion_eq hb
  rw [he]
  refine ⟨rfl, rfl, rfl, htimers, id, fun _ _ => Iff.rfl, ?_⟩
  intro b' hne
  exact (touched_record (e := .completed b batch.results) hb rfl).history b' hne

theorem history_jobCompletion (hb : j.heap[b]? = some batch) :
    (j.jobCompletion b).history b = j.history b ++ [.completed b batch.results] := by
  obtain ⟨timers, -, he⟩ := jobCompletion_eq hb
  rw [he]
  exact history_record_self j (e := .completed b batch.results) rfl

theorem jobsOf_set {heap : List (Batch R)} (hb : heap[b]? = some batch)
    (hjobs : batch'.jobs = batch.jobs) : jobsOf (heap.set b batch') = jobsOf heap := by
  funext b'
  obtain ⟨hlt, he⟩ := List.getElem?_eq_some_iff.mp hb
  have hsize : size (heap.set b batch') b' = size heap b' := by
    by_cases hne : b = b'
    · subst hne
      simp [size, hlt, hjobs, he]
    · simp [size, hne]
  rw [jobsOf, jobsOf, hsize]

theorem Touched.waiting (h : Touched b batch' j j') (hb : j.heap[b]? = some batch)
    (hjobs : batch'.jobs = batch.jobs) :
    j'.waiting = j.submitted.flatMap (jobsOf j.heap) ++ j'.queued := by
  rw [Jobs.waiting, h.heap, h.submitted, jobsOf_set hb hjobs]

theorem ValidFor.touch (hv : j.ValidFor n) (h : Touched b batch' j j')
    (hb : j.heap[b]? = some batch) (hjobs : batch'.jobs = batch.jobs)
    (hthread : batch'.completeInThread = batch.completeInThread) : j'.ValidFor n := by
  have hmem : batch ∈ j.heap := List.mem_of_getElem? hb
  refine ⟨h.queues.trans hv.queues, ?_, ?_, ?_⟩
  · intro batch₁ h₁
    rw [h.heap] at h₁
    rcases List.mem_or_eq_of_mem_set h₁ with h₁ | rfl
    · exact hv.jobs batch₁ h₁
    · rw [hjobs]
      exact hv.jobs batch hmem
  · intro batch₁ h₁
    rw [h.heap] at h₁
    rcases List.mem_or_eq_of_mem_set h₁ with h₁ | rfl
    · exact hv.completions batch₁ h₁
    · rw [hthread]
      exact hv.completions batch hmem
  · intro t ht
    obtain ⟨t₀, ht₀, he⟩ := h.timers t ht
    rw [he]
    exact hv.timers t₀ ht₀

/-- A step in the life of one batch. -/
theorem Batches.touch (h : j.Batches n held unrun) (ht : Touched b batch' j j')
    (hb : j.heap[b]? = some batch) (hjobs : batch'.jobs = batch.jobs)
    (hthread : batch'.completeInThread = batch.completeInThread)
    (hcustody : Custody j'.waiting held') (hle : ∀ w t, unrun' w = some t → held' w = some t)
    (hlive : ∀ b' k, b ≠ b' → (Live j'.waiting held' (b', k) ↔ Live j.waiting held (b', k)))
    (hunrun : ∀ b' k, b ≠ b' → (Live j'.waiting unrun' (b', k) ↔ Live j.waiting unrun (b', k)))
    (hok : (j'.view held' unrun' b batch').Ok) : j'.Batches n held' unrun' := by
  refine ⟨h.valid.touch ht hb hjobs hthread, hcustody, hle, ht.submitted ▸ h.submitted_nodup,
    ht.batches_nodup h.batches_nodup, ?_, ?_⟩
  · intro b' batch₁ hb'
    rw [ht.heap] at hb'
    by_cases hne : b = b'
    · subst hne
      obtain ⟨hlt, -⟩ := List.getElem?_eq_some_iff.mp hb
      obtain rfl : batch' = batch₁ := by simpa [hlt] using hb'
      exact hok
    · have hview := h.views b' batch₁ (by simpa [hne] using hb')
      have he : j'.view held' unrun' b' batch₁ = j.view held unrun b' batch₁ := by
        simp only [view, ht.history b' hne, hlive b' _ hne, hunrun b' _ hne, ht.batches b' hne,
          ht.submitted]
      rw [he]
      exact hview
  · intro b' hb'
    have hne : b ≠ b' := by
      rintro rfl
      obtain ⟨hlt, -⟩ := List.getElem?_eq_some_iff.mp hb
      simp [ht.heap, hlt] at hb'
    obtain ⟨hhist, hsub, hbat, hdead⟩ := h.unborn b' (by simpa [ht.heap, hne] using hb')
    refine ⟨(ht.history b' hne).trans hhist, ht.submitted ▸ hsub,
      mt (ht.batches b' hne).mp hbat, ?_⟩
    intro k hk
    exact hdead k ((hlive b' k hne).mp hk)

theorem Batches.exists_batch (h : j.Batches n held unrun) {k : Int}
    (hl : Live j.waiting held (b, k)) : ∃ batch, j.heap[b]? = some batch := by
  rcases hb : j.heap[b]? with _ | batch
  · exact absurd hl ((h.unborn b hb).2.2.2 k)
  · exact ⟨batch, rfl⟩

theorem Batches.le_release (h : j.Batches n held unrun) {w : WorkerRef} :
    ∀ w' t, Function.update unrun w none w' = some t → held w' = some t :=
  fun w' t ht => h.le w' t (Custody.update_none_eq_some ht).2

theorem Batches.custody_unrun (h : j.Batches n held unrun) : Custody j.waiting unrun :=
  h.custody.mono h.le

/-- A worker has run a job. -/
theorem Batches.runJob (h : j.Batches n held unrun) {w : WorkerRef} {i : Nat}
    (hw : unrun w = some (b, (i : Int))) (r : JobResult R) :
    (j.runJob b i r).Batches n held (Function.update unrun w none) := by
  have hu : Live j.waiting unrun (b, (i : Int)) := .inr ⟨w, hw⟩
  obtain ⟨batch, hb⟩ := h.exists_batch (h.unrun_le b i hu)
  have hlt : b < j.heap.length := (List.getElem?_eq_some_iff.mp hb).1
  have he : j.runJob b i r =
      record { j with heap := j.heap.set b (batch.runJob i r) } (.executed b i r) := by
    rw [Jobs.runJob, Pool.modify_eq_set hb]
  have ht : Touched b (batch.runJob i r) j (j.runJob b i r) := by
    rw [he]
    exact (touched_set j b _).trans (touched_record (by simp [hlt]) rfl)
  have hwait : (j.runJob b i r).waiting = j.waiting := ht.waiting hb rfl
  have hlive : ∀ x, Live j.waiting (Function.update unrun w none) x ↔
      Live j.waiting unrun x ∧ x ≠ (b, (i : Int)) :=
    fun x => Custody.live_release h.custody_unrun hw
  refine h.touch ht hb rfl rfl (hwait ▸ h.custody) h.le_release ?_ ?_ ?_
  · intro b' k _
    rw [hwait]
  · intro b' k hne
    rw [hwait, hlive]
    simp [Ne.symm hne]
  · have hok := (h.views b batch hb).execute (b := b) (h.unrun_le b) hu r
    refine view_ok hok rfl ?_ ?_ ?_ Iff.rfl Iff.rfl
    · rw [he]
      exact history_record_self _ rfl
    · intro k
      rw [hwait]
      rfl
    · intro k
      rw [hwait, hlive]
      simp [view]

/-- A worker has run a completion function. -/
theorem Batches.jobCompletion (h : j.Batches n held unrun) {w : WorkerRef}
    (hw : unrun w = some (b, -1)) :
    (j.jobCompletion b).Batches n held (Function.update unrun w none) := by
  have hu : Live j.waiting unrun (b, -1) := .inr ⟨w, hw⟩
  obtain ⟨batch, hb⟩ := h.exists_batch (h.unrun_le b (-1) hu)
  have ht := touched_jobCompletion hb
  obtain ⟨timers, -, he⟩ := jobCompletion_eq hb
  have hwait : (j.jobCompletion b).waiting = j.waiting := by
    rw [ht.waiting hb rfl, he]
    rfl
  have hlive : ∀ x, Live j.waiting (Function.update unrun w none) x ↔
      Live j.waiting unrun x ∧ x ≠ (b, -1) :=
    fun x => Custody.live_release h.custody_unrun hw
  refine h.touch ht hb rfl rfl (hwait ▸ h.custody) h.le_release ?_ ?_ ?_
  · intro b' k _
    rw [hwait]
  · intro b' k hne
    rw [hwait, hlive]
    simp [Ne.symm hne]
  · have hok := (h.views b batch hb).complete (b := b) (h.unrun_le b) hu
    refine view_ok hok rfl (history_jobCompletion hb) ?_ ?_ ?_ ?_
    · intro k
      rw [hwait]
      rfl
    · intro k
      rw [hwait, hlive]
      simp [view]
    · rw [he]
      rfl
    · rw [he]
      rfl

/-- The jobs of a batch that has not reached the proxy are all waiting. -/
theorem Batches.not_submitted (h : j.Batches n held unrun) {w : WorkerRef} {k : Int}
    (hw : held w = some (b, k)) : b ∉ j.submitted := by
  intro hs
  have hl : Live j.waiting held (b, k) := .inr ⟨w, hw⟩
  obtain ⟨batch, hb⟩ := h.exists_batch hl
  obtain ⟨s, hat⟩ := h.views b batch hb
  obtain ⟨h0, hlt⟩ := hat.live (hat.submitted hs) k hl
  obtain ⟨i, rfl⟩ := Int.eq_ofNat_of_zero_le h0
  have hi : i < batch.jobs.length := by simpa [view] using hlt
  refine h.custody.disjoint w _ hw (List.mem_append_left _ (List.mem_flatMap.mpr ⟨b, hs, ?_⟩))
  refine List.mem_map.mpr ⟨i, ?_, rfl⟩
  simpa [size, hb] using hi

theorem Batches.not_unrun (h : j.Batches n held unrun) {w : WorkerRef} {job : BatchJob}
    (hw : held w = some job) (hu : unrun w = none) : ¬ Live j.waiting unrun job := by
  rintro (hmem | ⟨w', hw'⟩)
  · exact h.custody.disjoint w job hw hmem
  · obtain rfl := h.custody.unique w' w job (h.le w' job hw') hw
    rw [hu] at hw'
    cases hw'

theorem jobRan_cases (hb : j.heap[b]? = some batch) (hv : j.ValidFor n) {k : Int} (hk : k ≠ -1)
    (reply : Bool) (hb' : batch' = { batch with jobsOutstanding := batch.jobsOutstanding - 1 })
    (hj' : j' = { j with heap := j.heap.set b batch' }) :
    batch.jobsOutstanding - 1 ≠ 0 ∧ j.jobRan (b, k) reply = (j', false) ∨
      batch.jobsOutstanding - 1 = 0 ∧
        (batch.complete.isSome = false ∧ j.jobRan (b, k) reply = (j', true) ∨
          batch.complete.isSome = true ∧ j.jobRan (b, k) reply = (j'.jobCompletion b, true) ∨
          batch.complete.isSome = true ∧ ∃ q, Queue.Fits n q ∧
            j.jobRan (b, k) reply = ((j'.push q (b, -1)).record (.scheduled b), false)) := by
  rw [jobRan, if_neg hk, hb]
  by_cases hlast : batch.jobsOutstanding - 1 = 0
  · refine .inr ⟨hlast, ?_⟩
    cases hc : batch.complete.isSome with
    | false =>
      have hf : batch.jobFinished = ((.done, 0), batch') := by
        simp [Batch.jobFinished, hlast, hc, hb']
      exact .inl ⟨rfl, by simp only [hf, hj']⟩
    | true =>
      have hf : batch.jobFinished = ((.complete, batch.completeInThread), batch') := by
        simp [Batch.jobFinished, hlast, hc, hb']
      by_cases hthread : batch.completeInThread = -1
      · exact .inr (.inl ⟨rfl, by simp only [hf, hj', hthread, if_true]⟩)
      · refine .inr (.inr ⟨rfl,
          queueOf batch.completeInThread (if reply then .reply else .batch), ?_,
          by simp only [hf, hj', if_neg hthread]⟩)
        refine fits_queueOf ?_ (hv.completions batch (List.mem_of_getElem? hb)).2
        cases reply <;> trivial
  · have hf : batch.jobFinished = ((.running, 0), batch') := by
      simp [Batch.jobFinished, hlast, hb']
    exact .inl ⟨hlast, by simp only [hf, hj']⟩

theorem Batches.le_of_free (h : j.Batches n held unrun) {w : WorkerRef} (hu : unrun w = none)
    (w' : WorkerRef) (t : BatchJob) (ht : unrun w' = some t) :
    Function.update held w none w' = some t := by
  have hne : w' ≠ w := by
    rintro rfl
    rw [hu] at ht
    cases ht
  rw [Function.update_of_ne hne]
  exact h.le w' t ht

/-- The worker's job is over, and with it what the queues know stays the same. -/
theorem Batches.letGo (h : j.Batches n held unrun) {w : WorkerRef} {k : Int}
    (hw : held w = some (b, k)) (hu : unrun w = none) (hb : j.heap[b]? = some batch)
    (ht : Touched b batch' j j') (hjobs : batch'.jobs = batch.jobs)
    (hthread : batch'.completeInThread = batch.completeInThread) (hq : j'.queued = j.queued)
    {history : List (JobEvent R)} {owned : Prop} (hh : j'.history b = history)
    (ho : b ∈ j'.batches ↔ owned)
    (hok : View.Ok { j.view held unrun b batch with
      batch := batch', history, live := fun m => Live j.waiting held (b, m) ∧ m ≠ k, owned }) :
    j'.Batches n (Function.update held w none) unrun := by
  have hwait : j'.waiting = j.waiting := by rw [ht.waiting hb hjobs, hq, Jobs.waiting]
  have hlive : ∀ x, Live j.waiting (Function.update held w none) x ↔
      Live j.waiting held x ∧ x ≠ (b, k) := fun x => Custody.live_release h.custody hw
  refine h.touch ht hb hjobs hthread (hwait ▸ h.custody.release) (h.le_of_free hu) ?_ ?_ ?_
  · intro b' m hne
    rw [hwait, hlive]
    simp [Ne.symm hne]
  · intro b' m _
    rw [hwait]
  · refine view_ok hok rfl hh ?_ ?_ ho (by rw [ht.submitted]; rfl)
    · intro m
      rw [hwait, hlive]
      simp
    · intro m
      rw [hwait]
      rfl

theorem not_mem_clear (hn : j.batches.Nodup) : b ∉ (j.clear b).batches :=
  fun hmem => (List.Nodup.mem_erase_iff hn).mp hmem |>.1 rfl

theorem history_clear (j : Jobs R) (b : Nat) :
    (j.clear b).history b = j.history b ++ [.deleted b] :=
  history_record_self { j with batches := j.batches.erase b } rfl

/-- RAN for a completion function. -/
theorem Batches.ranCompletion (h : j.Batches n held unrun) {w : WorkerRef}
    (hw : held w = some (b, -1)) (hu : unrun w = none) :
    (j.clear b).Batches n (Function.update held w none) unrun := by
  have hl : Live j.waiting held (b, -1) := .inr ⟨w, hw⟩
  obtain ⟨batch, hb⟩ := h.exists_batch hl
  have hok := (h.views b batch hb).ranCompletion (b := b) hl (h.not_unrun hw hu)
  exact h.letGo hw hu hb (touched_clear hb) rfl rfl rfl (history_clear j b)
    (iff_of_false (not_mem_clear h.batches_nodup) id) hok

/-- RAN for the last job, after which the completion function waits for a worker. -/
theorem Batches.ranSchedule (h : j.Batches n held unrun) {w : WorkerRef} {i : Nat}
    (hw : held w = some (b, (i : Int))) (hu : unrun w = none) (hb : j.heap[b]? = some batch)
    (hb' : batch' = { batch with jobsOutstanding := batch.jobsOutstanding - 1 })
    (hj' : j' = { j with heap := j.heap.set b batch' }) (hlast : batch.jobsOutstanding - 1 = 0)
    (hc : batch.complete.isSome = true) {q : Queue} (hq : Queue.Fits j.taggedQueues.length q) :
    ((j'.push q (b, -1)).record (.scheduled b)).Batches n (Function.update held w none) unrun := by
  have hl : Live j.waiting held (b, (i : Int)) := .inr ⟨w, hw⟩
  have hlt : b < j.heap.length := (List.getElem?_eq_some_iff.mp hb).1
  have hheap : j'.heap[b]? = some batch' := by simp [hj', hlt]
  have hjobs : batch'.jobs = batch.jobs := by rw [hb']
  obtain ⟨_, _, t, -, hpush⟩ := requeued_push j' q (b, -1)
  have hheap' : (j'.push q (b, -1)).heap[b]? = some batch' := by rw [hpush]; exact hheap
  have ht : Touched b batch' j ((j'.push q (b, -1)).record (.scheduled b)) :=
    ((hj' ▸ touched_set j b batch').trans (touched_push hheap q (b, -1))).trans
      (touched_record hheap' rfl)
  have hqueued : ((j'.push q (b, -1)).record (.scheduled b)).queued.Perm ((b, -1) :: j.queued) := by
    have hp := queued_push (j := j') q (b, -1) (by rw [hj']; exact hq)
    rw [show j'.queued = j.queued by rw [hj']; rfl] at hp
    exact hp
  have hwait : ((b, -1) :: j.waiting).Perm
      ((j'.push q (b, -1)).record (.scheduled b)).waiting := by
    rw [ht.waiting hb hjobs]
    exact ((hqueued.append_left _).trans List.perm_middle).symm
  have hfresh : ¬ Live j.waiting held (b, -1) := by
    intro hc
    obtain ⟨s, hat⟩ := h.views b batch hb
    have := (hat.live (hat.running_of_live hl) (-1) hc).1
    omega
  have hlive : ∀ x, Live ((j'.push q (b, -1)).record (.scheduled b)).waiting
      (Function.update held w none) x ↔
        x = (b, -1) ∨ Live j.waiting held x ∧ x ≠ (b, (i : Int)) := by
    intro x
    rw [Custody.live_perm hwait, ← List.singleton_append, Custody.live_append,
      Custody.live_release h.custody hw, List.mem_singleton]
  have hunrun : ∀ x, Live ((j'.push q (b, -1)).record (.scheduled b)).waiting unrun x ↔
      x = (b, -1) ∨ Live j.waiting unrun x := by
    intro x
    rw [Custody.live_perm hwait, ← List.singleton_append, Custody.live_append, List.mem_singleton]
  have hcustody : Custody ([(b, -1)] ++ j.waiting) (Function.update held w none) := by
    refine h.custody.release.append (List.nodup_singleton _) ?_
    intro t ht
    rw [List.mem_singleton.mp ht, Custody.live_release h.custody hw]
    exact fun hc => hfresh hc.1
  refine h.touch ht hb hjobs (by rw [hb']) (hcustody.perm hwait) (h.le_of_free hu) ?_ ?_ ?_
  · intro b' k hne
    rw [hlive]
    simp [Ne.symm hne]
  · intro b' k hne
    rw [hunrun]
    simp [Ne.symm hne]
  · have hok := (h.views b batch hb).ranSchedule (b := b) (h.unrun_le b) hl (h.not_unrun hw hu)
      (h.not_submitted hw) hlast hc
    refine view_ok hok hb'.symm ?_ ?_ ?_ ?_ ?_
    · have hrec := history_record_self (b := b) (j'.push q (b, -1)) (e := .scheduled b) rfl
      rw [hrec, hpush, hj']
      rfl
    · intro k
      rw [hlive]
      simp [view, or_comm]
    · intro k
      rw [hunrun]
      simp [view, or_comm]
    · rw [hpush, hj']
      rfl
    · rw [hpush, hj']
      rfl

/-- RAN for a job whose batch is then done with, or has others outstanding. -/
theorem Batches.ranJob (h : j.Batches n held unrun) {w : WorkerRef} {k : Int} (hk : k ≠ -1)
    (hw : held w = some (b, k)) (hu : unrun w = none) (reply : Bool) :
    (if (j.jobRan (b, k) reply).2 then (j.jobRan (b, k) reply).1.clear b
      else (j.jobRan (b, k) reply).1).Batches n (Function.update held w none) unrun := by
  have hl : Live j.waiting held (b, k) := .inr ⟨w, hw⟩
  have hnu := h.not_unrun hw hu
  have hns := h.not_submitted hw
  obtain ⟨batch, hb⟩ := h.exists_batch hl
  have hlt : b < j.heap.length := (List.getElem?_eq_some_iff.mp hb).1
  have hview := h.views b batch hb
  obtain ⟨i, rfl⟩ : ∃ i : Nat, k = i := by
    obtain ⟨s, hat⟩ := hview
    exact hat.exists_nat_of_live hl hk
  obtain ⟨batch', hb'⟩ : ∃ batch', batch' =
    { batch with jobsOutstanding := batch.jobsOutstanding - 1 } := ⟨_, rfl⟩
  obtain ⟨j', hj'⟩ : ∃ j', j' = { j with heap := j.heap.set b batch' } := ⟨_, rfl⟩
  have ht : Touched b batch' j j' := hj' ▸ touched_set j b batch'
  have hheap : j'.heap[b]? = some batch' := by simp [hj', hlt]
  have hjobs : batch'.jobs = batch.jobs := by rw [hb']
  have hthread : batch'.completeInThread = batch.completeInThread := by rw [hb']
  have hq : j'.queued = j.queued := by rw [hj']; rfl
  have hhist : j'.history b = j.history b := by rw [hj']; rfl
  have hbat : j'.batches = j.batches := by rw [hj']
  rcases jobRan_cases hb h.valid hk reply hb' hj' with
    ⟨hmore, he⟩ | ⟨hlast, ⟨hc, he⟩ | ⟨hc, he⟩ | ⟨hc, q, hfit, he⟩⟩
  · rw [he]
    have hok := hview.ranRunning hl hmore
    have hown : b ∈ j'.batches ↔ b ∈ j.batches := by rw [hbat]
    exact h.letGo hw hu hb ht hjobs hthread hq hhist hown (hb' ▸ hok)
  · rw [he]
    have hok := hview.ranDone (b := b) (h.unrun_le b) hl hnu hns hlast hc
    have hdel := (history_clear j' b).trans (congrArg (· ++ [.deleted b]) hhist)
    exact h.letGo hw hu hb (ht.trans (touched_clear hheap)) hjobs hthread hq hdel
      (iff_of_false (not_mem_clear (hbat ▸ h.batches_nodup)) id) (hb' ▸ hok)
  · rw [he]
    have hok := hview.ranProxy (b := b) (h.unrun_le b) hl hnu hns hlast hc
    obtain ⟨timers, -, hcompl⟩ := jobCompletion_eq hheap
    have hheap' : (j'.jobCompletion b).heap[b]? = some { batch' with results := [] } := by
      rw [hcompl]
      simp [hj', hlt]
    have hdel : ((j'.jobCompletion b).clear b).history b =
        j.history b ++ [.completed b batch.results] ++ [.deleted b] := by
      rw [history_clear, history_jobCompletion hheap, hhist, hb']
    have hnodup : (j'.jobCompletion b).batches.Nodup := by
      rw [hcompl]
      exact hbat ▸ h.batches_nodup
    have hq' : ((j'.jobCompletion b).clear b).queued = j.queued := by
      rw [hcompl, ← hq]
      rfl
    have ht' := (ht.trans (touched_jobCompletion hheap)).trans (touched_clear hheap')
    exact h.letGo hw hu hb ht' hjobs hthread hq' hdel (iff_of_false (not_mem_clear hnodup) id)
      (hb' ▸ hok)
  · rw [he]
    exact h.ranSchedule hw hu hb hb' hj' hlast hc (h.valid.queues.symm ▸ hfit)

end Jobs

end ArqmaMQ
