import ArqmaMQ.BatchCustody

/-! Batches that come into being: those a caller submits, and those the proxy
makes for replies and timers. -/

namespace ArqmaMQ

variable {R : Type}

open Custody (Live)

namespace Jobs

variable {j j' : Jobs R} {n b : Nat} {batch : Batch R}
  {held unrun : WorkerRef → Option BatchJob}

/-- The jobs of submitted batches are as before when a batch is allocated. -/
theorem Batches.flatMap_jobsOf (h : j.Batches n held unrun) (batch : Batch R) :
    j.submitted.flatMap (jobsOf (j.heap ++ [batch])) = j.submitted.flatMap (jobsOf j.heap) := by
  apply List.flatMap_congr
  intro b hb
  have hlt : b < j.heap.length := by
    by_contra hge
    exact (h.unborn b (List.getElem?_eq_none_iff.mpr (by omega))).2.1 hb
  rw [jobsOf, jobsOf, size, size, List.getElem?_append_left hlt]

/-- A new batch, all of whose jobs wait. -/
theorem Batches.allocate (h : j.Batches n held unrun) {jobs : List (Closure × Int)}
    {comp : Option (Closure × Int)} (hne : jobs ≠ [])
    (hheap : j'.heap = j.heap ++ [Batch.build jobs comp]) (hlog : j'.log = j.log)
    (hvalid : j'.ValidFor n) (hs : j'.submitted.Nodup) (hb : j'.batches.Nodup)
    (hsub : ∀ b, b ≠ j.heap.length → (b ∈ j'.submitted ↔ b ∈ j.submitted))
    (hbat : ∀ b, b ≠ j.heap.length → (b ∈ j'.batches ↔ b ∈ j.batches))
    (hown : j.heap.length ∈ j'.batches ↔ j.heap.length ∉ j'.submitted)
    (hwait : ((List.range jobs.length).map (fun i : Nat => (j.heap.length, (i : Int))) ++
      j.waiting).Perm j'.waiting) : j'.Batches n held unrun := by
  obtain ⟨hnohist, -, -, hdead⟩ := h.unborn j.heap.length (by simp)
  have hnew : ∀ x : BatchJob,
      x ∈ (List.range jobs.length).map (fun i : Nat => (j.heap.length, (i : Int))) ↔
        x.1 = j.heap.length ∧ 0 ≤ x.2 ∧ x.2 < jobs.length := by
    rintro ⟨b, k⟩
    simp only [List.mem_map, List.mem_range, Prod.mk.injEq]
    refine ⟨?_, ?_⟩
    · rintro ⟨i, hi, rfl, rfl⟩
      exact ⟨rfl, by omega, by omega⟩
    · rintro ⟨rfl, h0, hlt⟩
      exact ⟨k.toNat, by omega, rfl, by omega⟩
  have hlive : ∀ (holder : WorkerRef → Option BatchJob) x, Live j'.waiting holder x ↔
      x.1 = j.heap.length ∧ 0 ≤ x.2 ∧ x.2 < jobs.length ∨ Live j.waiting holder x := by
    intro holder x
    rw [Custody.live_perm hwait, Custody.live_append, hnew]
  refine ⟨hvalid, ?_, h.le, hs, hb, ?_, ?_⟩
  · refine (h.custody.append ?_ ?_).perm hwait
    · refine List.nodup_range.map ?_
      intro i i' hi
      simpa using hi
    · rintro ⟨b, k⟩ hmem
      obtain ⟨rfl, -⟩ := (hnew _).mp hmem
      exact hdead k
  · intro b batch hbatch
    rw [hheap] at hbatch
    by_cases hbn : b = j.heap.length
    · subst hbn
      obtain rfl : Batch.build jobs comp = batch := by simpa using hbatch
      have hnohist' : j'.history j.heap.length = [] := by
        rw [history, hlog]
        exact hnohist
      refine View.Ok.new hne rfl hnohist' ?_ ?_ hown
      · intro k
        change Live j'.waiting held _ ↔ _
        rw [hlive, or_iff_left (hdead k)]
        simp
      · intro k
        change Live j'.waiting unrun _ ↔ Live j'.waiting held _
        rw [hlive, hlive, or_iff_left (hdead k), or_iff_left (mt (h.unrun_le _ k) (hdead k))]
    · have hlt : b < j.heap.length := by
        have := (List.getElem?_eq_some_iff.mp hbatch).1
        rw [List.length_append, List.length_singleton] at this
        omega
      have hold : j.heap[b]? = some batch := by rwa [List.getElem?_append_left hlt] at hbatch
      have hview := h.views b batch hold
      have he : j'.view held unrun b batch = j.view held unrun b batch := by
        have hl : ∀ holder k, Live j'.waiting holder (b, k) ↔ Live j.waiting holder (b, k) :=
          fun holder k => (hlive holder (b, k)).trans (or_iff_right fun hc => hbn hc.1)
        simp only [view, history, hlog, hl, hsub b hbn, hbat b hbn]
      rw [he]
      exact hview
  · intro b hnone
    have hge : j.heap.length < b := by
      have := List.getElem?_eq_none_iff.mp hnone
      rw [hheap, List.length_append] at this
      simp at this
      omega
    obtain ⟨hhist, hnsub, hnbat, hnl⟩ := h.unborn b (List.getElem?_eq_none_iff.mpr (by omega))
    refine ⟨by rw [history, hlog]; exact hhist, mt (hsub b (by omega)).mp hnsub,
      mt (hbat b (by omega)).mp hnbat, ?_⟩
    intro k hk
    rcases (hlive held (b, k)).mp hk with hc | hc
    · have : b = j.heap.length := hc.1
      omega
    · exact hnl k hc

theorem Batches.length_not_mem (h : j.Batches n held unrun) :
    j.heap.length ∉ j.submitted ∧ j.heap.length ∉ j.batches :=
  ⟨(h.unborn _ (by simp)).2.1, (h.unborn _ (by simp)).2.2.1⟩

theorem ValidFor.allocate (hv : j.ValidFor n) {jobs : List (Closure × Int)}
    {comp : Option (Closure × Int)} (hvalid : ValidThreads n jobs comp)
    (hheap : j'.heap = j.heap ++ [Batch.build jobs comp])
    (hqueues : j'.taggedQueues.length = j.taggedQueues.length)
    (htimers : ∀ t ∈ j'.timerJobs, ∃ t₀ ∈ j.timerJobs, t.2.thread = t₀.2.thread) :
    j'.ValidFor n := by
  refine ⟨hqueues.trans hv.queues, ?_, ?_, ?_⟩
  · intro batch hb
    rw [hheap] at hb
    rcases List.mem_append.mp hb with hb | hb
    · exact hv.jobs batch hb
    · rw [List.mem_singleton.mp hb, Batch.build_eq]
      exact ⟨hvalid.ne_nil, hvalid.jobs⟩
  · intro batch hb
    rw [hheap] at hb
    rcases List.mem_append.mp hb with hb | hb
    · exact hv.completions batch hb
    · rw [List.mem_singleton.mp hb, Batch.build_eq]
      cases comp with
      | none => simp
      | some c => exact hvalid.comp c rfl
  · intro t ht
    obtain ⟨t₀, ht₀, he⟩ := htimers t ht
    rw [he]
    exact hv.timers t₀ ht₀

theorem Batches.submit (h : j.Batches n held unrun) {jobs : List (Closure × Int)}
    {comp : Option (Closure × Int)} (hvalid : ValidThreads n jobs comp) :
    (j.submit jobs comp).Batches n held unrun := by
  obtain ⟨hns, hnb⟩ := h.length_not_mem
  refine h.allocate hvalid.ne_nil rfl rfl
    (h.valid.allocate hvalid rfl rfl fun t ht => ⟨t, ht, rfl⟩) ?_ h.batches_nodup ?_
    (fun _ _ => Iff.rfl) ?_ ?_
  · refine List.nodup_append.mpr ⟨h.submitted_nodup, List.nodup_singleton _, ?_⟩
    rintro b hb _ hmem rfl
    rw [List.mem_singleton.mp hmem] at hb
    exact hns hb
  · intro b hb
    simp [Jobs.submit, hb]
  · simpa [Jobs.submit, Jobs.allocate] using hnb
  · have hsize : size (j.heap ++ [Batch.build jobs comp]) j.heap.length = jobs.length := by
      simp [size, Batch.build_eq]
    change List.Perm _ ((j.submitted ++ [j.heap.length]).flatMap
      (jobsOf (j.heap ++ [Batch.build jobs comp])) ++ j.queued)
    rw [List.flatMap_append, h.flatMap_jobsOf, List.flatMap_singleton, jobsOf, hsize, waiting,
      ← List.append_assoc]
    exact List.perm_append_comm.append_right _

/-- A batch with one job that the proxy makes for itself. -/
theorem Batches.own (h : j.Batches n held unrun) {job : Closure × Int}
    {comp : Option (Closure × Int)} (hvalid : ValidThreads n [job] comp) {q : Queue}
    (hq : Queue.Fits n q) {timers : List (Nat × TimerJob)}
    (htimers : ∀ t ∈ timers, ∃ t₀ ∈ j.timerJobs, t.2.thread = t₀.2.thread)
    (hj' : j' = { j with
      heap := j.heap ++ [Batch.build [job] comp], batches := j.batches.insert j.heap.length
      timerJobs := timers }) :
    (j'.push q (j.heap.length, 0)).Batches n held unrun := by
  obtain ⟨hns, hnb⟩ := h.length_not_mem
  have hqueued : (j'.push q (j.heap.length, 0)).queued.Perm ((j.heap.length, 0) :: j.queued) := by
    have hp := queued_push (j := j') q (j.heap.length, 0) (by rw [hj', h.valid.queues]; exact hq)
    rw [show j'.queued = j.queued by rw [hj']; rfl] at hp
    exact hp
  obtain ⟨_, _, t, hlen, he⟩ := requeued_push j' q (j.heap.length, 0)
  have hheap : (j'.push q (j.heap.length, 0)).heap = j.heap ++ [Batch.build [job] comp] := by
    rw [he, hj']
  have hsub : (j'.push q (j.heap.length, 0)).submitted = j.submitted := by rw [he, hj']
  have hbat : (j'.push q (j.heap.length, 0)).batches = j.batches.insert j.heap.length := by
    rw [he, hj']
  refine h.allocate (by simp) hheap (by rw [he, hj']) ?_ (hsub ▸ h.submitted_nodup)
    (hbat ▸ h.batches_nodup.insert) (fun b _ => by rw [hsub]) ?_ ?_ ?_
  · refine h.valid.allocate hvalid hheap ?_ ?_
    · rw [he]
      exact hlen.trans (by rw [hj'])
    · rw [he, hj']
      exact htimers
  · intro b hb
    rw [hbat, List.mem_insert_iff, or_iff_right hb]
  · rw [hbat, hsub]
    exact iff_of_true List.mem_insert_self hns
  · have hwait : (j'.push q (j.heap.length, 0)).waiting =
        j.submitted.flatMap (jobsOf j.heap) ++ (j'.push q (j.heap.length, 0)).queued := by
      rw [waiting, hsub, hheap, h.flatMap_jobsOf]
    rw [hwait]
    exact ((hqueued.append_left _).trans List.perm_middle).symm

theorem Batches.proxyScheduleReplyJob (h : j.Batches n held unrun) (f : Closure) :
    (j.proxyScheduleReplyJob f).Batches n held unrun := by
  have hvalid : ValidThreads n [(f, 0)] none := ⟨by simp, by simp, by simp⟩
  exact h.own hvalid (q := .reply) trivial (fun t ht => ⟨t, ht, rfl⟩) rfl

theorem Batches.queueTimerJob (h : j.Batches n held unrun) (id : Nat) :
    (j.queueTimerJob id).Batches n held unrun := by
  unfold Jobs.queueTimerJob
  split
  · exact h
  · rename_i i t hfind
    obtain ⟨hlow, hhigh⟩ := h.valid.timers (i, t) (List.mem_of_find?_eq_some hfind)
    split
    · exact h
    · split
      · exact h
      · rename_i hthread
        have hthread0 : 0 ≤ t.thread := by
          have : (i, t).2.thread = t.thread := rfl
          omega
        have hfit : Queue.Fits n (queueOf t.thread .batch) := fits_queueOf trivial hhigh
        split
        · have hvalid : ValidThreads n [(t.function, t.thread)] (some (.timerCompletion id, -1)) :=
            ⟨by simp, by simpa using ⟨hthread0, hhigh⟩, by simp⟩
          exact h.own hvalid hfit (j.thread_setRunning id true) rfl
        · have hvalid : ValidThreads n [(t.function, t.thread)] none :=
            ⟨by simp, by simpa using ⟨hthread0, hhigh⟩, by simp⟩
          exact h.own hvalid hfit (fun t ht => ⟨t, ht, rfl⟩) rfl

theorem Batches.proxyTimer (h : j.Batches n held unrun) (id : Int) (function : Closure)
    (squelch : Bool) {thread : Int} (zmqTimerId : Nat) (hthread : -1 ≤ thread ∧ thread ≤ n) :
    (j.proxyTimer id function squelch thread zmqTimerId).Batches n held unrun := by
  refine ⟨⟨h.valid.queues, h.valid.jobs, h.valid.completions, ?_⟩, h.custody, h.le,
    h.submitted_nodup, h.batches_nodup, h.views, h.unborn⟩
  intro t ht
  rcases List.mem_append.mp ht with ht | ht
  · exact h.valid.timers t (List.mem_filter.mp ht).1
  · rw [List.mem_singleton.mp ht]
    exact hthread

theorem Batches.proxyTimerDel (h : j.Batches n held unrun) (id : Int) :
    (j.proxyTimerDel id).Batches n held unrun := by
  unfold Jobs.proxyTimerDel
  split
  · exact h
  · exact ⟨⟨h.valid.queues, h.valid.jobs, h.valid.completions, h.valid.timers⟩, h.custody, h.le,
      h.submitted_nodup, h.batches_nodup, h.views, h.unborn⟩

/-- BATCH: the jobs go from the submitted batch into the queues. -/
theorem Batches.proxyBatch (h : j.Batches n held unrun) (hs : b ∈ j.submitted)
    (hb : j.heap[b]? = some batch) : (j.proxyBatch b batch).Batches n held unrun := by
  obtain ⟨hr, hq⟩ := queued_proxyBatch hb h.valid
  obtain ⟨_, _, t, hlen, he⟩ := hr
  have hwait : (j.proxyBatch b batch).waiting.Perm j.waiting := by
    have hsplit := (List.perm_cons_erase hs).flatMap_right (jobsOf j.heap)
    have hsub : (j.proxyBatch b batch).waiting =
        (j.submitted.erase b).flatMap (jobsOf j.heap) ++ (j.proxyBatch b batch).queued := by
      rw [waiting, he]
    rw [hsub, waiting]
    refine (hq.append_left _).trans (List.Perm.trans ?_ (hsplit.append_right _).symm)
    rw [List.flatMap_cons, ← List.append_assoc]
    exact List.perm_append_comm.append_right _
  have hlive : ∀ (holder : WorkerRef → Option BatchJob) x,
      Live (j.proxyBatch b batch).waiting holder x ↔ Live j.waiting holder x :=
    fun _ _ => Custody.live_perm hwait.symm
  have hsubmitted : (j.proxyBatch b batch).submitted = j.submitted.erase b := by rw [he]
  have hbatches : (j.proxyBatch b batch).batches = j.batches.insert b := by rw [he]
  have hheap : (j.proxyBatch b batch).heap = j.heap := by rw [he]
  have hhist : ∀ b', (j.proxyBatch b batch).history b' = j.history b' := by
    rw [he]
    exact fun _ => rfl
  refine ⟨?_, h.custody.perm hwait.symm, h.le, hsubmitted ▸ h.submitted_nodup.erase b,
    hbatches ▸ h.batches_nodup.insert, ?_, ?_⟩
  · rw [he]
    exact ⟨hlen.trans h.valid.queues, h.valid.jobs, h.valid.completions, h.valid.timers⟩
  · intro b' batch' hb'
    rw [hheap] at hb'
    obtain ⟨s, hat⟩ := h.views b' batch' hb'
    by_cases hbb : b' = b
    · subst hbb
      have hnot : b' ∉ j.submitted.erase b' :=
        fun hmem => ((List.Nodup.mem_erase_iff h.submitted_nodup).mp hmem).1 rfl
      have hview : (j.proxyBatch b' batch).view held unrun b' batch' =
          { j.view held unrun b' batch' with owned := True, submitted := False } := by
        simp only [view, hhist, hlive, hsubmitted, hbatches, List.mem_insert_self, hnot]
      rw [hview]
      exact ⟨s, hat.lived, by simp [hat.submitted hs], by simp, hat.results, hat.unrun, hat.live,
        hat.outstanding, hat.completion, hat.scheduled, hat.completed, hat.deleted⟩
    · have hview : (j.proxyBatch b batch).view held unrun b' batch' =
          j.view held unrun b' batch' := by
        simp only [view, hhist, hlive, hsubmitted, hbatches, List.mem_erase_of_ne hbb,
          List.mem_insert_iff, hbb, false_or]
      rw [hview]
      exact ⟨s, hat⟩
  · intro b' hb'
    rw [hheap] at hb'
    have hbb : b' ≠ b := by
      rintro rfl
      rw [hb] at hb'
      cases hb'
    obtain ⟨hh, hns, hnb, hdead⟩ := h.unborn b' hb'
    refine ⟨(hhist b').trans hh, ?_, ?_, fun k => by rw [hlive]; exact hdead k⟩
    · rwa [hsubmitted, List.mem_erase_of_ne hbb]
    · rw [hbatches, List.mem_insert_iff]
      exact fun hc => hc.elim hbb hnb

end Jobs

end ArqmaMQ
