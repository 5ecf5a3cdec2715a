import ArqmaMQ.BatchCustody

/-! The batches that squelched timers have under way, and the flags that keep
those timers from starting another. -/

namespace ArqmaMQ

variable {R : Type}

def Closure.timer? : Closure → Option Nat
  | .timerCompletion timerId => some timerId
  | _ => none

namespace Jobs

variable {j j' : Jobs R} {b z n : Nat} {batch batch' : Batch R}
  {held unrun : WorkerRef → Option BatchJob}

/-- The completion function of every batch, and the thread it is for. -/
def completions (j : Jobs R) : List (Option Closure × Int) :=
  j.heap.map fun b => (b.complete, b.completeInThread)

/-- The timer that waits for the batch. -/
def timerOf (j : Jobs R) (b : Nat) : Option Nat :=
  j.completions[b]?.bind fun c => c.1.bind Closure.timer?

def underWay (j : Jobs R) (z : Nat) : Nat := j.batches.countP (j.timerOf · = some z)

/-- A squelched timer that is not run in the proxy has one batch under way while
its flag is set, and none otherwise. -/
structure Squelched (j : Jobs R) : Prop where
  keys : (j.timerJobs.map Prod.fst).Nodup
  inProxy : ∀ c ∈ j.completions, (c.1.bind Closure.timer?).isSome = true → c.2 = -1
  submitted : ∀ b ∈ j.submitted, j.timerOf b = none
  scheduled : ∀ b, .scheduled b ∈ j.log → j.timerOf b = none
  completed : ∀ b rs, .completed b rs ∈ j.log → (j.timerOf b).isSome = true → .deleted b ∈ j.log
  known : ∀ b ∈ j.batches, ∀ z, j.timerOf b = some z →
    ∃ t, (z, t) ∈ j.timerJobs ∧ t.squelch = true ∧ t.thread ≠ -1
  counted : ∀ z t, (z, t) ∈ j.timerJobs → t.squelch = true → t.thread ≠ -1 →
    j.underWay z = if t.running then 1 else 0

theorem completions_set (hb : j.heap[b]? = some batch) (hc : batch'.complete = batch.complete)
    (ht : batch'.completeInThread = batch.completeInThread) :
    completions { j with heap := j.heap.set b batch' } = j.completions := by
  refine List.ext_getElem? fun i => ?_
  rw [completions, List.map_set, hc, ht, completions, List.getElem?_set]
  split
  · rename_i hi
    subst hi
    obtain ⟨hlt, rfl⟩ := List.getElem?_eq_some_iff.mp hb
    simp [hlt]
  · rfl

theorem completions_runJob (j : Jobs R) (b i : Nat) (r : JobResult R) :
    (j.runJob b i r).completions = j.completions := by
  refine List.ext_getElem? fun k => ?_
  simp only [completions, runJob, record, List.getElem?_map, List.getElem?_modify]
  rcases j.heap[k]? with _ | batch
  · rfl
  · by_cases hk : b = k <;> simp [hk, Batch.runJob]

theorem completions_allocate (j : Jobs R) (jobs : List (Closure × Int))
    (comp : Option (Closure × Int)) : (j.allocate jobs comp).completions =
      j.completions ++ [(comp.map Prod.fst, (comp.map Prod.snd).getD 0)] := by
  simp [completions, allocate, Batch.build_eq]

theorem timerOf_allocate (j : Jobs R) (jobs : List (Closure × Int))
    (comp : Option (Closure × Int)) (b : Nat) : (j.allocate jobs comp).timerOf b =
      if b = j.heap.length then comp.bind fun c => c.1.timer? else j.timerOf b := by
  have hlen : j.completions.length = j.heap.length := List.length_map _
  rw [timerOf, completions_allocate]
  split
  · rename_i hb
    subst hb
    rw [← hlen, List.getElem?_concat_length]
    cases comp <;> rfl
  · rename_i hb
    rcases Nat.lt_or_gt_of_ne hb with hlt | hgt
    · rw [List.getElem?_append_left (by omega), timerOf]
    · rw [timerOf, List.getElem?_eq_none (by simp; omega), List.getElem?_eq_none (by omega)]

/-- Only what the invariant speaks of matters. -/
theorem Squelched.congr (h : j.Squelched) (hc : j'.completions = j.completions)
    (hs : j'.submitted = j.submitted) (hb : j'.batches = j.batches)
    (ht : j'.timerJobs = j.timerJobs) (hsched : ∀ b, .scheduled b ∈ j'.log → .scheduled b ∈ j.log)
    (hcompl : ∀ b rs, .completed b rs ∈ j'.log → .completed b rs ∈ j.log)
    (hdel : ∀ b, .deleted b ∈ j.log → .deleted b ∈ j'.log) : j'.Squelched := by
  have htimer : j'.timerOf = j.timerOf := by
    funext b
    rw [timerOf, hc, timerOf]
  have hway : j'.underWay = j.underWay := by
    funext z
    rw [underWay, hb, htimer, underWay]
  refine ⟨ht ▸ h.keys, hc ▸ h.inProxy, ?_, ?_, ?_, ?_, ?_⟩
  · rw [hs, htimer]
    exact h.submitted
  · rw [htimer]
    exact fun b hb => h.scheduled b (hsched b hb)
  · rw [htimer]
    exact fun b rs hmem hsome => hdel b (h.completed b rs (hcompl b rs hmem) hsome)
  · rw [hb, ht, htimer]
    exact h.known
  · rw [ht, hway]
    exact h.counted

theorem Squelched.requeue (h : j.Squelched) (hr : Requeued j j') : j'.Squelched := by
  obtain ⟨_, _, _, -, rfl⟩ := hr
  exact h.congr rfl rfl rfl rfl (fun _ => id) (fun _ _ => id) fun _ => id

/-- A position of the heap that was never used. -/
structure Unborn (j : Jobs R) (b : Nat) : Prop where
  history : ∀ e ∈ j.log, e.batch ≠ b
  submitted : b ∉ j.submitted
  batches : b ∉ j.batches

theorem Batches.unborn_length (h : j.Batches n held unrun) : j.Unborn j.heap.length := by
  obtain ⟨hhist, hsub, hbat, -⟩ := h.unborn j.heap.length (List.getElem?_eq_none (le_refl _))
  refine ⟨fun e he hb => ?_, hsub, hbat⟩
  have hmem : e ∈ j.history j.heap.length := mem_history.mpr ⟨he, hb⟩
  rw [hhist] at hmem
  cases hmem

theorem Squelched.allocate (h : j.Squelched) (hu : j.Unborn j.heap.length)
    (jobs : List (Closure × Int)) (comp : Option (Closure × Int))
    (hcomp : ∀ c ∈ comp, c.1.timer?.isSome = true → c.2 = -1) :
    (j.allocate jobs comp).Squelched := by
  have hold {b : Nat} (hb : b ≠ j.heap.length) : (j.allocate jobs comp).timerOf b = j.timerOf b :=
    (timerOf_allocate j jobs comp b).trans (if_neg hb)
  have hbat {b : Nat} (hb : b ∈ j.batches) : b ≠ j.heap.length := fun he => hu.batches (he ▸ hb)
  have hway (z : Nat) : (j.allocate jobs comp).underWay z = j.underWay z := by
    refine List.countP_congr fun b hb => ?_
    rw [hold (hbat hb)]
  refine ⟨h.keys, ?_, ?_, ?_, ?_, ?_, ?_⟩
  · intro c hc
    rw [completions_allocate] at hc
    rcases List.mem_append.mp hc with hc | hc
    · exact h.inProxy c hc
    · rw [List.mem_singleton.mp hc]
      rcases comp with _ | comp
      · exact fun hsome => (by cases hsome)
      · exact hcomp comp rfl
  · intro b hb
    rw [hold fun he => hu.submitted (he ▸ hb)]
    exact h.submitted b hb
  · intro b hb
    have hne : b ≠ j.heap.length := hu.history _ hb
    rw [hold hne]
    exact h.scheduled b hb
  · intro b rs hb
    have hne : b ≠ j.heap.length := hu.history _ hb
    rw [hold hne]
    exact h.completed b rs hb
  · intro b hb
    rw [hold (hbat hb)]
    exact h.known b hb
  · intro z
    rw [hway]
    exact h.counted z

/-- The proxy takes a batch that no timer waits for. -/
theorem Squelched.own (h : j.Squelched) (hb : j.timerOf b = none) :
    Squelched { j with batches := j.batches.insert b } := by
  have hway (z : Nat) : (j.batches.insert b).countP (j.timerOf · = some z) = j.underWay z := by
    by_cases hmem : b ∈ j.batches
    · rw [List.insert_of_mem hmem, underWay]
    · rw [List.insert_of_not_mem hmem, List.countP_cons, hb, underWay]
      simp
  refine ⟨h.keys, h.inProxy, h.submitted, h.scheduled, h.completed, ?_, ?_⟩
  · intro b' hb' z hz
    rcases List.mem_insert_iff.mp hb' with rfl | hb'
    · cases hb.symm.trans hz
    · exact h.known b' hb' z hz
  · intro z t ht hs hthread
    exact (hway z).trans (h.counted z t ht hs hthread)

theorem Squelched.submit (h : j.Squelched) (hu : j.Unborn j.heap.length)
    (jobs : List (Closure × Int)) {comp : Option (Closure × Int)}
    (hcomp : ∀ c ∈ comp, c.1.timer? = none) : (j.submit jobs comp).Squelched := by
  have hnew := h.allocate hu jobs comp (by
    intro c hc hsome
    rw [hcomp c hc] at hsome
    cases hsome)
  refine ⟨hnew.keys, hnew.inProxy, ?_, hnew.scheduled, hnew.completed, hnew.known, hnew.counted⟩
  intro b hb
  rcases List.mem_append.mp hb with hb | hb
  · exact hnew.submitted b hb
  · rw [List.mem_singleton.mp hb]
    refine (timerOf_allocate j jobs comp _).trans ?_
    rw [if_pos rfl]
    cases comp with
    | none => rfl
    | some c => exact hcomp c rfl

theorem Squelched.proxyBatch (h : j.Squelched) (hv : j.ValidFor n) (hb : b ∈ j.submitted)
    (hheap : j.heap[b]? = some batch) : (j.proxyBatch b batch).Squelched := by
  have hown := h.own (h.submitted b hb)
  have hstart : Squelched
      { j with submitted := j.submitted.erase b, batches := j.batches.insert b } :=
    ⟨hown.keys, hown.inProxy, fun b' hb' => h.submitted b' (List.mem_of_mem_erase hb'),
      hown.scheduled, hown.completed, hown.known, hown.counted⟩
  exact hstart.requeue (queued_proxyBatch hheap hv).1

/-- A batch of the proxy's own that no timer waits for. -/
theorem Squelched.allocateOwn (h : j.Squelched) (hu : j.Unborn j.heap.length)
    (jobs : List (Closure × Int)) :
    Squelched { j.allocate jobs none with batches := j.batches.insert j.heap.length } := by
  have hnew := h.allocate hu jobs none fun c hc => (by cases hc)
  refine hnew.own ?_
  rw [timerOf_allocate, if_pos rfl]
  rfl

theorem Squelched.proxyScheduleReplyJob (h : j.Squelched) (hu : j.Unborn j.heap.length)
    (f : Closure) : (j.proxyScheduleReplyJob f).Squelched :=
  (h.allocateOwn hu [(f, 0)]).requeue (requeued_push _ .reply _)

/-- libzmq gives a new timer an id that no timer had before. -/
theorem Squelched.proxyTimer (h : j.Squelched) (hz : z ∉ j.timerJobs.map Prod.fst) (id : Int)
    (function : Closure) (squelch : Bool) (thread : Int) :
    (j.proxyTimer id function squelch thread z).Squelched := by
  have hkeep : j.timerJobs.filter (·.1 ≠ z) = j.timerJobs := by
    refine List.filter_eq_self.mpr fun x hx => ?_
    have hne : x.1 ≠ z := fun he => hz (List.mem_map.mpr ⟨x, hx, he⟩)
    simpa using hne
  have hjobs : (j.proxyTimer id function squelch thread z).timerJobs =
      j.timerJobs ++ [(z, { function, squelch, running := false, thread })] := by
    rw [Jobs.proxyTimer, hkeep]
  refine ⟨?_, h.inProxy, h.submitted, h.scheduled, h.completed, ?_, ?_⟩
  · rw [hjobs, List.map_append, List.nodup_append]
    refine ⟨h.keys, List.nodup_singleton _, ?_⟩
    rintro x hx y hy rfl
    obtain rfl : x = z := List.mem_singleton.mp hy
    exact hz hx
  · intro b hb z' hz'
    obtain ⟨t, ht, hs⟩ := h.known b hb z' hz'
    refine ⟨t, ?_, hs⟩
    rw [hjobs]
    exact List.mem_append_left _ ht
  · intro z' t ht hs hthread
    rw [hjobs] at ht
    rcases List.mem_append.mp ht with ht | ht
    · exact h.counted z' t ht hs hthread
    · obtain ⟨rfl, rfl⟩ := Prod.mk.inj (List.mem_singleton.mp ht)
      -- a batch that waits for this id would belong to a timer that has it
      refine List.countP_eq_zero.mpr fun b hb hb' => ?_
      obtain ⟨t, ht, -⟩ := h.known b hb _ (of_decide_eq_true hb')
      exact hz (List.mem_map.mpr ⟨_, ht, rfl⟩)

theorem Squelched.proxyTimerDel (h : j.Squelched) (id : Int) : (j.proxyTimerDel id).Squelched := by
  unfold Jobs.proxyTimerDel
  split
  · exact h
  · exact h.congr rfl rfl rfl rfl (fun _ h => h) (fun _ _ h => h) fun _ h => h

theorem mem_setRunning {timerId : Nat} {running : Bool} {t : TimerJob} :
    (z, t) ∈ (j.setRunning timerId running).timerJobs ↔ ∃ t₀, (z, t₀) ∈ j.timerJobs ∧
      t = if z = timerId then { t₀ with running } else t₀ := by
  simp only [setRunning, List.mem_map, Prod.mk.injEq, Prod.exists]
  constructor
  · rintro ⟨z', t₀, hmem, rfl, rfl⟩
    exact ⟨t₀, hmem, rfl⟩
  · rintro ⟨t₀, hmem, rfl⟩
    exact ⟨z, t₀, hmem, rfl, rfl⟩

theorem keys_setRunning (j : Jobs R) (timerId : Nat) (running : Bool) :
    (j.setRunning timerId running).timerJobs.map Prod.fst = j.timerJobs.map Prod.fst := by
  rw [setRunning, List.map_map]
  rfl

/-- The flag of a squelched timer changes together with its batches. -/
theorem Squelched.flag (h : j.Squelched) {t : TimerJob} (ht : (z, t) ∈ j.timerJobs)
    (hs : t.squelch = true ∧ t.thread ≠ -1) (running : Bool) (bs : List Nat)
    {l : List (JobEvent R)} (hbs : ∀ b ∈ bs, b ∈ j.batches ∨ j.timerOf b = some z)
    (hway : bs.countP (j.timerOf · = some z) = if running then 1 else 0)
    (hother : ∀ z', z' ≠ z → bs.countP (j.timerOf · = some z') = j.underWay z')
    (hsched : ∀ b, .scheduled b ∈ l → .scheduled b ∈ j.log)
    (hcompl : ∀ b rs, .completed b rs ∈ l → .completed b rs ∈ j.log ∨ .deleted b ∈ l)
    (hdel : ∀ b, .deleted b ∈ j.log → .deleted b ∈ l) :
    Squelched { j.setRunning z running with batches := bs, log := l } := by
  refine ⟨?_, h.inProxy, h.submitted, fun b hb => h.scheduled b (hsched b hb), ?_, ?_, ?_⟩
  · exact (j.keys_setRunning z running).symm ▸ h.keys
  · intro b rs hb hsome
    rcases hcompl b rs hb with hb | hb
    · exact hdel b (h.completed b rs hb hsome)
    · exact hb
  · intro b hb z' hz'
    obtain ⟨t₀, ht₀, hs₀⟩ : ∃ t₀, (z', t₀) ∈ j.timerJobs ∧ t₀.squelch = true ∧ t₀.thread ≠ -1 := by
      rcases hbs b hb with hb | hb
      · exact h.known b hb z' hz'
      · obtain rfl := Option.some.inj (hb.symm.trans hz')
        exact ⟨t, ht, hs⟩
    refine ⟨_, mem_setRunning.mpr ⟨t₀, ht₀, rfl⟩, ?_⟩
    split <;> exact hs₀
  · intro z' t' ht' hs' hthread'
    obtain ⟨t₀, ht₀, rfl⟩ := mem_setRunning.mp ht'
    by_cases hz : z' = z
    · subst hz
      rw [if_pos rfl]
      exact hway
    · rw [if_neg hz] at hs' hthread' ⊢
      exact (hother z' hz).trans (h.counted z' t₀ ht₀ hs' hthread')

theorem Squelched.queueTimerJob (h : j.Squelched) (hu : j.Unborn j.heap.length) (timerId : Nat) :
    (j.queueTimerJob timerId).Squelched := by
  unfold Jobs.queueTimerJob
  split
  · exact h
  rename_i z t hfind
  obtain rfl : z = timerId := by simpa using List.find?_some hfind
  have ht : (z, t) ∈ j.timerJobs := List.mem_of_find?_eq_some hfind
  split
  · exact h
  rename_i hidle
  split
  · exact h
  rename_i hthread
  dsimp only
  refine Squelched.requeue ?_ (requeued_push _ _ _)
  cases hs : t.squelch with
  | false =>
    simp only [Bool.false_eq_true, if_false]
    exact h.allocateOwn hu [(t.function, t.thread)]
  | true =>
    have hrunning : t.running = false := by simpa [hs] using hidle
    have hnew := h.allocate hu [(t.function, t.thread)] (some (.timerCompletion z, -1))
      fun c hc _ => (by cases hc; rfl)
    have hb : (j.allocate [(t.function, t.thread)] (some (.timerCompletion z, -1))).timerOf
        j.heap.length = some z := by
      rw [timerOf_allocate, if_pos rfl]
      rfl
    have hzero := hnew.counted z t ht hs hthread
    rw [hrunning] at hzero
    replace hzero : j.batches.countP
      ((j.allocate [(t.function, t.thread)] (some (.timerCompletion z, -1))).timerOf · = some z) =
        0 := hzero
    simp only [if_true]
    refine hnew.flag ht ⟨hs, hthread⟩ true (j.batches.insert j.heap.length) ?_ ?_ ?_
      (fun _ => id) (fun _ _ => .inl) fun _ => id
    · intro b hmem
      rcases List.mem_insert_iff.mp hmem with rfl | hmem
      · exact .inr hb
      · exact .inl hmem
    · rw [List.insert_of_not_mem hu.batches, List.countP_cons, hb, hzero]
      simp
    · intro z' hz
      have hne : ¬ some z = some z' := fun he => hz (Option.some.inj he).symm
      rw [List.insert_of_not_mem hu.batches, List.countP_cons, hb, decide_eq_false hne]
      rfl

end Jobs

end ArqmaMQ
