import ArqmaMQ.DispatchLoop

/-! The message object of a worker thread, which is reused for every command the
thread runs. -/

namespace ArqmaMQ

variable {ι R : Type}

namespace RunInfo

variable {r r' : RunInfo ι} {m m' : Message}

/-- The callback, if the record holds a command from another node. -/
def external? (r : RunInfo ι) : Option CommandCallback :=
  if r.isBatchJob || r.isInjected then none
  else match r.toRun with
    | .callback c => c
    | _ => none

theorem runTask_of_external {c : CommandCallback} (h : r.external? = some c) (threw : Bool)
    (m : Message) :
    r.runTask threw m = (r.commandMessage m c).map ({ r with remote := [] }, ·) := by
  unfold external? at h
  split at h
  · cases h
  · rename_i hkind
    obtain ⟨hb, hi⟩ : r.isBatchJob = false ∧ r.isInjected = false := by simpa using hkind
    split at h
    · rename_i hto
      simp only [runTask, hb, hi, hto, h, Bool.false_eq_true, if_false]
    · cases h

theorem replyTag_runTask {threw : Bool} (h : r.external? = none)
    (hr : r.runTask threw m = some (r', m')) : m'.replyTag = m.replyTag := by
  unfold runTask at hr
  split at hr
  · split at hr
    · cases hr
    · obtain ⟨-, rfl⟩ := Prod.mk.inj (Option.some.inj hr)
      rfl
  rename_i hb
  split at hr
  · split at hr
    all_goals
      obtain ⟨-, rfl⟩ := Prod.mk.inj (Option.some.inj hr)
      rfl
  rename_i hi
  split at hr
  · cases hr
  · rename_i c hto
    simp [external?, hb, hi, hto] at h
  · obtain ⟨-, rfl⟩ := Prod.mk.inj (Option.some.inj hr)
    rfl

/-- Everything but the reply tag is set anew, and for a request the tag too. -/
theorem commandMessage_eq_iff (r : RunInfo ι) (m m' : Message) (c : CommandCallback) :
    r.commandMessage m c = r.commandMessage m' c ↔
      c.isRequest = true ∨ m.replyTag = m'.replyTag := by
  cases hreq : c.isRequest
  · simp [commandMessage, hreq]
  · rcases hd : r.dataParts with _ | ⟨tag, parts⟩ <;> simp [commandMessage, hreq, hd]

end RunInfo

/-- A job that a thread has run. The callback of a command is given the message
by reference, and may have changed it. -/
structure PastJob (ι : Type) where
  run : RunInfo ι
  threw : Bool := false
  callback : Message → Message := id

namespace PastJob

/-- What one round of `worker_thread` leaves of the message. -/
def after (m : Message) (j : PastJob ι) : Option Message :=
  (j.run.runTask j.threw m).map fun x => if j.run.external?.isSome then j.callback x.2 else x.2

/-- The message as a thread's history leaves it. -/
def messageAfter (jobs : List (PastJob ι)) : Option Message := jobs.foldlM after {}

def leftTag (jobs : List (PastJob ι)) : Option Bytes := (messageAfter jobs).map (·.replyTag)

/-- The message that a command is called with after a history. -/
def passed (jobs : List (PastJob ι)) (r : RunInfo ι) : Option Message :=
  (messageAfter jobs).bind fun m => (r.runTask false m).map Prod.snd

/-- The tag of the request that a job is. -/
def tag? (j : PastJob ι) : Option Bytes :=
  j.run.external?.bind fun c => if c.isRequest then j.run.dataParts.head? else none

/-- The tag of the last request of a history. -/
def lastTag (jobs : List (PastJob ι)) : Bytes := ((jobs.filterMap tag?).getLast?).getD []

/-- No callback meddles with the tag. -/
def TagKept (jobs : List (PastJob ι)) : Prop :=
  ∀ j ∈ jobs, ∀ m, (j.callback m).replyTag = m.replyTag

theorem replyTag_after {m m' : Message} {j : PastJob ι}
    (hj : ∀ m, (j.callback m).replyTag = m.replyTag) (h : j.after m = some m') :
    m'.replyTag = j.tag?.getD m.replyTag := by
  obtain ⟨⟨r, m₁⟩, hrun, rfl⟩ := Option.map_eq_some_iff.mp h
  rcases hc : j.run.external? with _ | c
  · simpa [tag?, hc] using RunInfo.replyTag_runTask hc hrun
  · rw [RunInfo.runTask_of_external hc] at hrun
    obtain ⟨m₂, hm, he⟩ := Option.map_eq_some_iff.mp hrun
    obtain ⟨-, rfl⟩ := Prod.mk.inj he
    simp only [tag?, hc, Option.isSome_some, if_true, hj, Option.bind_some]
    unfold RunInfo.commandMessage at hm
    cases hreq : c.isRequest
    · obtain rfl : _ = m₂ := by simpa [hreq] using hm
      rfl
    · rcases hd : j.run.dataParts with _ | ⟨tag, parts⟩
      · simp [hreq, hd] at hm
      · obtain rfl : _ = m₂ := by simpa [hreq, hd] using hm
        rfl

theorem leftTag_eq {jobs : List (PastJob ι)} (h : (messageAfter jobs).isSome)
    (hj : TagKept jobs) : leftTag jobs = some (lastTag jobs) := by
  induction jobs using List.reverseRecOn with
  | nil => rfl
  | append_singleton jobs j ih =>
    obtain ⟨m', hm'⟩ := Option.isSome_iff_exists.mp h
    rw [messageAfter, List.foldlM_append] at hm'
    obtain ⟨m, hm, hafter⟩ := Option.bind_eq_some_iff.mp hm'
    have hafter : j.after m = some m' := by simpa using hafter
    have hih := ih (by rw [messageAfter, hm]; rfl) fun j hj' => hj j (List.mem_append_left _ hj')
    have htag := replyTag_after (hj j (by simp)) hafter
    have hleft : m.replyTag = lastTag jobs := by
      simpa [leftTag, messageAfter, hm] using hih
    have hlast : leftTag (jobs ++ [j]) = some m'.replyTag := by
      simp [leftTag, messageAfter, List.foldlM_append, hm, hafter]
    rw [hlast, htag, hleft, lastTag, lastTag, List.filterMap_append]
    rcases ht : j.tag? with _ | t <;> simp [ht]

/-- The histories of a thread make a difference to a command exactly when it is
no request and they have left different tags; and then it sees that tag. Unless a
callback meddles with it, the tag left behind is that of the last request. -/
theorem passed_eq_iff {h₁ h₂ : List (PastJob ι)} (hm₁ : (messageAfter h₁).isSome)
    (hm₂ : (messageAfter h₂).isSome) {r : RunInfo ι} {c : CommandCallback}
    (hr : r.external? = some c) :
    (passed h₁ r = passed h₂ r ↔ c.isRequest = true ∨ leftTag h₁ = leftTag h₂) ∧
    (c.isRequest = false → ∃ m, passed h₁ r = some m ∧
      (m.replyTag = [] ↔ leftTag h₁ = some [])) ∧
    (TagKept h₁ → TagKept h₂ →
      (passed h₁ r = passed h₂ r ↔ c.isRequest = true ∨ lastTag h₁ = lastTag h₂) ∧
      (c.isRequest = false → (passed h₁ r).map (·.replyTag) = some (lastTag h₁))) := by
  have hlast₁ := leftTag_eq hm₁
  have hlast₂ := leftTag_eq hm₂
  obtain ⟨m₁, hm₁⟩ := Option.isSome_iff_exists.mp hm₁
  obtain ⟨m₂, hm₂⟩ := Option.isSome_iff_exists.mp hm₂
  have hpassed {h : List (PastJob ι)} {m : Message} (hm : messageAfter h = some m) :
      passed h r = r.commandMessage m c := by
    rw [passed, hm, Option.bind_some, RunInfo.runTask_of_external hr, Option.map_map]
    exact Option.map_id'
  have hmessage (hreq : c.isRequest = false) (m : Message) :
      ∃ m', r.commandMessage m c = some m' ∧ m'.replyTag = m.replyTag := by
    rw [RunInfo.commandMessage, if_neg (by simp [hreq])]
    exact ⟨_, rfl, rfl⟩
  rw [leftTag, hm₁, Option.map_some, Option.some.injEq] at hlast₁
  rw [leftTag, hm₂, Option.map_some, Option.some.injEq] at hlast₂
  rw [hpassed hm₁, hpassed hm₂, leftTag, leftTag, hm₁, hm₂, RunInfo.commandMessage_eq_iff]
  refine ⟨by simp, fun hreq => ?_, fun hkept₁ hkept₂ => ⟨?_, fun hreq => ?_⟩⟩
  · obtain ⟨m, hm, htag⟩ := hmessage hreq m₁
    exact ⟨m, hm, by simp [htag]⟩
  · rw [hlast₁ hkept₁, hlast₂ hkept₂]
  · obtain ⟨m, hm, htag⟩ := hmessage hreq m₁
    rw [hm, Option.map_some, htag, hlast₁ hkept₁]

end PastJob

/-- The message of the record's thread is what some history of jobs leaves. -/
def RunInfo.Lived (r : RunInfo ι) : Prop :=
  ∀ m ∈ r.workerThread.map (·.message), ∃ jobs : List (PastJob ι),
    PastJob.messageAfter jobs = some m

namespace RunInfo

variable {r r' : RunInfo ι}

theorem Lived.congr (h : r.Lived)
    (hm : r'.workerThread.map (·.message) = r.workerThread.map (·.message)) : r'.Lived := by
  rw [Lived, hm]
  exact h

theorem Lived.runWorker (h : r.Lived) : r.runWorker.Lived := by
  rcases ht : r.workerThread with _ | t
  · intro m hm
    obtain rfl : {} = m := by simpa [RunInfo.runWorker, ht] using hm
    exact ⟨[], rfl⟩
  · exact h.congr (by simp [RunInfo.runWorker, ht])

theorem Lived.execute {threw : Bool} (h : r.Lived) (he : r.execute threw = some r') :
    r'.Lived := by
  unfold RunInfo.execute at he
  split at he
  · cases he
  rename_i t ht
  split at he
  · obtain ⟨⟨r₁, m⟩, hrun, rfl⟩ := Option.map_eq_some_iff.mp he
    obtain ⟨jobs, hjobs⟩ := h t.message (by simp [ht])
    rintro m' hm'
    obtain rfl : m = m' := by simpa using hm'
    refine ⟨jobs ++ [{ run := r, threw }], ?_⟩
    rw [PastJob.messageAfter] at hjobs ⊢
    simp [List.foldlM_append, hjobs, PastJob.after, hrun]
  · cases he

end RunInfo

namespace Thread

variable {t t' : Thread}

theorem message_receive (h : t.receive = some t') : t'.message = t.message := by
  have hwait {expect : WorkerCommand} {next : Pc} (h : t.waitFor expect next = some t') :
      t'.message = t.message := by
    unfold waitFor at h
    split at h
    · cases h
    · split_ifs at h
      all_goals
        obtain rfl := Option.some.inj h
        rfl
  unfold receive at h
  split at h
  · exact hwait h
  · exact hwait h
  · cases h

theorem message_sendRan (h : t.sendRan = some t') : t'.message = t.message := by
  obtain ⟨-, rfl⟩ : _ ∧ _ = t' := by simpa [sendRan] using h
  rfl

end Thread

namespace Pool

variable {p p' : Pool ι} {w : WorkerRef}

def Lived (p : Pool ι) : Prop := ∀ w r, p.run? w = some r → r.Lived

theorem Lived.modifyRun (h : p.Lived) (w : WorkerRef) {f : RunInfo ι → RunInfo ι}
    (hf : ∀ r, r.Lived → (f r).Lived) : (p.modifyRun w f).Lived := by
  intro w' r hr
  rw [run?_modifyRun] at hr
  split at hr
  · obtain ⟨r₀, hr₀, rfl⟩ := Option.map_eq_some_iff.mp hr
    exact hf r₀ (h w' r₀ hr₀)
  · exact h w' r hr

theorem Lived.record (h : p.Lived) (e : WorkerEvent ι) : (p.record e).Lived := by
  intro w r hr
  rw [run?_record] at hr
  exact h w r hr

/-- Loading a record and sending its thread RUN. -/
theorem Lived.load (h : p.Lived) (w : WorkerRef) {f : RunInfo ι → RunInfo ι}
    (hf : ∀ r, (f r).workerThread = r.workerThread) : ((p.load w f).proxyRunWorker w).Lived :=
  ((h.modifyRun w fun _ hr => hr.congr (by rw [hf])).record _).modifyRun w fun _ hr => hr.runWorker

theorem Lived.stepThread {f : Thread → Option Thread} (h : p.Lived)
    (hf : ∀ t t', f t = some t' → t'.message = t.message) (hp : p.stepThread w f = some p') :
    p'.Lived := by
  obtain ⟨r, t, t', hr, ht, hft, rfl⟩ := stepThread_eq_some hp
  refine h.modifyRun w fun _ _ => (h w r hr).congr ?_
  simp [ht, hf t t' hft]

theorem Lived.sendQuit (h : p.Lived) (w : WorkerRef) : (p.sendQuit w).Lived := by
  refine h.modifyRun w fun r hr => hr.congr ?_
  rw [Option.map_map]
  rfl

variable [DecidableEq ι]

theorem Lived.assign (h : p.Lived) (k : JobClass ι) {f : RunInfo ι → RunInfo ι}
    (hf : ∀ r, (f r).workerThread = r.workerThread) : (p.assign k f).Lived := by
  have hidle : p.getIdleWorker.2.Lived := by
    unfold getIdleWorker
    split
    · intro w r hr
      rcases w with i | i
      · rcases Nat.lt_or_ge i p.workers.length with hi | hi
        · exact h (.general i) r ((List.getElem?_append_left hi).symm.trans hr)
        · obtain rfl := List.mem_singleton.mp
            (List.mem_of_getElem? ((List.getElem?_append_right hi).symm.trans hr))
          simp [RunInfo.Lived]
      · exact h (.tagged i) r hr
    · exact fun w r hr => h w r (by cases w <;> exact hr)
  exact fun w r hr => hidle.load (.general p.getIdleWorker.1) hf w r (by cases w <;> exact hr)

end Pool

namespace Dispatch

open Pool

variable [DecidableEq ι] {d d' : Dispatch ι R}

theorem lived_workerMessage {w : WorkerRef} (h : d.pool.Lived)
    (hw : d.proxyWorkerMessage w = some d') : d'.pool.Lived := by
  obtain ⟨r, t, rest, hr, ht, ⟨-, r₁, rfl, hran⟩ | ⟨-, rfl⟩⟩ := proxyWorkerMessage_eq_some hw
  · have hset : (d.pool.setRun w { r with workerThread := some { t with outbox := rest } }).Lived :=
      h.modifyRun w fun _ _ => (h w r hr).congr (by simp [ht])
    obtain ⟨q, clear, jobs, hq, rfl, -⟩ := workerRan_eq_some hran
    have hactive : q.Lived := by
      rcases finishActive_eq_some hq with ⟨i, rfl, -, rfl⟩ | ⟨k, -, rfl, -⟩
      · intro w' r' hr'
        rw [run?_setBusy] at hr'
        exact hset w' r' hr'
      · exact fun w' r' hr' => hset w' r' (by cases w' <;> exact hr')
    have hclear : (if clear = true then (q.record (.ran w r.task)).clearToRun w
        else q.record (.ran w r.task)).Lived := by
      split
      · exact (hactive.record _).modifyRun w fun r hr => hr.congr rfl
      · exact hactive.record _
    dsimp only
    unfold Pool.release
    split
    · exact hclear.sendQuit w
    · cases w with
      | general i => exact fun w' r' hr' => hclear w' r' (by cases w' <;> exact hr')
      | tagged i => exact hclear
  · exact h.modifyRun w fun _ _ => by simp [RunInfo.Lived]

theorem lived_move (h : d.pool.Lived) (hm : Move d d') : d'.pool.Lived := by
  cases hm with
  | quit =>
    have hsend : ∀ (ws : List WorkerRef) (p : Pool ι), p.Lived →
        (ws.foldl Pool.sendQuit p).Lived := by
      intro ws
      induction ws with
      | nil => exact fun p hp => hp
      | cons w ws ih => exact fun p hp => ih _ (hp.sendQuit w)
    exact hsend _ _ fun w r hr => h w r (by cases w <;> exact hr)
  | workerMessage w _ hw => exact lived_workerMessage h hw
  | startTagged i _ =>
    unfold startTagged
    split
    · split
      · exact h
      · have hbusy : (d.pool.setBusy i true).Lived := by
          intro w r hr
          rw [run?_setBusy] at hr
          exact h w r hr
        exact hbusy.load (.tagged i) fun _ => rfl
    · exact h
  | startBatchJob reply job rest _ _ _ _ => exact h.assign _ fun _ => rfl
  | startPending pre q post _ _ _ _ _ =>
    exact h.assign _ fun r => RunInfo.workerThread_loadPending r q
  | receive w hr => exact h.stepThread (fun _ _ => Thread.message_receive) hr
  | execute w r he =>
    obtain ⟨run, pool, jobs, -, hp, rfl, -⟩ := execute_eq_some he
    obtain ⟨r, r', hr, hr', rfl⟩ := Pool.execute_eq_some hp
    exact (h.modifyRun w fun _ _ => (h w r hr).execute hr').record _
  | sendRan w hr => exact h.stepThread (fun _ _ => Thread.message_sendRan) hr
  | _ => exact h

/-- The message that a worker thread has in the running scheduler is what some
history leaves, so that the above is about every command it is given. -/
theorem message_of_reachable [Fintype ι] (h : (machine ι R).Reachable d) : d.pool.Lived := by
  refine reachable_invariant (P := fun d => d.pool.Lived) ?_ (fun d d' hd hm => lived_move hd hm)
    ?_ h
  · intro cfg w r hr
    rcases w with i | i
    · cases hr
    · obtain ⟨t, ht, rfl⟩ := Option.map_eq_some_iff.mp hr
      obtain ⟨-, rfl⟩ := List.mem_replicate.mp (List.mem_of_getElem? ht)
      rintro m hm
      obtain rfl : {} = m := by simpa using hm
      exact ⟨[], rfl⟩
  · intro d q hd _ _ _
    exact hd.assign _ fun r => RunInfo.workerThread_loadPending r q

end Dispatch

namespace PastJob

/-- A request with a tag, and a command that is none. -/
def sampleRun (isRequest : Bool) : RunInfo Unit :=
  { dataParts := [[9]], toRun := .callback (some ⟨0, isRequest⟩) }

theorem passed_eq_of_request : passed [] (sampleRun true) =
    passed [{ run := sampleRun true }, { run := sampleRun false }] (sampleRun true) :=
  ((passed_eq_iff (by decide) (by decide) rfl).1).mpr (.inl rfl)

/-- The tag of the request is still there when the thread runs something else. -/
theorem tag_left_after_request : passed [] (sampleRun false) ≠
    passed [{ run := sampleRun true }] (sampleRun false) ∧
    (passed [{ run := sampleRun true }] (sampleRun false)).map (·.replyTag) = some [9] := by
  decide

end PastJob

end ArqmaMQ
