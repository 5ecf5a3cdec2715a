import ArqmaMQ.LoadedWorkers
import ArqmaMQ.Shutdown

/-! No accepted command is lost and none is run twice. The history of the workers
shows every command that has left the queue as loaded by one worker, run by that
worker's thread, and reported back, each once and in this order. -/

namespace ArqmaMQ

variable {ι R : Type}

def WorkerEvent.task : WorkerEvent ι → Option (Task ι)
  | .loaded _ t _ => t
  | .executed _ t => t
  | .ran _ t => t

def WorkerEvent.isLoad : WorkerEvent ι → Bool
  | .loaded .. => true
  | _ => false

variable [DecidableEq ι]

/-- What a worker's history tells of a task that it was loaded with at most once. -/
inductive Stage.Course (t : Option (Task ι)) : Stage ι → List (WorkerEvent ι) → Prop
  | absent {s} (hl : s ≠ .loaded t) (he : s ≠ .executed t) : Course t s []
  | loaded (w n) : Course t (.loaded t) [.loaded w t n]
  | executed (w n w') : Course t (.executed t) [.loaded w t n, .executed w' t]
  | ran {s} (w n w' w'') (hl : s ≠ .loaded t) (he : s ≠ .executed t) :
    Course t s [.loaded w t n, .executed w' t, .ran w'' t]

namespace Stage

variable {t : Option (Task ι)} {s s' : Stage ι} {l : List (WorkerEvent ι)}

omit [DecidableEq ι] in
theorem Course.exists_load (h : Course t s l) (hl : l ≠ []) : ∃ w n, .loaded w t n ∈ l := by
  cases h with
  | absent => exact absurd rfl hl
  | loaded w n => exact ⟨w, n, by simp⟩
  | executed w n => exact ⟨w, n, by simp⟩
  | ran w n => exact ⟨w, n, by simp⟩

theorem Course.other {e : WorkerEvent ι} (h : Course t s l) (hn : s.next e = some s')
    (he : e.task ≠ t) : Course t s' l := by
  have hs' : s' ≠ .loaded t ∧ s' ≠ .executed t ∧ s ≠ .loaded t ∧ s ≠ .executed t := by
    cases s <;> cases e <;> simp [next, WorkerEvent.task] at hn he ⊢
    · subst hn
      simpa using he
    · obtain ⟨rfl, rfl⟩ := hn
      simpa using he
    · obtain ⟨rfl, rfl⟩ := hn
      simpa using he
  cases h with
  | absent => exact .absent hs'.1 hs'.2.1
  | loaded => exact absurd rfl hs'.2.2.1
  | executed => exact absurd rfl hs'.2.2.2
  | ran w n w' w'' => exact .ran w n w' w'' hs'.1 hs'.2.1

theorem Course.self {e : WorkerEvent ι} (h : Course t s l) (hn : s.next e = some s')
    (he : e.task = t) (hload : e.isLoad = true → l = []) : Course t s' (l ++ [e]) := by
  cases e with
  | loaded w t' n =>
    obtain rfl : t' = t := he
    obtain rfl := hload rfl
    cases s <;> simp [next] at hn
    subst hn
    exact .loaded w n
  | executed w t' =>
    obtain rfl : t' = t := he
    cases s <;> simp [next] at hn
    obtain ⟨rfl, rfl⟩ := hn
    cases h with
    | absent hl => exact absurd rfl hl
    | loaded w₁ n => exact .executed w₁ n w
    | ran _ _ _ _ hl => exact absurd rfl hl
  | ran w t' =>
    obtain rfl : t' = t := he
    cases s <;> simp [next] at hn
    obtain ⟨rfl, rfl⟩ := hn
    cases h with
    | absent _ he => exact absurd rfl he
    | executed w₁ n w₂ => exact .ran w₁ n w₂ w (by simp) (by simp)
    | ran _ _ _ _ _ he => exact absurd rfl he

theorem course_of_history (h : l.foldlM next .free = some s)
    (hone : (l.filter (·.task = t)).countP WorkerEvent.isLoad ≤ 1) :
    Course t s (l.filter (·.task = t)) := by
  induction l using List.reverseRecOn generalizing s with
  | nil =>
    obtain rfl : .free = s := by simpa using h
    exact .absent (by simp) (by simp)
  | append_singleton l e ih =>
    simp only [List.foldlM_append, Option.bind_eq_bind, Option.bind_eq_some_iff] at h
    obtain ⟨s₁, hs₁, h⟩ := h
    have hn : s₁.next e = some s := by simpa using h
    rw [List.filter_append] at hone ⊢
    rw [List.countP_append] at hone
    have hcourse := ih hs₁ (by omega)
    by_cases he : e.task = t
    · rw [List.filter_cons_of_pos (by simpa using he), List.filter_nil] at hone ⊢
      refine hcourse.self hn he fun hload => ?_
      by_contra hne
      obtain ⟨w, n, hmem⟩ := hcourse.exists_load hne
      have hpos : 0 < (l.filter (·.task = t)).countP WorkerEvent.isLoad :=
        List.countP_pos_iff.mpr ⟨_, hmem, rfl⟩
      simp only [List.countP_singleton, hload, if_true] at hone
      omega
    · rw [List.filter_cons_of_neg (by simpa using he), List.filter_nil, List.append_nil]
      exact hcourse.other hn he

end Stage

namespace Dispatch

variable {d d' : Dispatch ι R}

/-- Every accepted command is started or still waits, and never both. -/
def Conserved (d : Dispatch ι R) : Prop :=
  ∀ c, (d.pool.started c ++ d.pendingOf c).Perm (d.acceptedOf c)

theorem Conserved.frame (h : d.Conserved) (hp : d'.pendingCommands = d.pendingCommands)
    (ha : d'.accepted = d.accepted) (hs : ∀ c, d'.pool.started c = d.pool.started c) :
    d'.Conserved := by
  intro c
  have hc := h c
  rwa [← hs, pendingOf, acceptedOf, ← hp, ← ha] at hc

theorem Conserved.startCommand (h : d.Conserved) (hh : d.HandOff) (p : PendingCommand ι) :
    (d.startCommand p).Conserved := by
  intro c
  rw [acceptedOf_append (show (d.startCommand p).accepted = d.accepted ++ [p] from rfl)]
  change ((d.pool.assign (.category p.cat) (·.loadPending p)).started c ++ d.pendingOf c).Perm _
  rw [started_loadPending hh, List.append_assoc]
  exact ((List.perm_append_comm.append_left _).trans (by rw [List.append_assoc])).trans
    ((h c).append_right _)

theorem pendingOf_cons (pre post : List (PendingCommand ι)) (p : PendingCommand ι) (c : ι) :
    (((pre ++ p :: post).filter (·.cat = c)).map (·.serial)).Perm
      ((if p.cat = c then [p.serial] else []) ++
        ((pre ++ post).filter (·.cat = c)).map (·.serial)) := by
  by_cases hc : p.cat = c <;> simp [hc]

theorem Conserved.move (h : d.Conserved) (hh : d.HandOff) (hm : Move d d') : d'.Conserved := by
  cases hm with
  | quit =>
    refine h.frame rfl rfl fun c => ?_
    rw [Pool.started, quit, Pool.log_sendQuit]
    rfl
  | workerMessage w _ hw =>
    have hs := started_workerMessage hw
    obtain ⟨pool, jobs, rfl⟩ := workerMessage_frame hw
    exact h.frame rfl rfl hs
  | queueCommand p _ _ =>
    intro c
    have hpending : (d.queueCommand p).pendingOf c =
        d.pendingOf c ++ if p.cat = c then [p.serial] else [] := by
      by_cases hc : p.cat = c <;> simp [pendingOf, queueCommand, List.filter_append, hc]
    rw [acceptedOf_append (show (d.queueCommand p).accepted = d.accepted ++ [p] from rfl),
      hpending, ← List.append_assoc]
    exact (h c).append_right _
  | startTagged i _ =>
    obtain ⟨-, -, hp, ha⟩ := startTagged_frame d i
    exact h.frame hp ha (started_startTagged hh i)
  | startBatchJob reply job rest _ _ _ _ =>
    exact h.frame rfl rfl (started_startBatchJob hh reply job rest)
  | startPending pre p post _ _ hc _ _ =>
    intro c
    change ((d.pool.assign (.category p.cat) (·.loadPending p)).started c ++
      ((pre ++ post).filter (·.cat = c)).map (·.serial)).Perm (d.acceptedOf c)
    rw [started_loadPending hh, List.append_assoc]
    refine ((pendingOf_cons pre post p c).symm.append_left _).trans ?_
    rw [← hc]
    exact h c
  | receive w hs => exact h.frame rfl rfl (started_stepThread hs)
  | sendRan w hs => exact h.frame rfl rfl (started_stepThread hs)
  | execute w r he =>
    obtain ⟨_, pool, jobs, -, hp, rfl, -⟩ := execute_eq_some he
    exact h.frame rfl rfl (started_execute hp)
  | _ => exact h.frame rfl rfl fun _ => rfl

theorem conserved_of_reachable [Fintype ι] (h : (machine ι R).Reachable d) : d.Conserved := by
  refine (reachable_invariant (P := fun d => d.HandOff ∧ d.Conserved) ?_ ?_ ?_ h).2
  · intro cfg
    exact ⟨HandOff.init cfg, fun _ => .refl _⟩
  · rintro d d' ⟨hh, hc⟩ hm
    exact ⟨hh.move hm, hc.move hh hm⟩
  · rintro d p ⟨hh, hc⟩ - - -
    exact ⟨hh.startCommand p, hc.startCommand hh p⟩

end Dispatch

/-- The history of one command. -/
def Pool.about (p : Pool ι) (q : PendingCommand ι) : List (WorkerEvent ι) :=
  p.log.filter (·.task = some (.command q.cat q.serial))

theorem Pool.countP_about (p : Pool ι) (q : PendingCommand ι) :
    (p.about q).countP WorkerEvent.isLoad = (p.started q.cat).count q.serial := by
  unfold about started
  induction p.log with
  | nil => rfl
  | cons e l ih =>
    by_cases he : e.task = some (.command q.cat q.serial)
    · rw [List.filter_cons_of_pos (by simpa using he), List.countP_cons, ih]
      cases e with
      | loaded w t n =>
        obtain rfl : t = some (.command q.cat q.serial) := he
        simp [WorkerEvent.isLoad, WorkerEvent.startedSerial?]
      | executed w t => simp [WorkerEvent.isLoad, WorkerEvent.startedSerial?]
      | ran w t => simp [WorkerEvent.isLoad, WorkerEvent.startedSerial?]
    · rw [List.filter_cons_of_neg (by simpa using he), ih, List.filterMap_cons]
      rcases hs : e.startedSerial? q.cat with _ | n
      · rfl
      · have hn : n ≠ q.serial := by
          rintro rfl
          cases e with
          | loaded w t n =>
            rcases t with _ | ⟨job⟩ | ⟨c, m⟩ <;>
              simp [WorkerEvent.startedSerial?, WorkerEvent.task] at hs he
            exact he hs.1 hs.2
          | executed w t => simp [WorkerEvent.startedSerial?] at hs
          | ran w t => simp [WorkerEvent.startedSerial?] at hs
        simp [hn]

theorem Pool.Synced.exists_stage {quit : Prop} {p : Pool ι} (h : p.Synced quit) (w : WorkerRef) :
    ∃ s, p.stage w = some s := by
  rcases hr : p.run? w with _ | r
  · exact ⟨.free, h.unborn w hr⟩
  · obtain ⟨s, hs, -⟩ := h.worker w r hr
    exact ⟨s, hs⟩

/-- A worker that is not free has one job in hand. -/
theorem Pool.Synced.exists_run {quit : Prop} {p : Pool ι} (h : p.Synced quit) {w : WorkerRef}
    {s : Stage ι} (hs : p.stage w = some s) (hfree : s ≠ .free) :
    ∃ r, p.run? w = some r ∧ r.inFlight = 1 := by
  rcases hr : p.run? w with _ | r
  · exact absurd (Option.some.inj (hs.symm.trans (h.unborn w hr))) hfree
  · obtain ⟨s', hs', hin⟩ := h.worker w r hr
    obtain rfl := Option.some.inj (hs.symm.trans hs')
    have hle := s.loads_add_executions_le
    have hne := mt Stage.loads_add_executions_eq_zero.mp hfree
    exact ⟨r, rfl, by rw [hin.inFlight_eq]; omega⟩

theorem Pool.exists_load_of_mem {quit : Prop} {p : Pool ι} (h : p.Synced quit)
    {q : PendingCommand ι} (hone : (p.about q).countP WorkerEvent.isLoad ≤ 1) {e : WorkerEvent ι}
    (he : e ∈ p.about q) :
    ∃ n, .loaded e.worker (some (.command q.cat q.serial)) n ∈ p.about q := by
  obtain ⟨s, hs⟩ := h.exists_stage e.worker
  obtain ⟨helog, hetask⟩ := List.mem_filter.mp he
  have hsub : ((p.history e.worker).filter
      (·.task = some (.command q.cat q.serial))).Sublist (p.about q) :=
    List.filter_sublist.filter _
  have hcourse := Stage.course_of_history hs (hsub.countP_le.trans hone)
  have hmem : e ∈ (p.history e.worker).filter (·.task = some (.command q.cat q.serial)) :=
    List.mem_filter.mpr ⟨List.mem_filter.mpr ⟨helog, by simp⟩, hetask⟩
  obtain ⟨w, n, hload⟩ := hcourse.exists_load (List.ne_nil_of_mem hmem)
  have hw : w = e.worker := of_decide_eq_true (List.mem_filter.mp (List.mem_filter.mp hload).1).2
  exact ⟨n, hw ▸ hsub.subset hload⟩

/-- All that is told of a command is told of one worker. -/
theorem Pool.about_eq_history {quit : Prop} {p : Pool ι} (h : p.Synced quit)
    {q : PendingCommand ι} (hone : (p.about q).countP WorkerEvent.isLoad ≤ 1) (w : WorkerRef)
    (hw : ∃ e ∈ p.about q, e.worker = w) :
    p.about q = (p.history w).filter (·.task = some (.command q.cat q.serial)) := by
  have hall : ∀ e ∈ p.about q, e.worker = w := by
    intro e he
    obtain ⟨e', he', rfl⟩ := hw
    obtain ⟨n, hn⟩ := exists_load_of_mem h hone he
    obtain ⟨n', hn'⟩ := exists_load_of_mem h hone he'
    by_contra hne
    have htwo : [WorkerEvent.loaded e.worker (some (.command q.cat q.serial)) n,
        .loaded e'.worker (some (.command q.cat q.serial)) n'].Subperm (p.about q) := by
      refine List.subperm_of_subset (by simpa using fun hw _ => hne hw) ?_
      intro x hx
      rcases List.mem_cons.mp hx with rfl | hx
      · exact hn
      · exact List.mem_singleton.mp hx ▸ hn'
    have hcount := htwo.countP_le WorkerEvent.isLoad
    simp only [List.countP_cons, List.countP_nil, WorkerEvent.isLoad, if_true] at hcount
    omega
  rw [history, List.filter_comm]
  exact (List.filter_eq_self.mpr fun e he => by simpa using hall e he).symm

namespace Dispatch

variable {d : Dispatch ι R} {q : PendingCommand ι}

/-- Where an accepted command is: it waits in the queue; a worker holds it, as it
was accepted, with the run still to come; or one thread has run it, once, and its
report is still to come or has been handled. -/
inductive Fate (d : Dispatch ι R) (q : PendingCommand ι) : Prop
  | waiting (hq : q ∈ d.pendingCommands) (hlog : d.pool.about q = [])
  | held (w : WorkerRef) (r : RunInfo ι) (hq : q ∉ d.pendingCommands)
    (hlog : d.pool.about q = [.loaded w (some (.command q.cat q.serial)) 0])
    (hrun : d.pool.run? w = some r) (hload : r.LoadedWith q) (hone : r.inFlight = 1)
  | executed (w : WorkerRef) (r : RunInfo ι) (hq : q ∉ d.pendingCommands)
    (hlog : d.pool.about q = [.loaded w (some (.command q.cat q.serial)) 0,
      .executed w (some (.command q.cat q.serial))])
    (hrun : d.pool.run? w = some r) (hone : r.inFlight = 1)
  | ran (w : WorkerRef) (hq : q ∉ d.pendingCommands)
    (hlog : d.pool.about q = [.loaded w (some (.command q.cat q.serial)) 0,
      .executed w (some (.command q.cat q.serial)), .ran w (some (.command q.cat q.serial))])

omit [DecidableEq ι] in
theorem Numbered.eq_of_serial (h : d.Numbered) {q' : PendingCommand ι} (hq : q ∈ d.accepted)
    (hq' : q' ∈ d.accepted) (hs : q.serial = q'.serial) : q = q' := by
  obtain ⟨i, hi⟩ := List.mem_iff_getElem?.mp hq
  obtain ⟨j, hj⟩ := List.mem_iff_getElem?.mp hq'
  rw [h.serial_eq hi, h.serial_eq hj] at hs
  subst hs
  exact Option.some.inj (hi.symm.trans hj)

omit [DecidableEq ι] in
theorem Numbered.nodup (h : d.Numbered) : (d.accepted.map (·.serial)).Nodup := by
  rw [h]
  exact List.nodup_range

theorem Numbered.nodup_acceptedOf (h : d.Numbered) (c : ι) : (d.acceptedOf c).Nodup :=
  h.nodup.sublist (List.filter_sublist.map _)

theorem Conserved.count_le (h : d.Conserved) (hn : d.Numbered) (q : PendingCommand ι) :
    (d.pool.started q.cat).count q.serial + (d.pendingOf q.cat).count q.serial ≤ 1 := by
  rw [← List.count_append, (h q.cat).count_eq]
  exact List.nodup_iff_count_le_one.mp (hn.nodup_acceptedOf q.cat) q.serial

theorem mem_pendingOf (hn : d.Numbered) (ha : d.Accounted) (hq : q ∈ d.accepted) :
    q.serial ∈ d.pendingOf q.cat ↔ q ∈ d.pendingCommands := by
  refine ⟨fun h => ?_, fun h => ?_⟩
  · obtain ⟨q', hq', hs⟩ := List.mem_map.mp h
    obtain ⟨hmem, -⟩ := List.mem_filter.mp hq'
    rwa [← hn.eq_of_serial (ha.pending q' hmem) hq hs]
  · exact List.mem_map_of_mem (List.mem_filter.mpr ⟨h, by simp⟩)

variable [Fintype ι]

theorem command_fate (h : (machine ι R).Reachable d) (hq : q ∈ d.accepted) : d.Fate q := by
  obtain ⟨hsync, hloads⟩ := handOff_of_reachable h
  have hconserved := conserved_of_reachable h
  have hnum := numbered_of_reachable h
  have hpending := mem_pendingOf hnum (accounted_of_reachable h) hq
  have hcount := hconserved.count_le hnum q
  have hone : (d.pool.about q).countP WorkerEvent.isLoad ≤ 1 := by
    rw [Pool.countP_about]
    omega
  by_cases hnil : d.pool.about q = []
  · -- never started, so it is among those that wait
    have hnot : (d.pool.started q.cat).count q.serial = 0 := by
      rw [← Pool.countP_about, hnil]
      rfl
    have hmem : q.serial ∈ d.pool.started q.cat ++ d.pendingOf q.cat :=
      (hconserved q.cat).mem_iff.mpr (List.mem_map_of_mem (List.mem_filter.mpr ⟨hq, by simp⟩))
    rcases List.mem_append.mp hmem with hmem | hmem
    · exact absurd hmem (List.count_eq_zero.mp hnot)
    · exact .waiting (hpending.mp hmem) hnil
  · obtain ⟨e, he⟩ := List.exists_mem_of_ne_nil _ hnil
    obtain ⟨n, hload⟩ := Pool.exists_load_of_mem hsync hone he
    have habout := Pool.about_eq_history hsync hone e.worker ⟨e, he, rfl⟩
    obtain ⟨s, hs⟩ := hsync.exists_stage e.worker
    have hcourse := Stage.course_of_history hs (habout ▸ hone)
    rw [← habout] at hcourse
    have hworker : ∀ x ∈ d.pool.about q, x.worker = e.worker := by
      rw [habout]
      intro x hx
      simpa using (List.mem_filter.mp (List.mem_filter.mp hx).1).2
    have hzero : ∀ w n, .loaded w (some (.command q.cat q.serial)) n ∈ d.pool.about q → n = 0 :=
      fun w n hmem => hloads w _ n (List.mem_filter.mp hmem).1
    have hwait : q ∉ d.pendingCommands := by
      intro hmem
      have hpos := List.count_pos_iff.mpr (hpending.mpr hmem)
      have hpos' : 0 < (d.pool.about q).countP WorkerEvent.isLoad :=
        List.countP_pos_iff.mpr ⟨_, hload, rfl⟩
      rw [Pool.countP_about] at hpos'
      omega
    generalize hl : d.pool.about q = l at hcourse hworker hzero
    cases hcourse with
    | absent => exact absurd hl hnil
    | loaded w n =>
      obtain rfl : w = e.worker := hworker _ List.mem_cons_self
      obtain rfl := hzero e.worker n (by simp)
      obtain ⟨r, hr, hflight⟩ := hsync.exists_run hs (by simp)
      obtain ⟨q', hq', hwith, -, hserial⟩ := (intact_of_reachable h).command _ r _ _ hr hs
      obtain rfl := hnum.eq_of_serial hq' hq hserial
      exact .held e.worker r hwait hl hr hwith hflight
    | executed w n w' =>
      obtain rfl : w = e.worker := hworker _ List.mem_cons_self
      obtain rfl : w' = e.worker := hworker _ (List.mem_cons_of_mem _ List.mem_cons_self)
      obtain rfl := hzero e.worker n (by simp)
      obtain ⟨r, hr, hflight⟩ := hsync.exists_run hs (by simp)
      exact .executed e.worker r hwait hl hr hflight
    | ran w n w' w'' =>
      obtain rfl : w = e.worker := hworker _ List.mem_cons_self
      obtain rfl : w' = e.worker := hworker _ (List.mem_cons_of_mem _ List.mem_cons_self)
      obtain rfl : w'' = e.worker :=
        hworker _ (List.mem_cons_of_mem _ (List.mem_cons_of_mem _ List.mem_cons_self))
      obtain rfl := hzero e.worker n (by simp)
      exact .ran e.worker hwait hl

/-- Workers are given nothing but accepted commands. -/
theorem accepted_of_mem_log (h : (machine ι R).Reachable d) {e : WorkerEvent ι}
    (he : e ∈ d.pool.log) {c : ι} {n : Nat} (ht : e.task = some (.command c n)) :
    ∃ q ∈ d.accepted, q.cat = c ∧ q.serial = n := by
  let q : PendingCommand ι :=
    { cat := c, serial := n, command := [], callback := .inr (.user 0), remote := [] }
  have hcount := (conserved_of_reachable h).count_le (numbered_of_reachable h) q
  have hone : (d.pool.about q).countP WorkerEvent.isLoad ≤ 1 := by
    rw [Pool.countP_about]
    omega
  have hmem : e ∈ d.pool.about q := List.mem_filter.mpr ⟨he, by simpa using ht⟩
  obtain ⟨k, hload⟩ := Pool.exists_load_of_mem (handOff_of_reachable h).1 hone hmem
  have hstarted : n ∈ d.pool.started c :=
    List.mem_filterMap.mpr ⟨_, (List.mem_filter.mp hload).1, if_pos rfl⟩
  exact (accounted_of_reachable h).started c n hstarted

/-- In a run that does not outgrow the table of workers, so that the records stay
where the threads look for them, no accepted command is lost and none is run twice,
and no other is run. -/
theorem command_runs_once (h : ((machine ι R).restrict FitsTable).Reachable d)
    (hfit : d.cfg.FitsInt) : d.InTable ∧ (∀ q ∈ d.accepted, d.Fate q) ∧
      ∀ e ∈ d.pool.log, ∀ c n, e.task = some (.command c n) →
        ∃ q ∈ d.accepted, q.cat = c ∧ q.serial = n :=
  ⟨inTable_of_fitsTable h hfit, fun _ hq => command_fate h.of_restrict hq,
    fun _ he _ _ ht => accepted_of_mem_log h.of_restrict he ht⟩

theorem command_runs_once_with_queue : ∃ d, ((machine Unit Unit).restrict FitsTable).Reachable d ∧
    d.accepted.length = 4 ∧ d.pendingCommands.length = 3 ∧ ∀ q ∈ d.accepted, d.Fate q := by
  obtain ⟨d, hd, hp⟩ := smallConfig_fitsTable.exists_of_run
    [.inject smallCommand, .next, .next, .next, .next, .next, .command smallCommand,
      .command smallCommand, .command smallCommand, .execute (.general 0) (.value ())]
    (p := fun d => decide (d.cfg.FitsInt ∧ d.accepted.length = 4 ∧
      d.pendingCommands.length = 3)) (by decide +kernel)
  obtain ⟨hfit, ha, hq⟩ := of_decide_eq_true hp
  exact ⟨d, hd, ha, hq, (command_runs_once hd hfit).2.1⟩

end Dispatch

end ArqmaMQ
