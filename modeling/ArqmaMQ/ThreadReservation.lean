import ArqmaMQ.HandOffRuns
import ArqmaMQ.Reservation
import Mathlib.Data.Fintype.Option

/-! Thread reservations. The counters of the proxy say how many workers are busy
with each class of job, and no class can use up what is reserved for another. -/

namespace ArqmaMQ

variable {ι R : Type}

def JobClass.equivOption (ι : Type) : JobClass ι ≃ Option (Option ι) where
  toFun
    | .batch => none
    | .reply => some none
    | .category c => some (some c)
  invFun
    | none => .batch
    | some none => .reply
    | some (some c) => .category c
  left_inv k := by cases k <;> rfl
  right_inv o := by rcases o with _ | _ | c <;> rfl

instance [Fintype ι] : Fintype (JobClass ι) := Fintype.ofEquiv _ (JobClass.equivOption ι).symm

theorem JobClass.sum_eq [Fintype ι] (f : JobClass ι → Nat) :
    ∑ k, f k = f .batch + f .reply + ∑ c, f (.category c) := by
  rw [Fintype.sum_equiv (JobClass.equivOption ι) f (fun o => f ((JobClass.equivOption ι).symm o))
    (fun k => by rw [Equiv.symm_apply_apply]), Fintype.sum_option, Fintype.sum_option, add_assoc]
  rfl

theorem Config.threads_eq [Fintype ι] (cfg : Config ι) :
    cfg.threads = cfg.generalWorkers + ∑ k, cfg.reserved k := by
  rw [JobClass.sum_eq, threads, add_assoc, add_assoc]
  simp only [reserved, add_assoc]

namespace Pool

variable {p : Pool ι} {w : WorkerRef} {r : RunInfo ι}

/-- Which class keeps each general worker busy. -/
def slots (p : Pool ι) : List (Option (JobClass ι)) :=
  p.workers.mapIdx fun i r => if i ∈ p.idleWorkers then none else r.jobClass

theorem getElem?_slots (p : Pool ι) (i : Nat) :
    p.slots[i]? = p.workers[i]?.map fun r => if i ∈ p.idleWorkers then none else r.jobClass := by
  simp [slots]

theorem slots_modifyRun {f : RunInfo ι → RunInfo ι}
    (hf : ∀ r, p.run? w = some r → (f r).jobClass = r.jobClass) :
    (p.modifyRun w f).slots = p.slots := by
  apply List.ext_getElem?
  intro j
  rw [getElem?_slots, getElem?_slots]
  cases w with
  | tagged i => rfl
  | general i =>
    by_cases hj : i = j
    · subst hj
      rcases hr : p.workers[i]? with _ | r
      · simp [modifyRun, hr]
      · simp [modifyRun, hr, hf r hr]
    · have hne : (p.workers.modify i f)[j]? = p.workers[j]? := by simp [hj]
      exact congrArg (Option.map _) hne

/-- Setting the slot of worker `i`, when only that worker starts or stops. -/
theorem slots_eq_set {q : Pool ι} {i : Nat} (o : Option (JobClass ι))
    (hlen : q.workers.length = p.workers.length) (hi : q.slots[i]? = some o)
    (hne : ∀ j, i ≠ j → q.slots[j]? = p.slots[j]?) : q.slots = p.slots.set i o := by
  apply List.ext_getElem?
  intro j
  by_cases hj : i = j
  · subst hj
    have hlt : i < p.slots.length := by
      have := (List.getElem?_eq_some_iff.mp hi).1
      simpa [slots, hlen] using this
    rw [hi, List.getElem?_set_self hlt]
  · rw [hne j hj, List.getElem?_set_ne hj]

variable [DecidableEq ι]

structure Counted (p : Pool ι) : Prop where
  active : ∀ k, p.active k = p.slots.count (some k)
  idle : p.idleWorkers.length = p.slots.count none

theorem Counted.workers_length [Fintype ι] (h : p.Counted) :
    p.workers.length = p.idleWorkers.length + ∑ k, p.active k := by
  have hs := Reservation.sum_count_add_count_none p.slots
  simp only [h.idle, h.active]
  simp only [slots, List.length_mapIdx] at hs ⊢
  omega

theorem Counted.activeWorkers [Fintype ι] (h : p.Counted) :
    p.activeWorkers = ∑ k, p.active k := by
  rw [Pool.activeWorkers, h.workers_length]
  omega

omit [DecidableEq ι] in
theorem Counted.congr [DecidableEq ι] {q : Pool ι} (h : p.Counted) (hs : q.slots = p.slots)
    (ha : q.active = p.active) (hi : q.idleWorkers = p.idleWorkers) : q.Counted :=
  ⟨fun k => by rw [hs, ha, h.active], by rw [hs, hi, h.idle]⟩

/-- The slot of a worker changes hands. -/
theorem Counted.set {q : Pool ι} {i : Nat} {o : Option (JobClass ι)} (h : p.Counted)
    (hi : p.slots[i]? = some o) {o' : Option (JobClass ι)} (hs : q.slots = p.slots.set i o')
    (ha : ∀ k, q.active k + (if o = some k then 1 else 0) =
      p.active k + if o' = some k then 1 else 0)
    (hidle : q.idleWorkers.length + (if o = none then 1 else 0) =
      p.idleWorkers.length + if o' = none then 1 else 0) : q.Counted := by
  obtain ⟨hlt, he⟩ := List.getElem?_eq_some_iff.mp hi
  have hpos : 0 < p.slots.count o := List.count_pos_iff.mpr (List.mem_of_getElem? hi)
  refine ⟨?_, ?_⟩
  · intro k
    have hk := ha k
    rw [h.active k] at hk
    rw [hs, List.count_set hlt, he]
    simp only [beq_iff_eq]
    by_cases ho : o = some k
    · subst ho
      simp only [if_true] at hk ⊢
      omega
    · simp only [ho, if_false] at hk ⊢
      omega
  · rw [h.idle] at hidle
    rw [hs, List.count_set hlt, he]
    simp only [beq_iff_eq]
    by_cases ho : o = none
    · subst ho
      simp only [if_true] at hidle ⊢
      omega
    · simp only [ho, if_false] at hidle ⊢
      omega

theorem Counted.assign {quit : Prop} (h : p.Counted) (hsync : p.Synced quit) {k : JobClass ι}
    {f : RunInfo ι → RunInfo ι} (hf : ∀ r, (f r).jobClass = some k) : (p.assign k f).Counted := by
  rcases List.eq_nil_or_concat p.idleWorkers with hi | ⟨l, i, hi⟩
  · rw [assign_of_nil k f hi]
    have hs : slots { p with workers := p.workers ++ [(f {}).runWorker] } =
        p.slots ++ [some k] := by
      simp [slots, List.mapIdx_concat, hi, RunInfo.jobClass_runWorker, hf]
    refine ⟨?_, ?_⟩
    · intro j
      have hj := h.active j
      change Function.update p.active k (p.active k + 1) j = (slots { p with
        workers := p.workers ++ [(f {}).runWorker] }).count (some j)
      rw [hs, List.count_append, List.count_singleton]
      by_cases hjk : j = k
      · subst hjk
        simp [hj]
      · simp [hjk, Ne.symm hjk, hj]
    · change p.idleWorkers.length = (slots { p with
        workers := p.workers ++ [(f {}).runWorker] }).count none
      rw [hs, List.count_append, h.idle]
      simp
  · obtain ⟨-, r, hr, -, -⟩ := hsync.free_of_idle (i := i) (by simp [hi])
    rw [List.concat_eq_append] at hi
    have hnodup := hsync.idle_nodup
    rw [hi, List.nodup_append] at hnodup
    have hil : i ∉ l := fun hil => hnodup.2.2 i hil i (by simp) rfl
    have hslot : p.slots[i]? = some none := by
      rw [getElem?_slots, hr]
      simp [hi]
    rw [assign_of_concat k f hi hr]
    refine h.set hslot (slots_eq_set (some k) (by simp [record]) ?_ ?_) ?_ ?_
    · rw [getElem?_slots]
      simp [record, modifyRun, hr, hil, RunInfo.jobClass_runWorker, hf]
    · intro j hj
      rw [getElem?_slots, getElem?_slots]
      simp [record, modifyRun, hj, hi, Ne.symm hj]
    · intro j
      by_cases hjk : j = k
      · subst hjk
        simp
      · simp [hjk, Ne.symm hjk]
    · simp [hi]

/-- A busy general worker goes back to the idle ones. -/
theorem Counted.free {q : Pool ι} {i : Nat} {k : JobClass ι} (h : p.Counted)
    (hslot : p.slots[i]? = some (some k)) (hlen : q.workers.length = p.workers.length)
    (hs : q.slots = p.slots) (ha : q.active = Function.update p.active k (p.active k - 1))
    (hi : q.idleWorkers = p.idleWorkers) :
    Counted { q with idleWorkers := q.idleWorkers ++ [i] } := by
  have hpos : 0 < p.active k := by
    rw [h.active]
    exact List.count_pos_iff.mpr (List.mem_of_getElem? hslot)
  refine h.set hslot (slots_eq_set none hlen ?_ ?_) ?_ ?_
  · have hsome : (q.slots[i]?).isSome := by rw [hs, hslot]; rfl
    rw [getElem?_slots] at hsome ⊢
    obtain ⟨r, hr⟩ := Option.isSome_iff_exists.mp ((Option.isSome_map ..).symm.trans hsome)
    simp [hr]
  · intro j hj
    rw [← hs, getElem?_slots, getElem?_slots]
    simp [Ne.symm hj]
  · intro j
    simp only [ha]
    by_cases hj : j = k
    · subst hj
      simp
      omega
    · simp [hj, Ne.symm hj]
  · simp [hi]

/-- What the reservations of a configuration promise about the workers. -/
structure Reserved [Fintype ι] (cfg : Config ι) (p : Pool ι) : Prop where
  counted : p.Counted
  excess_le : Reservation.excess cfg.reserved p.active ≤ cfg.generalWorkers
  length_le : p.workers.length ≤ cfg.threads

/-- The workers that work for other classes than `k`. -/
def busyWithOthers (p : Pool ι) (k : JobClass ι) : Nat :=
  p.slots.countP fun o => o ≠ none ∧ o ≠ some k

theorem busyWithOthers_add (p : Pool ι) (k : JobClass ι) :
    p.busyWithOthers k + p.slots.count (some k) + p.slots.count none = p.slots.length := by
  unfold busyWithOthers
  induction p.slots with
  | nil => rfl
  | cons o slots ih =>
    cases o with
    | none => simp [← ih]; omega
    | some j =>
      by_cases hj : j = k <;> simp [← ih, hj] <;> omega

variable [Fintype ι] {cfg : Config ι} {q : Pool ι}

theorem Reserved.congr (h : p.Reserved cfg) (hs : q.slots = p.slots) (ha : q.active = p.active)
    (hi : q.idleWorkers = p.idleWorkers) (hl : q.workers.length = p.workers.length) :
    q.Reserved cfg :=
  ⟨h.counted.congr hs ha hi, by rw [ha]; exact h.excess_le, by rw [hl]; exact h.length_le⟩

/-- A record may change as long as the job keeps its class. -/
theorem Reserved.setRun (h : p.Reserved cfg) (hr : p.run? w = some r) {r' : RunInfo ι}
    (hc : r'.jobClass = r.jobClass) : (p.setRun w r').Reserved cfg := by
  refine h.congr (slots_modifyRun ?_) (by simp) (by simp) (by simp)
  intro r₀ hr₀
  rw [hc, Option.some.inj (hr.symm.trans hr₀)]

theorem Reserved.assign {quit : Prop} (h : p.Reserved cfg) (hsync : p.Synced quit)
    {k : JobClass ι} (hk : p.active k < cfg.reserved k ∨ p.activeWorkers < cfg.generalWorkers)
    {f : RunInfo ι → RunInfo ι} (hf : ∀ r, (f r).jobClass = some k) :
    (p.assign k f).Reserved cfg := by
  have hcount := h.counted.assign hsync hf
  rw [h.counted.activeWorkers] at hk
  have hexcess : Reservation.excess cfg.reserved (p.assign k f).active ≤ cfg.generalWorkers := by
    rw [assign_active]
    exact Reservation.excess_start_le h.excess_le hk
  refine ⟨hcount, hexcess, ?_⟩
  rcases List.eq_nil_or_concat p.idleWorkers with hi | ⟨l, i, hi⟩
  · have hidle : (p.assign k f).idleWorkers = [] := by rw [assign_of_nil k f hi, hi]
    have hsum := Reservation.sum_le_of_excess_le Finset.univ hexcess
    rw [hcount.workers_length, hidle, cfg.threads_eq]
    simpa using hsum
  · obtain ⟨-, r, hr, -, -⟩ := hsync.free_of_idle (i := i) (by simp [hi])
    rw [List.concat_eq_append] at hi
    rw [assign_of_concat k f hi hr]
    simpa [record] using h.length_le

end Pool

namespace Dispatch

variable [DecidableEq ι] {d d' : Dispatch ι R} {w : WorkerRef}

/-- RAN frees the slot of a general worker and takes one off the counter of its
class; a tagged worker has neither. -/
theorem counted_workerRan {r r₁ : RunInfo ι} {t : Thread} {rest : List WorkerReply}
    (hsync : d.pool.Synced (d.maxWorkers = 0)) (hq : d.maxWorkers ≠ 0) (h : d.pool.Counted)
    (hr : d.pool.run? w = some r) (ht : r.workerThread = some t) (ho : t.outbox = .ran :: rest)
    (hr₁ : r₁ = { r with workerThread := some { t with outbox := rest } })
    (hd : workerRan { d with pool := d.pool.setRun w r₁ } w r₁ = some d') :
    d'.pool.Counted ∧ (∀ k, d'.pool.active k ≤ d.pool.active k) ∧
      d'.pool.workers.length = d.pool.workers.length := by
  obtain ⟨q, clear, jobs, hfin, rfl, -⟩ := workerRan_eq_some hd
  obtain ⟨-, hin, -⟩ := hsync.executed_of_ran hr ht ho
  have hclass : r₁.jobClass = r.jobClass := by rw [hr₁]; rfl
  have hslots₁ : (d.pool.setRun w r₁).slots = d.pool.slots := by
    refine Pool.slots_modifyRun ?_
    intro r' hr'
    rw [hclass, Option.some.inj (hr.symm.trans hr')]
  let q₂ : Pool ι := q.record (.ran w r₁.task)
  let q₃ : Pool ι := if clear then q₂.clearToRun w else q₂
  have hq₃ : q₃.slots = q.slots ∧ q₃.active = q.active ∧ q₃.idleWorkers = q.idleWorkers ∧
      q₃.workers.length = q.workers.length := by
    cases clear
    · exact ⟨rfl, rfl, rfl, rfl⟩
    · exact ⟨Pool.slots_modifyRun (p := q₂) fun _ _ => rfl, Pool.active_modifyRun q₂ w _,
        Pool.idleWorkers_modifyRun q₂ w _, Pool.length_modifyRun q₂ w _⟩
  obtain ⟨hs₃, ha₃, hi₃, hl₃⟩ := hq₃
  rcases finishActive_eq_some hfin with ⟨i, rfl, -, rfl⟩ | ⟨k, hk, rfl, hg⟩
  · have he : q₃.release (decide (d.maxWorkers = 0)) (.tagged i) = q₃ := by
      simp [Pool.release, hq]
    rw [show Pool.release (if clear then q₂.clearToRun (.tagged i) else q₂)
      (decide (d.maxWorkers = 0)) (.tagged i) = q₃ from he]
    refine ⟨h.congr (hs₃.trans hslots₁) ha₃ hi₃, fun k => (congrFun ha₃ k).le, hl₃⟩
  · cases w with
    | tagged i =>
      have hb : r₁.isBatchJob = true := by
        rw [hr₁]
        exact hin.batch (by simp) (.inl ⟨i, rfl⟩)
      obtain ⟨j, hj⟩ := hg hb
      cases hj
    | general i =>
      have hi : i ∉ d.pool.idleWorkers := (hin.busy_iff hq).mpr (by simp)
      have he : q₃.release (decide (d.maxWorkers = 0)) (.general i) =
          { q₃ with idleWorkers := q₃.idleWorkers ++ [i] } := by simp [Pool.release, hq]
      have hslot : d.pool.slots[i]? = some (some k) := by
        rw [Pool.getElem?_slots, show d.pool.workers[i]? = some r from hr]
        simp [hi, ← hclass, hk]
      rw [show Pool.release (if clear then q₂.clearToRun (.general i) else q₂)
        (decide (d.maxWorkers = 0)) (.general i) = _ from he]
      have hl : q₃.workers.length = d.pool.workers.length := hl₃.trans (by simp [decActive])
      have ha : q₃.active = Function.update d.pool.active k (d.pool.active k - 1) := by
        rw [ha₃]
        simp [decActive]
      have hidle : q₃.idleWorkers = d.pool.idleWorkers := hi₃.trans (by simp [decActive])
      refine ⟨h.free hslot hl (hs₃.trans hslots₁) ha hidle, ?_, hl⟩
      · intro j
        rw [show Pool.active { q₃ with idleWorkers := q₃.idleWorkers ++ [i] } = _ from ha₃]
        by_cases hj : j = k
        · subst hj
          simp [decActive]
        · simp [decActive, hj]

variable [Fintype ι]

/-- Before QUIT the reservations are respected. -/
def Reserved (d : Dispatch ι R) : Prop :=
  d.maxWorkers ≠ 0 → d.maxWorkers = d.cfg.capacity ∧ d.pool.Reserved d.cfg

theorem Reserved.workerMessage (h : d.Reserved) (hh : d.HandOff)
    (hm : d.proxyWorkerMessage w = some d') : d'.Reserved := by
  obtain ⟨r, t, rest, hr, ht, ⟨ho, r₁, hr₁, hran⟩ | ⟨ho, rfl⟩⟩ := proxyWorkerMessage_eq_some hm
  · obtain ⟨pool, jobs, rfl⟩ := workerMessage_frame hm
    intro hq
    obtain ⟨hmax, hres⟩ := h hq
    obtain ⟨hcount, hactive, hlen⟩ := counted_workerRan hh.1 hq hres.counted hr ht ho hr₁ hran
    exact ⟨hmax, hcount, (Reservation.excess_mono hactive).trans hres.excess_le,
      hlen.trans_le hres.length_le⟩
  · intro hq
    exact ⟨(h hq).1, (h hq).2.setRun hr rfl⟩

theorem Reserved.startTagged (h : d.Reserved) (i : Nat) : (d.startTagged i).Reserved := by
  unfold Dispatch.startTagged
  split
  · rename_i t job rest ht hj
    split
    · exact h
    · intro hq
      exact ⟨(h hq).1, (h hq).2.congr rfl rfl rfl rfl⟩
  · exact h

theorem Reserved.move (h : d.Reserved) (hh : d.HandOff) (hm : Move d d') : d'.Reserved := by
  cases hm with
  | quit => exact fun hq => absurd rfl hq
  | workerMessage w _ hw => exact h.workerMessage hh hw
  | startTagged i _ => exact h.startTagged i
  | startBatchJob reply job rest _ _ _ hslot =>
    intro hq
    refine ⟨(h hq).1, (h hq).2.assign hh.1 hslot ?_⟩
    intro r
    cases reply <;> rfl
  | startPending pre p post _ _ _ hslot =>
    exact fun hq => ⟨(h hq).1, (h hq).2.assign hh.1 hslot fun r => r.jobClass_loadPending p⟩
  | receive w hs =>
    obtain ⟨r, t, t', hr, -, -, rfl⟩ := Pool.stepThread_eq_some hs
    exact fun hq => ⟨(h hq).1, (h hq).2.setRun hr rfl⟩
  | sendRan w hs =>
    obtain ⟨r, t, t', hr, -, -, rfl⟩ := Pool.stepThread_eq_some hs
    exact fun hq => ⟨(h hq).1, (h hq).2.setRun hr rfl⟩
  | execute w r he =>
    obtain ⟨_, pool, jobs, -, hp, rfl, -⟩ := execute_eq_some he
    obtain ⟨r, r', hr, hr', rfl⟩ := Pool.execute_eq_some hp
    intro hq
    have hrun := (h hq).2.setRun hr (RunInfo.jobClass_of_execute hr')
    exact ⟨(h hq).1, hrun.congr rfl rfl rfl rfl⟩
  | _ => exact h

theorem Reserved.startCommand (h : d.Reserved) (hh : d.HandOff) {p : PendingCommand ι}
    (hslot : d.HasSlot (.category p.cat)) : (d.startCommand p).Reserved := fun hq =>
  ⟨(h hq).1, (h hq).2.assign hh.1 hslot fun r => r.jobClass_loadPending p⟩

theorem Reserved.init (cfg : Config ι) : (start cfg : Dispatch ι R).Reserved := by
  refine fun _ => ⟨rfl, ⟨fun _ => rfl, rfl⟩, ?_, Nat.zero_le _⟩
  simp [Reservation.excess, start]

theorem reserved_of_reachable (h : (machine ι R).Reachable d) : d.Reserved := by
  refine (reachable_invariant (P := fun d => d.HandOff ∧ d.Reserved) ?_ ?_ ?_ h).2
  · exact fun cfg => ⟨HandOff.init cfg, Reserved.init cfg⟩
  · exact fun d d' hd hm => ⟨hd.1.move hm, hd.2.move hd.1 hm⟩
  · exact fun d p hd _ hslot _ => ⟨hd.1.startCommand p, hd.2.startCommand hd.1 hslot⟩

theorem Reserved.maxWorkers_eq (h : d.Reserved) (hfit : d.cfg.FitsInt) (hq : d.maxWorkers ≠ 0) :
    d.maxWorkers = d.cfg.generalWorkers + ∑ k, d.cfg.reserved k := by
  rw [(h hq).1, hfit.capacity_eq, d.cfg.threads_eq]

/-- With every worker in use no class has a slot. -/
theorem Reserved.not_hasSlot_of_full (h : d.Reserved) (hfit : d.cfg.FitsInt)
    (hq : d.maxWorkers ≠ 0) (hfull : d.maxWorkers ≤ d.pool.activeWorkers) (k : JobClass ι) :
    ¬ d.HasSlot k := by
  obtain ⟨-, hres⟩ := h hq
  rw [h.maxWorkers_eq hfit hq, hres.counted.activeWorkers] at hfull
  have hused := Reservation.reserved_le_of_full hres.excess_le hfull k
  rintro (hlt | hlt)
  · omega
  · rw [hres.counted.activeWorkers] at hlt
    omega

theorem Reserved.moves (h : d.Reserved) (hh : d.HandOff) (hm : Moves d d') : d'.Reserved :=
  (Transition.reflTransGen_invariant (P := fun d => d.HandOff ∧ d.Reserved)
    (fun _ _ hm hd => ⟨hd.1.move hm, hd.2.move hd.1 hm⟩) hm ⟨hh, h⟩).2

theorem threads_reserved (h : (machine ι R).Reachable d) (hfit : d.cfg.FitsInt)
    (hq : d.maxWorkers ≠ 0) :
    d.pool.activeWorkers =
        d.pool.active .batch + d.pool.active .reply + ∑ c, d.pool.active (.category c) ∧
      ∑ k, (d.pool.active k - d.cfg.reserved k) ≤ d.cfg.generalWorkers ∧
      (∀ k, d.pool.busyWithOthers k + d.cfg.reserved k ≤ d.maxWorkers) ∧
      d.pool.workers.length ≤ d.maxWorkers := by
  have hmax := (reserved_of_reachable h).maxWorkers_eq hfit hq
  obtain ⟨-, hres⟩ := reserved_of_reachable h hq
  refine ⟨?_, hres.excess_le, ?_, ?_⟩
  · rw [hres.counted.activeWorkers, JobClass.sum_eq]
  · intro k
    have hothers := Reservation.others_add_reserved_le hres.excess_le k
    have hsum := Finset.sum_erase_add Finset.univ d.pool.active (Finset.mem_univ k)
    have hlen := Reservation.sum_count_add_count_none d.pool.slots
    have hbusy := d.pool.busyWithOthers_add k
    simp only [← hres.counted.active] at hlen hbusy
    omega
  · rw [hmax, ← d.cfg.threads_eq]
    exact hres.length_le

theorem threads_reserved_with_two_busy : ∃ d, (machine Unit Unit).Reachable d ∧
    d.maxWorkers ≠ 0 ∧ d.pool.activeWorkers = 2 ∧
      ∑ k, (d.pool.active k - d.cfg.reserved k) ≤ d.cfg.generalWorkers := by
  obtain ⟨d, hd, hp⟩ := smallConfig_reachable.exists_of_run
    [.submit [(.user 0, 0)] none, .batch 0, .next, .next, .next, .next, .next,
      .command smallCommand]
    (p := fun d => decide (d.cfg.FitsInt ∧ d.maxWorkers ≠ 0 ∧ d.pool.activeWorkers = 2))
    (by decide +kernel)
  obtain ⟨hfit, hq, hactive⟩ := of_decide_eq_true hp
  exact ⟨d, hd, hq, hactive, (threads_reserved hd hfit hq).2.1⟩

/-- Two general workers and the largest reservation there is, which make one. -/
def wrappedConfig : Config Unit where
  generalWorkers := 2
  batchJobsReserved := 0
  replyJobsReserved := 0
  reservedThreads _ := 4294967295
  maxQueue _ := 200
  taggedWorkers := 0
  generalWorkers_pos := Nat.two_pos

/-- Two tasks then have two workers. -/
theorem outgrows_wrapped_maxWorkers : ∃ d, (machine Unit Unit).Reachable d ∧
    d.cfg.threads = 2 ^ 32 + 1 ∧ d.maxWorkers = 1 ∧ d.pool.workers.length = 2 := by
  have hinit : (machine Unit Unit).Reachable (start wrappedConfig) :=
    .init ⟨_, by decide +kernel, rfl⟩
  obtain ⟨d, hd, hp⟩ := hinit.exists_of_run [.inject smallCommand, .inject smallCommand]
    (p := fun d => decide (d.cfg.threads = 2 ^ 32 + 1 ∧ d.maxWorkers = 1 ∧
      d.pool.workers.length = 2)) (by decide +kernel)
  exact ⟨d, hd, of_decide_eq_true hp⟩

end Dispatch

end ArqmaMQ
