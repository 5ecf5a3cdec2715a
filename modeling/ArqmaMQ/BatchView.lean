import ArqmaMQ.BatchLife
import Mathlib.Data.Set.Card

/-! One batch as the proxy's state shows it, and what each thing that can happen
to it does to that view. -/

namespace ArqmaMQ

variable {R : Type}

/-- What the state says about a batch: its memory, its history, which of its
jobs are somewhere and which of those have not run, and who owns it. -/
structure View (R : Type) where
  batch : Batch R
  history : List (JobEvent R)
  live : Int → Prop
  unrun : Int → Prop
  owned : Prop
  submitted : Prop

namespace View

/-- The view of a batch at a point of its life. -/
structure At (v : View R) (s : Life R) : Prop where
  lived : Life.Lived v.batch.complete.isSome v.batch.jobs.length v.history s
  owned : v.owned ↔ s.phase ≠ .deleted ∧ ¬ v.submitted
  submitted : v.submitted → s.phase = .running
  results : s.phase = .running ∨ s.phase = .scheduled → v.batch.results = s.results
  unrun : s.phase = .running →
    ∀ i : Nat, i < v.batch.jobs.length → (s.results[i]? = some none ↔ v.unrun i)
  live : s.phase = .running → ∀ k, v.live k → 0 ≤ k ∧ k < v.batch.jobs.length
  outstanding : s.phase = .running →
    v.batch.jobsOutstanding = {i : Nat | v.live i}.ncard ∧ 0 < v.batch.jobsOutstanding
  completion : s.phase = .scheduled ∨ s.phase = .completed → ∀ k, v.live k ↔ k = -1
  scheduled : s.phase = .scheduled → v.unrun (-1)
  completed : s.phase = .completed → ¬ v.unrun (-1)
  deleted : s.phase = .deleted → ∀ k, ¬ v.live k

def Ok (v : View R) : Prop := ∃ s, v.At s

variable {v : View R} {s : Life R}

theorem At.finite (h : v.At s) (hp : s.phase = .running) : {i : Nat | v.live i}.Finite := by
  refine (Set.finite_Iio v.batch.jobs.length).subset ?_
  intro i hi
  have := (h.live hp i hi).2
  exact Set.mem_Iio.mpr (by omega)

/-- A job of the batch, not its completion, is only around while jobs run. -/
theorem At.running_of_live (h : v.At s) {i : Nat} (hi : v.live i) : s.phase = .running := by
  rcases hp : s.phase with _ | _ | _ | _
  · rfl
  · have := (h.completion (.inl hp) i).mp hi
    omega
  · have := (h.completion (.inr hp) i).mp hi
    omega
  · exact absurd hi (h.deleted hp i)

theorem At.not_running_of_live (h : v.At s) (hi : v.live (-1)) :
    s.phase = .scheduled ∨ s.phase = .completed := by
  rcases hp : s.phase with _ | _ | _ | _
  · have := (h.live hp (-1) hi).1
    omega
  · exact .inl rfl
  · exact .inr rfl
  · exact absurd hi (h.deleted hp (-1))

theorem At.exists_nat_of_live (h : v.At s) {k : Int} (hl : v.live k) (hk : k ≠ -1) :
    ∃ i : Nat, k = i := by
  rcases hp : s.phase with _ | _ | _ | _
  · exact Int.eq_ofNat_of_zero_le (h.live hp k hl).1
  · exact absurd ((h.completion (.inl hp) k).mp hl) hk
  · exact absurd ((h.completion (.inr hp) k).mp hl) hk
  · exact absurd hl (h.deleted hp k)

/-- A worker runs job `i`. -/
theorem Ok.execute (h : v.Ok) (hle : ∀ k, v.unrun k → v.live k) {b i : Nat} (hi : v.unrun i)
    (r : JobResult R) : Ok { v with
      batch := v.batch.runJob i r, history := v.history ++ [.executed b i r]
      unrun := fun k => v.unrun k ∧ k ≠ i } := by
  obtain ⟨s, h⟩ := h
  have hp := h.running_of_live (hle i hi)
  have hlt : i < v.batch.jobs.length := by
    have := (h.live hp i (hle i hi)).2
    omega
  have hnone : s.results[i]? = some none := (h.unrun hp i hlt).mpr hi
  refine ⟨{ s with results := s.results.set i (some r) }, h.lived.step (.executed hp hnone),
    h.owned, h.submitted, ?_, ?_, h.live, h.outstanding, h.completion, ?_, ?_, h.deleted⟩
  · intro hph
    rw [← h.results hph]
    rfl
  · intro _ k hk
    have hres := h.unrun hp k hk
    by_cases hik : i = k
    · subst hik
      have hlen : i < s.results.length := (List.getElem?_eq_some_iff.mp hnone).1
      simp [hlen]
    · simp only [List.getElem?_set_ne hik, hres]
      have : (k : Int) ≠ i := by omega
      simp [this]
  · intro hph
    rw [hp] at hph
    cases hph
  · intro hph
    rw [hp] at hph
    cases hph

/-- A worker runs the completion function. -/
theorem Ok.complete (h : v.Ok) (hle : ∀ k, v.unrun k → v.live k) {b : Nat} (hi : v.unrun (-1)) :
    Ok { v with
      batch := v.batch.jobCompletion.2, history := v.history ++ [.completed b v.batch.results]
      unrun := fun k => v.unrun k ∧ k ≠ -1 } := by
  obtain ⟨s, h⟩ := h
  have hp : s.phase = .scheduled := by
    rcases h.not_running_of_live (hle _ hi) with hp | hp
    · exact hp
    · exact absurd hi (h.completed hp)
  have hall := h.lived.facts.allReturned (by simp [hp])
  refine ⟨{ s with phase := .completed }, ?_, ?_, ?_, by simp, by simp, by simp, by simp,
    fun _ => h.completion (.inl hp), by simp, by simp, by simp⟩
  · change Life.Lived v.batch.complete.isSome v.batch.jobs.length
      (v.history ++ [.completed b v.batch.results]) _
    rw [h.results (.inr hp)]
    exact h.lived.step (.completed (.inr hp) hall)
  · simpa [hp] using h.owned
  · intro hs
    rw [h.submitted hs] at hp
    cases hp

/-- RAN for the completion function: the batch is deleted. -/
theorem Ok.ranCompletion (h : v.Ok) {b : Nat} (hl : v.live (-1)) (hu : ¬ v.unrun (-1)) :
    Ok { v with
      history := v.history ++ [.deleted b], live := fun k => v.live k ∧ k ≠ -1
      owned := False } := by
  obtain ⟨s, h⟩ := h
  have hp : s.phase = .completed := by
    rcases h.not_running_of_live hl with hp | hp
    · exact absurd (h.scheduled hp) hu
    · exact hp
  have hall := h.lived.facts.allReturned (by simp [hp])
  refine ⟨{ s with phase := .deleted }, h.lived.step (.deleted (.inl hp) hall), by simp, ?_,
    by simp, by simp, by simp, by simp, by simp, by simp, by simp, ?_⟩
  · intro hs
    rw [h.submitted hs] at hp
    cases hp
  · rintro _ k ⟨hk, hne⟩
    exact hne ((h.completion (.inr hp) k).mp hk)

theorem At.ncard_live (h : v.At s) (hp : s.phase = .running) {i : Nat} (hl : v.live i) :
    {k : Nat | v.live k ∧ (k : Int) ≠ i}.ncard = v.batch.jobsOutstanding - 1 := by
  have hset : {k : Nat | v.live k ∧ (k : Int) ≠ i} = {k : Nat | v.live k} \ {i} := by
    ext k
    simp
  have hmem : i ∈ {k : Nat | v.live k} := hl
  rw [hset, (h.outstanding hp).1, Set.ncard_sdiff_singleton_of_mem hmem]

/-- The last job of a batch comes back when all others have. -/
theorem At.last (h : v.At s) (hle : ∀ k, v.unrun k → v.live k) (hp : s.phase = .running)
    {i : Nat} (hl : v.live i) (hu : ¬ v.unrun i) (hlast : v.batch.jobsOutstanding - 1 = 0) :
    (∀ k, v.live k → k = i) ∧ s.AllReturned := by
  have hcard := h.ncard_live hp hl
  rw [hlast, Set.ncard_eq_zero ((h.finite hp).subset fun k hk => hk.1)] at hcard
  have hall : ∀ k, v.live k → k = i := by
    intro k hk
    by_contra hne
    obtain ⟨m, rfl⟩ := Int.eq_ofNat_of_zero_le (h.live hp k hk).1
    have : m ∈ {k : Nat | v.live k ∧ (k : Int) ≠ i} := ⟨hk, hne⟩
    rw [hcard] at this
    exact this
  refine ⟨hall, ?_⟩
  intro o ho
  obtain ⟨k, hk, rfl⟩ := List.getElem_of_mem ho
  rcases hr : s.results[k] with _ | r
  · have hlen := h.lived.facts.length
    have hun : v.unrun k := (h.unrun hp k (by omega)).mp (by rw [List.getElem?_eq_getElem hk, hr])
    have := hall k (hle k hun)
    rw [this] at hun
    exact absurd hun hu
  · rfl

/-- RAN for a job while others are outstanding. -/
theorem Ok.ranRunning (h : v.Ok) {i : Nat} (hl : v.live i)
    (hmore : v.batch.jobsOutstanding - 1 ≠ 0) : Ok { v with
      batch := { v.batch with jobsOutstanding := v.batch.jobsOutstanding - 1 }
      live := fun k => v.live k ∧ k ≠ i } := by
  obtain ⟨s, h⟩ := h
  have hp := h.running_of_live hl
  refine ⟨s, h.lived, h.owned, h.submitted, h.results, h.unrun, fun _ k hk => h.live hp k hk.1,
    fun _ => ⟨(h.ncard_live hp hl).symm, Nat.pos_of_ne_zero hmore⟩, ?_, ?_, ?_, ?_⟩ <;>
    simp [hp]

/-- RAN for the last job, with a completion function for a worker. -/
theorem Ok.ranSchedule (h : v.Ok) (hle : ∀ k, v.unrun k → v.live k) {b i : Nat} (hl : v.live i)
    (hu : ¬ v.unrun i) (hs : ¬ v.submitted) (hlast : v.batch.jobsOutstanding - 1 = 0)
    (hc : v.batch.complete.isSome = true) : Ok { v with
      batch := { v.batch with jobsOutstanding := v.batch.jobsOutstanding - 1 }
      history := v.history ++ [.scheduled b]
      live := fun k => v.live k ∧ k ≠ i ∨ k = -1, unrun := fun k => v.unrun k ∨ k = -1 } := by
  obtain ⟨s, h⟩ := h
  have hp := h.running_of_live hl
  obtain ⟨hother, hall⟩ := h.last hle hp hl hu hlast
  refine ⟨{ s with phase := .scheduled }, h.lived.step (.scheduled hp hall hc), ?_,
    fun h' => absurd h' hs, fun _ => h.results (.inl hp), by simp, by simp, by simp, ?_,
    by simp, by simp, by simp⟩
  · simpa [hp] using h.owned
  · rintro - k
    refine ⟨?_, .inr⟩
    rintro (⟨hk, hne⟩ | hk)
    · exact absurd (hother k hk) hne
    · exact hk

/-- RAN for the last job, with a completion function for the proxy thread. -/
theorem Ok.ranProxy (h : v.Ok) (hle : ∀ k, v.unrun k → v.live k) {b i : Nat} (hl : v.live i)
    (hu : ¬ v.unrun i) (hs : ¬ v.submitted) (hlast : v.batch.jobsOutstanding - 1 = 0)
    (hc : v.batch.complete.isSome = true) : Ok { v with
      batch := { v.batch with jobsOutstanding := v.batch.jobsOutstanding - 1, results := [] }
      history := v.history ++ [.completed b v.batch.results] ++ [.deleted b]
      live := fun k => v.live k ∧ k ≠ i, owned := False } := by
  obtain ⟨s, h⟩ := h
  have hp := h.running_of_live hl
  obtain ⟨hother, hall⟩ := h.last hle hp hl hu hlast
  refine ⟨{ s with phase := .deleted }, ?_, by simp, fun h' => absurd h' hs, by simp, by simp,
    by simp, by simp, by simp, by simp, by simp, fun _ k hk => hk.2 (hother k hk.1)⟩
  change Life.Lived v.batch.complete.isSome v.batch.jobs.length
    (v.history ++ [.completed b v.batch.results] ++ [.deleted b]) _
  rw [h.results (.inl hp)]
  exact (h.lived.step (.completed (.inl ⟨hp, hc⟩) hall)).step (.deleted (.inl rfl) hall)

/-- RAN for the last job of a batch without a completion function. -/
theorem Ok.ranDone (h : v.Ok) (hle : ∀ k, v.unrun k → v.live k) {b i : Nat} (hl : v.live i)
    (hu : ¬ v.unrun i) (hs : ¬ v.submitted) (hlast : v.batch.jobsOutstanding - 1 = 0)
    (hc : v.batch.complete.isSome = false) : Ok { v with
      batch := { v.batch with jobsOutstanding := v.batch.jobsOutstanding - 1 }
      history := v.history ++ [.deleted b]
      live := fun k => v.live k ∧ k ≠ i, owned := False } := by
  obtain ⟨s, h⟩ := h
  have hp := h.running_of_live hl
  obtain ⟨hother, hall⟩ := h.last hle hp hl hu hlast
  exact ⟨{ s with phase := .deleted }, h.lived.step (.deleted (.inr ⟨hp, hc⟩) hall), by simp,
    fun h' => absurd h' hs, by simp, by simp, by simp, by simp, by simp, by simp, by simp,
    fun _ k hk => hk.2 (hother k hk.1)⟩

/-- A batch as it is allocated, given to the proxy or on its way there. -/
theorem Ok.new {jobs : List (Closure × Int)} {comp : Option (Closure × Int)} (hne : jobs ≠ [])
    (hb : v.batch = Batch.build jobs comp) (hh : v.history = [])
    (hl : ∀ k, v.live k ↔ 0 ≤ k ∧ k < jobs.length) (hu : ∀ k, v.unrun k ↔ v.live k)
    (ho : v.owned ↔ ¬ v.submitted) : v.Ok := by
  have hjobs : v.batch.jobs = jobs := by rw [hb, Batch.build_eq]
  have hcard : {i : Nat | v.live i}.ncard = jobs.length := by
    have hset : {i : Nat | v.live i} = Set.Iio jobs.length := by
      ext i
      simp [hl]
    rw [hset, ← Finset.coe_range, Set.ncard_coe_finset, Finset.card_range]
  refine ⟨⟨.running, List.replicate jobs.length none⟩, ?_, by simpa using ho, fun _ => rfl, ?_, ?_,
    ?_, ?_, by simp, by simp, by simp, by simp⟩
  · rw [hh, hjobs]
    exact .new
  · intro _
    rw [hb, Batch.build_eq]
  · intro _ i hi
    rw [hjobs] at hi
    simp [hu, hl, hi]
  · intro _ k hk
    rw [hjobs]
    exact (hl k).mp hk
  · intro _
    rw [hcard, hb, Batch.build_eq]
    exact ⟨rfl, List.length_pos_of_ne_nil hne⟩

/-- A batch of which nothing is left anywhere has been deleted. -/
theorem At.deleted_of_not_live (h : v.At s) (hl : ∀ k, ¬ v.live k) : s.phase = .deleted := by
  rcases hp : s.phase with _ | _ | _ | _
  · obtain ⟨hcard, hpos⟩ := h.outstanding hp
    have hempty : {i : Nat | v.live i} = ∅ := Set.eq_empty_of_forall_notMem fun i => hl i
    rw [hcard, hempty, Set.ncard_empty] at hpos
    exact absurd hpos (lt_irrefl 0)
  · exact absurd ((h.completion (.inl hp) (-1)).mpr rfl) (hl (-1))
  · exact absurd ((h.completion (.inr hp) (-1)).mpr rfl) (hl (-1))
  · rfl

end View

end ArqmaMQ
