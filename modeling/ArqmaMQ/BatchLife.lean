import ArqmaMQ.Jobs

/-! The life of a batch, seen from its history alone: jobs return once each, the
completion function gets their results when all have, and the batch is deleted
after that. -/

namespace ArqmaMQ

variable {R : Type}

namespace JobEvent

def batch : JobEvent R → Nat
  | .executed b _ _ => b
  | .scheduled b => b
  | .completed b _ => b
  | .deleted b => b

def isExecuted (i : Nat) : JobEvent R → Bool
  | .executed _ j _ => j = i
  | _ => false

def isScheduled : JobEvent R → Bool
  | .scheduled _ => true
  | _ => false

def isCompleted : JobEvent R → Bool
  | .completed .. => true
  | _ => false

def isDeleted : JobEvent R → Bool
  | .deleted _ => true
  | _ => false

end JobEvent

inductive LifePhase
  | running | scheduled | completed | deleted
  deriving DecidableEq, Repr

structure Life (R : Type) where
  phase : LifePhase
  results : List (Option (JobResult R))

namespace Life

def AllReturned (s : Life R) : Prop := ∀ o ∈ s.results, o.isSome

/-- One event in the life of a batch, with or without a completion function. -/
inductive Step (completion : Bool) : Life R → JobEvent R → Life R → Prop
  | executed {s b i r} (hp : s.phase = .running) (hi : s.results[i]? = some none) :
    Step completion s (.executed b i r) { s with results := s.results.set i (some r) }
  | scheduled {s b} (hp : s.phase = .running) (hall : s.AllReturned) (hc : completion = true) :
    Step completion s (.scheduled b) { s with phase := .scheduled }
  | completed {s b} (hp : s.phase = .running ∧ completion = true ∨ s.phase = .scheduled)
    (hall : s.AllReturned) :
    Step completion s (.completed b s.results) { s with phase := .completed }
  | deleted {s b} (hp : s.phase = .completed ∨ s.phase = .running ∧ completion = false)
    (hall : s.AllReturned) : Step completion s (.deleted b) { s with phase := .deleted }

inductive Lived (completion : Bool) (n : Nat) : List (JobEvent R) → Life R → Prop
  | new : Lived completion n [] ⟨.running, List.replicate n none⟩
  | step {l s e s'} : Lived completion n l s → Step completion s e s' →
    Lived completion n (l ++ [e]) s'

variable {completion : Bool} {n : Nat} {l : List (JobEvent R)} {s s' : Life R} {e : JobEvent R}

/-- What the phase of a life says about its history. -/
structure Facts (n : Nat) (l : List (JobEvent R)) (s : Life R) : Prop where
  length : s.results.length = n
  executed : ∀ i, l.countP (·.isExecuted i) = if s.results[i]?.join.isSome then 1 else 0
  scheduled : l.countP (·.isScheduled) ≤ if s.phase = .running then 0 else 1
  completed : l.countP (·.isCompleted) ≤
    if s.phase = .running ∨ s.phase = .scheduled then 0 else 1
  deleted : l.countP (·.isDeleted) = if s.phase = .deleted then 1 else 0
  returned : ∀ i r, s.results[i]? = some (some r) → ∃ b, .executed b i r ∈ l
  passed : ∀ b rs, .completed b rs ∈ l → s.phase ≠ .running ∧ rs = s.results
  allReturned : s.phase ≠ .running → s.AllReturned

theorem Facts.execute (h : Facts n l s) {b i : Nat} {r : JobResult R} (hp : s.phase = .running)
    (hi : s.results[i]? = some none) : Facts n (l ++ [.executed b i r])
      { s with results := s.results.set i (some r) } := by
  obtain ⟨hlt, hnone⟩ := List.getElem?_eq_some_iff.mp hi
  refine ⟨by simp [h.length], ?_, ?_, ?_, ?_, ?_, ?_, fun hne => absurd hp hne⟩
  · intro j
    rw [List.countP_append, h.executed j]
    by_cases hj : i = j
    · subst hj
      simp [hlt, hnone, JobEvent.isExecuted]
    · simp [hj, JobEvent.isExecuted]
  · simpa [JobEvent.isScheduled] using h.scheduled
  · simpa [JobEvent.isCompleted] using h.completed
  · simpa [JobEvent.isDeleted] using h.deleted
  · intro j r' hr'
    by_cases hj : i = j
    · subst hj
      obtain rfl : r = r' := by simpa [hlt] using hr'
      exact ⟨b, by simp⟩
    · obtain ⟨b', hb'⟩ := h.returned j r' (by simpa [hj] using hr')
      exact ⟨b', by simp [hb']⟩
  · intro b' rs hmem
    exact absurd hp (h.passed b' rs (by simpa using hmem)).1

theorem Facts.step (h : Facts n l s) (hs : Step completion s e s') : Facts n (l ++ [e]) s' := by
  have hsched := h.scheduled
  have hcompl := h.completed
  have hdel := h.deleted
  have hmem : ∀ {e' : JobEvent R} {i r}, (∃ b, .executed b i r ∈ l) →
      ∃ b, .executed b i r ∈ l ++ [e'] := fun ⟨b, hb⟩ => ⟨b, List.mem_append_left _ hb⟩
  cases hs with
  | executed hp hi => exact h.execute hp hi
  | scheduled hp hall hc =>
    rw [hp] at hsched hcompl hdel
    refine ⟨h.length, ?_, ?_, ?_, ?_, fun i r hr => hmem (h.returned i r hr), ?_,
      fun _ => hall⟩
    · simpa [JobEvent.isExecuted] using h.executed
    · simpa [JobEvent.isScheduled] using hsched
    · simpa [JobEvent.isCompleted] using hcompl
    · simpa [JobEvent.isDeleted] using hdel
    · intro b rs hb
      exact ⟨by simp, (h.passed b rs (by simpa using hb)).2⟩
  | completed hp hall =>
    replace hp : s.phase = .running ∨ s.phase = .scheduled := hp.imp And.left id
    have hzero : l.countP (·.isCompleted) = 0 := by simpa [hp] using hcompl
    have hlive : s.phase ≠ .deleted := by rcases hp with hp | hp <;> simp [hp]
    refine ⟨h.length, ?_, ?_, ?_, ?_, fun i r hr => hmem (h.returned i r hr), ?_,
      fun _ => hall⟩
    · simpa [JobEvent.isExecuted] using h.executed
    · refine le_trans ?_ (le_trans hsched ?_)
      · simp [JobEvent.isScheduled]
      · split <;> simp
    · rw [List.countP_append, hzero]
      simp [JobEvent.isCompleted]
    · simpa [JobEvent.isDeleted, hlive] using hdel
    · intro b rs hb
      refine ⟨by simp, ?_⟩
      rcases List.mem_append.mp hb with hb | hb
      · exact (h.passed b rs hb).2
      · exact (JobEvent.completed.inj (List.mem_singleton.mp hb)).2
  | deleted hp hall =>
    have hlive : s.phase ≠ .deleted := by rcases hp with hp | ⟨hp, -⟩ <;> simp [hp]
    refine ⟨h.length, ?_, ?_, ?_, ?_, fun i r hr => hmem (h.returned i r hr), ?_,
      fun _ => hall⟩
    · simpa [JobEvent.isExecuted] using h.executed
    · refine le_trans ?_ (le_trans hsched ?_)
      · simp [JobEvent.isScheduled]
      · split <;> simp
    · refine le_trans ?_ (le_trans hcompl ?_)
      · simp [JobEvent.isCompleted]
      · split <;> simp
    · simpa [JobEvent.isDeleted, hlive] using hdel
    · intro b rs hb
      exact ⟨by simp, (h.passed b rs (by simpa using hb)).2⟩

theorem Lived.facts (h : Lived completion n l s) : Facts n l s := by
  induction h with
  | new =>
    refine ⟨by simp, ?_, by simp, by simp, by simp, ?_, by simp, by simp⟩
    · intro i
      by_cases hi : i < n <;> simp [hi]
    · intro i r hr
      by_cases hi : i < n <;> simp [hi] at hr
  | step _ hs ih => exact ih.step hs

theorem Facts.mem_deleted (h : Facts n l s) : s.phase = .deleted ↔ ∃ e ∈ l, e.isDeleted := by
  rw [← List.countP_pos_iff, h.deleted]
  split <;> simp [*]

theorem Lived.of_concat (h : Lived completion n (l ++ [e]) s') :
    ∃ s, Lived completion n l s ∧ Step completion s e s' := by
  generalize hl : l ++ [e] = l' at h
  cases h with
  | new => simp at hl
  | step h hs =>
    obtain ⟨rfl, rfl⟩ : l = _ ∧ e = _ := by simpa using hl
    exact ⟨_, h, hs⟩

theorem Lived.of_append {pre post : List (JobEvent R)}
    (h : Lived completion n (pre ++ e :: post) s) :
    ∃ s₁ s₂, Lived completion n pre s₁ ∧ Step completion s₁ e s₂ := by
  induction post using List.reverseRecOn generalizing s with
  | nil =>
    obtain ⟨s₁, h₁, hs⟩ := h.of_concat
    exact ⟨s₁, s, h₁, hs⟩
  | append_singleton post e' ih =>
    obtain ⟨s₁, h₁, -⟩ := Lived.of_concat (l := pre ++ e :: post) (by simpa using h)
    exact ih h₁

/-- Only the jobs themselves happen before all jobs have returned. -/
theorem Lived.returned_before {pre post : List (JobEvent R)}
    (h : Lived completion n (pre ++ e :: post) s) (he : ∀ i, e.isExecuted i = false) {i : Nat}
    (hi : i < n) : ∃ b r, .executed b i r ∈ pre := by
  obtain ⟨s₁, s₂, h₁, hs⟩ := h.of_append
  have hall : s₁.AllReturned := by
    cases hs with
    | executed => simp [JobEvent.isExecuted] at he
    | scheduled _ hall => exact hall
    | completed _ hall => exact hall
    | deleted _ hall => exact hall
  have hfacts := h₁.facts
  have hlt : i < s₁.results.length := by rwa [hfacts.length]
  obtain ⟨r, hr⟩ := Option.isSome_iff_exists.mp (hall _ (List.getElem_mem hlt))
  obtain ⟨b, hb⟩ := hfacts.returned i r (by rw [List.getElem?_eq_getElem hlt, hr])
  exact ⟨b, r, hb⟩

end Life

namespace Jobs

def history (j : Jobs R) (b : Nat) : List (JobEvent R) := j.log.filter (·.batch = b)

theorem mem_history {j : Jobs R} {b : Nat} {e : JobEvent R} :
    e ∈ j.history b ↔ e ∈ j.log ∧ e.batch = b := by
  simp [history]

theorem countP_history (j : Jobs R) (b : Nat) (p : JobEvent R → Bool) :
    (j.history b).countP p = j.log.countP fun e => p e && e.batch = b := by
  rw [history, List.countP_filter]

end Jobs

end ArqmaMQ
