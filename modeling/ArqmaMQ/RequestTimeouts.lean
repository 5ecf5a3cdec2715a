import ArqmaMQ.ProxyRequests

/-! When the cleanup gives up on a request that has not been answered. -/

namespace ArqmaMQ

theorem int64_lt (x : Int) : int64 x < 2 ^ 63 := Int.bmod_lt (by decide)

theorem int64_of_fits {x : Int} (hmin : -2 ^ 63 ≤ x) (hmax : x < 2 ^ 63) : int64 x = x :=
  Int.bmod_eq_of_le (by omega) (by omega)

/-- The time up to which the answer is waited for. -/
def deadline (sentAt : Int) (timeout : UInt64) : Int :=
  int64 (sentAt + nanos (int64 timeout.toNat))

theorem deadline_eq (sentAt : Int) (timeout : UInt64) :
    deadline sentAt timeout = int64 (sentAt + timeout.toNat * 1000000) := by
  simp only [deadline, nanos, int64, Int.bmod_mul_bmod, Int.add_bmod_bmod]

/-- The clock never gets to the deadline, and what is computed for it is not the
last reading of the clock either. -/
def Overflows (sentAt : Int) (timeout : UInt64) : Prop :=
  2 ^ 63 ≤ sentAt + timeout.toNat * 1000000 ∧ deadline sentAt timeout ≠ 2 ^ 63 - 1

theorem deadline_of_not_overflows {sentAt : Int} {timeout : UInt64} (hclock : -2 ^ 63 ≤ sentAt)
    (h : ¬ Overflows sentAt timeout) :
    deadline sentAt timeout = min (sentAt + timeout.toNat * 1000000) (2 ^ 63 - 1) := by
  by_cases hfits : sentAt + timeout.toNat * 1000000 < 2 ^ 63
  · rw [deadline_eq, int64_of_fits (by omega) hfits]
    omega
  · have hlast : deadline sentAt timeout = 2 ^ 63 - 1 :=
      not_not.mp fun hne => h ⟨by omega, hne⟩
    omega

namespace Proxy

variable {ι R : Type} [DecidableEq ι] {p p' q q' : Proxy ι R} {tag : Bytes} {r : PendingRequest}
  {clock : ConnectionID → Int} {now : Int}

omit [DecidableEq ι] in
theorem Settled.eq_of_callback (h : p.Settled) {x y : Bytes × PendingRequest}
    (hx : x ∈ p.pendingRequests) (hy : y ∈ p.pendingRequests)
    (hcallback : x.2.callback = y.2.callback) : x = y := by
  have htag := congrArg Prod.fst
    (List.inj_on_of_nodup_map h.issued.2 (h.keyed x hx) (h.keyed y hy) hcallback)
  exact List.inj_on_of_nodup_map h.tags hx hy htag

theorem exists_proxyConnCleanup (p : Proxy ι R) (clock : ConnectionID → Int) (now : Int) :
    ∃ p', p.proxyConnCleanup clock now = some p' := by
  have hjobs : ∀ e ∈ ((p.conns.proxyExpireIdlePeers clock).timeOutConnects now).2 ++
      (p.pendingRequests.timeOut now).2, ∃ f, e = .job f := by
    intro e he
    rcases List.mem_append.mp he with he | he
    · obtain ⟨f, conn, what, rfl⟩ := Connections.timeOutConnects_effects _ now e he
      exact ⟨_, rfl⟩
    · obtain ⟨r, -, rfl⟩ := List.mem_map.mp he
      exact ⟨_, rfl⟩
  obtain ⟨d, hd⟩ := Dispatch.exists_perform_jobs hjobs p.dispatch
  exact ⟨_, Option.bind_eq_some_iff.mpr ⟨d, hd, rfl⟩⟩

/-- Among the functions that have been scheduled in between, the callback is
called with a timeout. -/
def TimesOut (q q' : Proxy ι R) (callback : Nat) : Prop :=
  ∃ fs, q'.scheduled = q.scheduled ++ fs ∧ .reply callback false [bytes "TIMEOUT"] ∈ fs

theorem timesOut_iff (h : q.Settled) (hr : (tag, r) ∈ q.pendingRequests)
    (hq : q.proxyConnCleanup clock now = some q') :
    TimesOut q q' r.callback ↔ r.expiry < now := by
  obtain ⟨d, hd, hq⟩ := Option.bind_eq_some_iff.mp hq
  obtain rfl := Option.some.inj hq
  have hnone := (q.conns.proxyExpireIdlePeers clock).request?_timeOutConnects now
  have hsched := (Dispatch.schedules_perform hd).closures
  rw [List.map_append] at hsched
  constructor
  · rintro ⟨fs, hfs, hmem⟩
    obtain rfl := List.append_cancel_left (hfs.symm.trans hsched)
    rcases List.mem_append.mp hmem with hmem | hmem
    · obtain ⟨e, he, heq⟩ := List.mem_map.mp hmem
      have := hnone e he
      rw [heq] at this
      cases this
    · obtain ⟨e, he, heq⟩ := List.mem_map.mp hmem
      obtain ⟨x, hx, rfl⟩ := List.mem_map.mp he
      obtain ⟨hx, hexp⟩ := List.mem_filter.mp hx
      have hcallback : x.2.callback = r.callback := (Closure.reply.inj heq).1
      obtain rfl := h.eq_of_callback hx hr hcallback
      exact of_decide_eq_true hexp
  · intro hexp
    refine ⟨_, hsched, List.mem_append_right _ (List.mem_map.mpr ⟨_, List.mem_map.mpr
      ⟨(tag, r), List.mem_filter.mpr ⟨hr, decide_eq_true hexp⟩, rfl⟩, rfl⟩)⟩

/-- An entry stays as it is while it is there, and a tag is not used again. -/
theorem request_act (hact : Act p p') : p.issued ⊆ p'.issued ∧
    ∀ x ∈ p'.pendingRequests, x ∈ p.pendingRequests ∨ x.1 ∉ p.issued.map Prod.fst := by
  cases hact with
  | send env o expiry hf hs hd =>
    refine ⟨List.subset_append_left _ _, fun x hx => ?_⟩
    dsimp only at hx
    rw [requestSent] at hx
    split at hx
    case h_1 tag callback hreq =>
      split at hx
      · rw [Requests.insert] at hx
        split at hx
        · exact .inl hx
        · rcases List.mem_append.mp hx with hx | hx
          · exact .inl hx
          · obtain rfl := List.mem_singleton.mp hx
            exact .inr (hf _ hreq).1
      · exact .inl hx
    case h_2 => exact .inl hx
  | cleanup clock now hd => exact ⟨List.Subset.refl _, fun x hx => .inl (List.mem_filter.mp hx).1⟩
  | @builtin d l m hl hd =>
    refine ⟨List.Subset.refl _, fun x hx => .inl ?_⟩
    change x ∈ (p.builtin m l).requests at hx
    rcases p.builtin_case m l with ⟨-, hr, -⟩ | ⟨tag, data, -, -, hr, -⟩ | ⟨cmd, tag, -, -, hr, -⟩ |
      ⟨-, -, hr, -⟩ | ⟨-, -, hr, -⟩
    · exact hr ▸ hx
    · exact (Requests.answer_sublist _ _ _ _).subset (hr ▸ hx)
    · exact (Requests.answer_sublist _ _ _ _).subset (hr ▸ hx)
    · exact hr ▸ hx
    · exact hr ▸ hx
  | rehash peers requests _ hr => exact ⟨List.Subset.refl _, fun x hx => .inl (hr.subset hx)⟩
  | touch i now =>
    unfold Proxy.touch
    split <;> exact ⟨List.Subset.refl _, fun x hx => .inl hx⟩
  | next hn =>
    obtain ⟨d, stale, hd, rfl⟩ := next_eq_some hn
    exact ⟨List.Subset.refl _, fun x hx => .inl hx⟩
  | _ => exact ⟨List.Subset.refl _, fun x hx => .inl hx⟩

theorem expiry_of_send {env : SendEnv} {o : SendOptions} {sentAt : Int} {callback : Nat}
    (h : p.Settled) (hstep : p.step (.send env o sentAt) = some p')
    (hreq : o.request = some (tag, callback)) : tag ∈ p'.issued.map Prod.fst ∧
      ∀ r, (tag, r) ∈ p'.pendingRequests → r.expiry = int64 (sentAt + nanos o.requestTimeout) := by
  rw [step] at hstep
  split at hstep
  case isFalse => cases hstep
  case isTrue hf =>
    obtain ⟨s, hs, hstep⟩ := Option.bind_eq_some_iff.mp hstep
    obtain ⟨d, hd, hstep⟩ := Option.bind_eq_some_iff.mp hstep
    obtain rfl := Option.some.inj hstep
    -- `insert` would keep an entry that is already there, but the tag is a new one
    have hfresh := (hf.2 _ hreq).1
    have hold (r : PendingRequest) : (tag, r) ∉ p.pendingRequests := fun hr =>
      hfresh (List.mem_map.mpr ⟨_, h.keyed _ hr, rfl⟩)
    refine ⟨by simp [hreq], fun r hr => ?_⟩
    simp only [requestSent, hreq] at hr
    split at hr
    · rw [Requests.insert] at hr
      split at hr
      · exact (hold r hr).elim
      · rcases List.mem_append.mp hr with hr | hr
        · exact (hold r hr).elim
        · exact congrArg (fun x => x.2.expiry) (List.mem_singleton.mp hr)
    · exact (hold r hr).elim

variable [Fintype ι]

theorem request_of_runs (hruns : (machine ι R).Runs p q) (hissued : tag ∈ p.issued.map Prod.fst)
    (hr : (tag, r) ∈ q.pendingRequests) : (tag, r) ∈ p.pendingRequests := by
  have hact (q q' : Proxy ι R) (hqq' : Act q q') (h : tag ∈ q.issued.map Prod.fst ∧
      ∀ r, (tag, r) ∈ q.pendingRequests → (tag, r) ∈ p.pendingRequests) :
      tag ∈ q'.issued.map Prod.fst ∧
        ∀ r, (tag, r) ∈ q'.pendingRequests → (tag, r) ∈ p.pendingRequests := by
    obtain ⟨hsub, hold⟩ := request_act hqq'
    refine ⟨List.map_subset _ hsub h.1, fun r hr => ?_⟩
    exact (hold _ hr).elim (h.2 r) fun hnew => (hnew h.1).elim
  refine (Transition.Machine.Runs.invariant (M := machine ι R) (P := fun q =>
    tag ∈ q.issued.map Prod.fst ∧ ∀ r, (tag, r) ∈ q.pendingRequests → (tag, r) ∈ p.pendingRequests)
    (fun q e q' h hs => Transition.reflTransGen_invariant hact (acts_of_step hs) h) hruns
    ⟨hissued, fun _ => id⟩).2 r hr

/-- In whatever happens next, no cleanup gives up on the request before its
timeout is over. -/
def NeverEarly (p : Proxy ι R) (tag : Bytes) (sentAt : Int) (timeout : UInt64) : Prop :=
  ∀ q, (machine ι R).Runs p q → ∀ r, (tag, r) ∈ q.pendingRequests →
    ∀ clock now q', sentAt ≤ now → now < 2 ^ 63 → q.proxyConnCleanup clock now = some q' →
      TimesOut q q' r.callback → sentAt + timeout.toNat * 1000000 < now

/-- A request that was sent is waited for as long as it should be, and the longer
the larger its timeout is, unless the deadline overflows. -/
theorem neverEarly_iff_not_overflows (h : (machine ι R).Reachable p) (env : SendEnv)
    (o : SendOptions) (sentAt : Int) (hmin : -2 ^ 63 ≤ sentAt) (hmax : sentAt < 2 ^ 63)
    (timeout : UInt64) (htimeout : o.requestTimeout = int64 timeout.toNat) (callback : Nat)
    (hreq : o.request = some (tag, callback)) (hstep : p.step (.send env o sentAt) = some p')
    (hpending : tag ∈ p'.pendingRequests.map Prod.fst) :
    (p'.NeverEarly tag sentAt timeout ↔ ¬ Overflows sentAt timeout) ∧
      ∀ longer, timeout ≤ longer → ¬ Overflows sentAt timeout → ¬ Overflows sentAt longer →
        deadline sentAt timeout ≤ deadline sentAt longer := by
  have hp' : (machine ι R).Reachable p' := h.step (e := .send env o sentAt) hstep
  obtain ⟨hissued, hexpiry⟩ := expiry_of_send (settled_of_reachable h) hstep hreq
  rw [htimeout] at hexpiry
  refine ⟨⟨fun hnever hover => ?_, fun hno q hruns r hr clock now q' hle hlt hq hout => ?_⟩,
    fun longer hle hno hno' => ?_⟩
  · obtain ⟨⟨tag, r⟩, hr, rfl⟩ := List.mem_map.mp hpending
    -- the last reading of the clock comes after the deadline that was computed
    have hlast : r.expiry < 2 ^ 63 - 1 := by
      have hlt := int64_lt (sentAt + nanos (int64 timeout.toNat))
      have hne := hover.2
      rw [hexpiry r hr]
      rw [deadline] at hne
      omega
    obtain ⟨q', hq⟩ := p'.exists_proxyConnCleanup (fun _ => 0) (2 ^ 63 - 1)
    have hout := (timesOut_iff (settled_of_reachable hp') hr hq).mpr hlast
    have hlate := hnever p' (.refl _ _) r hr _ _ q' (by omega) (by omega) hq hout
    have hover := hover.1
    omega
  · have hsettled : q.Settled := by
      obtain ⟨es, hes⟩ := hruns
      exact settled_of_reachable (hp'.run hes)
    have hexp := (timesOut_iff hsettled hr hq).mp hout
    rw [hexpiry r (request_of_runs hruns hissued hr)] at hexp
    have hdeadline := deadline_of_not_overflows hmin hno
    rw [deadline] at hdeadline
    omega
  · rw [deadline_of_not_overflows hmin hno, deadline_of_not_overflows hmin hno']
    have := UInt64.le_iff_toNat_le.mp hle
    omega

/-- A request to the service node of the sample, which goes out on a new connection. -/
def sampleQuery (requestTimeout : Int) : SendOptions where
  conn := { id := ConnectionID.snId, pk := sampleKey }
  request := some ([1], 0)
  requestTimeout

def sampleSent : SendEnv where
  net := sampleNetwork
  now := 0
  outcome _ := .sent

theorem neverEarly_default : ∃ p' : Proxy Unit Unit,
    sample.step (.send sampleSent (sampleQuery 15000) 0) = some p' ∧
      p'.NeverEarly [1] 0 15000 := by
  have hsent : (sample.step (.send sampleSent (sampleQuery 15000) 0)).any
      (fun p => decide ([1] ∈ p.pendingRequests.map Prod.fst)) = true := by decide +kernel
  obtain ⟨p', hp', hpending⟩ := (Option.any_eq_true _ _).mp hsent
  refine ⟨p', hp', (neverEarly_iff_not_overflows sample_reachable sampleSent (sampleQuery 15000) 0
    (by decide) (by decide) 15000 (by decide) 0 rfl hp' (of_decide_eq_true hpending)).1.mpr ?_⟩
  exact fun hover => absurd hover.1 (by decide)

/-- The largest timeout, `std::chrono::milliseconds::max()`, is over at once. -/
theorem early_when_longest : ∃ p' q' : Proxy Unit Unit,
    sample.step (.send sampleSent (sampleQuery (int64 9223372036854775807)) 0) = some p' ∧
      p'.proxyConnCleanup (fun _ => 0) 0 = some q' ∧ TimesOut p' q' 0 ∧
      ¬ p'.NeverEarly [1] 0 9223372036854775807 := by
  have hsent : (sample.step (.send sampleSent (sampleQuery (int64 9223372036854775807)) 0)).any
      (fun p => decide (([1], ⟨-1000000, 0⟩) ∈ p.pendingRequests)) = true := by decide +kernel
  obtain ⟨p', hp', hpending⟩ := (Option.any_eq_true _ _).mp hsent
  have hr := of_decide_eq_true hpending
  have hreach : (machine Unit Unit).Reachable p' := sample_reachable.step
    (e := .send sampleSent (sampleQuery (int64 9223372036854775807)) 0) hp'
  obtain ⟨q', hq'⟩ := p'.exists_proxyConnCleanup (fun _ => 0) 0
  have hout := (timesOut_iff (settled_of_reachable hreach) hr hq').mpr (by decide)
  refine ⟨p', q', hp', hq', hout, fun hnever => ?_⟩
  exact absurd (hnever p' (.refl _ _) _ hr _ _ q' (by decide) (by decide) hq' hout) (by decide)

end Proxy

end ArqmaMQ
