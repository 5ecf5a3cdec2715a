import ArqmaMQ.SendEffects

/-! What the sender of a message is told when it was not sent. -/

namespace ArqmaMQ

/-- A callback given with `send_option::queue_failure` or `send_option::queue_full`. -/
inductive FailureCallback
  | queueFailure (callback : Nat)
  | queueFull (callback : Nat)
  deriving DecidableEq, Repr

def Closure.failure? : Closure → Option FailureCallback
  | .sendFail callback _ => some (.queueFailure callback)
  | .sendFullQueue callback => some (.queueFull callback)
  | _ => none

/-- The callback that is due when the message is not sent. -/
def SendOptions.due (o : SendOptions) : Option FailureCallback :=
  (o.callbackNosend.map .queueFailure).or (o.callbackNoqueue.map .queueFull)

/-- `zmq::error_t` -/
def SendOutcome.threw : SendOutcome → Bool
  | .hostUnreachable | .error _ => true
  | .sent | .wouldBlock => false

/-- Another connection of the service node is tried. -/
def Attempt.Retried (a : Attempt) (sn : Bool) : Prop :=
  a.outcome = .hostUnreachable ∧ sn = true ∧ a.route ≠ []

namespace SendState

variable {env : SendEnv} {o : SendOptions} {s s' : SendState} {i fuel : Nat}

theorem equalRange_ne_nil (ht : s.target env o = some (some i, s')) (hsn : s.conn.sn = true)
    (hroute : s'.conn.route ≠ []) : s'.conns.equalRange s'.conn ≠ [] := by
  have hpk : s.conn.pk.length = 32 := by
    have h := ht
    rw [target, if_pos hsn] at h
    obtain ⟨⟨r, c⟩, hc, -⟩ := Option.map_eq_some_iff.mp h
    obtain ⟨cid, hcid, -⟩ := Connections.proxyConnectSn_eq_some hc
    by_contra hlen
    rw [ConnectionID.ofPubkey, if_neg hlen] at hcid
    cases hcid
  obtain ⟨t, s₁, ht₁, -, hcases⟩ := target_cases env o hsn hpk
  obtain ⟨rfl, rfl⟩ := Prod.mk.inj (Option.some.inj (ht.symm.trans ht₁))
  rcases hcases with ⟨h, -⟩ | ⟨j, -, hnil, -⟩ | ⟨e, j, hsel, -, -, rfl⟩
  · cases h
  · exact (hroute hnil).elim
  · have hrange : s.conns.equalRange { s.conn with route := e.2.route } =
        s.conns.equalRange s.conn := Connections.equalRange_congr hsn hsn rfl
    change s.conns.equalRange { s.conn with route := e.2.route } ≠ []
    rw [hrange]
    exact List.ne_nil_of_mem (List.mem_of_find?_eq_some hsel)

theorem retry_iff (ht : s.target env o = some (some i, s')) (hsn : s'.conn.sn = s.conn.sn)
    {retry : Bool} {s'' : SendState} (h : s'.removePeer fuel = some (retry, s'')) :
    retry = true ↔ s.conn.sn = true ∧ s'.conn.route ≠ [] := by
  rw [removePeer] at h
  split at h
  case isTrue hroute =>
    obtain ⟨rfl, -⟩ := Prod.mk.inj (Option.some.inj h)
    exact iff_of_false (by simp) fun hh => hh.2 hroute
  case isFalse hroute =>
    split at h
    case h_1 hrange =>
      obtain ⟨rfl, -⟩ := Prod.mk.inj (Option.some.inj h)
      exact iff_of_false (by simp) fun hh => equalRange_ne_nil ht hh.1 hroute hrange
    case h_2 it range hrange =>
      split at h
      case isFalse hno =>
        obtain ⟨rfl, -⟩ := Prod.mk.inj (Option.some.inj h)
        exact iff_of_false (by simp) fun hh => hno (hsn.trans hh.1)
      case isTrue hyes =>
        obtain ⟨r, hfind, hr⟩ := Option.map_eq_some_iff.mp h
        -- the inner loop never gets past the first entry: it is the one, or the loop hangs
        by_cases hfirst : it.1.2.route = s'.conn.route
        · cases fuel with
          | zero => cases hfind
          | succ fuel =>
            rw [findRoute_head hfirst] at hfind
            obtain rfl := Option.some.inj hfind
            obtain ⟨rfl, -⟩ := Prod.mk.inj hr
            exact iff_of_true rfl ⟨hsn.symm.trans hyes, hroute⟩
        · rw [findRoute_stuck hfirst] at hfind
          cases hfind

/-- Nobody has been told anything yet. -/
structure Silent (o : SendOptions) (s : SendState) : Prop where
  effects : s.effects = []
  callbackNosend : s.callbackNosend = o.callbackNosend
  sent : s.sent = false

/-- All that has come of the attempts so far is that another one is due. -/
structure Trying (o : SendOptions) (s : SendState) : Prop extends Silent o s where
  sn : s.conn.sn = o.conn.sn
  retried : ∀ a ∈ s.attempts, a.Retried o.conn.sn

theorem Trying.target {t : Option Nat} (h : Trying o s) (ht : s.target env o = some (t, s')) :
    Trying o s' := by
  obtain rfl | ⟨r, c, route, -, rfl⟩ := target_eq_some ht
  · exact h
  · exact ⟨⟨h.effects, h.callbackNosend, h.sent⟩, h.sn, h.retried⟩

theorem Trying.removePeer {retry : Bool} (h : Trying o s)
    (hr : s.removePeer fuel = some (retry, s')) : Trying o s' := by
  obtain rfl | ⟨-, it, -, -, rfl⟩ := removePeer_eq_some hr
  · exact h
  · exact ⟨⟨h.effects, h.callbackNosend, h.sent⟩, h.sn, h.retried⟩

theorem Trying.record {a : Attempt} (h : Trying o s) (ha : a.Retried o.conn.sn) :
    Trying o (s.record a) := by
  refine ⟨⟨h.effects, h.callbackNosend, h.sent⟩, h.sn, fun b hb => ?_⟩
  rcases List.mem_append.mp hb with hb | hb
  · exact h.retried b hb
  · exact List.mem_singleton.mp hb ▸ ha

/-- The loop is left without a connection, or with an attempt that is not repeated. -/
theorem Trying.sendLoop (h : Trying o s) (hs : sendLoop env o fuel s = some s') :
    Trying o s' ∨ ∃ t a, Trying o t ∧ ¬ a.Retried o.conn.sn ∧
      s' = (t.record a).finish a.outcome := by
  refine sendLoop_rule (P := Trying o) (Q := fun s' => Trying o s' ∨ ∃ t a, Trying o t ∧
    ¬ a.Retried o.conn.sn ∧ s' = (t.record a).finish a.outcome)
    (fun s s' h ht => .inl (h.target ht)) ?_ h hs
  intro s i s₁ fuel retry s₂ h ht h₂
  have h₁ := h.target ht
  dsimp only
  split at h₂
  case isTrue hout =>
    have hiff := retry_iff ht (h₁.sn.trans h.sn.symm) h₂
    rw [h.sn] at hiff
    split
    case isTrue hretry => exact (h₁.removePeer h₂).record ⟨hout, hiff.mp hretry⟩
    case isFalse hretry =>
      exact .inr ⟨s₂, _, h₁.removePeer h₂, fun ha => hretry (hiff.mpr ha.2), rfl⟩
  case isFalse hout =>
    obtain ⟨rfl, rfl⟩ := Prod.mk.inj (Option.some.inj h₂)
    rw [if_neg (by simp)]
    exact .inr ⟨_, _, h₁, fun ha => hout ha.1, rfl⟩

def failures (s : SendState) (o : SendOptions) : List FailureCallback :=
  ((s.afterLoop o).map Effect.closure).filterMap Closure.failure?

theorem failures_of_not_sent (h : s.sent = false) : s.failures o =
    (s.effects.map Effect.closure).filterMap Closure.failure? ++
      ((s.callbackNosend.map FailureCallback.queueFailure).or
        (o.callbackNoqueue.map .queueFull)).toList := by
  rw [failures, afterLoop_eq o (by simp [h]), notice, List.map_append, List.filterMap_append]
  congr 1
  cases o.request <;> cases s.callbackNosend <;> cases o.callbackNoqueue <;> rfl

theorem Silent.failures (h : Silent o s) : s.failures o = o.due.toList := by
  rw [failures_of_not_sent h.sent, h.effects, h.callbackNosend]
  rfl

/-- The callback for a full queue comes on top of the other one. -/
theorem Silent.failures_fail (h : Silent o s) (num : Nat) : (s.fail num).failures o =
    o.due.toList ++ if o.callbackNosend.isSome then
      (o.callbackNoqueue.map FailureCallback.queueFull).toList else [] := by
  rw [fail, h.callbackNosend]
  split
  case h_1 f hf =>
    rw [failures_of_not_sent (by exact h.sent), h.effects, SendOptions.due, hf]
    rfl
  case h_2 hf =>
    rw [h.failures, if_neg (by rw [hf]; simp), List.append_nil]

theorem Silent.failures_fail_eq_iff (h : Silent o s) (num : Nat) :
    (s.fail num).failures o = o.due.toList ↔
      ¬ (o.callbackNosend.isSome = true ∧ o.callbackNoqueue.isSome = true) := by
  rw [h.failures_fail]
  cases o.callbackNosend <;> cases o.callbackNoqueue <;> simp

def WasSent (s : SendState) : Prop := ∃ a ∈ s.attempts, a.outcome = .sent

/-- The last attempt threw. -/
def Threw (o : SendOptions) (s : SendState) : Prop :=
  ∃ a ∈ s.attempts, a.outcome.threw = true ∧ ¬ a.Retried o.conn.sn

/-- Exactly the callback that is due is scheduled when the message was not sent,
and none when it was. -/
def Told (o : SendOptions) (s : SendState) : Prop :=
  (s.WasSent → s.failures o = []) ∧ (¬ s.WasSent → s.failures o = o.due.toList)

theorem told_iff_of_not_sent (h : ¬ s.WasSent) : Told o s ↔ s.failures o = o.due.toList :=
  ⟨fun ht => ht.2 h, fun heq => ⟨fun hs => (h hs).elim, fun _ => heq⟩⟩

theorem Trying.not_wasSent (h : Trying o s) : ¬ s.WasSent := by
  rintro ⟨a, ha, hout⟩
  cases (h.retried a ha).1.symm.trans hout

theorem Trying.not_threw (h : Trying o s) : ¬ Threw o s := fun ⟨a, ha, hthrew⟩ =>
  hthrew.2 (h.retried a ha)

theorem told_of_trying (h : Trying o s) : Told o s :=
  (told_iff_of_not_sent h.not_wasSent).mpr h.failures

theorem Trying.wasSent_finish {a : Attempt} (h : Trying o s) :
    ((s.record a).finish a.outcome).WasSent ↔ a.outcome = .sent := by
  rw [WasSent, attempts_finish]
  constructor
  · rintro ⟨b, hb, hout⟩
    rcases List.mem_append.mp hb with hb | hb
    · exact (h.not_wasSent ⟨b, hb, hout⟩).elim
    · exact List.mem_singleton.mp hb ▸ hout
  · exact fun hout => ⟨a, List.mem_append_right _ (List.mem_singleton_self a), hout⟩

theorem Trying.threw_finish {a : Attempt} (h : Trying o s) (ha : ¬ a.Retried o.conn.sn) :
    Threw o ((s.record a).finish a.outcome) ↔ a.outcome.threw = true := by
  rw [Threw, attempts_finish]
  constructor
  · rintro ⟨b, hb, hthrew, hno⟩
    rcases List.mem_append.mp hb with hb | hb
    · exact (hno (h.retried b hb)).elim
    · exact List.mem_singleton.mp hb ▸ hthrew
  · exact fun hout => ⟨a, List.mem_append_right _ (List.mem_singleton_self a), hout, ha⟩

theorem Trying.told_finish_iff {a : Attempt} (h : Trying o s) :
    Told o ((s.record a).finish a.outcome) ↔
    ¬ ((o.callbackNosend.isSome = true ∧ o.callbackNoqueue.isSome = true) ∧
      a.outcome.threw = true) := by
  have hsilent : Silent o (s.record a) := ⟨h.effects, h.callbackNosend, h.sent⟩
  have hsent := h.wasSent_finish (a := a)
  -- sent, would block, EHOSTUNREACH, other errors; only the last two reach `fail`
  rcases hout : a.outcome with _ | _ | _ | num
  · rw [hout] at hsent
    refine iff_of_true ⟨fun _ => ?_, fun hno => (hno (hsent.mpr rfl)).elim⟩
      (by simp [SendOutcome.threw])
    rw [finish, SendState.failures, afterLoop, if_pos rfl]
    exact congrArg (fun es => (List.map Effect.closure es).filterMap Closure.failure?) h.effects
  all_goals
    rw [hout] at hsent
    rw [told_iff_of_not_sent (by simp [hsent])]
  · exact iff_of_true hsilent.failures (by simp [SendOutcome.threw])
  · exact (hsilent.failures_fail_eq_iff _).trans (by simp [SendOutcome.threw])
  · exact (hsilent.failures_fail_eq_iff _).trans (by simp [SendOutcome.threw])

theorem told_iff (h : Trying o s) (hs : sendLoop env o fuel s = some s') : Told o s' ↔
    ¬ ((o.callbackNosend.isSome = true ∧ o.callbackNoqueue.isSome = true) ∧ Threw o s') := by
  rcases h.sendLoop hs with hend | ⟨t, a, ht, ha, rfl⟩
  · exact iff_of_true (told_of_trying hend) fun hh => hend.not_threw hh.2
  · rw [ht.told_finish_iff, ht.threw_finish ha]

/-- The state after the retry loop, with the fuel that `proxySend` gives it. -/
def result (env : SendEnv) (o : SendOptions) (c : Connections) : Option SendState :=
  sendLoop env o ((c.equalRange o.conn).length + 2) (.start o c)

end SendState

end ArqmaMQ
