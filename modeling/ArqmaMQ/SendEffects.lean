import ArqmaMQ.Closures
import ArqmaMQ.SendFailover

/-! When a SEND comes to an end, and what it schedules then. -/

namespace ArqmaMQ

/-- The request whose callback a function calls. -/
def Closure.request? : Closure → Option Nat
  | .reply callback _ _ => some callback
  | _ => none

theorem Closure.request?_of_isUser {f : Closure} (h : f.isUser = true) : f.request? = none := by
  cases f <;> first | rfl | cases h

namespace SendState

variable {env : SendEnv} {o : SendOptions} {s s' : SendState}

/-- Before the loop is left only `send_fail` callbacks are scheduled. -/
def Failures (s : SendState) : Prop := ∀ e ∈ s.effects, ∃ f num, e = .job (.sendFail f num)

theorem Failures.fail (h : s.Failures) (num : Nat) : (s.fail num).Failures := by
  unfold SendState.fail
  split
  · intro e he
    rcases List.mem_append.mp he with he | he
    · exact h e he
    · exact ⟨_, _, List.mem_singleton.mp he⟩
  · exact h

theorem Failures.sendLoop {fuel : Nat} (h : s.Failures) (hs : sendLoop env o fuel s = some s') :
    s'.Failures := by
  refine sendLoop_invariant ?_ ?_ ?_ ?_ h hs
  · intro s t s' h ht
    obtain rfl | ⟨r, c, conn, -, rfl⟩ := target_eq_some ht
    · exact h
    · exact h
  · intro s fuel retry s' h hr
    obtain rfl | ⟨-, it, -, -, rfl⟩ := removePeer_eq_some hr
    · exact h
    · exact h
  · exact fun s a h => h
  · intro s r h
    cases r with
    | sent => exact h
    | wouldBlock => exact h
    | hostUnreachable => exact h.fail _
    | error num => exact h.fail num

/-- The last of the functions scheduled for a message that was not sent. -/
def notice (s : SendState) (o : SendOptions) : Option Closure :=
  (s.callbackNosend.map (.sendFail · none)).or (o.callbackNoqueue.map .sendFullQueue)

theorem eq_of_notice {f : Closure} (h : f ∈ s.notice o) :
    ∃ g, f = .sendFail g none ∨ f = .sendFullQueue g := by
  rcases Option.or_eq_some_iff.mp h with h | ⟨-, h⟩
  · obtain ⟨g, -, rfl⟩ := Option.map_eq_some_iff.mp h
    exact ⟨g, .inl rfl⟩
  · obtain ⟨g, -, rfl⟩ := Option.map_eq_some_iff.mp h
    exact ⟨g, .inr rfl⟩

/-- A request that was not sent is answered, and then the sender is told. -/
theorem afterLoop_eq (o : SendOptions) (hsent : ¬ s.sent = true) :
    s.afterLoop o = s.effects ++ ((o.request.toList.map fun r =>
      Closure.reply r.2 false [bytes "TIMEOUT"]) ++ (s.notice o).toList).map Effect.job := by
  rw [afterLoop, if_neg hsent, notice]
  cases o.request <;> cases s.callbackNosend <;> cases o.callbackNoqueue <;> simp

/-- Nothing but jobs comes out of a SEND, and among them the callback of a
request that was not sent. -/
theorem Failures.afterLoop (h : s.Failures) :
    (∀ e ∈ s.afterLoop o, ∃ f, e = .job f ∧
        (f.request? = none ∨ ∃ callback, f = .reply callback false [bytes "TIMEOUT"])) ∧
      ((s.afterLoop o).map Effect.closure).filterMap Closure.request? =
        if s.sent then [] else o.request.toList.map Prod.snd := by
  have hnone : (s.effects.map Effect.closure).filterMap Closure.request? = [] := by
    refine List.filterMap_eq_nil_iff.mpr fun f hf => ?_
    obtain ⟨e, he, rfl⟩ := List.mem_map.mp hf
    obtain ⟨g, num, rfl⟩ := h e he
    rfl
  have hjobs : ∀ e ∈ s.effects, ∃ f, e = .job f ∧
      (f.request? = none ∨ ∃ callback, f = .reply callback false [bytes "TIMEOUT"]) := by
    intro e he
    obtain ⟨f, num, rfl⟩ := h e he
    exact ⟨_, rfl, .inl rfl⟩
  by_cases hsent : s.sent = true
  · rw [SendState.afterLoop, if_pos hsent, if_pos hsent]
    exact ⟨hjobs, hnone⟩
  · have hquiet : ∀ f ∈ (s.notice o).toList, f.request? = none := by
      intro f hf
      obtain ⟨g, rfl | rfl⟩ := eq_of_notice (Option.mem_toList.mp hf) <;> rfl
    rw [afterLoop_eq o hsent, if_neg hsent]
    constructor
    · intro e he
      rcases List.mem_append.mp he with he | he
      · exact hjobs e he
      · obtain ⟨f, hf, rfl⟩ := List.mem_map.mp he
        refine ⟨f, rfl, ?_⟩
        rcases List.mem_append.mp hf with hf | hf
        · obtain ⟨r, -, rfl⟩ := List.mem_map.mp hf
          exact .inr ⟨r.2, rfl⟩
        · exact .inl (hquiet f hf)
    · rw [List.map_append, List.filterMap_append, hnone, List.nil_append, List.map_map]
      change ((_ : List Closure).map id).filterMap _ = _
      rw [List.map_id, List.filterMap_append, List.filterMap_eq_nil_iff.mpr hquiet,
        List.append_nil, List.filterMap_map]
      exact congrFun List.filterMap_eq_map _

theorem target_of_not_sn (env : SendEnv) (o : SendOptions) (h : s.conn.sn = false) :
    ∃ t, s.target env o = some (t, s) := by
  rw [target, if_neg (by simp [h])]
  split <;> exact ⟨_, rfl⟩

theorem removePeer_of_not_sn (h : s.conn.sn = false) (fuel : Nat) :
    ∃ s', s.removePeer fuel = some (false, s') := by
  unfold removePeer
  split
  · exact ⟨_, rfl⟩
  split
  · exact ⟨_, rfl⟩
  · rw [if_neg (by simp [h])]
    exact ⟨_, rfl⟩

/-- Only sends to a service node are tried again. -/
theorem sendLoop_of_not_sn (h : s.conn.sn = false) (fuel : Nat) :
    ∃ s', sendLoop env o (fuel + 1) s = some s' := by
  obtain ⟨t, ht⟩ := target_of_not_sn env o h
  rcases t with _ | i
  · exact ⟨s, by simp [sendLoop, ht]⟩
  · rw [sendLoop_succ ht]
    split
    · obtain ⟨s', hs'⟩ := removePeer_of_not_sn h fuel
      rw [hs']
      exact ⟨_, rfl⟩
    · exact ⟨_, rfl⟩

/-- A SEND is done with, unless it is one to a service node that gets stuck. -/
theorem sendLoop_isSome_iff (c : Connections)
    (hpk : o.conn.sn = true → o.conn.pk.length = 32) :
    (∃ s, sendLoop env o ((c.equalRange o.conn).length + 2) (.start o c) = some s) ↔
      ¬ (o.conn.sn = true ∧ Stuck o env.outcome (c.peers.filter (·.1.eq o.conn))) := by
  by_cases hsn : o.conn.sn = true
  · have hs : (SendState.start o c).Towards o.conn := ⟨hsn, rfl⟩
    have hstart : (fun n => env.outcome ((SendState.start o c).attempts.length + n)) =
        env.outcome := by simp [SendState.start]
    rw [← hstart]
    constructor
    · rintro ⟨s, hloop⟩ ⟨-, hstuck⟩
      rw [sendLoop_of_stuck hsn (hpk hsn) hs rfl hstuck] at hloop
      cases hloop
    · intro hstuck
      obtain ⟨s, -, hloop, -⟩ :=
        sendLoop_of_not_stuck hsn (hpk hsn) hs rfl fun h => hstuck ⟨hsn, h⟩
      rw [← Connections.map_fst_equalRange, List.length_map] at hloop
      exact ⟨s, hloop⟩
  · refine iff_of_true ?_ fun h => hsn h.1
    exact sendLoop_of_not_sn (Bool.eq_false_iff.mpr hsn) _

end SendState

theorem Dispatch.exists_perform_jobs {ι R : Type} [DecidableEq ι] {es : List Effect}
    (h : ∀ e ∈ es, ∃ f, e = .job f) (d : Dispatch ι R) : ∃ d', d.perform es = some d' := by
  induction es generalizing d with
  | nil => exact ⟨d, rfl⟩
  | cons e es ih =>
    obtain ⟨f, rfl⟩ := h _ List.mem_cons_self
    have hvalid : ValidThreads d.cfg.taggedWorkers [(f, 0)] none := ⟨by simp, by simp, by simp⟩
    obtain ⟨d', hd'⟩ := ih (fun e he => h e (List.mem_cons_of_mem _ he))
      { d with jobs := d.jobs.submit [(f, 0)] none }
    exact ⟨d', perform_cons.mpr ⟨_, by rw [Effect.event, step, if_pos hvalid], hd'⟩⟩

end ArqmaMQ
