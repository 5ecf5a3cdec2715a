import ArqmaMQ.SendEffects

/-! Every request that the proxy has handled is waiting for its reply or has its
callback scheduled, once; and how a SEND can fail to be handled at all. -/

namespace ArqmaMQ

open Jobs

namespace Requests

variable {rs : Requests}

def callbacks (rs : Requests) : List Nat := rs.map (·.2.callback)

theorem perm_answer (hn : (rs.map Prod.fst).Nodup) (tag : Bytes) (success : Bool)
    (data : List Bytes) :
    rs.callbacks.Perm ((rs.answer tag success data).1.callbacks ++
      ((rs.answer tag success data).2.map Effect.closure).filterMap Closure.request?) := by
  unfold answer
  rcases hfind : rs.find? tag with _ | r
  · simp
  · have hperm := (perm_erase hn (mem_of_find? hfind)).map (·.2.callback)
    exact hperm.trans (List.perm_append_singleton _ _).symm

theorem perm_timeOut (rs : Requests) (now : Int) :
    rs.callbacks.Perm ((rs.timeOut now).1.callbacks ++
      ((rs.timeOut now).2.map Effect.closure).filterMap Closure.request?) := by
  have hfired : ((rs.timeOut now).2.map Effect.closure).filterMap Closure.request? =
      (rs.filter (·.2.expiry < now)).map (·.2.callback) := by
    simp only [timeOut, List.map_map, List.filterMap_map]
    exact congrFun List.filterMap_eq_map _
  have hkept : (rs.timeOut now).1 = rs.filter fun r => !decide (r.2.expiry < now) := by
    simp only [timeOut, decide_not]
  have hsplit := (List.filter_append_perm (fun r : Bytes × PendingRequest => r.2.expiry < now) rs)
    |>.map (·.2.callback)
  rw [List.map_append] at hsplit
  rw [hfired, hkept]
  exact hsplit.symm.trans List.perm_append_comm

theorem answer_sublist (rs : Requests) (tag : Bytes) (success : Bool) (data : List Bytes) :
    (rs.answer tag success data).1.Sublist rs := by
  unfold answer
  split
  · exact List.filter_sublist
  · exact List.Sublist.refl rs

end Requests

theorem Connections.timeOutConnects_effects (c : Connections) (now : Int) :
    ∀ e ∈ (c.timeOutConnects now).2, ∃ f conn what, e = .job (.connectFailure f conn what) := by
  refine Sweep.sweep_invariant (P := fun s : Connections × List Effect =>
    ∀ e ∈ s.2, ∃ f conn what, e = .job (.connectFailure f conn what)) ?_ _ _ (by simp)
  rintro pos pc ⟨c, es⟩ s' h - hv
  dsimp only at hv
  split at hv
  · obtain rfl := Option.some.inj hv
    intro e he
    rcases List.mem_append.mp he with he | he
    · exact h e he
    · exact ⟨_, _, _, List.mem_singleton.mp he⟩
  · cases hv

theorem Connections.request?_timeOutConnects (c : Connections) (now : Int) :
    ∀ e ∈ (c.timeOutConnects now).2, e.closure.request? = none := by
  intro e he
  obtain ⟨f, conn, what, rfl⟩ := c.timeOutConnects_effects now e he
  rfl

namespace Proxy

variable {ι R : Type} [DecidableEq ι] {p p' : Proxy ι R}

/-- The functions scheduled so far. -/
def scheduled (p : Proxy ι R) : List Closure := p.dispatch.jobs.closures

/-- What a callback is called with: the data of a REPLY with its tag, or a
failure that names an error. -/
def Outcome (p : Proxy ι R) : Closure → Prop
  | .reply callback true data => ∃ tag, (tag, callback) ∈ p.issued ∧
    bytes "REPLY" :: tag :: data ∈ p.received
  | .reply _ false data => data = [bytes "TIMEOUT"] ∨
    ∃ cmd, isErrorResponse cmd = true ∧ data = [cmd]
  | _ => True

structure Settled (p : Proxy ι R) : Prop where
  timers : p.dispatch.jobs.UserTimers
  issued : (p.issued.map Prod.fst).Nodup ∧ (p.issued.map Prod.snd).Nodup
  tags : (p.pendingRequests.map Prod.fst).Nodup
  keyed : ∀ r ∈ p.pendingRequests, (r.1, r.2.callback) ∈ p.issued
  balance : (p.issued.map Prod.snd).Perm
    (p.pendingRequests.callbacks ++ p.scheduled.filterMap Closure.request?)
  outcomes : ∀ f ∈ p.scheduled, p.Outcome f

omit [DecidableEq ι] in
theorem outcome_of_none {f : Closure} (h : f.request? = none) : p.Outcome f := by
  cases f <;> trivial

omit [DecidableEq ι] in
theorem Outcome.mono {f : Closure} (h : p.Outcome f) (hi : p.issued ⊆ p'.issued)
    (hr : p.received ⊆ p'.received) : p'.Outcome f := by
  unfold Outcome at h ⊢
  split
  · obtain ⟨tag, hmem, hrec⟩ := h
    exact ⟨tag, hi hmem, hr hrec⟩
  · exact h
  · trivial

omit [DecidableEq ι] in
/-- A step that schedules `fs`, with the requests it takes on and lets go. -/
theorem Settled.step {fs : List Closure} (h : p.Settled) (new : List (Bytes × Nat))
    (hs : Schedules p.dispatch.jobs p'.dispatch.jobs fs) (hi : p'.issued = p.issued ++ new)
    (hnd : (p'.issued.map Prod.fst).Nodup ∧ (p'.issued.map Prod.snd).Nodup)
    (hr : p.received ⊆ p'.received) (htags : (p'.pendingRequests.map Prod.fst).Nodup)
    (hkeyed : ∀ r ∈ p'.pendingRequests, (r.1, r.2.callback) ∈ p'.issued)
    (hbal : (p.pendingRequests.callbacks ++ new.map Prod.snd).Perm
      (p'.pendingRequests.callbacks ++ fs.filterMap Closure.request?))
    (hout : ∀ f ∈ fs, p'.Outcome f) : p'.Settled := by
  have hsub : p.issued ⊆ p'.issued := by
    rw [hi]
    exact List.subset_append_left _ _
  have hsched : p'.scheduled = p.scheduled ++ fs := hs.closures
  refine ⟨hs.timers h.timers, hnd, htags, hkeyed, ?_, ?_⟩
  · refine List.perm_iff_count.mpr fun callback => ?_
    have hold := h.balance.count_eq callback
    have hnew := hbal.count_eq callback
    rw [hi, hsched]
    simp only [List.map_append, List.filterMap_append, List.count_append] at hold hnew ⊢
    omega
  · intro f hf
    rw [hsched] at hf
    rcases List.mem_append.mp hf with hf | hf
    · exact (h.outcomes f hf).mono hsub hr
    · exact hout f hf

omit [DecidableEq ι] in
/-- A step that takes on no request. -/
theorem Settled.keep {fs : List Closure} (h : p.Settled)
    (hs : Schedules p.dispatch.jobs p'.dispatch.jobs fs) (hi : p'.issued = p.issued)
    (hr : p.received ⊆ p'.received)
    (hsub : ∀ r ∈ p'.pendingRequests, r ∈ p.pendingRequests)
    (htags : (p'.pendingRequests.map Prod.fst).Nodup)
    (hbal : p.pendingRequests.callbacks.Perm
      (p'.pendingRequests.callbacks ++ fs.filterMap Closure.request?))
    (hout : ∀ f ∈ fs, p'.Outcome f) : p'.Settled := by
  refine h.step [] hs (by simp [hi]) (hi ▸ h.issued) hr htags ?_ (by simpa using hbal) hout
  intro r hmem
  rw [hi]
  exact h.keyed r (hsub r hmem)

omit [DecidableEq ι] in
/-- A step that has nothing to do with requests. -/
theorem Settled.frame {fs : List Closure} (h : p.Settled)
    (hs : Schedules p.dispatch.jobs p'.dispatch.jobs fs) (hf : ∀ f ∈ fs, f.request? = none)
    (hi : p'.issued = p.issued) (hr : p.received ⊆ p'.received)
    (hp : p'.pendingRequests = p.pendingRequests) : p'.Settled := by
  have hnone : fs.filterMap Closure.request? = [] := List.filterMap_eq_nil_iff.mpr hf
  refine h.keep hs hi hr (by simp [hp]) (hp ▸ h.tags) ?_ fun f hmem => outcome_of_none (hf f hmem)
  rw [hnone, List.append_nil, hp]

omit [DecidableEq ι] in
/-- A request is answered by a message. -/
theorem Settled.answer {tag : Bytes} {success : Bool} {data : List Bytes} (h : p.Settled)
    (hs : Schedules p.dispatch.jobs p'.dispatch.jobs
      ((p.pendingRequests.answer tag success data).2.map Effect.closure))
    (hp : p'.pendingRequests = (p.pendingRequests.answer tag success data).1)
    (hi : p'.issued = p.issued) (hr : p.received ⊆ p'.received)
    (hd : success = true ∧ bytes "REPLY" :: tag :: data ∈ p'.received ∨
      success = false ∧ ∃ cmd, isErrorResponse cmd = true ∧ data = [cmd]) : p'.Settled := by
  have hsub := p.pendingRequests.answer_sublist tag success data
  refine h.keep hs hi hr (fun r hmem => hsub.subset (hp ▸ hmem)) ?_ ?_ ?_
  · rw [hp]
    exact h.tags.sublist (hsub.map _)
  · rw [hp]
    exact Requests.perm_answer h.tags tag success data
  · intro f hf
    unfold Requests.answer at hf
    split at hf
    · rename_i r hfind
      obtain rfl : f = .reply r.callback success data := by simpa [Effect.closure] using hf
      rcases hd with ⟨rfl, hrec⟩ | ⟨rfl, hcmd⟩
      · refine ⟨tag, ?_, hrec⟩
        rw [hi]
        exact h.keyed _ (Requests.mem_of_find? hfind)
      · exact .inr hcmd
    · simp at hf

theorem Settled.send {env : SendEnv} {o : SendOptions} {expiry : Int} {s : SendState}
    {d : Dispatch ι R} {fuel : Nat} (h : p.Settled) (hfresh : p.Fresh o)
    (hs : SendState.sendLoop env o fuel (.start o p.conns) = some s)
    (hd : p.dispatch.perform (s.afterLoop o) = some d) :
    { p with
      dispatch := d, conns := s.conns, pendingRequests := p.requestSent o s.sent expiry
      issued := p.issued ++ o.request.toList : Proxy ι R }.Settled := by
  have hstart : (SendState.start o p.conns).Failures := by
    simp [SendState.Failures, SendState.start]
  obtain ⟨hjobs, hreqs⟩ := (hstart.sendLoop hs).afterLoop (o := o)
  have hout : ∀ f ∈ (s.afterLoop o).map Effect.closure, ∀ q : Proxy ι R, q.Outcome f := by
    intro f hf q
    obtain ⟨e, he, rfl⟩ := List.mem_map.mp hf
    obtain ⟨f, rfl, hf | ⟨callback, rfl⟩⟩ := hjobs e he
    · exact outcome_of_none hf
    · exact .inl rfl
  rcases hreq : o.request with _ | ⟨tag, callback⟩
  · refine h.step [] (Dispatch.schedules_perform hd) (by simp) (by simpa using h.issued)
      (List.Subset.refl _) ?_ ?_ ?_ fun f hf => hout f hf _
    · simpa [requestSent, hreq] using h.tags
    · simpa [requestSent, hreq] using h.keyed
    · simp [requestSent, hreq, hreqs]
  · obtain ⟨htag, hcallback⟩ := hfresh (tag, callback) (by simp [hreq])
    have hnew : tag ∉ p.pendingRequests.map Prod.fst := by
      intro hmem
      obtain ⟨r, hr, rfl⟩ := List.mem_map.mp hmem
      exact htag (List.mem_map.mpr ⟨_, h.keyed r hr, rfl⟩)
    have hinsert : p.requestSent o s.sent expiry =
        if s.sent then p.pendingRequests ++ [(tag, ⟨expiry, callback⟩)]
        else p.pendingRequests := by
      simp [requestSent, hreq, Requests.insert, Requests.find?_eq_none.mpr hnew]
    refine h.step [(tag, callback)] (Dispatch.schedules_perform hd) rfl ?_
      (List.Subset.refl _) ?_ ?_ ?_ fun f hf => hout f hf _
    · simp only [Option.toList_some, List.map_append, List.map_cons, List.map_nil]
      rw [← List.concat_eq_append, ← List.concat_eq_append]
      exact ⟨h.issued.1.concat htag, h.issued.2.concat hcallback⟩
    · rw [hinsert]
      split
      · rw [List.map_append, List.map_singleton, ← List.concat_eq_append]
        exact h.tags.concat hnew
      · exact h.tags
    · rw [hinsert]
      intro r hr
      split at hr
      · rcases List.mem_append.mp hr with hr | hr
        · exact List.mem_append_left _ (h.keyed r hr)
        · obtain rfl := List.mem_singleton.mp hr
          exact List.mem_append_right _ (List.mem_singleton_self _)
      · exact List.mem_append_left _ (h.keyed r hr)
    · rw [hinsert, hreqs, hreq]
      split <;> simp [Requests.callbacks]

theorem settled_act (h : p.Settled) (hact : Act p p') : p'.Settled := by
  have hsame {p' : Proxy ι R} (hj : p'.dispatch.jobs = p.dispatch.jobs) (hi : p'.issued = p.issued)
      (hr : p'.received = p.received) (hp : p'.pendingRequests = p.pendingRequests) : p'.Settled :=
    h.frame ((Schedules.refl p.dispatch.jobs).congr (by rw [hj]) (by rw [hj])) (by simp) hi
      (hr ▸ List.Subset.refl _) hp
  cases hact with
  | outside e he _ hd =>
    obtain ⟨fs, hs, hu, -⟩ := Dispatch.schedules_outside h.timers he hd
    exact h.frame hs (fun f hf => Closure.request?_of_isUser (hu f hf)) rfl (List.Subset.refl _) rfl
  | inject q _ hd =>
    obtain ⟨-, rfl⟩ : _ ∧ p.dispatch.proxyCommand q = _ := by simpa [Dispatch.step] using hd
    exact h.frame (Dispatch.schedules_proxyCommand _ _) (by simp) rfl (List.Subset.refl _) rfl
  | requestConn => exact hsame rfl rfl rfl rfl
  | send env o expiry hf hs hd => exact h.send hf hs hd
  | control msg _ => exact hsame rfl rfl rfl rfl
  | connectRemote net now data _ hc hd =>
    refine h.frame (Dispatch.schedules_perform hd) ?_ rfl (List.Subset.refl _) rfl
    intro f hf
    obtain ⟨e, he, rfl⟩ := List.mem_map.mp hf
    unfold Connections.proxyConnectRemote at hc
    split at hc
    · cases hc
    split at hc
    all_goals
      obtain ⟨-, rfl⟩ := Prod.mk.inj (Option.some.inj hc)
      simp_all [Effect.closure, Closure.request?]
  | cleanup clock now hd =>
    have hnone := (p.conns.proxyExpireIdlePeers clock).request?_timeOutConnects now
    have hs := Dispatch.schedules_perform hd
    rw [List.map_append] at hs
    refine h.keep hs rfl (List.Subset.refl _) (fun r hr => (List.mem_filter.mp hr).1)
      (h.tags.sublist (List.filter_sublist.map _)) ?_ ?_
    · rw [List.filterMap_append, List.filterMap_eq_nil_iff.mpr (by simpa using hnone),
        List.nil_append]
      exact p.pendingRequests.perm_timeOut now
    · intro f hf
      rcases List.mem_append.mp hf with hf | hf
      · obtain ⟨e, he, rfl⟩ := List.mem_map.mp hf
        exact outcome_of_none (hnone e he)
      · obtain ⟨e, he, rfl⟩ := List.mem_map.mp hf
        obtain ⟨r, -, rfl⟩ := List.mem_map.mp he
        exact .inl rfl
  | zap frames => exact hsame rfl rfl rfl rfl
  | @builtin d l m hl hd =>
    have hs := Dispatch.schedules_perform hd
    have hrec : p.received ⊆ (p.afterBuiltin m l d).received := List.subset_append_left _ _
    rcases p.builtin_case m l with ⟨-, hr, he⟩ | ⟨tag, data, hparts, -, hr, he⟩ |
      ⟨cmd, tag, hcmd, -, hr, he⟩ | ⟨-, -, hr, he⟩ | ⟨-, -, hr, he⟩
    · rw [he] at hs
      exact h.frame hs (by simp) rfl hrec hr
    · rw [he] at hs
      refine h.answer hs hr rfl hrec (.inl ⟨rfl, ?_⟩)
      rw [← hparts]
      exact List.mem_append_right _ (List.mem_singleton_self _)
    · rw [he] at hs
      exact h.answer hs hr rfl hrec (.inr ⟨rfl, cmd, hcmd, rfl⟩)
    · rw [he] at hs
      refine h.frame hs ?_ rfl hrec hr
      unfold Connections.hello
      split
      · split <;> simp [Effect.closure, Closure.request?]
      · simp
    · rw [he] at hs
      exact h.frame hs (by simp) rfl hrec hr
  | refuse m sent _ _ => exact hsame rfl rfl rfl rfl
  | @command d _ _ _ m name data _ _ _ _ hd =>
    obtain ⟨-, rfl⟩ : _ ∧ p.dispatch.proxyCommand _ = d := by simpa [Dispatch.step] using hd
    exact h.frame (Dispatch.schedules_proxyCommand _ _) (by simp) rfl (List.Subset.refl _) rfl
  | touch i now =>
    unfold Proxy.touch
    split <;> exact hsame rfl rfl rfl rfl
  | rehash peers requests _ hr =>
    refine h.keep (Schedules.refl _) rfl (List.Subset.refl _) (fun r hmem => hr.subset hmem) ?_ ?_
      (by simp)
    · exact (hr.map _).nodup_iff.mpr h.tags
    · rw [List.filterMap_nil, List.append_nil]
      exact (hr.map _).symm
  | next hn =>
    obtain ⟨d, stale, hd, rfl⟩ := next_eq_some hn
    exact h.frame (Dispatch.schedules_next hd) (by simp) rfl (List.Subset.refl _) rfl

/-- The calls of a callback that have been scheduled. -/
def calls (p : Proxy ι R) (callback : Nat) : List Closure :=
  p.scheduled.filter (·.request? == some callback)

variable [Fintype ι]

theorem settled_of_reachable (h : (machine ι R).Reachable p) : p.Settled := by
  refine reachable_invariant ?_ (fun p p' hp hact => settled_act hp hact) h
  intro _ _ _ _ _
  exact ⟨by simp [UserTimers, start, Dispatch.start], by simp [start], by simp [start],
    by simp [start], .refl _, by simp [scheduled, start, Dispatch.start, Jobs.closures]⟩

end Proxy

end ArqmaMQ
