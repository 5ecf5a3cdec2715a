import ArqmaMQ.SendNotices

/-! Which messages end with an exception, told from the options, the peers and
what becomes of the attempts, and when their sender is told once. -/

namespace ArqmaMQ

/-- The options allow the connection. -/
def SendOptions.admits (o : SendOptions) (e : ConnectionID × PeerInfo) : Bool :=
  !(o.incoming && e.2.outgoing) && !(o.outgoing && !e.2.outgoing)

namespace SendState

variable {env : SendEnv} {o : SendOptions} {s s' : SendState} {fuel : Nat} {opens : Prop}
  {outcome : Nat → SendOutcome} {r : SendOutcome} {e : ConnectionID × PeerInfo}
  {es : List (ConnectionID × PeerInfo)}

/-- The attempt throws and is the last one: on the first connection allowed,
unless this is a route found dead, or on a new one. -/
def ThrowsNext (o : SendOptions) (opens : Prop) (r : SendOutcome)
    (es : List (ConnectionID × PeerInfo)) : Prop :=
  r.threw = true ∧ match es.find? o.admits with
    | some e => r = .hostUnreachable → e.2.outgoing = true
    | none => opens

/-- A message to the service node with the entries `es` ends with an exception,
after the first of the entries were used and all found to be dead routes. -/
def ThrowsNode (o : SendOptions) (opens : Prop) (outcome : Nat → SendOutcome)
    (es : List (ConnectionID × PeerInfo)) : Prop :=
  ∃ pre post, es = pre ++ post ∧ (∀ p ∈ pre, p.2.outgoing = false ∧ o.outgoing = false) ∧
    (∀ n < pre.length, outcome n = .hostUnreachable) ∧
    ThrowsNext o opens (outcome pre.length) post

/-- A message to anyone else has a socket to go out on: of the listening address
it names with the route, or of its own. -/
def HasSocket (conn : ConnectionID) (c : Connections) : Prop :=
  if conn.route ≠ [] then ∃ b ∈ c.incomingConnIndex, b.connId.eq conn.unrouted = true
  else ∃ e ∈ c.peers, e.1.eq conn = true

/-- The message ends with an exception. -/
def Throws (env : SendEnv) (o : SendOptions) (c : Connections) : Prop :=
  if o.conn.sn then ThrowsNode o (env.net.Opens o.conn.pk o.hint o.optional o.incoming) env.outcome
    (c.peers.filter (·.1.eq o.conn))
  else HasSocket o.conn c ∧ (env.outcome 0).threw = true

theorem throwsNode_nil : ThrowsNode o opens outcome [] ↔ ThrowsNext o opens (outcome 0) [] := by
  constructor
  · rintro ⟨pre, post, heq, -, -, hnext⟩
    obtain ⟨rfl, rfl⟩ := List.append_eq_nil_iff.mp heq.symm
    exact hnext
  · exact fun hnext => ⟨[], [], rfl, by simp, by simp, hnext⟩

theorem throwsNode_cons : ThrowsNode o opens outcome (e :: es) ↔
    ThrowsNext o opens (outcome 0) (e :: es) ∨
      (e.2.outgoing = false ∧ o.outgoing = false) ∧ outcome 0 = .hostUnreachable ∧
        ThrowsNode o opens (fun n => outcome (n + 1)) es := by
  constructor
  · rintro ⟨pre, post, heq, hpre, hdead, hnext⟩
    rcases pre with _ | ⟨p, pre⟩
    · obtain rfl : e :: es = post := heq
      exact .inl hnext
    · obtain ⟨rfl, rfl⟩ := List.cons.inj heq
      refine .inr ⟨hpre e List.mem_cons_self, hdead 0 (Nat.succ_pos _), pre, post, rfl, ?_, ?_,
        hnext⟩
      · exact fun q hq => hpre q (List.mem_cons_of_mem _ hq)
      · exact fun n hn => hdead (n + 1) (Nat.succ_lt_succ hn)
  · rintro (hnext | ⟨he, h0, pre, post, rfl, hpre, hdead, hnext⟩)
    · exact ⟨[], e :: es, rfl, by simp, by simp, hnext⟩
    · refine ⟨e :: pre, post, rfl, ?_, ?_, hnext⟩
      · intro q hq
        rcases List.mem_cons.mp hq with rfl | hq
        · exact he
        · exact hpre q hq
      · rintro (_ | n) hn
        · exact h0
        · exact hdead n (Nat.lt_of_succ_lt_succ hn)

/-- When the first connection allowed is no dead route, the first attempt decides. -/
theorem throwsNode_iff_next (h : ∀ e, es.find? o.admits = some e → outcome 0 = .hostUnreachable →
    e.2.outgoing = true) :
    ThrowsNode o opens outcome es ↔ ThrowsNext o opens (outcome 0) es := by
  rcases es with _ | ⟨e, es⟩
  · exact throwsNode_nil
  · refine throwsNode_cons.trans (or_iff_left ?_)
    rintro ⟨⟨he, ho⟩, h0, -⟩
    have hfirst : (e :: es).find? o.admits = some e :=
      List.find?_cons_of_pos (by simp [SendOptions.admits, he, ho])
    cases he.symm.trans (h e hfirst h0)

theorem throwsNode_cons_of_dead (he : e.2.outgoing = false) (ho : o.outgoing = false)
    (h0 : outcome 0 = .hostUnreachable) :
    ThrowsNode o opens outcome (e :: es) ↔ ThrowsNode o opens (fun n => outcome (n + 1)) es := by
  have hfirst : (e :: es).find? o.admits = some e :=
    List.find?_cons_of_pos (by simp [SendOptions.admits, he, ho])
  rw [throwsNode_cons, ThrowsNext, hfirst, h0]
  simp [he, ho]

/-- The attempt ends the loop, and whether it threw is all that is left to tell. -/
theorem threw_iff_of_stop {i : Nat} (h : Trying o s)
    (ht : s.target env o = some (some i, s')) (hatt : s'.attempts = s.attempts)
    (hr : env.outcome s.attempts.length = .hostUnreachable →
      o.conn.sn = false ∨ s'.conn.route = [])
    {s'' : SendState} (hs : sendLoop env o (fuel + 1) s = some s'') :
    Threw o s'' ↔ (env.outcome s.attempts.length).threw = true := by
  rw [← hatt] at hr ⊢
  have h' := h.target ht
  obtain ⟨s₂, h₂⟩ : ∃ s₂, (if env.outcome s'.attempts.length = .hostUnreachable then
      s'.removePeer fuel else some (false, s')) = some (false, s₂) := by
    split
    case isTrue hout =>
      rcases hr hout with hsn | hroute
      · exact removePeer_of_not_sn (h'.sn.trans hsn) fuel
      · exact ⟨s', by rw [removePeer, if_pos hroute]⟩
    case isFalse => exact ⟨s', rfl⟩
  have htrying : Trying o s₂ := by
    split at h₂
    · exact h'.removePeer h₂
    · obtain ⟨-, rfl⟩ := Prod.mk.inj (Option.some.inj h₂)
      exact h'
  rw [sendLoop_succ ht, h₂] at hs
  obtain rfl := Option.some.inj hs
  refine htrying.threw_finish fun ha => ?_
  rcases hr ha.1 with hsn | hroute
  · cases hsn.symm.trans ha.2.1
  · exact ha.2.2 hroute

theorem throwsNext_of_find (h : es.find? o.admits = some e)
    (he : r = .hostUnreachable → e.2.outgoing = true) :
    ThrowsNext o opens r es ↔ r.threw = true := by
  rw [ThrowsNext, h]
  exact and_iff_left he

theorem throwsNext_of_find_none (h : es.find? o.admits = none) :
    ThrowsNext o opens r es ↔ r.threw = true ∧ opens := by
  rw [ThrowsNext, h]

theorem Trying.dropRoute {it : (ConnectionID × PeerInfo) × Nat} (h : Trying o s)
    (hsn : o.conn.sn = true) (hr : it.1.2.outgoing = false) : Trying o (s.dropRoute it) := by
  have hroute : it.1.2.route ≠ [] := by simpa [PeerInfo.outgoing] using hr
  have herase : Trying o
      (({ s with conn := { s.conn with route := it.1.2.route } } : SendState).erasePeer it.2) :=
    ⟨⟨h.effects, h.callbackNosend, h.sent⟩, h.sn, h.retried⟩
  exact herase.record ⟨rfl, hsn, hroute⟩

section ServiceNode

variable (hsn : o.conn.sn = true) (hpk : o.conn.pk.length = 32) (hs : s.Towards o.conn)
  (h : Trying o s) (hes : s.conns.peers.filter (·.1.eq o.conn) = es)

include hsn hs hes in
theorem find_admits : es.find? o.admits =
    (s.conns.selectPeer s.conn o.incoming o.outgoing).map Prod.fst := by
  rw [Connections.selectPeer_congr hs.1 hsn hs.2, Connections.map_fst_selectPeer, hes]
  rfl

include hsn hpk hs h hes in
/-- A round that finds no dead route is the last one. -/
theorem threw_iff_of_round
    (hlive : ∀ e, es.find? o.admits = some e → env.outcome s.attempts.length = .hostUnreachable →
      e.2.outgoing = true) (hloop : sendLoop env o (fuel + 1) s = some s') : Threw o s' ↔
      ThrowsNext o (env.net.Opens o.conn.pk o.hint o.optional o.incoming)
        (env.outcome s.attempts.length) es := by
  have hfind := find_admits hsn hs hes
  obtain ⟨t, s₁, ht, hatt, hcases⟩ := target_cases env o hs.1 (hs.2 ▸ hpk)
  rw [hs.2] at hcases
  rcases hcases with ⟨rfl, hsel, hno⟩ | ⟨i, rfl, hroute, ⟨it, hsel, hr⟩ | ⟨hsel, hopens⟩⟩ |
    ⟨e, i, hsel, hroute, rfl, rfl⟩ <;> rw [hsel] at hfind
  · obtain rfl : s₁ = s' := by simpa [sendLoop, ht] using hloop
    rw [throwsNext_of_find_none hfind]
    exact iff_of_false (h.target ht).not_threw fun hh => hno hh.2
  · rw [threw_iff_of_stop h ht hatt (fun _ => .inr hroute) hloop,
      throwsNext_of_find hfind fun _ => List.isEmpty_iff.mpr hr]
  · rw [threw_iff_of_stop h ht hatt (fun _ => .inr hroute) hloop, throwsNext_of_find_none hfind]
    exact (and_iff_left hopens).symm
  · have hout : env.outcome s.attempts.length = .hostUnreachable → e.2.route = [] :=
      fun hh => List.isEmpty_iff.mp (hlive e hfind hh)
    rw [threw_iff_of_stop h ht hatt (fun hh => .inr (hout hh)) hloop,
      throwsNext_of_find hfind (hlive e hfind)]

include hsn hpk hs h hes in
/-- The log of the attempts has an exception exactly when it can be told
beforehand. The induction is on the entries, of which a dead route is the first. -/
theorem threw_iff_throwsNode (hloop : sendLoop env o fuel s = some s') : Threw o s' ↔
    ThrowsNode o (env.net.Opens o.conn.pk o.hint o.optional o.incoming)
      (fun n => env.outcome (s.attempts.length + n)) es := by
  induction es generalizing s fuel with
  | nil =>
    rcases fuel with _ | fuel
    · cases hloop
    rw [throwsNode_nil, threw_iff_of_round hsn hpk hs h hes (by simp) hloop]
    rfl
  | cons e es ih =>
    rcases fuel with _ | fuel
    · cases hloop
    by_cases hlive : ∀ e', (e :: es).find? o.admits = some e' →
        env.outcome s.attempts.length = .hostUnreachable → e'.2.outgoing = true
    · rw [throwsNode_iff_next hlive, threw_iff_of_round hsn hpk hs h hes hlive hloop]
      rfl
    -- the route that is found dead comes first, or the loop would hang
    obtain ⟨e', hlive⟩ := not_forall.mp hlive
    simp only [Classical.not_imp, Bool.not_eq_true] at hlive
    obtain ⟨hfind, hout, hr⟩ := hlive
    rw [find_admits hsn hs hes, Connections.selectPeer_congr hs.1 hsn hs.2] at hfind
    obtain ⟨⟨e', i⟩, hsel, rfl⟩ := Option.map_eq_some_iff.mp hfind
    have hes' := hes
    rw [← Connections.map_fst_equalRange] at hes'
    obtain ⟨it, range, hrange, rfl, rfl⟩ := List.map_eq_cons_iff.mp hes'
    obtain ⟨ho, rfl | ⟨hin, hfirst, hmem⟩⟩ := selectPeer_cons hrange hsel hr
    · obtain ⟨hone, hdrop, hs₁, hes₁⟩ := sendLoop_of_dead_route hsn hs hrange hr hout
        (target_of_routed hsn hpk hs hsel hr)
      rcases fuel with _ | fuel
      · cases hone.symm.trans hloop
      · rw [hdrop] at hloop
        rw [throwsNode_cons_of_dead hr ho hout, ih hs₁ (h.dropRoute hsn hr) hes₁ hloop,
          outcome_dropRoute]
    · rw [sendLoop_of_stuck hsn hpk hs hes ((stuck_cons_of_outgoing hfirst).mpr
        ⟨hin, ho, ⟨e', List.mem_map_of_mem hmem, hr⟩, hout⟩)] at hloop
      cases hloop

end ServiceNode

theorem target_isSome_iff (env : SendEnv) (o : SendOptions) (h : s.conn.sn = false) :
    ∃ t, s.target env o = some (t, s) ∧ (t.isSome = true ↔ HasSocket s.conn s.conns) := by
  rw [target, if_neg (by simp [h]), HasSocket]
  split
  · exact ⟨_, rfl, by simp⟩
  · refine ⟨_, rfl, ?_⟩
    rw [Option.isSome_map, List.isSome_head?, Ne, ← List.map_eq_nil_iff (f := Prod.fst),
      Connections.map_fst_equalRange]
    simp

/-- Anyone but a service node gets at most one attempt. -/
theorem threw_iff_of_not_sn (h : Trying o s) (hsn : o.conn.sn = false) (hatt : s.attempts = [])
    (hloop : sendLoop env o (fuel + 1) s = some s') :
    Threw o s' ↔ HasSocket s.conn s.conns ∧ (env.outcome 0).threw = true := by
  obtain ⟨t, ht, hiff⟩ := target_isSome_iff env o (h.sn.trans hsn)
  rcases t with _ | i
  · obtain rfl : s = s' := by simpa [sendLoop, ht] using hloop
    exact iff_of_false h.not_threw fun hh => by simpa using hiff.mpr hh.1
  · have hlen : s.attempts.length = 0 := by rw [hatt, List.length_nil]
    rw [and_iff_right (hiff.mp rfl), ← hlen]
    exact threw_iff_of_stop h ht rfl (fun _ => .inl hsn) hloop

theorem threw_iff_throws (c : Connections) (hpk : o.conn.sn = true → o.conn.pk.length = 32)
    (hs : result env o c = some s) : Threw o s ↔ Throws env o c := by
  have htrying : Trying o (.start o c) := ⟨⟨rfl, rfl, rfl⟩, rfl, by simp [start]⟩
  unfold Throws
  split
  case isTrue hsn =>
    have hiff := threw_iff_throwsNode hsn (hpk hsn) ⟨hsn, rfl⟩ htrying rfl hs
    simpa [start] using hiff
  case isFalse hsn =>
    exact threw_iff_of_not_sn htrying (Bool.eq_false_iff.mpr hsn) rfl hs

/-- A message that is not sent is reported with one callback, unless the loop
gets stuck, or both callbacks were given and the message ends with an exception. -/
theorem told_iff_not_throws (env : SendEnv) (o : SendOptions) (c : Connections)
    (hpk : o.conn.sn = true → o.conn.pk.length = 32) :
    (∃ s, result env o c = some s ∧ Told o s) ↔
      ¬ (o.conn.sn = true ∧ Stuck o env.outcome (c.peers.filter (·.1.eq o.conn))) ∧
        ¬ (o.callbackNosend.isSome = true ∧ o.callbackNoqueue.isSome = true ∧
          Throws env o c) := by
  have htrying : Trying o (.start o c) := ⟨⟨rfl, rfl, rfl⟩, rfl, by simp [start]⟩
  have htold : ∀ s, result env o c = some s → (Told o s ↔
      ¬ (o.callbackNosend.isSome = true ∧ o.callbackNoqueue.isSome = true ∧ Throws env o c)) := by
    intro s hs
    rw [told_iff htrying hs, threw_iff_throws c hpk hs, and_assoc]
  rw [← sendLoop_isSome_iff c hpk]
  constructor
  · rintro ⟨s, hs, h⟩
    exact ⟨⟨s, hs⟩, (htold s hs).mp h⟩
  · rintro ⟨⟨s, hs⟩, h⟩
    exact ⟨s, hs, (htold s hs).mpr h⟩

end SendState

def SendOptions.bothCallbacks : SendOptions where
  conn := { id := 1 }
  callbackNosend := some 7
  callbackNoqueue := some 8

def Connections.oneRemote : Connections where
  peers := [({ id := 1 }, { connIndex := 0, socket := ⟨0, true⟩ })]

theorem SendState.told_of_full_queue :
    ∃ s, result (.always .wouldBlock) .bothCallbacks .oneRemote = some s ∧
      Told .bothCallbacks s := by
  refine (told_iff_not_throws _ _ _ (by decide)).mpr ⟨fun h => (by cases h.1), ?_⟩
  rintro ⟨-, -, -, hthrew⟩
  cases hthrew

theorem SendState.told_twice :
    (result (.always (.error 88)) .bothCallbacks .oneRemote).map
        (failures · .bothCallbacks) = some [.queueFailure 7, .queueFull 8] ∧
      ¬ ∃ s, result (.always (.error 88)) .bothCallbacks .oneRemote = some s ∧
        Told .bothCallbacks s := by
  have htwice : (result (.always (.error 88)) .bothCallbacks .oneRemote).map
      (failures · .bothCallbacks) = some [.queueFailure 7, .queueFull 8] := by decide
  refine ⟨htwice, ?_⟩
  rintro ⟨s, hs, htold⟩
  rw [hs] at htwice
  have hfail := Option.some.inj htwice
  by_cases hsent : s.WasSent
  · cases (htold.1 hsent).symm.trans hfail
  · cases (htold.2 hsent).symm.trans hfail

end ArqmaMQ
