import ArqmaMQ.Send

/-! SEND to a service node: when the retry loop ends, and what it removes. -/

namespace ArqmaMQ

namespace ConnectionID

theorem eq_congr_of_sn {b b' : ConnectionID} (hb : b.sn = true) (hb' : b'.sn = true)
    (hpk : b.pk = b'.pk) (a : ConnectionID) : a.eq b = a.eq b' := by
  rw [eq_of_sn hb, eq_of_sn hb', hpk]

end ConnectionID

namespace Connections

variable {c : Connections} {conn conn' : ConnectionID}

theorem equalRange_congr (h : conn.sn = true) (h' : conn'.sn = true) (hpk : conn.pk = conn'.pk) :
    c.equalRange conn = c.equalRange conn' := by
  simp only [equalRange, ConnectionID.eq_congr_of_sn h h' hpk]

theorem selectPeer_congr (h : conn.sn = true) (h' : conn'.sn = true) (hpk : conn.pk = conn'.pk)
    (incoming outgoing : Bool) :
    c.selectPeer conn incoming outgoing = c.selectPeer conn' incoming outgoing := by
  rw [selectPeer, selectPeer, equalRange_congr h h' hpk]

/-- Taking out the first entry of a range leaves the others. -/
theorem equalRange_cons {it : (ConnectionID × PeerInfo) × Nat}
    {range : List ((ConnectionID × PeerInfo) × Nat)} (h : c.equalRange conn = it :: range) :
    (c.peers.eraseIdx it.2).filter (·.1.eq conn) = range.map Prod.fst := by
  obtain ⟨l₁, l₂, hzip, hno, -, rfl⟩ := List.filter_eq_cons_iff.mp h
  have hpeers : c.peers = l₁.map Prod.fst ++ it.1 :: l₂.map Prod.fst := by
    rw [← List.zipIdx_map_fst 0 c.peers, hzip, List.map_append, List.map_cons]
  have hidx : it.2 = (l₁.map Prod.fst).length := by
    have hget : c.peers.zipIdx[l₁.length]? = some it := by simp [hzip]
    rw [List.getElem?_zipIdx] at hget
    obtain ⟨e, -, rfl⟩ := Option.map_eq_some_iff.mp hget
    simp
  have hpre : (l₁.map Prod.fst).filter (·.1.eq conn) = [] := by
    refine List.filter_eq_nil_iff.mpr fun e he => ?_
    obtain ⟨it', hit', rfl⟩ := List.mem_map.mp he
    exact hno it' hit'
  rw [hpeers, hidx, List.eraseIdx_append_of_length_le (le_refl _), Nat.sub_self,
    List.eraseIdx_cons_zero, List.filter_append, hpre, List.nil_append, List.filter_map]
  rfl

end Connections

/-- A peer is taken out exactly when its route is dead, and it is the one the
attempt was made on. -/
def Attempt.Exact (a : Attempt) (conn : ConnectionID) : Prop :=
  if a.outcome = .hostUnreachable ∧ a.route ≠ [] then
    ∃ i e, a.before[i]? = some e ∧ e.1.eq conn = true ∧ e.2.route = a.route ∧
      e.2.connIndex = a.connIndex ∧ a.after = a.before.eraseIdx i
  else a.after = a.before

namespace SendState

variable {env : SendEnv} {o : SendOptions} {s : SendState}

theorem exists_proxyConnectSn (env : SendEnv) (o : SendOptions) (h : s.conn.pk.length = 32) :
    ∃ r c', s.conns.proxyConnectSn env.net env.now s.conn.pk o.hint o.optional o.incoming o.outgoing
      o.keepAlive = some (r, c') := by
  simp only [Connections.proxyConnectSn, ConnectionID.ofPubkey, h, if_true, Option.bind_eq_bind,
    Option.bind_some]
  split
  · exact ⟨_, _, rfl⟩
  · split_ifs <;> exact ⟨_, _, rfl⟩

/-- A routed peer is used as it is. -/
theorem modify_reusePeer {c : Connections} {conn : ConnectionID} {e : ConnectionID × PeerInfo}
    {i : Nat} (he : (e, i) ∈ c.equalRange conn) (hr : e.2.route ≠ []) (keepAlive now : Int) :
    c.peers.modify i (fun e => (e.1, Connections.reusePeer keepAlive now e.2)) = c.peers := by
  have hget := (Connections.mem_equalRange.mp he).1
  refine List.ext_getElem? fun j => ?_
  rw [List.getElem?_modify]
  by_cases hij : i = j
  · subst hij
    simp [hget, Connections.reusePeer, PeerInfo.outgoing, hr]
  · simp [hij]

/-- Where a message to a service node goes: nowhere, out on a socket of its own,
or back over the connection of a routed peer. -/
theorem target_cases (env : SendEnv) (o : SendOptions) (hsn : s.conn.sn = true)
    (hpk : s.conn.pk.length = 32) :
    ∃ t s', s.target env o = some (t, s') ∧ s'.attempts = s.attempts ∧
      (t = none ∧ s.conns.selectPeer s.conn o.incoming o.outgoing = none ∧
          ¬ env.net.Opens s.conn.pk o.hint o.optional o.incoming ∨
        (∃ i, t = some i ∧ s'.conn.route = [] ∧
          ((∃ it, s.conns.selectPeer s.conn o.incoming o.outgoing = some it ∧ it.1.2.route = []) ∨
            s.conns.selectPeer s.conn o.incoming o.outgoing = none ∧
              env.net.Opens s.conn.pk o.hint o.optional o.incoming)) ∨
        ∃ e i, s.conns.selectPeer s.conn o.incoming o.outgoing = some (e, i) ∧ e.2.route ≠ [] ∧
          t = some e.2.connIndex ∧ s' = { s with conn := { s.conn with route := e.2.route } }) := by
  obtain ⟨r, c', hc⟩ := exists_proxyConnectSn env o hpk
  obtain ⟨cid, hcid, hcases⟩ := Connections.proxyConnectSn_eq_some hc
  obtain rfl : { id := ConnectionID.snId, pk := s.conn.pk } = cid := by
    simpa [ConnectionID.ofPubkey, hpk] using hcid
  have hselect : s.conns.selectPeer { id := ConnectionID.snId, pk := s.conn.pk } o.incoming
      o.outgoing = s.conns.selectPeer s.conn o.incoming o.outgoing :=
    Connections.selectPeer_congr (by rfl) hsn (by rfl) ..
  rw [hselect] at hcases
  refine ⟨(s.takeRoute (r, c')).1, (s.takeRoute (r, c')).2, by rw [target, if_pos hsn, hc]; rfl, ?_⟩
  rcases hcases with ⟨e, i, hsel, rfl, rfl⟩ | ⟨hsel, hno, rfl, rfl⟩ | ⟨hsel, hopens, rfl, rfl⟩
  · refine ⟨rfl, .inr ?_⟩
    by_cases hr : e.2.route = []
    · exact .inl ⟨_, rfl, hr, .inl ⟨(e, i), hsel, hr⟩⟩
    · refine .inr ⟨e, i, hsel, hr, rfl, ?_⟩
      rw [modify_reusePeer (List.mem_of_find?_eq_some hsel) hr]
      rfl
  · exact ⟨rfl, .inl ⟨rfl, hsel, hno⟩⟩
  · exact ⟨rfl, .inr (.inl ⟨_, rfl, rfl, .inr ⟨hsel, hopens⟩⟩)⟩

@[simp] theorem attempts_finish (s : SendState) (r : SendOutcome) :
    (s.finish r).attempts = s.attempts := by
  cases r <;> simp only [finish, fail] <;> split <;> rfl

/-- One round with a socket to send on. -/
theorem sendLoop_succ {s' : SendState} {i fuel : Nat} (ht : s.target env o = some (some i, s')) :
    sendLoop env o (fuel + 1) s =
      (if env.outcome s'.attempts.length = .hostUnreachable then s'.removePeer fuel
        else some (false, s')).bind fun p =>
        let s'' := p.2.record ⟨i, s'.conn.route, env.outcome s'.attempts.length, s'.conns.peers,
          p.2.conns.peers⟩
        if p.1 then sendLoop env o fuel s''
        else some (s''.finish (env.outcome s'.attempts.length)) := by
  simp only [sendLoop, ht, Option.bind_eq_bind, Option.bind_some]
  split <;> rfl

/-- Choosing a socket changes nothing but what `proxy_connect_sn` does. -/
theorem target_eq_some {t : Option Nat} {s' : SendState} (h : s.target env o = some (t, s')) :
    s' = s ∨ ∃ r c route, s.conns.proxyConnectSn env.net env.now s.conn.pk o.hint o.optional
      o.incoming o.outgoing o.keepAlive = some (r, c) ∧
        s' = { s with conns := c, conn := { s.conn with route } } := by
  unfold target at h
  split at h
  · obtain ⟨⟨r, c⟩, hc, hr⟩ := Option.map_eq_some_iff.mp h
    rcases r with _ | ⟨i, route⟩
    all_goals
      obtain ⟨-, rfl⟩ := Prod.mk.inj hr
      exact .inr ⟨_, c, _, hc, rfl⟩
  · split at h
    all_goals
      obtain ⟨-, rfl⟩ := Prod.mk.inj (Option.some.inj h)
      exact .inl rfl

theorem findRoute_eq_some {route : Bytes} {fuel i : Nat}
    {range : List ((ConnectionID × PeerInfo) × Nat)}
    (h : findRoute route fuel range = some (some i)) :
    ∃ it ∈ range, it.2 = i ∧ it.1.2.route = route := by
  induction fuel with
  | zero => cases h
  | succ fuel ih =>
    rcases range with _ | ⟨it, range⟩
    · cases h
    · by_cases hr : it.1.2.route = route
      · refine ⟨it, List.mem_cons_self, ?_, hr⟩
        simpa [findRoute, hr] using h
      · exact ih (by simpa [findRoute, hr] using h)

/-- At most one entry of the connection is removed, for a service node the one
with the route. -/
theorem removePeer_eq_some {fuel : Nat} {retry : Bool} {s' : SendState}
    (h : s.removePeer fuel = some (retry, s')) :
    s' = s ∨ s.conn.route ≠ [] ∧ ∃ it ∈ s.conns.equalRange s.conn,
      (s.conn.sn = true → it.1.2.route = s.conn.route) ∧ s' = s.erasePeer it.2 := by
  unfold removePeer at h
  split at h
  · obtain ⟨-, rfl⟩ := Prod.mk.inj (Option.some.inj h)
    exact .inl rfl
  rename_i hroute
  split at h
  · obtain ⟨-, rfl⟩ := Prod.mk.inj (Option.some.inj h)
    exact .inl rfl
  rename_i it range hrange
  split at h
  · obtain ⟨r, hfind, hr⟩ := Option.map_eq_some_iff.mp h
    rcases r with _ | i
    · obtain ⟨-, rfl⟩ := Prod.mk.inj hr
      exact .inl rfl
    · obtain ⟨-, rfl⟩ := Prod.mk.inj hr
      obtain ⟨it', hit', rfl, hr'⟩ := findRoute_eq_some hfind
      exact .inr ⟨hroute, it', hrange ▸ hit', fun _ => hr', rfl⟩
  · rename_i hsn
    obtain ⟨-, rfl⟩ := Prod.mk.inj (Option.some.inj h)
    exact .inr ⟨hroute, it, hrange ▸ List.mem_cons_self, fun h => absurd h hsn, rfl⟩

/-- What holds when another round is begun, and what holds once the loop is left. -/
theorem sendLoop_rule {P Q : SendState → Prop}
    (hleave : ∀ s s', P s → s.target env o = some (none, s') → Q s')
    (hround : ∀ s i s₁ fuel retry s₂, P s → s.target env o = some (some i, s₁) →
      (if env.outcome s₁.attempts.length = .hostUnreachable then s₁.removePeer fuel
        else some (false, s₁)) = some (retry, s₂) →
      let s₃ := s₂.record ⟨i, s₁.conn.route, env.outcome s₁.attempts.length, s₁.conns.peers,
        s₂.conns.peers⟩
      if retry then P s₃ else Q (s₃.finish (env.outcome s₁.attempts.length)))
    {fuel : Nat} {s' : SendState} (h : P s) (hs : sendLoop env o fuel s = some s') : Q s' := by
  induction fuel generalizing s with
  | zero => cases hs
  | succ fuel ih =>
    rcases ht : s.target env o with _ | ⟨t, s₁⟩
    · simp [sendLoop, ht] at hs
    rcases t with _ | i
    · obtain rfl : s₁ = s' := by simpa [sendLoop, ht] using hs
      exact hleave s s₁ h ht
    · rw [sendLoop_succ ht] at hs
      obtain ⟨⟨retry, s₂⟩, h₂, hs⟩ := Option.bind_eq_some_iff.mp hs
      have hnext := hround s i s₁ fuel retry s₂ h ht h₂
      dsimp only at hs hnext
      split at hs
      case isTrue hretry =>
        rw [if_pos hretry] at hnext
        exact ih hnext hs
      case isFalse hretry =>
        rw [if_neg hretry] at hnext
        exact Option.some.inj hs ▸ hnext

/-- What every part of a round keeps is kept by the loop. -/
theorem sendLoop_invariant {P : SendState → Prop}
    (htarget : ∀ s t s', P s → s.target env o = some (t, s') → P s')
    (hremove : ∀ s fuel retry s', P s → s.removePeer fuel = some (retry, s') → P s')
    (hrecord : ∀ s a, P s → P (s.record a)) (hfinish : ∀ s r, P s → P (s.finish r))
    {fuel : Nat} {s' : SendState} (h : P s) (hs : sendLoop env o fuel s = some s') : P s' := by
  refine sendLoop_rule (fun s s' h ht => htarget s none s' h ht) ?_ h hs
  intro s i s₁ fuel retry s₂ h ht h₂
  have h₁ := htarget s _ s₁ h ht
  have hP₂ : P s₂ := by
    split at h₂
    · exact hremove s₁ fuel retry s₂ h₁ h₂
    · obtain ⟨-, rfl⟩ := Prod.mk.inj (Option.some.inj h₂)
      exact h₁
  dsimp only
  split
  · exact hrecord s₂ _ hP₂
  · exact hfinish _ _ (hrecord s₂ _ hP₂)

/-- A round that ends the loop. -/
theorem sendLoop_succ_of_stop {s' : SendState} {i : Nat} (conn : ConnectionID)
    (ht : s.target env o = some (some i, s'))
    (hr : env.outcome s'.attempts.length = .hostUnreachable → s'.conn.route = []) :
    ∃ a s'', (∀ fuel, sendLoop env o (fuel + 1) s = some s'') ∧
      s''.attempts = s'.attempts ++ [a] ∧ a.Exact conn := by
  have hexact : ¬ (env.outcome s'.attempts.length = .hostUnreachable ∧ s'.conn.route ≠ []) :=
    fun h => h.2 (hr h.1)
  let a : Attempt :=
    ⟨i, s'.conn.route, env.outcome s'.attempts.length, s'.conns.peers, s'.conns.peers⟩
  refine ⟨a, (s'.record a).finish (env.outcome s'.attempts.length), fun fuel => ?_,
    attempts_finish .., by simp only [Attempt.Exact, a, if_neg hexact]⟩
  rw [sendLoop_succ ht]
  split
  · rename_i hout
    rw [removePeer, if_pos (hr hout)]
    rfl
  · rfl

theorem findRoute_head {it : (ConnectionID × PeerInfo) × Nat} {route : Bytes}
    (h : it.1.2.route = route) (fuel : Nat) (range : List ((ConnectionID × PeerInfo) × Nat)) :
    findRoute route (fuel + 1) (it :: range) = some (some it.2) := by
  simp [findRoute, h]

/-- The inner loop never gets past an entry with another route. -/
theorem findRoute_stuck {it : (ConnectionID × PeerInfo) × Nat} {route : Bytes}
    (h : it.1.2.route ≠ route) (fuel : Nat) (range : List ((ConnectionID × PeerInfo) × Nat)) :
    findRoute route fuel (it :: range) = none := by
  induction fuel with
  | zero => rfl
  | succ fuel ih => simpa [findRoute, h] using ih

section RemovePeer

variable {it : (ConnectionID × PeerInfo) × Nat} {range : List ((ConnectionID × PeerInfo) × Nat)}
  (hsn : s.conn.sn = true) (hrange : s.conns.equalRange s.conn = it :: range)
  (hne : s.conn.route ≠ [])

include hsn hrange hne

theorem removePeer_of_head (h : it.1.2.route = s.conn.route) (fuel : Nat) :
    s.removePeer (fuel + 1) = some (true, s.erasePeer it.2) := by
  simp only [removePeer, if_neg hne, hrange, hsn, if_true, findRoute_head h, Option.map_some]

theorem removePeer_of_other (h : it.1.2.route ≠ s.conn.route) (fuel : Nat) :
    s.removePeer fuel = none := by
  simp only [removePeer, if_neg hne, hrange, hsn, if_true, findRoute_stuck h, Option.map_none]

end RemovePeer

/-- The loop gets stuck: a send on incoming connections only, to a peer whose
entries are routed up to one that is not, with a routed one further on, and
the first of these routes and all before it are dead. -/
def Stuck (o : SendOptions) (outcome : Nat → SendOutcome)
    (es : List (ConnectionID × PeerInfo)) : Prop :=
  o.incoming = true ∧ o.outgoing = false ∧ ∃ pre e post, es = pre ++ e :: post ∧
    (∀ p ∈ pre, p.2.outgoing = false) ∧ e.2.outgoing = true ∧
    (∃ p ∈ post, p.2.outgoing = false) ∧ ∀ n ≤ pre.length, outcome n = .hostUnreachable

variable {outcome : Nat → SendOutcome} {e : ConnectionID × PeerInfo}
  {es : List (ConnectionID × PeerInfo)}

theorem stuck_cons_of_routed (he : e.2.outgoing = false) : Stuck o outcome (e :: es) ↔
    outcome 0 = .hostUnreachable ∧ Stuck o (fun n => outcome (n + 1)) es := by
  constructor
  · rintro ⟨hin, hout, pre, e', post, heq, hpre, he', hpost, hn⟩
    rcases pre with _ | ⟨p, pre⟩
    · obtain ⟨rfl, -⟩ := List.cons.inj heq
      rw [he] at he'
      cases he'
    · obtain ⟨rfl, rfl⟩ := List.cons.inj heq
      refine ⟨hn 0 (Nat.zero_le _), hin, hout, pre, e', post, rfl, ?_, he', hpost, ?_⟩
      · exact fun q hq => hpre q (List.mem_cons_of_mem _ hq)
      · exact fun n hle => hn (n + 1) (Nat.succ_le_succ hle)
  · rintro ⟨h0, hin, hout, pre, e', post, rfl, hpre, he', hpost, hn⟩
    refine ⟨hin, hout, e :: pre, e', post, rfl, ?_, he', hpost, ?_⟩
    · intro q hq
      rcases List.mem_cons.mp hq with rfl | hq
      · exact he
      · exact hpre q hq
    · rintro (_ | n) hle
      · exact h0
      · exact hn n (Nat.succ_le_succ_iff.mp hle)

theorem stuck_cons_of_outgoing (he : e.2.outgoing = true) : Stuck o outcome (e :: es) ↔
    o.incoming = true ∧ o.outgoing = false ∧ (∃ p ∈ es, p.2.outgoing = false) ∧
      outcome 0 = .hostUnreachable := by
  constructor
  · rintro ⟨hin, hout, pre, e', post, heq, hpre, -, hpost, hn⟩
    rcases pre with _ | ⟨p, pre⟩
    · obtain ⟨-, rfl⟩ := List.cons.inj heq
      exact ⟨hin, hout, hpost, hn 0 (le_refl _)⟩
    · obtain ⟨rfl, -⟩ := List.cons.inj heq
      have hp := hpre e List.mem_cons_self
      rw [he] at hp
      cases hp
  · rintro ⟨hin, hout, hpost, h0⟩
    refine ⟨hin, hout, [], e, es, rfl, by simp, he, hpost, ?_⟩
    intro n hle
    rwa [Nat.le_zero.mp hle]

/-- The peer used is the first one, unless that one is passed over because only
incoming connections are wanted. -/
theorem selectPeer_cons {c : Connections} {conn : ConnectionID} {incoming outgoing : Bool}
    {it it' : (ConnectionID × PeerInfo) × Nat} {range : List ((ConnectionID × PeerInfo) × Nat)}
    (h : c.equalRange conn = it :: range)
    (hsel : c.selectPeer conn incoming outgoing = some it') (hr : it'.1.2.outgoing = false) :
    outgoing = false ∧ (it = it' ∨ incoming = true ∧ it.1.2.outgoing = true ∧ it' ∈ range) := by
  have hp := List.find?_some hsel
  have hout : outgoing = false := by
    simpa [hr] using hp
  refine ⟨hout, ?_⟩
  rw [Connections.selectPeer, h, List.find?_cons] at hsel
  split at hsel
  · exact .inl (Option.some.inj hsel)
  · rename_i hskip
    have hflags : incoming = true ∧ it.1.2.outgoing = true := by simpa [hout] using hskip
    exact .inr ⟨hflags.1, hflags.2, List.mem_of_find?_eq_some hsel⟩

theorem selectPeer_of_routed {c : Connections} {conn : ConnectionID}
    (h : ∃ it ∈ c.equalRange conn, it.1.2.outgoing = false) :
    ∃ it, c.selectPeer conn true false = some it ∧ it.1.2.outgoing = false := by
  obtain ⟨it, hit, hr⟩ := h
  rcases hsel : c.selectPeer conn true false with _ | it'
  · have hnone := List.find?_eq_none.mp hsel it hit
    simp [hr] at hnone
  · exact ⟨it', rfl, by simpa using List.find?_some hsel⟩

section ServiceNode

/-- The message goes to the service node `conn`, by whatever route. -/
def Towards (s : SendState) (conn : ConnectionID) : Prop :=
  s.conn.sn = true ∧ s.conn.pk = conn.pk

variable {conn : ConnectionID} (hconn : conn.sn = true) (hpk : conn.pk.length = 32)

include hconn in
theorem Towards.equalRange (hs : s.Towards conn) :
    s.conns.equalRange s.conn = s.conns.equalRange conn :=
  Connections.equalRange_congr hs.1 hconn hs.2

include hconn hpk in
theorem target_of_routed (hs : s.Towards conn) {it : (ConnectionID × PeerInfo) × Nat}
    (hsel : s.conns.selectPeer conn o.incoming o.outgoing = some it)
    (hr : it.1.2.outgoing = false) : s.target env o =
      some (some it.1.2.connIndex, { s with conn := { s.conn with route := it.1.2.route } }) := by
  have hroute : it.1.2.route ≠ [] := by simpa [PeerInfo.outgoing] using hr
  have hsel' : s.conns.selectPeer { id := ConnectionID.snId, pk := s.conn.pk } o.incoming
      o.outgoing = some it := by
    rw [← hsel]
    exact Connections.selectPeer_congr (by rfl) hconn (by exact hs.2) ..
  have hmodify := modify_reusePeer (List.mem_of_find?_eq_some hsel) hroute o.keepAlive env.now
  simp only [target, hs.1, if_true, Connections.proxyConnectSn, ConnectionID.ofPubkey, hs.2 ▸ hpk,
    Option.bind_eq_bind, Option.bind_some, hsel', hmodify]
  rfl

include hconn hpk in
/-- A round ends the loop unless it finds a route dead. -/
theorem round_cases (hs : s.Towards conn) :
    (∃ s' new, (∀ fuel, sendLoop env o (fuel + 1) s = some s') ∧ s'.attempts = s.attempts ++ new ∧
      new.length ≤ 1 ∧ ∀ a ∈ new, a.Exact conn) ∨
    ∃ e i, s.conns.selectPeer conn o.incoming o.outgoing = some (e, i) ∧ e.2.outgoing = false ∧
      env.outcome s.attempts.length = .hostUnreachable ∧
      s.target env o =
        some (some e.2.connIndex, { s with conn := { s.conn with route := e.2.route } }) := by
  obtain ⟨t, s', ht, hatt, ⟨rfl, -⟩ | ⟨i, rfl, hroute, -⟩ | ⟨e, i, hsel, hroute, rfl, rfl⟩⟩ :=
    target_cases env o hs.1 (hs.2 ▸ hpk)
  · refine .inl ⟨s', [], fun fuel => ?_, by simpa using hatt, by simp, by simp⟩
    simp [sendLoop, ht]
  · obtain ⟨a, s'', hloop, hatt', hexact⟩ := sendLoop_succ_of_stop conn ht fun _ => hroute
    exact .inl ⟨s'', [a], hloop, hatt ▸ hatt', le_refl _, by simpa using hexact⟩
  · by_cases hout : env.outcome s.attempts.length = .hostUnreachable
    · refine .inr ⟨e, i, (Connections.selectPeer_congr hconn hs.1 hs.2.symm ..).trans hsel, ?_,
        hout, ht⟩
      simpa [PeerInfo.outgoing] using hroute
    · obtain ⟨a, s'', hloop, hatt', hexact⟩ := sendLoop_succ_of_stop conn ht fun h => absurd h hout
      exact .inl ⟨s'', [a], hloop, hatt', le_refl _, by simpa using hexact⟩

/-- The attempt on a route that is found dead. -/
def deadAttempt (s : SendState) (it : (ConnectionID × PeerInfo) × Nat) : Attempt :=
  ⟨it.1.2.connIndex, it.1.2.route, .hostUnreachable, s.conns.peers, s.conns.peers.eraseIdx it.2⟩

/-- The entry with a dead route is removed. -/
def dropRoute (s : SendState) (it : (ConnectionID × PeerInfo) × Nat) : SendState :=
  ({ s with conn := { s.conn with route := it.1.2.route } }.erasePeer it.2).record
    (s.deadAttempt it)

/-- The outcomes still to come. -/
theorem outcome_dropRoute (s : SendState) (it : (ConnectionID × PeerInfo) × Nat) :
    (fun n => env.outcome ((s.dropRoute it).attempts.length + n)) =
      fun n => env.outcome (s.attempts.length + (n + 1)) := by
  funext n
  have hlen : (s.dropRoute it).attempts.length = s.attempts.length + 1 := List.length_append
  rw [hlen, Nat.add_assoc, Nat.add_comm 1]

theorem exact_deadAttempt {it : (ConnectionID × PeerInfo) × Nat}
    (hit : it ∈ s.conns.equalRange conn) (hr : it.1.2.outgoing = false) :
    (s.deadAttempt it).Exact conn := by
  have hroute : it.1.2.route ≠ [] := by simpa [PeerInfo.outgoing] using hr
  have hit := Connections.mem_equalRange.mp hit
  rw [Attempt.Exact, if_pos ⟨rfl, hroute⟩]
  exact ⟨it.2, it.1, hit.1, hit.2, rfl, rfl, rfl⟩

include hconn in
/-- A dead route whose peer comes first is removed, and the loop goes on. -/
theorem sendLoop_of_dead_route {it : (ConnectionID × PeerInfo) × Nat}
    {range : List ((ConnectionID × PeerInfo) × Nat)} (hs : s.Towards conn)
    (hrange : s.conns.equalRange conn = it :: range) (hr : it.1.2.outgoing = false)
    (hout : env.outcome s.attempts.length = .hostUnreachable)
    (ht : s.target env o =
      some (some it.1.2.connIndex, { s with conn := { s.conn with route := it.1.2.route } })) :
    sendLoop env o 1 s = none ∧
      (∀ fuel, sendLoop env o (fuel + 2) s = sendLoop env o (fuel + 1) (s.dropRoute it)) ∧
      (s.dropRoute it).Towards conn ∧
      (s.dropRoute it).conns.peers.filter (·.1.eq conn) = range.map Prod.fst := by
  have hroute : it.1.2.route ≠ [] := by simpa [PeerInfo.outgoing] using hr
  let s₁ : SendState := { s with conn := { s.conn with route := it.1.2.route } }
  have hs₁ : s₁.Towards conn := hs
  have hremove := removePeer_of_head hs₁.1 ((hs₁.equalRange hconn).trans hrange) hroute rfl
  refine ⟨?_, fun fuel => ?_, hs, Connections.equalRange_cons hrange⟩
  · have hnone : s₁.removePeer 0 = none := by
      rw [removePeer, if_neg (show ¬ s₁.conn.route = [] from hroute), hs₁.equalRange hconn,
        show s₁.conns.equalRange conn = it :: range from hrange]
      simp only [hs₁.1, if_true, findRoute, Option.map_none]
    rw [sendLoop_succ ht]
    dsimp only
    rw [hout, if_pos rfl, hnone]
    rfl
  · rw [sendLoop_succ ht]
    dsimp only
    rw [hout, if_pos rfl, hremove]
    rfl

include hconn hpk in
theorem sendLoop_of_not_stuck (hs : s.Towards conn)
    (hes : s.conns.peers.filter (·.1.eq conn) = es)
    (hstuck : ¬ Stuck o (fun n => env.outcome (s.attempts.length + n)) es) :
    ∃ s' new, sendLoop env o (es.length + 2) s = some s' ∧ s'.attempts = s.attempts ++ new ∧
      new.length ≤ es.length + 1 ∧ ∀ a ∈ new, a.Exact conn := by
  induction es generalizing s with
  | nil =>
    rcases round_cases hconn hpk hs with ⟨s', new, hloop, hatt, hlen, hex⟩ | ⟨e, i, hsel, -, -, -⟩
    · exact ⟨s', new, hloop _, hatt, hlen, hex⟩
    · have hmem := List.mem_map_of_mem (f := Prod.fst) (List.mem_of_find?_eq_some hsel)
      rw [Connections.map_fst_equalRange, hes] at hmem
      cases hmem
  | cons e es ih =>
    rcases round_cases hconn hpk hs with ⟨s', new, hloop, hatt, hlen, hex⟩ |
      ⟨e', i, hsel, hr, hout, ht⟩
    · exact ⟨s', new, hloop _, hatt, by omega, hex⟩
    · rw [← Connections.map_fst_equalRange] at hes
      obtain ⟨it, range, hrange, rfl, rfl⟩ := List.map_eq_cons_iff.mp hes
      obtain ⟨ho, rfl | ⟨hin, hfirst, hmem⟩⟩ := selectPeer_cons hrange hsel hr
      · obtain ⟨-, hloop, hs', hes'⟩ := sendLoop_of_dead_route hconn hs hrange hr hout ht
        obtain ⟨s'', new, hloop', hatt', hlen, hex⟩ := ih hs' hes' fun htail =>
          hstuck ((stuck_cons_of_routed hr).mpr ⟨hout, outcome_dropRoute s _ ▸ htail⟩)
        refine ⟨s'', s.deadAttempt (e', i) :: new, (hloop _).trans hloop', ?_,
          Nat.succ_le_succ hlen, ?_⟩
        · rw [hatt', dropRoute, record, List.append_assoc, List.singleton_append]
          rfl
        · simpa using ⟨exact_deadAttempt (hrange ▸ List.mem_cons_self) hr, hex⟩
      · refine absurd ((stuck_cons_of_outgoing hfirst).mpr ⟨hin, ho, ?_, hout⟩) hstuck
        exact ⟨e', List.mem_map_of_mem hmem, hr⟩

include hconn hpk in
theorem sendLoop_of_stuck (hs : s.Towards conn)
    (hes : s.conns.peers.filter (·.1.eq conn) = es)
    (hstuck : Stuck o (fun n => env.outcome (s.attempts.length + n)) es) (fuel : Nat) :
    sendLoop env o fuel s = none := by
  induction es generalizing s fuel with
  | nil =>
    obtain ⟨-, -, pre, e, post, hnil, -⟩ := hstuck
    simp at hnil
  | cons e es ih =>
    rcases fuel with _ | fuel
    · rfl
    rw [← Connections.map_fst_equalRange] at hes
    obtain ⟨it, range, hrange, rfl, rfl⟩ := List.map_eq_cons_iff.mp hes
    by_cases hfirst : it.1.2.outgoing = true
    · obtain ⟨hin, ho, ⟨p, hp, hpr⟩, hout⟩ := (stuck_cons_of_outgoing hfirst).mp hstuck
      obtain ⟨itp, hitp, rfl⟩ := List.mem_map.mp hp
      obtain ⟨it', hsel, hr⟩ := selectPeer_of_routed
        ⟨itp, hrange ▸ List.mem_cons_of_mem it hitp, hpr⟩
      rw [← hin, ← ho] at hsel
      have hroute : it'.1.2.route ≠ [] := by simpa [PeerInfo.outgoing] using hr
      have hother : it.1.2.route ≠ it'.1.2.route := by
        rw [List.isEmpty_iff.mp hfirst]
        exact hroute.symm
      let s₁ : SendState := { s with conn := { s.conn with route := it'.1.2.route } }
      have hs₁ : s₁.Towards conn := hs
      have hnone := removePeer_of_other hs₁.1 ((hs₁.equalRange hconn).trans hrange) hroute
        hother fuel
      rw [sendLoop_succ (target_of_routed hconn hpk hs hsel hr)]
      dsimp only
      rw [show env.outcome s.attempts.length = .hostUnreachable from hout, if_pos rfl, hnone]
      rfl
    · have hr := Bool.eq_false_iff.mpr hfirst
      obtain ⟨hout, htail⟩ := (stuck_cons_of_routed hr).mp hstuck
      have hsel : s.conns.selectPeer conn o.incoming o.outgoing = some it := by
        rw [htail.1, htail.2.1, Connections.selectPeer, hrange,
          List.find?_cons_of_pos (by simp [hr])]
      obtain ⟨hone, hloop, hs', hes'⟩ := sendLoop_of_dead_route hconn hs hrange hr hout
        (target_of_routed hconn hpk hs hsel hr)
      rcases fuel with _ | fuel
      · exact hone
      · rw [hloop]
        refine ih hs' hes' ?_ _
        rwa [outcome_dropRoute]

end ServiceNode

end SendState

/-- SEND to a service node comes to an end, after at most one attempt for each
of its peers and one more, with exactly the dead routes removed. -/
def SendState.FailsOver (env : SendEnv) (o : SendOptions) (c : Connections) : Prop :=
  ∃ fuel s, SendState.sendLoop env o fuel (.start o c) = some s ∧
    s.attempts.length ≤ (c.peers.filter (·.1.eq o.conn)).length + 1 ∧
    ∀ a ∈ s.attempts, a.Exact o.conn

theorem SendState.failsOver_iff_not_stuck (env : SendEnv) (o : SendOptions) (c : Connections)
    (hsn : o.conn.sn = true) (hpk : o.conn.pk.length = 32) :
    FailsOver env o c ↔ ¬ Stuck o env.outcome (c.peers.filter (·.1.eq o.conn)) := by
  have hs : (SendState.start o c).Towards o.conn := ⟨hsn, rfl⟩
  have hstart : (fun n => env.outcome ((SendState.start o c).attempts.length + n)) =
      env.outcome := by simp [SendState.start]
  rw [← hstart]
  constructor
  · rintro ⟨fuel, s, hloop, -⟩ hstuck
    rw [sendLoop_of_stuck hsn hpk hs rfl hstuck] at hloop
    cases hloop
  · intro hstuck
    obtain ⟨s, new, hloop, hatt, hlen, hex⟩ := sendLoop_of_not_stuck hsn hpk hs rfl hstuck
    obtain rfl : s.attempts = new := hatt
    exact ⟨_, s, hloop, hlen, hex⟩

/-- A service node that was connected to before it connected back. -/
def Connections.bothWays : Connections where
  peers := [({ id := -1, pk := List.replicate 32 0 }, { connIndex := 1, socket := ⟨1, true⟩ }),
    ({ id := -1, pk := List.replicate 32 0 },
      { connIndex := 0, route := [1], socket := ⟨0, false⟩ })]

def SendOptions.incomingOnly : SendOptions where
  conn := { id := -1, pk := List.replicate 32 0 }
  incoming := true

def SendEnv.always (r : SendOutcome) : SendEnv where
  net := { snLookup := fun _ => [], connectError := fun _ => none }
  now := 0
  outcome _ := r

theorem SendState.failsOver_when_sent :
    SendState.FailsOver (.always .sent) .incomingOnly .bothWays := by
  refine (SendState.failsOver_iff_not_stuck _ _ _ (by decide) (by decide)).mpr ?_
  rintro ⟨-, -, pre, e, post, -, -, -, -, hn⟩
  cases hn 0 (Nat.zero_le _)

/-- The inner loop never reaches the second entry. -/
theorem SendState.hangs_when_incoming_dead :
    ¬ SendState.FailsOver (.always .hostUnreachable) .incomingOnly .bothWays := by
  rintro ⟨fuel, s, hloop, -⟩
  have hs : (SendState.start .incomingOnly .bothWays).Towards SendOptions.incomingOnly.conn :=
    ⟨by decide, rfl⟩
  have hstuck : Stuck .incomingOnly
      (fun n => (SendEnv.always .hostUnreachable).outcome (0 + n))
      (Connections.bothWays.peers.filter (·.1.eq SendOptions.incomingOnly.conn)) :=
    ⟨rfl, rfl, [], _, _, rfl, by simp, rfl, ⟨_, List.mem_singleton_self _, rfl⟩, fun _ _ => rfl⟩
  rw [sendLoop_of_stuck (by decide) (by decide) hs rfl hstuck] at hloop
  cases hloop

end ArqmaMQ
