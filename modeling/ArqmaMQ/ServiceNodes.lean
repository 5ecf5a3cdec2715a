import ArqmaMQ.ProxyConnections

/-! Changes to the set of active service nodes, and what they do to the peers. -/

namespace ArqmaMQ

open Renumber

namespace Connections

variable {c c' : Connections}

/-- An entry of `peers` without its index. -/
def detached (e : ConnectionID × PeerInfo) : ConnectionID × PeerInfo :=
  (e.1, { e.2 with connIndex := 0 })

/-- The socket of an outgoing entry belongs to no other id. -/
theorem Consistent.key_eq (h : c.Consistent) {e e' : ConnectionID × PeerInfo} (he : e ∈ c.peers)
    (he' : e' ∈ c.peers) (ho : e.2.outgoing = true) (hs : e'.2.socket = e.2.socket) :
    e'.1 = e.1 := by
  have hd : e.2.socket.dealer = true := (h.dealers e he).trans ho
  have ho' : e'.2.outgoing = true := by rw [← h.dealers e' he', hs, hd]
  have hidx := h.peers e he
  have hlt := (List.getElem?_eq_some_iff.mp hidx).1
  have hone := h.outgoing _ _ _ hidx hd (List.getElem?_eq_getElem (h.length ▸ hlt))
  have hmem {x : ConnectionID × PeerInfo} (hx : x ∈ c.peers) (hxo : x.2.outgoing = true)
      (hxs : x.2.socket = e.2.socket) :
      x.1 ∈ ((links (c.peers.map view)).filter (·.2 = e.2.socket)).map Prod.fst := by
    refine List.mem_map.mpr ⟨(x.1, x.2.socket), List.mem_filter.mpr ⟨?_, by simpa using hxs⟩, rfl⟩
    exact List.mem_map.mpr ⟨view x, List.mem_filter.mpr ⟨List.mem_map_of_mem hx, hxo⟩, rfl⟩
  have h₁ := hmem he ho rfl
  have h₂ := hmem he' ho' hs
  rw [hone, List.mem_singleton] at h₁ h₂
  rw [h₁, h₂]

theorem Consistent.detached_closeConnection (h : c.Consistent) {e : ConnectionID × PeerInfo}
    (he : e ∈ c.peers) : (c.closeConnection e.2.connIndex).peers.map detached =
      (c.peers.map detached).filter (·.2.socket ≠ e.2.socket) := by
  exact h.peers.map_update_of_getElem? detached _ h.nodup (fun _ _ => rfl) (fun _ => rfl)
    (h.peers e he)

/-- One round of `dropPeers`: an entry of `cid` goes, and no entry of others. -/
theorem Consistent.dropPeer (h : c.Consistent) {cid : ConnectionID} {e : ConnectionID × PeerInfo}
    {i : Nat} {range : List ((ConnectionID × PeerInfo) × Nat)}
    (hrange : c.equalRange cid = (e, i) :: range)
    (hc : c' = if e.2.outgoing then
      { c with peers := c.peers.eraseIdx i }.closeConnection e.2.connIndex
      else { c with peers := c.peers.eraseIdx i }) :
    c'.Consistent ∧ c'.activeServiceNodes = c.activeServiceNodes ∧
      (c'.peers.map detached).filter (!·.1.eq cid) =
        (c.peers.map detached).filter (!·.1.eq cid) ∧
      ((c'.peers.map detached).filter (·.1.eq cid)).length <
        ((c.peers.map detached).filter (·.1.eq cid)).length := by
  obtain ⟨hi, heq⟩ := mem_equalRange.mp (hrange ▸ List.mem_cons_self : (e, i) ∈ c.equalRange cid)
  have he := List.mem_of_getElem? hi
  by_cases ho : e.2.outgoing = true
  · rw [if_pos ho, erasePeer_closeConnection hi] at hc
    subst hc
    refine ⟨h.closeConnection _, rfl, ?_, ?_⟩
    · rw [h.detached_closeConnection he, List.filter_filter]
      refine List.filter_congr fun x hx => ?_
      obtain ⟨e', he', rfl⟩ := List.mem_map.mp hx
      by_cases hs : e'.2.socket = e.2.socket
      · have hkey : e'.1 = e.1 := h.key_eq he he' ho hs
        simp [detached, hkey, heq]
      · simp [detached, hs]
    · rw [h.detached_closeConnection he, List.filter_comm]
      refine List.length_filter_lt_length_iff_exists.mpr ⟨detached e, ?_, by simp [detached]⟩
      exact List.mem_filter.mpr ⟨List.mem_map_of_mem he, heq⟩
  · rw [if_neg ho] at hc
    subst hc
    have hdet : (c.peers.map detached)[i]? = some (detached e) := by simp [hi]
    refine ⟨h.eraseRouted hi (Bool.eq_false_iff.mpr ho), rfl, ?_, ?_⟩
    · dsimp only
      rw [← List.eraseIdx_map]
      refine filter_eraseIdx fun x hx => ?_
      obtain rfl := Option.some.inj (hdet.symm.trans hx)
      simp [detached, heq]
    · have hkey : ∀ l : List (ConnectionID × PeerInfo),
          ((l.map detached).filter (·.1.eq cid)).length = (l.filter (·.1.eq cid)).length := by
        intro l
        rw [List.filter_map, List.length_map]
        rfl
      rw [hkey, hkey, equalRange_cons hrange, ← map_fst_equalRange, hrange]
      simp

/-- Once the loop has seen all entries of a service node, the others are left. -/
theorem Consistent.detached_dropPeers (h : c.Consistent) (cid : ConnectionID) (n : Nat)
    (hn : ((c.peers.map detached).filter (·.1.eq cid)).length ≤ n) :
    (Connections.dropPeers cid n c).activeServiceNodes = c.activeServiceNodes ∧
    (Connections.dropPeers cid n c).peers.map detached =
      (c.peers.map detached).filter (!·.1.eq cid) := by
  have hnone {c : Connections} (hnil : (c.peers.map detached).filter (·.1.eq cid) = []) :
      c.peers.map detached = (c.peers.map detached).filter (!·.1.eq cid) := by
    refine (List.filter_eq_self.mpr fun e he => ?_).symm
    simpa using List.filter_eq_nil_iff.mp hnil e he
  induction n generalizing c with
  | zero => exact ⟨rfl, hnone (List.length_eq_zero_iff.mp (Nat.le_zero.mp hn))⟩
  | succ n ih =>
    unfold Connections.dropPeers
    split
    · rename_i hrange
      refine ⟨rfl, hnone ?_⟩
      rw [List.filter_map, List.map_eq_nil_iff]
      exact (map_fst_equalRange c cid).symm.trans (by rw [hrange]; rfl)
    · rename_i e i range hrange
      obtain ⟨hcons, hactive, hother, hlt⟩ := h.dropPeer hrange rfl
      obtain ⟨hactive', hpeers⟩ := ih hcons (by omega)
      exact ⟨hactive'.trans hactive, hpeers.trans hother⟩

/-- An entry of one of the service nodes. -/
def ofNodes (pks : List Bytes) (e : ConnectionID × PeerInfo) : Bool := e.1.sn && e.1.pk ∈ pks

theorem removeServiceNode_spec (h : c.Consistent) {pk : Bytes} (hpk : pk.length = 32) :
    ∃ c', c.removeServiceNode pk = some c' ∧ c'.Consistent ∧
      c'.activeServiceNodes = c.activeServiceNodes.erase pk ∧
      c'.peers.map detached = (c.peers.map detached).filter (!ofNodes [pk] ·) := by
  let c₁ := { c with activeServiceNodes := c.activeServiceNodes.erase pk }
  have hc₁ : c₁.Consistent := h.setActive _
  have hc : c.removeServiceNode pk =
      some (dropPeers { id := ConnectionID.snId, pk }
        (c₁.equalRange { id := ConnectionID.snId, pk }).length c₁) := by
    simp [removeServiceNode, ConnectionID.ofPubkey, hpk, c₁]
  have hlen : ((c₁.peers.map detached).filter (·.1.eq { id := ConnectionID.snId, pk })).length =
      (c₁.equalRange { id := ConnectionID.snId, pk }).length := by
    rw [List.filter_map, List.length_map]
    exact (congrArg List.length (map_fst_equalRange c₁ _)).symm.trans (List.length_map _)
  obtain ⟨hactive, hpeers⟩ := hc₁.detached_dropPeers _ _ hlen.le
  refine ⟨_, hc, h.removeServiceNode hc, hactive, hpeers.trans (List.filter_congr fun e _ => ?_)⟩
  simp [ConnectionID.eq_of_sn, ConnectionID.sn, ofNodes, beq_eq_decide]

theorem proxyUpdateActiveSnsClean_spec (h : c.Consistent) (added : List Bytes)
    {removed : List Bytes} (hr : ∀ pk ∈ removed, pk.length = 32)
    (hA : c.activeServiceNodes.Nodup) :
    ∃ c', c.proxyUpdateActiveSnsClean added removed = some c' ∧ c'.Consistent ∧
      c'.activeServiceNodes.Nodup ∧
      (∀ pk, pk ∈ c'.activeServiceNodes ↔ pk ∈ c.activeServiceNodes ∧ pk ∉ removed ∨ pk ∈ added) ∧
      c'.peers.map detached = (c.peers.map detached).filter (!ofNodes removed ·) := by
  have hremove : ∃ c₁, removed.foldlM removeServiceNode c = some c₁ ∧ c₁.Consistent ∧
      c₁.activeServiceNodes.Nodup ∧
      (∀ pk, pk ∈ c₁.activeServiceNodes ↔ pk ∈ c.activeServiceNodes ∧ pk ∉ removed) ∧
      c₁.peers.map detached = (c.peers.map detached).filter (!ofNodes removed ·) := by
    induction removed generalizing c with
    | nil => exact ⟨c, rfl, h, hA, by simp, by simp [ofNodes]⟩
    | cons pk removed ih =>
      obtain ⟨c₁, hc₁, hcons, hactive, hpeers⟩ := removeServiceNode_spec h (hr pk (by simp))
      obtain ⟨c₂, hc₂, hcons₂, hnd, hmem, hpeers₂⟩ := ih hcons
        (fun pk hpk => hr pk (List.mem_cons_of_mem _ hpk)) (hactive ▸ hA.erase pk)
      refine ⟨c₂, by rw [List.foldlM_cons, hc₁]; exact hc₂, hcons₂, hnd, fun pk' => ?_, ?_⟩
      · rw [hmem, hactive, hA.mem_erase_iff, List.mem_cons]
        tauto
      · rw [hpeers₂, hpeers, List.filter_filter]
        refine List.filter_congr fun e _ => ?_
        simp only [ofNodes, List.mem_cons, List.not_mem_nil, or_false, Bool.decide_or]
        cases e.1.sn <;> simp [Bool.and_comm]
  have hadd : ∀ (sns : List Bytes), sns.Nodup →
      (added.foldl (fun sns pk => sns.insert pk) sns).Nodup ∧
      ∀ pk, pk ∈ added.foldl (fun sns pk => sns.insert pk) sns ↔ pk ∈ sns ∨ pk ∈ added := by
    induction added with
    | nil => exact fun sns hs => ⟨hs, by simp⟩
    | cons pk added ih =>
      intro sns hs
      obtain ⟨hnd, hmem⟩ := ih (sns.insert pk) hs.insert
      refine ⟨hnd, fun pk' => ?_⟩
      rw [List.foldl_cons, hmem, List.mem_insert_iff, List.mem_cons]
      tauto
  obtain ⟨c₁, hc₁, hcons, hnd, hmem, hpeers⟩ := hremove
  obtain ⟨hnd', hmem'⟩ := hadd c₁.activeServiceNodes hnd
  refine ⟨_, by rw [proxyUpdateActiveSnsClean, hc₁]; rfl, hcons.setActive _, hnd', fun pk => ?_,
    hpeers⟩
  rw [hmem', hmem]

/-- An entry of a service node that is active in `c` and not in `c'`. -/
def dropped (c c' : Connections) (e : ConnectionID × PeerInfo) : Bool :=
  e.1.sn && e.1.pk ∈ c.activeServiceNodes && e.1.pk ∉ c'.activeServiceNodes

/-- The service nodes that satisfy `active` are the active ones in `c'`; an entry
of `c` is gone exactly if its node was dropped, and the others have kept their
sockets. -/
structure ActiveUpdate (c c' : Connections) (active : Bytes → Prop) : Prop where
  members : ∀ pk, pk ∈ c'.activeServiceNodes ↔ active pk
  nodup : c'.activeServiceNodes.Nodup
  gone : ∀ e ∈ c'.peers, c.dropped c' e = false
  kept : c'.peers.map detached = (c.peers.map detached).filter (!c.dropped c' ·)
  sockets : ∀ e ∈ c'.peers, c'.connections[e.2.connIndex]? = some e.2.socket

theorem ActiveUpdate.of_clean {added removed : List Bytes} {active : Bytes → Prop}
    (h : c.Consistent) (hA : c.activeServiceNodes.Nodup) (hr : ∀ pk ∈ removed, pk.length = 32)
    (hdrop : ∀ pk, pk ∈ removed ↔ pk ∈ c.activeServiceNodes ∧ ¬ active pk)
    (hadd : ∀ pk, active pk ↔ pk ∈ c.activeServiceNodes ∧ pk ∉ removed ∨ pk ∈ added) :
    ∃ c', c.proxyUpdateActiveSnsClean added removed = some c' ∧ c.ActiveUpdate c' active := by
  obtain ⟨c', hc', hcons, hnd, hmem, hpeers⟩ := proxyUpdateActiveSnsClean_spec h added hr hA
  have hactive : ∀ pk, pk ∈ c'.activeServiceNodes ↔ active pk :=
    fun pk => (hmem pk).trans (hadd pk).symm
  have hdropped : c.dropped c' = ofNodes removed := by
    funext e
    rw [Bool.eq_iff_iff]
    simp [dropped, ofNodes, hactive, hdrop, and_assoc]
  refine ⟨c', hc', hactive, hnd, fun e he => ?_, hdropped ▸ hpeers, hcons.peers⟩
  have hdet : detached e ∈ (c.peers.map detached).filter (!ofNodes removed ·) := by
    rw [← hpeers]
    exact List.mem_map_of_mem he
  have hkeep : ofNodes removed (detached e) = false := by simpa using (List.mem_filter.mp hdet).2
  exact (congrFun hdropped e).trans hkeep

theorem proxyUpdateActiveSns_spec (h : c.Consistent) (hA : c.activeServiceNodes.Nodup)
    (hlen : ∀ pk ∈ c.activeServiceNodes, pk.length = 32) (added removed : List Bytes) :
    ∃ c', c.proxyUpdateActiveSns added removed = some c' ∧ c.ActiveUpdate c' fun pk =>
      pk ∈ c.activeServiceNodes ∧ ¬ (pk ∈ removed ∧ pk ∉ added) ∨ pk ∈ added ∧ pk.length = 32 := by
  refine ActiveUpdate.of_clean h hA ?_ ?_ ?_
  · intro pk hpk
    exact (of_decide_eq_true (List.mem_filter.mp hpk).2).1
  · intro pk
    have hpk := hlen pk
    simp only [List.mem_filter, decide_eq_true_iff]
    tauto
  · intro pk
    have hpk := hlen pk
    simp only [List.mem_filter, decide_eq_true_iff]
    tauto

/-- The sizes of two sets differ by what each has and the other has not. -/
theorem length_add_length_filter {A P : List Bytes} (hA : A.Nodup) (hP : P.Nodup) :
    A.length + (P.filter (· ∉ A)).length = P.length + (A.filter (· ∉ P)).length := by
  have hboth : (A.filter (· ∈ P)).length = (P.filter (· ∈ A)).length := by
    refine List.Perm.length_eq ((List.perm_ext_iff_of_nodup (hA.filter _) (hP.filter _)).mpr ?_)
    intro pk
    simp [and_comm]
  have hsplit (X Y : List Bytes) :
      X.length = (X.filter (· ∈ Y)).length + (X.filter (· ∉ Y)).length := by
    simpa using X.length_eq_length_filter_add (· ∈ Y)
  have hsA := hsplit A P
  have hsP := hsplit P A
  omega

/-- The loop may stop early because by then it has found everything. -/
theorem findRemoved_eq {pubkeys sns : List Bytes} (seen : List Bytes) {size : Nat}
    (hsize : size = pubkeys.length + ((seen ++ sns).filter (· ∉ pubkeys)).length) :
    findRemoved pubkeys size sns (seen.filter (· ∉ pubkeys)) =
      (seen ++ sns).filter (· ∉ pubkeys) := by
  induction sns generalizing seen with
  | nil => simp [findRemoved]
  | cons pk sns ih =>
    have hstep : (if pk ∈ pubkeys then seen.filter (· ∉ pubkeys)
        else seen.filter (· ∉ pubkeys) ++ [pk]) = (seen ++ [pk]).filter (· ∉ pubkeys) := by
      by_cases hpk : pk ∈ pubkeys <;> simp [List.filter_append, hpk]
    have happend : seen ++ pk :: sns = (seen ++ [pk]) ++ sns := by simp
    rw [happend] at hsize ⊢
    unfold findRemoved
    dsimp only
    rw [hstep]
    split
    · rename_i hdone
      have hnil : sns.filter (· ∉ pubkeys) = [] := by
        refine List.length_eq_zero_iff.mp ?_
        rw [List.filter_append, List.length_append] at hsize
        omega
      rw [List.filter_append _ sns, hnil, List.append_nil]
    · exact ih _ hsize

theorem proxySetActiveSns_spec (h : c.Consistent) (hA : c.activeServiceNodes.Nodup)
    (hlen : ∀ pk ∈ c.activeServiceNodes, pk.length = 32) {pubkeys : List Bytes}
    (hS : pubkeys.Nodup) :
    ∃ c', c.proxySetActiveSns pubkeys = some c' ∧
      c.ActiveUpdate c' fun pk => pk ∈ pubkeys ∧ pk.length = 32 := by
  have hP := hS.filter (fun pk : Bytes => pk.length = 32)
  have hmem : ∀ pk, pk ∈ pubkeys.filter (fun pk : Bytes => pk.length = 32) ↔
      pk ∈ pubkeys ∧ pk.length = 32 := by simp
  unfold proxySetActiveSns
  dsimp only
  generalize pubkeys.filter (fun pk : Bytes => pk.length = 32) = P at hP hmem
  have hcount := length_add_length_filter hA hP
  have hremoved : findRemoved P (c.activeServiceNodes.length +
      (P.filter (· ∉ c.activeServiceNodes)).length) c.activeServiceNodes [] =
      c.activeServiceNodes.filter (· ∉ P) := findRemoved_eq [] hcount
  simp only [← hmem]
  split
  · rename_i hsame
    have hnone : c.activeServiceNodes.filter (· ∉ P) = [] := by
      refine List.length_eq_zero_iff.mp ?_
      rw [hsame.1, List.length_nil] at hcount
      omega
    have hiff : ∀ pk, pk ∈ c.activeServiceNodes ↔ pk ∈ P := by
      intro pk
      have h₁ := List.filter_eq_nil_iff.mp hnone pk
      have h₂ := List.filter_eq_nil_iff.mp hsame.1 pk
      simp only [decide_eq_true_iff, not_not] at h₁ h₂
      exact ⟨h₁, h₂⟩
    have hdropped : c.dropped c = fun _ => false := by
      funext e
      simp [dropped]
    exact ⟨c, rfl, hiff, hA, fun e _ => congrFun hdropped e, by simp [hdropped], h.peers⟩
  · rw [hremoved]
    refine ActiveUpdate.of_clean h hA ?_ ?_ ?_
    · exact fun pk hpk => hlen pk (List.mem_filter.mp hpk).1
    · simp
    · intro pk
      simp only [List.mem_filter, decide_eq_true_iff]
      tauto

end Connections

variable {ι R : Type} [DecidableEq ι] [Fintype ι] {p : Proxy ι R}

/-- SET_SNS and UPDATE_SNS in any state of the proxy. -/
theorem Proxy.activeUpdate_of_reachable (h : (Proxy.machine ι R).Reachable p) (hc : p.inControl)
    (hA : p.conns.activeServiceNodes.Nodup)
    (hlen : ∀ pk ∈ p.conns.activeServiceNodes, pk.length = 32) :
    (∀ pubkeys : List Bytes, pubkeys.Nodup →
      ∃ p', p.step (.control (.setSns pubkeys)) = some p' ∧
        p.conns.ActiveUpdate p'.conns fun pk => pk ∈ pubkeys ∧ pk.length = 32) ∧
    ∀ added removed : List Bytes, added.Nodup → removed.Nodup →
      ∃ p', p.step (.control (.updateSns added removed)) = some p' ∧
        p.conns.ActiveUpdate p'.conns fun pk =>
          pk ∈ p.conns.activeServiceNodes ∧ ¬ (pk ∈ removed ∧ pk ∉ added) ∨
            pk ∈ added ∧ pk.length = 32 := by
  have hcons : p.conns.Consistent := Proxy.consistent_of_reachable h
  constructor
  · intro pubkeys hS
    obtain ⟨c', hc', hupdate⟩ := Connections.proxySetActiveSns_spec hcons hA hlen hS
    exact ⟨{ p with conns := c' }, by simp [step, hc, Connections.control, hS, hc'], hupdate⟩
  · intro added removed ha hr
    obtain ⟨c', hc', hupdate⟩ := Connections.proxyUpdateActiveSns_spec hcons hA hlen added removed
    exact ⟨{ p with conns := c' }, by simp [step, hc, Connections.control, ha, hr, hc'], hupdate⟩

/-- The only service node is connected to, and then dropped. -/
theorem Proxy.activeUpdate_when_connected : ∃ p p' : Proxy Unit Unit,
    (Proxy.machine Unit Unit).Reachable p ∧ p.conns.peers.map (·.1.pk) = [sampleKey] ∧
    p.step (.control (.setSns [[1]])) = some p' ∧
    p.conns.ActiveUpdate p'.conns fun pk => pk ∈ [[1]] ∧ pk.length = 32 := by
  obtain ⟨p, hp, hstate⟩ := Proxy.sample_reachable.exists_of_run
    [.control (.connectSn sampleNetwork 0 { keepAlive := 0, pubkey := some sampleKey })]
    (p := fun p => decide (p.conns.peers.map (·.1.pk) = [sampleKey] ∧ p.inControl ∧
      p.conns.activeServiceNodes = [sampleKey])) (by decide +kernel)
  obtain ⟨hpeers, hc, hactive⟩ := of_decide_eq_true hstate
  obtain ⟨p', hstep, hupdate⟩ := (Proxy.activeUpdate_of_reachable hp hc (by simp [hactive])
    (by simp [hactive, sampleKey])).1 [[1]] (by simp)
  exact ⟨p, p', hp, hpeers, hstep, hupdate⟩

end ArqmaMQ
