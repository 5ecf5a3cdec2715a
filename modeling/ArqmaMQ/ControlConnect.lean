import ArqmaMQ.ControlSend

/-! CONNECT_REMOTE, CONNECT_SN and DISCONNECT: the proxy recovers what the calls
were given. Options of the other kind of connection are left out by the caller. -/

namespace ArqmaMQ

open SortedMap BtDictConsumer
open scoped ByteOrder

namespace ConnectOption

def authLevel? : ConnectOption → Option Int32
  | .authLevel auth => some auth
  | _ => none

def ephemeralRoutingId? : ConnectOption → Option Bool
  | .ephemeralRoutingId use => some use
  | _ => none

def timeout? : ConnectOption → Option Millis
  | .timeout t => some t
  | .time t => some t
  | _ => none

def keepAlive? : ConnectOption → Option Millis
  | .keepAlive t => some t
  | .time t => some t
  | _ => none

/-- The hint, and whether it is stored as a view. -/
def hintValue? : ConnectOption → Option (Bool × StdString)
  | .hint s => some (false, s)
  | .string s => some (true, s)
  | _ => none

def hint? (o : ConnectOption) : Option StdString := o.hintValue?.map Prod.snd

/-- What an option assigns. -/
def assignment? (remote : Bool) : ConnectOption → Option (Bytes × BtVariant)
  | .authLevel auth => if remote then some (bytes "auth_level", .int auth.toInt64) else none
  | .ephemeralRoutingId use => some (bytes "ephemeral_rid", .ofBool use)
  | .timeout t => if remote then some (bytes "timeout", .int t.1) else none
  | .keepAlive t => if remote then none else some (bytes "keep_alive", .int t.1)
  | .hint s => if remote then none else some (bytes "hint", .string s.1)
  | .time t => some (bytes (if remote then "timeout" else "keep_alive"), .int t.1)
  | .string s => if remote then none else some (bytes "hint", .stringView s.1)

def keys : List Bytes :=
  ["auth_level", "ephemeral_rid", "timeout", "keep_alive", "hint"].map bytes

theorem mem_keys (remote : Bool) (o : ConnectOption) (e : Bytes × BtVariant)
    (h : o.assignment? remote = some e) : e.1 ∈ keys := by
  cases remote <;> cases o <;> cases h <;> simp [keys]

theorem valid_entry {remote : Bool} {o : ConnectOption} {e : Bytes × BtVariant}
    (h : o.assignment? remote = some e) : e.1.length < 2 ^ 64 ∧ e.2.Valid := by
  have hkeys : ∀ k ∈ keys, k.length < 2 ^ 64 := by decide
  refine ⟨hkeys _ (mem_keys remote o e h), ?_⟩
  cases o with
  | hint s =>
    cases remote <;> cases h
    simpa only [BtVariant.Valid] using s.2
  | string s =>
    cases remote <;> cases h
    simpa only [BtVariant.Valid] using s.2
  | _ => cases remote <;> cases h <;> simp only [BtVariant.Valid, BtVariant.ofBool]

end ConnectOption

theorem foldl_applyConnectOption (remote : Bool) (options : List ConnectOption)
    (d : List (Bytes × BtVariant)) : options.foldl (applyConnectOption remote) d =
      assignAll (options.filterMap (ConnectOption.assignment? remote)) d := by
  have hstep : applyConnectOption remote =
      fun d o => assignAll (ConnectOption.assignment? remote o).toList d := by
    funext d o
    cases remote <;> cases o <;> rfl
  rw [hstep, foldl_assignAll_toList]

theorem valid_connectData {remote : Bool} {options : List ConnectOption}
    {es fs : List (Bytes × BtVariant)} (hes : ∀ e ∈ es, e.1.length < 2 ^ 64 ∧ e.2.Valid)
    (hfs : ∀ e ∈ fs, e.1.length < 2 ^ 64 ∧ e.2.Valid) :
    (BtVariant.dict (assignAll
      (es ++ (options.filterMap (ConnectOption.assignment? remote) ++ fs)) [])).Valid := by
  refine valid_assignAll fun e he => ?_
  rcases List.mem_append.mp he with he | he
  · exact hes e he
  rcases List.mem_append.mp he with he | he
  · obtain ⟨o, -, ho⟩ := List.mem_filterMap.mp he
    exact ConnectOption.valid_entry ho
  · exact hfs e he

section Values

variable {α β : Type} {d : List (Bytes × BtVariant)} {key : Bytes}

theorem reads_authLevel (a : Int32) :
    Reads (AuthLevel.mk <$> consumeInteger .int) (.int a.toInt64) ⟨a.toInt⟩ := by
  have hmin := a.le_toInt
  have hmax := a.toInt_lt
  refine (reads_consumeInteger .int hmin (by simp only [IntType.max]; omega) ?_).map AuthLevel.mk
  rw [btSerialize, Int32.toInt_toInt64]

/-- A key that has a value before the options are applied. -/
theorem holds_of_get_or {x : Method α} {enc : β → BtVariant} {dec : β → α} {o : Option β} {b : β}
    (hget : SortedMap.get key d = (o.map enc).or (some (enc b)))
    (hreads : ∀ b, Reads x (enc b) (dec b)) (default : α) :
    Holds d key x default (dec (o.getD b)) := by
  refine .inr ⟨enc (o.getD b), ?_, hreads _⟩
  rw [hget]
  cases o <;> rfl

theorem Control.decode_eq_ok {x : Control α} {a : α} (hd : (BtVariant.dict d).Valid)
    (h : ∀ c, (∀ key, Ahead d key c) → ∃ c', x.run c = .ok a c') :
    x.decode (btSerialize (.dict d)) = .ok a := by
  obtain ⟨c, hc, hahead⟩ := ahead_of_ofData hd
  obtain ⟨c', hrun⟩ := h c hahead
  rw [Control.decode, hc]
  dsimp only
  rw [hrun]

end Values

section Remote

variable {remote : Address} {onConnect onFailure : UInt64} {id : Int64}
  {options : List ConnectOption} {key : Bytes}

/-- The strings of an address have a `size_t` as their length. -/
structure Address.Fits (a : Address) : Prop where
  pubkey : a.pubkey.length < 2 ^ 64
  zmqAddress : a.zmqAddress.length < 2 ^ 64

def pubkeyEntries (remote : Address) : List (Bytes × BtVariant) :=
  if remote.curve then [(bytes "pubkey", .string remote.pubkey)] else []

/-- What `connect_remote` assigns after the options. -/
def remoteEntries (remote : Address) (onConnect onFailure : UInt64) (id : Int64) :
    List (Bytes × BtVariant) :=
  [(bytes "conn_id", .int id), (bytes "connect", .uint onConnect),
    (bytes "failure", .uint onFailure)] ++
      (pubkeyEntries remote ++ [(bytes "remote", .string remote.zmqAddress)])

def remoteKeys : List Bytes := ["conn_id", "connect", "failure", "pubkey", "remote"].map bytes

/-- What the proxy should find in the data of a CONNECT_REMOTE. -/
def expectedConnectRemote (ephemeralRoutingId : Bool) (remote : Address)
    (onConnect onFailure : UInt64) (id : Int64) (options : List ConnectOption) :
    ConnectRemoteMessage where
  authLevel := ((lastOf ConnectOption.authLevel? options).map (⟨·.toInt⟩)).getD .none
  connId := id.toInt
  connect := onConnect.toNat
  failure := onFailure.toNat
  pubkey := if remote.curve then remote.pubkey else []
  remote := remote.zmqAddress
  timeout := ((lastOf ConnectOption.timeout? options).map (·.1.toInt)).getD 10000
  ephemeralRid := (lastOf ConnectOption.ephemeralRoutingId? options).getD ephemeralRoutingId

theorem connectRemoteData_eq : connectRemoteData remote onConnect onFailure id options =
    assignAll ([] ++ (options.filterMap (ConnectOption.assignment? true) ++
      remoteEntries remote onConnect onFailure id)) [] := by
  rw [connectRemoteData, foldl_applyConnectOption, List.nil_append, assignAll_append,
    remoteEntries, pubkeyEntries]
  split <;> rfl

theorem forall_remoteEntries {p : Bytes × BtVariant → Prop} (hid : p (bytes "conn_id", .int id))
    (hconnect : p (bytes "connect", .uint onConnect))
    (hfailure : p (bytes "failure", .uint onFailure))
    (hpubkey : p (bytes "pubkey", .string remote.pubkey))
    (hremote : p (bytes "remote", .string remote.zmqAddress)) :
    ∀ e ∈ remoteEntries remote onConnect onFailure id, p e := by
  rw [remoteEntries, pubkeyEntries]
  split <;> simp [*]

theorem valid_connectRemoteData (hremote : remote.Fits) :
    (BtVariant.dict (connectRemoteData remote onConnect onFailure id options)).Valid := by
  rw [connectRemoteData_eq]
  refine valid_connectData (by simp) (forall_remoteEntries ?_ ?_ ?_ ?_ ?_)
  all_goals refine ⟨by dsimp only; decide, ?_⟩
  · simp only [BtVariant.Valid]
  · simp only [BtVariant.Valid]
  · simp only [BtVariant.Valid]
  · simpa only [BtVariant.Valid] using hremote.pubkey
  · simpa only [BtVariant.Valid] using hremote.zmqAddress

theorem get_remote_of_option {β : Type} (g : ConnectOption → Option β) (enc : β → BtVariant)
    (hkey : key ∉ remoteKeys)
    (h : ∀ o, valueOf (ConnectOption.assignment? true) key o = (g o).map enc) :
    SortedMap.get key (connectRemoteData remote onConnect onFailure id options) =
      (lastOf g options).map enc := by
  have hkeys : ∀ e ∈ remoteEntries remote onConnect onFailure id, e.1 ∈ remoteKeys :=
    forall_remoteEntries (by simp [remoteKeys]) (by simp [remoteKeys]) (by simp [remoteKeys])
      (by simp [remoteKeys]) (by simp [remoteKeys])
  rw [connectRemoteData_eq, get_items h hkeys hkey, last_nil, Option.or_none]

theorem get_remote_of_call (hkey : key ∉ ConnectOption.keys) :
    SortedMap.get key (connectRemoteData remote onConnect onFailure id options) =
      last key (remoteEntries remote onConnect onFailure id) := by
  rw [connectRemoteData_eq, get_of_not_item (ConnectOption.mem_keys true) hkey, last_nil,
    Option.or_none]

theorem zmqAddress_ne_nil (a : Address) : a.zmqAddress ≠ [] := by
  rw [Address.zmqAddress]
  split <;> exact List.append_ne_nil_of_left_ne_nil (by decide) _

theorem run_parseConnectRemote (ephemeralRoutingId : Bool) (hremote : remote.Fits) (hid : id ≠ -1)
    {c : BtDictConsumer}
    (h : ∀ key, Ahead (connectRemoteData remote onConnect onFailure id options) key c) :
    ∃ c', (parseConnectRemote ephemeralRoutingId).run c = .ok (expectedConnectRemote
      ephemeralRoutingId remote onConnect onFailure id options) c' := by
  have hauth : SortedMap.get (bytes "auth_level") (connectRemoteData remote onConnect onFailure id
      options) = (lastOf ConnectOption.authLevel? options).map fun a => .int a.toInt64 :=
    get_remote_of_option _ _ (by decide) fun o => by cases o <;> rfl
  have hephemeral : SortedMap.get (bytes "ephemeral_rid") (connectRemoteData remote onConnect
      onFailure id options) = (lastOf ConnectOption.ephemeralRoutingId? options).map .ofBool :=
    get_remote_of_option _ _ (by decide) fun o => by cases o <;> rfl
  have htimeout : SortedMap.get (bytes "timeout") (connectRemoteData remote onConnect onFailure id
      options) = (lastOf ConnectOption.timeout? options).map fun t => .int t.1 :=
    get_remote_of_option _ _ (by decide) fun o => by cases o <;> rfl
  have hpubkey : Holds (connectRemoteData remote onConnect onFailure id options) (bytes "pubkey")
      consumeString [] (if remote.curve then remote.pubkey else []) := by
    by_cases hcurve : remote.curve = true
    · rw [if_pos hcurve]
      refine .inr ⟨_, ?_, reads_string hremote.pubkey⟩
      rw [get_remote_of_call (by decide), remoteEntries, pubkeyEntries, if_pos hcurve]
      rfl
    · rw [if_neg hcurve]
      refine .inl ⟨?_, rfl⟩
      rw [get_remote_of_call (by decide), remoteEntries, pubkeyEntries, if_neg hcurve]
      rfl
  have hcall : SortedMap.get (bytes "conn_id") (connectRemoteData remote onConnect onFailure id
        options) = some (.int id) ∧
      SortedMap.get (bytes "connect") (connectRemoteData remote onConnect onFailure id options) =
        some (.uint onConnect) ∧
      SortedMap.get (bytes "failure") (connectRemoteData remote onConnect onFailure id options) =
        some (.uint onFailure) ∧
      SortedMap.get (bytes "remote") (connectRemoteData remote onConnect onFailure id options) =
        some (.string remote.zmqAddress) := by
    simp only [get_remote_of_call (show bytes "conn_id" ∉ ConnectOption.keys by decide),
      get_remote_of_call (show bytes "connect" ∉ ConnectOption.keys by decide),
      get_remote_of_call (show bytes "failure" ∉ ConnectOption.keys by decide),
      get_remote_of_call (show bytes "remote" ∉ ConnectOption.keys by decide), remoteEntries,
      pubkeyEntries]
    split <;> exact ⟨rfl, rfl, rfl, rfl⟩
  obtain ⟨hconnId, hconnect, hfailure, haddress⟩ := hcall
  obtain ⟨c₁, h₁, hahead⟩ := (h _).fieldOr (by decide) (holds_of_get hauth reads_authLevel .none)
  obtain ⟨c₂, h₂, hahead⟩ := (hahead _ (by decide)).fieldOr (by decide)
    (holds_of_some hconnId (reads_longLong id) (-1))
  obtain ⟨c₃, h₃, hahead⟩ := (hahead _ (by decide)).fieldOr (by decide)
    (holds_of_some hconnect (reads_consumeObject onConnect) 0)
  obtain ⟨c₄, h₄, hahead⟩ := (hahead _ (by decide)).fieldOr (by decide)
    (holds_of_get hephemeral reads_consumeBool ephemeralRoutingId)
  obtain ⟨c₅, h₅, hahead⟩ := (hahead _ (by decide)).fieldOr (by decide)
    (holds_of_some hfailure (reads_consumeObject onFailure) 0)
  obtain ⟨c₆, h₆, hahead⟩ := (hahead _ (by decide)).fieldOr (by decide) hpubkey
  obtain ⟨c₇, h₇, hahead⟩ := (hahead _ (by decide)).fieldOr (by decide)
    (holds_of_some haddress (reads_string hremote.zmqAddress) [])
  obtain ⟨c₈, h₈, -⟩ := (hahead _ (by decide)).fieldOr (by decide)
    (holds_of_get htimeout reads_consumeMillis 10000)
  have hne : ¬ (id.toInt = -1 ∨ remote.zmqAddress = []) := by
    rintro (h | h)
    · exact hid (Int64.toInt_inj.mp h)
    · exact zmqAddress_ne_nil remote h
  refine ⟨c₈, ?_⟩
  rw [parseConnectRemote, run_bind_ok (run_lift h₁), run_bind_ok (run_lift h₂),
    run_bind_ok (run_lift h₃), run_bind_ok (run_lift h₄), run_bind_ok (run_lift h₅),
    run_bind_ok (run_lift h₆), run_bind_ok (run_lift h₇), run_bind_ok (run_lift h₈),
    run_failIf_bind hne, expectedConnectRemote, Option.map_id']
  rfl

end Remote

section ServiceNode

variable {ephemeralRoutingId : Bool} {pubkey : StdString} {options : List ConnectOption}
  {key : Bytes}

/-- What `connect_sn` assigns before the options. -/
def snDefaults (ephemeralRoutingId : Bool) : List (Bytes × BtVariant) :=
  [(bytes "keep_alive", .int 300000), (bytes "ephemeral_rid", .ofBool ephemeralRoutingId)]

/-- What the proxy should find in the data of a CONNECT_SN. -/
def expectedConnectSn (ephemeralRoutingId : Bool) (pubkey : StdString)
    (options : List ConnectOption) : ConnectSnMessage where
  hint := ((lastOf ConnectOption.hint? options).map Subtype.val).getD []
  keepAlive := ((lastOf ConnectOption.keepAlive? options).getD ⟨300000, by decide⟩).1.toInt
  pubkey := some pubkey.1
  ephemeralRid := (lastOf ConnectOption.ephemeralRoutingId? options).getD ephemeralRoutingId

theorem connectSnData_eq : connectSnData ephemeralRoutingId pubkey options =
    assignAll (snDefaults ephemeralRoutingId ++
      (options.filterMap (ConnectOption.assignment? false) ++
      [(bytes "pubkey", .stringView pubkey.1)])) [] := by
  rw [connectSnData, foldl_applyConnectOption, assignAll_append, assignAll_append]
  rfl

theorem valid_connectSnData :
    (BtVariant.dict (connectSnData ephemeralRoutingId pubkey options)).Valid := by
  rw [connectSnData_eq]
  refine valid_connectData ?_ ?_
  · intro e he
    rcases List.mem_pair.mp he with rfl | rfl
    · exact ⟨by dsimp only; decide, by simp only [BtVariant.Valid]⟩
    · exact ⟨by dsimp only; decide, by simp only [BtVariant.Valid, BtVariant.ofBool]⟩
  · intro e he
    obtain rfl := List.mem_singleton.mp he
    exact ⟨by dsimp only; decide, by simpa only [BtVariant.Valid] using pubkey.2⟩

theorem get_sn_of_option {β : Type} (g : ConnectOption → Option β) (enc : β → BtVariant)
    (hkey : key ∉ [bytes "pubkey"])
    (h : ∀ o, valueOf (ConnectOption.assignment? false) key o = (g o).map enc) :
    SortedMap.get key (connectSnData ephemeralRoutingId pubkey options) =
      ((lastOf g options).map enc).or (last key (snDefaults ephemeralRoutingId)) := by
  rw [connectSnData_eq, get_items h (by simp) hkey]

theorem get_sn_of_call (hkey : key ∉ ConnectOption.keys) :
    SortedMap.get key (connectSnData ephemeralRoutingId pubkey options) =
      (last key [(bytes "pubkey", .stringView pubkey.1)]).or
        (last key (snDefaults ephemeralRoutingId)) := by
  rw [connectSnData_eq, get_of_not_item (ConnectOption.mem_keys false) hkey]

theorem holds_hint : Holds (connectSnData ephemeralRoutingId pubkey options) (bytes "hint")
    consumeString [] (((lastOf ConnectOption.hint? options).map Subtype.val).getD []) := by
  have hget : SortedMap.get (bytes "hint") (connectSnData ephemeralRoutingId pubkey options) =
      (lastOf ConnectOption.hintValue? options).map
        fun v => if v.1 then .stringView v.2.1 else .string v.2.1 := by
    rw [get_sn_of_option ConnectOption.hintValue?
      (fun v => if v.1 then .stringView v.2.1 else .string v.2.1) (by decide)
      fun o => by cases o <;> rfl]
    exact Option.or_none
  have hlast : lastOf ConnectOption.hint? options =
      (lastOf ConnectOption.hintValue? options).map Prod.snd := lastOf_map _ _ _
  rw [hlast, Option.map_map]
  refine holds_of_get hget (fun v => ?_) []
  obtain ⟨view, s⟩ := v
  cases view with
  | false => exact reads_string s.2
  | true => exact reads_stringView s.2

theorem run_parseConnectSn {c : BtDictConsumer}
    (h : ∀ key, Ahead (connectSnData ephemeralRoutingId pubkey options) key c) :
    ∃ c', (parseConnectSn ephemeralRoutingId).run c =
      .ok (expectedConnectSn ephemeralRoutingId pubkey options) c' := by
  have hephemeral : SortedMap.get (bytes "ephemeral_rid")
      (connectSnData ephemeralRoutingId pubkey options) =
        ((lastOf ConnectOption.ephemeralRoutingId? options).map .ofBool).or
          (some (.ofBool ephemeralRoutingId)) :=
    get_sn_of_option _ _ (by decide) fun o => by cases o <;> rfl
  have hkeepAlive : SortedMap.get (bytes "keep_alive")
      (connectSnData ephemeralRoutingId pubkey options) =
        ((lastOf ConnectOption.keepAlive? options).map fun t => .int t.1).or
          (some (.int (⟨300000, by decide⟩ : Millis).1)) :=
    get_sn_of_option _ _ (by decide) fun o => by cases o <;> rfl
  have hpubkey : SortedMap.get (bytes "pubkey")
      (connectSnData ephemeralRoutingId pubkey options) = some (.stringView pubkey.1) := by
    rw [get_sn_of_call (by decide)]
    rfl
  have habsent (key : Bytes) (hkey : key ∈ ["incoming", "optional", "outgoing_only"].map bytes) :
      Holds (connectSnData ephemeralRoutingId pubkey options) key consumeBool false false := by
    have hkeys : ∀ key ∈ ["incoming", "optional", "outgoing_only"].map bytes,
        key ∉ ConnectOption.keys ∧ key ∉ ["pubkey", "keep_alive", "ephemeral_rid"].map bytes := by
      decide
    obtain ⟨hoption, hcall⟩ := hkeys key hkey
    refine .inl ⟨?_, rfl⟩
    rw [get_sn_of_call hoption, last_eq_none (by simp) hcall, last_eq_none (by simp [snDefaults])
      hcall, Option.or_none]
  obtain ⟨c₁, h₁, hahead⟩ := (h _).fieldOr (by decide)
    (holds_of_get_or hephemeral reads_consumeBool ephemeralRoutingId)
  obtain ⟨c₂, h₂, hahead⟩ := (hahead _ (by decide)).fieldOr (by decide) holds_hint
  obtain ⟨c₃, h₃, hahead⟩ := (hahead _ (by decide)).fieldOr (by decide)
    (habsent (bytes "incoming") (by decide))
  obtain ⟨c₄, h₄, hahead⟩ := (hahead _ (by decide)).fieldOr (by decide)
    (holds_of_get_or hkeepAlive (fun t => (reads_consumeMillis t).map some) none)
  obtain ⟨c₅, h₅, hahead⟩ := (hahead _ (by decide)).fieldOr (by decide)
    (habsent (bytes "optional") (by decide))
  obtain ⟨c₆, h₆, hahead⟩ := (hahead _ (by decide)).fieldOr (by decide)
    (habsent (bytes "outgoing_only") (by decide))
  obtain ⟨r, h₇, -⟩ := (hahead _ (by decide)).skipUntil_of_some (by decide) hpubkey
  have h₈ := reads_stringView pubkey.2 (bytes "pubkey") r
  refine ⟨⟨r, none⟩, ?_⟩
  rw [parseConnectSn, run_bind_ok (run_lift h₁), run_bind_ok (run_lift h₂),
    run_bind_ok (run_lift h₃), run_bind_ok (run_lift h₄), run_bind_ok (run_lift h₅),
    run_bind_ok (run_lift h₆), run_bind_ok (run_lift h₇), run_failIf_bind (by simp),
    run_bind_ok (run_lift h₈)]
  rfl

end ServiceNode

section Disconnect

variable {conn : ConnectionID} {linger : Int64}

theorem valid_disconnectData (hconn : conn.Fits) :
    (BtVariant.dict (disconnectData conn linger)).Valid := by
  refine valid_assignAll fun e he => ?_
  rcases List.mem_cons.mp he with rfl | he
  · exact ⟨by dsimp only; decide, by simp only [BtVariant.Valid]⟩
  rcases List.mem_pair.mp he with rfl | rfl
  · exact ⟨by dsimp only; decide, by simp only [BtVariant.Valid]⟩
  · exact ⟨by dsimp only; decide, by simpa only [BtVariant.Valid] using hconn.pk⟩

theorem run_parseDisconnect (hconn : conn.Fits) (hpk : conn.sn = true → conn.pk.length = 32)
    {c : BtDictConsumer} (h : ∀ key, Ahead (disconnectData conn linger) key c) :
    ∃ c', parseDisconnect.run c =
      .ok { connId := conn.id, pubkey := conn.pk, linger := linger.toInt } c' := by
  have hint : (Int64.ofInt conn.id).toInt = conn.id :=
    Int64.toInt_ofInt_of_le hconn.id.1 hconn.id.2
  have hget (key : Bytes) : SortedMap.get key (disconnectData conn linger) =
      last key [(bytes "conn_id", .int (Int64.ofInt conn.id)), (bytes "linger_ms", .int linger),
        (bytes "pubkey", .string conn.pk)] := by
    rw [disconnectData, get_assignAll, get_nil, Option.or_none]
  obtain ⟨c₁, h₁, hahead⟩ := (h _).fieldOr (by decide)
    (.inr ⟨_, hget (bytes "conn_id"), reads_longLong (Int64.ofInt conn.id)⟩)
  obtain ⟨c₂, h₂, hahead⟩ := (hahead _ (by decide)).fieldOr (by decide)
    (.inr ⟨_, hget (bytes "linger_ms"), reads_longLong linger⟩)
  obtain ⟨c₃, h₃, -⟩ := (hahead _ (by decide)).fieldOr (by decide)
    (.inr ⟨_, hget (bytes "pubkey"), reads_string hconn.pk⟩)
  rw [hint] at h₁
  have hvalid : ¬ (conn.id = -1 ∧ conn.pk.length ≠ 32) := by
    rintro ⟨hid, hlen⟩
    exact hlen (hpk (by simpa [ConnectionID.sn, ConnectionID.snId] using hid))
  refine ⟨c₃, ?_⟩
  rw [parseDisconnect, run_bind_ok (run_lift h₁), run_bind_ok (run_lift h₂),
    run_bind_ok (run_lift h₃), run_failIf_bind hvalid]
  rfl

end Disconnect

section Agreement

variable {conn : ConnectionID} {cmd : StdString} {opts : List SendOption}
  {request : Option Request}

theorem decode_sendData (hconn : conn.Fits) :
    ∃ m, parseSend.decode (btSerialize (.dict (sendData conn cmd opts request))) = .ok m ∧
      m.options = expectedSend conn opts request ∧
      ∀ route, buildSendParts m.send route = .ok (if route = [] then
        (messageParts cmd opts request).map Subtype.val
        else route :: (messageParts cmd opts request).map Subtype.val) :=
  ⟨_, Control.decode_eq_ok (valid_sendData conn cmd opts request hconn)
    fun _ h => run_parseSend hconn (h _), rfl, buildSendParts_eq _⟩

/-- Encoders and decoders of the control messages agree. The timeout of a request
is read only if there is a request. -/
theorem decode_controlData (ephemeralRoutingId : Bool) {conn : ConnectionID} (hconn : conn.Fits)
    (hpk : conn.sn = true → conn.pk.length = 32) {remote : Address} (hremote : remote.Fits)
    {id : Int64} (hid : id ≠ -1) :
    (∀ cmd opts request, ∃ m,
      parseSend.decode (btSerialize (.dict (sendData conn cmd opts request))) = .ok m ∧
      m.options = expectedSend conn opts request ∧
      ∀ route, buildSendParts m.send route = .ok (if route = [] then
        (messageParts cmd opts request).map Subtype.val
        else route :: (messageParts cmd opts request).map Subtype.val)) ∧
    (∀ onConnect onFailure options, (parseConnectRemote ephemeralRoutingId).decode
      (btSerialize (.dict (connectRemoteData remote onConnect onFailure id options))) =
        .ok (expectedConnectRemote ephemeralRoutingId remote onConnect onFailure id options)) ∧
    (∀ pubkey options, (parseConnectSn ephemeralRoutingId).decode
      (btSerialize (.dict (connectSnData ephemeralRoutingId pubkey options))) =
        .ok (expectedConnectSn ephemeralRoutingId pubkey options)) ∧
    ∀ linger, parseDisconnect.decode (btSerialize (.dict (disconnectData conn linger))) =
      .ok { connId := conn.id, pubkey := conn.pk, linger := linger.toInt } := by
  refine ⟨fun _ _ _ => decode_sendData hconn, fun _ _ _ => ?_, fun _ _ => ?_, fun _ => ?_⟩
  · exact Control.decode_eq_ok (valid_connectRemoteData hremote)
      fun _ => run_parseConnectRemote ephemeralRoutingId hremote hid
  · exact Control.decode_eq_ok valid_connectSnData fun _ => run_parseConnectSn
  · exact Control.decode_eq_ok (valid_disconnectData hconn) fun _ => run_parseDisconnect hconn hpk

def sampleNode : ConnectionID := { id := ConnectionID.snId, pk := List.replicate 32 7 }

def sampleRemote : Address := { host := bytes "localhost", port := 80 }

theorem decode_controlData_sample :
    (∃ m, parseSend.decode (btSerialize (.dict (sendData sampleNode ⟨bytes "a.b", by decide⟩
        [.optional true, .data ⟨bytes "x", by decide⟩, .optional false] none))) = .ok m ∧
      m.options.optional = false ∧ m.options.conn.pk = sampleNode.pk ∧
      buildSendParts m.send (bytes "r") = .ok [bytes "r", bytes "a.b", bytes "x"]) ∧
    (∃ m, (parseConnectRemote false).decode (btSerialize (.dict (connectRemoteData sampleRemote 8 16
        1 [.ephemeralRoutingId true]))) = .ok m ∧ m.ephemeralRid = true ∧ m.timeout = 10000 ∧
      m.remote = bytes "tcp://localhost:80") ∧
    (∃ m, (parseConnectSn false).decode (btSerialize (.dict (connectSnData false
        ⟨sampleNode.pk, by decide⟩ [.time ⟨5000, by decide⟩]))) = .ok m ∧ m.keepAlive = 5000) ∧
    parseDisconnect.decode (btSerialize (.dict (disconnectData sampleNode 0))) =
      .ok { connId := ConnectionID.snId, pubkey := sampleNode.pk, linger := 0 } := by
  have hnode : sampleNode.Fits := ⟨by decide, by decide, by decide⟩
  have hremote : sampleRemote.Fits := ⟨by decide, by decide +kernel⟩
  obtain ⟨hsend, hconnect, hsn, hdisconnect⟩ := decode_controlData false hnode (by decide)
    hremote (show (1 : Int64) ≠ -1 by decide)
  refine ⟨?_, ⟨_, hconnect 8 16 _, rfl, rfl, by decide +kernel⟩, ⟨_, hsn _ _, by decide⟩,
    hdisconnect 0⟩
  obtain ⟨m, hm, hoptions, hparts⟩ := hsend ⟨bytes "a.b", by decide⟩
    [.optional true, .data ⟨bytes "x", by decide⟩, .optional false] none
  exact ⟨m, hm, by rw [hoptions]; rfl, by rw [hoptions]; rfl, hparts (bytes "r")⟩

/-- A timeout that is given without a request is not recovered. -/
theorem requestTimeout_not_recovered :
    lastOf SendOption.requestTimeout? [.requestTimeout ⟨5000, by decide⟩] =
        some ⟨5000, by decide⟩ ∧
      ∃ m, parseSend.decode (btSerialize (.dict (sendData { id := 1 } ⟨bytes "a.b", by decide⟩
          [.requestTimeout ⟨5000, by decide⟩] none))) = .ok m ∧
        m.options.requestTimeout = 15000 := by
  have hconn : ({ id := 1 } : ConnectionID).Fits := ⟨by decide, by decide, by decide⟩
  refine ⟨rfl, ?_⟩
  obtain ⟨m, hm, hoptions, -⟩ := decode_sendData hconn
  exact ⟨m, hm, by rw [hoptions]; rfl⟩

end Agreement

end ArqmaMQ
