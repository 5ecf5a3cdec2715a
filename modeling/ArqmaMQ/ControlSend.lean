import ArqmaMQ.ControlEntries

/-! SEND: the proxy recovers what `send` and `request` were given. -/

namespace ArqmaMQ

open SortedMap BtDictConsumer
open scoped ByteOrder

section Values

variable {α β : Type} {d : List (Bytes × BtVariant)} {key : Bytes} {c c' : BtDictConsumer}

theorem BtDictConsumer.Reads.map {x : Method α} {v : BtVariant} {a : α} (h : Reads x v a)
    (f : α → β) : Reads (f <$> x) v (f a) := by
  intro k r
  rw [map_eq_pure_bind, run_bind_ok (h k r)]
  rfl

theorem reads_consumeBool (b : Bool) : Reads consumeBool (.ofBool b) b := by
  have hb : Reads (consumeInteger .bool) (.ofBool b) (if b then 1 else 0) := by
    refine reads_consumeInteger .bool ?_ ?_ ?_
    · cases b <;> decide
    · cases b <;> decide
    · rw [BtVariant.ofBool, btSerialize]
      cases b <;> rfl
  intro k r
  rw [consumeBool, run_bind_ok (hb k r)]
  cases b <;> rfl

theorem reads_consumeMillis (t : Millis) : Reads consumeMillis (.int t.1) t.1.toInt := by
  have hmin : 0 ≤ t.1.toInt := by simpa [Int64.le_iff_toInt_le] using t.2
  have hmax := t.1.toInt_lt
  have ht : Reads (consumeInteger .uint64) (.int t.1) t.1.toInt :=
    reads_consumeInteger .uint64 hmin (by simp only [IntType.max]; omega) (by rw [btSerialize])
  intro k r
  have hwrap : int64 t.1.toInt = t.1.toInt := by
    rw [int64]
    exact Int.bmod_eq_of_le (by omega) (by omega)
  rw [consumeMillis, run_bind_ok (ht k r), hwrap]
  rfl

theorem reads_consumeObject (p : UInt64) : Reads consumeObject (.uint p) p.toNat := by
  have hmax := p.toNat_lt
  have hp : Reads (consumeInteger .uint64) (.uint p) p.toNat :=
    reads_consumeInteger .uint64 (Int.natCast_nonneg _) (by simp only [IntType.max]; omega)
      (by rw [btSerialize])
  intro k r
  rw [consumeObject, run_bind_ok (hp k r)]
  rfl

theorem reads_longLong (i : Int64) : Reads (consumeInteger .longLong) (.int i) i.toInt := by
  have hmin := i.le_toInt
  have hmax := i.toInt_lt
  exact reads_consumeInteger .longLong hmin (by simp only [IntType.max]; omega)
    (by rw [btSerialize])

theorem reads_string {s : Bytes} (hs : s.length < 2 ^ 64) : Reads consumeString (.string s) s :=
  reads_consumeString hs (by rw [btSerialize])

theorem reads_stringView {s : Bytes} (hs : s.length < 2 ^ 64) :
    Reads consumeString (.stringView s) s :=
  reads_consumeString hs (by rw [btSerialize])

theorem holds_of_some {x : Method α} {v : BtVariant} {a : α} (hget : SortedMap.get key d = some v)
    (hreads : Reads x v a) (default : α) : Holds d key x default a :=
  .inr ⟨v, hget, hreads⟩

theorem holds_of_get {x : Method α} {enc : β → BtVariant} {dec : β → α} {o : Option β}
    (hget : SortedMap.get key d = o.map enc) (hreads : ∀ b, Reads x (enc b) (dec b)) (default : α) :
    Holds d key x default ((o.map dec).getD default) := by
  cases o with
  | none => exact .inl ⟨hget, rfl⟩
  | some b => exact .inr ⟨enc b, hget, hreads b⟩

theorem run_failIf_bind {p : Prop} [Decidable p] (h : ¬ p) (what : String)
    (f : Unit → Control β) : (failIf p what >>= f).run c = (f ()).run c := by
  rw [failIf, if_neg h]
  rfl

end Values

/-- What the proxy should find in the data of a SEND. -/
def expectedSend (conn : ConnectionID) (opts : List SendOption) (request : Option Request) :
    SendOptions where
  conn :=
    if conn.sn then { id := ConnectionID.snId, pk := conn.pk }
    else { id := conn.id, route := conn.route }
  hint := ((lastOf SendOption.hint? opts).map Subtype.val).getD []
  keepAlive := ((lastOf SendOption.keepAlive? opts).map (·.1.toInt)).getD 30000
  optional := (lastOf SendOption.optional? opts).getD false
  outgoing := (lastOf SendOption.outgoing? opts).getD false
  incoming := (lastOf SendOption.incoming? opts).getD false
  request := request.map fun req => (req.replyTag.1, req.callback.toNat)
  requestTimeout :=
    if request.isSome then
      ((lastOf SendOption.requestTimeout? opts).map (·.1.toInt)).getD 15000
    else 15000
  callbackNosend := (lastOf SendOption.queueFailure? opts).map UInt64.toNat
  callbackNoqueue := (lastOf SendOption.queueFull? opts).map UInt64.toNat

section Parse

variable {conn : ConnectionID} {cmd : StdString} {opts : List SendOption}
  {request : Option Request} {c : BtDictConsumer}

variable (cmd opts request) in
theorem get_conn_of_sn (hsn : conn.sn = true) :
    SortedMap.get (bytes "conn_id") (sendData conn cmd opts request) = none ∧
      SortedMap.get (bytes "conn_pubkey") (sendData conn cmd opts request) =
        some (.string conn.pk) ∧
      SortedMap.get (bytes "conn_route") (sendData conn cmd opts request) = none := by
  rw [get_sendData_of_call _ _ _ _ (by decide), get_sendData_of_call _ _ _ _ (by decide),
    get_sendData_of_call _ _ _ _ (by decide), callEntries, connEntries, if_pos hsn]
  cases request <;> exact ⟨rfl, rfl, rfl⟩

variable (cmd opts request) in
theorem get_conn_of_not_sn (hsn : ¬ conn.sn = true) :
    SortedMap.get (bytes "conn_id") (sendData conn cmd opts request) =
        some (.int (Int64.ofInt conn.id)) ∧
      SortedMap.get (bytes "conn_pubkey") (sendData conn cmd opts request) = none ∧
      SortedMap.get (bytes "conn_route") (sendData conn cmd opts request) =
        some (.string conn.route) := by
  rw [get_sendData_of_call _ _ _ _ (by decide), get_sendData_of_call _ _ _ _ (by decide),
    get_sendData_of_call _ _ _ _ (by decide), callEntries, connEntries, if_neg hsn]
  cases request <;> exact ⟨rfl, rfl, rfl⟩

theorem run_parseConn (hconn : conn.Fits)
    (h : Ahead (sendData conn cmd opts request) (bytes "conn_id") c) :
    ∃ c', parseConn.run c =
        .ok (if conn.sn then { id := ConnectionID.snId, pk := conn.pk } else { id := conn.id }) c' ∧
      ∀ key, bytes "conn_pubkey" < key → Ahead (sendData conn cmd opts request) key c' := by
  by_cases hsn : conn.sn = true
  · obtain ⟨hid, hpk, -⟩ := get_conn_of_sn cmd opts request hsn
    obtain ⟨c₁, h₁, hahead⟩ := h.fieldOr (x := some <$> consumeInteger .longLong) (by decide)
      (.inl ⟨hid, rfl⟩)
    obtain ⟨r, h₂, hahead⟩ := (hahead _ (by decide)).skipUntil_of_some (by decide) hpk
    have h₃ := reads_string hconn.pk (bytes "conn_pubkey") r
    refine ⟨_, ?_, hahead⟩
    rw [parseConn, run_bind_ok (run_lift h₁), run_failIf_bind (by simp), run_bind_ok (run_lift h₂),
      if_pos rfl, run_failIf_bind (by simp), run_bind_ok (run_lift h₃), if_pos hsn]
    rfl
  · obtain ⟨hid, hpk, -⟩ := get_conn_of_not_sn cmd opts request hsn
    have hint : (Int64.ofInt conn.id).toInt = conn.id :=
      Int64.toInt_ofInt_of_le hconn.id.1 hconn.id.2
    obtain ⟨c₁, h₁, hahead⟩ := h.fieldOr (by decide)
      (holds_of_some hid ((reads_longLong _).map some) none)
    obtain ⟨c₂, h₂, hahead⟩ := (hahead _ (by decide)).skipUntil_of_none (by decide) hpk
    refine ⟨c₂, ?_, hahead⟩
    rw [hint] at h₁
    have hne : conn.id ≠ -1 := by
      simpa [ConnectionID.sn, ConnectionID.snId] using hsn
    rw [parseConn, run_bind_ok (run_lift h₁), run_failIf_bind (by simpa using hne),
      run_bind_ok (run_lift h₂), if_neg (by simp), run_failIf_bind (by simp), if_neg hsn]
    rfl

theorem run_parseRequest
    (h : Ahead (sendData conn cmd opts request) (bytes "request") c) :
    ∃ c', parseRequest.run c =
        .ok ((expectedSend conn opts request).request,
          (expectedSend conn opts request).requestTimeout) c' ∧
      ∀ key, bytes "request_timeout" < key → Ahead (sendData conn cmd opts request) key c' := by
  cases request with
  | none =>
    have hget : SortedMap.get (bytes "request") (sendData conn cmd opts none) = none := by
      rw [get_sendData_of_call _ _ _ _ (by decide), callEntries, connEntries]
      split <;> rfl
    obtain ⟨c', h₁, hahead⟩ := h.fieldOr (x := consumeBool) (by decide) (.inl ⟨hget, rfl⟩)
    refine ⟨c', ?_, fun key hkey => hahead key (lt_trans (by decide) hkey)⟩
    rw [parseRequest, run_bind_ok (run_lift h₁)]
    rfl
  | some req =>
    have hget : SortedMap.get (bytes "request") (sendData conn cmd opts (some req)) =
          some (.ofBool true) ∧
        SortedMap.get (bytes "request_callback") (sendData conn cmd opts (some req)) =
          some (.uint req.callback) ∧
        SortedMap.get (bytes "request_tag") (sendData conn cmd opts (some req)) =
          some (.stringView req.replyTag.1) := by
      rw [get_sendData_of_call _ _ _ _ (by decide), get_sendData_of_call _ _ _ _ (by decide),
        get_sendData_of_call _ _ _ _ (by decide), callEntries, connEntries]
      split <;> exact ⟨rfl, rfl, rfl⟩
    obtain ⟨hflag, hcallback, htag⟩ := hget
    have htimeout : SortedMap.get (bytes "request_timeout") (sendData conn cmd opts (some req)) =
        (lastOf SendOption.requestTimeout? opts).map fun t => .int t.1 :=
      get_sendData_of_option conn cmd opts (some req) _ _ (by decide) fun o => by cases o <;> rfl
    obtain ⟨c₁, h₁, hahead⟩ := h.fieldOr (by decide)
      (holds_of_some hflag (reads_consumeBool true) false)
    obtain ⟨r₂, h₂, hahead⟩ := (hahead _ (by decide)).skipUntil_of_some (by decide) hcallback
    obtain ⟨r₃, h₃, hahead⟩ := (hahead _ (by decide)).skipUntil_of_some (by decide) htag
    obtain ⟨c₄, h₄, hahead⟩ := (hahead _ (by decide)).fieldOr (by decide)
      (holds_of_get htimeout reads_consumeMillis 15000)
    refine ⟨c₄, ?_, hahead⟩
    rw [parseRequest, run_bind_ok (run_lift h₁), if_pos rfl, run_bind_ok (run_lift h₂),
      run_failIf_bind (by simp), run_bind_ok (run_lift (reads_consumeObject _ _ r₂)),
      run_bind_ok (run_lift h₃), run_failIf_bind (by simp),
      run_bind_ok (run_lift (reads_stringView req.replyTag.2 _ r₃)), run_bind_ok (run_lift h₄)]
    rfl

section Options

theorem get_hint : SortedMap.get (bytes "hint") (sendData conn cmd opts request) =
    (lastOf SendOption.hint? opts).map fun s => .string s.1 :=
  get_sendData_of_option conn cmd opts request _ _ (by decide) fun o => by cases o <;> rfl

theorem get_incoming : SortedMap.get (bytes "incoming") (sendData conn cmd opts request) =
    (lastOf SendOption.incoming? opts).map .ofBool :=
  get_sendData_of_option conn cmd opts request _ _ (by decide) fun o => by cases o <;> rfl

theorem get_keepAlive : SortedMap.get (bytes "keep_alive") (sendData conn cmd opts request) =
    (lastOf SendOption.keepAlive? opts).map fun t => .int t.1 :=
  get_sendData_of_option conn cmd opts request _ _ (by decide) fun o => by cases o <;> rfl

theorem get_optional : SortedMap.get (bytes "optional") (sendData conn cmd opts request) =
    (lastOf SendOption.optional? opts).map .ofBool :=
  get_sendData_of_option conn cmd opts request _ _ (by decide) fun o => by cases o <;> rfl

theorem get_outgoing : SortedMap.get (bytes "outgoing") (sendData conn cmd opts request) =
    (lastOf SendOption.outgoing? opts).map .ofBool :=
  get_sendData_of_option conn cmd opts request _ _ (by decide) fun o => by cases o <;> rfl

theorem get_queueFailure : SortedMap.get (bytes "send_fail") (sendData conn cmd opts request) =
    (lastOf SendOption.queueFailure? opts).map .uint :=
  get_sendData_of_option conn cmd opts request _ _ (by decide) fun o => by cases o <;> rfl

theorem get_queueFull : SortedMap.get (bytes "send_full_q") (sendData conn cmd opts request) =
    (lastOf SendOption.queueFull? opts).map .uint :=
  get_sendData_of_option conn cmd opts request _ _ (by decide) fun o => by cases o <;> rfl

theorem get_send : SortedMap.get (bytes "send") (sendData conn cmd opts request) =
    some (.list ((messageParts cmd opts request).map fun s => .stringView s.1)) := by
  rw [get_sendData_of_call _ _ _ _ (by decide), callEntries, connEntries]
  split <;> cases request <;> rfl

end Options

theorem run_consumeListConsumer {l : List BtVariant} (hl : (BtVariant.list l).Valid) (k r : Bytes) :
    consumeListConsumer.run ⟨btSerialize (.list l) ++ r, some k⟩ =
      .ok ((l.map btSerialize).flatten ++ ['e'.toUInt8]) ⟨r, none⟩ := by
  rw [consumeListConsumer, run_bind_ok (run_lift (reads_consumeListData hl k r)), btSerialize,
    btSerializeItems_eq_map]
  rfl

/-- The proxy finds in the data what was put there. -/
theorem run_parseSend (hconn : conn.Fits)
    (h : Ahead (sendData conn cmd opts request) (bytes "conn_id") c) :
    ∃ c', parseSend.run c = .ok ⟨expectedSend conn opts request,
      ((messageParts cmd opts request).flatMap fun s => btSerializeString s.1) ++
        ['e'.toUInt8]⟩ c' := by
  have hroute : Holds (sendData conn cmd opts request) (bytes "conn_route") consumeString []
      (if conn.sn then [] else conn.route) := by
    by_cases hsn : conn.sn = true
    · rw [if_pos hsn]
      exact .inl ⟨(get_conn_of_sn cmd opts request hsn).2.2, rfl⟩
    · rw [if_neg hsn]
      exact holds_of_some (get_conn_of_not_sn cmd opts request hsn).2.2
        (reads_string hconn.route) []
  obtain ⟨c₁, h₁, hahead⟩ := run_parseConn hconn h
  obtain ⟨c₂, h₂, hahead⟩ := (hahead _ (by decide)).fieldOr (by decide) hroute
  obtain ⟨c₃, h₃, hahead⟩ := (hahead _ (by decide)).fieldOr (by decide)
    (holds_of_get get_hint (fun s => reads_string s.2) [])
  obtain ⟨c₄, h₄, hahead⟩ := (hahead _ (by decide)).fieldOr (by decide)
    (holds_of_get get_incoming reads_consumeBool false)
  obtain ⟨c₅, h₅, hahead⟩ := (hahead _ (by decide)).fieldOr (by decide)
    (holds_of_get get_keepAlive reads_consumeMillis 30000)
  obtain ⟨c₆, h₆, hahead⟩ := (hahead _ (by decide)).fieldOr (by decide)
    (holds_of_get get_optional reads_consumeBool false)
  obtain ⟨c₇, h₇, hahead⟩ := (hahead _ (by decide)).fieldOr (by decide)
    (holds_of_get get_outgoing reads_consumeBool false)
  obtain ⟨c₈, h₈, hahead⟩ := run_parseRequest (hahead _ (by decide))
  obtain ⟨r, h₉, hahead⟩ := (hahead _ (by decide)).skipUntil_of_some (by decide) get_send
  have hsend := run_consumeListConsumer (validList_strings (messageParts cmd opts request))
    (bytes "send") r
  obtain ⟨c₁₀, h₁₀, hahead⟩ := (hahead _ (by decide)).fieldOr (by decide)
    (holds_of_get get_queueFailure (fun p => (reads_consumeObject p).map some) none)
  obtain ⟨c₁₁, h₁₁, -⟩ := (hahead _ (by decide)).fieldOr (by decide)
    (holds_of_get get_queueFull (fun p => (reads_consumeObject p).map some) none)
  refine ⟨c₁₁, ?_⟩
  rw [parseSend, run_bind_ok h₁, run_bind_ok (run_lift h₂), run_bind_ok (run_lift h₃),
    run_bind_ok (run_lift h₄), run_bind_ok (run_lift h₅), run_bind_ok (run_lift h₆),
    run_bind_ok (run_lift h₇), run_bind_ok h₈, run_bind_ok (run_lift h₉),
    run_failIf_bind (by simp), run_bind_ok hsend, run_bind_ok (run_lift h₁₀),
    run_bind_ok (run_lift h₁₁)]
  refine congrArg (EStateM.Result.ok · c₁₁) ?_
  have hlast {o : Option UInt64} :
      (o.map fun p => some p.toNat).getD none = o.map UInt64.toNat := by
    cases o <;> rfl
  rw [SendMessage.mk.injEq, expectedSend, SendOptions.mk.injEq]
  refine ⟨⟨?_, rfl, rfl, ?_, ?_, ?_, rfl, rfl, hlast, hlast⟩, ?_⟩
  · split <;> rfl
  · rw [Option.map_id']
  · rw [Option.map_id']
  · rw [Option.map_id']
  · rw [List.map_map, ← List.flatMap_def]
    refine congrArg (· ++ _) (List.flatMap_congr fun s _ => ?_)
    simp only [Function.comp, btSerialize]

/-- Reading the parts of a message. -/
theorem run_sendPartsLoop (l : List StdString) {n : Nat} (hn : l.length < n) :
    (sendPartsLoop n).run ((l.flatMap fun s => btSerializeString s.1) ++ ['e'.toUInt8]) =
      .ok (l.map Subtype.val) ['e'.toUInt8] := by
  induction l generalizing n with
  | nil =>
    obtain ⟨n, rfl⟩ : ∃ m, n = m + 1 := ⟨n - 1, by omega⟩
    rfl
  | cons s l ih =>
    obtain ⟨n, rfl⟩ : ∃ m, n = m + 1 := ⟨n - 1, by omega⟩
    rw [List.flatMap_cons, List.append_assoc]
    have hread := btDeserializeStringView_btSerializeString s.2
      ((l.flatMap fun s => btSerializeString s.1) ++ ['e'.toUInt8])
    obtain ⟨b, t, ht, hb⟩ := isDigit_of_run_btDeserializeStringView hread
    obtain ⟨_, hrun, rfl, -⟩ := (BtListConsumer.alike_consumeStringView _).of_ok hread
    have hend : (b == 'e'.toUInt8) = false := by
      refine beq_eq_false_iff_ne.mpr ?_
      rintro rfl
      exact absurd hb (by decide)
    rw [ht] at hrun ⊢
    rw [sendPartsLoop, run_bind_ok (BtListConsumer.run_isFinished_cons b t), hend,
      if_neg (by decide), run_bind_ok hrun, run_bind_ok (ih (by simpa using hn))]
    rfl

theorem buildSendParts_eq (l : List StdString) (route : Bytes) :
    buildSendParts ((l.flatMap fun s => btSerializeString s.1) ++ ['e'.toUInt8]) route =
      .ok (if route = [] then l.map Subtype.val else route :: l.map Subtype.val) := by
  have hlen : l.length ≤ (l.flatMap fun s : StdString => btSerializeString s.1).length :=
    length_le_flatMap fun s _ => by simp [btSerializeString]
  rw [buildSendParts, run_sendPartsLoop l (by rw [List.length_append]; omega)]
  cases route <;> rfl

end Parse

end ArqmaMQ
