import ArqmaMQ.ControlMessages

/-! What the data of a control message is as a map: the last option of a kind is
the one that counts. -/

namespace ArqmaMQ

open SortedMap BtDictConsumer
open scoped ByteOrder

theorem valid_assignAll {es : List (Bytes × BtVariant)}
    (h : ∀ e ∈ es, e.1.length < 2 ^ 64 ∧ e.2.Valid) : (BtVariant.dict (assignAll es [])).Valid := by
  rw [BtVariant.Valid, BtVariant.validDict_iff]
  refine ⟨ascending_nil.assignAll es, fun p hp => ?_⟩
  rcases mem_assignAll hp with hp | hp
  · exact h p hp
  · cases hp

section Send

namespace SendOption

/-- What an option appends to the message. -/
def parts : SendOption → List StdString
  | .data s => [s]
  | .maybe s => s.toList
  | .dataParts parts => parts
  | _ => []

def hint? : SendOption → Option StdString
  | .hint connectHint => some connectHint
  | _ => none

def optional? : SendOption → Option Bool
  | .optional isOptional => some isOptional
  | _ => none

def incoming? : SendOption → Option Bool
  | .incoming isIncoming => some isIncoming
  | _ => none

def outgoing? : SendOption → Option Bool
  | .outgoing isOutgoing => some isOutgoing
  | _ => none

def keepAlive? : SendOption → Option Millis
  | .keepAlive time => some time
  | _ => none

def requestTimeout? : SendOption → Option Millis
  | .requestTimeout time => some time
  | _ => none

def queueFailure? : SendOption → Option UInt64
  | .queueFailure callback => some callback
  | _ => none

def queueFull? : SendOption → Option UInt64
  | .queueFull callback => some callback
  | _ => none

/-- What an option assigns. -/
def assignment? : SendOption → Option (Bytes × BtVariant)
  | .hint connectHint => some (bytes "hint", .string connectHint.1)
  | .optional isOptional => some (bytes "optional", .ofBool isOptional)
  | .incoming isIncoming => some (bytes "incoming", .ofBool isIncoming)
  | .outgoing isOutgoing => some (bytes "outgoing", .ofBool isOutgoing)
  | .keepAlive time => some (bytes "keep_alive", .int time.1)
  | .requestTimeout time => some (bytes "request_timeout", .int time.1)
  | .queueFailure callback => some (bytes "send_fail", .uint callback)
  | .queueFull callback => some (bytes "send_full_q", .uint callback)
  | _ => none

end SendOption

theorem applySendOption_eq (b : SendBuilder) (o : SendOption) : applySendOption b o =
    ⟨b.parts ++ o.parts.map (fun s => .stringView s.1),
      assignAll o.assignment?.toList b.controlData⟩ := by
  cases o <;> simp [applySendOption, SendBuilder.append, SendBuilder.set, SendOption.parts,
    SendOption.assignment?, assignAll]

theorem foldl_applySendOption (opts : List SendOption) (b : SendBuilder) :
    opts.foldl applySendOption b =
      ⟨b.parts ++ (opts.flatMap SendOption.parts).map (fun s => .stringView s.1),
        assignAll (opts.filterMap SendOption.assignment?) b.controlData⟩ := by
  induction opts generalizing b with
  | nil => simp [assignAll]
  | cons o opts ih =>
    rw [List.foldl_cons, ih, applySendOption_eq, List.flatMap_cons, List.map_append,
      List.append_assoc, ← assignAll_append]
    cases ho : o.assignment? with
    | none => rw [List.filterMap_cons_none ho]; rfl
    | some e => rw [List.filterMap_cons_some ho]; rfl

/-- The assignments that name the connection. -/
def connEntries (conn : ConnectionID) : List (Bytes × BtVariant) :=
  if conn.sn then [(bytes "conn_pubkey", .string conn.pk)]
  else [(bytes "conn_id", .int (Int64.ofInt conn.id)), (bytes "conn_route", .string conn.route)]

def requestEntries : Option Request → List (Bytes × BtVariant)
  | none => []
  | some req => [(bytes "request", .ofBool true), (bytes "request_callback", .uint req.callback),
      (bytes "request_tag", .stringView req.replyTag.1)]

/-- The parts of the message: the command, the tag of a request, and the data. -/
def messageParts (cmd : StdString) (opts : List SendOption) (request : Option Request) :
    List StdString :=
  cmd :: ((request.map Request.replyTag).toList ++ opts.flatMap SendOption.parts)

def sendEntries (conn : ConnectionID) (cmd : StdString) (opts : List SendOption)
    (request : Option Request) : List (Bytes × BtVariant) :=
  opts.filterMap SendOption.assignment? ++ (connEntries conn ++ ((bytes "send",
    .list ((messageParts cmd opts request).map fun s => .stringView s.1)) ::
      requestEntries request))

theorem buildSend_eq (conn : ConnectionID) (cmd : StdString) (opts : List SendOption) :
    buildSend conn cmd opts = assignAll (sendEntries conn cmd opts none) [] := by
  rw [buildSend, foldl_applySendOption, sendEntries, assignAll_append, assignAll_append,
    connEntries]
  split <;> rfl

theorem sendData_eq (conn : ConnectionID) (cmd : StdString) (opts : List SendOption)
    (request : Option Request) :
    sendData conn cmd opts request = assignAll (sendEntries conn cmd opts request) [] := by
  cases request with
  | none => exact buildSend_eq conn cmd opts
  | some req =>
    rw [sendData, buildSend_eq]
    simp only [sendEntries, assignAll_append]
    rfl

section Lookup

variable (conn : ConnectionID) (cmd : StdString) (opts : List SendOption)
  (request : Option Request) {key : Bytes}

/-- The keys that options are stored under. -/
def optionKeys : List Bytes :=
  ["hint", "optional", "incoming", "outgoing", "keep_alive", "request_timeout", "send_fail",
    "send_full_q"].map bytes

/-- The keys that are always assigned by the call itself. -/
def callKeys : List Bytes :=
  ["conn_id", "conn_pubkey", "conn_route", "send", "request", "request_callback",
    "request_tag"].map bytes

def callEntries : List (Bytes × BtVariant) :=
  connEntries conn ++ ((bytes "send",
    .list ((messageParts cmd opts request).map fun s => .stringView s.1)) :: requestEntries request)

theorem mem_optionKeys (o : SendOption) (e : Bytes × BtVariant) (h : o.assignment? = some e) :
    e.1 ∈ optionKeys := by
  cases o <;> cases h <;> simp [optionKeys]

theorem mem_callKeys {e : Bytes × BtVariant} (h : e ∈ callEntries conn cmd opts request) :
    e.1 ∈ callKeys := by
  have hconn : ∀ e ∈ connEntries conn, e.1 ∈ callKeys := by
    intro e he
    rw [connEntries] at he
    split at he
    · obtain rfl := List.mem_singleton.mp he
      simp [callKeys]
    · rcases List.mem_pair.mp he with rfl | rfl <;> simp [callKeys]
  have hrequest : ∀ e ∈ requestEntries request, e.1 ∈ callKeys := by
    cases request with
    | none => nofun
    | some req => simp [requestEntries, callKeys]
  rcases List.mem_append.mp h with h | h
  · exact hconn e h
  · rcases List.mem_cons.mp h with rfl | h
    · simp [callKeys]
    · exact hrequest e h

theorem get_sendData_of_option {β : Type} (g : SendOption → Option β) (enc : β → BtVariant)
    (hkey : key ∉ callKeys) (h : ∀ o, valueOf SendOption.assignment? key o = (g o).map enc) :
    SortedMap.get key (sendData conn cmd opts request) = (lastOf g opts).map enc := by
  rw [sendData_eq, sendEntries, ← callEntries, ← List.nil_append (List.filterMap _ _ ++ _),
    get_items h (fun _ => mem_callKeys conn cmd opts request) hkey, last_nil, Option.or_none]

theorem get_sendData_of_call (hkey : key ∉ optionKeys) :
    SortedMap.get key (sendData conn cmd opts request) =
      last key (callEntries conn cmd opts request) := by
  rw [sendData_eq, sendEntries, ← callEntries, ← List.nil_append (List.filterMap _ _ ++ _),
    get_of_not_item mem_optionKeys hkey, last_nil, Option.or_none]

/-- A value of the C++ struct. -/
structure ConnectionID.Fits (conn : ConnectionID) : Prop where
  id : -2 ^ 63 ≤ conn.id ∧ conn.id < 2 ^ 63
  pk : conn.pk.length < 2 ^ 64
  route : conn.route.length < 2 ^ 64

theorem validList_strings (l : List StdString) :
    (BtVariant.list (l.map fun s => .stringView s.1)).Valid := by
  rw [BtVariant.Valid, BtVariant.validList_iff]
  intro v hv
  obtain ⟨s, -, rfl⟩ := List.mem_map.mp hv
  rw [BtVariant.Valid]
  exact s.2

theorem valid_sendData (hconn : conn.Fits) :
    (BtVariant.dict (sendData conn cmd opts request)).Valid := by
  have hkeys : (∀ k ∈ optionKeys, k.length < 2 ^ 64) ∧ ∀ k ∈ callKeys, k.length < 2 ^ 64 := by
    decide
  rw [sendData_eq, sendEntries, ← callEntries]
  refine valid_assignAll fun e he => ?_
  rcases List.mem_append.mp he with he | he
  · obtain ⟨o, -, ho⟩ := List.mem_filterMap.mp he
    refine ⟨hkeys.1 _ (mem_optionKeys o e ho), ?_⟩
    cases o with
    | hint s =>
      cases ho
      simpa only [BtVariant.Valid] using s.2
    | _ => cases ho <;> simp only [BtVariant.Valid, BtVariant.ofBool]
  · refine ⟨hkeys.2 _ (mem_callKeys conn cmd opts request he), ?_⟩
    rcases List.mem_append.mp he with he | he
    · rw [connEntries] at he
      split at he
      · obtain rfl := List.mem_singleton.mp he
        simpa only [BtVariant.Valid] using hconn.pk
      · rcases List.mem_pair.mp he with rfl | rfl
        · simp only [BtVariant.Valid]
        · simpa only [BtVariant.Valid] using hconn.route
    · rcases List.mem_cons.mp he with rfl | he
      · exact validList_strings _
      · cases request with
        | none => cases he
        | some req =>
          rcases List.mem_cons.mp he with rfl | he
          · simp only [BtVariant.Valid, BtVariant.ofBool]
          · rcases List.mem_pair.mp he with rfl | rfl
            · simp only [BtVariant.Valid]
            · simpa only [BtVariant.Valid] using req.replyTag.2

end Lookup

end Send

end ArqmaMQ
