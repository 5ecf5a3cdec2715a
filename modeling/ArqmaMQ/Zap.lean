import ArqmaMQ.BtDeserialize
import ArqmaMQ.Connections
import ArqmaMQ.Hex

/-! Authentication of incoming connections: the answer to a ZAP request, the
level it hands to libzmq, and what the proxy reads back on every message. -/

namespace ArqmaMQ

namespace AuthLevel

/-- `to_string` -/
def toText (a : AuthLevel) : Bytes :=
  if a = denied then bytes "denied"
  else if a = none then bytes "none"
  else if a = basic then bytes "basic"
  else if a = admin then bytes "admin"
  else bytes "(unknown)"

/-- `auth_from_string` -/
def ofText (s : Bytes) : AuthLevel :=
  if s = bytes "none" then none
  else if s = bytes "basic" then basic
  else if s = bytes "admin" then admin
  else denied

/-- The levels a connection can be accepted with. -/
def Accepted (a : AuthLevel) : Prop := none ≤ a ∧ a ≤ admin

instance (a : AuthLevel) : Decidable a.Accepted := inferInstanceAs (Decidable (_ ∧ _))

end AuthLevel

/-- The value sizes of ZMTP, most significant byte first. -/
def sizeOctets (n : Nat) : Bytes := [24, 16, 8, 0].map fun i => UInt8.ofNat (n >>> i % 256)

/-- `zmtp_metadata` -/
def zmtpMetadata (key value : Bytes) : Bytes :=
  UInt8.ofNat key.length :: key ++ sizeOctets value.length ++ value

/-- The first property of a block of metadata, as the format has it: the name behind the
octet with its size, and the value behind the four with its own. It gives "the `X-AuthLevel`
of the ZAP reply" its meaning; the code that reads the block is not part of the source. -/
def readProperty : Bytes → Option ((Bytes × Bytes) × Bytes)
  | [] => none
  | n :: s =>
    match s.drop n.toNat with
    | a :: b :: c :: d :: rest =>
      let size := ((a.toNat * 256 + b.toNat) * 256 + c.toNat) * 256 + d.toNat
      some ((s.take n.toNat, rest.take size), rest.drop size)
    | _ => none

/-- The first `n` properties. -/
def readMetadata : Nat → Bytes → List (Bytes × Bytes)
  | 0, _ => []
  | n + 1, s =>
    match readProperty s with
    | some (property, rest) => property :: readMetadata n rest
    | none => []

/-- What the AllowFunc of a listening address was asked, and its answer. -/
structure Verdict where
  bind : BindData
  ip : Bytes
  pubkey : Bytes
  sn : Bool
  level : AuthLevel

/-- `response_vals`, the version apart. -/
structure ZapAnswer where
  requestId : Bytes := []
  statusCode : Bytes
  statusText : Bytes
  userId : Bytes := []
  metadata : Bytes := []
  /-- Auxiliary: the decision behind the answer, if it came to one. -/
  verdict : Option Verdict := none

/-- `bt_deserialize<size_t>` of the domain, -1 if that throws. -/
def bindId (domain : Bytes) : Nat :=
  match btDeserializeInteger.run domain with
  | .ok (magnitude, false) _ => magnitude.toNat
  | _ => 2 ^ 64 - 1

/-- The answer that follows from a verdict. -/
def Verdict.answer (v : Verdict) (requestId : Bytes) : ZapAnswer :=
  if v.level ≤ .denied ∨ .admin < v.level then
    { requestId, statusCode := bytes "400", statusText := bytes "Access denied", verdict := some v }
  else
    { requestId, statusCode := bytes "200", statusText := [],
      userId := if v.bind.curve then toHex v.pubkey else [],
      metadata := zmtpMetadata (bytes "X-AuthLevel") v.level.toText, verdict := some v }

/-- Whether the number of frames and the mechanism fit the address. -/
def BindData.usesMechanism (b : BindData) (size : Nat) (mechanism : Bytes) : Bool :=
  if b.curve then size == 7 && mechanism == bytes "CURVE"
  else size == 6 && mechanism == bytes "NULL"

namespace Connections

/-- A request that is well formed for its address goes to the AllowFunc. -/
def zapVerdict (c : Connections) (b : BindData) (ip pubkey : Bytes) : Verdict :=
  let pubkey := if b.curve then pubkey else []
  let sn := b.curve && pubkey ∈ c.activeServiceNodes
  { bind := b, ip, pubkey, sn, level := b.allow ip pubkey sn }

/-- `process_zap_requests`, for one request. -/
def processZapRequest (c : Connections) (frames : List Bytes) : ZapAnswer :=
  let requestId := frames.getD 1 []
  if frames.length < 6 ∨ frames.getD 0 [] ≠ bytes "1.0" then
    { requestId, statusCode := bytes "500",
      statusText := bytes "Internal error: invalid auth request" }
  else
    let domain := frames.getD 2 []
    let mechanism := frames.getD 5 []
    match c.bind[bindId domain]? with
    | none =>
      { requestId, statusCode := bytes "400",
        statusText := bytes "Unknown authentication domain: " ++ domain }
    | some b =>
      if !b.usesMechanism frames.length mechanism then
        { requestId, statusCode := bytes "500",
          statusText := bytes "Invalid authentication request mechanism" }
      else if b.curve ∧ (frames.getD 6 []).length ≠ 32 then
        { requestId, statusCode := bytes "500",
          statusText := bytes "Invalid public key size for CURVE authentication" }
      else (c.zapVerdict b (frames.getD 3 []) (frames.getD 6 [])).answer requestId

end Connections

/-- The properties libzmq attaches to a message. -/
structure Properties where
  userId : Option Bytes := none
  authLevel : Option Bytes := none
  peerAddress : Option Bytes := none
  deriving DecidableEq, Repr

/-- The properties of every message on a connection that was answered so. -/
def ZapAnswer.properties (a : ZapAnswer) (peerAddress : Option Bytes) : Properties where
  userId := some a.userId
  authLevel := (readMetadata a.metadata.length a.metadata).lookup (bytes "X-AuthLevel")
  peerAddress

/-- `extract_metadata` -/
def extractMetadata (m : Properties) : Bytes × AuthLevel :=
  (match m.userId with
    | some hex => if hex.length = 64 then fromHex hex else []
    | none => [],
   match m.authLevel with
    | some level => .ofText level
    | none => .none)

/-- What an answer has to be for the connection to be accepted. -/
structure ZapAnswer.Accepts (a : ZapAnswer) (v : Verdict) : Prop where
  verdict : a.verdict = some v
  level : v.level = v.bind.allow v.ip v.pubkey v.sn
  accepted : v.level.Accepted
  curve : v.bind.curve = true → v.pubkey.length = 32
  plain : v.bind.curve = false → v.pubkey = []
  metadata : ∀ address, extractMetadata (a.properties address) = (v.pubkey, v.level)

end ArqmaMQ
