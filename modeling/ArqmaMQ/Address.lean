import ArqmaMQ.Hex
import ArqmaMQ.Base64

/-! Augmented addresses: `tcp`, `curve` and unix socket addresses with their
public keys. A parser returns what it read and what is left of its view. -/

namespace ArqmaMQ

inductive AddressError
  /-- `std::invalid_argument` -/
  | invalidArgument (what : String)
  /-- `std::out_of_range`, thrown by `std::stoi` -/
  | outOfRange (what : String)
  /-- The first byte of an empty view was read. -/
  | undefined
  deriving DecidableEq, Repr

inductive Proto
  | tcp
  | tcpCurve
  | ipc
  | ipcCurve
  deriving DecidableEq, Repr

inductive Encoding
  | hex
  | base32z
  | base64
  /-- `BASE32Z` -/
  | upperBase32z
  deriving DecidableEq, Repr

structure Address where
  protocol : Proto := .tcp
  host : Bytes := []
  port : UInt16 := 0
  socket : Bytes := []
  pubkey : Bytes := []
  deriving DecidableEq, Repr

/-- Bytes as they are appended to an error text. -/
def bytesText (s : Bytes) : String := String.ofList (s.map fun c => Char.ofNat c.toNat)

def toLower (c : UInt8) : UInt8 :=
  if 'A'.toUInt8 ≤ c ∧ c ≤ 'Z'.toUInt8 then c - 'A'.toUInt8 + 'a'.toUInt8 else c

/-- `s.find_first_not_of(set, pos)` -/
def findFirstNotOf (set s : Bytes) (pos : Nat) : Option Nat :=
  ((s.drop pos).findIdx? (· ∉ set)).map (pos + ·)

/-- `s.find(needle)` -/
def find (needle : Bytes) : Bytes → Option Nat
  | [] => if needle.isEmpty then some 0 else none
  | c :: s => if needle.isPrefixOf (c :: s) then some 0 else (find needle s).map (· + 1)

/-- `std::stoi` for a text without sign and leading space: the value of the
leading digits and how many there are. -/
def stoi (s : Bytes) : Except AddressError (Nat × Nat) :=
  let digits := s.takeWhile isDigit
  if digits.isEmpty then .error (.invalidArgument "stoi")
  else if 2 ^ 31 ≤ Decimal.valueFrom 0 digits then .error (.outOfRange "stoi")
  else .ok (Decimal.valueFrom 0 digits, digits.length)

def encLength : Encoding → Nat
  | .hex => 64
  | .base64 => 43
  | .base32z => 52
  | .upperBase32z => 52

def decodePubkey (s : Bytes) (qr : Bool) : Except AddressError (Bytes × Bytes) :=
  if 64 ≤ s.length ∧ isHex (s.take 64) then
    .ok (fromHex (s.take 64), s.drop 64)
  else if 52 ≤ s.length ∧ isBase32z (s.take 52) then
    .ok (fromBase32z (s.take 52), s.drop 52)
  else if ¬ qr ∧ 43 ≤ s.length ∧ isBase64 (s.take 43) then
    let rest := s.drop 43
    .ok (fromBase64 (s.take 43), if rest.head? = some '='.toUInt8 then rest.drop 1 else rest)
  else
    .error (.invalidArgument "No pubkey found")

/-- The characters of an IPv6 address. -/
def ipv6Chars : Bytes := bytes ":.1234567890abcdefABCDEF"

/-- A `$` at either end of the host is replaced by a bracket. -/
def replaceDollars (host : Bytes) : Bytes :=
  let host := if host.head? = some '$'.toUInt8 then '['.toUInt8 :: host.tail else host
  if host.getLast? = some '$'.toUInt8 then host.dropLast ++ [']'.toUInt8] else host

/-- The host of `parse_tcp`, in brackets. -/
def parseBracketed (addr : Bytes) (qr : Bool) : Except AddressError (Bytes × Bytes) :=
  match findFirstNotOf ipv6Chars addr 1 with
  | none =>
    .error (.invalidArgument "Could not find terminating ] while parsing an IPv6 address")
  | some pos =>
    let c := addr.getD pos 0
    if c = ']'.toUInt8 ∨ (qr ∧ c = '$'.toUInt8) then
      let host := addr.take (pos + 1)
      .ok (if qr then replaceDollars host else host, addr.drop (pos + 1))
    else
      .error (.invalidArgument ("Expected " ++ (if qr then "$" else "]") ++
        " to close IPv6 address but found " ++ bytesText [c]))

/-- The host of `parse_tcp`, up to the first colon. -/
def parseName (addr : Bytes) : Except AddressError (Bytes × Bytes) :=
  match addr.findIdx? (· = ':'.toUInt8) with
  | none => .error (.invalidArgument "Could not determine host (no following ':port' found)")
  | some 0 => .error (.invalidArgument "Host cannot be empty")
  | some pos => .ok (addr.take pos, addr.drop pos)

/-- The host of `parse_tcp`, as it is written. -/
def parseHostText (addr : Bytes) (qr : Bool) : Except AddressError (Bytes × Bytes) :=
  match addr with
  | [] => .error .undefined
  | c :: _ =>
    if c = '['.toUInt8 ∨ (qr ∧ c = '$'.toUInt8) then parseBracketed addr qr else parseName addr

/-- The host of `parse_tcp`. -/
def parseHost (addr : Bytes) (qr : Bool) : Except AddressError (Bytes × Bytes) := do
  let (host, addr) ← parseHostText addr qr
  return (if qr then host.map toLower else host, addr)

/-- The port of `parse_tcp`. -/
def parsePort (addr : Bytes) : Except AddressError (UInt16 × Bytes) :=
  if addr.length < 2 ∨ addr.head? ≠ some ':'.toUInt8 then
    .error (.invalidArgument "Could not find :port in address string")
  else do
    let addr := addr.drop 1
    let pos := (findFirstNotOf (bytes "1234567890") addr 0).getD addr.length
    if pos = 0 then
      throw (.invalidArgument "Could not find numeric port in address string")
    else
      let (port, processed) ← stoi (addr.take pos)
      if port = 0 ∨ processed ≠ pos then
        throw (.invalidArgument "Could not parse numeric port in address string")
      else if 65535 < port then
        throw (.invalidArgument "Invalid port: port must be in range 1-65535")
      else
        return (UInt16.ofNat port, addr.drop pos)

/-- The public key of `parse_tcp`, behind the port. -/
def parseKey (addr : Bytes) (qr expectPubkey : Bool) : Except AddressError (Bytes × Bytes) :=
  if expectPubkey then
    if addr.length < 1 + encLength (if qr then .base32z else .base64) ∨
        addr.head? ≠ some '/'.toUInt8 then
      .error (.invalidArgument "Invalid address: expected /PUBKEY after port")
    else do
      let (pubkey, addr) ← decodePubkey (addr.drop 1) qr
      if addr.isEmpty then
        return (pubkey, addr)
      else
        throw (.invalidArgument "Invalid address: found unexpected trailing data after pubkey")
  else if addr.isEmpty then
    .ok ([], addr)
  else
    .error (.invalidArgument "Invalid address: found unexpected trailing data after port")

def parseTcp (addr : Bytes) (qr expectPubkey : Bool) :
    Except AddressError ((Bytes × UInt16 × Bytes) × Bytes) := do
  let (host, addr) ← parseHost addr qr
  let (port, addr) ← parsePort addr
  let (pubkey, addr) ← parseKey addr qr expectPubkey
  return ((host, port, pubkey), addr)

/-- `addr[addr.size() - n - 1] == '/'`, and the last `n` characters. -/
def slashBefore (addr : Bytes) (n : Nat) : Option (Bytes × Bytes) :=
  if n < addr.length ∧ addr[addr.length - n - 1]? = some '/'.toUInt8 then
    some (addr.take (addr.length - n - 1), addr.drop (addr.length - n))
  else none

/-- `b64_len` of `parse_unix`, one more with padding. -/
def b64Len (addr : Bytes) : Nat := if addr.getLast? = some '='.toUInt8 then 44 else 43

def parseUnix (addr : Bytes) (expectPubkey : Bool) : Except AddressError (Bytes × Bytes) :=
  if expectPubkey then
    match (slashBefore addr 64).filter (isHex ·.2) with
    | some (path, key) => .ok (path, fromHex key)
    | none =>
      match (slashBefore addr 52).filter (isBase32z ·.2) with
      | some (path, key) => .ok (path, fromBase32z key)
      | none =>
        match (slashBefore addr (b64Len addr)).filter (isBase64 ·.2) with
        | some (path, key) => .ok (path, fromBase64 key)
        | none =>
          .error (.invalidArgument
            ("icp+curve:// requires a trailing /PUBKEY value, got: " ++ bytesText addr))
  else
    .ok (addr, [])

namespace Address

def curve (a : Address) : Bool := a.protocol == .tcpCurve || a.protocol == .ipcCurve

def tcp (a : Address) : Bool := a.protocol == .tcp || a.protocol == .tcpCurve

def ipc (a : Address) : Bool := !a.tcp

/-- The protocol that is written before `://`, and whether it is a QR form. -/
def protocolOf (pro : Bytes) : Except AddressError (Proto × Bool) :=
  if pro = bytes "tcp" then .ok (.tcp, false)
  else if pro = bytes "tcp+curve" ∨ pro = bytes "curve" then .ok (.tcpCurve, false)
  else if pro = bytes "ipc" then .ok (.ipc, false)
  else if pro = bytes "ipc+curve" then .ok (.ipcCurve, false)
  else if pro = bytes "TCP" then .ok (.tcp, true)
  else if pro = bytes "CURVE" then .ok (.tcpCurve, true)
  else .error (.invalidArgument ("Invalid protocol '" ++ bytesText pro ++ "'"))

/-- The characters of the QR forms. -/
def isQrChar (c : UInt8) : Bool :=
  ('A'.toUInt8 ≤ c && c ≤ 'Z'.toUInt8) || ('0'.toUInt8 ≤ c && c ≤ '9'.toUInt8) ||
    c == '$'.toUInt8 || c == ':'.toUInt8 || c == '/'.toUInt8 || c == '.'.toUInt8 ||
    c == '-'.toUInt8

/-- What follows the protocol. -/
def parseRest (protocol : Proto) (qr : Bool) (addr : Bytes) : Except AddressError Address :=
  let a : Address := { protocol }
  if qr ∧ ¬ addr.all isQrChar then
    .error (.invalidArgument
      "Found non-QR-alphanumeric value in QR TCP:// or CURVE:// address")
  else if a.tcp then do
    let ((host, port, pubkey), addr) ← parseTcp addr qr a.curve
    if addr.isEmpty then
      return { a with host, port, pubkey }
    else
      throw (.invalidArgument ("Invalid trailing garbage '" ++ bytesText addr ++ "' in address"))
  else do
    -- `parse_unix` leaves an empty view.
    let (socket, pubkey) ← parseUnix addr a.curve
    return { a with socket, pubkey }

/-- `address::address(std::string_view)` -/
def parse (addr : Bytes) : Except AddressError Address :=
  match find (bytes "://") addr with
  | none => .error (.invalidArgument "Invalid address: no protocol found")
  | some 0 => .error (.invalidArgument "Invalid address: no protocol found")
  | some protoend =>
    let rest := addr.drop (protoend + 3)
    if rest.isEmpty then
      .error (.invalidArgument "Invalid address: no value specified after protocol")
    else do
      let (protocol, qr) ← protocolOf (addr.take protoend)
      parseRest protocol qr rest

def setPubkey (pk : Bytes) : EStateM AddressError Address Unit := do
  let protocol := (← get).protocol
  if pk.length = 0 then
    if protocol = .tcpCurve then
      modify fun a => { a with protocol := .tcp }
    else if protocol = .tcpCurve then -- the same test again, so never taken
      modify fun a => { a with protocol := .ipc }
  else if pk.length = 32 then
    if protocol = .tcp then
      modify fun a => { a with protocol := .tcpCurve }
    else if protocol = .ipc then
      modify fun a => { a with protocol := .ipcCurve }
  else
    throw (.invalidArgument
      "Invalid pubkey passed to set_pubkey(): require 0- or 32-byte pubkey")
  modify fun a => { a with pubkey := pk }

def encodePubkey (a : Address) : Encoding → Bytes
  | .hex => toHex a.pubkey
  | .base32z => toBase32z a.pubkey
  | .upperBase32z => (toBase32z a.pubkey).map toUpper
  | .base64 =>
    let pk := toBase64 a.pubkey
    if pk.length = 44 ∧ pk.getLast? = some '='.toUInt8 then pk.take 43 else pk

/-- `host + ':' + std::to_string(port)` -/
def hostPort (a : Address) : Bytes := a.host ++ ':'.toUInt8 :: Decimal.numeral a.port.toNat

def fullAddress (a : Address) (enc : Encoding) : Bytes :=
  match a.protocol with
  | .tcp => bytes "tcp://" ++ a.hostPort
  | .tcpCurve => bytes "curve://" ++ a.hostPort ++ '/'.toUInt8 :: a.encodePubkey enc
  | .ipc => bytes "ipc://" ++ a.socket
  | .ipcCurve => bytes "ipc+curve://" ++ a.socket ++ '/'.toUInt8 :: a.encodePubkey enc

def zmqAddress (a : Address) : Bytes :=
  if a.tcp then bytes "tcp://" ++ a.hostPort else bytes "ipc://" ++ a.socket

/-- Brackets around the host are replaced by `$`. -/
def replaceBrackets (host : Bytes) : Bytes :=
  if host.head? = some '['.toUInt8 ∧ host.getLast? = some ']'.toUInt8 then
    '$'.toUInt8 :: (host.tail.dropLast ++ ['$'.toUInt8])
  else host

/-- `qr_address`. It throws `std::logic_error`. -/
def qrAddress (a : Address) : Except String Bytes :=
  if a.protocol ≠ .tcp ∧ a.protocol ≠ .tcpCurve then
    .error "Cannot construct a QR-friendly address for a non-TCP address"
  else if a.host.isEmpty then
    .error "Cannot construct a QR-friendly address with an empty TCP host"
  else
    let result := (if a.curve then bytes "CURVE://" else bytes "TCP://") ++
      replaceBrackets (a.host.map toUpper) ++ ':'.toUInt8 :: Decimal.numeral a.port.toNat
    .ok (if a.curve then result ++ '/'.toUInt8 :: a.encodePubkey .upperBase32z else result)

/-- `operator==` -/
def eq (a b : Address) : Bool :=
  a.protocol == b.protocol && (!a.tcp || (a.host == b.host && a.port == b.port)) &&
    (!a.ipc || a.socket == b.socket) && (!a.curve || a.pubkey == b.pubkey)

end Address

end ArqmaMQ
