import ArqmaMQ.AddressParse

/-! An address is read back from its text, in each of the encodings of its
public key. -/

namespace ArqmaMQ

section Unix

variable {path key : Bytes} {n : Nat}

theorem slashBefore_append (hlen : key.length = n) :
    slashBefore (path ++ '/'.toUInt8 :: key) n = some (path, key) := by
  have htotal : (path ++ '/'.toUInt8 :: key).length = path.length + 1 + n := by
    rw [List.length_append, List.length_cons, hlen]
    omega
  have hget : (path ++ '/'.toUInt8 :: key)[path.length]? = some '/'.toUInt8 := by simp
  have hdrop : (path ++ '/'.toUInt8 :: key).drop (path.length + 1) = key := by
    rw [← List.singleton_append, ← List.append_assoc]
    exact List.drop_left' (by simp)
  rw [slashBefore, htotal, show path.length + 1 + n - n - 1 = path.length by omega,
    show path.length + 1 + n - n = path.length + 1 by omega, if_pos ⟨by omega, hget⟩,
    List.take_left, hdrop]

/-- No encoding that is longer than the key is found, as its text would have
the separator in it. -/
theorem filter_slashBefore_eq_none {p : Bytes → Bool} (hlen : key.length < n)
    (hp : ∀ t, '/'.toUInt8 ∈ t → p t = false) :
    (slashBefore (path ++ '/'.toUInt8 :: key) n).filter (p ·.2) = none := by
  rw [slashBefore]
  split
  case isFalse => rfl
  case isTrue h =>
    have hmem : '/'.toUInt8 ∈ (path ++ '/'.toUInt8 :: key).drop
        ((path ++ '/'.toUInt8 :: key).length - n) := by
      rw [List.length_append, List.length_cons, List.drop_append_of_le_length (by omega)]
      simp
    rw [Option.filter_some, hp _ hmem]
    rfl

theorem isHex_of_slash (t : Bytes) (h : '/'.toUInt8 ∈ t) : isHex t = false := by
  refine Bool.eq_false_iff.mpr fun ht => ?_
  rw [isHex, Bool.and_eq_true] at ht
  exact absurd (List.all_eq_true.mp ht.2 _ h) (by decide)

theorem isBase32z_of_slash (t : Bytes) (h : '/'.toUInt8 ∈ t) : isBase32z t = false := by
  refine Bool.eq_false_iff.mpr fun ht => ?_
  rw [isBase32z_eq_all] at ht
  exact absurd (List.all_eq_true.mp ht _ h) (by decide +kernel)

theorem filter_slashBefore_append {p : Bytes → Bool} (hlen : key.length = n)
    (hp : p key = true) :
    (slashBefore (path ++ '/'.toUInt8 :: key) n).filter (p ·.2) = some (path, key) := by
  rw [slashBefore_append hlen, Option.filter_some, if_pos hp]

theorem parseUnix_hex (hlen : key.length = 64) (h : isHex key = true) :
    parseUnix (path ++ '/'.toUInt8 :: key) true = .ok (path, fromHex key) := by
  rw [parseUnix, if_pos rfl, filter_slashBefore_append hlen h]

theorem parseUnix_base32z (hlen : key.length = 52) (h : isBase32z key = true) :
    parseUnix (path ++ '/'.toUInt8 :: key) true = .ok (path, fromBase32z key) := by
  rw [parseUnix, if_pos rfl, filter_slashBefore_eq_none (by omega) isHex_of_slash,
    filter_slashBefore_append hlen h]

theorem parseUnix_base64 (hlast : b64Len (path ++ '/'.toUInt8 :: key) = key.length)
    (hlen : key.length < 52) (h : isBase64 key = true) :
    parseUnix (path ++ '/'.toUInt8 :: key) true = .ok (path, fromBase64 key) := by
  rw [parseUnix, if_pos rfl, filter_slashBefore_eq_none (by omega) isHex_of_slash,
    filter_slashBefore_eq_none (by omega) isBase32z_of_slash]
  dsimp only
  rw [hlast, filter_slashBefore_append rfl h]

theorem b64Len_append (c : UInt8) (t : Bytes) :
    b64Len (path ++ '/'.toUInt8 :: (t ++ [c])) = if c = '='.toUInt8 then 44 else 43 := by
  have hlast : (path ++ '/'.toUInt8 :: (t ++ [c])).getLast? = some c := by
    rw [← List.cons_append, ← List.append_assoc, List.getLast?_concat]
  simp only [b64Len, hlast, Option.some.injEq]

theorem isBase64_ne_padding (h : key.length % 4 ≠ 0) (hkey : isBase64 key = true) {c : UInt8}
    (hc : c ∈ key) : c ≠ '='.toUInt8 := by
  rintro rfl
  rw [isBase64_eq_all h, List.all_eq_true] at hkey
  exact absurd (hkey _ hc) (by decide +kernel)

/-- The padding of a key is checked and skipped. -/
theorem base64_append_padding (hlen : key.length = 43) (hkey : isBase64 key = true) :
    isBase64 (key ++ ['='.toUInt8]) = true ∧
      fromBase64 (key ++ ['='.toUInt8]) = fromBase64 key := by
  constructor
  · have hlast : key.getLast? ≠ some '='.toUInt8 := fun h =>
      isBase64_ne_padding (by omega) hkey (List.mem_of_getLast? h) rfl
    have hpad : withoutPadding (key ++ ['='.toUInt8]) = key := by
      rw [withoutPadding, if_pos ⟨by simp, by simp [hlen], List.getLast?_concat⟩,
        List.dropLast_concat, if_neg hlast]
    rw [isBase64, withoutPadding_of_length (by omega)] at hkey
    rw [isBase64, hpad]
    exact hkey
  · have hloop (s : Bytes) (curr k : Nat) :
        fromBase64Loop (s ++ ['='.toUInt8]) curr k = fromBase64Loop s curr k := by
      induction s generalizing curr k with
      | nil => rfl
      | cons c s ih => simp only [List.cons_append, fromBase64Loop, ih]
    exact hloop key 0 0

/-- Whatever the path, a key at its end is found. -/
theorem KeyText.parseUnix_eq {pubkey : Bytes} (h : KeyText false key pubkey) :
    parseUnix (path ++ '/'.toUInt8 :: key) true = .ok (path, pubkey) := by
  cases h with
  | hex hlen hkey =>
    obtain ⟨hdigits, rfl⟩ := (hexDigits_denotes_iff hlen).mp hkey
    exact parseUnix_hex hlen hdigits
  | base32z hlen hkey =>
    obtain ⟨hdigits, rfl⟩ := (base32zDigits_denotes_iff hlen).mp hkey
    exact parseUnix_base32z hlen hdigits
  | base64 _ hlen hkey =>
    obtain ⟨hdigits, rfl⟩ := (base64Digits_denotes_iff hlen).mp hkey
    refine parseUnix_base64 ?_ (by omega) hdigits
    obtain rfl | ⟨t, c, rfl⟩ := List.eq_nil_or_concat' key
    · cases hlen
    · rw [b64Len_append, hlen, if_neg (isBase64_ne_padding (by omega) hdigits (by simp))]
  | @padded t _ _ hlen hkey =>
    obtain ⟨hdigits, rfl⟩ := (base64Digits_denotes_iff hlen).mp hkey
    obtain ⟨hpad, heq⟩ := base64_append_padding hlen hdigits
    have hlen' : (t ++ ['='.toUInt8]).length = 44 := by rw [List.length_append, hlen]; rfl
    rw [← heq]
    exact parseUnix_base64 (by rw [b64Len_append, hlen', if_pos rfl]) (by omega) hpad

end Unix

namespace Address

variable {a : Address}

theorem keyText_upperBase32z (h : a.pubkey.length = 32) (qr : Bool) :
    KeyText qr (a.encodePubkey .upperBase32z) a.pubkey := by
  have hlen : ((toBase32z a.pubkey).map toUpper).length = 52 := by
    rw [List.length_map, length_toBase32z, h]
  obtain ⟨hdigits, hkey⟩ := toUpper_toBase32z a.pubkey
  exact .base32z hlen ((base32zDigits_denotes_iff hlen).mpr ⟨hdigits, hkey.symm⟩)

/-- The text that is written for a key is one that denotes it. -/
theorem keyText_encodePubkey (h : a.pubkey.length = 32) (enc : Encoding) :
    KeyText false (a.encodePubkey enc) a.pubkey := by
  cases enc with
  | hex =>
    have hlen : (toHex a.pubkey).length = 64 := by rw [length_toHex, h]
    exact .hex hlen ((hexDigits_denotes_iff hlen).mpr ⟨isHex_toHex _, (fromHex_toHex _).symm⟩)
  | base32z =>
    have hlen : (toBase32z a.pubkey).length = 52 := by rw [length_toBase32z, h]
    exact .base32z hlen ((base32zDigits_denotes_iff hlen).mpr
      ⟨isBase32z_toBase32z _, (fromBase32z_toBase32z _).symm⟩)
  | upperBase32z => exact keyText_upperBase32z h false
  | base64 =>
    obtain ⟨t, ht, hlen, hdigits, hkey⟩ := toBase64_key h
    have hcut : a.encodePubkey .base64 = t := by
      rw [encodePubkey, ht, if_pos ⟨by simp [hlen], List.getLast?_concat⟩, List.take_left' hlen]
    rw [hcut]
    exact .base64 rfl hlen ((base64Digits_denotes_iff hlen).mpr ⟨hdigits, hkey.symm⟩)

/-- A host that can be told from the rest of an address. -/
def IsHost (host : Bytes) : Prop :=
  (host ≠ [] ∧ ':'.toUInt8 ∉ host ∧ host.head? ≠ some '['.toUInt8) ∨
    ∃ run, (∀ c ∈ run, c ∈ bytes ":.0123456789abcdefABCDEF") ∧
      host = '['.toUInt8 :: (run ++ [']'.toUInt8])

structure WellFormed (a : Address) : Prop where
  port : a.tcp = true → 1 ≤ a.port.toNat
  host : a.tcp = true → IsHost a.host
  socket : a.protocol = .ipc → a.socket ≠ []
  pubkey : a.curve = true → a.pubkey.length = 32

theorem IsHost.hostText {host : Bytes} (h : IsHost host) : HostText false host host := by
  rcases h with ⟨hne, hcolon, hopen⟩ | ⟨run, hrun, rfl⟩
  · exact .name hne hcolon hopen
  · exact .bracketed hrun

/-- The port is written as the number that it is read as. -/
theorem tcpText_port {p : TcpScheme} {t tail pubkey : Bytes} (hport : 1 ≤ a.port.toNat)
    (hhost : HostText p.qr t a.host) (htail : TailText p tail pubkey)
    (hqr : p.qr = true → ∀ c ∈ t ++ ':'.toUInt8 :: (Decimal.numeral a.port.toNat ++ tail),
      isQrChar c = true) :
    TcpText p (t ++ ':'.toUInt8 :: (Decimal.numeral a.port.toNat ++ tail))
      { protocol := p.protocol, host := a.host, port := a.port, pubkey := pubkey } := by
  have hvalue := Decimal.valueFrom_numeral a.port.toNat
  have hmax := a.port.toNat_lt
  have htext := TcpText.mk hhost (Decimal.numeral_ne_nil a.port.toNat)
    (fun c hc => Decimal.isDigit_of_mem_numeral hc) (by rw [hvalue]; exact hport)
    (by rw [hvalue]; omega) htail hqr
  rwa [hvalue, UInt16.ofNat_toNat] at htext

theorem tcpText_hostPort {p : TcpScheme} {tail pubkey : Bytes} (hqr : p.qr = false)
    (hport : 1 ≤ a.port.toNat) (hhost : IsHost a.host) (htail : TailText p tail pubkey) :
    TcpText p (a.hostPort ++ tail)
      { protocol := p.protocol, host := a.host, port := a.port, pubkey := pubkey } := by
  rw [hostPort, List.append_assoc]
  exact tcpText_port hport (hqr ▸ hhost.hostText) htail (by rw [hqr]; nofun)

theorem protocolOf_ipc : protocolOf (bytes "ipc") = .ok (.ipc, false) ∧
    protocolOf (bytes "ipc+curve") = .ok (.ipcCurve, false) := by decide +kernel

/-- An address is read back from its text. -/
theorem parse_fullAddress (a : Address) (h : a.WellFormed) (enc : Encoding) :
    ∃ b, parse (a.fullAddress enc) = .ok b ∧ b.eq a = true := by
  cases hp : a.protocol with
  | tcp =>
    have htext := tcpText_hostPort (p := .tcp) rfl (h.port (by simp [tcp, hp]))
      (h.host (by simp [tcp, hp])) (.plain rfl)
    rw [List.append_nil] at htext
    refine ⟨{ protocol := .tcp, host := a.host, port := a.port }, ?_, ?_⟩
    · rw [fullAddress, hp]
      exact parse_of_tcpText htext
    · simp [Address.eq, hp, tcp, ipc, curve]
  | tcpCurve =>
    have hkey := keyText_encodePubkey (h.pubkey (by simp [curve, hp])) enc
    have htext := tcpText_hostPort (p := .curve) rfl (h.port (by simp [tcp, hp]))
      (h.host (by simp [tcp, hp])) (.key rfl hkey)
    refine ⟨{ protocol := .tcpCurve, host := a.host, port := a.port, pubkey := a.pubkey }, ?_, ?_⟩
    · rw [fullAddress, hp]
      dsimp only
      rw [List.append_assoc]
      exact parse_of_tcpText htext
    · simp [Address.eq, hp, tcp, ipc, curve]
  | ipc =>
    have hne := h.socket hp
    refine ⟨{ protocol := .ipc, socket := a.socket }, ?_, ?_⟩
    · rw [fullAddress, hp]
      change parse (bytes "ipc" ++ bytes "://" ++ a.socket) = _
      rw [parse_append (by decide) protocolOf_ipc.1, if_neg (by simpa using hne)]
      rfl
    · simp [Address.eq, hp, tcp, ipc, curve]
  | ipcCurve =>
    have hkey := keyText_encodePubkey (h.pubkey (by simp [curve, hp])) enc
    refine ⟨{ protocol := .ipcCurve, socket := a.socket, pubkey := a.pubkey }, ?_, ?_⟩
    · rw [fullAddress, hp]
      change parse (bytes "ipc+curve" ++ bytes "://" ++ a.socket ++ _) = _
      rw [List.append_assoc, parse_append (by decide) protocolOf_ipc.2, if_neg (by simp)]
      exact bind_eq_ok_iff.mpr ⟨_, hkey.parseUnix_eq, rfl⟩
    · simp [Address.eq, hp, tcp, ipc, curve]

/-- A path that itself ends in a key of zeros. -/
def sampleSocket : Address where
  protocol := .ipcCurve
  socket := bytes "/run/" ++ List.replicate 64 '0'.toUInt8
  pubkey := List.replicate 32 0xff

theorem parse_fullAddress_sampleSocket : sampleSocket.WellFormed ∧
    ∃ b, parse (sampleSocket.fullAddress .base64) = .ok b ∧ b.eq sampleSocket = true := by
  have h : sampleSocket.WellFormed := ⟨nofun, nofun, nofun, fun _ => rfl⟩
  exact ⟨h, parse_fullAddress sampleSocket h .base64⟩

end Address

end ArqmaMQ
