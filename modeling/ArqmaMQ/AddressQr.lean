import ArqmaMQ.AddressRoundTrip

/-! The form of an address for QR codes: in upper case, with `$` for the brackets
of an IPv6 host and base32z for the key. -/

namespace ArqmaMQ

/-- The characters of the QR forms, as `address.h` lists them. -/
def qrAlphabet : Bytes := bytes "ABCDEFGHIJKLMNOPQRSTUVWXYZ0123456789$:/.-"

theorem mem_qrAlphabet {c : UInt8} (hc : Address.isQrChar c = true) : c ∈ qrAlphabet := by
  have h : ∀ n : Fin 256, Address.isQrChar (UInt8.ofNat n) = true →
      UInt8.ofNat n ∈ qrAlphabet := by decide +kernel
  exact forall_byte (P := fun c => Address.isQrChar c = true → c ∈ qrAlphabet) h c hc

theorem map_toLower_toUpper {s : Bytes} (h : ∀ c ∈ s, toLower (toUpper c) = c) :
    (s.map toUpper).map toLower = s := by
  rw [List.map_map]
  exact (List.map_congr_left h).trans (List.map_id s)

theorem isQrChar_toBase32z (s : Bytes) : ∀ c ∈ (toBase32z s).map toUpper,
    Address.isQrChar c = true := by
  have hdigit : ∀ n : Fin 32, Address.isQrChar (toUpper (toB32z n)) = true := by decide +kernel
  obtain ⟨ds, -, -, hds, htext, -⟩ := toBase32z_eq_map s
  rw [htext, List.map_map, List.forall_mem_map]
  exact fun d hd => hdigit ⟨d, hds d hd⟩

namespace Address

variable {a : Address}

def IsQrHost (host : Bytes) : Prop :=
  (host ≠ [] ∧ ∀ c ∈ host, c ∈ bytes "abcdefghijklmnopqrstuvwxyz0123456789.-") ∨
    ∃ run, (∀ c ∈ run, c ∈ bytes ":.0123456789abcdef") ∧
      host = '['.toUInt8 :: (run ++ [']'.toUInt8])

/-- TCP addresses that have a QR form. -/
structure QrFriendly (a : Address) : Prop where
  tcp : a.tcp = true
  host : IsQrHost a.host
  port : 1 ≤ a.port.toNat
  pubkey : a.curve = true → a.pubkey.length = 32

theorem replaceBrackets_bracketed (run : Bytes) :
    replaceBrackets ('['.toUInt8 :: (run ++ [']'.toUInt8])) =
      '$'.toUInt8 :: (run ++ ['$'.toUInt8]) := by
  have hlast : ('['.toUInt8 :: (run ++ [']'.toUInt8])).getLast? = some ']'.toUInt8 := by
    rw [← List.cons_append, List.getLast?_concat]
  rw [replaceBrackets, if_pos ⟨rfl, hlast⟩, List.tail_cons, List.dropLast_concat]

theorem IsQrHost.hostText {host : Bytes} (h : IsQrHost host) :
    HostText true (replaceBrackets (host.map toUpper)) host ∧
      ∀ c ∈ replaceBrackets (host.map toUpper), isQrChar c = true := by
  rcases h with ⟨hne, hchars⟩ | ⟨run, hchars, rfl⟩
  · have hset : ∀ c ∈ bytes "abcdefghijklmnopqrstuvwxyz0123456789.-",
        toLower (toUpper c) = c ∧ toUpper c ∉ bytes "[:$" ∧ isQrChar (toUpper c) = true := by
      decide +kernel
    have hnot : ∀ c ∈ host.map toUpper, c ∉ bytes "[:$" :=
      List.forall_mem_map.mpr fun c hc => (hset c (hchars c hc)).2.1
    have hhead (c : UInt8) (hc : c ∈ bytes "[:$") : (host.map toUpper).head? ≠ some c :=
      fun hh => hnot c (List.mem_of_head? hh) hc
    rw [replaceBrackets, if_neg fun hh => hhead _ (by decide) hh.1]
    constructor
    · have hname : HostText true (host.map toUpper) (denotedHost true (host.map toUpper)) :=
        .name (by simpa using hne) (fun hc => hnot _ hc (by decide))
          (hhead '$'.toUInt8 (by decide))
      rwa [denotedHost, if_pos rfl,
        map_toLower_toUpper fun c hc => (hset c (hchars c hc)).1] at hname
    · exact List.forall_mem_map.mpr fun c hc => (hset c (hchars c hc)).2.2
  · have hset : ∀ c ∈ bytes ":.0123456789abcdef", toLower (toUpper c) = c ∧
        toUpper c ∈ bytes ":.0123456789abcdefABCDEF" ∧ isQrChar (toUpper c) = true := by
      decide +kernel
    have htext : replaceBrackets (('['.toUInt8 :: (run ++ [']'.toUInt8])).map toUpper) =
        '$'.toUInt8 :: (run.map toUpper ++ ['$'.toUInt8]) := by
      rw [List.map_cons, List.map_append]
      exact replaceBrackets_bracketed (run.map toUpper)
    rw [htext]
    constructor
    · have hhost : HostText true ('$'.toUInt8 :: (run.map toUpper ++ ['$'.toUInt8]))
          ('['.toUInt8 :: (denotedHost true (run.map toUpper) ++ [']'.toUInt8])) :=
        .bracketed (List.forall_mem_map.mpr fun c hc => (hset c (hchars c hc)).2.1)
      rwa [denotedHost, if_pos rfl,
        map_toLower_toUpper fun c hc => (hset c (hchars c hc)).1] at hhost
    · intro c hc
      rcases List.mem_cons.mp hc with rfl | hc
      · decide
      · rcases List.mem_append.mp hc with hc | hc
        · obtain ⟨d, hd, rfl⟩ := List.mem_map.mp hc
          exact (hset d (hchars d hd)).2.2
        · obtain rfl := List.mem_singleton.mp hc
          decide

/-- Behind the host and the port, a QR form is one of the texts of its scheme. -/
theorem QrFriendly.tcpText (h : a.QrFriendly) {p : TcpScheme} {tail pubkey : Bytes}
    (hp : p.qr = true) (htail : TailText p tail pubkey)
    (hchars : ∀ c ∈ tail, isQrChar c = true) :
    (∀ c ∈ replaceBrackets (a.host.map toUpper) ++
        ':'.toUInt8 :: (Decimal.numeral a.port.toNat ++ tail), isQrChar c = true) ∧
      TcpText p (replaceBrackets (a.host.map toUpper) ++
          ':'.toUInt8 :: (Decimal.numeral a.port.toNat ++ tail))
        { protocol := p.protocol, host := a.host, port := a.port, pubkey := pubkey } := by
  have hdigit : ∀ c ∈ bytes "1234567890", isQrChar c = true := by decide +kernel
  obtain ⟨hhost, hqr⟩ := h.host.hostText
  have hall : ∀ c ∈ replaceBrackets (a.host.map toUpper) ++
      ':'.toUInt8 :: (Decimal.numeral a.port.toNat ++ tail), isQrChar c = true := by
    intro c hc
    rcases List.mem_append.mp hc with hc | hc
    · exact hqr c hc
    rcases List.mem_cons.mp hc with rfl | hc
    · decide
    rcases List.mem_append.mp hc with hc | hc
    · exact hdigit c (mem_digits_iff.mpr (Decimal.isDigit_of_mem_numeral hc))
    · exact hchars c hc
  exact ⟨hall, tcpText_port h.port (hp ▸ hhost) htail fun _ => hall⟩

theorem QrFriendly.parse_append (h : a.QrFriendly) {p : TcpScheme} {tail pubkey : Bytes}
    (hp : p.qr = true) (htail : TailText p tail pubkey)
    (hchars : ∀ c ∈ tail, isQrChar c = true) {text : Bytes}
    (htext : text = p.text ++ bytes "://" ++ (replaceBrackets (a.host.map toUpper) ++
      ':'.toUInt8 :: (Decimal.numeral a.port.toNat ++ tail))) :
    (∀ c ∈ text, c ∈ qrAlphabet) ∧ parse text =
      .ok { protocol := p.protocol, host := a.host, port := a.port, pubkey := pubkey } := by
  have hscheme : p = .qrTcp ∨ p = .qrCurve := by cases p <;> simp_all [TcpScheme.qr]
  obtain ⟨hall, hparse⟩ := h.tcpText hp htail hchars
  subst htext
  refine ⟨fun c hc => ?_, parse_of_tcpText hparse⟩
  rcases List.mem_append.mp hc with hc | hc
  · have hprefix : ∀ p ∈ [TcpScheme.qrTcp, .qrCurve], ∀ c ∈ p.text ++ bytes "://",
        c ∈ qrAlphabet := by decide +kernel
    exact hprefix p (by simpa using hscheme) c hc
  · exact mem_qrAlphabet (hall c hc)

/-- A QR form has only QR characters, and is read back. -/
theorem parse_qrAddress (a : Address) (h : a.QrFriendly) :
    ∃ text, a.qrAddress = .ok text ∧ (∀ c ∈ text, c ∈ qrAlphabet) ∧
      ∃ b, parse text = .ok b ∧ b.eq a = true := by
  have hne : ¬ a.host.isEmpty = true := by
    rcases h.host with ⟨hne, -⟩ | ⟨run, -, hrun⟩
    · simpa using hne
    · simp [hrun]
  have hproto : a.protocol = .tcp ∨ a.protocol = .tcpCurve := by simpa [Address.tcp] using h.tcp
  rw [qrAddress, if_neg fun hh => hproto.elim hh.1 hh.2, if_neg hne]
  dsimp only
  rcases hproto with hp | hp
  · have hcurve : ¬ a.curve = true := by simp [curve, hp]
    have htext : bytes "TCP://" ++ replaceBrackets (a.host.map toUpper) ++
        ':'.toUInt8 :: Decimal.numeral a.port.toNat =
        TcpScheme.qrTcp.text ++ bytes "://" ++ (replaceBrackets (a.host.map toUpper) ++
          ':'.toUInt8 :: (Decimal.numeral a.port.toNat ++ [])) := by
      rw [List.append_nil, List.append_assoc]
      rfl
    rw [if_neg hcurve, if_neg hcurve]
    obtain ⟨hchars, hparse⟩ := h.parse_append rfl (.plain rfl) (by simp) htext
    exact ⟨_, rfl, hchars, _, hparse, by simp [Address.eq, hp, Address.tcp, ipc, curve,
      TcpScheme.protocol]⟩
  · have hcurve : a.curve = true := by simp [curve, hp]
    have htext : bytes "CURVE://" ++ replaceBrackets (a.host.map toUpper) ++
        ':'.toUInt8 :: Decimal.numeral a.port.toNat ++
          '/'.toUInt8 :: a.encodePubkey .upperBase32z =
        TcpScheme.qrCurve.text ++ bytes "://" ++ (replaceBrackets (a.host.map toUpper) ++
          ':'.toUInt8 :: (Decimal.numeral a.port.toNat ++
            '/'.toUInt8 :: a.encodePubkey .upperBase32z)) := by
      rw [List.append_assoc, List.append_assoc]
      rfl
    have htail : TailText .qrCurve ('/'.toUInt8 :: a.encodePubkey .upperBase32z) a.pubkey :=
      .key rfl (keyText_upperBase32z (h.pubkey hcurve) true)
    rw [if_pos hcurve, if_pos hcurve]
    obtain ⟨hchars, hparse⟩ := h.parse_append rfl htail
      (List.forall_mem_cons.mpr ⟨by decide, isQrChar_toBase32z a.pubkey⟩) htext
    exact ⟨_, rfl, hchars, _, hparse, by simp [Address.eq, hp, Address.tcp, ipc, curve,
      TcpScheme.protocol]⟩

def sampleNode6 : Address where
  protocol := .tcpCurve
  host := bytes "[fe80::1]"
  port := 22022
  pubkey := List.replicate 32 0xab

theorem parse_qrAddress_sampleNode6 : sampleNode6.QrFriendly ∧
    ∃ text, sampleNode6.qrAddress = .ok text ∧ (∀ c ∈ text, c ∈ qrAlphabet) ∧
      ∃ b, parse text = .ok b ∧ b.eq sampleNode6 = true := by
  have h : sampleNode6.QrFriendly :=
    ⟨rfl, .inr ⟨bytes "fe80::1", by decide +kernel, rfl⟩, by decide, fun _ => rfl⟩
  exact ⟨h, parse_qrAddress sampleNode6 h⟩

end Address

end ArqmaMQ
