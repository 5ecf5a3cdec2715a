import ArqmaMQ.AddressGrammar
import Mathlib.Data.List.TakeWhile

/-! The parser of TCP addresses accepts its grammar, and nothing else. -/

namespace ArqmaMQ

section Port

variable {addr digits rest u : Bytes} {c : UInt8} {port : UInt16}

theorem mem_digits_iff : c ∈ bytes "1234567890" ↔ Decimal.IsDigit c := by
  have hdigit : ∀ c ∈ bytes "1234567890", Decimal.IsDigit c := by decide +kernel
  refine ⟨hdigit c, fun ⟨hmin, hmax⟩ => ?_⟩
  rw [← UInt8.ofNat_toNat (x := c)]
  generalize c.toNat = n at hmin hmax
  interval_cases n <;> decide

theorem stoi_digits (hne : digits ≠ []) (hdigits : ∀ c ∈ digits, Decimal.IsDigit c) :
    stoi digits = if 2 ^ 31 ≤ Decimal.valueFrom 0 digits then .error (.outOfRange "stoi")
      else .ok (Decimal.valueFrom 0 digits, digits.length) := by
  have hall : digits.takeWhile isDigit = digits :=
    List.takeWhile_eq_self_iff.mpr fun c hc => isDigit_iff.mpr (hdigits c hc)
  rw [stoi, hall, if_neg (by simpa using hne)]

/-- The digits that the port is read from. -/
theorem findFirstNotOf_digits (hdigits : ∀ c ∈ digits, Decimal.IsDigit c)
    (hrest : ∀ c ∈ rest.head?, ¬ Decimal.IsDigit c) :
    (findFirstNotOf (bytes "1234567890") (digits ++ rest) 0).getD (digits ++ rest).length =
      digits.length := by
  have hrun : ∀ c ∈ digits, c ∈ bytes "1234567890" := fun c hc => mem_digits_iff.mpr (hdigits c hc)
  cases rest with
  | nil =>
    rw [List.append_nil, show findFirstNotOf (bytes "1234567890") digits 0 = none from
      findFirstNotOf_eq_none [] hrun]
    rfl
  | cons c u =>
    have hc : c ∉ bytes "1234567890" := fun h => hrest c rfl (mem_digits_iff.mp h)
    rw [show findFirstNotOf (bytes "1234567890") (digits ++ c :: u) 0 = some (0 + digits.length)
      from findFirstNotOf_append_cons [] hrun hc]
    exact Nat.zero_add _

theorem parsePort_cons_of_nil (hrest : ∀ c ∈ rest.head?, ¬ Decimal.IsDigit c) :
    ∃ what, parsePort (':'.toUInt8 :: rest) = .error (.invalidArgument what) := by
  rw [parsePort]
  split
  · exact ⟨_, rfl⟩
  · have hpos : (findFirstNotOf (bytes "1234567890") rest 0).getD rest.length = 0 :=
      findFirstNotOf_digits (List.forall_mem_nil _) hrest
    rw [List.drop_one, List.tail_cons]
    dsimp only
    rw [hpos]
    exact ⟨_, rfl⟩

theorem parsePort_cons (hne : digits ≠ []) (hdigits : ∀ c ∈ digits, Decimal.IsDigit c)
    (hrest : ∀ c ∈ rest.head?, ¬ Decimal.IsDigit c) :
    parsePort (':'.toUInt8 :: (digits ++ rest)) =
      if 2 ^ 31 ≤ Decimal.valueFrom 0 digits then .error (.outOfRange "stoi")
      else if Decimal.valueFrom 0 digits = 0 then
        .error (.invalidArgument "Could not parse numeric port in address string")
      else if 65535 < Decimal.valueFrom 0 digits then
        .error (.invalidArgument "Invalid port: port must be in range 1-65535")
      else .ok (UInt16.ofNat (Decimal.valueFrom 0 digits), rest) := by
  have hlen : ¬ ((':'.toUInt8 :: (digits ++ rest)).length < 2 ∨
      (':'.toUInt8 :: (digits ++ rest)).head? ≠ some ':'.toUInt8) := by
    have hmin := List.length_pos_iff.mpr hne
    rw [List.length_cons, List.length_append]
    simp only [List.head?_cons, ne_eq, not_true_eq_false, or_false]
    omega
  rw [parsePort, if_neg hlen, List.drop_one, List.tail_cons]
  dsimp only
  rw [findFirstNotOf_digits hdigits hrest, if_neg (by simpa using hne), List.take_left,
    List.drop_left, stoi_digits hne hdigits]
  split
  · rfl
  · change (if _ ∨ digits.length ≠ digits.length then _ else _) = _
    simp only [ne_eq, not_true_eq_false, or_false]
    rfl

theorem parsePort_cons_eq_ok_iff (hdigits : ∀ c ∈ digits, Decimal.IsDigit c)
    (hrest : ∀ c ∈ rest.head?, ¬ Decimal.IsDigit c) :
    parsePort (':'.toUInt8 :: (digits ++ rest)) = .ok (port, u) ↔
      digits ≠ [] ∧ 1 ≤ Decimal.valueFrom 0 digits ∧ Decimal.valueFrom 0 digits ≤ 65535 ∧
        port = UInt16.ofNat (Decimal.valueFrom 0 digits) ∧ u = rest := by
  by_cases hne : digits = []
  · subst hne
    obtain ⟨what, herr⟩ := parsePort_cons_of_nil hrest
    rw [List.nil_append, herr]
    exact iff_of_false nofun fun h => h.1 rfl
  · rw [parsePort_cons hne hdigits hrest]
    generalize Decimal.valueFrom 0 digits = v
    split
    case isTrue => exact iff_of_false nofun (by omega)
    split
    case isTrue => exact iff_of_false nofun (by omega)
    split
    case isTrue => exact iff_of_false nofun (by omega)
    case isFalse =>
      rw [Except.ok.injEq, Prod.mk.injEq]
      exact ⟨fun h => ⟨hne, by omega, by omega, h.1.symm, h.2.symm⟩,
        fun h => ⟨h.2.2.2.1.symm, h.2.2.2.2.symm⟩⟩

theorem parsePort_of_no_colon (h : addr.head? ≠ some ':'.toUInt8) :
    ∃ what, parsePort addr = .error (.invalidArgument what) :=
  ⟨_, by rw [parsePort, if_pos (.inr h)]⟩

theorem exists_digits_of_parsePort (h : parsePort addr = .ok (port, rest)) :
    ∃ digits, addr = ':'.toUInt8 :: (digits ++ rest) ∧ (∀ c ∈ digits, Decimal.IsDigit c) ∧
      digits ≠ [] ∧ 1 ≤ Decimal.valueFrom 0 digits ∧ Decimal.valueFrom 0 digits ≤ 65535 ∧
      port = UInt16.ofNat (Decimal.valueFrom 0 digits) := by
  by_cases hcolon : addr.head? = some ':'.toUInt8
  · obtain ⟨s, rfl⟩ := List.head?_eq_some_iff.mp hcolon
    obtain ⟨digits, u, rfl, hdigits, hu⟩ := Decimal.exists_digits s
    obtain ⟨hne, hmin, hmax, hport, rfl⟩ := (parsePort_cons_eq_ok_iff hdigits hu).mp h
    exact ⟨digits, rfl, hdigits, hne, hmin, hmax, hport⟩
  · obtain ⟨what, herr⟩ := parsePort_of_no_colon hcolon
    rw [herr] at h
    cases h

end Port

theorem parseKey_eq_ok_iff {addr rest pubkey : Bytes} {qr : Bool} :
    parseKey addr qr true = .ok (pubkey, rest) ↔
      ∃ t, addr = '/'.toUInt8 :: t ∧ KeyText qr t pubkey ∧ rest = [] := by
  rw [parseKey, if_pos rfl]
  by_cases hshort : addr.length < 1 + encLength (if qr then .base32z else .base64) ∨
      addr.head? ≠ some '/'.toUInt8
  · rw [if_pos hshort]
    refine iff_of_false nofun ?_
    rintro ⟨t, rfl, hkey, -⟩
    have hlen := hkey.length_le
    rw [List.length_cons, List.head?_cons] at hshort
    rcases hshort with hshort | hslash
    · omega
    · exact hslash rfl
  · rw [if_neg hshort]
    obtain ⟨t, rfl⟩ : ∃ t, addr = '/'.toUInt8 :: t := by
      cases addr with
      | nil => exact (hshort (.inr (by simp))).elim
      | cons c t => exact ⟨t, by simpa using (not_or.mp hshort).2⟩
    rw [List.drop_one, List.tail_cons, bind_eq_ok_iff]
    constructor
    · rintro ⟨⟨key, u⟩, hkey, h⟩
      dsimp only at h
      split at h
      case isTrue hu =>
        obtain ⟨rfl, rfl⟩ := Prod.mk.inj (Except.ok.inj h)
        obtain rfl := List.isEmpty_iff.mp hu
        exact ⟨t, rfl, decodePubkey_eq_ok_iff.mp hkey, rfl⟩
      case isFalse => cases h
    · rintro ⟨t', ht, hkey, rfl⟩
      obtain rfl := (List.cons.inj ht).2
      exact ⟨_, decodePubkey_eq_ok_iff.mpr hkey, rfl⟩

section Tail

variable {p : TcpScheme} {addr tail rest pubkey : Bytes}

/-- The protocol decides whether a key is expected. -/
theorem parseKey_eq_ok_iff_tailText :
    parseKey addr p.qr (p.protocol == .tcpCurve) = .ok (pubkey, rest) ↔
      TailText p addr pubkey ∧ rest = [] := by
  have hproto : p.protocol = .tcp ∨ p.protocol = .tcpCurve := by cases p <;> decide
  rcases hproto with hp | hp
  · rw [hp, parseKey, if_neg (by decide)]
    split
    case isTrue hnil =>
      obtain rfl := List.isEmpty_iff.mp hnil
      constructor
      · intro h
        obtain ⟨rfl, rfl⟩ := Prod.mk.inj (Except.ok.inj h)
        exact ⟨.plain hp, rfl⟩
      · rintro ⟨ht, rfl⟩
        cases ht
        rfl
    case isFalse hnil =>
      refine iff_of_false nofun ?_
      rintro ⟨ht, -⟩
      cases ht with
      | plain => exact hnil rfl
      | key hc => rw [hp] at hc; cases hc
  · rw [hp, show (Proto.tcpCurve == Proto.tcpCurve) = true from rfl, parseKey_eq_ok_iff]
    constructor
    · rintro ⟨t, rfl, hkey, rfl⟩
      exact ⟨.key hp hkey, rfl⟩
    · rintro ⟨ht, rfl⟩
      cases ht with
      | plain hc => rw [hp] at hc; cases hc
      | key _ hkey => exact ⟨_, rfl, hkey, rfl⟩

theorem TailText.head_not_digit (h : TailText p tail pubkey) :
    ∀ c ∈ tail.head?, ¬ Decimal.IsDigit c := by
  cases h with
  | plain => simp
  | key =>
    intro c hc
    obtain rfl := Option.some.inj hc
    decide

end Tail

theorem parseTcp_eq_ok_iff {p : TcpScheme} {addr host pubkey rest : Bytes} {port : UInt16}
    (hqr : p.qr = true → ∀ c ∈ addr, Address.isQrChar c = true) :
    parseTcp addr p.qr (p.protocol == .tcpCurve) = .ok ((host, port, pubkey), rest) ↔
      rest = [] ∧ TcpText p addr { protocol := p.protocol, host, port, pubkey } := by
  constructor
  · intro h
    obtain ⟨⟨host, u⟩, hhost, h⟩ := bind_eq_ok_iff.mp h
    obtain ⟨⟨port, v⟩, hport, h⟩ := bind_eq_ok_iff.mp h
    obtain ⟨⟨pubkey, w⟩, hkey, h⟩ := bind_eq_ok_iff.mp h
    cases h
    obtain ⟨t, rfl, ht⟩ := hostText_of_parseHost hqr hhost
    obtain ⟨digits, rfl, hdigits, hne, hmin, hmax, rfl⟩ := exists_digits_of_parsePort hport
    obtain ⟨htail, rfl⟩ := parseKey_eq_ok_iff_tailText.mp hkey
    exact ⟨rfl, .mk ht hne hdigits hmin hmax htail hqr⟩
  · rintro ⟨rfl, ht⟩
    generalize ha : ({ protocol := p.protocol, host, port, pubkey } : Address) = a at ht
    cases ht with
    | @mk t _ digits tail _ ht hne hdigits hmin hmax htail hqr =>
      obtain ⟨-, rfl, rfl, -, rfl⟩ := Address.mk.inj ha
      have hhost := ht.parseHost_eq (u := digits ++ tail) fun h c hc =>
        hqr h c (List.mem_append_left _ hc)
      have hport := (parsePort_cons_eq_ok_iff hdigits htail.head_not_digit).mpr
        ⟨hne, hmin, hmax, rfl, rfl⟩
      have hkey := parseKey_eq_ok_iff_tailText.mpr ⟨htail, rfl⟩
      exact bind_eq_ok_iff.mpr ⟨_, hhost, bind_eq_ok_iff.mpr ⟨_, hport,
        bind_eq_ok_iff.mpr ⟨_, hkey, rfl⟩⟩⟩

theorem TcpText.ne_nil {p : TcpScheme} {rest : Bytes} {a : Address} (h : TcpText p rest a) :
    rest ≠ [] := by
  cases h
  simp

/-- The protocol ends at the first `://`. -/
theorem find_append {pro : Bytes} (h : ':'.toUInt8 ∉ pro) (rest : Bytes) :
    find (bytes "://") (pro ++ bytes "://" ++ rest) = some pro.length := by
  induction pro with
  | nil => rfl
  | cons c pro ih =>
    have hc : (':'.toUInt8 == c) = false := beq_eq_false_iff_ne.mpr (List.ne_of_not_mem_cons h)
    have hpre : (bytes "://").isPrefixOf (c :: (pro ++ bytes "://" ++ rest)) = false := by
      change (':'.toUInt8 == c && _) = false
      rw [hc, Bool.false_and]
    rw [List.cons_append, List.cons_append, find, hpre, if_neg (by decide),
      ih (List.not_mem_of_not_mem_cons h)]
    rfl

namespace Address

theorem parse_append {pro rest : Bytes} {protocol : Proto} {qr : Bool} (hpro : ':'.toUInt8 ∉ pro)
    (hp : protocolOf pro = .ok (protocol, qr)) :
    parse (pro ++ bytes "://" ++ rest) =
      if rest.isEmpty then
        .error (.invalidArgument "Invalid address: no value specified after protocol")
      else parseRest protocol qr rest := by
  have hlen : (pro ++ bytes "://").length = pro.length + 3 := by rw [List.length_append]; rfl
  cases pro with
  | nil => cases hp
  | cons c pro =>
    rw [parse, find_append hpro]
    simp only [List.length_cons] at hlen ⊢
    rw [List.drop_left' hlen, List.append_assoc, ← List.length_cons (a := c), List.take_left, hp]
    rfl

theorem protocolOf_text (p : TcpScheme) : protocolOf p.text = .ok (p.protocol, p.qr) := by
  cases p <;> decide +kernel

theorem parseRest_eq_bind (p : TcpScheme) (rest : Bytes) :
    parseRest p.protocol p.qr rest =
      if p.qr ∧ ¬ rest.all isQrChar then
        .error (.invalidArgument
          "Found non-QR-alphanumeric value in QR TCP:// or CURVE:// address")
      else parseTcp rest p.qr (p.protocol == .tcpCurve) >>= fun r =>
        if r.2.isEmpty then
          .ok { protocol := p.protocol, host := r.1.1, port := r.1.2.1, pubkey := r.1.2.2 }
        else .error (.invalidArgument
          ("Invalid trailing garbage '" ++ bytesText r.2 ++ "' in address")) := by
  cases p <;> rfl

theorem parseRest_eq_ok_iff (p : TcpScheme) (rest : Bytes) (a : Address) :
    parseRest p.protocol p.qr rest = .ok a ↔ TcpText p rest a := by
  rw [parseRest_eq_bind]
  by_cases hchar : p.qr = true ∧ ¬ rest.all isQrChar = true
  · rw [if_pos hchar]
    refine iff_of_false nofun fun h => ?_
    cases h with
    | mk _ _ _ _ _ _ hqr => exact hchar.2 (List.all_eq_true.mpr (hqr hchar.1))
  · have hqr : p.qr = true → ∀ c ∈ rest, isQrChar c = true := fun h =>
      List.all_eq_true.mp (not_not.mp fun hall => hchar ⟨h, hall⟩)
    rw [if_neg hchar, bind_eq_ok_iff]
    constructor
    · rintro ⟨⟨⟨host, port, pubkey⟩, u⟩, hparse, h⟩
      obtain ⟨rfl, htext⟩ := (parseTcp_eq_ok_iff hqr).mp hparse
      obtain rfl := Except.ok.inj h
      exact htext
    · intro h
      have hshape : a =
          { protocol := p.protocol, host := a.host, port := a.port, pubkey := a.pubkey } := by
        cases h
        rfl
      rw [hshape] at h
      exact ⟨_, (parseTcp_eq_ok_iff hqr).mpr ⟨rfl, h⟩, congrArg Except.ok hshape.symm⟩

theorem parse_of_tcpText {p : TcpScheme} {rest : Bytes} {a : Address} (h : TcpText p rest a) :
    parse (p.text ++ bytes "://" ++ rest) = .ok a := by
  rw [parse_append (by cases p <;> decide) (protocolOf_text p), if_neg (by simpa using h.ne_nil)]
  exact (parseRest_eq_ok_iff p rest a).mpr h

/-- A TCP address is accepted if and only if it is in the grammar, and its parts
are the ones that it denotes. -/
theorem parse_eq_ok_iff (p : TcpScheme) (rest : Bytes) (a : Address) :
    parse (p.text ++ bytes "://" ++ rest) = .ok a ↔ TcpText p rest a := by
  refine ⟨fun h => ?_, parse_of_tcpText⟩
  rw [parse_append (by cases p <;> decide) (protocolOf_text p)] at h
  split at h
  · cases h
  · exact (parseRest_eq_ok_iff p rest a).mp h

end Address

end ArqmaMQ
