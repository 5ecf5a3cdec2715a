import ArqmaMQ.AddressParse

/-! How the address constructor can fail: with the documented exception, or with
that of `std::stoi` for a port that is no `int`. -/

namespace ArqmaMQ

theorem exists_of_find {needle s : Bytes} {n : Nat} (h : find needle s = some n) :
    ∃ t u, s = t ++ needle ++ u ∧ t.length = n := by
  induction s generalizing n with
  | nil =>
    rw [find] at h
    split at h
    case isTrue hnil =>
      obtain rfl := List.isEmpty_iff.mp hnil
      exact ⟨[], [], rfl, Option.some.inj h⟩
    case isFalse => cases h
  | cons c s ih =>
    rw [find] at h
    split at h
    case isTrue hpre =>
      obtain ⟨u, hu⟩ := List.isPrefixOf_iff_prefix.mp hpre
      exact ⟨[], u, hu.symm, Option.some.inj h⟩
    case isFalse =>
      obtain ⟨m, hm, rfl⟩ := Option.map_eq_some_iff.mp h
      obtain ⟨t, u, rfl, rfl⟩ := ih hm
      exact ⟨c :: t, u, rfl, rfl⟩

namespace Address

inductive Scheme : Bytes → Proto → Bool → Prop
  | tcp (p : TcpScheme) : Scheme p.text p.protocol p.qr
  | ipc : Scheme (bytes "ipc") .ipc false
  | ipcCurve : Scheme (bytes "ipc+curve") .ipcCurve false

theorem protocolOf_cases (pro : Bytes) :
    (∃ what, protocolOf pro = .error (.invalidArgument what)) ∨
      ∃ protocol qr, protocolOf pro = .ok (protocol, qr) ∧ Scheme pro protocol qr := by
  rw [protocolOf]
  split
  case isTrue h => exact .inr ⟨_, _, rfl, h ▸ .tcp .tcp⟩
  split
  case isTrue h =>
    rcases h with h | h
    · exact .inr ⟨_, _, rfl, h ▸ .tcp .tcpCurve⟩
    · exact .inr ⟨_, _, rfl, h ▸ .tcp .curve⟩
  split
  case isTrue h => exact .inr ⟨_, _, rfl, h ▸ .ipc⟩
  split
  case isTrue h => exact .inr ⟨_, _, rfl, h ▸ .ipcCurve⟩
  split
  case isTrue h => exact .inr ⟨_, _, rfl, h ▸ .tcp .qrTcp⟩
  split
  case isTrue h => exact .inr ⟨_, _, rfl, h ▸ .tcp .qrCurve⟩
  case isFalse => exact .inl ⟨_, rfl⟩

/-- The constructor rejects the protocol, or parses what follows it. -/
theorem parse_cases (s : Bytes) : (∃ what, parse s = .error (.invalidArgument what)) ∨
    ∃ pro rest protocol qr, s = pro ++ bytes "://" ++ rest ∧ rest ≠ [] ∧
      Scheme pro protocol qr ∧ parse s = parseRest protocol qr rest := by
  rw [parse]
  cases hfind : find (bytes "://") s with
  | none => exact .inl ⟨_, rfl⟩
  | some n =>
    obtain ⟨pro, rest, rfl, rfl⟩ := exists_of_find hfind
    cases pro with
    | nil => exact .inl ⟨_, rfl⟩
    | cons c pro =>
      have hlen : (c :: pro ++ bytes "://").length = pro.length + 1 + 3 := by
        rw [List.length_append]
        rfl
      dsimp only
      simp only [List.length_cons]
      rw [List.drop_left' hlen, List.append_assoc, ← List.length_cons (a := c), List.take_left]
      split
      · exact .inl ⟨_, rfl⟩
      case isFalse hne =>
        rcases protocolOf_cases (c :: pro) with ⟨what, herr⟩ | ⟨protocol, qr, hok, hscheme⟩
        · rw [herr]
          exact .inl ⟨what, rfl⟩
        · rw [hok]
          exact .inr ⟨_, rest, protocol, qr, (List.append_assoc _ _ _).symm, by simpa using hne,
            hscheme, rfl⟩

end Address

/-- There is a result, or `std::invalid_argument` is thrown. -/
def Documented {α : Type} : Except AddressError α → Prop
  | .ok _ => True
  | .error (.invalidArgument _) => True
  | .error _ => False

theorem Documented.bind {α β : Type} {x : Except AddressError α} {f : α → Except AddressError β}
    (hx : Documented x) (hf : ∀ a, x = .ok a → Documented (f a)) : Documented (x >>= f) := by
  cases x with
  | ok a => exact hf a rfl
  | error e =>
    cases e with
    | invalidArgument what => trivial
    | outOfRange what => exact hx.elim
    | undefined => exact hx.elim

section Parts

variable {addr digits rest : Bytes} {qr : Bool}

theorem documented_parseHost (hne : addr ≠ []) : Documented (parseHost addr qr) := by
  refine Documented.bind ?_ fun _ _ => trivial
  cases addr with
  | nil => exact (hne rfl).elim
  | cons c s =>
    rw [parseHostText]
    split
    · rw [parseBracketed]
      split
      · trivial
      · dsimp only
        split <;> trivial
    · rw [parseName]
      split <;> trivial

theorem documented_decodePubkey (s : Bytes) (qr : Bool) : Documented (decodePubkey s qr) := by
  rw [decodePubkey]
  split
  · trivial
  split
  · trivial
  split <;> trivial

theorem documented_parseKey (expectPubkey : Bool) : Documented (parseKey addr qr expectPubkey) := by
  rw [parseKey]
  generalize encLength (if qr = true then .base32z else .base64) = need
  split
  · split
    · trivial
    · refine (documented_decodePubkey _ _).bind fun r _ => ?_
      dsimp only
      split <;> trivial
  · split <;> trivial

theorem documented_parseUnix (expectPubkey : Bool) : Documented (parseUnix addr expectPubkey) := by
  rw [parseUnix]
  split
  · split
    · trivial
    split
    · trivial
    split <;> trivial
  · trivial

/-- Digits behind a colon that are too large for an `int`. -/
structure Huge (addr digits rest : Bytes) : Prop where
  eq : addr = ':'.toUInt8 :: (digits ++ rest)
  isDigit : ∀ c ∈ digits, Decimal.IsDigit c
  ends : ∀ c ∈ rest.head?, ¬ Decimal.IsDigit c
  huge : 2 ^ 31 ≤ Decimal.valueFrom 0 digits

theorem Huge.parsePort_eq (h : Huge addr digits rest) :
    parsePort addr = .error (.outOfRange "stoi") := by
  have hne : digits ≠ [] := by
    rintro rfl
    exact absurd h.huge (by decide)
  rw [h.eq, parsePort_cons hne h.isDigit h.ends, if_pos h.huge]

theorem documented_parsePort (hno : ∀ digits rest, ¬ Huge addr digits rest) :
    Documented (parsePort addr) := by
  by_cases hcolon : addr.head? = some ':'.toUInt8
  · obtain ⟨s, rfl⟩ := List.head?_eq_some_iff.mp hcolon
    obtain ⟨digits, u, rfl, hdigits, hu⟩ := Decimal.exists_digits s
    by_cases hne : digits = []
    · subst hne
      obtain ⟨what, herr⟩ := parsePort_cons_of_nil hu
      rw [List.nil_append, herr]
      trivial
    · rw [parsePort_cons hne hdigits hu, if_neg fun hle => hno digits u ⟨rfl, hdigits, hu, hle⟩]
      split
      · trivial
      split <;> trivial
  · obtain ⟨what, herr⟩ := parsePort_of_no_colon hcolon
    rw [herr]
    trivial

end Parts

namespace Address

/-- A TCP address whose port is too large for an `int`, whatever follows it. -/
def HasHugePort (s : Bytes) : Prop :=
  ∃ (p : TcpScheme) (t host addr digits rest : Bytes), s = p.text ++ bytes "://" ++ (t ++ addr) ∧
    HostText p.qr t host ∧ Huge addr digits rest ∧
    (p.qr = true → ∀ c ∈ t ++ addr, isQrChar c = true)

theorem parse_of_hasHugePort {s : Bytes} (h : HasHugePort s) :
    parse s = .error (.outOfRange "stoi") := by
  obtain ⟨p, t, host, addr, digits, rest, rfl, hhost, hhuge, hqr⟩ := h
  have hne : ¬ (t ++ addr).isEmpty = true := by simp [hhuge.eq]
  have hchars : ¬ (p.qr = true ∧ ¬ (t ++ addr).all isQrChar = true) := fun hh =>
    hh.2 (List.all_eq_true.mpr (hqr hh.1))
  have hparse : parseHost (t ++ addr) p.qr = .ok (host, addr) := by
    rw [hhuge.eq] at hqr ⊢
    exact hhost.parseHost_eq fun hp c hc => hqr hp c (List.mem_append_left _ hc)
  rw [parse_append (by cases p <;> decide) (protocolOf_text p), if_neg hne, parseRest_eq_bind,
    if_neg hchars, parseTcp, hparse]
  change (parsePort addr >>= _) >>= _ = _
  rw [hhuge.parsePort_eq]
  rfl

/-- The constructor fails as documented, except for a port that is no `int`. -/
theorem documented_iff_not_hasHugePort (s : Bytes) :
    Documented (parse s) ↔ ¬ HasHugePort s := by
  constructor
  · intro h hhuge
    rw [parse_of_hasHugePort hhuge] at h
    exact h
  · intro hno
    rcases parse_cases s with ⟨what, herr⟩ | ⟨pro, rest, protocol, qr, rfl, hne, hscheme, hrest⟩
    · rw [herr]
      trivial
    rw [hrest]
    cases hscheme with
    | tcp p =>
      rw [parseRest_eq_bind]
      split
      case isTrue => trivial
      case isFalse hchars =>
        have hqr : p.qr = true → ∀ c ∈ rest, isQrChar c = true := fun hp =>
          List.all_eq_true.mp (not_not.mp fun hall => hchars ⟨hp, hall⟩)
        refine Documented.bind ?_ fun r _ => by split <;> trivial
        refine (documented_parseHost hne).bind fun ⟨host, addr⟩ hhost => ?_
        obtain ⟨t, rfl, ht⟩ := hostText_of_parseHost hqr hhost
        refine Documented.bind (documented_parsePort fun digits u hhuge => ?_) fun r _ => ?_
        · exact hno ⟨p, t, host, addr, digits, u, rfl, ht, hhuge, hqr⟩
        · exact (documented_parseKey _).bind fun _ _ => trivial
    | ipc => exact (documented_parseUnix _).bind fun _ _ => trivial
    | ipcCurve => exact (documented_parseUnix _).bind fun _ _ => trivial

theorem parse_out_of_range : parse (bytes "tcp://localhost:2147483648") =
    .error (.outOfRange "stoi") := by decide +kernel

end Address

end ArqmaMQ
