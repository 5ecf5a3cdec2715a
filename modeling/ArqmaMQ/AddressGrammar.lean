import ArqmaMQ.AddressKey

/-! The grammar of `tcp` and `curve` addresses, with what each text denotes, and
the parser of hosts. -/

namespace ArqmaMQ

def openBracket (qr : Bool) : UInt8 := if qr then '$'.toUInt8 else '['.toUInt8

def closeBracket (qr : Bool) : UInt8 := if qr then '$'.toUInt8 else ']'.toUInt8

/-- The QR forms are in upper case. -/
def denotedHost (qr : Bool) (t : Bytes) : Bytes := if qr then t.map toLower else t

/-- Host texts. -/
inductive HostText (qr : Bool) : Bytes → Bytes → Prop
  | bracketed {run : Bytes} (hrun : ∀ c ∈ run, c ∈ bytes ":.0123456789abcdefABCDEF") :
      HostText qr (openBracket qr :: (run ++ [closeBracket qr]))
        ('['.toUInt8 :: (denotedHost qr run ++ [']'.toUInt8]))
  | name {t : Bytes} (hne : t ≠ []) (hcolon : ':'.toUInt8 ∉ t)
      (hopen : t.head? ≠ some (openBracket qr)) : HostText qr t (denotedHost qr t)

/-- The protocols of TCP addresses. -/
inductive TcpScheme
  | tcp
  | curve
  | tcpCurve
  | qrTcp
  | qrCurve
  deriving DecidableEq, Repr

namespace TcpScheme

def text : TcpScheme → Bytes
  | tcp => bytes "tcp"
  | curve => bytes "curve"
  | tcpCurve => bytes "tcp+curve"
  | qrTcp => bytes "TCP"
  | qrCurve => bytes "CURVE"

def qr : TcpScheme → Bool
  | qrTcp | qrCurve => true
  | _ => false

def protocol : TcpScheme → Proto
  | tcp | qrTcp => .tcp
  | _ => .tcpCurve

end TcpScheme

/-- What follows the port. -/
inductive TailText (p : TcpScheme) : Bytes → Bytes → Prop
  | plain (hp : p.protocol = .tcp) : TailText p [] []
  | key {t key : Bytes} (hp : p.protocol = .tcpCurve) (hkey : KeyText p.qr t key) :
      TailText p ('/'.toUInt8 :: t) key

/-- `HOST:DIGITS` and the tail, with the address they denote. -/
inductive TcpText (p : TcpScheme) : Bytes → Address → Prop
  | mk {t host digits tail pubkey : Bytes} (hhost : HostText p.qr t host)
      (hne : digits ≠ []) (hdigits : ∀ c ∈ digits, Decimal.IsDigit c)
      (hmin : 1 ≤ Decimal.valueFrom 0 digits) (hmax : Decimal.valueFrom 0 digits ≤ 65535)
      (htail : TailText p tail pubkey)
      (hqr : p.qr = true → ∀ c ∈ t ++ ':'.toUInt8 :: (digits ++ tail),
        Address.isQrChar c = true) :
      TcpText p (t ++ ':'.toUInt8 :: (digits ++ tail))
        { protocol := p.protocol, host := host,
          port := UInt16.ofNat (Decimal.valueFrom 0 digits), pubkey := pubkey }

theorem bind_eq_ok_iff {ε α β : Type} {x : Except ε α} {f : α → Except ε β} {b : β} :
    x >>= f = .ok b ↔ ∃ a, x = .ok a ∧ f a = .ok b := by
  cases x with
  | error e => exact ⟨nofun, fun ⟨_, h, _⟩ => nomatch h⟩
  | ok a => exact ⟨fun h => ⟨a, rfl, h⟩, fun ⟨_, h, hf⟩ => by cases h; exact hf⟩

/-- A list up to the first element that fails a test. -/
theorem forall_mem_or_eq_append {α : Type} (p : α → Prop) (l : List α) :
    (∀ x ∈ l, p x) ∨ ∃ a x b, l = a ++ x :: b ∧ (∀ y ∈ a, p y) ∧ ¬ p x := by
  induction l with
  | nil => exact .inl (by simp)
  | cons x l ih =>
    by_cases hx : p x
    · rcases ih with h | ⟨a, y, b, rfl, ha, hy⟩
      · exact .inl (List.forall_mem_cons.mpr ⟨hx, h⟩)
      · exact .inr ⟨x :: a, y, b, rfl, List.forall_mem_cons.mpr ⟨hx, ha⟩, hy⟩
    · exact .inr ⟨[], x, l, rfl, by simp, hx⟩

theorem findIdx?_append_cons {α : Type} {p : α → Bool} {a b : List α} {x : α}
    (ha : ∀ y ∈ a, p y = false) (hx : p x = true) :
    (a ++ x :: b).findIdx? p = some a.length := by
  rw [List.findIdx?_append, List.findIdx?_eq_none_iff.mpr ha, List.findIdx?_cons, if_pos hx]
  simp

section

variable {set run u : Bytes} {c : UInt8} (pre : Bytes)

theorem findFirstNotOf_append_cons (hrun : ∀ y ∈ run, y ∈ set) (hc : c ∉ set) :
    findFirstNotOf set (pre ++ (run ++ c :: u)) pre.length = some (pre.length + run.length) := by
  rw [findFirstNotOf, List.drop_left,
    findIdx?_append_cons (by simpa using hrun) (by simpa using hc)]
  rfl

theorem findFirstNotOf_eq_none (hrun : ∀ y ∈ run, y ∈ set) :
    findFirstNotOf set (pre ++ run) pre.length = none := by
  rw [findFirstNotOf, List.drop_left, List.findIdx?_eq_none_iff.mpr (by simpa using hrun)]
  rfl

end

theorem replaceDollars_eq (a b : UInt8) (run : Bytes) :
    replaceDollars (a :: (run ++ [b])) =
      (if a = '$'.toUInt8 then '['.toUInt8 else a) ::
        (run ++ [if b = '$'.toUInt8 then ']'.toUInt8 else b]) := by
  have hlast (x : UInt8) : (x :: (run ++ [b])).getLast? = some b := by
    rw [← List.cons_append, List.getLast?_concat]
  have hinit (x : UInt8) : (x :: (run ++ [b])).dropLast = x :: run := by
    rw [← List.cons_append, List.dropLast_concat]
  rw [replaceDollars, List.head?_cons, List.tail_cons]
  simp only [Option.some.injEq]
  split <;> rw [hlast, hinit] <;> simp only [Option.some.injEq] <;> split <;> rfl

section Host

variable {qr : Bool} {addr t u host rest run : Bytes} {c close : UInt8}

theorem parseBracketed_append (hrun : ∀ y ∈ run, y ∈ ipv6Chars) (hclose : close ∉ ipv6Chars) :
    parseBracketed (c :: (run ++ close :: u)) qr =
      if close = ']'.toUInt8 ∨ (qr ∧ close = '$'.toUInt8) then
        .ok (if qr then replaceDollars (c :: (run ++ [close])) else c :: (run ++ [close]), u)
      else
        .error (.invalidArgument ("Expected " ++ (if qr then "$" else "]") ++
          " to close IPv6 address but found " ++ bytesText [close])) := by
  have hpos : findFirstNotOf ipv6Chars (c :: (run ++ close :: u)) 1 = some (1 + run.length) :=
    findFirstNotOf_append_cons [c] hrun hclose
  have hsplit : c :: (run ++ close :: u) = (c :: (run ++ [close])) ++ u := by simp
  have hlen : (c :: (run ++ [close])).length = 1 + run.length + 1 := by simp; omega
  have hget : (c :: (run ++ close :: u)).getD (1 + run.length) 0 = close := by
    rw [Nat.add_comm]
    simp [List.getD]
  rw [parseBracketed, hpos]
  dsimp only
  rw [hget, hsplit, List.take_left' hlen, List.drop_left' hlen]

theorem openBracket_of_bracketed (hqr : qr = true → Address.isQrChar c = true) :
    (c = '['.toUInt8 ∨ (qr ∧ c = '$'.toUInt8)) ↔ c = openBracket qr := by
  cases qr with
  | false => simp [openBracket]
  | true =>
    have hne : c ≠ '['.toUInt8 := fun h => by subst h; exact absurd (hqr rfl) (by decide)
    simp [openBracket, hne]

theorem closeBracket_of_bracketed (hqr : qr = true → Address.isQrChar c = true) :
    (c = ']'.toUInt8 ∨ (qr ∧ c = '$'.toUInt8)) ↔ c = closeBracket qr := by
  cases qr with
  | false => simp [closeBracket]
  | true =>
    have hne : c ≠ ']'.toUInt8 := fun h => by subst h; exact absurd (hqr rfl) (by decide)
    simp [closeBracket, hne]

theorem mem_ipv6Chars_iff : c ∈ bytes ":.0123456789abcdefABCDEF" ↔ c ∈ ipv6Chars := by
  have hsub : (∀ c ∈ bytes ":.0123456789abcdefABCDEF", c ∈ ipv6Chars) ∧
      ∀ c ∈ ipv6Chars, c ∈ bytes ":.0123456789abcdefABCDEF" := by decide +kernel
  exact ⟨hsub.1 c, hsub.2 c⟩

theorem parseName_eq_ok_iff :
    parseName addr = .ok (host, rest) ↔
      addr = host ++ rest ∧ host ≠ [] ∧ ':'.toUInt8 ∉ host ∧ rest.head? = some ':'.toUInt8 := by
  constructor
  · intro h
    rw [parseName] at h
    rcases forall_mem_or_eq_append (· ≠ ':'.toUInt8) addr with hall | ⟨t, x, u, rfl, ht, hx⟩
    · rw [List.findIdx?_eq_none_iff.mpr (by simpa using hall)] at h
      cases h
    · rw [findIdx?_append_cons (by simpa using ht) (by simpa using hx)] at h
      cases t with
      | nil => cases h
      | cons c t =>
        simp only [List.length_cons] at h
        obtain ⟨rfl, rfl⟩ := Prod.mk.inj (Except.ok.inj h)
        rw [← List.length_cons (a := c), List.take_left, List.drop_left]
        exact ⟨rfl, by simp, fun hc => ht _ hc rfl, by simpa using hx⟩
  · rintro ⟨rfl, hne, hcolon, hrest⟩
    obtain ⟨u, rfl⟩ : ∃ u, rest = ':'.toUInt8 :: u := by
      cases rest with
      | nil => cases hrest
      | cons x u => exact ⟨u, by rw [Option.some.inj hrest]⟩
    have hne' : ∀ y ∈ host, decide (y = ':'.toUInt8) = false := by
      intro y hy
      exact decide_eq_false fun he => hcolon (he ▸ hy)
    rw [parseName, findIdx?_append_cons hne' (decide_eq_true rfl)]
    cases host with
    | nil => exact (hne rfl).elim
    | cons c t =>
      simp only [List.length_cons]
      rw [← List.length_cons (a := c), List.take_left, List.drop_left]

theorem parseHost_eq_bind (addr : Bytes) (qr : Bool) : parseHost addr qr =
    parseHostText addr qr >>= fun p => .ok (denotedHost qr p.1, p.2) := rfl

/-- What a host in brackets is returned as. -/
theorem denotedHost_bracketed (qr : Bool) (run : Bytes) :
    denotedHost qr (if qr then replaceDollars (openBracket qr :: (run ++ [closeBracket qr]))
        else openBracket qr :: (run ++ [closeBracket qr])) =
      '['.toUInt8 :: (denotedHost qr run ++ [']'.toUInt8]) := by
  cases qr with
  | false => rfl
  | true =>
    rw [if_pos rfl, replaceDollars_eq]
    simp only [openBracket, closeBracket, denotedHost, if_pos, List.map_cons, List.map_append]
    rfl

theorem closeBracket_not_mem (qr : Bool) : closeBracket qr ∉ ipv6Chars := by
  cases qr <;> decide

theorem HostText.parseHost_eq (h : HostText qr t host)
    (hqr : qr = true → ∀ c ∈ t, Address.isQrChar c = true) :
    parseHost (t ++ ':'.toUInt8 :: u) qr = .ok (host, ':'.toUInt8 :: u) := by
  cases h with
  | @bracketed run hrun =>
    have hopen := openBracket_of_bracketed fun h => hqr h _ List.mem_cons_self
    have hclose := closeBracket_of_bracketed (c := closeBracket qr) fun h => hqr h _ (by simp)
    rw [List.cons_append, List.append_assoc, List.singleton_append, parseHost_eq_bind,
      parseHostText, if_pos (hopen.mpr rfl),
      parseBracketed_append (fun y hy => mem_ipv6Chars_iff.mp (hrun y hy))
        (closeBracket_not_mem qr), if_pos (hclose.mpr rfl)]
    exact congrArg (fun host => Except.ok (host, _)) (denotedHost_bracketed qr run)
  | name hne hcolon hopen =>
    cases t with
    | nil => exact (hne rfl).elim
    | cons c t =>
      have hc := openBracket_of_bracketed fun h => hqr h c List.mem_cons_self
      rw [List.cons_append, parseHost_eq_bind, parseHostText,
        if_neg fun h => hopen (congrArg some (hc.mp h)), ← List.cons_append,
        parseName_eq_ok_iff.mpr ⟨rfl, hne, hcolon, rfl⟩]
      rfl

theorem hostText_of_parseHost (hqr : qr = true → ∀ c ∈ addr, Address.isQrChar c = true)
    (h : parseHost addr qr = .ok (host, rest)) : ∃ t, addr = t ++ rest ∧ HostText qr t host := by
  cases addr with
  | nil => cases h
  | cons c s =>
    rw [parseHost_eq_bind] at h
    obtain ⟨⟨t, u⟩, ht, h⟩ := bind_eq_ok_iff.mp h
    obtain ⟨rfl, rfl⟩ := Prod.mk.inj (Except.ok.inj h)
    simp only [parseHostText, openBracket_of_bracketed fun h => hqr h c List.mem_cons_self] at ht
    split at ht
    case isTrue hc =>
      rcases forall_mem_or_eq_append (· ∈ ipv6Chars) s with hall | ⟨run, x, v, rfl, hrun, hx⟩
      · rw [parseBracketed, show findFirstNotOf ipv6Chars (c :: s) 1 = none from
          findFirstNotOf_eq_none [c] hall] at ht
        cases ht
      · simp only [parseBracketed_append hrun hx,
          closeBracket_of_bracketed fun h => hqr h x (by simp)] at ht
        split at ht
        case isTrue hx =>
          obtain ⟨rfl, rfl⟩ := Prod.mk.inj (Except.ok.inj ht)
          subst hc hx
          refine ⟨openBracket qr :: (run ++ [closeBracket qr]), by simp, ?_⟩
          rw [denotedHost_bracketed]
          exact .bracketed fun y hy => mem_ipv6Chars_iff.mpr (hrun y hy)
        case isFalse => cases ht
    case isFalse hc =>
      obtain ⟨hs, hne, hcolon, -⟩ := parseName_eq_ok_iff.mp ht
      refine ⟨t, hs, .name hne hcolon fun hhead => hc ?_⟩
      rw [← List.head?_append_of_ne_nil _ hne, ← hs] at hhead
      exact Option.some.inj hhead

end Host

end ArqmaMQ
