import ArqmaMQ.AddressErrors
import ArqmaMQ.Decoding
import ArqmaMQ.Transition

/-! The public key of an address against its protocol: when an address is parsed,
and when the key is replaced. -/

namespace ArqmaMQ

section Unix

variable {addr path key text : Bytes} {n : Nat}

theorem eq_append_of_slashBefore (h : slashBefore addr n = some (path, text)) :
    addr = path ++ '/'.toUInt8 :: text ∧ text.length = n := by
  rw [slashBefore] at h
  split at h
  case isFalse => cases h
  case isTrue hn =>
    obtain ⟨rfl, rfl⟩ := Prod.mk.inj (Option.some.inj h)
    obtain ⟨hlt, hget⟩ := List.getElem?_eq_some_iff.mp hn.2
    have hdrop : addr.drop (addr.length - n - 1) =
        '/'.toUInt8 :: addr.drop (addr.length - n) := by
      rw [List.drop_eq_getElem_cons hlt, hget, Nat.sub_add_cancel (by omega)]
    constructor
    · rw [← hdrop, List.take_append_drop]
    · rw [List.length_drop]
      omega

theorem exists_text_of_filter {p : Bytes → Bool} {r : Bytes × Bytes}
    (h : (slashBefore addr n).filter (p ·.2) = some r) :
    addr = r.1 ++ '/'.toUInt8 :: r.2 ∧ r.2.length = n ∧ p r.2 = true := by
  obtain ⟨hslash, hp⟩ := Option.filter_eq_some_iff.mp h
  obtain ⟨heq, hlen⟩ := eq_append_of_slashBefore hslash
  exact ⟨heq, hlen, hp⟩

theorem parseUnix_cases (h : parseUnix addr true = .ok (path, key)) :
    ∃ text, addr = path ++ '/'.toUInt8 :: text ∧
      ((text.length = 64 ∧ isHex text = true ∧ key = fromHex text) ∨
        (text.length = 52 ∧ isBase32z text = true ∧ key = fromBase32z text) ∨
        (text.length = b64Len addr ∧ isBase64 text = true ∧ key = fromBase64 text)) := by
  rw [parseUnix, if_pos rfl] at h
  split at h
  case h_1 path' text heq =>
    obtain ⟨rfl, rfl⟩ := Prod.mk.inj (Except.ok.inj h)
    obtain ⟨haddr, hlen, hp⟩ := exists_text_of_filter heq
    exact ⟨text, haddr, .inl ⟨hlen, hp, rfl⟩⟩
  split at h
  case h_1 path' text heq =>
    obtain ⟨rfl, rfl⟩ := Prod.mk.inj (Except.ok.inj h)
    obtain ⟨haddr, hlen, hp⟩ := exists_text_of_filter heq
    exact ⟨text, haddr, .inr (.inl ⟨hlen, hp, rfl⟩)⟩
  split at h
  case h_1 path' text heq =>
    obtain ⟨rfl, rfl⟩ := Prod.mk.inj (Except.ok.inj h)
    obtain ⟨haddr, hlen, hp⟩ := exists_text_of_filter heq
    exact ⟨text, haddr, .inr (.inr ⟨hlen, hp, rfl⟩)⟩
  case h_2 => cases h

/-- A text of 44 characters is taken for 43 digits and a padding character, but it
can have two of these. -/
theorem length_fromBase64_text (hlen : text.length = b64Len text) (h : isBase64 text = true) :
    (fromBase64 text).length = if bytes "==" <:+ text then 31 else 32 := by
  obtain ⟨t, z, hz, ht, rfl⟩ := exists_padding h
  have hdigits : (b64Digits (t ++ List.replicate z '='.toUInt8)).length = t.length := by
    rw [b64Digits, List.length_map, filter_padding ht]
  have hnot : '='.toUInt8 ∉ t := fun hmem =>
    absurd (List.all_eq_true.mp ht _ hmem) (by decide +kernel)
  rw [length_fromBase64, hdigits]
  rw [List.length_append, List.length_replicate, b64Len] at hlen
  -- no padding, one padding character, or two, which leave room for 42 digits only
  interval_cases z
  · rw [List.replicate_zero, List.append_nil] at hlen ⊢
    rw [if_neg fun hlast => hnot (List.mem_of_getLast? hlast)] at hlen
    rw [if_neg fun hsuf => hnot (hsuf.subset (by decide))]
    omega
  · rw [List.replicate_one] at hlen ⊢
    rw [List.getLast?_concat, if_pos rfl] at hlen
    have hone : ¬ bytes "==" <:+ t ++ ['='.toUInt8] := by
      rintro ⟨u, hu⟩
      have hcut : u ++ ['='.toUInt8] = t :=
        List.append_cancel_right ((List.append_assoc _ _ _).trans hu)
      exact hnot (hcut ▸ by simp)
    rw [if_neg hone]
    omega
  · have hlast : (t ++ List.replicate 2 '='.toUInt8).getLast? = some '='.toUInt8 := by
      rw [List.replicate_succ', ← List.append_assoc, List.getLast?_concat]
    rw [hlast, if_pos rfl] at hlen
    rw [show bytes "==" = List.replicate 2 '='.toUInt8 by decide,
      if_pos (List.suffix_append _ _)]
    omega

theorem not_padded_of_all {q : UInt8 → Bool} (h : text.all q = true)
    (hq : q '='.toUInt8 = false) : ¬ bytes "==" <:+ text := fun hs =>
  Bool.false_ne_true (hq.symm.trans
    (List.all_eq_true.mp h _ (hs.subset (List.mem_cons_self : '='.toUInt8 ∈ bytes "=="))))

theorem length_of_parseUnix (pre : Bytes) (h : parseUnix addr true = .ok (path, key)) :
    key.length = if bytes "==" <:+ pre ++ addr then 31 else 32 := by
  obtain ⟨text, rfl, htext⟩ := parseUnix_cases h
  have hsplit : pre ++ (path ++ '/'.toUInt8 :: text) = (pre ++ path ++ ['/'.toUInt8]) ++ text := by
    simp
  rw [hsplit]
  have hsuffix (hlen : 2 ≤ text.length) :
      bytes "==" <:+ pre ++ path ++ ['/'.toUInt8] ++ text ↔ bytes "==" <:+ text :=
    ⟨fun hs => List.suffix_of_suffix_length_le hs (List.suffix_append _ _) hlen,
      fun hs => hs.trans (List.suffix_append _ _)⟩
  rcases htext with ⟨hlen, hp, rfl⟩ | ⟨hlen, hp, rfl⟩ | ⟨hlen, hp, rfl⟩
  · rw [isHex, Bool.and_eq_true] at hp
    have hnot := not_padded_of_all hp.2 (by decide +kernel)
    rw [if_neg fun hs => hnot ((hsuffix (by omega)).mp hs), length_fromHex, hlen]
  · rw [isBase32z_eq_all] at hp
    have hnot := not_padded_of_all hp (by decide +kernel)
    rw [if_neg fun hs => hnot ((hsuffix (by omega)).mp hs), length_fromBase32z, hlen]
  · have hne : text ≠ [] := by
      rintro rfl
      rw [b64Len] at hlen
      split at hlen <;> cases hlen
    have hb64 : b64Len (path ++ '/'.toUInt8 :: text) = b64Len text := by
      rw [b64Len, List.append_cons, List.getLast?_append_of_ne_nil _ hne, b64Len]
    rw [hb64] at hlen
    have hmin : 2 ≤ text.length := by
      rw [hlen, b64Len]
      split <;> decide
    rw [length_fromBase64_text hlen hp]
    simp only [hsuffix hmin]

end Unix

theorem KeyText.length_key {qr : Bool} {t key : Bytes} (h : KeyText qr t key) :
    key.length = 32 := by
  cases h with
  | hex _ hkey => exact hkey.1
  | base32z _ hkey => exact hkey.1
  | base64 _ _ hkey => exact hkey.1
  | padded _ _ hkey => exact hkey.1

namespace Address

variable {a : Address}

/-- A key of 32 bytes for the `curve` protocols, and none for the others. -/
def KeyInStep (a : Address) : Prop := if a.curve then a.pubkey.length = 32 else a.pubkey = []

instance decidableKeyInStep (a : Address) : Decidable a.KeyInStep :=
  inferInstanceAs (Decidable (if a.curve then a.pubkey.length = 32 else a.pubkey = []))

theorem keyInStep_of_tcpText {p : TcpScheme} {rest : Bytes} (h : TcpText p rest a) :
    a.KeyInStep := by
  cases h with
  | mk _ _ _ _ _ htail _ =>
    cases htail with
    | plain hp => simp [KeyInStep, curve, hp]
    | key hp hkey => simp [KeyInStep, curve, hp, hkey.length_key]

/-- The text of another protocol does not start like that of an `ipc+curve` address. -/
theorem Scheme.not_prefix {pro : Bytes} {protocol : Proto} {qr : Bool}
    (h : Scheme pro protocol qr) (hne : protocol ≠ .ipcCurve) (rest : Bytes) :
    ¬ bytes "ipc+curve://" <+: pro ++ bytes "://" ++ rest := by
  intro hpre
  -- both are the start of one text, and the shorter one is then the start of the other
  have hshort : (pro ++ bytes "://").length ≤ (bytes "ipc+curve://").length →
      pro ++ bytes "://" <+: bytes "ipc+curve://" :=
    List.prefix_of_prefix_length_le (List.prefix_append _ _) hpre
  revert hshort
  cases h with
  | tcp p => cases p <;> decide
  | ipc => decide
  | ipcCurve => exact absurd rfl hne

/-- A parsed address has a full key where its protocol wants one, unless it is that
of a unix socket and its text ends in two padding characters. -/
theorem keyInStep_iff_not_padded (s : Bytes) (a : Address) (h : parse s = .ok a) :
    a.KeyInStep ↔ ¬ (bytes "ipc+curve://" <+: s ∧ bytes "==" <:+ s) := by
  rcases parse_cases s with ⟨what, herr⟩ | ⟨pro, rest, protocol, qr, rfl, hne, hscheme, hrest⟩
  · rw [herr] at h
    cases h
  rw [hrest] at h
  have hother (hp : protocol ≠ .ipcCurve) :
      ¬ (bytes "ipc+curve://" <+: pro ++ bytes "://" ++ rest ∧
        bytes "==" <:+ pro ++ bytes "://" ++ rest) := fun hh => hscheme.not_prefix hp rest hh.1
  cases hscheme with
  | tcp p =>
    have hkey := keyInStep_of_tcpText ((parseRest_eq_ok_iff p rest a).mp h)
    exact iff_of_true hkey (hother (by cases p <;> decide))
  | ipc =>
    obtain rfl := Except.ok.inj h
    exact iff_of_true rfl (hother (by decide))
  | ipcCurve =>
    obtain ⟨⟨socket, key⟩, hunix, hok⟩ := bind_eq_ok_iff.mp h
    obtain rfl := Except.ok.inj hok
    have hlen := length_of_parseUnix (bytes "ipc+curve" ++ bytes "://") hunix
    change key.length = 32 ↔ _
    rw [hlen]
    split
    case isTrue hs =>
      have hpre : bytes "ipc+curve://" <+: bytes "ipc+curve" ++ bytes "://" ++ rest :=
        List.prefix_append _ _
      exact iff_of_false (by decide) fun hh => hh ⟨hpre, hs⟩
    case isFalse hs => exact iff_of_true rfl fun hh => hs hh.2

theorem keyInStep_plain : parse (bytes "ipc:///run/node.sock") =
      .ok { protocol := .ipc, socket := bytes "/run/node.sock" } ∧
    ({ protocol := .ipc, socket := bytes "/run/node.sock" } : Address).KeyInStep := by
  have h : parse (bytes "ipc:///run/node.sock") =
      .ok { protocol := .ipc, socket := bytes "/run/node.sock" } := by decide +kernel
  exact ⟨h, (keyInStep_iff_not_padded _ _ h).mpr fun hh => absurd hh.1 (by decide)⟩

/-- 42 digits and two padding characters are 31 bytes. -/
theorem short_key_of_padded :
    parse (bytes "ipc+curve:///" ++ List.replicate 42 'A'.toUInt8 ++ bytes "==") =
      .ok { protocol := .ipcCurve, pubkey := List.replicate 31 0 } ∧
    ¬ ({ protocol := .ipcCurve, pubkey := List.replicate 31 0 } : Address).KeyInStep := by
  decide +kernel

end Address

open Transition

namespace Address

/-- A call that returns leaves the key in step and the rest as it was, and one that
throws leaves everything as it was. -/
def StaysInStep (pk : Bytes) (a : Address) : Prop :=
  match (setPubkey pk).run a with
  | .ok _ a' => a'.KeyInStep ∧ a'.tcp = a.tcp ∧ a'.host = a.host ∧ a'.port = a.port ∧
      a'.socket = a.socket
  | .error _ a' => a' = a

theorem run_setPubkey (pk : Bytes) (a : Address) : (setPubkey pk).run a =
    if pk.length = 0 then
      .ok () { a with
        protocol := if a.protocol = .tcpCurve then .tcp else a.protocol
        pubkey := pk }
    else if pk.length = 32 then
      .ok () { a with
        protocol := if a.protocol = .tcp then .tcpCurve
          else if a.protocol = .ipc then .ipcCurve else a.protocol
        pubkey := pk }
    else .error (.invalidArgument
      "Invalid pubkey passed to set_pubkey(): require 0- or 32-byte pubkey") a := by
  obtain ⟨protocol, host, port, socket, pubkey⟩ := a
  by_cases h0 : pk.length = 0
  · simp only [setPubkey, if_pos h0]
    cases protocol <;> rfl
  by_cases h32 : pk.length = 32
  · simp only [setPubkey, if_neg h0, if_pos h32]
    cases protocol <;> rfl
  · simp only [setPubkey, if_neg h0, if_neg h32]
    rfl

theorem staysInStep_iff (pk : Bytes) (a : Address) :
    StaysInStep pk a ↔ ¬ (pk = [] ∧ a.protocol = .ipcCurve) := by
  rw [StaysInStep, run_setPubkey]
  obtain ⟨protocol, host, port, socket, pubkey⟩ := a
  by_cases h0 : pk.length = 0
  · obtain rfl := List.length_eq_zero_iff.mp h0
    cases protocol with
    | ipcCurve => exact iff_of_false (fun hh => nomatch hh.1) fun hh => hh ⟨rfl, rfl⟩
    | _ => exact iff_of_true ⟨rfl, rfl, rfl, rfl, rfl⟩ fun hh => nomatch hh.2
  · have hne : pk ≠ [] := fun h => h0 (by rw [h]; rfl)
    rw [if_neg h0]
    refine iff_of_true ?_ fun hh => hne hh.1
    by_cases h32 : pk.length = 32
    · rw [if_pos h32]
      cases protocol <;> exact ⟨h32, rfl, rfl, rfl, rfl⟩
    · rw [if_neg h32]

/-- Key and protocol stay in step over every sequence of calls in which no key is
taken from a unix socket address. -/
theorem staysInStep_iff_not_cleared (pks : List Bytes) (a : Address) :
    During setPubkey StaysInStep pks a ↔
      During setPubkey (fun pk a => ¬ (pk = [] ∧ a.protocol = .ipcCurve)) pks a :=
  during_congr staysInStep_iff pks a

/-- For TCP that is every sequence. -/
theorem staysInStep_of_tcp (pks : List Bytes) (h : a.tcp = true) :
    During setPubkey StaysInStep pks a := by
  have hstep (pk : Bytes) (a : Address) (ha : a.tcp = true) : StaysInStep pk a :=
    (staysInStep_iff pk a).mpr fun hh => by simp [Address.tcp, hh.2] at ha
  refine during_of_invariant (I := fun a => a.tcp = true) hstep (fun pk a ha => ?_) pks h
  have hnext := hstep pk a ha
  rw [StaysInStep] at hnext
  cases hrun : (setPubkey pk).run a with
  | ok u a' =>
    rw [hrun] at hnext
    exact hnext.2.1.trans ha
  | error e a' =>
    rw [hrun] at hnext
    exact (congrArg Address.tcp hnext).trans ha

def sampleKeyed : Address where
  protocol := .ipcCurve
  socket := bytes "/run/node.sock"
  pubkey := List.replicate 32 0xab

/-- The key is cleared, and the protocol still asks for one. -/
theorem curve_of_cleared : sampleKeyed.KeyInStep ∧
    (setPubkey []).run sampleKeyed = .ok () { sampleKeyed with pubkey := [] } ∧
    ¬ { sampleKeyed with pubkey := [] }.KeyInStep :=
  ⟨by decide, rfl, by decide⟩

end Address

end ArqmaMQ
