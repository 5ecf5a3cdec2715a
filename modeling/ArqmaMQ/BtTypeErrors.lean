import ArqmaMQ.BtReads

/-! `bt_deserialize_invalid_type` should mean that nothing was consumed, so that
the caller can try another type. For which texts a deserializer keeps to that. -/

namespace ArqmaMQ

/-- No value is a single byte. -/
def Mismatch (fits : UInt8 → Bool) (s : Bytes) : Prop :=
  s.length < 2 ∨ ∃ c, s.head? = some c ∧ fits c = false

/-- If the exception about the type is thrown, then the view is left as it was, and no
value that is wanted begins with its first byte. -/
def KeepsInput {α : Type} (fits : UInt8 → Bool) (x : BtReader α) (s : Bytes) : Prop :=
  ∀ what s', x.run s = .error (.invalidType what) s' → s' = s ∧ Mismatch fits s

section Rules

variable {α : Type} {fits p q : UInt8 → Bool} {x : BtReader α} {s : Bytes}

theorem Mismatch.mono (h : ∀ c, q c = true → p c = true) (hs : Mismatch p s) : Mismatch q s := by
  refine hs.imp_right fun ⟨c, hc, hp⟩ => ⟨c, hc, Bool.eq_false_iff.mpr fun hq => ?_⟩
  rw [h c hq] at hp
  cases hp

theorem Behind.not_mismatch {b : UInt8} {P : Bytes → Prop} (h : Behind b P s)
    (hb : fits b = true) : ¬ Mismatch fits s := by
  rintro (hlen | ⟨c, hc, hp⟩)
  · exact absurd h.two_le (Nat.not_le.mpr hlen)
  · obtain ⟨r, rfl, -⟩ := h
    obtain rfl := Option.some.inj hc
    cases hb.symm.trans hp

theorem mismatch_cons_iff (b : UInt8) (r : Bytes) : Mismatch (· == b) (b :: r) ↔ r = [] := by
  simp [Mismatch]

theorem exists_of_not_mismatch {b : UInt8} (h : ¬ Mismatch (· == b) s) :
    ∃ r, s = b :: r ∧ r ≠ [] := by
  obtain ⟨hlen, hhead⟩ := not_or.mp h
  obtain ⟨c, r, rfl⟩ := List.exists_cons_of_length_pos (show 0 < s.length by omega)
  have hc : (c == b) = true := Bool.eq_true_of_not_eq_false fun hc => hhead ⟨c, rfl, hc⟩
  refine ⟨r, by rw [eq_of_beq hc], List.length_pos_iff.mp ?_⟩
  rw [List.length_cons] at hlen
  omega

theorem keepsInput_of_not_typeError (h : ¬ TypeError x s) : KeepsInput fits x s :=
  fun what s' hs => absurd ⟨what, s', hs⟩ h

/-- An exception about the type is thrown at the beginning or inside. -/
theorem keepsInput_iff_not {head inside : Prop} (h : TypeError x s ↔ head ∨ inside)
    (hhead : head → Mismatch fits s ∧ ∃ e, x.run s = .error e s)
    (hinside : inside → ¬ Mismatch fits s) : KeepsInput fits x s ↔ ¬ inside := by
  refine ⟨fun hx hin => ?_, fun hin what s' hrun => ?_⟩
  · obtain ⟨what, s', hrun⟩ := h.mpr (.inr hin)
    exact hinside hin (hx what s' hrun).2
  · obtain ⟨hs, e, he⟩ := hhead ((h.mp ⟨what, s', hrun⟩).resolve_right hin)
    obtain ⟨-, rfl⟩ := EStateM.Result.error.inj (he.symm.trans hrun)
    exact ⟨rfl, hs⟩

end Rules

section Values

variable {n : Nat} {s : Bytes}

variable {c : UInt8} {r rest : Bytes}

/-- Only the first byte tells what kind of value it is. -/
theorem valueText_cons_iff : valueText (n + 1) (c :: r) rest ↔
    if c = 'd'.toUInt8 then PairsText (valueText n) (c :: r) rest
    else if c = 'l'.toUInt8 then ListText (valueText n) (c :: r) rest
    else if c = 'i'.toUInt8 then AnyInt (c :: r) rest
    else AnyString (c :: r) rest := by
  constructor
  · rintro (h | h | h | h)
    · have hdigit := h.isDigit_head
      have hne {b : UInt8} (hb : isDigit b = false) : c ≠ b := by
        rintro rfl
        cases hdigit.symm.trans hb
      rw [if_neg (hne rfl), if_neg (hne rfl), if_neg (hne rfl)]
      exact h
    · obtain rfl := h.head_eq
      exact h
    · obtain rfl := Behind.head_eq h
      exact h
    · obtain rfl := Behind.head_eq h
      exact h
  · intro h
    split at h
    · exact .inr (.inr (.inr h))
    split at h
    · exact .inr (.inr (.inl h))
    split at h
    · exact .inr (.inl h)
    · exact .inl h

theorem valueWrong_cons_iff : valueWrong (n + 1) (c :: r) ↔
    if c = 'd'.toUInt8 then WrongPair 2 (valueText n) (valueWrong n) (c :: r)
    else c = 'l'.toUInt8 ∧ WrongItem (valueText n) (valueWrong n) (c :: r) := by
  constructor
  · rintro (h | h)
    · obtain rfl := Behind.head_eq h
      exact ⟨rfl, h⟩
    · obtain rfl := Behind.head_eq h
      exact h
  · intro h
    split at h
    · exact .inr h
    · exact .inl h.2

theorem reads_btDeserializeValue (hn : s.length < n) :
    ReadsText (btDeserializeValue n) (valueText n) (valueWrong n) s := by
  induction n generalizing s with
  | zero => omega
  | succ n ih =>
    by_cases hlen : s.length < 2
    · exact .of_invalid (run_btDeserializeValue_of_length_lt hlen n)
        (fun _ h => absurd (two_le_of_valueText h) (Nat.not_le.mpr hlen))
        fun h => absurd (two_le_of_valueWrong h) (Nat.not_le.mpr hlen)
    obtain ⟨c, r, rfl⟩ := List.exists_cons_of_length_pos (show 0 < s.length by omega)
    have hr : r ≠ [] := List.length_pos_iff.mp (by rw [List.length_cons] at hlen; omega)
    refine .of_run (run_btDeserializeValue_cons n c hr) ?_
    have helem (t : Bytes) (ht : t.length < (c :: r).length) :
        ReadsText (btDeserializeValue n) (valueText n) (valueWrong n) t := ih (by omega)
    split
    case isTrue hd =>
      subst hd
      refine ((reads_btDeserializeDict (shrinks_valueText n) helem).map BtVariant.dict).congr
        (fun rest => ?_) ?_
      · rw [valueText_cons_iff, if_pos rfl]
      · rw [valueWrong_cons_iff, if_pos rfl, or_iff_right (not_unfit (by decide))]
    case isFalse hd =>
    split
    case isTrue hl =>
      subst hl
      refine ((reads_btDeserializeList (shrinks_valueText n) helem).map BtVariant.list).congr
        (fun rest => ?_) ?_
      · rw [valueText_cons_iff, if_neg hd, if_pos rfl]
      · rw [valueWrong_cons_iff, if_neg hd, and_iff_right rfl, or_iff_right (not_unfit (by decide))]
    case isFalse hl =>
    have hwrong : ¬ valueWrong (n + 1) (c :: r) := by
      rw [valueWrong_cons_iff, if_neg hd]
      exact fun h => hl h.1
    split
    case isTrue hi =>
      subst hi
      refine ((reads_btDeserializeInteger _).map _).congr (fun rest => ?_)
        (iff_of_false (not_unfit (by decide)) hwrong)
      rw [valueText_cons_iff, if_neg hd, if_neg hl, if_pos rfl]
    case isFalse hi =>
    have htext (rest : Bytes) : valueText (n + 1) (c :: r) rest ↔ AnyString (c :: r) rest := by
      rw [valueText_cons_iff, if_neg hd, if_neg hl, if_neg hi]
    split
    case isTrue hs =>
      exact ((reads_btDeserializeStringView _).map BtVariant.string).congr
        (fun rest => (htext rest).symm) (iff_of_false (not_unfit hs) hwrong)
    case isFalse hs =>
      exact .of_invalid rfl (fun rest h => hs ((htext rest).mp h).isDigit_head) hwrong

theorem reads_btDeserialize (s : Bytes) : ReadsText btDeserialize
    (fun s => valueText (s.length + 1) s) (fun s => valueWrong (s.length + 1) s) s := by
  have h := reads_btDeserializeValue (Nat.lt_succ_self s.length)
  refine .of_run ?_ (h.congr (fun _ => Iff.rfl) Iff.rfl)
  rw [btDeserialize, run_get_bind]

end Values

namespace BtType

theorem reads_readFields (ts : List BtType)
    (h : ∀ t ∈ ts, ∀ s, ReadsText t.read t.text (fun s => t.WrongHead s ∨ t.WrongInside s) s)
    (s : Bytes) : ReadsText (readFields ts) (fieldsText ts) (WrongFields ts) s := by
  induction ts generalizing s with
  | nil =>
    rw [readFields, fieldsText]
    refine ⟨fun rest => ?_, iff_of_false (NoTypeError.pure _ s) (by rw [WrongFields]; exact id)⟩
    constructor
    · rintro ⟨v, hv⟩
      exact (EStateM.Result.ok.inj hv).2
    · rintro rfl
      exact ⟨(), rfl⟩
  | cons t ts ih =>
    have hts := ih fun t ht => h t (List.mem_cons_of_mem _ ht)
    have hboth := reads_readBoth (h t List.mem_cons_self) hts s
    rw [readFields, fieldsText]
    exact hboth.congr (fun _ => Iff.rfl) (by rw [WrongFields])

theorem reads_read (t : BtType) (s : Bytes) :
    ReadsText t.read t.text (fun s => t.WrongHead s ∨ t.WrongInside s) s := by
  induction t using BtType.induct generalizing s with
  | int t =>
    have h := reads_btDeserializeInt t s
    rw [read, text]
    exact h.congr (fun _ => Iff.rfl) (by rw [WrongInside, or_false]; rfl)
  | string =>
    have h := reads_btDeserializeStringView s
    rw [read, text]
    exact h.congr (fun _ => Iff.rfl) (by rw [WrongInside, or_false]; rfl)
  | value =>
    have h := reads_btDeserialize s
    rw [read, text]
    exact h.congr (fun _ => Iff.rfl) (by rw [WrongInside, WrongHead, false_or])
  | list t ih =>
    have h := reads_btDeserializeList (s := s) t.shrinks_text fun u _ => ih u
    rw [read, text]
    exact h.congr (fun _ => Iff.rfl) (by rw [WrongInside]; rfl)
  | dict t ih =>
    have h := reads_btDeserializeDict (s := s) t.shrinks_text fun u _ => ih u
    rw [read, text]
    exact h.congr (fun _ => Iff.rfl) (by rw [WrongInside]; rfl)
  | tuple ts ih =>
    have h := reads_btDeserializeTuple (s := s) (reads_readFields ts ih)
    rw [read, text]
    exact h.congr (fun _ => Iff.rfl) (by rw [WrongInside]; rfl)
  | pair t t' ih ih' =>
    have h := reads_btDeserializeTuple (s := s) (reads_readBoth ih ih')
    rw [read, text]
    exact h.congr (fun _ => Iff.rfl) (by rw [WrongInside]; rfl)

variable {t : BtType} {s : Bytes}

theorem mismatch_of_wrongHead (h : t.WrongHead s) : Mismatch t.fits s := by
  cases t with
  | value => exact h.elim
  | _ => exact .inr h.2

theorem run_read_of_wrongHead (h : t.WrongHead s) :
    ∃ what, t.read.run s = .error (.invalidType what) s := by
  have hbyte (b c : UInt8) : c ≠ b ↔ (c == b) = false := by simp
  cases t with
  | int t =>
    have hrun : ∃ what, btDeserializeInteger.run s = .error (.invalidType what) s :=
      run_checkHead_of_unfit (hbyte _) (by decide) h
    obtain ⟨what, hrun⟩ := hrun
    rw [read]
    exact ⟨what, run_bind_error hrun _⟩
  | string =>
    rw [read]
    exact run_checkHead_of_unfit (fun c => Bool.eq_false_iff.symm) (by decide) h
  | value => exact h.elim
  | list t =>
    rw [read]
    exact run_checkHead_of_unfit (hbyte _) (by decide) h
  | dict t =>
    rw [read]
    exact run_checkHead_of_unfit (hbyte _) (by decide) h
  | tuple ts =>
    rw [read]
    exact run_checkHead_of_unfit (hbyte _) (by decide) h
  | pair s t =>
    rw [read]
    exact run_checkHead_of_unfit (hbyte _) (by decide) h

theorem not_mismatch_of_wrongInside (h : t.WrongInside s) : ¬ Mismatch t.fits s := by
  cases t with
  | int t => rw [WrongInside] at h; exact h.elim
  | string => rw [WrongInside] at h; exact h.elim
  | value =>
    rw [WrongInside] at h
    exact h.elim (Behind.not_mismatch · (by decide)) (Behind.not_mismatch · (by decide))
  | _ => rw [WrongInside] at h; exact Behind.not_mismatch h rfl

theorem keepsInput_read_iff (t : BtType) (s : Bytes) :
    KeepsInput t.fits t.read s ↔ ¬ t.WrongInside s := by
  refine keepsInput_iff_not (t.reads_read s).typeError_iff (fun h => ?_)
    not_mismatch_of_wrongInside
  obtain ⟨what, hrun⟩ := run_read_of_wrongHead h
  exact ⟨mismatch_of_wrongHead h, _, hrun⟩

end BtType

end ArqmaMQ
