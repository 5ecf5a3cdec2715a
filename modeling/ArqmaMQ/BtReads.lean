import ArqmaMQ.BtCalls
import ArqmaMQ.BtGrammar

/-! The readers against the grammar: which texts each of them accepts, and in which it
throws the exception about the type. -/

namespace ArqmaMQ

open Decimal

/-- The exception that is thrown is the one about the type. -/
def TypeError {σ α : Type} (x : EStateM BtError σ α) (s : σ) : Prop :=
  ∃ what s', x.run s = .error (.invalidType what) s'

def NoTypeError {σ α : Type} (x : EStateM BtError σ α) : Prop := ∀ s, ¬ TypeError x s

/-- What is accepted, and where the type is wrong. -/
structure ReadsText {α : Type} (x : BtReader α) (text : Text) (wrong : Bytes → Prop) (s : Bytes) :
    Prop where
  ok_iff : ∀ rest, (∃ v, x.run s = .ok v rest) ↔ text s rest
  typeError_iff : TypeError x s ↔ wrong s

section Rules

variable {σ α β : Type}

theorem not_typeError_of_ok {x : EStateM BtError σ α} {s t : σ} {a : α}
    (h : x.run s = .ok a t) : ¬ TypeError x s := by
  rintro ⟨what, s', h'⟩
  cases h.symm.trans h'

theorem not_typeError_of_invalid {x : EStateM BtError σ α} {s t : σ} {what : String}
    (h : x.run s = .error (.invalid what) t) : ¬ TypeError x s := by
  rintro ⟨what', s', h'⟩
  cases h.symm.trans h'

theorem typeError_bind_iff {x : EStateM BtError σ α} {f : α → EStateM BtError σ β} {s : σ} :
    TypeError (x >>= f) s ↔ TypeError x s ∨ ∃ a t, x.run s = .ok a t ∧ TypeError (f a) t := by
  cases hx : x.run s with
  | ok a t =>
    rw [TypeError, run_bind_ok hx, or_iff_right (not_typeError_of_ok hx)]
    refine ⟨fun h => ⟨a, t, rfl, h⟩, ?_⟩
    rintro ⟨_, _, h, hf⟩
    obtain ⟨rfl, rfl⟩ := EStateM.Result.ok.inj h
    exact hf
  | error e t =>
    have hno : ¬ ∃ a u, EStateM.Result.error e t = .ok a u ∧ TypeError (f a) u := by
      rintro ⟨_, _, h, -⟩
      cases h
    rw [TypeError, run_bind_error hx, or_iff_left hno, TypeError, hx]
    exact exists_congr fun what => exists_congr fun s' => by simp

theorem NoTypeError.pure (a : α) : NoTypeError (Pure.pure a : EStateM BtError σ α) := nofun

theorem NoTypeError.get : NoTypeError (MonadState.get : EStateM BtError σ σ) := nofun

theorem NoTypeError.bind {x : EStateM BtError σ α} {f : α → EStateM BtError σ β}
    (hx : NoTypeError x) (hf : ∀ a, NoTypeError (f a)) : NoTypeError (x >>= f) := by
  intro s h
  rcases typeError_bind_iff.mp h with h | ⟨a, t, -, h⟩
  · exact hx s h
  · exact hf a t h

theorem NoTypeError.front : NoTypeError front := by
  rintro (_ | ⟨c, s⟩) ⟨what, s', h⟩ <;> cases h

theorem typeError_map_iff {x : EStateM BtError σ α} {g : α → β} {s : σ} :
    TypeError (do return g (← x)) s ↔ TypeError x s := by
  refine typeError_bind_iff.trans (or_iff_left ?_)
  rintro ⟨a, t, -, h⟩
  exact NoTypeError.pure _ t h

theorem NoTypeError.removePrefix (n : Nat) : NoTypeError (removePrefix n) := nofun

theorem NoTypeError.throwIf (c : Prop) [Decidable c] (what : String) :
    NoTypeError (throwIf c (.invalid what)) := by
  rintro s ⟨what', s', h⟩
  rw [ArqmaMQ.throwIf] at h
  split at h <;> cases h

theorem noTypeError_digitLoop (u : UInt64) (s : Bytes) (what : String) (s' : Bytes) :
    digitLoop u s ≠ .error (.invalidType what) s' := by
  induction s generalizing u with
  | nil => nofun
  | cons c s ih =>
    intro h
    rw [digitLoop] at h
    split at h
    · dsimp only at h
      split at h
      · cases h
      · exact ih _ h
    · cases h

theorem noTypeError_extractUnsigned : NoTypeError extractUnsigned :=
  .bind .get fun _ => .bind (.throwIf _ _) fun _ => .bind .front fun _ =>
    .bind (.throwIf _ _) fun _ => fun s ⟨what, s', h⟩ => noTypeError_digitLoop 0 s what s' h

variable {text text' : Text} {wrong wrong' : Bytes → Prop} {s : Bytes}

/-- Nothing is accepted, and the exception is not about the type. -/
theorem ReadsText.of_invalid {x : BtReader α} {what : String} {t : Bytes}
    (h : x.run s = .error (.invalid what) t) (ht : ∀ rest, ¬ text s rest) (hw : ¬ wrong s) :
    ReadsText x text wrong s := by
  refine ⟨fun rest => iff_of_false ?_ (ht rest), iff_of_false (not_typeError_of_invalid h) hw⟩
  rintro ⟨v, hv⟩
  cases h.symm.trans hv

theorem ReadsText.bind {x : BtReader α} {f : α → BtReader β} (hx : ReadsText x text wrong s)
    (hf : ∀ a t, x.run s = .ok a t → ReadsText (f a) text' wrong' t) :
    ReadsText (x >>= f) (Relation.Comp text text') (WrongBoth text wrong wrong') s := by
  constructor
  · intro rest
    constructor
    · rintro ⟨v, h⟩
      obtain ⟨a, t, ha, hv⟩ := run_bind_eq_ok_iff.mp h
      exact ⟨t, (hx.ok_iff t).mp ⟨a, ha⟩, ((hf a t ha).ok_iff rest).mp ⟨v, hv⟩⟩
    · rintro ⟨t, ht, hrest⟩
      obtain ⟨a, ha⟩ := (hx.ok_iff t).mpr ht
      obtain ⟨v, hv⟩ := ((hf a t ha).ok_iff rest).mpr hrest
      exact ⟨v, run_bind_eq_ok_iff.mpr ⟨a, t, ha, hv⟩⟩
  · rw [typeError_bind_iff, hx.typeError_iff, WrongBoth]
    refine or_congr_right ⟨?_, ?_⟩
    · rintro ⟨a, t, ha, h⟩
      exact ⟨t, (hx.ok_iff t).mp ⟨a, ha⟩, (hf a t ha).typeError_iff.mp h⟩
    · rintro ⟨t, ht, h⟩
      obtain ⟨a, ha⟩ := (hx.ok_iff t).mpr ht
      exact ⟨a, t, ha, (hf a t ha).typeError_iff.mpr h⟩

theorem ReadsText.congr {x : BtReader α} (hx : ReadsText x text wrong s)
    (ht : ∀ rest, text s rest ↔ text' s rest) (hw : wrong s ↔ wrong' s) :
    ReadsText x text' wrong' s :=
  ⟨fun rest => (hx.ok_iff rest).trans (ht rest), hx.typeError_iff.trans hw⟩

theorem ReadsText.of_run {x y : BtReader α} (h : x.run s = y.run s)
    (hy : ReadsText y text wrong s) :
    ReadsText x text wrong s := by
  refine ⟨fun rest => ?_, ?_⟩
  · rw [h, hy.ok_iff rest]
  · rw [TypeError, h, ← TypeError, hy.typeError_iff]

theorem ReadsText.map {x : BtReader α} (hx : ReadsText x text wrong s) (g : α → β) :
    ReadsText (do return g (← x)) text wrong s := by
  constructor
  · intro rest
    rw [← hx.ok_iff rest]
    constructor
    · rintro ⟨v, h⟩
      obtain ⟨a, t, ha, hv⟩ := run_bind_eq_ok_iff.mp h
      obtain ⟨-, rfl⟩ := EStateM.Result.ok.inj hv
      exact ⟨a, ha⟩
    · rintro ⟨a, ha⟩
      exact ⟨g a, run_bind_eq_ok_iff.mpr ⟨a, rest, ha, rfl⟩⟩
  · rw [typeError_map_iff, hx.typeError_iff]

theorem reads_notEmpty (what : String) (s : Bytes) :
    ReadsText (do throwIf (← get).isEmpty (.invalid what)) (fun s t => s = t ∧ t ≠ [])
      (fun _ => False) s := by
  refine ⟨fun rest => ?_, iff_of_false (NoTypeError.get.bind (fun _ => .throwIf _ _) s) id⟩
  cases s with
  | nil => exact iff_of_false (by rintro ⟨_, h⟩; cases h) fun ⟨h, hne⟩ => hne h.symm
  | cons c s =>
    constructor
    · rintro ⟨_, h⟩
      obtain ⟨-, rfl⟩ := EStateM.Result.ok.inj h
      exact ⟨rfl, List.cons_ne_nil c s⟩
    · rintro ⟨rfl, -⟩
      exact ⟨(), rfl⟩

theorem ReadsText.notEmpty {x : BtReader Unit} (hx : ReadsText x text wrong s) (what : String) :
    ReadsText (x >>= fun _ => do throwIf (← get).isEmpty (.invalid what))
      (fun t u => text t u ∧ u ≠ []) wrong s := by
  refine (hx.bind fun _ t _ => reads_notEmpty what t).congr (fun rest => ?_) (or_iff_left ?_)
  · constructor
    · rintro ⟨u, hu, rfl, hne⟩
      exact ⟨hu, hne⟩
    · rintro ⟨hu, hne⟩
      exact ⟨rest, hu, rfl, hne⟩
  · rintro ⟨u, -, h⟩
    exact h

end Rules

/-- How the readers begin: the view must be long enough, and its first byte the one of
a value of the type. -/
def checkHead {α : Type} (size : Nat) (short : String) (wrong : UInt8 → Prop)
    [DecidablePred wrong] (what : UInt8 → String) (rest : Bytes → UInt8 → BtReader α) :
    BtReader α := do
  let s ← get
  throwIf (s.length < size) (.invalid short)
  let c ← front
  throwIf (wrong c) (.invalidType (what c))
  rest s c

section CheckHead

variable {α : Type} {fits : UInt8 → Bool} {size : Nat} {short : String} {wrong : UInt8 → Prop}
  [DecidablePred wrong] {what : UInt8 → String} {rest : Bytes → UInt8 → BtReader α}

theorem run_checkHead_cases (short : String) (what : UInt8 → String)
    (rest : Bytes → UInt8 → BtReader α) (hwrong : ∀ c, wrong c ↔ fits c = false)
    (hsize : 0 < size) (s : Bytes) :
    (s.length < size ∧ (checkHead size short wrong what rest).run s = .error (.invalid short) s) ∨
      (Unfit fits size s ∧ ∃ what', (checkHead size short wrong what rest).run s =
        .error (.invalidType what') s) ∨
      ∃ c r, s = c :: r ∧ size ≤ s.length ∧ fits c = true ∧
        (checkHead size short wrong what rest).run s = (rest s c).run s := by
  rw [checkHead, run_get_bind]
  by_cases hlen : s.length < size
  · exact .inl ⟨hlen, run_throwIf_bind_error hlen _ _⟩
  rw [run_throwIf_bind hlen]
  have hle := Nat.not_lt.mp hlen
  obtain ⟨c, r, rfl⟩ := List.exists_cons_of_length_pos (hsize.trans_le hle)
  rw [run_front_bind]
  by_cases hc : wrong c
  · exact .inr (.inl ⟨⟨hle, c, rfl, (hwrong c).mp hc⟩, _, run_throwIf_bind_error hc _ _⟩)
  · refine .inr (.inr ⟨c, r, rfl, hle, ?_, run_throwIf_bind hc _ _⟩)
    exact Bool.eq_true_of_not_eq_false (mt (hwrong c).mpr hc)

theorem not_unfit {c : UInt8} {r : Bytes} (h : fits c = true) : ¬ Unfit fits size (c :: r) := by
  rintro ⟨-, _, hc, hf⟩
  obtain rfl := Option.some.inj hc
  cases h.symm.trans hf

theorem run_checkHead_of_unfit (hwrong : ∀ c, wrong c ↔ fits c = false) (hsize : 0 < size)
    {s : Bytes} (h : Unfit fits size s) :
    ∃ what', (checkHead size short wrong what rest).run s = .error (.invalidType what') s := by
  rcases run_checkHead_cases short what rest hwrong hsize s with
    ⟨hlen, -⟩ | ⟨-, hrun⟩ | ⟨c, r, rfl, -, hfits, -⟩
  · exact absurd h.1 (Nat.not_le.mpr hlen)
  · exact hrun
  · exact absurd h (not_unfit hfits)

theorem typeError_checkHead_iff (hwrong : ∀ c, wrong c ↔ fits c = false) (hsize : 0 < size)
    (hrest : ∀ s c, NoTypeError (rest s c)) {s : Bytes} :
    TypeError (checkHead size short wrong what rest) s ↔ Unfit fits size s := by
  rw [TypeError]
  rcases run_checkHead_cases short what rest hwrong hsize s with
    ⟨hlen, hrun⟩ | ⟨hunfit, what', hrun⟩ | ⟨c, r, rfl, -, hfits, hrun⟩ <;> rw [hrun]
  · refine iff_of_false ?_ fun h => absurd h.1 (Nat.not_le.mpr hlen)
    rintro ⟨_, _, h⟩
    cases h
  · exact iff_of_true ⟨_, _, rfl⟩ hunfit
  · exact iff_of_false (hrest _ c _) (not_unfit hfits)

end CheckHead

section Strings

theorem run_btDeserializeStringView_iff {s val rest : Bytes} :
    btDeserializeStringView.run s = .ok val rest ↔ StringText val s rest := by
  constructor
  · intro h
    obtain ⟨ds, text, rfl, hd, hr⟩ := exists_digits s
    have hne : ds ≠ [] := by
      rintro rfl
      obtain ⟨c, u, htext, hc⟩ := isDigit_of_run_btDeserializeStringView h
      rw [List.nil_append] at htext
      exact hr c (by rw [htext, List.head?_cons, Option.mem_def]) (isDigit_iff.mp hc)
    obtain ⟨hrises, rfl, hlen⟩ := (run_btDeserializeStringView_digits hne hd hr).mp h
    exact ⟨ds, hne, hd, hrises, hlen, rfl⟩
  · rintro ⟨ds, hne, hd, hrises, hlen, rfl⟩
    exact (run_btDeserializeStringView_digits hne hd (by simp; decide)).mpr ⟨hrises, rfl, hlen⟩

theorem reads_btDeserializeStringView (s : Bytes) :
    ReadsText btDeserializeStringView AnyString (Unfit isDigit 2) s := by
  refine ⟨fun rest => exists_congr fun val => run_btDeserializeStringView_iff, ?_⟩
  refine typeError_checkHead_iff (fun c => Bool.eq_false_iff.symm) (by decide) fun _ c => ?_
  exact .bind noTypeError_extractUnsigned fun _ => .bind .get fun _ => .bind (.throwIf _ _) fun _ =>
    .bind .front fun _ => .bind (.throwIf _ _) fun _ => .bind (.removePrefix _) fun _ =>
    .bind .get fun _ => .bind (.throwIf _ _) fun _ => .bind (.removePrefix _) fun _ => .pure _

end Strings

section Integers

theorem isDigit_of_run_extractUnsigned {s t : Bytes} {u : UInt64}
    (h : extractUnsigned.run s = .ok u t) : ∃ c r, s = c :: r ∧ isDigit c = true := by
  rw [extractUnsigned, run_get_bind] at h
  obtain ⟨hempty, h⟩ := run_throwIf_bind_eq_ok_iff.mp h
  obtain ⟨c, r, rfl⟩ := List.exists_cons_of_ne_nil (show s ≠ [] by simpa using hempty)
  rw [run_front_bind] at h
  exact ⟨c, r, rfl, not_not.mp (run_throwIf_bind_eq_ok_iff.mp h).1⟩

theorem exists_integerText {s rest : Bytes} {magnitude : UInt64} {negative : Bool}
    (h : btDeserializeInteger.run s = .ok (magnitude, negative) rest) :
    ∃ ds, ds ≠ [] ∧ (∀ c ∈ ds, IsDigit c) ∧ s = integerText negative ds rest := by
  rw [btDeserializeInteger, run_get_bind] at h
  obtain ⟨hlen, h⟩ := run_throwIf_bind_eq_ok_iff.mp h
  obtain ⟨c, s, rfl⟩ := List.exists_cons_of_length_pos (show 0 < s.length by omega)
  obtain ⟨d, s, rfl⟩ := List.exists_cons_of_length_pos
    (show 0 < s.length by rw [List.length_cons] at hlen; omega)
  rw [run_front_bind] at h
  obtain ⟨hc, h⟩ := run_throwIf_bind_eq_ok_iff.mp h
  obtain rfl := not_not.mp hc
  rw [run_removePrefix_bind, List.drop_one, List.tail_cons, run_front_bind,
    run_removePrefix_bind] at h
  obtain ⟨u, t, hu, h⟩ := run_bind_eq_ok_iff.mp h
  rw [run_get_bind] at h
  obtain ⟨hempty, h⟩ := run_throwIf_bind_eq_ok_iff.mp h
  obtain ⟨e, t, rfl⟩ := List.exists_cons_of_ne_nil (show t ≠ [] by simpa using hempty)
  rw [run_front_bind] at h
  obtain ⟨he, h⟩ := run_throwIf_bind_eq_ok_iff.mp h
  obtain rfl := not_not.mp he
  rw [run_removePrefix_bind] at h
  obtain ⟨-, h⟩ := run_throwIf_bind_eq_ok_iff.mp h
  obtain ⟨hpair, rfl⟩ := EStateM.Result.ok.inj h
  obtain ⟨-, hsign⟩ := Prod.mk.inj hpair
  -- the digits begin behind the sign
  obtain ⟨ds, text, htext, hd, hr⟩ := exists_digits ((d :: s).drop (d == '-'.toUInt8).toNat)
  have hne : ds ≠ [] := by
    rintro rfl
    obtain ⟨b, r, hb, hdigit⟩ := isDigit_of_run_extractUnsigned hu
    rw [List.nil_append] at htext
    exact hr b (by rw [← htext, hb, List.head?_cons, Option.mem_def]) (isDigit_iff.mp hdigit)
  rw [htext, run_extractUnsigned_digits hne hd hr] at hu
  obtain ⟨-, -, rfl⟩ := hu
  refine ⟨ds, hne, hd, ?_⟩
  rw [integerText, List.drop_one, List.tail_cons, ← htext, ← hsign]
  cases hd : d == '-'.toUInt8 with
  | true => rw [eq_of_beq hd]; rfl
  | false => rfl

theorem reads_btDeserializeInteger (s : Bytes) :
    ReadsText btDeserializeInteger AnyInt (Unfit (· == 'i'.toUInt8) 3) s := by
  refine ⟨fun rest => ⟨?_, ?_⟩, ?_⟩
  · rintro ⟨⟨m, negative⟩, h⟩
    obtain ⟨ds, hne, hd, rfl⟩ := exists_integerText h
    obtain ⟨hrises, hm, hbig, -, -⟩ := (run_btDeserializeInteger_text hne hd).mp h
    exact ⟨negative, ds, hne, hd, hrises, hm ▸ hbig, rfl⟩
  · rintro ⟨negative, ds, hne, hd, hrises, hbig, rfl⟩
    have hmod : (UInt64.ofNat (valueFrom 0 ds)).toNat = valueFrom 0 ds % 2 ^ 64 :=
      UInt64.toNat_ofNat'
    exact ⟨_, (run_btDeserializeInteger_text hne hd).mpr ⟨hrises, hmod, hmod ▸ hbig, rfl, rfl⟩⟩
  · refine typeError_checkHead_iff (fun c => by simp) (by decide) fun _ c => ?_
    exact .bind (.removePrefix _) fun _ => .bind .front fun _ => .bind (.removePrefix _) fun _ =>
      .bind noTypeError_extractUnsigned fun _ => .bind .get fun _ => .bind (.throwIf _ _) fun _ =>
      .bind .front fun _ => .bind (.throwIf _ _) fun _ => .bind (.removePrefix _) fun _ =>
      .bind (.throwIf _ _) fun _ => .pure _

theorem reads_btDeserializeInt (t : IntType) (s : Bytes) :
    ReadsText (btDeserializeInt t) (IntText t.Admits) (Unfit (· == 'i'.toUInt8) 3) s := by
  refine ⟨fun rest => ⟨?_, ?_⟩, ?_⟩
  · rintro ⟨i, h⟩
    obtain ⟨⟨m, negative⟩, t, hrun, -⟩ := run_bind_eq_ok_iff.mp h
    obtain ⟨ds, hne, hd, rfl⟩ := exists_integerText hrun
    obtain ⟨hrises, rfl, hholds, hsigned, rfl⟩ := (run_btDeserializeInt_text hne hd).mp h
    exact ⟨negative, ds, hne, hd, hrises, ⟨hholds, hsigned⟩, rfl⟩
  · rintro ⟨negative, ds, hne, hd, hrises, ⟨hholds, hsigned⟩, rfl⟩
    exact ⟨_, (run_btDeserializeInt_text hne hd).mpr ⟨hrises, rfl, hholds, hsigned, rfl⟩⟩
  · rw [btDeserializeInt, typeError_bind_iff, (reads_btDeserializeInteger s).typeError_iff]
    refine or_iff_left ?_
    rintro ⟨⟨magnitude, negative⟩, u, -, h⟩
    revert h
    dsimp only
    split
    · split
      · exact (NoTypeError.throwIf _ _).bind (fun _ => .pure _) u
      · exact (NoTypeError.throwIf _ _).bind (fun _ => .pure _) u
    · exact (NoTypeError.throwIf _ _).bind
        (fun _ => (NoTypeError.throwIf _ _).bind fun _ => .pure _) u

end Integers

section Containers

variable {α β : Type} {text text' : Text} {wrong wrong' : Bytes → Prop} {s : Bytes}

/-- The element loop goes from element to element, and stops at the end of the
container or of the view. -/
theorem reads_untilEnd {body : α → BtReader α} (hshrinks : Shrinks text)
    (hbody : ∀ t, t.length ≤ s.length → ∀ a, ReadsText (body a) text wrong t) {n : Nat}
    (hn : s.length < n) (a : α) :
    ReadsText (untilEnd body n a) (fun s t => Walk text s t ∧ ¬ More t)
      (WrongWalk text wrong) s := by
  induction n generalizing s a with
  | zero => omega
  | succ n ih =>
    by_cases hmore : More s
    · obtain ⟨c, t, rfl, hc⟩ := hmore
      have hmore : More (c :: t) := ⟨c, t, rfl, hc⟩
      have hstep := run_untilEnd_step body n a t hc
      have hreads : ReadsText (body a >>= untilEnd body n) _ _ (c :: t) :=
        (hbody (c :: t) (le_refl _) a).bind fun b u hu => by
          have hlen := hshrinks _ _ (((hbody _ (le_refl _) a).ok_iff u).mp ⟨b, hu⟩)
          exact ih (s := u) (fun t ht => hbody t (by omega)) (by omega) b
      refine ⟨fun rest => ?_, ?_⟩
      · rw [hstep, hreads.ok_iff rest, walk_iff_of_more hmore]
        constructor
        · rintro ⟨u, hu, hw, hend⟩
          exact ⟨.inr ⟨u, hu, hw⟩, hend⟩
        · rintro ⟨rfl | ⟨u, hu, hw⟩, hend⟩
          · exact absurd hmore hend
          · exact ⟨u, hu, hw, hend⟩
      · rw [TypeError, hstep, ← TypeError, hreads.typeError_iff, wrongWalk_iff_of_more hmore]
    · have hrun : (untilEnd body (n + 1) a).run s = .ok a s := by
        rcases eq_end_of_not_more hmore with rfl | ⟨t, rfl⟩ <;> rfl
      refine ⟨fun rest => ?_, ?_⟩
      · rw [hrun, walk_iff_of_not_more hmore]
        constructor
        · rintro ⟨_, h⟩
          obtain ⟨-, rfl⟩ := EStateM.Result.ok.inj h
          exact ⟨rfl, hmore⟩
        · rintro ⟨rfl, -⟩
          exact ⟨a, rfl⟩
      · exact iff_of_false (not_typeError_of_ok hrun) (not_wrongWalk hmore)

theorem reads_closeWith {x : BtReader α} {what : String}
    (hx : ReadsText x (fun s t => Walk text s t ∧ ¬ More t) wrong s) :
    ReadsText (closeWith (.invalid what) x) (fun s rest => Walk text s ('e'.toUInt8 :: rest)) wrong
      s := by
  refine ⟨fun rest => ?_, ?_⟩
  · have hclose : (∃ v, (closeWith (.invalid what) x).run s = .ok v rest) ↔
        ∃ c, (∃ v, x.run s = .ok v (c :: rest)) := by
      constructor
      · rintro ⟨v, h⟩
        obtain ⟨a, t, ha, h⟩ := run_bind_eq_ok_iff.mp h
        rw [run_get_bind] at h
        obtain ⟨hempty, h⟩ := run_throwIf_bind_eq_ok_iff.mp h
        obtain ⟨c, t, rfl⟩ := List.exists_cons_of_ne_nil (show t ≠ [] by simpa using hempty)
        rw [run_removePrefix_bind] at h
        obtain ⟨-, rfl⟩ := EStateM.Result.ok.inj h
        exact ⟨c, a, ha⟩
      · rintro ⟨c, v, h⟩
        refine ⟨v, ?_⟩
        rw [closeWith, run_bind_ok h, run_get_bind, run_throwIf_bind (by simp),
          run_removePrefix_bind]
        rfl
    simp only [hclose, hx.ok_iff]
    constructor
    · rintro ⟨c, hw, hend⟩
      obtain h | ⟨t, ht⟩ := eq_end_of_not_more hend
      · cases h
      · obtain ⟨rfl, rfl⟩ := List.cons.inj ht
        exact hw
    · exact fun hw => ⟨_, hw, not_more_end rest⟩
  · rw [closeWith, typeError_bind_iff, ← hx.typeError_iff]
    refine or_iff_left ?_
    rintro ⟨a, t, -, h⟩
    exact NoTypeError.get.bind (fun _ => (NoTypeError.throwIf _ _).bind fun _ =>
      (NoTypeError.removePrefix _).bind fun _ => .pure _) t h

/-- A reader that looks for one byte, and then for something behind it. -/
theorem reads_checkHead {b : UInt8} {short : String} {what : UInt8 → String}
    {rest : Bytes → UInt8 → BtReader α} {y : Bytes → BtReader α}
    (hrun : ∀ r, r ≠ [] → (checkHead 2 short (· ≠ b) what rest).run (b :: r) = (y r).run r)
    (hy : ∀ r, s = b :: r → ReadsText (y r) text wrong r) :
    ReadsText (checkHead 2 short (· ≠ b) what rest) (fun s rest => Behind b (text · rest) s)
      (fun s => Unfit (· == b) 2 s ∨ Behind b wrong s) s := by
  have hno (P : Bytes → Prop) (h : ¬ ∃ r, s = b :: r ∧ r ≠ []) : ¬ Behind b P s := by
    rintro ⟨r, hs, hr, -⟩
    exact h ⟨r, hs, hr⟩
  have hwrong (c : UInt8) : c ≠ b ↔ (c == b) = false := by simp
  rcases run_checkHead_cases short what rest hwrong Nat.two_pos s with
    ⟨hlen, hs⟩ | ⟨hunfit, what', hs⟩ | ⟨c, r, rfl, hlen, hfits, -⟩
  · have hnone : ¬ ∃ r, s = b :: r ∧ r ≠ [] := by
      rintro ⟨r, rfl, hr⟩
      have := List.length_pos_of_ne_nil hr
      rw [List.length_cons] at hlen
      omega
    exact .of_invalid hs (fun _ => hno _ hnone)
      (not_or.mpr ⟨fun h => absurd h.1 (Nat.not_le.mpr hlen), hno _ hnone⟩)
  · have hnone : ¬ ∃ r, s = b :: r ∧ r ≠ [] := by
      rintro ⟨r, rfl, -⟩
      exact not_unfit (by simp) hunfit
    refine ⟨fun rest => ?_, ?_⟩
    · rw [hs]
      exact iff_of_false (by rintro ⟨_, h⟩; cases h) (hno _ hnone)
    · rw [TypeError, hs]
      exact iff_of_true ⟨_, _, rfl⟩ (.inl hunfit)
  · obtain rfl := eq_of_beq hfits
    have hr : r ≠ [] := List.length_pos_iff.mp (by rw [List.length_cons] at hlen; omega)
    refine ⟨fun rest => ?_, ?_⟩
    · rw [hrun r hr, behind_cons_iff hr, (hy r rfl).ok_iff rest]
    · have hfit : ¬ Unfit (· == c) 2 (c :: r) := not_unfit hfits
      rw [TypeError, hrun r hr, ← TypeError, behind_cons_iff hr, or_iff_right hfit,
        (hy r rfl).typeError_iff]

theorem reads_btDeserializeList {item : BtReader α} (hshrinks : Shrinks text)
    (hitem : ∀ t, t.length < s.length → ReadsText item text wrong t) :
    ReadsText (btDeserializeList item) (ListText text)
      (fun s => Unfit (· == 'l'.toUInt8) 2 s ∨ WrongItem text wrong s) s := by
  refine reads_checkHead (fun r hr => run_btDeserializeList item hr) ?_
  rintro r rfl
  refine reads_closeWith (reads_untilEnd hshrinks (fun t ht list => ?_) (Nat.lt_succ_self _) [])
  exact (hitem t (Nat.lt_succ_of_le ht)).map (list ++ [·])

theorem reads_btDeserializeDict {value : BtReader α} (hshrinks : Shrinks text)
    (hvalue : ∀ t, t.length < s.length → ReadsText value text wrong t) :
    ReadsText (btDeserializeDict value) (PairsText text)
      (fun s => Unfit (· == 'd'.toUInt8) 2 s ∨ WrongPair 2 text wrong s) s := by
  refine reads_checkHead (fun r hr => run_btDeserializeDict value hr) ?_
  rintro r rfl
  refine reads_closeWith (reads_untilEnd (shrinks_anyString.comp hshrinks) (fun t ht dict => ?_)
    (Nat.lt_succ_self _) [])
  refine (reads_btDeserializeStringView t).bind fun k u hk => ?_
  have hlen := shrinks_anyString t u ⟨k, run_btDeserializeStringView_iff.mp hk⟩
  exact (hvalue u (by rw [List.length_cons]; omega)).map (mapInsert k · dict)

/-- The end of `bt_deserialize_tuple`. -/
def closeTuple (elems : BtReader α) : BtReader α := do
  let elems ← elems
  throwIf (← get).isEmpty
    (.invalid "Deserialization failed. encountered end of string before tuple was finished")
  throwIf ((← front) ≠ 'e'.toUInt8)
    (.invalid "Deserialization failed. expected end of tuple but found something else")
  removePrefix 1
  return elems

theorem reads_closeTuple {elems : BtReader α} (h : ReadsText elems text wrong s) :
    ReadsText (closeTuple elems) (fun s rest => text s ('e'.toUInt8 :: rest)) wrong s := by
  refine ⟨fun rest => ?_, ?_⟩
  · rw [← h.ok_iff]
    constructor
    · rintro ⟨v, hv⟩
      obtain ⟨a, t, ha, hv⟩ := run_bind_eq_ok_iff.mp hv
      rw [run_get_bind] at hv
      obtain ⟨hempty, hv⟩ := run_throwIf_bind_eq_ok_iff.mp hv
      obtain ⟨c, t, rfl⟩ := List.exists_cons_of_ne_nil (show t ≠ [] by simpa using hempty)
      rw [run_front_bind] at hv
      obtain ⟨hc, hv⟩ := run_throwIf_bind_eq_ok_iff.mp hv
      obtain rfl := not_not.mp hc
      rw [run_removePrefix_bind] at hv
      obtain ⟨-, rfl⟩ := EStateM.Result.ok.inj hv
      exact ⟨a, ha⟩
    · rintro ⟨v, hv⟩
      refine ⟨v, ?_⟩
      rw [closeTuple, run_bind_ok hv, run_get_bind, run_throwIf_bind (by simp), run_front_bind,
        run_throwIf_bind (by simp), run_removePrefix_bind]
      rfl
  · rw [closeTuple, typeError_bind_iff, ← h.typeError_iff]
    refine or_iff_left ?_
    rintro ⟨a, t, -, ht⟩
    exact NoTypeError.get.bind (fun _ => (NoTypeError.throwIf _ _).bind fun _ =>
      NoTypeError.front.bind fun _ => (NoTypeError.throwIf _ _).bind fun _ =>
      (NoTypeError.removePrefix _).bind fun _ => .pure _) t ht

theorem reads_btDeserializeTuple {elems : BtReader α}
    (helems : ∀ t, ReadsText elems text wrong t) :
    ReadsText (btDeserializeTuple elems) (TupleText text)
      (fun s => Unfit (· == 'l'.toUInt8) 2 s ∨ Behind 'l'.toUInt8 wrong s) s := by
  refine reads_checkHead (y := fun _ => closeTuple elems) (fun r hr => ?_) ?_
  · have := List.length_pos_of_ne_nil hr
    rw [checkHead, run_get_bind, run_throwIf_bind (by simp; omega), run_front_bind,
      run_throwIf_bind (by simp)]
    rfl
  · rintro r rfl
    exact reads_closeTuple (helems r)

theorem reads_readBoth {x : BtReader α} {y : BtReader β} (hx : ∀ t, ReadsText x text wrong t)
    (hy : ∀ t, ReadsText y text' wrong' t) (s : Bytes) :
    ReadsText (readBoth x y) (Relation.Comp text text') (WrongBoth text wrong wrong') s :=
  (hx s).bind fun a t _ => (hy t).map (a, ·)

end Containers

end ArqmaMQ
