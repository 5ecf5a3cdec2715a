import ArqmaMQ.BtRoundTrip

/-! When two readers agree on a view: they leave the same bytes, or both throw
one of the exceptions of the source. -/

namespace ArqmaMQ

/-- The exceptions of the source. Neither the first byte of an empty view was
read nor did a bounded recursion end early. -/
def BtError.Thrown : BtError → Prop
  | .invalid _ => True
  | .invalidType _ => True
  | .undefined => False
  | .outOfFuel => False

@[simp] theorem BtError.thrown_invalid (what : String) : (BtError.invalid what).Thrown := trivial

@[simp] theorem BtError.thrown_invalidType (what : String) :
    (BtError.invalidType what).Thrown := trivial

/-- Both readers go on behind the same bytes of `s`, at least `k` of them, with
related values; or both throw. -/
inductive Alike {α β : Type} (R : α → β → Prop) (k : Nat) (s : Bytes) :
    EStateM.Result BtError Bytes α → EStateM.Result BtError Bytes β → Prop
  | ok {a : α} {b : β} {rest : Bytes} (rel : R a b) (read : Bytes) (hs : read ++ rest = s)
      (hk : k ≤ read.length) : Alike R k s (.ok a rest) (.ok b rest)
  | error {e e' : BtError} {t t' : Bytes} (he : e.Thrown) (he' : e'.Thrown) :
      Alike R k s (.error e t) (.error e' t')

section

variable {α β γ δ : Type} {R : α → β → Prop} {S : γ → δ → Prop} {k j : Nat} {s : Bytes}

theorem run_bind_error {ε σ : Type} {x : EStateM ε σ α} {s s' : σ} {e : ε}
    (h : x.run s = .error e s') (f : α → EStateM ε σ β) : (x >>= f).run s = .error e s' := by
  rw [EStateM.run_bind, h]

theorem run_bind_eq_ok_iff {ε σ : Type} {x : EStateM ε σ α} {f : α → EStateM ε σ β} {s t : σ}
    {b : β} : (x >>= f).run s = .ok b t ↔
      ∃ a s', x.run s = .ok a s' ∧ (f a).run s' = .ok b t := by
  rw [EStateM.run_bind]
  cases x.run s <;> simp

theorem run_throwIf_bind_error {c : Prop} [Decidable c] (h : c) (e : BtError)
    (f : Unit → BtReader β) : (throwIf c e >>= f).run s = .error e s := by
  rw [throwIf, if_pos h]
  rfl

theorem run_throwIf_bind_eq_ok_iff {c : Prop} [Decidable c] {e : BtError}
    {f : Unit → BtReader β} {t : Bytes} {b : β} :
    (throwIf c e >>= f).run s = .ok b t ↔ ¬ c ∧ (f ()).run s = .ok b t := by
  by_cases h : c
  · rw [run_throwIf_bind_error h]
    exact ⟨nofun, fun hh => absurd h hh.1⟩
  · rw [run_throwIf_bind h]
    exact (and_iff_right h).symm

namespace Alike

theorem imp {R' : α → β → Prop} {r : EStateM.Result BtError Bytes α}
    {r' : EStateM.Result BtError Bytes β} (h : Alike R k s r r') (hR : ∀ a b, R a b → R' a b)
    (hj : j ≤ k) : Alike R' j s r r' := by
  cases h with
  | ok rel read hs hk => exact .ok (hR _ _ rel) read hs (by omega)
  | error he he' => exact .error he he'

theorem swap {r : EStateM.Result BtError Bytes α} {r' : EStateM.Result BtError Bytes β}
    (h : Alike R k s r r') : Alike (fun b a => R a b) k s r' r := by
  cases h with
  | ok rel read hs hk => exact .ok rel read hs hk
  | error he he' => exact .error he' he

theorem append {r : EStateM.Result BtError Bytes α} {r' : EStateM.Result BtError Bytes β}
    {t : Bytes} (h : Alike R k t r r') (read : Bytes) (hs : read ++ t = s) :
    Alike R (read.length + k) s r r' := by
  cases h with
  | ok rel read' hs' hk =>
    refine .ok rel (read ++ read') (by rw [List.append_assoc, hs', hs]) ?_
    rw [List.length_append]
    omega
  | error he he' => exact .error he he'

theorem bind {x : BtReader α} {y : BtReader β} {f : α → BtReader γ} {g : β → BtReader δ}
    (h : Alike R k s (x.run s) (y.run s))
    (hf : ∀ a b rest, R a b → rest.length + k ≤ s.length →
      Alike S j rest ((f a).run rest) ((g b).run rest)) :
    Alike S (k + j) s ((x >>= f).run s) ((y >>= g).run s) := by
  generalize hx : x.run s = r at h
  generalize hy : y.run s = r' at h
  cases h with
  | @ok a b rest rel read hs hk =>
    have hlen : rest.length + k ≤ s.length := by
      rw [← hs, List.length_append]
      omega
    rw [run_bind_ok hx, run_bind_ok hy]
    exact ((hf a b rest rel hlen).append read hs).imp (fun _ _ h => h) (by omega)
  | error he he' =>
    rw [run_bind_error hx, run_bind_error hy]
    exact .error he he'

theorem pure {a : α} {b : β} (h : R a b) :
    Alike R 0 s ((Pure.pure a : BtReader α).run s) ((Pure.pure b : BtReader β).run s) :=
  .ok h [] rfl (Nat.le_refl _)

/-- A check that both readers make. -/
theorem check {c : Prop} [Decidable c] {e : BtError} (he : e.Thrown) {f : Unit → BtReader α}
    {g : Unit → BtReader β} (h : ¬ c → Alike R k s ((f ()).run s) ((g ()).run s)) :
    Alike R k s ((throwIf c e >>= f).run s) ((throwIf c e >>= g).run s) := by
  by_cases hc : c
  · rw [run_throwIf_bind_error hc, run_throwIf_bind_error hc]
    exact .error he he
  · rw [run_throwIf_bind hc, run_throwIf_bind hc]
    exact h hc

/-- What is made of the value does not matter for what is read. -/
theorem forget {x : BtReader α} {y : BtReader β} (f : α → γ)
    (h : Alike R k s (x.run s) (y.run s)) :
    Alike (fun _ _ => True) k s ((x >>= fun a => Pure.pure (f a)).run s) (y.run s) := by
  generalize hx : x.run s = r at h
  generalize y.run s = r' at h
  cases h with
  | ok rel read hs hk =>
    rw [run_bind_ok hx]
    exact .ok trivial read hs hk
  | error he he' =>
    rw [run_bind_error hx]
    exact .error he he'

/-- What the first `n` bytes were is settled; the rest is read from there. -/
theorem drop {r : EStateM.Result BtError Bytes α} {r' : EStateM.Result BtError Bytes β} {n : Nat}
    (hn : n ≤ s.length) (h : Alike R k (s.drop n) r r') : Alike R (n + k) s r r' := by
  have hh := h.append (s.take n) (List.take_append_drop n s)
  rwa [List.length_take_of_le hn] at hh

theorem ok_iff {r : EStateM.Result BtError Bytes α} {r' : EStateM.Result BtError Bytes β}
    (h : Alike R k s r r') (rest : Bytes) :
    (∃ a, r = .ok a rest) ↔ ∃ b, r' = .ok b rest := by
  cases h with
  | ok rel read hs hk => simp
  | error he he' => simp

theorem of_ok {r : EStateM.Result BtError Bytes α} {r' : EStateM.Result BtError Bytes β}
    (h : Alike R k s r r') {a : α} {rest : Bytes} (hr : r = .ok a rest) :
    ∃ b, r' = .ok b rest ∧ R a b ∧ ∃ read, read ++ rest = s ∧ k ≤ read.length := by
  cases h with
  | ok rel read hs hk =>
    obtain ⟨rfl, rfl⟩ := EStateM.Result.ok.inj hr
    exact ⟨_, rfl, rel, read, hs, hk⟩
  | error he he' => cases hr

theorem thrown {r : EStateM.Result BtError Bytes α} {r' : EStateM.Result BtError Bytes β}
    (h : Alike R k s r r') {e : BtError} {t : Bytes} (hr : r = .error e t) : e.Thrown := by
  cases h with
  | ok rel read hs hk => cases hr
  | error he he' =>
    obtain ⟨rfl, rfl⟩ := EStateM.Result.error.inj hr
    exact he

end Alike

end

theorem alike_digitLoop (s : Bytes) (u : UInt64) :
    Alike Eq 0 s (digitLoop u s) (digitLoop u s) := by
  induction s generalizing u with
  | nil => exact .ok rfl [] rfl (Nat.le_refl _)
  | cons c s ih =>
    rw [digitLoop]
    split
    · dsimp only
      split
      · exact .error trivial trivial
      · exact ((ih _).drop (s := c :: s) (n := 1) (by simp)).imp (fun _ _ h => h) (by omega)
    · exact .ok rfl [] rfl (Nat.le_refl _)

theorem alike_extractUnsigned (s : Bytes) :
    Alike Eq 0 s (extractUnsigned.run s) (extractUnsigned.run s) := by
  rw [extractUnsigned, run_get_bind]
  refine .check (by simp) fun hs => ?_
  obtain ⟨c, s, rfl⟩ := List.exists_cons_of_ne_nil (by simpa using hs)
  rw [run_front_bind]
  exact .check (by simp) fun _ => alike_digitLoop (c :: s) 0

theorem alike_btDeserializeStringView (s : Bytes) :
    Alike Eq 1 s (btDeserializeStringView.run s) (btDeserializeStringView.run s) := by
  rw [btDeserializeStringView, run_get_bind]
  refine .check (by simp) fun hlen => ?_
  obtain ⟨c, s, rfl⟩ := List.exists_cons_of_length_pos (show 0 < s.length by omega)
  rw [run_front_bind]
  refine .check (by simp) fun _ => ?_
  refine ((alike_extractUnsigned (c :: s)).bind (j := 1) ?_).imp (fun _ _ h => h) (by omega)
  rintro len _ rest rfl -
  rw [run_get_bind]
  refine .check (by simp) fun hs => ?_
  obtain ⟨d, rest, rfl⟩ := List.exists_cons_of_ne_nil (by simpa using hs)
  rw [run_front_bind]
  refine .check (by simp) fun _ => ?_
  rw [run_removePrefix_bind, run_get_bind]
  refine Alike.drop (s := d :: rest) (n := 1) (k := 0) (by simp) (.check (by simp) fun hl => ?_)
  rw [run_removePrefix_bind]
  exact (Alike.drop (n := len.toNat) (by omega) (.pure rfl)).imp (fun _ _ h => h) (by omega)

theorem alike_btDeserializeInteger (s : Bytes) :
    Alike Eq 1 s (btDeserializeInteger.run s) (btDeserializeInteger.run s) := by
  rw [btDeserializeInteger, run_get_bind]
  refine .check (by simp) fun hlen => ?_
  obtain ⟨c, s, rfl⟩ := List.exists_cons_of_length_pos (show 0 < s.length by omega)
  obtain ⟨d, s, rfl⟩ := List.exists_cons_of_length_pos (show 0 < s.length by simp at hlen; omega)
  rw [run_front_bind]
  refine .check (by simp) fun _ => ?_
  rw [run_removePrefix_bind, List.drop_one, List.tail_cons, run_front_bind, run_removePrefix_bind]
  refine Alike.drop (s := c :: d :: s) (n := 1) (k := 0) (by simp) ?_
  rw [List.drop_one, List.tail_cons]
  refine (Alike.drop (n := (d == '-'.toUInt8).toNat) (k := 0) ?_ ?_).imp (fun _ _ h => h)
    (by omega)
  · have := Bool.toNat_le (d == '-'.toUInt8)
    simp only [List.length_cons]
    omega
  refine ((alike_extractUnsigned _).bind (j := 0) ?_).imp (fun _ _ h => h) (by omega)
  rintro magnitude _ rest rfl -
  rw [run_get_bind]
  refine .check (by simp) fun hs => ?_
  obtain ⟨e, rest, rfl⟩ := List.exists_cons_of_ne_nil (by simpa using hs)
  rw [run_front_bind]
  refine .check (by simp) fun _ => ?_
  rw [run_removePrefix_bind]
  refine (Alike.drop (n := 1) (k := 0) (by simp) ?_).imp (fun _ _ h => h) (by omega)
  exact .check (by simp) fun _ => .pure rfl

section Loops

variable {α β : Type} {R : α → β → Prop}

/-- Two element loops agree when their bodies do, whatever their bounds, as
long as these cover the view. -/
theorem alike_untilEnd {body : α → BtReader α} {body' : β → BtReader β} {k : Nat}
    (hbody : ∀ t, t ≠ [] → t.length ≤ k → ∀ a b, R a b →
      Alike R 1 t ((body a).run t) ((body' b).run t)) {n m : Nat} {s : Bytes} {a : α} {b : β}
    (hk : s.length ≤ k) (hn : s.length < n) (hm : s.length < m) (hab : R a b) :
    Alike R 0 s ((untilEnd body n a).run s) ((untilEnd body' m b).run s) := by
  induction n generalizing m s a b with
  | zero => omega
  | succ n ih =>
    obtain ⟨m, rfl⟩ : ∃ l, m = l + 1 := ⟨m - 1, by omega⟩
    rcases s with _ | ⟨c, s⟩
    · exact .ok hab [] rfl (Nat.le_refl _)
    by_cases hc : c = 'e'.toUInt8
    · subst hc
      exact .ok hab [] rfl (Nat.le_refl _)
    · rw [run_untilEnd_step body n a s hc, run_untilEnd_step body' m b s hc]
      refine ((hbody (c :: s) (by simp) hk a b hab).bind (j := 0) ?_).imp (fun _ _ h => h)
        (by omega)
      intro a b rest hab hlen
      exact ih (by omega) (by omega) (by omega) hab

/-- The end of a container: unless the view is used up, one byte is consumed. -/
def closeWith (e : BtError) (x : BtReader α) : BtReader α := do
  let a ← x
  throwIf (← get).isEmpty e
  removePrefix 1
  return a

theorem run_closeWith_congr {x y : BtReader α} {s t : Bytes} (h : x.run s = y.run t)
    (e : BtError) : (closeWith e x).run s = (closeWith e y).run t := by
  rw [closeWith, closeWith, EStateM.run_bind, h, EStateM.run_bind]

theorem Alike.closeWith {x : BtReader α} {y : BtReader β} {k : Nat} {s : Bytes} {e e' : BtError}
    (he : e.Thrown) (he' : e'.Thrown) (h : Alike R k s (x.run s) (y.run s)) :
    Alike R (k + 1) s ((closeWith e x).run s) ((closeWith e' y).run s) := by
  refine h.bind ?_
  rintro a b rest hab -
  cases rest with
  | nil => exact .error he he'
  | cons c rest => exact .ok hab [c] rfl (Nat.le_refl _)

/-- Reading, and failing where that uses the view up. -/
def needMore (e : BtError) (x : BtReader α) : BtReader α := do
  let a ← x
  throwIf (← get).isEmpty e
  return a

theorem run_needMore_nil {x : BtReader α} {s : Bytes} {a : α} (e : BtError)
    (h : x.run s = .ok a []) :
    (needMore e x).run s = .error e [] := by
  rw [needMore, run_bind_ok h, run_get_bind, run_throwIf_bind_error (by simp)]

theorem run_needMore_cons {x : BtReader α} {s rest : Bytes} {c : UInt8} {a : α} (e : BtError)
    (h : x.run s = .ok a (c :: rest)) : (needMore e x).run s = .ok a (c :: rest) := by
  rw [needMore, run_bind_ok h, run_get_bind, run_throwIf_bind (by simp)]
  rfl

theorem Alike.needMore {x : BtReader α} {y : BtReader β} {k : Nat} {s : Bytes} {e e' : BtError}
    (he : e.Thrown) (he' : e'.Thrown) (h : Alike R k s (x.run s) (y.run s)) :
    Alike (fun _ _ => True) k s ((needMore e x).run s)
      ((do let _ ← y; throwIf (← get).isEmpty e' : BtReader Unit).run s) := by
  refine h.bind (j := 0) ?_
  rintro a b rest - -
  cases rest with
  | nil => exact .error he he'
  | cons c rest => exact .ok trivial [] rfl (Nat.le_refl _)

end Loops

section Containers

variable {α β : Type} {R : α → β → Prop}

def listUnfinished : BtError :=
  .invalid "Deserialization failed: encountered end of string before list was finished"

def dictUnfinished : BtError :=
  .invalid "Deserialization failed: encountered end of string before dict was finished"

/-- The element loop of `btDeserializeList`. -/
def listItem (item : BtReader α) (list : List α) : BtReader (List α) :=
  return list ++ [← item]

/-- The element loop of `btDeserializeDict`. -/
def dictItem (value : BtReader α) (dict : List (Bytes × α)) : BtReader (List (Bytes × α)) := do
  let key ← btDeserializeStringView
  let val ← value
  return mapInsert key val dict

theorem run_btDeserializeList (item : BtReader α) {s : Bytes} (hs : s ≠ []) :
    (btDeserializeList item).run ('l'.toUInt8 :: s) =
      (closeWith listUnfinished (untilEnd (listItem item) (s.length + 1) [])).run s := by
  have := List.length_pos_of_ne_nil hs
  rw [btDeserializeList, run_get_bind, run_throwIf_bind (by simp; omega), run_front_bind,
    run_throwIf_bind (by simp), run_removePrefix_bind]
  rfl

theorem run_btDeserializeDict (value : BtReader α) {s : Bytes} (hs : s ≠ []) :
    (btDeserializeDict value).run ('d'.toUInt8 :: s) =
      (closeWith dictUnfinished (untilEnd (dictItem value) (s.length + 1) [])).run s := by
  have := List.length_pos_of_ne_nil hs
  rw [btDeserializeDict, run_get_bind, run_throwIf_bind (by simp; omega), run_front_bind,
    run_throwIf_bind (by simp), run_removePrefix_bind]
  rfl

/-- A view that a container can begin with. -/
theorem exists_eq_cons {s : Bytes} {b : UInt8} (h : ¬ (s.length < 2 ∨ s.head? ≠ some b)) :
    ∃ t, t ≠ [] ∧ s = b :: t := by
  obtain ⟨hlen, hhead⟩ := not_or.mp h
  obtain ⟨c, t, rfl⟩ := List.exists_cons_of_length_pos (show 0 < s.length by omega)
  obtain rfl : c = b := by simpa using hhead
  exact ⟨t, List.length_pos_iff.mp (by rw [List.length_cons] at hlen; omega), rfl⟩

theorem run_btDeserializeList_error (item : BtReader α) {s : Bytes}
    (h : s.length < 2 ∨ s.head? ≠ some 'l'.toUInt8) :
    ∃ e, (btDeserializeList item).run s = .error e s ∧ e.Thrown := by
  rw [btDeserializeList, run_get_bind]
  by_cases hlen : s.length < 2
  · exact ⟨_, run_throwIf_bind_error hlen _ _, trivial⟩
  · obtain ⟨c, s, rfl⟩ := List.exists_cons_of_length_pos (show 0 < s.length by omega)
    have hc : c ≠ 'l'.toUInt8 := by simpa using h.resolve_left hlen
    rw [run_throwIf_bind hlen, run_front_bind]
    exact ⟨_, run_throwIf_bind_error hc _ _, trivial⟩

theorem run_btDeserializeDict_error (value : BtReader α) {s : Bytes}
    (h : s.length < 2 ∨ s.head? ≠ some 'd'.toUInt8) :
    ∃ e, (btDeserializeDict value).run s = .error e s ∧ e.Thrown := by
  rw [btDeserializeDict, run_get_bind]
  by_cases hlen : s.length < 2
  · exact ⟨_, run_throwIf_bind_error hlen _ _, trivial⟩
  · obtain ⟨c, s, rfl⟩ := List.exists_cons_of_length_pos (show 0 < s.length by omega)
    have hc : c ≠ 'd'.toUInt8 := by simpa using h.resolve_left hlen
    rw [run_throwIf_bind hlen, run_front_bind]
    exact ⟨_, run_throwIf_bind_error hc _ _, trivial⟩

theorem alike_btDeserializeList {item item' : BtReader α} {s : Bytes} (hs : s ≠ [])
    (h : ∀ t, t ≠ [] → t.length ≤ s.length → Alike Eq 1 t (item.run t) (item'.run t)) :
    Alike Eq 1 ('l'.toUInt8 :: s) ((btDeserializeList item).run ('l'.toUInt8 :: s))
      ((btDeserializeList item').run ('l'.toUInt8 :: s)) := by
  rw [run_btDeserializeList item hs, run_btDeserializeList item' hs]
  refine (Alike.drop (s := 'l'.toUInt8 :: s) (n := 1) (k := 1) (by simp) ?_).imp (fun _ _ h => h)
    (by omega)
  refine (alike_untilEnd (k := s.length) ?_ (by simp) (by simp) (by simp) rfl).closeWith
    trivial trivial
  rintro t ht hlen list _ rfl
  refine (h t ht hlen).bind (j := 0) ?_
  rintro v _ rest rfl -
  exact .pure rfl

theorem alike_btDeserializeDict {value value' : BtReader α} {s : Bytes} (hs : s ≠ [])
    (h : ∀ t, t.length < s.length → Alike Eq 1 t (value.run t) (value'.run t)) :
    Alike Eq 1 ('d'.toUInt8 :: s) ((btDeserializeDict value).run ('d'.toUInt8 :: s))
      ((btDeserializeDict value').run ('d'.toUInt8 :: s)) := by
  rw [run_btDeserializeDict value hs, run_btDeserializeDict value' hs]
  refine (Alike.drop (s := 'd'.toUInt8 :: s) (n := 1) (k := 1) (by simp) ?_).imp (fun _ _ h => h)
    (by omega)
  refine (alike_untilEnd (k := s.length) ?_ (by simp) (by simp) (by simp) rfl).closeWith
    trivial trivial
  rintro t - hlen dict _ rfl
  refine ((alike_btDeserializeStringView t).bind (j := 1) ?_).imp (fun _ _ h => h) (by omega)
  rintro key _ rest rfl hrest
  refine (h rest (by omega)).bind (j := 0) ?_
  rintro v _ rest rfl -
  exact .pure rfl

end Containers

theorem run_btDeserializeValue_of_length_lt {s : Bytes} (hs : s.length < 2) (n : Nat) :
    (btDeserializeValue (n + 1)).run s = .error (.invalid
      "Deserialization failed: end of string found where bt-encoded value expected") s := by
  rw [btDeserializeValue, run_get_bind, run_throwIf_bind_error hs]

/-- Bounds that cover the view do not matter. -/
theorem alike_btDeserializeValue {n m : Nat} {s : Bytes} (hn : s.length < n) (hm : s.length < m) :
    Alike Eq 1 s ((btDeserializeValue n).run s) ((btDeserializeValue m).run s) := by
  induction n generalizing m s with
  | zero => omega
  | succ n ih =>
    obtain ⟨m, rfl⟩ : ∃ l, m = l + 1 := ⟨m - 1, by omega⟩
    by_cases hlen : s.length < 2
    · rw [run_btDeserializeValue_of_length_lt hlen, run_btDeserializeValue_of_length_lt hlen]
      exact .error trivial trivial
    obtain ⟨c, s, rfl⟩ := List.exists_cons_of_length_pos (show 0 < s.length by omega)
    rw [List.length_cons] at hlen hn hm
    have hs : s ≠ [] := List.length_pos_iff.mp (by omega)
    rw [run_btDeserializeValue_cons n c hs, run_btDeserializeValue_cons m c hs]
    split
    · subst c
      refine (alike_btDeserializeDict hs fun t ht => ih (by omega) (by omega)).bind (j := 0) ?_
      rintro d _ rest rfl -
      exact .pure rfl
    split
    · subst c
      refine (alike_btDeserializeList hs fun t _ ht => ih (by omega) (by omega)).bind (j := 0) ?_
      rintro l _ rest rfl -
      exact .pure rfl
    split
    · refine (alike_btDeserializeInteger _).bind (j := 0) ?_
      rintro i _ rest rfl -
      exact .pure rfl
    split
    · refine (alike_btDeserializeStringView _).bind (j := 0) ?_
      rintro b _ rest rfl -
      exact .pure rfl
    · exact .error trivial trivial

/-- `bt_deserialize<bt_list>` on a whole view. -/
def btDeserializeBtList : BtReader (List BtVariant) := do
  btDeserializeList (btDeserializeValue (← get).length)

/-- `bt_deserialize<bt_dict>` on a whole view. -/
def btDeserializeBtDict : BtReader (List (Bytes × BtVariant)) := do
  btDeserializeDict (btDeserializeValue (← get).length)

/-- How a value is parsed, by the first byte of its text. -/
inductive Parsed (s rest : Bytes) : BtVariant → Prop
  | dict {d : List (Bytes × BtVariant)} (head : s.head? = some 'd'.toUInt8)
      (h : btDeserializeBtDict.run s = .ok d rest) : Parsed s rest (.dict d)
  | list {l : List BtVariant} (head : s.head? = some 'l'.toUInt8)
      (h : btDeserializeBtList.run s = .ok l rest) : Parsed s rest (.list l)
  | int {magnitude : UInt64} (head : s.head? = some 'i'.toUInt8)
      (h : btDeserializeInteger.run s = .ok (magnitude, true) rest) :
      Parsed s rest (.int (-magnitude.toInt64))
  | uint {magnitude : UInt64} (head : s.head? = some 'i'.toUInt8)
      (h : btDeserializeInteger.run s = .ok (magnitude, false) rest) :
      Parsed s rest (.uint magnitude)
  | string {b : Bytes} {c : UInt8} (head : s.head? = some c) (digit : isDigit c = true)
      (h : btDeserializeStringView.run s = .ok b rest) : Parsed s rest (.string b)

theorem parsed_of_run_btDeserialize {s rest : Bytes} {v : BtVariant}
    (h : btDeserialize.run s = .ok v rest) : Parsed s rest v := by
  rw [btDeserialize, run_get_bind] at h
  by_cases hlen : s.length < 2
  · rw [run_btDeserializeValue_of_length_lt hlen] at h
    cases h
  obtain ⟨c, s, rfl⟩ := List.exists_cons_of_length_pos (show 0 < s.length by omega)
  have hs : s ≠ [] := List.length_pos_iff.mp (by rw [List.length_cons] at hlen; omega)
  rw [run_btDeserializeValue_cons _ c hs] at h
  split at h
  · subst c
    obtain ⟨d, _, hd, h⟩ := run_bind_eq_ok_iff.mp h
    obtain ⟨rfl, rfl⟩ := EStateM.Result.ok.inj h
    refine .dict rfl ?_
    rw [btDeserializeBtDict, run_get_bind]
    exact hd
  split at h
  · subst c
    obtain ⟨l, _, hl, h⟩ := run_bind_eq_ok_iff.mp h
    obtain ⟨rfl, rfl⟩ := EStateM.Result.ok.inj h
    refine .list rfl ?_
    rw [btDeserializeBtList, run_get_bind]
    exact hl
  split at h
  · subst c
    obtain ⟨⟨magnitude, negative⟩, _, hi, h⟩ := run_bind_eq_ok_iff.mp h
    obtain ⟨rfl, rfl⟩ := EStateM.Result.ok.inj h
    cases negative
    · exact .uint rfl hi
    · exact .int rfl hi
  split at h
  · obtain ⟨b, _, hb, h⟩ := run_bind_eq_ok_iff.mp h
    obtain ⟨rfl, rfl⟩ := EStateM.Result.ok.inj h
    exact .string rfl (by assumption) hb
  · cases h

theorem run_btDeserialize_list {s rest : Bytes} {l : List BtVariant} :
    btDeserialize.run s = .ok (.list l) rest ↔ btDeserializeBtList.run s = .ok l rest := by
  constructor
  · intro h
    cases parsed_of_run_btDeserialize h with
    | list head h => exact h
  · intro h
    by_cases herror : s.length < 2 ∨ s.head? ≠ some 'l'.toUInt8
    · obtain ⟨e, he, -⟩ := run_btDeserializeList_error (btDeserializeValue s.length) herror
      cases h.symm.trans he
    rw [btDeserializeBtList, run_get_bind] at h
    obtain ⟨s, hs, rfl⟩ := exists_eq_cons herror
    rw [btDeserialize, run_get_bind, run_btDeserializeValue_cons _ _ hs, if_neg (by decide),
      if_pos rfl, run_bind_ok h]
    rfl

theorem run_btDeserialize_dict {s rest : Bytes} {d : List (Bytes × BtVariant)} :
    btDeserialize.run s = .ok (.dict d) rest ↔ btDeserializeBtDict.run s = .ok d rest := by
  constructor
  · intro h
    cases parsed_of_run_btDeserialize h with
    | dict head h => exact h
  · intro h
    by_cases herror : s.length < 2 ∨ s.head? ≠ some 'd'.toUInt8
    · obtain ⟨e, he, -⟩ := run_btDeserializeDict_error (btDeserializeValue s.length) herror
      cases h.symm.trans he
    rw [btDeserializeBtDict, run_get_bind] at h
    obtain ⟨s, hs, rfl⟩ := exists_eq_cons herror
    rw [btDeserialize, run_get_bind, run_btDeserializeValue_cons _ _ hs, if_pos rfl, run_bind_ok h]
    rfl

end ArqmaMQ
