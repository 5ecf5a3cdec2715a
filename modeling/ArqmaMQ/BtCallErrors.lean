import ArqmaMQ.BtAdvances
import ArqmaMQ.BtSkipErrors

/-! Type errors of the methods of the dict consumer. The next key may be cached on
the way; a cached key that is flushed before the value is read is lost. -/

namespace ArqmaMQ

namespace BtDictConsumer

open BtListConsumer (Tests skipWrong)

/-- The key of the next pair, and the view at its value. -/
def AtValue (c : BtDictConsumer) (k d : Bytes) : Prop :=
  c.key_ = some k ∧ d = c.data ∨ c.key_ = none ∧ StringText k c.data d ∧ More d

/-- Neither a key comes next nor the end of the dict. -/
def WrongKey (c : BtDictConsumer) : Prop :=
  c.key_ = none ∧ (c.data = [] ∨ More c.data ∧ Unfit isDigit 1 c.data)

/-- Without a cached key the next thing is a key. -/
def expected (fits : UInt8 → Bool) (c : BtDictConsumer) : UInt8 → Bool :=
  if c.key_.isSome then fits else isDigit

/-- If the exception about the type was thrown, then the pair can still be consumed, and
what is wrong is the first byte of its key or of its value. -/
def Kept {α : Type} (fits : UInt8 → Bool) (c : BtDictConsumer)
    (r : EStateM.Result BtError BtDictConsumer α) : Prop :=
  ∀ what c', r = .error (.invalidType what) c' →
    UpToKey c c' ∧ Mismatch (c'.expected fits) c'.data

def KeepsInput {α : Type} (fits : UInt8 → Bool) (x : Method α) (c : BtDictConsumer) : Prop :=
  Kept fits c (x.run c)

def PairCall.fits : PairCall → UInt8 → Bool
  | .string, c => isDigit c
  | .integer _, c => c == 'i'.toUInt8
  | .list t, c => c == 'l'.toUInt8 && t.fits c
  | .dict t, c => c == 'd'.toUInt8 && t.fits c
  | .listData, c | .listConsumer, c => c == 'l'.toUInt8
  | .dictData, c | .dictConsumer, c => c == 'd'.toUInt8

def Call.fits : Call → UInt8 → Bool
  | .next op, c | .consume op, c => op.fits c
  | .skipUntil _, c => BtType.value.fits c
  | _, _ => true

/-- The value of the next pair begins with the byte, and something is wrong with it. -/
def WrongValue (b : UInt8) (wrong : Bytes → Prop) (c : BtDictConsumer) : Prop :=
  ∃ k d, AtValue c k d ∧ d.head? = some b ∧ wrong d

/-- The text of the value is taken when its key is flushed already, be it too short for
a container. -/
def PairCall.WrongInside : PairCall → BtDictConsumer → Prop
  | .string, _ | .integer _, _ => False
  | .list t, c => WrongValue 'l'.toUInt8 t.WrongInside c
  | .dict t, c => WrongValue 'd'.toUInt8 t.WrongInside c
  | .listData, c | .listConsumer, c => 2 ≤ c.data.length ∧ WrongValue 'l'.toUInt8
      (fun d => d.length < 2 ∨ WrongItem (valueText d.length) (skipWrong d.length) d) c
  | .dictData, c | .dictConsumer, c => 2 ≤ c.data.length ∧ WrongValue 'd'.toUInt8
      (fun d => d.length < 2 ∨ WrongPair 1 (valueText d.length) (skipWrong d.length) d) c

/-- A pair in front of the key that is looked for is skipped. -/
def Skips (find : Bytes) (c c' : BtDictConsumer) : Prop :=
  ∃ k d t, AtValue c k d ∧ k < find ∧ valueText (d.length + 1) d t ∧ c' = ⟨t, none⟩

/-- The next key is wrong, or the value of a pair that is to be skipped. -/
def SkipsWrong (find : Bytes) (c : BtDictConsumer) : Prop :=
  WrongKey c ∨ ∃ k d, AtValue c k d ∧ k < find ∧ skipWrong (d.length + 1) d

/-- Behind a key that was flushed, or behind the delimiter of the value, a key or a value
is of the wrong type. -/
def Call.WrongInside : Call → BtDictConsumer → Prop
  | .next op, c | .consume op, c => op.WrongInside c
  | .skipUntil find, c =>
    ¬ WrongKey c ∧ ∃ c', Relation.ReflTransGen (Skips find) c c' ∧ SkipsWrong find c'
  | _, _ => False

variable {α β : Type} {c c' : BtDictConsumer} {k d t : Bytes}

section Keys

theorem run_consumeStringView_iff {s : Bytes} :
    BtListConsumer.consumeStringView.run s = .ok k d ↔ StringText k s d := by
  rw [← run_btDeserializeStringView_iff]
  have h := BtListConsumer.alike_consumeStringView s
  constructor
  · intro hrun
    obtain ⟨_, hrun', rfl, -⟩ := h.swap.of_ok hrun
    exact hrun'
  · intro hrun
    obtain ⟨_, hrun', rfl, -⟩ := h.of_ok hrun
    exact hrun'

theorem AtValue.unique {k' d' : Bytes} (h : AtValue c k d) (h' : AtValue c k' d') :
    k = k' ∧ d = d' := by
  rcases h with ⟨hk, rfl⟩ | ⟨hk, h, -⟩ <;> rcases h' with ⟨hk', rfl⟩ | ⟨hk', h', -⟩
  · exact ⟨Option.some.inj (hk.symm.trans hk'), rfl⟩
  · cases hk.symm.trans hk'
  · cases hk.symm.trans hk'
  · rw [← run_consumeStringView_iff] at h h'
    exact EStateM.Result.ok.inj (h.symm.trans h')

theorem not_stringText_of_wrong {s : Bytes} (h : s = [] ∨ Unfit isDigit 1 s) :
    ¬ StringText k s d := by
  intro hs
  obtain ⟨b, r, rfl, hb, -⟩ := hs.eq_cons
  rcases h with h | h
  · cases h
  · exact not_unfit hb h

theorem AtValue.not_wrongKey (h : AtValue c k d) : ¬ WrongKey c := by
  rintro ⟨hk, hwrong⟩
  rcases h with ⟨hk', -⟩ | ⟨-, h, -⟩
  · cases hk.symm.trans hk'
  · exact not_stringText_of_wrong (hwrong.imp_right And.right) h

theorem WrongKey.not_more_end {s : Bytes} : ¬ WrongKey ⟨'e'.toUInt8 :: s, none⟩ := by
  rintro ⟨-, h | ⟨h, -⟩⟩
  · cases h
  · exact ArqmaMQ.not_more_end s h

/-- What asking for the key comes to, told from the state. -/
theorem consumeKey_cases (c : BtDictConsumer) :
    (∃ k d, AtValue c k d ∧ consumeKey.run c = .ok true ⟨d, some k⟩) ∨
      (∀ k d, ¬ AtValue c k d) ∧
        ((∃ s, c = ⟨'e'.toUInt8 :: s, none⟩ ∧ consumeKey.run c = .ok false c) ∨
          (WrongKey c ∧ ∃ what, consumeKey.run c = .error (.invalidType what) c) ∨
          ¬ WrongKey c ∧ ∃ what c', consumeKey.run c = .error (.invalid what) c') := by
  have hnone {s : Bytes} (h : ∀ k d, StringText k s d → ¬ More d) (k d : Bytes) :
      ¬ AtValue ⟨s, none⟩ k d := by
    rintro (⟨hk, -⟩ | ⟨-, hs, hmore⟩)
    · cases hk
    · exact h k d hs hmore
  have hkey := keyOutcome c
  generalize consumeKey.run c = r at hkey
  cases hkey with
  | cached data k => exact .inl ⟨k, data, .inl ⟨rfl, rfl⟩, rfl⟩
  | outOfData =>
    refine .inr ⟨hnone fun k d h => ?_, .inr (.inl ⟨⟨rfl, .inl rfl⟩, _, rfl⟩)⟩
    exact absurd h (not_stringText_of_wrong (.inl rfl))
  | atEnd s =>
    refine .inr ⟨hnone fun k d h => ?_, .inl ⟨s, rfl, rfl⟩⟩
    exact absurd h (not_stringText_of_wrong (.inr ⟨Nat.succ_pos _, _, rfl, by decide⟩))
  | @noKey s t b e hb h =>
    have hmore : More (b :: s) := ⟨b, s, rfl, hb⟩
    have herror := (BtListConsumer.reads_consumeStringView (b :: s)).typeError_iff
    refine .inr ⟨hnone fun k d hs => ?_, .inr ?_⟩
    · cases (run_consumeStringView_iff.mpr hs).symm.trans h
    have hthrown := (BtListConsumer.alike_consumeStringView _).swap.thrown h
    cases e with
    | invalidType what => exact .inl ⟨⟨rfl, .inr ⟨hmore, herror.mp ⟨what, t, h⟩⟩⟩, what, rfl⟩
    | invalid what =>
      refine .inr ⟨?_, what, _, rfl⟩
      rintro ⟨-, hnil | ⟨-, hunfit⟩⟩
      · cases hnil
      · obtain ⟨_, _, h'⟩ := herror.mpr hunfit
        cases h.symm.trans h'
    | undefined => exact hthrown.elim
    | outOfFuel => exact hthrown.elim
  | @noValue s k rest h hrest =>
    have htext := run_consumeStringView_iff.mp h
    refine .inr ⟨hnone fun k d hs hmore => ?_, .inr (.inr ⟨?_, _, _, rfl⟩)⟩
    · obtain ⟨-, rfl⟩ := EStateM.Result.ok.inj (h.symm.trans (run_consumeStringView_iff.mpr hs))
      obtain ⟨b, t, rfl, hb⟩ := hmore
      exact hrest.elim (fun h => by cases h) fun h => hb (Option.some.inj h)
    · rintro ⟨-, hwrong⟩
      exact not_stringText_of_wrong (hwrong.imp_right And.right) htext
  | found h hb =>
    exact .inl ⟨_, _, .inr ⟨rfl, run_consumeStringView_iff.mp h, _, _, rfl, hb⟩, rfl⟩

theorem AtValue.run_consumeKey (h : AtValue c k d) : consumeKey.run c = .ok true ⟨d, some k⟩ := by
  rcases consumeKey_cases c with ⟨k', d', h', hrun⟩ | ⟨hno, -⟩
  · obtain ⟨rfl, rfl⟩ := h.unique h'
    exact hrun
  · exact absurd h (hno k d)

theorem AtValue.suffix (h : AtValue c k d) : d <:+ c.data := by
  rcases h with ⟨-, rfl⟩ | ⟨-, ⟨ds, -, -, -, -, hs⟩, -⟩
  · exact List.suffix_rfl
  · rw [hs]
    exact ((List.suffix_append k d).trans (List.suffix_cons _ _)).trans (List.suffix_append ds _)

theorem AtValue.upToKey_iff (h : AtValue c k d) : UpToKey c ⟨t, some k⟩ ↔ t = d := by
  obtain ⟨data, key⟩ := c
  rcases h with ⟨hk, rfl⟩ | ⟨hk, hs, -⟩
  · obtain rfl : key = some k := hk
    constructor
    · rintro (h | ⟨h, -⟩)
      · exact congrArg BtDictConsumer.data h
      · cases h
    · rintro rfl
      exact .inl rfl
  · obtain rfl : key = none := hk
    constructor
    · rintro (h | ⟨-, k', hk', hrun⟩)
      · cases congrArg BtDictConsumer.key_ h
      · exact (EStateM.Result.ok.inj (hrun.symm.trans (run_consumeStringView_iff.mpr hs))).2
    · rintro rfl
      exact .inr ⟨rfl, k, rfl, run_consumeStringView_iff.mpr hs⟩

/-- The key is gone. -/
theorem AtValue.not_upToKey (h : AtValue c k d) (ht : t <:+ d) : ¬ UpToKey c ⟨t, none⟩ := by
  rintro (heq | ⟨-, _, hk, -⟩)
  · subst heq
    rcases h with ⟨hk, -⟩ | ⟨-, hs, -⟩
    · cases hk
    · have := shrinks_anyString _ _ ⟨k, hs⟩
      exact absurd ht.length_le (Nat.not_le.mpr this)
  · cases hk

end Keys

section Rules

variable {fits p : UInt8 → Bool} {x : Method α} {e : BtError}

theorem kept_ok (a : α) : Kept fits c (.ok a c') := by
  intro what c'' h
  cases h

theorem kept_error (hc : UpToKey c c') (hm : Mismatch (c'.expected fits) c'.data) :
    Kept (α := α) fits c (.error e c') := by
  intro what c'' h
  obtain ⟨-, rfl⟩ := EStateM.Result.error.inj h
  exact ⟨hc, hm⟩

theorem kept_of_not_typeError {x : Method α} (h : ¬ TypeError x c') : Kept fits c (x.run c') :=
  fun what c'' hrun => absurd ⟨what, c'', hrun⟩ h

theorem WrongKey.mismatch (h : WrongKey c) : Mismatch (c.expected fits) c.data := by
  obtain ⟨hk, h⟩ := h
  rw [expected, hk]
  rcases h with h | ⟨-, -, h⟩
  · exact .inl (by rw [h]; decide)
  · exact .inr h

theorem mismatch_end (fits : UInt8 → Bool) (s : Bytes) :
    Mismatch (expected fits ⟨'e'.toUInt8 :: s, none⟩) ('e'.toUInt8 :: s) :=
  .inr ⟨_, rfl, rfl⟩

/-- A method that asks for the key first. -/
theorem keepsInput_consumeKey_bind_iff {f : Bool → Method α} :
    KeepsInput fits (consumeKey >>= f) c ↔
      (∀ k d, AtValue c k d → Kept fits c ((f true).run ⟨d, some k⟩)) ∧
        ∀ s, c = ⟨'e'.toUInt8 :: s, none⟩ → Kept fits c ((f false).run c) := by
  rw [KeepsInput]
  rcases consumeKey_cases c with ⟨k, d, hat, hrun⟩ | ⟨hno, ⟨s, rfl, hrun⟩ | ⟨hkey, what, hrun⟩ |
    ⟨hkey, what, c', hrun⟩⟩
  · rw [run_bind_ok hrun]
    refine ⟨fun h => ⟨fun k' d' hat' => ?_, ?_⟩, fun h => h.1 k d hat⟩
    · obtain ⟨rfl, rfl⟩ := hat.unique hat'
      exact h
    · rintro s rfl
      cases hat.run_consumeKey
  · rw [run_bind_ok hrun]
    exact ⟨fun h => ⟨fun k d hat => absurd hat (hno k d), fun _ _ => h⟩, fun h => h.2 s rfl⟩
  · rw [run_bind_error hrun]
    refine iff_of_true (kept_error (.inl rfl) hkey.mismatch)
      ⟨fun k d hat => absurd hat (hno k d), ?_⟩
    rintro s rfl
    exact absurd hkey WrongKey.not_more_end
  · rw [run_bind_error hrun]
    refine iff_of_true nofun ⟨fun k d hat => absurd hat (hno k d), ?_⟩
    rintro s rfl
    cases hrun

theorem keepsInput_consumeKey_bind {f : Bool → Method α} (hf : ∀ b, NoTypeError (f b)) :
    KeepsInput fits (consumeKey >>= f) c :=
  keepsInput_consumeKey_bind_iff.mpr
    ⟨fun _ _ _ => kept_of_not_typeError (hf true _), fun _ _ => kept_of_not_typeError (hf false _)⟩

theorem typeError_base_iff {x : BtReader α} : TypeError (base x) c ↔ TypeError x c.data := by
  cases hr : x.run c.data with
  | ok a t => exact iff_of_false (not_typeError_of_ok (run_base_ok hr)) (not_typeError_of_ok hr)
  | error e t =>
    rw [TypeError, TypeError, run_base_error hr, hr]
    simp

theorem keepsInput_valueIs {q : BtReader Bool} (hq : NoTypeError q) :
    KeepsInput fits (valueIs q) c := by
  refine keepsInput_consumeKey_bind fun b => ?_
  cases b with
  | false => exact .pure _
  | true => exact fun c h => hq c.data (typeError_base_iff.mp h)

/-- A method that asks for the type of the value first. -/
theorem keepsInput_valueIs_bind_iff {q : BtReader Bool} (hq : Tests q p) {f : Bool → Method α} :
    KeepsInput fits (valueIs q >>= f) c ↔
      (∀ k b r, AtValue c k (b :: r) → Kept fits c ((f (p b)).run ⟨b :: r, some k⟩)) ∧
        ∀ s, c = ⟨'e'.toUInt8 :: s, none⟩ → Kept fits c ((f false).run c) := by
  rw [valueIs, bind_assoc, keepsInput_consumeKey_bind_iff]
  refine and_congr_left fun _ => ⟨fun h k b r hat => ?_, fun h k d hat => ?_⟩
  · have hrun : (base q).run ⟨b :: r, some k⟩ = .ok (p b) ⟨b :: r, some k⟩ :=
      run_base_ok (hq.cons b r)
    have hkept := h k (b :: r) hat
    rwa [if_pos rfl, run_bind_ok hrun] at hkept
  · cases d with
    | nil =>
      have hrun : (base q).run ⟨[], some k⟩ = .error .undefined ⟨[], some k⟩ :=
        run_base_error hq.nil
      rw [if_pos rfl, run_bind_error hrun]
      intro what c' h
      cases h
    | cons b r =>
      have hrun : (base q).run ⟨b :: r, some k⟩ = .ok (p b) ⟨b :: r, some k⟩ :=
        run_base_ok (hq.cons b r)
      rw [if_pos rfl, run_bind_ok hrun]
      exact h k b r hat

/-- The reader of a method that consumes a pair finds the key cached, and leaves it there
when it throws. -/
theorem keepsInput_nextWith_iff {q : BtReader Bool} (hq : Tests q p)
    (hfits : ∀ b, fits b = true → p b = true) {x : BtReader α} {wrongType : Method BtError}
    (hwrong : ∀ d s k, ∃ what, wrongType.run ⟨d :: s, k⟩ = .ok (.invalidType what) ⟨d :: s, k⟩) :
    KeepsInput fits (nextWith (valueIs q) wrongType x) c ↔
      ∀ k b r, AtValue c k (b :: r) → p b = true → ArqmaMQ.KeepsInput fits x (b :: r) := by
  rw [nextWith, keepsInput_valueIs_bind_iff hq]
  have hend (s : Bytes) (hs : c = ⟨'e'.toUInt8 :: s, none⟩) : Kept fits c
      ((do throw (← wrongType) : Method (Bytes × α)).run c) := by
    subst hs
    obtain ⟨what, hw⟩ := hwrong 'e'.toUInt8 s none
    rw [run_bind_ok hw]
    exact kept_error (.inl rfl) (mismatch_end fits s)
  refine (and_iff_left hend).trans (forall₃_congr fun k b r => forall_congr' fun hat => ?_)
  cases hp : p b with
  | false =>
    obtain ⟨what, hw⟩ := hwrong b r (some k)
    rw [if_neg (by simp), run_bind_ok hw]
    refine iff_of_true (kept_error (hat.upToKey_iff.mpr rfl) (.inr ⟨b, rfl, ?_⟩))
      fun h => absurd h Bool.false_ne_true
    exact Bool.eq_false_iff.mpr fun hf => by cases hp.symm.trans (hfits b hf)
  | true =>
    rw [if_pos rfl, forall_prop_of_true rfl]
    cases hx : x.run (b :: r) with
    | ok a t =>
      have hbase : (base x).run ⟨b :: r, some k⟩ = .ok a ⟨t, some k⟩ := run_base_ok hx
      rw [run_bind_ok hbase]
      refine iff_of_true (kept_ok _) fun what s' h => ?_
      cases hx.symm.trans h
    | error e t =>
      have hbase : (base x).run ⟨b :: r, some k⟩ = .error e ⟨t, some k⟩ := run_base_error hx
      rw [run_bind_error hbase, ArqmaMQ.KeepsInput, hx]
      constructor
      · intro h what s' hs
        obtain ⟨rfl, rfl⟩ := EStateM.Result.error.inj hs
        obtain ⟨hup, hmis⟩ := h what _ rfl
        obtain rfl := hat.upToKey_iff.mp hup
        exact ⟨rfl, hmis⟩
      · intro h what c' hs
        obtain ⟨rfl, rfl⟩ := EStateM.Result.error.inj hs
        obtain ⟨rfl, hmis⟩ := h what t rfl
        exact ⟨hat.upToKey_iff.mpr rfl, hmis⟩

/-- The common shape of `next_list_data` and `next_dict_data`. The key is flushed before
the text is taken. -/
theorem keepsInput_sized_iff {q : BtReader Bool} {b : UInt8} (hq : Tests q (· == b))
    {x : BtReader α} (hx : Advances x) {what : String} :
    KeepsInput (· == b) (do
      if (← get).data.length < 2 then
        throw (.invalidType what)
      else if ← valueIs q then
        let k ← flushKey
        return (k, ← base x)
      else
        throw (.invalidType what) : Method (Bytes × α)) c ↔
      ¬ (2 ≤ c.data.length ∧ WrongValue b (TypeError x) c) := by
  rw [KeepsInput, run_get_bind]
  by_cases hlen : c.data.length < 2
  · rw [if_pos hlen]
    exact iff_of_true (kept_error (.inl rfl) (.inl hlen)) fun h => absurd h.1 (by omega)
  rw [if_neg hlen, ← KeepsInput, keepsInput_valueIs_bind_iff hq,
    and_iff_right (Nat.not_lt.mp hlen)]
  have hend (s : Bytes) (hs : c = ⟨'e'.toUInt8 :: s, none⟩) :
      Kept (· == b) c ((throw (.invalidType what) : Method (Bytes × α)).run c) := by
    subst hs
    exact kept_error (.inl rfl) (mismatch_end _ s)
  refine (and_iff_left hend).trans ⟨?_, ?_⟩
  · rintro h ⟨k, d, hat, hhead, what', t, hrun⟩
    obtain ⟨r, rfl⟩ := List.head?_eq_some_iff.mp hhead
    have hkept := h k b r hat
    have hbase : (base x).run ⟨b :: r, none⟩ = .error (.invalidType what') ⟨t, none⟩ :=
      run_base_error hrun
    have hsuffix := hx (b :: r)
    rw [hrun] at hsuffix
    rw [beq_self_eq_true, if_pos rfl] at hkept
    exact hat.not_upToKey hsuffix (hkept what' _ (run_bind_error hbase _)).1
  · intro h k a r hat
    cases ha : a == b with
    | false =>
      rw [if_neg (by simp)]
      exact kept_error (hat.upToKey_iff.mpr rfl) (.inr ⟨a, rfl, ha⟩)
    | true =>
      obtain rfl := eq_of_beq ha
      rw [if_pos rfl]
      refine kept_of_not_typeError fun herror => h ⟨k, a :: r, hat, rfl, ?_⟩
      have hflushed : TypeError (do return (k, ← base x)) ⟨a :: r, none⟩ := herror
      exact typeError_base_iff.mp (typeError_map_iff.mp hflushed)

end Rules

section Skip

variable {find : Bytes} {n : Nat}

theorem skipsWrong_iff (h : AtValue c k d) (hlt : k < find) :
    SkipsWrong find c ↔ skipWrong (d.length + 1) d := by
  refine (or_iff_right h.not_wrongKey).trans ⟨?_, fun hw => ⟨k, d, h, hlt, hw⟩⟩
  rintro ⟨k', d', h', -, hw⟩
  obtain ⟨rfl, rfl⟩ := h.unique h'
  exact hw

theorem skips_iff (h : AtValue c k d) (hlt : k < find) :
    Skips find c c' ↔ ∃ t, valueText (d.length + 1) d t ∧ c' = ⟨t, none⟩ := by
  constructor
  · rintro ⟨k', d', t, h', -, ht, hc⟩
    obtain ⟨rfl, rfl⟩ := h.unique h'
    exact ⟨t, ht, hc⟩
  · rintro ⟨t, ht, hc⟩
    exact ⟨k, d, t, h, hlt, ht, hc⟩

theorem run_base_eq_ok_iff {x : BtReader α} {a : α} :
    (base x).run c = .ok a c' ↔ ∃ t, x.run c.data = .ok a t ∧ c' = { c with data := t } := by
  cases hr : x.run c.data with
  | ok a t =>
    rw [run_base_ok hr]
    constructor
    · intro h
      obtain ⟨rfl, rfl⟩ := EStateM.Result.ok.inj h
      exact ⟨t, rfl, rfl⟩
    · rintro ⟨_, h, rfl⟩
      obtain ⟨rfl, rfl⟩ := EStateM.Result.ok.inj h
      rfl
  | error e t =>
    rw [run_base_error hr]
    exact iff_of_false (fun h => by cases h) fun ⟨_, h, _⟩ => by cases h

theorem exists_skips_head_iff : (∃ c', Relation.ReflTransGen (Skips find) c c' ∧
    SkipsWrong find c') ↔ SkipsWrong find c ∨ ∃ c₁, Skips find c c₁ ∧
      ∃ c', Relation.ReflTransGen (Skips find) c₁ c' ∧ SkipsWrong find c' := by
  constructor
  · rintro ⟨c', hskips, hwrong⟩
    rcases Relation.ReflTransGen.cases_head hskips with rfl | ⟨c₁, hstep, hrest⟩
    · exact .inl hwrong
    · exact .inr ⟨c₁, hstep, c', hrest, hwrong⟩
  · rintro (hwrong | ⟨c₁, hstep, c', hrest, hwrong⟩)
    · exact ⟨c, .refl, hwrong⟩
    · exact ⟨c', .head hstep hrest, hwrong⟩

/-- No pair is skipped here. -/
theorem exists_skips_iff (h : ∀ k d, AtValue c k d → ¬ k < find) :
    (∃ c', Relation.ReflTransGen (Skips find) c c' ∧ SkipsWrong find c') ↔ WrongKey c := by
  rw [exists_skips_head_iff, SkipsWrong, or_assoc]
  refine or_iff_left ?_
  rintro (⟨k, d, hat, hlt, -⟩ | ⟨c₁, ⟨k, d, t, hat, hlt, -⟩, -⟩) <;> exact h k d hat hlt

theorem typeError_skip_iff (hat : AtValue c k d) (hlt : k < find) {x : Method α}
    (hx : ∀ t, valueText (d.length + 1) d t → (TypeError x ⟨t, none⟩ ↔
      ∃ c', Relation.ReflTransGen (Skips find) ⟨t, none⟩ c' ∧ SkipsWrong find c')) :
    TypeError (do base BtListConsumer.skipValue; x) ⟨d, none⟩ ↔
      ∃ c', Relation.ReflTransGen (Skips find) c c' ∧ SkipsWrong find c' := by
  have hreads := BtListConsumer.reads_skipValue d
  rw [typeError_bind_iff, typeError_base_iff, hreads.typeError_iff, exists_skips_head_iff,
    skipsWrong_iff hat hlt]
  refine or_congr_right ?_
  simp only [skips_iff hat hlt, run_base_eq_ok_iff]
  constructor
  · rintro ⟨a, _, ⟨t, ht, rfl⟩, h⟩
    have htext := (hreads.ok_iff t).mp ⟨a, ht⟩
    exact ⟨_, ⟨t, htext, rfl⟩, (hx t htext).mp h⟩
  · rintro ⟨_, ⟨t, htext, rfl⟩, h⟩
    obtain ⟨a, ht⟩ := (hreads.ok_iff t).mpr htext
    exact ⟨a, _, ⟨t, ht, rfl⟩, (hx t htext).mpr h⟩

theorem typeError_skipLoop_iff (hn : c.data.length < n) : TypeError (skipLoop find n) c ↔
    ∃ c', Relation.ReflTransGen (Skips find) c c' ∧ SkipsWrong find c' := by
  induction n generalizing c with
  | zero => omega
  | succ n ih =>
    rw [TypeError, skipLoop]
    rcases consumeKey_cases c with ⟨k, d, hat, hrun⟩ | ⟨hno, ⟨s, rfl, hrun⟩ | ⟨hkey, what, hrun⟩ |
      ⟨hkey, what, c', hrun⟩⟩
    · rw [run_bind_ok hrun, if_pos rfl, run_get_bind]
      by_cases hlt : k < find
      · rw [if_pos (show (some k).getD [] < find from hlt)]
        refine typeError_skip_iff hat hlt fun t ht => ih ?_
        have hlen := shrinks_valueText _ d t ht
        have := hat.suffix.length_le
        exact show t.length < n by omega
      · rw [exists_skips_iff fun k' d' hat' => (hat.unique hat').1 ▸ hlt]
        rw [if_neg (by simpa using hlt)]
        exact iff_of_false (by rintro ⟨_, _, h⟩; cases h) hat.not_wrongKey
    · rw [exists_skips_iff fun k d hat => absurd hat (hno k d), run_bind_ok hrun]
      exact iff_of_false (by rintro ⟨_, _, h⟩; cases h) WrongKey.not_more_end
    · rw [exists_skips_iff fun k d hat => absurd hat (hno k d), run_bind_error hrun]
      exact iff_of_true ⟨_, _, rfl⟩ hkey
    · rw [exists_skips_iff fun k d hat => absurd hat (hno k d), run_bind_error hrun]
      exact iff_of_false (by rintro ⟨_, _, h⟩; cases h) hkey

/-- A loop that throws has flushed the keys of the pairs it came to. -/
theorem run_skipLoop_typeError {what : String}
    (h : (skipLoop find n).run c = .error (.invalidType what) c') :
    c'.key_ = none ∧ (WrongKey c ∧ c' = c ∨ ∃ k d, AtValue c k d ∧ c'.data <:+ d) := by
  induction n generalizing c with
  | zero => cases h
  | succ n ih =>
    rw [skipLoop] at h
    rcases consumeKey_cases c with ⟨k, d, hat, hrun⟩ | ⟨hno, ⟨s, rfl, hrun⟩ | ⟨hkey, _, hrun⟩ |
      ⟨-, _, _, hrun⟩⟩
    · rw [run_bind_ok hrun, if_pos rfl, run_get_bind] at h
      by_cases hlt : (some k).getD [] < find
      swap
      · rw [if_neg hlt] at h
        cases h
      rw [if_pos hlt] at h
      have h : (do base BtListConsumer.skipValue; skipLoop find n).run ⟨d, none⟩ =
        .error (.invalidType what) c' := h
      have hsuffix := BtListConsumer.advances_skipValue d
      cases hs : BtListConsumer.skipValue.run d with
      | error e t =>
        have hbase : (base BtListConsumer.skipValue).run ⟨d, none⟩ = .error e ⟨t, none⟩ :=
          run_base_error hs
        rw [hs] at hsuffix
        obtain ⟨-, rfl⟩ := EStateM.Result.error.inj ((run_bind_error hbase _).symm.trans h)
        exact ⟨rfl, .inr ⟨k, d, hat, hsuffix⟩⟩
      | ok _ t =>
        have hbase : (base BtListConsumer.skipValue).run ⟨d, none⟩ = .ok () ⟨t, none⟩ :=
          run_base_ok hs
        rw [hs] at hsuffix
        obtain ⟨hkey, hdata⟩ := ih ((run_bind_ok hbase _).symm.trans h)
        refine ⟨hkey, .inr ⟨k, d, hat, ?_⟩⟩
        rcases hdata with ⟨-, rfl⟩ | ⟨k', d', hat', hdata⟩
        · exact hsuffix
        · exact (hdata.trans hat'.suffix).trans hsuffix
    · rw [run_bind_ok hrun] at h
      cases h
    · rw [run_bind_error hrun] at h
      obtain ⟨-, rfl⟩ := EStateM.Result.error.inj h
      exact ⟨hkey.1, .inl ⟨hkey, rfl⟩⟩
    · rw [run_bind_error hrun] at h
      cases h

theorem keepsInput_skipUntil_iff {fits : UInt8 → Bool} (find : Bytes) (c : BtDictConsumer) :
    KeepsInput fits (skipUntil find) c ↔
      ¬ (¬ WrongKey c ∧ ∃ c', Relation.ReflTransGen (Skips find) c c' ∧ SkipsWrong find c') := by
  have herror : TypeError (skipUntil find) c ↔ _ :=
    typeError_skipLoop_iff (Nat.lt_succ_self c.data.length)
  rw [← herror]
  by_cases hkey : WrongKey c
  · refine iff_of_true (fun what c' h => ?_) fun h => h.1 hkey
    obtain ⟨-, ⟨-, rfl⟩ | ⟨k, d, hat, -⟩⟩ := run_skipLoop_typeError h
    · exact ⟨.inl rfl, hkey.mismatch⟩
    · exact absurd hkey hat.not_wrongKey
  rw [and_iff_right hkey]
  refine ⟨fun hkept ⟨what, c', h⟩ => ?_, kept_of_not_typeError⟩
  obtain ⟨hnone, hdata⟩ := run_skipLoop_typeError h
  obtain ⟨k, d, hat, hsuffix⟩ := hdata.resolve_left fun hk => hkey hk.1
  obtain ⟨data, key⟩ := c'
  obtain rfl : key = none := hnone
  exact hat.not_upToKey hsuffix (hkept what _ h).1

end Skip

section Calls

variable {fits : UInt8 → Bool}

theorem keepsInput_map_iff {x : Method α} {g : α → β} :
    KeepsInput fits (do return g (← x)) c ↔ KeepsInput fits x c := by
  rw [KeepsInput, KeepsInput]
  cases hr : x.run c with
  | ok a c' =>
    rw [run_bind_ok hr]
    exact iff_of_true (kept_ok _) (kept_ok _)
  | error e c' =>
    rw [run_bind_error hr]
    simp [Kept]

theorem keepsInput_isFinished : KeepsInput fits isFinished c := by
  refine keepsInput_consumeKey_bind fun b => ?_
  cases b with
  | false =>
    exact fun c h => BtListConsumer.tests_isFinished.noTypeError c.data (typeError_base_iff.mp h)
  | true => exact .pure _

theorem keepsInput_key : KeepsInput fits key c := by
  refine keepsInput_consumeKey_bind fun b => ?_
  cases b with
  | false => exact fun _ ⟨_, _, h⟩ => by cases h
  | true => exact .bind .get fun _ => .pure _

/-- `next_list<T>` and `next_dict<T>`. -/
theorem keepsInput_nextAs_iff {isType : BtReader Bool} {b : UInt8} (hb : Tests isType (· == b))
    {e : BtError} {what : String} (t : BtType) :
    KeepsInput (fun c => c == b && t.fits c)
      (nextWith (valueIs isType) (return .invalidType what)
        (BtListConsumer.consumeAs isType e t.read)) c ↔ ¬ WrongValue b t.WrongInside c := by
  refine (keepsInput_nextWith_iff hb ?_ ?_).trans ⟨?_, ?_⟩
  · exact fun _ h => (Bool.and_eq_true_iff.mp h).1
  · exact fun _ _ _ => ⟨what, rfl⟩
  · rintro h ⟨k, d, hat, hhead, hwrong⟩
    obtain ⟨r, rfl⟩ := List.head?_eq_some_iff.mp hhead
    have hkeeps := h k b r hat (beq_self_eq_true b)
    exact (BtListConsumer.keepsInput_consumeAs_read_iff hb t _).mp hkeeps ⟨hhead, hwrong⟩
  · intro h k a r hat _
    refine (BtListConsumer.keepsInput_consumeAs_read_iff hb t _).mpr fun ⟨hhead, hwrong⟩ => ?_
    exact h ⟨k, a :: r, hat, hhead, hwrong⟩

theorem wrongValue_congr {b : UInt8} {wrong wrong' : Bytes → Prop}
    (h : ∀ r, wrong (b :: r) ↔ wrong' (b :: r)) : WrongValue b wrong c ↔ WrongValue b wrong' c := by
  refine exists₂_congr fun k d => and_congr_right fun _ => and_congr_right fun hhead => ?_
  obtain ⟨r, rfl⟩ := List.head?_eq_some_iff.mp hhead
  exact h r

theorem keepsInput_nextListData_iff : KeepsInput (· == 'l'.toUInt8) nextListData c ↔
    ¬ PairCall.WrongInside .listData c := by
  refine (keepsInput_sized_iff BtListConsumer.tests_isList
    BtListConsumer.advances_consumeListData).trans (not_congr (and_congr_right fun _ => ?_))
  refine wrongValue_congr fun r => (BtListConsumer.typeError_consumeListData _).trans ?_
  exact or_congr_left ((mismatch_cons_iff _ r).trans (by simp))

theorem keepsInput_nextDictData_iff : KeepsInput (· == 'd'.toUInt8) nextDictData c ↔
    ¬ PairCall.WrongInside .dictData c := by
  refine (keepsInput_sized_iff BtListConsumer.tests_isDict
    BtListConsumer.advances_consumeDictData).trans (not_congr (and_congr_right fun _ => ?_))
  refine wrongValue_congr fun r => (BtListConsumer.typeError_consumeDictData _).trans ?_
  exact or_congr_left ((mismatch_cons_iff _ r).trans (by simp))

theorem keepsInput_nextPair_iff (op : PairCall) (c : BtDictConsumer) :
    KeepsInput op.fits (nextPair op) c ↔ ¬ op.WrongInside c := by
  cases op with
  | string =>
    refine iff_of_true ((keepsInput_nextWith_iff BtListConsumer.tests_isString ?_ ?_).mpr ?_) id
    · exact fun _ h => h
    · exact fun _ _ _ => ⟨_, rfl⟩
    · exact fun _ _ _ _ _ => BtListConsumer.keepsInput_consumeStringView _
  | integer t =>
    refine iff_of_true ((keepsInput_nextWith_iff BtListConsumer.tests_isInteger ?_ ?_).mpr ?_) id
    · exact fun _ h => h
    · exact fun _ _ _ => ⟨_, rfl⟩
    · exact fun _ _ _ _ _ => BtListConsumer.keepsInput_consumeInteger t _
  | list t => exact keepsInput_nextAs_iff BtListConsumer.tests_isList t
  | dict t => exact keepsInput_nextAs_iff BtListConsumer.tests_isDict t
  | listData => exact keepsInput_nextListData_iff
  | dictData => exact keepsInput_nextDictData_iff
  | listConsumer => exact keepsInput_map_iff.trans keepsInput_nextListData_iff
  | dictConsumer => exact keepsInput_map_iff.trans keepsInput_nextDictData_iff

theorem keepsInput_call_iff (op : Call) (c : BtDictConsumer) :
    KeepsInput op.fits (call op) c ↔ ¬ op.WrongInside c := by
  have hvalueIs {q : BtReader Bool} (hq : NoTypeError q) :
      KeepsInput (fun _ => true) (valueIs q) c ↔ ¬ False := iff_of_true (keepsInput_valueIs hq) id
  cases op with
  | isFinished => exact iff_of_true keepsInput_isFinished id
  | operatorBool => exact iff_of_true (keepsInput_map_iff.mpr keepsInput_isFinished) id
  | isString => exact hvalueIs BtListConsumer.tests_isString.noTypeError
  | isInteger => exact hvalueIs BtListConsumer.tests_isInteger.noTypeError
  | isNegativeInteger => exact hvalueIs BtListConsumer.noTypeError_isNegativeInteger
  | isList => exact hvalueIs BtListConsumer.tests_isList.noTypeError
  | isDict => exact hvalueIs BtListConsumer.tests_isDict.noTypeError
  | key => exact iff_of_true keepsInput_key id
  | next op => exact keepsInput_nextPair_iff op c
  | consume op => exact keepsInput_map_iff.trans (keepsInput_nextPair_iff op c)
  | skipUntil find => exact keepsInput_skipUntil_iff find c

end Calls

end BtDictConsumer

/-- On every input, a type mismatch leaves the input as it was and is one of the value
itself, unless a value or a key inside it is of the wrong type. -/
theorem keepsInput_iff_not_wrongInside (t : BtType) (op : BtListConsumer.Call) (s : Bytes)
    (op' : BtDictConsumer.Call) (c : BtDictConsumer) :
    (KeepsInput t.fits t.read s ↔ ¬ t.WrongInside s) ∧
      (KeepsInput op.fits (BtListConsumer.call op) s ↔ ¬ op.WrongInside s) ∧
      (BtDictConsumer.KeepsInput op'.fits (BtDictConsumer.call op') c ↔ ¬ op'.WrongInside c) :=
  ⟨t.keepsInput_read_iff s, BtListConsumer.keepsInput_call_iff op s,
    BtDictConsumer.keepsInput_call_iff op' c⟩

/-- `l1:ae` is a list, but not one of integers: the exception of the element
passes through, behind the `l`. -/
theorem read_list_advances : (BtType.list (.int .int)).read.run (bytes "l1:ae") =
    .error (.invalidType "Deserialization failed: expected 'i', found '1'") (bytes "1:ae") := by
  have h : (btDeserializeList (btDeserializeInt .int)).run (bytes "l1:ae") =
      .error (.invalidType "Deserialization failed: expected 'i', found '1'") (bytes "1:ae") := by
    decide +kernel
  rw [BtType.read, BtType.read]
  exact h

end ArqmaMQ
