import ArqmaMQ.BtDictText

/-! A dict consumer shows the pairs of the encoding in their order, however its
queries and its consuming calls are mixed. -/

namespace ArqmaMQ

namespace BtDictConsumer

variable {α : Type} {c : BtDictConsumer} {rest : Bytes} {ps : List (Bytes × BtVariant)}

theorem run_base_ok {x : BtReader α} {a : α} {t : Bytes} (h : x.run c.data = .ok a t) :
    (base x).run c = .ok a { c with data := t } := by
  rw [EStateM.run, base, h]

theorem run_base_error {x : BtReader α} {e : BtError} {t : Bytes}
    (h : x.run c.data = .error e t) : (base x).run c = .error e { c with data := t } := by
  rw [EStateM.run, base, h]

theorem run_base_front (b : UInt8) (t : Bytes) (k : Option Bytes) :
    (base front).run ⟨b :: t, k⟩ = .ok b ⟨b :: t, k⟩ := rfl

theorem run_modify_bind (f : BtDictConsumer → BtDictConsumer) (g : Unit → Method α) :
    (modify f >>= g).run c = (g ()).run (f c) := rfl

/-- What a consumer stands for: the pairs that are still to be consumed. -/
inductive Shows (rest : Bytes) : BtDictConsumer → List (Bytes × BtVariant) → Prop
  | before {s : Bytes} {ps : List (Bytes × BtVariant)} (h : DictText rest s ps) :
      Shows rest ⟨s, none⟩ ps
  | keyed {t u k : Bytes} {v : BtVariant} {ps : List (Bytes × BtVariant)}
      (hvalue : btDeserialize.run t = .ok v u) (htail : DictText rest u ps) :
      Shows rest ⟨t, some k⟩ ((k, v) :: ps)

theorem run_consumeKey_keyed (t k : Bytes) :
    consumeKey.run ⟨t, some k⟩ = .ok true ⟨t, some k⟩ := rfl

theorem run_consumeKey_pair {s t u k : Bytes} {v : BtVariant}
    (hkey : btDeserializeStringView.run s = .ok k t) (hvalue : btDeserialize.run t = .ok v u) :
    consumeKey.run ⟨s, none⟩ = .ok true ⟨t, some k⟩ := by
  obtain ⟨d, s, rfl, hd⟩ := isDigit_of_run_btDeserializeStringView hkey
  obtain ⟨b, t, rfl, hb⟩ := (parsed_of_run_btDeserialize hvalue).head_ne
  obtain ⟨_, hrun, rfl, -⟩ := (BtListConsumer.alike_consumeStringView _).of_ok hkey
  have hd : d ≠ 'e'.toUInt8 := by
    rintro rfl
    exact absurd hd (by decide)
  have hread : (base BtListConsumer.consumeStringView).run ⟨d :: s, none⟩ =
      .ok k ⟨b :: t, none⟩ := run_base_ok hrun
  rw [consumeKey, run_get_bind, if_neg (by simp), run_get_bind, if_neg (by simp),
    run_bind_ok (run_base_front d s none), if_neg hd, run_bind_ok hread, run_modify_bind,
    run_get_bind, if_neg (by simp), run_bind_ok (run_base_front b t (some k)), if_neg hb]
  rfl

/-- Once the key is asked for, it is cached and the data is at the value. -/
theorem Shows.run_consumeKey {k : Bytes} {v : BtVariant} (h : Shows rest c ((k, v) :: ps)) :
    ∃ t u, consumeKey.run c = .ok true ⟨t, some k⟩ ∧ btDeserialize.run t = .ok v u ∧
      DictText rest u ps := by
  cases h with
  | before h =>
    cases h with
    | cons hkey hvalue htail => exact ⟨_, _, run_consumeKey_pair hkey hvalue, hvalue, htail⟩
  | keyed hvalue htail => exact ⟨_, _, run_consumeKey_keyed _ _, hvalue, htail⟩

theorem Shows.eq_end (h : Shows rest c []) : c = ⟨'e'.toUInt8 :: rest, none⟩ := by
  cases h with
  | before h =>
    cases h with
    | nil => rfl

section Calls

/-- What a call returns or throws. -/
def answer (x : Method α) (c : BtDictConsumer) : Except BtError α :=
  match x.run c with
  | .ok a _ => .ok a
  | .error e _ => .error e

/-- The consumer after a call. -/
def after (x : Method α) (c : BtDictConsumer) : BtDictConsumer :=
  match x.run c with
  | .ok _ c' => c'
  | .error _ c' => c'

theorem answer_of_ok {x : Method α} {a : α} {c' : BtDictConsumer} (h : x.run c = .ok a c') :
    answer x c = .ok a ∧ after x c = c' := by
  rw [answer, after, h]
  exact ⟨rfl, rfl⟩

inductive Query
  | key
  | isFinished
  | isString
  | isInteger
  | isList
  | isDict
  deriving DecidableEq, Repr

inductive Answer
  | flag (b : Bool)
  | key (k : Bytes)
  deriving DecidableEq, Repr

def ask : Query → Method Answer
  | .key => return .key (← key)
  | .isFinished => return .flag (← isFinished)
  | .isString => return .flag (← isString)
  | .isInteger => return .flag (← isInteger)
  | .isList => return .flag (← isList)
  | .isDict => return .flag (← isDict)

/-- The answer that the pairs still to be consumed call for. -/
def answerFor (ps : List (Bytes × BtVariant)) : Query → Except BtError Answer
  | .key =>
    match ps with
    | [] => .error (.invalid "Cannot access next key: at the end of the dict")
    | (k, _) :: _ => .ok (.key k)
  | .isFinished => .ok (.flag ps.isEmpty)
  | .isString => .ok (.flag (ps.head?.any fun p => p.2.kind == .string))
  | .isInteger => .ok (.flag (ps.head?.any fun p => p.2.kind == .int64 || p.2.kind == .uint64))
  | .isList => .ok (.flag (ps.head?.any fun p => p.2.kind == .list))
  | .isDict => .ok (.flag (ps.head?.any fun p => p.2.kind == .dict))

/-- The consuming calls. -/
def next : BtVariant.Kind → Method (Bytes × BtVariant)
  | .string => return (← nextString).map id .string
  | .int64 => return (← nextInteger .int64).map id fun i => .int (Int64.ofInt i)
  | .uint64 => return (← nextInteger .uint64).map id fun i => .uint (UInt64.ofNat i.toNat)
  | .list => return (← nextList).map id .list
  | .dict => return (← nextDict).map id .dict

/-- The type that the queries report for the next value. -/
def reported : Method (Option BtVariant.Kind) := do
  if ← isString then return some .string
  else if ← isInteger then
    if ← isNegativeInteger then return some .int64 else return some .uint64
  else if ← isList then return some .list
  else if ← isDict then return some .dict
  else return none

/-- A walk from `c`: any queries, and consuming calls of the type reported for a
copy of the consumer. The pairs they returned are collected. -/
inductive Walk (c : BtDictConsumer) : List (Bytes × BtVariant) → BtDictConsumer → Prop
  | start : Walk c [] c
  | ask {ps : List (Bytes × BtVariant)} {c' : BtDictConsumer} (w : Walk c ps c') (q : Query) :
      Walk c ps (after (ask q) c')
  | next {ps : List (Bytes × BtVariant)} {p : Bytes × BtVariant} {c' c'' : BtDictConsumer}
      (w : Walk c ps c') {t : BtVariant.Kind} (ht : answer reported c' = .ok (some t))
      (h : (next t).run c' = .ok p c'') : Walk c (ps ++ [p]) c''

end Calls

theorem run_valueIs {x : BtReader Bool} {b r : Bool} {c' : BtDictConsumer}
    (hkey : consumeKey.run c = .ok b c') (hx : b = true → x.run c'.data = .ok r c'.data) :
    (valueIs x).run c = .ok (b && r) c' := by
  rw [valueIs, run_bind_ok hkey]
  cases b with
  | false => rfl
  | true => exact run_base_ok (hx rfl)

/-- The queries of a pair: the cached key, and the kind of its value. -/
theorem Shows.run_valueIs {k : Bytes} {v : BtVariant} (h : Shows rest c ((k, v) :: ps)) :
    ∃ t u, btDeserialize.run t = .ok v u ∧ DictText rest u ps ∧
      consumeKey.run c = .ok true ⟨t, some k⟩ ∧
      isString.run c = .ok (v.kind == .string) ⟨t, some k⟩ ∧
      isInteger.run c = .ok (v.kind == .int64 || v.kind == .uint64) ⟨t, some k⟩ ∧
      isNegativeInteger.run c = .ok (v.kind == .int64) ⟨t, some k⟩ ∧
      isList.run c = .ok (v.kind == .list) ⟨t, some k⟩ ∧
      isDict.run c = .ok (v.kind == .dict) ⟨t, some k⟩ := by
  obtain ⟨t, u, hkey, hvalue, htail⟩ := h.run_consumeKey
  obtain ⟨hs, hi, hn, hl, hd⟩ := (parsed_of_run_btDeserialize hvalue).answers
  exact ⟨t, u, hvalue, htail, hkey, BtDictConsumer.run_valueIs hkey fun _ => hs,
    BtDictConsumer.run_valueIs hkey fun _ => hi, BtDictConsumer.run_valueIs hkey fun _ => hn,
    BtDictConsumer.run_valueIs hkey fun _ => hl, BtDictConsumer.run_valueIs hkey fun _ => hd⟩

/-- No query changes what is still to be consumed, and each answers for it. -/
theorem Shows.ask (h : Shows rest c ps) (q : Query) :
    answer (ask q) c = answerFor ps q ∧ Shows rest (after (ask q) c) ps := by
  rcases ps with _ | ⟨⟨k, v⟩, ps⟩
  · obtain rfl := h.eq_end
    cases q <;> exact ⟨rfl, h⟩
  obtain ⟨t, u, hvalue, htail, hkey, hs, hi, -, hl, hd⟩ := h.run_valueIs
  have hshows : Shows rest ⟨t, some k⟩ ((k, v) :: ps) := .keyed hvalue htail
  have hstep {x : Method Answer} {a : Answer} (hx : x.run c = .ok a ⟨t, some k⟩) :
      answer x c = .ok a ∧ Shows rest (after x c) ((k, v) :: ps) := by
    obtain ⟨ha, hc⟩ := answer_of_ok hx
    exact ⟨ha, by rwa [hc]⟩
  cases q with
  | key =>
    refine hstep ?_
    have hk : key.run c = .ok k ⟨t, some k⟩ := by
      rw [key, run_bind_ok hkey]
      rfl
    rw [BtDictConsumer.ask, run_bind_ok hk]
    rfl
  | isFinished =>
    refine hstep ?_
    have hf : isFinished.run c = .ok false ⟨t, some k⟩ := by
      rw [isFinished, run_bind_ok hkey]
      rfl
    rw [BtDictConsumer.ask, run_bind_ok hf]
    rfl
  | isString =>
    refine hstep ?_
    rw [BtDictConsumer.ask, run_bind_ok hs]
    rfl
  | isInteger =>
    refine hstep ?_
    rw [BtDictConsumer.ask, run_bind_ok hi]
    rfl
  | isList =>
    refine hstep ?_
    rw [BtDictConsumer.ask, run_bind_ok hl]
    rfl
  | isDict =>
    refine hstep ?_
    rw [BtDictConsumer.ask, run_bind_ok hd]
    rfl

theorem Shows.reported (h : Shows rest c ps) :
    answer reported c = .ok (ps.head?.map fun p => p.2.kind) := by
  rcases ps with _ | ⟨⟨k, v⟩, ps⟩
  · obtain rfl := h.eq_end
    rfl
  obtain ⟨t, u, hvalue, -, -, hs, -⟩ := h.run_valueIs
  obtain ⟨-, hi, hn, hl, hd⟩ := (parsed_of_run_btDeserialize hvalue).answers
  have hkeyed {x : BtReader Bool} {b : Bool} (hx : x.run t = .ok b t) :
      (valueIs x).run ⟨t, some k⟩ = .ok b ⟨t, some k⟩ :=
    BtDictConsumer.run_valueIs (run_consumeKey_keyed t k) fun _ => hx
  suffices hrun : BtDictConsumer.reported.run c = .ok (some v.kind) ⟨t, some k⟩ from
    (answer_of_ok hrun).1
  rw [BtDictConsumer.reported, run_bind_ok hs]
  cases hv : v.kind with
  | string =>
    rfl
  | int64 =>
    rw [hv] at hi hn
    rw [if_neg (by decide), isInteger, run_bind_ok (hkeyed hi), if_pos (by decide),
      isNegativeInteger, run_bind_ok (hkeyed hn)]
    rfl
  | uint64 =>
    rw [hv] at hi hn
    rw [if_neg (by decide), isInteger, run_bind_ok (hkeyed hi), if_pos (by decide),
      isNegativeInteger, run_bind_ok (hkeyed hn)]
    rfl
  | list =>
    rw [hv] at hi hl
    rw [if_neg (by decide), isInteger, run_bind_ok (hkeyed hi), if_neg (by decide), isList,
      run_bind_ok (hkeyed hl)]
    rfl
  | dict =>
    rw [hv] at hi hl hd
    rw [if_neg (by decide), isInteger, run_bind_ok (hkeyed hi), if_neg (by decide), isList,
      run_bind_ok (hkeyed hl), if_neg (by decide), isDict, run_bind_ok (hkeyed hd)]
    rfl

theorem run_nextWith {x : Method Bool} {e : Method BtError} {y : BtReader α} {k t u : Bytes} {a : α}
    (hx : x.run c = .ok true ⟨t, some k⟩) (hy : y.run t = .ok a u) :
    (nextWith x e y).run c = .ok (k, a) ⟨u, none⟩ := by
  have hb : (base y).run ⟨t, some k⟩ = .ok a ⟨u, some k⟩ := run_base_ok hy
  rw [nextWith, run_bind_ok hx, if_pos rfl, run_bind_ok hb]
  rfl

theorem run_nextWith_error {x : Method Bool} {e : Method BtError} {y : BtReader α}
    {c' : BtDictConsumer} {e' : BtError} {t : Bytes} (hx : x.run c = .ok true c')
    (hy : y.run c'.data = .error e' t) :
    (nextWith x e y).run c = .error e' { c' with data := t } := by
  rw [nextWith, run_bind_ok hx, if_pos rfl]
  exact run_bind_error (run_base_error hy) _

theorem run_consumeAs {x : BtReader Bool} {e : BtError} {y : BtReader α} {t u : Bytes} {a : α}
    (hx : x.run t = .ok true t) (hy : y.run t = .ok a u) :
    (BtListConsumer.consumeAs x e y).run t = .ok a u := by
  rw [BtListConsumer.consumeAs, run_bind_ok hx, run_throwIf_bind (by simp), EStateM.run, onCopy, hy]

theorem run_btDeserializeInt_int64 {s t : Bytes} {magnitude : UInt64}
    (h : btDeserializeInteger.run s = .ok (magnitude, true) t) :
    (btDeserializeInt .int64).run s = .ok (-magnitude.toInt64).toInt t := by
  rw [btDeserializeInt, run_bind_ok h]
  rfl

theorem run_btDeserializeInt_uint64 {s t : Bytes} {magnitude : UInt64}
    (h : btDeserializeInteger.run s = .ok (magnitude, false) t) :
    (btDeserializeInt .uint64).run s = .ok magnitude.toNat t := by
  rw [btDeserializeInt, run_bind_ok h]
  rfl

/-- The consuming call of the right type returns the pair and moves behind it. -/
theorem Shows.next {k : Bytes} {v : BtVariant} (h : Shows rest c ((k, v) :: ps)) :
    ∃ c', (next v.kind).run c = .ok (k, v) c' ∧ Shows rest c' ps := by
  obtain ⟨t, u, hvalue, htail, -, hs, hi, -, hl, hd⟩ := h.run_valueIs
  have hparsed := parsed_of_run_btDeserialize hvalue
  obtain ⟨-, hi', -, hl', hd'⟩ := hparsed.answers
  refine ⟨⟨u, none⟩, ?_, .before htail⟩
  cases hparsed with
  | @dict d head hd'' =>
    have hn : nextDict.run c = .ok (k, d) ⟨u, none⟩ := run_nextWith hd (run_consumeAs hd' hd'')
    rw [BtVariant.kind, BtDictConsumer.next, run_bind_ok hn]
    rfl
  | @list l head hl'' =>
    have hn : nextList.run c = .ok (k, l) ⟨u, none⟩ := run_nextWith hl (run_consumeAs hl' hl'')
    rw [BtVariant.kind, BtDictConsumer.next, run_bind_ok hn]
    rfl
  | @int magnitude head hm =>
    have hn : (nextInteger .int64).run c = .ok (k, (-magnitude.toInt64).toInt) ⟨u, none⟩ :=
      run_nextWith hi (run_consumeAs hi' (run_btDeserializeInt_int64 hm))
    rw [BtVariant.kind, BtDictConsumer.next, run_bind_ok hn, Prod.map_apply, Int64.ofInt_toInt]
    rfl
  | @uint magnitude head hm =>
    have hn : (nextInteger .uint64).run c = .ok (k, magnitude.toNat) ⟨u, none⟩ :=
      run_nextWith hi (run_consumeAs hi' (run_btDeserializeInt_uint64 hm))
    rw [BtVariant.kind, BtDictConsumer.next, run_bind_ok hn, Prod.map_apply, Int.toNat_natCast,
      UInt64.ofNat_toNat]
    rfl
  | @string b _ head digit hb =>
    obtain ⟨_, hrun, rfl, -⟩ := (BtListConsumer.alike_consumeStringView _).of_ok hb
    have hn : nextString.run c = .ok (k, b) ⟨u, none⟩ := run_nextWith hs hrun
    rw [BtVariant.kind, BtDictConsumer.next, run_bind_ok hn]
    rfl

/-- Along every walk, the pairs returned and the pairs still to come are the
pairs of the text. -/
theorem Shows.walk {c' : BtDictConsumer} {yielded : List (Bytes × BtVariant)}
    (h : Shows rest c ps) (w : Walk c yielded c') :
    ∃ remaining, ps = yielded ++ remaining ∧ Shows rest c' remaining := by
  induction w with
  | start => exact ⟨ps, rfl, h⟩
  | ask w q ih =>
    obtain ⟨remaining, hps, hc⟩ := ih
    exact ⟨remaining, hps, (hc.ask q).2⟩
  | next w ht hnext ih =>
    obtain ⟨remaining, hps, hc⟩ := ih
    have hkind := Except.ok.inj (hc.reported.symm.trans ht)
    obtain ⟨⟨k, v⟩, hhead, rfl⟩ := Option.map_eq_some_iff.mp hkind
    obtain ⟨remaining, rfl⟩ := List.head?_eq_some_iff.mp hhead
    obtain ⟨c'', hrun, hshows⟩ := hc.next
    obtain ⟨rfl, rfl⟩ := EStateM.Result.ok.inj (hrun.symm.trans hnext)
    exact ⟨remaining, by rw [hps, List.append_assoc, List.singleton_append], hshows⟩

theorem Shows.eq_nil_iff (h : Shows rest c ps) : ps = [] ↔ c.data = 'e'.toUInt8 :: rest := by
  constructor
  · rintro rfl
    rw [h.eq_end]
  · intro hdata
    cases h with
    | before h =>
      cases h with
      | nil => rfl
      | cons hkey hvalue htail =>
        obtain ⟨d, u, rfl, hd⟩ := isDigit_of_run_btDeserializeStringView hkey
        obtain ⟨rfl, -⟩ := List.cons.inj hdata
        exact absurd hd (by decide)
    | keyed hvalue htail =>
      obtain ⟨d, u, rfl, hd⟩ := (parsed_of_run_btDeserialize hvalue).head_ne
      exact absurd (List.cons.inj hdata).1 hd

theorem ofData_of_run {s : Bytes} {d : List (Bytes × BtVariant)}
    (h : btDeserializeBtDict.run s = .ok d rest) :
    ∃ c ps, ofData s = .ok c ∧ DictText rest (s.drop 1) ps ∧ d = dictOf ps ∧ Shows rest c ps := by
  obtain ⟨t, ps, rfl, ht, hps, rfl⟩ := exists_dictText h
  refine ⟨⟨t, none⟩, ps, ?_, hps, rfl, .before hps⟩
  have := List.length_pos_of_ne_nil ht
  rw [ofData, if_neg (by simp), if_neg (by simp [ht])]
  rfl

/-- Whatever the order of the calls, a dict that parses is walked over pair by
pair: the values are the parsed ones, every query answers for the next pair,
another pair can be consumed until the closing `e` is reached, and there
`is_finished()` is first true. -/
theorem walk_of_btDeserialize {s : Bytes} {d : List (Bytes × BtVariant)}
    (h : btDeserializeBtDict.run s = .ok d rest) :
    ∃ c ps, ofData s = .ok c ∧ DictText rest (s.drop 1) ps ∧ d = dictOf ps ∧
      ∀ yielded c', Walk c yielded c' → ∃ remaining, ps = yielded ++ remaining ∧
        (∀ q, answer (ask q) c' = answerFor remaining q) ∧
        (∀ p, remaining.head? = some p →
          ∃ t c'', answer reported c' = .ok (some t) ∧ (next t).run c' = .ok p c'') ∧
        (answer (ask .isFinished) c' = .ok (.flag true) ↔ c'.data = 'e'.toUInt8 :: rest) := by
  obtain ⟨c, ps, hc, hps, hd, hshows⟩ := ofData_of_run h
  refine ⟨c, ps, hc, hps, hd, fun yielded c' w => ?_⟩
  obtain ⟨remaining, hrem, hshows'⟩ := hshows.walk w
  refine ⟨remaining, hrem, fun q => (hshows'.ask q).1, ?_, ?_⟩
  · rintro ⟨k, v⟩ hp
    obtain ⟨remaining, rfl⟩ := List.head?_eq_some_iff.mp hp
    obtain ⟨c'', hnext, -⟩ := hshows'.next
    exact ⟨v.kind, c'', hshows'.reported, hnext⟩
  · rw [← hshows'.eq_nil_iff, (hshows'.ask .isFinished).1, answerFor]
    simp

/-- A dict with an empty key and a repeated one. -/
theorem walk_of_repeated_key :
    ∃ d c ps, btDeserializeBtDict.run (bytes "d0:i-3e1:ale1:a2:xyez") = .ok d (bytes "z") ∧
      ofData (bytes "d0:i-3e1:ale1:a2:xyez") = .ok c ∧ d = dictOf ps ∧
      ∀ yielded c', Walk c yielded c' → yielded <+: ps := by
  have hskip : BtListConsumer.consumeDictData.run (bytes "d0:i-3e1:ale1:a2:xyez") =
      .ok (bytes "d0:i-3e1:ale1:a2:xye") (bytes "z") := by decide +kernel
  obtain ⟨d, hd, -⟩ := (BtListConsumer.alike_consumeDictData _).swap.of_ok hskip
  obtain ⟨c, ps, hc, -, hps, hwalk⟩ := walk_of_btDeserialize hd
  refine ⟨d, c, ps, hd, hc, hps, fun yielded c' w => ?_⟩
  obtain ⟨remaining, hrem, -⟩ := hwalk yielded c' w
  exact ⟨remaining, hrem.symm⟩

end BtDictConsumer

end ArqmaMQ
