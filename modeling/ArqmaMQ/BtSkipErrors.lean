import ArqmaMQ.BtTypeErrors

/-! Type errors of the methods of the list consumer. Most of them read on a copy of
the view; `skip_value` and the methods that hand out a container's text do not. -/

namespace ArqmaMQ

namespace BtListConsumer

/-- No value that can be skipped begins so. -/
def SkipHead (s : Bytes) : Prop :=
  Unfit BtType.value.fits 1 s ∨ s = ['l'.toUInt8] ∨ s = ['d'.toUInt8]

def SkipInside (text : Text) (wrong : Bytes → Prop) (s : Bytes) : Prop :=
  WrongItem text wrong s ∨ WrongPair 1 text wrong s

/-- What `skip_value` takes for a value of a wrong type. -/
def skipWrong : Nat → Bytes → Prop
  | 0, _ => False
  | n + 1, s => SkipHead s ∨ SkipInside (valueText n) (skipWrong n) s

/-- The bytes that the next value can begin with, for a call that consumes it. -/
def Call.fits : Call → UInt8 → Bool
  | .consumeString, c | .consumeStringView, c => isDigit c
  | .consumeInteger _, c => c == 'i'.toUInt8
  | .consumeList t, c => c == 'l'.toUInt8 && t.fits c
  | .consumeDict t, c => c == 'd'.toUInt8 && t.fits c
  | .skipValue, c => BtType.value.fits c
  | .consumeListData, c => c == 'l'.toUInt8
  | .consumeDictData, c => c == 'd'.toUInt8
  | _, _ => true

/-- The next value begins as the call wants it to, and a value or a key inside it is of
the wrong type. -/
def Call.WrongInside : Call → Bytes → Prop
  | .consumeList t, s => s.head? = some 'l'.toUInt8 ∧ t.WrongInside s
  | .consumeDict t, s => s.head? = some 'd'.toUInt8 ∧ t.WrongInside s
  | .skipValue, s => SkipInside (valueText s.length) (skipWrong s.length) s
  | .consumeListData, s => WrongItem (valueText s.length) (skipWrong s.length) s
  | .consumeDictData, s => WrongPair 1 (valueText s.length) (skipWrong s.length) s
  | _, _ => False

variable {s : Bytes}

theorem Tests.noTypeError {x : BtReader Bool} {p : UInt8 → Bool} (h : Tests x p) :
    NoTypeError x := by
  rintro (_ | ⟨c, s⟩) ⟨what, s', hs⟩
  · cases h.nil.symm.trans hs
  · cases (h.cons c s).symm.trans hs

theorem noTypeError_isNegativeInteger : NoTypeError isNegativeInteger := by
  refine .bind tests_isInteger.noTypeError fun b => ?_
  cases b with
  | false => exact .pure _
  | true => exact .bind .get fun _ => .pure _

theorem keepsInput_consumeStringView (s : Bytes) : KeepsInput isDigit consumeStringView s := by
  intro what s' h
  obtain ⟨rfl, ⟨-, he⟩ | ⟨c, hc, hdigit, -⟩ | ⟨u, hu⟩⟩ := run_consumeStringView_error h
  · cases he
  · exact ⟨rfl, .inr ⟨c, hc, hdigit⟩⟩
  · exact ⟨rfl, .inr ((reads_btDeserializeStringView _).typeError_iff.mp ⟨what, u, hu⟩).2⟩

theorem reads_consumeStringView (s : Bytes) :
    ReadsText consumeStringView AnyString (Unfit isDigit 1) s := by
  refine ⟨fun rest => ?_, ⟨fun ⟨what, s', h⟩ => ?_, fun h => ?_⟩⟩
  · rw [← (alike_consumeStringView s).ok_iff rest]
    exact exists_congr fun val => run_btDeserializeStringView_iff
  · obtain ⟨-, ⟨-, he⟩ | ⟨c, hc, hdigit, -⟩ | ⟨u, hu⟩⟩ := run_consumeStringView_error h
    · cases he
    · exact ⟨List.length_pos_of_mem (List.mem_of_mem_head? hc), c, hc, hdigit⟩
    · obtain ⟨hlen, hc⟩ := (reads_btDeserializeStringView _).typeError_iff.mp ⟨what, u, hu⟩
      exact ⟨by omega, hc⟩
  · obtain ⟨-, c, hc, hdigit⟩ := h
    obtain ⟨r, rfl⟩ := List.head?_eq_some_iff.mp hc
    rw [TypeError, consumeStringView, run_get_bind, run_throwIf_bind (by simp)]
    exact ⟨_, _, run_throwIf_bind_error (by simpa using Bool.eq_false_iff.mp hdigit) _ _⟩

section Loops

variable {text : Text} {wrong : Bytes → Prop} {round skip : BtReader Unit}

/-- The walk goes on as long as there is something behind the element. -/
theorem typeError_whileNotFinished (hshrinks : Shrinks text)
    (hround : ∀ t, t.length ≤ s.length → ReadsText round (fun t u => text t u ∧ u ≠ []) wrong t)
    {n : Nat} (hn : s.length < n) :
    TypeError (whileNotFinished round n) s ↔ WrongWalk text wrong s := by
  induction n generalizing s with
  | zero => omega
  | succ n ih =>
    by_cases hmore : More s
    · have hreads := hround s (le_refl _)
      have hnext {u : Bytes} (hu : text s u) :
          TypeError (whileNotFinished round n) u ↔ WrongWalk text wrong u := by
        have hlen := hshrinks s u hu
        exact ih (fun t ht => hround t (by omega)) (by omega)
      obtain ⟨c, t, rfl, hc⟩ := id hmore
      rw [wrongWalk_iff_of_more hmore, TypeError, run_whileNotFinished_step round n hc t,
        ← TypeError, typeError_bind_iff, hreads.typeError_iff, WrongBoth]
      refine or_congr_right ⟨?_, ?_⟩
      · rintro ⟨a, u, hu, h⟩
        have htext := ((hreads.ok_iff u).mp ⟨a, hu⟩).1
        exact ⟨u, htext, (hnext htext).mp h⟩
      · rintro ⟨u, hu, h⟩
        have hne : u ≠ [] := by
          rintro rfl
          exact not_wrongWalk not_more_nil h
        obtain ⟨a, ha⟩ := (hreads.ok_iff u).mpr ⟨hu, hne⟩
        exact ⟨a, u, ha, (hnext hu).mpr h⟩
    · refine iff_of_false ?_ (not_wrongWalk hmore)
      rintro ⟨what, s', h⟩
      rcases eq_end_of_not_more hmore with rfl | ⟨t, rfl⟩ <;> cases h

theorem reads_skipPair (hnil : ∀ rest, ¬ text [] rest) (hnil' : ¬ wrong [])
    (hskip : ∀ t, t.length ≤ s.length → ReadsText skip text wrong t) :
    ReadsText (skipPair skip) (fun t u => Relation.Comp AnyString text t u ∧ u ≠ [])
      (WrongBoth AnyString (Unfit isDigit 1) wrong) s := by
  have hvalue (what : String) (k t : Bytes) (hk : consumeStringView.run s = .ok k t) :
      ReadsText (do
        if ¬ (← get).isEmpty then
          skip
        throwIf (← get).isEmpty (.invalid what)) (fun t u => text t u ∧ u ≠ []) wrong t := by
    have hlen := shrinks_anyString s t (((reads_consumeStringView s).ok_iff t).mp ⟨k, hk⟩)
    cases t with
    | nil =>
      refine ⟨fun rest => iff_of_false ?_ fun h => hnil rest h.1, iff_of_false ?_ hnil'⟩
      · rintro ⟨_, h⟩
        cases h
      · rintro ⟨_, _, h⟩
        cases h
    | cons c t =>
      refine .of_run ?_ ((hskip (c :: t) hlen.le).notEmpty what)
      rfl
  refine ((reads_consumeStringView s).bind (hvalue _)).congr (fun rest => ?_) Iff.rfl
  constructor
  · rintro ⟨t, ht, hu, hne⟩
    exact ⟨⟨t, ht, hu⟩, hne⟩
  · rintro ⟨⟨t, ht, hu⟩, hne⟩
    exact ⟨t, ht, hu, hne⟩

variable {isType : BtReader Bool} {b : UInt8} {what : String}

theorem run_containerData_of_mismatch (hb : Tests isType (· == b)) (h : Mismatch (· == b) s)
    (e : BtError) : (containerData isType e round).run s = .error e s := by
  refine run_containerData_error (h.imp_right ?_)
  rintro ⟨c, hc, (hne : (c == b) = false)⟩
  obtain ⟨r, rfl⟩ := List.head?_eq_some_iff.mp hc
  rw [hb.cons, hne]

theorem typeError_containerData (hb : Tests isType (· == b)) (hshrinks : Shrinks text)
    (hround : ∀ t, t.length < s.length → ReadsText round (fun t u => text t u ∧ u ≠ []) wrong t) :
    TypeError (containerData isType (.invalidType what) round) s ↔
      Mismatch (· == b) s ∨ WrongElem b text wrong s := by
  by_cases hmis : Mismatch (· == b) s
  · exact iff_of_true ⟨_, _, run_containerData_of_mismatch hb hmis _⟩ (.inl hmis)
  obtain ⟨r, rfl, hr⟩ := exists_of_not_mismatch hmis
  have htest : isType.run (b :: r) = .ok true (b :: r) := by rw [hb.cons, beq_self_eq_true]
  have hloop := typeError_whileNotFinished (s := r) hshrinks
    (fun t ht => hround t (Nat.lt_succ_of_le ht)) (Nat.lt_succ_self _)
  rw [or_iff_right hmis, TypeError, run_containerData htest hr, ← TypeError, WrongElem,
    behind_cons_iff hr, ← hloop]
  constructor
  · intro h
    rcases typeError_bind_iff.mp h with h | ⟨_, t, -, h⟩
    · refine (typeError_bind_iff.mp h).resolve_right ?_
      rintro ⟨_, t, -, h⟩
      exact NoTypeError.removePrefix 1 t h
    · exact absurd h (NoTypeError.get.bind (fun _ => .pure _) t)
  · exact fun h => typeError_bind_iff.mpr (.inl (typeError_bind_iff.mpr (.inl h)))

theorem keepsInput_containerData_iff (hb : Tests isType (· == b)) {e : BtError}
    (h : TypeError (containerData isType e round) s ↔
      Mismatch (· == b) s ∨ WrongElem b text wrong s) :
    KeepsInput (· == b) (containerData isType e round) s ↔ ¬ WrongElem b text wrong s := by
  refine keepsInput_iff_not h (fun h => ?_) fun h => Behind.not_mismatch h (beq_self_eq_true b)
  exact ⟨h, _, run_containerData_of_mismatch hb h _⟩

end Loops

section Values

variable {n : Nat}

theorem run_skipNested_ok_iff (hn : s.length < n) (rest : Bytes) :
    (∃ v, (skipNested n).run s = .ok v rest) ↔ valueText n s rest := by
  rcases s with _ | ⟨c, s⟩
  · obtain ⟨n, rfl⟩ : ∃ m, n = m + 1 := ⟨n - 1, by omega⟩
    exact iff_of_false (by rintro ⟨_, h⟩; cases h) fun h => absurd (two_le_of_valueText h) (by simp)
  · rw [← (reads_btDeserializeValue hn).ok_iff rest]
    exact ((alike_skipNested (List.cons_ne_nil c s) hn hn).ok_iff rest).symm

theorem not_skipWrong_nil (n : Nat) : ¬ skipWrong n [] := by
  cases n with
  | zero => exact id
  | succ n =>
    rintro ((⟨_, _, h, -⟩ | h | h) | h | h)
    · cases h
    · cases h
    · cases h
    · exact absurd h.two_le (by simp)
    · exact absurd h.two_le (by simp)

theorem skipHead_cons_iff {c : UInt8} {r : Bytes} : SkipHead (c :: r) ↔
    BtType.value.fits c = false ∨ r = [] ∧ (c = 'l'.toUInt8 ∨ c = 'd'.toUInt8) := by
  simp [SkipHead, Unfit]
  tauto

theorem not_skipWrong_of_scalar {c : UInt8} {r : Bytes} {text : Text} {wrong : Bytes → Prop}
    (hc : BtType.value.fits c = true) (hl : c ≠ 'l'.toUInt8) (hd : c ≠ 'd'.toUInt8) :
    ¬ (SkipHead (c :: r) ∨ SkipInside text wrong (c :: r)) := by
  rintro (h | h | h)
  · rcases skipHead_cons_iff.mp h with h | ⟨-, h | h⟩
    · cases hc.symm.trans h
    · exact hl h
    · exact hd h
  · exact hl (Behind.head_eq h)
  · exact hd (Behind.head_eq h)

section Containers

variable (h : ∀ t, t.length < s.length → ReadsText (skipNested n) (valueText n) (skipWrong n) t)
include h

theorem reads_skipItem_skipNested (t : Bytes) (ht : t.length < s.length) :
    ReadsText (skipItem (skipNested n)) (fun t u => valueText n t u ∧ u ≠ []) (skipWrong n) t :=
  (h t ht).notEmpty _

theorem reads_skipPair_skipNested (t : Bytes) (ht : t.length < s.length) :
    ReadsText (skipPair (skipNested n))
      (fun t u => Relation.Comp AnyString (valueText n) t u ∧ u ≠ [])
      (WrongBoth AnyString (Unfit isDigit 1) (skipWrong n)) t :=
  reads_skipPair (fun _ ht => absurd (two_le_of_valueText ht) (by simp)) (not_skipWrong_nil n)
    fun u hu => h u (by omega)

end Containers

theorem reads_skipNested (hn : s.length < n) :
    ReadsText (skipNested n) (valueText n) (skipWrong n) s := by
  refine ⟨run_skipNested_ok_iff hn, ?_⟩
  induction n generalizing s with
  | zero => omega
  | succ n ih =>
    rcases s with _ | ⟨c, r⟩
    · exact iff_of_false (by rintro ⟨_, _, h⟩; cases h) (not_skipWrong_nil _)
    have hskip (t : Bytes) (ht : t.length < (c :: r).length) :
        ReadsText (skipNested n) (valueText n) (skipWrong n) t :=
      ⟨run_skipNested_ok_iff (by omega), ih (by omega)⟩
    have hitem := reads_skipItem_skipNested hskip
    have hpair := reads_skipPair_skipNested hskip
    rw [skipWrong, TypeError, run_skipNested_cons, ← TypeError]
    split
    case isTrue hc =>
      refine iff_of_false (fun h => ?_) (not_skipWrong_of_scalar (by simp [BtType.fits, hc]) ?_ ?_)
      · exact not_unfit hc (((reads_consumeStringView _).map _).typeError_iff.mp h)
      · rintro rfl
        exact absurd hc (by decide)
      · rintro rfl
        exact absurd hc (by decide)
    case isFalse hs =>
    split
    case isTrue hc =>
      subst hc
      refine iff_of_false (fun h => ?_) (not_skipWrong_of_scalar rfl (by decide) (by decide))
      exact not_unfit rfl (((reads_btDeserializeInteger _).map _).typeError_iff.mp h)
    case isFalse hi =>
    split
    case isTrue hc =>
      subst hc
      rw [typeError_map_iff, listData, typeError_containerData tests_isList (shrinks_valueText n)
        hitem, mismatch_cons_iff, skipHead_cons_iff, SkipInside,
        or_iff_left fun h : WrongPair _ _ _ _ => absurd (Behind.head_eq h) (by decide)]
      refine or_congr_left ?_
      simp [BtType.fits]
    case isFalse hl =>
    split
    case isTrue hc =>
      subst hc
      rw [typeError_map_iff, dictData, typeError_containerData tests_isDict
        (shrinks_anyString.comp (shrinks_valueText n)) hpair, mismatch_cons_iff, skipHead_cons_iff,
        SkipInside, or_iff_right fun h : WrongItem _ _ _ => absurd (Behind.head_eq h) (by decide)]
      refine or_congr_left ?_
      simp [BtType.fits]
    case isFalse hd =>
      have hfits : BtType.value.fits c = false := by
        simp [BtType.fits, hs, hi, hl, hd]
      exact iff_of_true ⟨_, _, rfl⟩ (.inl (.inl ⟨Nat.succ_pos _, c, rfl, hfits⟩))

end Values

theorem reads_skipValue (s : Bytes) :
    ReadsText skipValue (valueText (s.length + 1)) (skipWrong (s.length + 1)) s := by
  refine .of_run ?_ (reads_skipNested (Nat.lt_succ_self s.length))
  rw [skipValue, run_get_bind]

section Calls

/-- A method that asks for the type first. The reader works on a copy of the view, so
only the place of the mismatch matters. -/
theorem keepsInput_consumeAs_iff {α : Type} {isType : BtReader Bool} {b : UInt8}
    (hb : Tests isType (· == b)) {fits : UInt8 → Bool} (hfits : ∀ c, fits c = true → c = b)
    {e : BtError} {x : BtReader α} : KeepsInput fits (consumeAs isType e x) s ↔
      (s.head? = some b → TypeError x s → Mismatch fits s) := by
  rcases s with _ | ⟨c, r⟩
  · refine iff_of_true (keepsInput_of_not_typeError ?_) nofun
    rintro ⟨_, _, h⟩
    rw [consumeAs, run_bind_error hb.nil] at h
    cases h
  rw [KeepsInput, consumeAs, run_bind_ok (hb.cons c r)]
  by_cases hc : c = b
  · subst hc
    rw [run_throwIf_bind (by simp)]
    simp only [run_onCopy_error_iff, List.head?_cons]
    constructor
    · rintro h - ⟨what, u, hu⟩
      exact (h what _ ⟨rfl, u, hu⟩).2
    · rintro h what s' ⟨rfl, u, hu⟩
      exact ⟨rfl, h trivial ⟨what, u, hu⟩⟩
  · have hmis : Mismatch fits (c :: r) :=
      .inr ⟨c, rfl, Bool.eq_false_iff.mpr fun h => hc (hfits c h)⟩
    rw [run_throwIf_bind_error (by simpa using hc)]
    refine iff_of_true (fun what s' h => ?_) fun _ _ => hmis
    exact ⟨(EStateM.Result.error.inj h).2.symm, hmis⟩

theorem keepsInput_consumeInteger (t : IntType) (s : Bytes) :
    KeepsInput (· == 'i'.toUInt8) (consumeInteger t) s := by
  refine (keepsInput_consumeAs_iff tests_isInteger fun c => eq_of_beq).mpr fun _ h => ?_
  exact .inr ((reads_btDeserializeInt t s).typeError_iff.mp h).2

/-- `consume_list<T>` and `consume_dict<T>`. -/
theorem keepsInput_consumeAs_read_iff {isType : BtReader Bool} {b : UInt8}
    (hb : Tests isType (· == b)) {e : BtError} (t : BtType) (s : Bytes) :
    KeepsInput (fun c => c == b && t.fits c) (consumeAs isType e t.read) s ↔
      ¬ (s.head? = some b ∧ t.WrongInside s) := by
  have hand (c : UInt8) : (c == b && t.fits c) = true ↔ c = b ∧ t.fits c = true := by
    rw [Bool.and_eq_true_iff, beq_iff_eq]
  rw [keepsInput_consumeAs_iff hb fun c hc => ((hand c).mp hc).1, (t.reads_read s).typeError_iff,
    not_and]
  refine forall_congr' fun hhead => ⟨fun h hin => ?_, fun hin h => ?_⟩
  · refine BtType.not_mismatch_of_wrongInside hin ((h (.inr hin)).imp_right ?_)
    rintro ⟨c, hc, hno⟩
    obtain rfl := Option.some.inj (hc.symm.trans hhead)
    exact ⟨c, hc, by simpa using hno⟩
  · exact (BtType.mismatch_of_wrongHead (h.resolve_right hin)).mono fun c hc => ((hand c).mp hc).2

theorem keepsInput_skipValue_iff (s : Bytes) : KeepsInput BtType.value.fits skipValue s ↔
    ¬ SkipInside (valueText s.length) (skipWrong s.length) s := by
  refine keepsInput_iff_not (reads_skipValue s).typeError_iff (fun h => ?_) ?_
  · rcases h with ⟨-, c, hc, hfits⟩ | rfl | rfl
    · obtain ⟨r, rfl⟩ := List.head?_eq_some_iff.mp hc
      obtain ⟨⟨⟨hs, hi⟩, hl⟩, hd⟩ : ((isDigit c = false ∧ c ≠ 'i'.toUInt8) ∧ c ≠ 'l'.toUInt8) ∧
          c ≠ 'd'.toUInt8 := by simpa [BtType.fits] using hfits
      refine ⟨.inr ⟨c, rfl, hfits⟩, .invalidType "next bt value has unknown type", ?_⟩
      rw [skipValue, run_get_bind, run_skipNested_cons, if_neg (by simp [hs]), if_neg hi, if_neg hl,
        if_neg hd]
      rfl
    · exact ⟨.inl (by decide), _, rfl⟩
    · exact ⟨.inl (by decide), _, rfl⟩
  · exact fun h => h.elim (Behind.not_mismatch · (by decide)) (Behind.not_mismatch · (by decide))

theorem typeError_consumeListData (s : Bytes) : TypeError consumeListData s ↔
    Mismatch (· == 'l'.toUInt8) s ∨ WrongItem (valueText s.length) (skipWrong s.length) s :=
  typeError_containerData tests_isList (shrinks_valueText _)
    (reads_skipItem_skipNested fun _ => reads_skipNested)

theorem typeError_consumeDictData (s : Bytes) : TypeError consumeDictData s ↔
    Mismatch (· == 'd'.toUInt8) s ∨ WrongPair 1 (valueText s.length) (skipWrong s.length) s :=
  typeError_containerData tests_isDict (shrinks_anyString.comp (shrinks_valueText _))
    (reads_skipPair_skipNested fun _ => reads_skipNested)

theorem keepsInput_call_iff (op : Call) (s : Bytes) :
    KeepsInput op.fits (call op) s ↔ ¬ op.WrongInside s := by
  have hnever {α : Type} {x : BtReader α} {fits : UInt8 → Bool} (hx : NoTypeError x) :
      KeepsInput fits x s ↔ ¬ False := iff_of_true (keepsInput_of_not_typeError (hx s)) id
  cases op with
  | currentBuffer => exact hnever .get
  | isFinished => exact hnever tests_isFinished.noTypeError
  | isString => exact hnever tests_isString.noTypeError
  | isInteger => exact hnever tests_isInteger.noTypeError
  | isNegativeInteger => exact hnever noTypeError_isNegativeInteger
  | isList => exact hnever tests_isList.noTypeError
  | isDict => exact hnever tests_isDict.noTypeError
  | consumeString => exact iff_of_true (keepsInput_consumeStringView s) id
  | consumeStringView => exact iff_of_true (keepsInput_consumeStringView s) id
  | consumeInteger t => exact iff_of_true (keepsInput_consumeInteger t s) id
  | consumeList t => exact keepsInput_consumeAs_read_iff tests_isList t s
  | consumeDict t => exact keepsInput_consumeAs_read_iff tests_isDict t s
  | skipValue => exact keepsInput_skipValue_iff s
  | consumeListData =>
    exact keepsInput_containerData_iff tests_isList (typeError_consumeListData s)
  | consumeDictData =>
    exact keepsInput_containerData_iff tests_isDict (typeError_consumeDictData s)

end Calls

end BtListConsumer

end ArqmaMQ
