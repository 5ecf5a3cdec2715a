import Mathlib.Logic.Relation
import ArqmaMQ.BtTypes

/-! The texts of values, told from their bytes: which are whole values of a type, and
in which a value of another type stands where one of that type is looked for. -/

namespace ArqmaMQ

open Decimal

/-- A text at the beginning of a view, and the view behind it. -/
abbrev Text := Bytes → Bytes → Prop

/-- Digits, `:` and as many bytes as the digits say. Their value is taken modulo `2 ^ 64`,
where it must not fall from one digit to the next. -/
def StringText (val s rest : Bytes) : Prop :=
  ∃ ds, ds ≠ [] ∧ (∀ c ∈ ds, IsDigit c) ∧ Rises (2 ^ 64) 0 ds ∧
    val.length = valueFrom 0 ds % 2 ^ 64 ∧ s = ds ++ ':'.toUInt8 :: (val ++ rest)

def AnyString : Text := fun s rest => ∃ val, StringText val s rest

/-- An integer whose sign and magnitude are admitted. -/
def IntText (admits : Bool → Nat → Prop) : Text := fun s rest =>
  ∃ negative ds, ds ≠ [] ∧ (∀ c ∈ ds, IsDigit c) ∧ Rises (2 ^ 64) 0 ds ∧
    admits negative (valueFrom 0 ds % 2 ^ 64) ∧ s = integerText negative ds rest

/-- The integers of a `bt_value`. -/
def AnyInt : Text := IntText fun negative n => negative = true → n ≤ 2 ^ 63

def IntType.Admits (t : IntType) (negative : Bool) (n : Nat) : Prop :=
  t.Holds (signed negative n) ∧ (negative = true → t.isSigned = true)

/-- Something stands behind the byte. -/
def Behind (b : UInt8) (P : Bytes → Prop) (s : Bytes) : Prop := ∃ r, s = b :: r ∧ r ≠ [] ∧ P r

/-- The container goes on. -/
def More (s : Bytes) : Prop := ∃ c t, s = c :: t ∧ c ≠ 'e'.toUInt8

/-- From element to element. -/
def Walk (elem : Text) : Text := Relation.ReflTransGen fun s t => More s ∧ elem s t

def ContainerText (b : UInt8) (elem : Text) : Text := fun s rest =>
  Behind b (fun r => Walk elem r ('e'.toUInt8 :: rest)) s

def ListText (elem : Text) : Text := ContainerText 'l'.toUInt8 elem

def PairsText (value : Text) : Text := ContainerText 'd'.toUInt8 (Relation.Comp AnyString value)

def TupleText (fields : Text) : Text := fun s rest =>
  Behind 'l'.toUInt8 (fun r => fields r ('e'.toUInt8 :: rest)) s

/-- The values nested less than `n` deep. -/
def valueText : Nat → Text
  | 0, _, _ => False
  | n + 1, s, rest => AnyString s rest ∨ AnyInt s rest ∨ ListText (valueText n) s rest ∨
      PairsText (valueText n) s rest

/-- No value that is wanted begins with the first byte of a view of this size. -/
def Unfit (fits : UInt8 → Bool) (size : Nat) (s : Bytes) : Prop :=
  size ≤ s.length ∧ ∃ c, s.head? = some c ∧ fits c = false

/-- One of two things is wrong, the second behind a whole text. -/
def WrongBoth (text : Text) (wrong wrong' : Bytes → Prop) (s : Bytes) : Prop :=
  wrong s ∨ ∃ t, text s t ∧ wrong' t

/-- An element is wrong, behind whole ones. -/
def WrongWalk (elem : Text) (wrong : Bytes → Prop) (s : Bytes) : Prop :=
  ∃ u, Walk elem s u ∧ More u ∧ wrong u

def WrongElem (b : UInt8) (elem : Text) (wrong : Bytes → Prop) : Bytes → Prop :=
  Behind b (WrongWalk elem wrong)

def WrongItem (elem : Text) (wrong : Bytes → Prop) : Bytes → Prop :=
  WrongElem 'l'.toUInt8 elem wrong

/-- A key is not a string, or a value is wrong. A key is looked at when the view has a
certain size. -/
def WrongPair (size : Nat) (value : Text) (wrong : Bytes → Prop) : Bytes → Prop :=
  WrongElem 'd'.toUInt8 (Relation.Comp AnyString value)
    (WrongBoth AnyString (Unfit isDigit size) wrong)

/-- What is wrong in a `bt_value` is a key, at any depth. -/
def valueWrong : Nat → Bytes → Prop
  | 0, _ => False
  | n + 1, s =>
    WrongItem (valueText n) (valueWrong n) s ∨ WrongPair 2 (valueText n) (valueWrong n) s

namespace BtType

/-- The bytes that a value of the type can begin with. -/
def fits : BtType → UInt8 → Bool
  | .int _, c => c == 'i'.toUInt8
  | .string, c => isDigit c
  | .value, c => isDigit c || c == 'i'.toUInt8 || c == 'l'.toUInt8 || c == 'd'.toUInt8
  | .list _, c | .tuple _, c | .pair _ _, c => c == 'l'.toUInt8
  | .dict _, c => c == 'd'.toUInt8

mutual

/-- The texts of the values of the type. -/
def text : BtType → Text
  | .int t => IntText t.Admits
  | .string => AnyString
  | .value => fun s => valueText (s.length + 1) s
  | .list t => ListText t.text
  | .dict t => PairsText t.text
  | .tuple ts => TupleText (fieldsText ts)
  | .pair s t => TupleText (Relation.Comp s.text t.text)

def fieldsText : List BtType → Text
  | [] => Eq
  | t :: ts => Relation.Comp t.text (fieldsText ts)

end

/-- The text begins as no value of the type does. For a `bt_value` that is no matter of
the type. -/
def WrongHead : BtType → Bytes → Prop
  | .value, _ => False
  | .int t, s => Unfit (BtType.int t).fits 3 s
  | t, s => Unfit t.fits 2 s

mutual

/-- The text begins as a value of the type, and further on a value or a key that is
looked for begins as no value of its type does. -/
def WrongInside : BtType → Bytes → Prop
  | .int _, _ | .string, _ => False
  | .value, s => valueWrong (s.length + 1) s
  | .list t, s => WrongItem t.text (fun u => t.WrongHead u ∨ t.WrongInside u) s
  | .dict t, s => WrongPair 2 t.text (fun u => t.WrongHead u ∨ t.WrongInside u) s
  | .tuple ts, s => Behind 'l'.toUInt8 (WrongFields ts) s
  | .pair s t, u => Behind 'l'.toUInt8 (WrongBoth s.text
      (fun v => s.WrongHead v ∨ s.WrongInside v) fun v => t.WrongHead v ∨ t.WrongInside v) u

def WrongFields : List BtType → Bytes → Prop
  | [], _ => False
  | t :: ts, s => WrongBoth t.text (fun u => t.WrongHead u ∨ t.WrongInside u) (WrongFields ts) s

end

end BtType

/-- A text takes up bytes. -/
def Shrinks (text : Text) : Prop := ∀ s t, text s t → t.length < s.length

section Heads

variable {s r rest val : Bytes} {c b : UInt8} {P : Bytes → Prop}

theorem StringText.eq_cons (h : StringText val s rest) :
    ∃ c t, s = c :: t ∧ isDigit c = true ∧ rest.length < t.length := by
  obtain ⟨ds, hne, hd, -, -, rfl⟩ := h
  obtain ⟨c, ds, rfl⟩ := List.exists_cons_of_ne_nil hne
  refine ⟨c, ds ++ ':'.toUInt8 :: (val ++ rest), rfl, isDigit_iff.mpr (hd c List.mem_cons_self), ?_⟩
  simp only [List.length_append, List.length_cons]
  omega

theorem IntText.eq_cons {admits : Bool → Nat → Prop} (h : IntText admits s rest) :
    ∃ t, s = 'i'.toUInt8 :: t ∧ rest.length + 1 < t.length := by
  obtain ⟨negative, ds, hne, -, -, -, rfl⟩ := h
  have := List.length_pos_of_ne_nil hne
  refine ⟨_, rfl, ?_⟩
  simp only [List.length_append, List.length_cons]
  omega

theorem AnyString.isDigit_head (h : AnyString (c :: r) rest) : isDigit c = true := by
  obtain ⟨val, h⟩ := h
  obtain ⟨d, t, heq, hd, -⟩ := h.eq_cons
  exact (List.cons.inj heq).1 ▸ hd

theorem AnyInt.head_eq (h : AnyInt (c :: r) rest) : c = 'i'.toUInt8 := by
  obtain ⟨t, heq, -⟩ := IntText.eq_cons h
  exact (List.cons.inj heq).1

theorem Behind.head_eq (h : Behind b P (c :: r)) : c = b := by
  obtain ⟨t, heq, -⟩ := h
  exact (List.cons.inj heq).1

theorem behind_cons_iff (hr : r ≠ []) : Behind b P (b :: r) ↔ P r := by
  refine ⟨?_, fun h => ⟨r, rfl, hr, h⟩⟩
  rintro ⟨r', h, -, hP⟩
  exact (List.cons.inj h).2 ▸ hP

theorem Behind.two_le (h : Behind b P s) : 2 ≤ s.length := by
  obtain ⟨r, rfl, hr, -⟩ := h
  have := List.length_pos_of_ne_nil hr
  rw [List.length_cons]
  omega

theorem shrinks_anyString : Shrinks AnyString := by
  rintro s t ⟨val, h⟩
  obtain ⟨c, u, rfl, -, hlen⟩ := h.eq_cons
  rw [List.length_cons]
  omega

theorem shrinks_intText (admits : Bool → Nat → Prop) : Shrinks (IntText admits) := by
  intro s t h
  obtain ⟨u, rfl, hlen⟩ := h.eq_cons
  rw [List.length_cons]
  omega

end Heads

section Containers

variable {elem text text' : Text} {s t : Bytes}

theorem not_more_nil : ¬ More [] := by
  rintro ⟨c, t, h, -⟩
  cases h

theorem not_more_end (s : Bytes) : ¬ More ('e'.toUInt8 :: s) := by
  rintro ⟨c, t, h, hc⟩
  exact hc (List.cons.inj h).1.symm

theorem eq_end_of_not_more (h : ¬ More s) : s = [] ∨ ∃ t, s = 'e'.toUInt8 :: t := by
  rcases s with _ | ⟨c, s⟩
  · exact .inl rfl
  · by_cases hc : c = 'e'.toUInt8
    · exact .inr ⟨s, by rw [hc]⟩
    · exact absurd ⟨c, s, rfl, hc⟩ h

/-- The first step of a walk. -/
theorem walk_iff_of_more (h : More s) :
    Walk elem s t ↔ s = t ∨ ∃ u, elem s u ∧ Walk elem u t := by
  refine Relation.ReflTransGen.cases_head_iff.trans (or_congr_right ?_)
  exact exists_congr fun u => ⟨fun hu => ⟨hu.1.2, hu.2⟩, fun hu => ⟨⟨h, hu.1⟩, hu.2⟩⟩

theorem walk_iff_of_not_more (h : ¬ More s) : Walk elem s t ↔ s = t := by
  refine Relation.ReflTransGen.cases_head_iff.trans (or_iff_left ?_)
  rintro ⟨u, hu, -⟩
  exact h hu.1

theorem wrongWalk_iff_of_more {wrong : Bytes → Prop} (h : More s) :
    WrongWalk elem wrong s ↔ WrongBoth elem wrong (WrongWalk elem wrong) s := by
  constructor
  · rintro ⟨v, hv, hmore, hwrong⟩
    rcases (walk_iff_of_more h).mp hv with rfl | ⟨u, hu, hw⟩
    · exact .inl hwrong
    · exact .inr ⟨u, hu, v, hw, hmore, hwrong⟩
  · rintro (hwrong | ⟨u, hu, v, hv, hmore, hwrong⟩)
    · exact ⟨s, .refl, h, hwrong⟩
    · exact ⟨v, (walk_iff_of_more h).mpr (.inr ⟨u, hu, hv⟩), hmore, hwrong⟩

theorem not_wrongWalk {wrong : Bytes → Prop} (h : ¬ More s) : ¬ WrongWalk elem wrong s := by
  rintro ⟨u, hw, hmore, -⟩
  rw [walk_iff_of_not_more h] at hw
  exact h (hw ▸ hmore)

theorem Shrinks.walk (h : Shrinks elem) (hw : Walk elem s t) : t.length ≤ s.length := by
  induction hw with
  | refl => exact le_refl _
  | tail _ hstep ih => exact (h _ _ hstep.2).le.trans ih

theorem Shrinks.comp (h : Shrinks text) (h' : Shrinks text') : Shrinks (Relation.Comp text text') :=
  fun s _ ⟨u, hu, ht⟩ => (h' u _ ht).trans (h s u hu)

theorem Shrinks.containerText (h : Shrinks elem) (b : UInt8) : Shrinks (ContainerText b elem) := by
  rintro s rest ⟨r, rfl, -, hw⟩
  have hlen := h.walk hw
  rw [List.length_cons] at hlen ⊢
  omega

theorem Shrinks.tupleText (h : ∀ s t, text s t → t.length ≤ s.length) :
    Shrinks (TupleText text) := by
  rintro s rest ⟨r, rfl, -, hf⟩
  have hlen := h _ _ hf
  rw [List.length_cons] at hlen ⊢
  omega

end Containers

theorem shrinks_valueText (n : Nat) : Shrinks (valueText n) := by
  induction n with
  | zero => exact fun _ _ h => h.elim
  | succ n ih =>
    rintro s t (h | h | h | h)
    · exact shrinks_anyString s t h
    · exact shrinks_intText _ s t h
    · exact ih.containerText _ s t h
    · exact (shrinks_anyString.comp ih).containerText _ s t h

theorem two_le_of_valueText {n : Nat} {s rest : Bytes} (h : valueText n s rest) : 2 ≤ s.length := by
  cases n with
  | zero => exact h.elim
  | succ n =>
    rcases h with ⟨val, h⟩ | h | h | h
    · obtain ⟨c, t, rfl, -, hlen⟩ := h.eq_cons
      rw [List.length_cons]
      omega
    · obtain ⟨t, rfl, hlen⟩ := IntText.eq_cons h
      rw [List.length_cons]
      omega
    · exact Behind.two_le h
    · exact Behind.two_le h

theorem two_le_of_valueWrong {n : Nat} {s : Bytes} (h : valueWrong n s) : 2 ≤ s.length := by
  cases n with
  | zero => exact h.elim
  | succ n => exact h.elim Behind.two_le Behind.two_le

theorem BtType.shrinks_text (t : BtType) : Shrinks t.text := by
  induction t using BtType.induct with
  | int t =>
    rw [text]
    exact shrinks_intText _
  | string =>
    rw [text]
    exact shrinks_anyString
  | value =>
    rw [text]
    exact fun s => shrinks_valueText _ s
  | list t ih =>
    rw [text]
    exact ih.containerText _
  | dict t ih =>
    rw [text]
    exact (shrinks_anyString.comp ih).containerText _
  | tuple ts ih =>
    rw [text]
    refine Shrinks.tupleText ?_
    induction ts with
    | nil =>
      rw [fieldsText]
      rintro s _ rfl
      exact le_refl _
    | cons t ts ihts =>
      rw [fieldsText]
      rintro s v ⟨u, hu, hv⟩
      exact (ihts (fun t ht => ih t (List.mem_cons_of_mem _ ht)) u v hv).trans
        (ih t List.mem_cons_self s u hu).le
  | pair s t ihs iht =>
    rw [text]
    exact Shrinks.tupleText fun u v h => (ihs.comp iht u v h).le

end ArqmaMQ
