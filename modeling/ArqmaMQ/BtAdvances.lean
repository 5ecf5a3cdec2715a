import ArqmaMQ.BtConsumer
import ArqmaMQ.Transition

/-! Skipping moves the view forward, whether it succeeds or not. -/

namespace ArqmaMQ

open Transition

/-- The view only moves forward. -/
def Advances {α : Type} (x : BtReader α) : Prop := ∀ s, left (x.run s) <:+ s

section Advances

variable {α β : Type}

theorem Advances.pure (a : α) : Advances (Pure.pure a) := fun _ => List.suffix_rfl

theorem Advances.get : Advances (MonadState.get : BtReader Bytes) := fun _ => List.suffix_rfl

theorem Advances.throw (e : BtError) : Advances (MonadExcept.throw e : BtReader α) :=
  fun _ => List.suffix_rfl

theorem Advances.front : Advances front := by
  rintro (_ | ⟨c, s⟩) <;> exact List.suffix_rfl

theorem Advances.removePrefix (n : Nat) : Advances (removePrefix n) :=
  fun s => List.drop_suffix n s

theorem Advances.throwIf (c : Prop) [Decidable c] (e : BtError) : Advances (throwIf c e) := by
  intro s
  rw [ArqmaMQ.throwIf]
  split <;> exact List.suffix_rfl

theorem Advances.onCopy {x : BtReader α} (hx : Advances x) : Advances (onCopy x) := by
  intro s
  have h := hx s
  rw [EStateM.run, ArqmaMQ.onCopy]
  cases hr : x.run s with
  | ok a t => rwa [hr] at h
  | error e t => exact List.suffix_rfl

theorem Advances.bind {x : BtReader α} {f : α → BtReader β} (hx : Advances x)
    (hf : ∀ a, Advances (f a)) : Advances (x >>= f) := by
  intro s
  have h := hx s
  cases hr : x.run s with
  | ok a t =>
    rw [hr] at h
    rw [run_bind_ok hr]
    exact (hf a t).trans h
  | error e t =>
    rw [hr] at h
    rwa [run_bind_error hr]

theorem Advances.ite {c : Prop} [Decidable c] {x y : BtReader α} (hx : Advances x)
    (hy : Advances y) : Advances (if c then x else y) := by
  split
  · exact hx
  · exact hy

theorem left_digitLoop_suffix (u : UInt64) (s : Bytes) : left (digitLoop u s) <:+ s := by
  induction s generalizing u with
  | nil => exact List.suffix_rfl
  | cons c s ih =>
    rw [digitLoop]
    split
    · dsimp only
      split
      · exact List.suffix_cons c s
      · exact (ih _).trans (List.suffix_cons c s)
    · exact List.suffix_rfl

theorem advances_extractUnsigned : Advances extractUnsigned :=
  .bind .get fun _ => .bind (.throwIf _ _) fun _ => .bind .front fun _ =>
    .bind (.throwIf _ _) fun _ => left_digitLoop_suffix 0

theorem advances_btDeserializeStringView : Advances btDeserializeStringView :=
  .bind .get fun _ => .bind (.throwIf _ _) fun _ => .bind .front fun _ =>
    .bind (.throwIf _ _) fun _ => .bind advances_extractUnsigned fun _ => .bind .get fun _ =>
    .bind (.throwIf _ _) fun _ => .bind .front fun _ => .bind (.throwIf _ _) fun _ =>
    .bind (.removePrefix _) fun _ => .bind .get fun _ => .bind (.throwIf _ _) fun _ =>
    .bind (.removePrefix _) fun _ => .pure _

theorem advances_btDeserializeInteger : Advances btDeserializeInteger :=
  .bind .get fun _ => .bind (.throwIf _ _) fun _ => .bind .front fun _ =>
    .bind (.throwIf _ _) fun _ => .bind (.removePrefix _) fun _ => .bind .front fun _ =>
    .bind (.removePrefix _) fun _ => .bind advances_extractUnsigned fun _ => .bind .get fun _ =>
    .bind (.throwIf _ _) fun _ => .bind .front fun _ => .bind (.throwIf _ _) fun _ =>
    .bind (.removePrefix _) fun _ => .bind (.throwIf _ _) fun _ => .pure _

end Advances

namespace BtListConsumer

theorem advances_consumeStringView : Advances consumeStringView :=
  .bind .get fun _ => .bind (.throwIf _ _) fun _ => .bind (.bind .front fun _ => .pure _) fun _ =>
    .bind .front fun _ => .bind (.throwIf _ _) fun _ => advances_btDeserializeStringView.onCopy

theorem advances_whileNotFinished {round : BtReader Unit} (h : Advances round) (n : Nat) :
    Advances (whileNotFinished round n) := by
  induction n with
  | zero => exact .throw _
  | succ n ih =>
    exact .bind (.bind .front fun _ => .pure _) fun _ => .ite (.pure _) (h.bind fun _ => ih)

theorem advances_containerData {isType : BtReader Bool} {e : BtError} {round : BtReader Unit}
    (htype : Advances isType) (h : Advances round) : Advances (containerData isType e round) :=
  .bind .get fun _ => .bind (.throwIf _ _) fun _ => .bind htype fun _ =>
    .bind (.throwIf _ _) fun _ => .bind (.removePrefix _) fun _ =>
    .bind (advances_whileNotFinished h _) fun _ => .bind (.removePrefix _) fun _ =>
    .bind .get fun _ => .pure _

theorem advances_skipPair {skip : BtReader Unit} (h : Advances skip) :
    Advances (skipPair skip) := by
  refine .bind advances_consumeStringView fun _ => .bind .get fun _ => .ite ?_ ?_
  · exact .bind h fun _ => .bind .get fun _ => .throwIf _ _
  · exact .bind .get fun _ => .throwIf _ _

theorem advances_isList : Advances isList := .bind .front fun _ => .pure _

theorem advances_isDict : Advances isDict := .bind .front fun _ => .pure _

theorem advances_skipItem {skip : BtReader Unit} (h : Advances skip) : Advances (skipItem skip) :=
  .bind h fun _ => .bind .get fun _ => .throwIf _ _

theorem advances_skipNested (n : Nat) : Advances (skipNested n) := by
  induction n with
  | zero => exact .throw _
  | succ n ih =>
    refine .bind (.bind .front fun _ => .pure _) fun _ => .ite ?_ ?_
    · exact .bind advances_consumeStringView fun _ => .pure _
    refine .bind (.bind .front fun _ => .pure _) fun _ => .ite ?_ ?_
    · exact .bind advances_btDeserializeInteger fun _ => .pure _
    refine .bind advances_isList fun _ => .ite ?_ ?_
    · exact .bind (advances_containerData advances_isList (advances_skipItem ih)) fun _ => .pure _
    refine .bind advances_isDict fun _ => .ite ?_ (.throw _)
    exact .bind (advances_containerData advances_isDict (advances_skipPair ih)) fun _ => .pure _

theorem advances_skipValue : Advances skipValue := .bind .get fun _ => advances_skipNested _

theorem advances_consumeListData : Advances consumeListData :=
  .bind .get fun _ => advances_containerData advances_isList
    (advances_skipItem (advances_skipNested _))

theorem advances_consumeDictData : Advances consumeDictData :=
  .bind .get fun _ => advances_containerData advances_isDict
    (advances_skipPair (advances_skipNested _))

end BtListConsumer

end ArqmaMQ
