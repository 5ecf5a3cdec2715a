import Mathlib.Tactic
import Mathlib.Data.List.Lex

/-! Maps kept as lists of pairs with ascending keys, and sequences of
assignments to them. -/

namespace SortedMap

variable {κ α β : Type} [LinearOrder κ] {k l : κ} {v : α} {d es fs : List (κ × α)}

/-- `d[k] = v` -/
def assign (k : κ) (v : α) : List (κ × α) → List (κ × α)
  | [] => [(k, v)]
  | p :: d =>
    if k < p.1 then (k, v) :: p :: d
    else if p.1 < k then p :: assign k v d
    else (k, v) :: d

def assignAll (es d : List (κ × α)) : List (κ × α) :=
  es.foldl (fun d e => assign e.1 e.2 d) d

def get (k : κ) (d : List (κ × α)) : Option α := (d.find? fun p => p.1 = k).map Prod.snd

/-- The value of the last assignment to `k`. -/
def last (k : κ) (es : List (κ × α)) : Option α := get k es.reverse

def Ascending (d : List (κ × α)) : Prop := (d.map Prod.fst).Pairwise (· < ·)

@[simp] theorem get_nil : get k ([] : List (κ × α)) = none := rfl

theorem get_cons (p : κ × α) : get k (p :: d) = if p.1 = k then some p.2 else get k d := by
  rw [get, List.find?_cons]
  by_cases h : p.1 = k
  · simp [h]
  · simp [h, get]

theorem get_append : get k (d ++ es) = (get k d).or (get k es) := by
  induction d with
  | nil => rfl
  | cons p d ih =>
    rw [List.cons_append, get_cons, get_cons, ih]
    split <;> rfl

theorem get_assign : get l (assign k v d) = if k = l then some v else get l d := by
  induction d with
  | nil => rw [assign, get_cons]
  | cons p d ih =>
    rw [assign]
    split
    case isTrue => rw [get_cons]
    split
    case isTrue hlt =>
      rw [get_cons, get_cons, ih]
      by_cases hp : p.1 = l
      · rw [if_pos hp, if_pos hp, if_neg (hp ▸ hlt.ne')]
      · rw [if_neg hp, if_neg hp]
    case isFalse hge hle =>
      obtain rfl : k = p.1 := le_antisymm (not_lt.mp hle) (not_lt.mp hge)
      rw [get_cons, get_cons]
      split <;> rfl

@[simp] theorem last_nil : last k ([] : List (κ × α)) = none := rfl

theorem last_append : last k (es ++ fs) = (last k fs).or (last k es) := by
  rw [last, List.reverse_append, get_append, last, last]

theorem last_cons (e : κ × α) :
    last k (e :: es) = (last k es).or (if e.1 = k then some e.2 else none) := by
  rw [← List.singleton_append, last_append]
  congr 1
  rw [last, List.reverse_singleton, get_cons, get_nil]

theorem last_eq_none {keys : List κ} (h : ∀ e ∈ es, e.1 ∈ keys) (hk : k ∉ keys) :
    last k es = none := by
  rw [last, get, List.find?_eq_none.mpr, Option.map_none]
  intro e he
  rw [decide_eq_true_eq]
  rintro rfl
  exact hk (h e (List.mem_reverse.mp he))

theorem assignAll_append : assignAll (es ++ fs) d = assignAll fs (assignAll es d) :=
  List.foldl_append ..

/-- The value of the last item that has one. -/
def lastOf {ο : Type} (g : ο → Option β) (os : List ο) : Option β := (os.filterMap g).getLast?

/-- What an item assigns to `k`, when it assigns at most one key. -/
def valueOf {ο : Type} (f : ο → Option (κ × α)) (k : κ) (o : ο) : Option α :=
  (f o).bind fun e => if e.1 = k then some e.2 else none

theorem lastOf_cons {ο : Type} (g : ο → Option β) (o : ο) (os : List ο) :
    lastOf g (o :: os) = (lastOf g os).or (g o) := by
  rw [lastOf, List.filterMap_cons]
  cases g o with
  | none => rw [Option.or_none]; rfl
  | some b =>
    dsimp only
    rw [List.getLast?_cons, lastOf]
    cases (os.filterMap g).getLast? <;> rfl

theorem last_filterMap {ο : Type} (f : ο → Option (κ × α)) (os : List ο) :
    last k (os.filterMap f) = lastOf (valueOf f k) os := by
  induction os with
  | nil => rfl
  | cons o os ih =>
    rw [lastOf_cons, ← ih, valueOf]
    cases hf : f o with
    | none => rw [List.filterMap_cons_none hf, Option.bind_none, Option.or_none]
    | some e => rw [List.filterMap_cons_some hf, last_cons, Option.bind_some]

theorem lastOf_map {ο γ : Type} (g : ο → Option β) (enc : β → γ) (os : List ο) :
    lastOf (fun o => (g o).map enc) os = (lastOf g os).map enc := by
  induction os with
  | nil => rfl
  | cons o os ih =>
    rw [lastOf_cons, lastOf_cons, ih]
    cases lastOf g os <;> rfl

/-- The last assignment wins. -/
theorem get_assignAll : get k (assignAll es d) = (last k es).or (get k d) := by
  induction es generalizing d with
  | nil => rfl
  | cons e es ih =>
    rw [assignAll, List.foldl_cons, ← assignAll, ih, get_assign, last_cons]
    split
    · rw [Option.or_assoc]
      rfl
    · rw [Option.or_none]

section Items

variable {ο : Type} {f : ο → Option (κ × α)} {keys : List κ}

theorem foldl_assignAll_toList (os : List ο) :
    os.foldl (fun d o => assignAll (f o).toList d) d = assignAll (os.filterMap f) d := by
  induction os generalizing d with
  | nil => rfl
  | cons o os ih =>
    rw [List.foldl_cons, ih]
    cases ho : f o with
    | none => rw [List.filterMap_cons_none ho]; rfl
    | some e => rw [List.filterMap_cons_some ho]; rfl

/-- A key that only the items assign to, after some first assignments. -/
theorem get_items {g : ο → Option β} {enc : β → α} (h : ∀ o, valueOf f k o = (g o).map enc)
    (hfs : ∀ e ∈ fs, e.1 ∈ keys) (hk : k ∉ keys) (os : List ο) :
    get k (assignAll (es ++ (os.filterMap f ++ fs)) []) =
      ((lastOf g os).map enc).or (last k es) := by
  rw [get_assignAll, get_nil, Option.or_none, last_append, last_append, last_eq_none hfs hk,
    Option.none_or, last_filterMap, funext h, lastOf_map]

/-- A key that no item assigns to. -/
theorem get_of_not_item (hf : ∀ o e, f o = some e → e.1 ∈ keys) (hk : k ∉ keys)
    (os : List ο) : get k (assignAll (es ++ (os.filterMap f ++ fs)) []) =
      (last k fs).or (last k es) := by
  have hos : ∀ e ∈ os.filterMap f, e.1 ∈ keys := by
    intro e he
    obtain ⟨o, -, ho⟩ := List.mem_filterMap.mp he
    exact hf o e ho
  rw [get_assignAll, get_nil, Option.or_none, last_append, last_append, last_eq_none hos hk,
    Option.or_none]

end Items

theorem mem_assign {p : κ × α} (h : p ∈ assign k v d) : p = (k, v) ∨ p ∈ d := by
  induction d with
  | nil => exact .inl (List.mem_singleton.mp h)
  | cons q d ih =>
    rw [assign] at h
    split at h
    case isTrue => exact List.mem_cons.mp h
    split at h
    case isTrue =>
      rcases List.mem_cons.mp h with rfl | h
      · exact .inr List.mem_cons_self
      · exact (ih h).imp_right (List.mem_cons_of_mem q)
    case isFalse => exact (List.mem_cons.mp h).imp_right (List.mem_cons_of_mem q)

theorem mem_assignAll {p : κ × α} (h : p ∈ assignAll es d) : p ∈ es ∨ p ∈ d := by
  induction es generalizing d with
  | nil => exact .inr h
  | cons e es ih =>
    rw [assignAll, List.foldl_cons, ← assignAll] at h
    rcases ih h with h | h
    · exact .inl (List.mem_cons_of_mem e h)
    · rcases mem_assign h with rfl | h
      · exact .inl List.mem_cons_self
      · exact .inr h

theorem ascending_nil : Ascending ([] : List (κ × α)) := List.Pairwise.nil

theorem ascending_cons {p : κ × α} :
    Ascending (p :: d) ↔ (∀ q ∈ d, p.1 < q.1) ∧ Ascending d := by
  simp [Ascending]

theorem Ascending.assign (h : Ascending d) (k : κ) (v : α) : Ascending (assign k v d) := by
  induction d with
  | nil => exact ascending_cons.mpr ⟨by simp, ascending_nil⟩
  | cons p d ih =>
    obtain ⟨hp, hd⟩ := ascending_cons.mp h
    rw [SortedMap.assign]
    split
    case isTrue hlt =>
      refine ascending_cons.mpr ⟨fun q hq => ?_, h⟩
      rcases List.mem_cons.mp hq with rfl | hq
      · exact hlt
      · exact hlt.trans (hp q hq)
    split
    case isTrue hlt =>
      refine ascending_cons.mpr ⟨fun q hq => ?_, ih hd⟩
      rcases mem_assign hq with rfl | hq
      · exact hlt
      · exact hp q hq
    case isFalse hge hle =>
      obtain rfl : k = p.1 := le_antisymm (not_lt.mp hle) (not_lt.mp hge)
      exact ascending_cons.mpr ⟨hp, hd⟩

theorem Ascending.assignAll (h : Ascending d) (es : List (κ × α)) :
    Ascending (assignAll es d) := by
  induction es generalizing d with
  | nil => exact h
  | cons e es ih => exact ih (h.assign e.1 e.2)

/-- A key below the first one is not there. -/
theorem get_eq_none_of_lt {p : κ × α} (h : Ascending (p :: d)) (hk : k < p.1) :
    get k (p :: d) = none := by
  rw [get, List.find?_eq_none.mpr, Option.map_none]
  intro q hq
  have hlt : k < q.1 := by
    rcases List.mem_cons.mp hq with rfl | hq
    · exact hk
    · exact hk.trans ((ascending_cons.mp h).1 q hq)
  simpa using hlt.ne'

theorem get_cons_of_lt {p : κ × α} (hk : p.1 < k) : get k (p :: d) = get k d := by
  rw [get_cons, if_neg hk.ne]

end SortedMap
