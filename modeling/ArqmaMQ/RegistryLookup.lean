import ArqmaMQ.Registry
import ArqmaMQ.Transition

/-! A registered command is what its full name stands for, whatever else is
registered before or after it. -/

namespace ArqmaMQ

namespace Registry

variable {r r' r'' : Registry} {c : Call} {category name : Bytes} {cat : Category}
  {entry : CommandCallback}

/-- No alias stands in the way of a command, and every full name is one that
`get_command` takes apart again. -/
structure Unmasked (r : Registry) : Prop where
  names : ∀ name ∈ r.categories,
    name ≠ [] ∧ '.'.toUInt8 ∉ name ∧ name.length ≤ maxCategoryLength
  commands : ∀ category cat name, r.categories.find? category = some cat → name ∈ cat.commands →
    name.length ≤ maxCommandLength ∧ fullname category name ∉ r.commandAliases

theorem findIdx?_fullname (h : '.'.toUInt8 ∉ category) (name : Bytes) :
    (fullname category name).findIdx? (· = '.'.toUInt8) = some category.length := by
  have hnone : category.findIdx? (· = '.'.toUInt8) = none := by
    rw [List.findIdx?_eq_none_iff]
    intro x hx
    have hne : x ≠ '.'.toUInt8 := fun he => h (he ▸ hx)
    simpa using hne
  rw [fullname, List.findIdx?_append, hnone, List.findIdx?_cons, decide_eq_true rfl]
  simp

/-- The test made for an alias finds the command it would hide. -/
theorem masks_fullname (h : '.'.toUInt8 ∉ category)
    (hcat : r.categories.find? category = some cat) (hname : name ∈ cat.commands) :
    r.masks (fullname category name) = true := by
  have htake : (fullname category name).take category.length = category := List.take_left
  have hdrop : (fullname category name).drop (category.length + 1) = name := by simp [fullname]
  simp only [masks, findIdx?_fullname h, Option.any_some, htake, hdrop, hcat, hname,
    decide_true]

theorem split_fullname (hne : category ≠ []) (h : '.'.toUInt8 ∉ category) (name : Bytes) :
    Commands.split (fullname category name) = some (category, name) := by
  have hspan : (fullname category name).span (· ≠ '.'.toUInt8) =
      (category, '.'.toUInt8 :: name) := by
    have hall : ∀ x ∈ category, decide (x ≠ '.'.toUInt8) = true := by
      intro x hx
      have hx' : x ≠ '.'.toUInt8 := fun he => h (he ▸ hx)
      simpa using hx'
    rw [List.span_eq_takeWhile_dropWhile, fullname, List.takeWhile_append_of_pos hall,
      List.dropWhile_append_of_pos hall]
    simp
  obtain ⟨x, xs, rfl⟩ := List.exists_cons_of_ne_nil hne
  rw [Commands.split, hspan]

theorem getCommand_fullname (h : r.Unmasked) (hcat : r.categories.find? category = some cat)
    (hentry : cat.commands.find? name = some entry) :
    ∃ hmem, r.commands.getCommand (fullname category name) =
      (fullname category name, some (⟨category, hmem⟩, entry)) := by
  have hmem : category ∈ r.categories := Table.mem_of_find? hcat
  have hname : name ∈ cat.commands := Table.mem_of_find? hentry
  obtain ⟨hne, hdot, hlen⟩ := h.names category hmem
  obtain ⟨hlen', halias⟩ := h.commands category cat name hcat hname
  have hfull : ¬ (fullname category name).length > 50 + 1 + 200 := by
    rw [maxCategoryLength] at hlen
    rw [maxCommandLength] at hlen'
    simp only [fullname, List.length_append, List.length_cons]
    omega
  have hnone : r.commandAliases.find? (fullname category name) = none :=
    Table.find?_eq_none.mpr halias
  refine ⟨hmem, ?_⟩
  simp [Commands.getCommand, if_neg hfull, commands, hnone, split_fullname hne hdot, hmem, hcat,
    hentry]

theorem Unmasked.outcome (h : r.Unmasked) (ho : Outcome r c r') : r'.Unmasked := by
  cases ho with
  | @category new access reservedThreads maxQueue hlen hname hnew =>
    refine ⟨?_, ?_⟩
    · intro name hmem
      rcases (AList.mem_insert _).mp hmem with rfl | hmem
      · exact ⟨hname.1, hname.2, hlen⟩
      · exact h.names name hmem
    · intro category cat name hcat hmem
      by_cases hc : category = new
      · subst hc
        rw [Table.find?_insert_self] at hcat
        obtain rfl := Option.some.inj hcat
        exact absurd hmem (AList.notMem_empty name)
      · rw [Table.find?_insert_ne hc] at hcat
        exact h.commands category cat name hcat hmem
  | @command _ owner new entry own hc hlen hown halias hnew =>
    have howner : owner ∈ r.categories := Table.mem_of_find? hown
    refine ⟨?_, ?_⟩
    · intro name hmem
      rcases (AList.mem_insert _).mp hmem with rfl | hmem
      · exact h.names name howner
      · exact h.names name hmem
    · intro category cat name hcat hmem
      by_cases hc : category = owner
      · subst hc
        rw [withCommand, Table.find?_insert_self] at hcat
        obtain rfl := Option.some.inj hcat
        rcases (AList.mem_insert _).mp hmem with rfl | hmem
        · exact ⟨hlen, halias⟩
        · exact h.commands category own name hown hmem
      · rw [withCommand, Table.find?_insert_ne hc] at hcat
        exact h.commands category cat name hcat hmem
  | @aliased source target hmask hnew =>
    refine ⟨h.names, ?_⟩
    intro category cat name hcat hmem
    obtain ⟨hlen, halias⟩ := h.commands category cat name hcat hmem
    refine ⟨hlen, ?_⟩
    intro hin
    rcases (AList.mem_insert _).mp hin with he | hin
    · have hmem' : category ∈ r.categories := Table.mem_of_find? hcat
      have hdot := (h.names category hmem').2.1
      have hfound : r.masks (fullname category name) = true := masks_fullname hdot hcat hmem
      rw [he, hmask] at hfound
      cases hfound
    · exact halias hin

/-- Categories keep their settings and their commands. -/
def Extends (r r' : Registry) : Prop :=
  ∀ category cat, r.categories.find? category = some cat →
    ∃ cat', r'.categories.find? category = some cat' ∧ cat'.access = cat.access ∧
      cat'.reservedThreads = cat.reservedThreads ∧ cat'.maxQueue = cat.maxQueue ∧
      ∀ name entry, cat.commands.find? name = some entry →
        cat'.commands.find? name = some entry

theorem Extends.refl (r : Registry) : Extends r r :=
  fun _ cat hcat => ⟨cat, hcat, rfl, rfl, rfl, fun _ _ => id⟩

theorem Extends.trans (h : Extends r r') (h' : Extends r' r'') : Extends r r'' := by
  intro category cat hcat
  obtain ⟨cat', hcat', ha, hr, hm, hkeep⟩ := h category cat hcat
  obtain ⟨cat'', hcat'', ha', hr', hm', hkeep'⟩ := h' category cat' hcat'
  exact ⟨cat'', hcat'', ha'.trans ha, hr'.trans hr, hm'.trans hm,
    fun name entry he => hkeep' name entry (hkeep name entry he)⟩

theorem extends_outcome (ho : Outcome r c r') : Extends r r' := by
  cases ho with
  | @category new access reservedThreads maxQueue hlen hname hnew =>
    intro category cat hcat
    have hne : category ≠ new := by
      rintro rfl
      exact hnew (Table.mem_of_find? hcat)
    exact ⟨cat, (Table.find?_insert_ne hne).trans hcat, rfl, rfl, rfl, fun _ _ => id⟩
  | @command _ owner new entry own hc hlen hown halias hnew =>
    intro category cat hcat
    by_cases hc : category = owner
    · subst hc
      obtain rfl := Option.some.inj (hown.symm.trans hcat)
      refine ⟨_, Table.find?_insert_self _ _ _, rfl, rfl, rfl, ?_⟩
      intro name e he
      have hne : name ≠ new := by
        rintro rfl
        exact hnew (Table.mem_of_find? he)
      exact (Table.find?_insert_ne hne).trans he
    · exact ⟨cat, (Table.find?_insert_ne hc).trans hcat, rfl, rfl, rfl, fun _ _ => id⟩
  | aliased _ _ => exact .refl r

/-- The registry after some calls, whether they return or throw. -/
def after (r : Registry) (calls : List Call) : Registry :=
  calls.foldl (fun r c => Transition.left ((call c).run r)) r

def succeeds (r : Registry) (c : Call) : Bool :=
  match (call c).run r with
  | .ok _ _ => true
  | .error _ _ => false

theorem left_call (c : Call) (r : Registry) :
    Transition.left ((call c).run r) = r ∧ r.succeeds c = false ∨
      Outcome r c (Transition.left ((call c).run r)) ∧ r.succeeds c = true := by
  rcases settles_call c r with ⟨e, he⟩ | ⟨r', hok, ho⟩
  · exact .inl (by rw [succeeds, he]; exact ⟨rfl, rfl⟩)
  · exact .inr (by rw [succeeds, hok]; exact ⟨ho, rfl⟩)

theorem after_invariant {P : Registry → Prop} (hstep : ∀ r c r', P r → Outcome r c r' → P r')
    (calls : List Call) (h : P r) : P (r.after calls) := by
  induction calls generalizing r with
  | nil => exact h
  | cons c calls ih =>
    refine ih (r := Transition.left ((call c).run r)) ?_
    rcases left_call c r with ⟨hsame, -⟩ | ⟨ho, -⟩
    · rwa [hsame]
    · exact hstep _ _ _ h ho

theorem extends_after (r : Registry) (calls : List Call) : Extends r (r.after calls) :=
  after_invariant (P := Extends r) (fun _ _ _ h ho => h.trans (extends_outcome ho)) calls (.refl r)

/-- One of the calls has added the category, with the settings it has. -/
def AddedBy (calls : List Call) (name : Bytes) (cat : Category) : Prop :=
  ∃ pre post, calls = pre ++ .addCategory name cat.access cat.reservedThreads cat.maxQueue :: post ∧
    (after {} pre).succeeds (.addCategory name cat.access cat.reservedThreads cat.maxQueue) = true

theorem AddedBy.append {calls : List Call} (h : AddedBy calls name cat) (more : List Call) :
    AddedBy (calls ++ more) name cat := by
  obtain ⟨pre, post, rfl, hok⟩ := h
  exact ⟨pre, post ++ more, by simp, hok⟩

theorem addedBy_of_find? (calls : List Call) {name : Bytes} {cat : Category}
    (h : (after {} calls).categories.find? name = some cat) : AddedBy calls name cat := by
  induction calls using List.reverseRecOn generalizing name cat with
  | nil => cases h
  | append_singleton calls c ih =>
    rw [after, List.foldl_append, ← after] at h
    change (Transition.left ((call c).run (after {} calls))).categories.find? name = some cat at h
    rcases left_call c (after {} calls) with ⟨hsame, -⟩ | ⟨ho, hok⟩
    · rw [hsame] at h
      exact (ih h).append [c]
    · generalize Transition.left ((call c).run (after {} calls)) = r' at h ho
      cases ho with
      | @category new access reservedThreads maxQueue hlen hname hnew =>
        by_cases hn : name = new
        · subst hn
          rw [Table.find?_insert_self] at h
          obtain rfl := Option.some.inj h
          exact ⟨calls, [], rfl, hok⟩
        · rw [Table.find?_insert_ne hn] at h
          exact (ih h).append _
      | @command _ owner new entry own hc hlen hown halias hnew =>
        by_cases hn : name = owner
        · subst hn
          rw [withCommand, Table.find?_insert_self] at h
          obtain rfl := Option.some.inj h
          exact (ih hown).append [c]
        · rw [withCommand, Table.find?_insert_ne hn] at h
          exact (ih h).append [c]
      | aliased _ _ => exact (ih h).append _

/-- What a call that registers a command leaves behind. -/
theorem registered_of_succeeds (hc : c.command? = some (category, name, entry))
    (hok : r.succeeds c = true) : ∃ own cat, r.categories.find? category = some own ∧
      (Transition.left ((call c).run r)).categories.find? category = some cat ∧
      cat = { own with commands := cat.commands } ∧ cat.commands.find? name = some entry := by
  rcases left_call c r with ⟨-, hfail⟩ | ⟨ho, -⟩
  · rw [hok] at hfail
    cases hfail
  · generalize Transition.left ((call c).run r) = r' at ho
    cases ho with
    | category _ _ _ => cases hc
    | @command _ _ _ _ own hc' _ hown =>
      obtain ⟨rfl, rfl, rfl⟩ : _ = category ∧ _ = name ∧ _ = entry := by simpa [hc'] using hc
      exact ⟨own, _, hown, Table.find?_insert_self _ _ _, rfl, Table.find?_insert_self _ _ _⟩
    | aliased _ _ => cases hc

theorem unmasked_after (calls : List Call) : (after {} calls).Unmasked := by
  refine after_invariant (fun r c r' h ho => h.outcome ho) calls ⟨?_, ?_⟩
  · exact fun name hmem => absurd hmem (AList.notMem_empty name)
  · exact fun category cat name hcat => (by cases hcat)

/-- A registered command answers to its full name from then on, and calls that
throw change nothing. -/
theorem registered_commands_stay {pre : List Call} (post : List Call) {c : Call}
    {category name : Bytes} {entry : CommandCallback}
    (hc : c.command? = some (category, name, entry))
    (hok : (after {} pre).succeeds c = true) :
    (∃ hmem cat, (after {} (pre ++ c :: post)).commands.getCommand (fullname category name) =
        (fullname category name, some (⟨category, hmem⟩, entry)) ∧
      (after {} (pre ++ c :: post)).categories.find? category = some cat ∧
      AddedBy pre category cat) ∧
    ∀ calls c e r', (call c).run (after {} calls) = .error e r' → r' = after {} calls := by
  refine ⟨?_, ?_⟩
  · have hafter : after {} (pre ++ c :: post) =
        (Transition.left ((call c).run (after {} pre))).after post := by
      rw [after, List.foldl_append]
      rfl
    obtain ⟨own, cat, hown, hcat, hsettings, hentry⟩ := registered_of_succeeds hc hok
    -- later calls add to the category, and take nothing away
    obtain ⟨cat', hcat', ha, hr, hm, hkeep⟩ := extends_after _ post category cat hcat
    rw [← hafter] at hcat'
    obtain ⟨hmem, hget⟩ :=
      getCommand_fullname (unmasked_after (pre ++ c :: post)) hcat' (hkeep name entry hentry)
    have hadded := addedBy_of_find? pre hown
    refine ⟨hmem, cat', hget, hcat', ?_⟩
    rw [AddedBy, ha, hr, hm, hsettings]
    exact hadded
  · intro calls c e r' he
    rcases settles_call c (after {} calls) with ⟨e', he'⟩ | ⟨r'', hok, -⟩
    · rw [he'] at he
      cases he
      rfl
    · rw [hok] at he
      cases he

/-- An alias with the name of a command to come, an empty name and names with dots. -/
def sampleCalls : List Call :=
  [.addCommandAlias (bytes "c.x") (bytes "d.y"), .addCommand (bytes "c") (bytes "x") 0,
    .addCategory (bytes "c") {} 1 200, .addCommand (bytes "c") (bytes "x") 1,
    .addCommand (bytes "c") (bytes "a.b") 2]

theorem registered_commands_stay_empty_name :
    ∃ hmem, (after {} (sampleCalls ++ .addRequestCommand (bytes "c") [] 3 ::
      [.addCommandAlias (bytes "c.") (bytes "d.y")])).commands.getCommand (bytes "c.") =
        (bytes "c.", some (⟨bytes "c", hmem⟩, ⟨3, true⟩)) := by
  have hok : (after {} sampleCalls).succeeds (.addRequestCommand (bytes "c") [] 3) = true := by
    decide +kernel
  obtain ⟨⟨hmem, -, hget, -⟩, -⟩ :=
    registered_commands_stay [.addCommandAlias (bytes "c.") (bytes "d.y")] rfl hok
  exact ⟨hmem, hget⟩

end Registry

end ArqmaMQ
