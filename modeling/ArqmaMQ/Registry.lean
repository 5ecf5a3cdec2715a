import ArqmaMQ.Incoming
import Mathlib.Data.List.AList

/-! The categories, commands and aliases that callers register before `start()`. -/

namespace ArqmaMQ

/-- An `unordered_map`: its keys are all different. -/
abbrev Table (α : Type) := AList fun _ : Bytes => α

namespace Table

variable {α : Type} {t : Table α} {k k' : Bytes} {a : α}

def find? (t : Table α) (k : Bytes) : Option α := t.lookup k

/-- `emplace`, which does nothing if the key is there. -/
def emplace (t : Table α) (k : Bytes) (a : α) : Option (Table α) :=
  if k ∈ t then none else some (t.insert k a)

theorem isSome_find? : (t.find? k).isSome = true ↔ k ∈ t := AList.lookup_isSome

theorem mem_of_find? (h : t.find? k = some a) : k ∈ t := isSome_find?.mp (by rw [h]; rfl)

theorem find?_eq_none : t.find? k = none ↔ k ∉ t := AList.lookup_eq_none

theorem find?_insert_self (t : Table α) (k : Bytes) (a : α) : find? (t.insert k a) k = some a :=
  AList.lookup_insert t

theorem find?_insert_ne (h : k ≠ k') : find? (t.insert k' a) k = t.find? k :=
  AList.lookup_insert_ne h

end Table

/-- `category`, without the counters: those belong to the scheduler. -/
structure Category where
  access : Access
  commands : Table CommandCallback := ∅
  reservedThreads : Nat
  maxQueue : Int

structure Registry where
  categories : Table Category := ∅
  commandAliases : Table Bytes := ∅
  /-- `proxy_thread.joinable()` -/
  started : Bool := false

inductive RegistryError
  | logicError (what : Bytes)
  | runtimeError (what : Bytes)
  | outOfRange
  deriving DecidableEq, Repr

abbrev Registration := EStateM RegistryError Registry

namespace Registry

def maxCategoryLength : Nat := 50

def maxCommandLength : Nat := 200

def throwIf (c : Prop) [Decidable c] (e : RegistryError) : Registration Unit :=
  if c then throw e else pure ()

def checkNotStarted (verb : Bytes) : Registration Unit := do
  throwIf ((← get).started = true)
    (.logicError (bytes "Cannot " ++ verb ++ bytes " after calling `start()`"))

/-- A name as the error texts show it. -/
def quote (name : Bytes) : Bytes := bytes "`" ++ name ++ bytes "'"

def fullname (category name : Bytes) : Bytes := category ++ '.'.toUInt8 :: name

def addCategory (name : Bytes) (access : Access) (reservedThreads : Nat) (maxQueue : Int) :
    Registration Unit := do
  checkNotStarted (bytes "add a category")
  throwIf (name.length > maxCategoryLength) (.runtimeError (bytes "Invalid category name " ++
    quote name ++ bytes ": name too long (> " ++ Decimal.numeral maxCategoryLength ++ bytes ")"))
  throwIf (name.isEmpty ∨ '.'.toUInt8 ∈ name)
    (.runtimeError (bytes "Invalid category name " ++ quote name))
  let r ← get
  match r.categories.emplace name { access, reservedThreads, maxQueue } with
  | none => throw (.runtimeError (bytes "Unable to add category " ++ quote name ++
      bytes ": that category already exists"))
  | some categories => set { r with categories }

def addCommand (category name : Bytes) (callback : Nat) : Registration Unit := do
  checkNotStarted (bytes "add a command")
  throwIf (name.length > maxCommandLength) (.runtimeError (bytes "Invalid command name " ++
    quote name ++ bytes ": name too long (> " ++ Decimal.numeral maxCommandLength ++ bytes ")"))
  let r ← get
  match r.categories.find? category with
  | none => throw (.runtimeError (bytes "Cannot add a command to unknown category " ++
      quote category))
  | some cat =>
    throwIf (fullname category name ∈ r.commandAliases) (.runtimeError
      (bytes "Cannot add command " ++ quote (fullname category name) ++
        bytes ": a command alias with that name is already defined"))
    match cat.commands.emplace name ⟨callback, false⟩ with
    | none => throw (.runtimeError (bytes "Cannot add command " ++
        quote (fullname category name) ++ bytes ": that command already exists"))
    | some commands => set { r with
        categories := r.categories.insert category { cat with commands } }

/-- `add_request_command` goes through the tables again to set the flag. -/
def addRequestCommand (category name : Bytes) (callback : Nat) : Registration Unit := do
  addCommand category name callback
  let r ← get
  match r.categories.find? category with
  | none => throw .outOfRange
  | some cat =>
    match cat.commands.find? name with
    | none => throw .outOfRange
    | some entry =>
      let commands := cat.commands.insert name { entry with isRequest := true }
      set { r with categories := r.categories.insert category { cat with commands } }

/-- The command an alias would stand for is there already. -/
def masks (r : Registry) (source : Bytes) : Bool :=
  (source.findIdx? (· = '.'.toUInt8)).any fun fromdot =>
    (r.categories.find? (source.take fromdot)).any fun cat =>
      source.drop (fromdot + 1) ∈ cat.commands

def addCommandAlias (source target : Bytes) : Registration Unit := do
  checkNotStarted (bytes "add a command alias")
  throwIf (source.isEmpty = true) (.runtimeError (bytes "Cannot add an alias for empty command"))
  throwIf (source.findIdx? (· = '.'.toUInt8) = some 0)
    (.runtimeError (bytes "Invalid command alias " ++ quote source))
  let todot := target.findIdx? (· = '.'.toUInt8)
  throwIf (todot = some 0 ∨ todot = none)
    (.runtimeError (bytes "Invalid command alias target " ++ quote target))
  let r ← get
  throwIf (r.masks source = true) (.runtimeError (bytes "Invalid command alias: " ++
    quote source ++ bytes " would mask an existing command"))
  match r.commandAliases.emplace source target with
  | none => throw (.runtimeError (bytes "Cannot add command alias " ++ quote source ++
      bytes ": that alias already exists"))
  | some commandAliases => set { r with commandAliases }

inductive Call
  | addCategory (name : Bytes) (access : Access) (reservedThreads : Nat) (maxQueue : Int)
  | addCommand (category name : Bytes) (callback : Nat)
  | addRequestCommand (category name : Bytes) (callback : Nat)
  | addCommandAlias (source target : Bytes)
  deriving DecidableEq, Repr

def call : Call → Registration Unit
  | .addCategory name access reservedThreads maxQueue =>
    addCategory name access reservedThreads maxQueue
  | .addCommand category name callback => addCommand category name callback
  | .addRequestCommand category name callback => addRequestCommand category name callback
  | .addCommandAlias source target => addCommandAlias source target

/-- The command that a call registers if it succeeds. -/
def Call.command? : Call → Option (Bytes × Bytes × CommandCallback)
  | .addCommand category name callback => some (category, name, ⟨callback, false⟩)
  | .addRequestCommand category name callback => some (category, name, ⟨callback, true⟩)
  | _ => none

/-- The tables as `get_command` uses them, once the proxy runs. A category is one
of the names in the table. -/
def commands (r : Registry) : Commands { name : Bytes // name ∈ r.categories } where
  category name := if h : name ∈ r.categories then some ⟨name, h⟩ else none
  access c := ((r.categories.find? c.1).get (Table.isSome_find?.mpr c.2)).access
  command c cmd := ((r.categories.find? c.1).get (Table.isSome_find?.mpr c.2)).commands.find? cmd
  aliases := r.commandAliases.find?

/-- The registry with a new command in one of its categories. -/
def withCommand (r : Registry) (category : Bytes) (cat : Category) (name : Bytes)
    (entry : CommandCallback) : Registry :=
  let cat := { cat with commands := cat.commands.insert name entry }
  { r with categories := r.categories.insert category cat }

/-- What a call that succeeds has found and done. -/
inductive Outcome (r : Registry) : Call → Registry → Prop
  | category {name access reservedThreads maxQueue} (hlen : name.length ≤ maxCategoryLength)
    (hname : name ≠ [] ∧ '.'.toUInt8 ∉ name) (hnew : name ∉ r.categories) :
    Outcome r (.addCategory name access reservedThreads maxQueue)
      { r with categories := r.categories.insert name { access, reservedThreads, maxQueue } }
  | command {c category name entry cat} (hc : c.command? = some (category, name, entry))
    (hlen : name.length ≤ maxCommandLength) (hcat : r.categories.find? category = some cat)
    (halias : fullname category name ∉ r.commandAliases) (hnew : name ∉ cat.commands) :
    Outcome r c (r.withCommand category cat name entry)
  | aliased {source target} (hmask : r.masks source = false) (hnew : source ∉ r.commandAliases) :
    Outcome r (.addCommandAlias source target)
      { r with commandAliases := r.commandAliases.insert source target }

/-- The call throws and changes nothing, or leaves a state of the given kind. -/
def Settles (m : Registration Unit) (r : Registry) (O : Registry → Prop) : Prop :=
  (∃ e, m.run r = .error e r) ∨ ∃ r', m.run r = .ok () r' ∧ O r'

section Settles

variable {r r' : Registry} {O : Registry → Prop}

theorem settles_throw (e : RegistryError) : Settles (throw e) r O := .inl ⟨e, rfl⟩

theorem settles_set (h : O r') : Settles (set r') r O := .inr ⟨r', rfl, h⟩

theorem run_get_bind (f : Registry → Registration Unit) (r : Registry) :
    (get >>= f).run r = (f r).run r := rfl

theorem settles_get_bind {f : Registry → Registration Unit} (h : Settles (f r) r O) :
    Settles (get >>= f) r O := h

theorem settles_throwIf_bind {c : Prop} [Decidable c] {e : RegistryError}
    {f : Unit → Registration Unit} (h : ¬ c → Settles (f ()) r O) :
    Settles (throwIf c e >>= f) r O := by
  unfold throwIf
  split
  · exact .inl ⟨e, rfl⟩
  · rename_i hc
    exact h hc

theorem settles_checkNotStarted_bind {verb : Bytes} {f : Unit → Registration Unit}
    (h : Settles (f ()) r O) : Settles (checkNotStarted verb >>= f) r O := by
  rw [checkNotStarted, bind_assoc]
  exact settles_get_bind (settles_throwIf_bind fun _ => h)

end Settles

theorem settles_addCategory (name : Bytes) (access : Access) (reservedThreads : Nat)
    (maxQueue : Int) (r : Registry) :
    Settles (addCategory name access reservedThreads maxQueue) r
      (Outcome r (.addCategory name access reservedThreads maxQueue)) := by
  refine settles_checkNotStarted_bind (settles_throwIf_bind fun hlen =>
    settles_throwIf_bind fun hname => settles_get_bind ?_)
  rw [Table.emplace]
  by_cases hmem : name ∈ r.categories
  · rw [if_pos hmem]
    exact settles_throw _
  · rw [if_neg hmem]
    exact settles_set (.category (not_lt.mp hlen) (by simpa [not_or] using hname) hmem)

/-- The command is a new one of its category, and no alias has its name. -/
structure Added (r : Registry) (category name : Bytes) (entry : CommandCallback) (cat : Category)
    (r' : Registry) : Prop where
  eq : r' = r.withCommand category cat name entry
  length : name.length ≤ maxCommandLength
  found : r.categories.find? category = some cat
  unaliased : fullname category name ∉ r.commandAliases
  new : name ∉ cat.commands

theorem settles_addCommand (category name : Bytes) (callback : Nat) (r : Registry) :
    Settles (addCommand category name callback) r
      fun r' => ∃ cat, Added r category name ⟨callback, false⟩ cat r' := by
  refine settles_checkNotStarted_bind (settles_throwIf_bind fun hlen => settles_get_bind ?_)
  cases hcat : r.categories.find? category with
  | none => exact settles_throw _
  | some cat =>
    refine settles_throwIf_bind fun halias => ?_
    rw [Table.emplace]
    by_cases hmem : name ∈ cat.commands
    · rw [if_pos hmem]
      exact settles_throw _
    · rw [if_neg hmem]
      exact settles_set ⟨cat, rfl, not_lt.mp hlen, hcat, halias, hmem⟩

/-- The entry just made is found again, so setting the flag cannot fail. -/
theorem settles_addRequestCommand (category name : Bytes) (callback : Nat) (r : Registry) :
    Settles (addRequestCommand category name callback) r
      fun r' => ∃ cat, Added r category name ⟨callback, true⟩ cat r' := by
  rw [Settles, addRequestCommand, EStateM.run_bind]
  rcases settles_addCommand category name callback r with ⟨e, he⟩ | ⟨r', hok, cat, hadded⟩
  · rw [he]
    exact .inl ⟨e, rfl⟩
  · rw [hok, hadded.eq]
    refine .inr ⟨r.withCommand category cat name ⟨callback, true⟩, ?_, cat, rfl, hadded.length,
      hadded.found, hadded.unaliased, hadded.new⟩
    dsimp only
    rw [run_get_bind]
    simp only [withCommand, Table.find?_insert_self, AList.insert_insert]
    rfl

theorem settles_addCommandAlias (source target : Bytes) (r : Registry) :
    Settles (addCommandAlias source target) r (Outcome r (.addCommandAlias source target)) := by
  refine settles_checkNotStarted_bind (settles_throwIf_bind fun _ => settles_throwIf_bind fun _ =>
    settles_throwIf_bind fun _ => settles_get_bind (settles_throwIf_bind fun hmask => ?_))
  rw [Table.emplace]
  by_cases hmem : source ∈ r.commandAliases
  · rw [if_pos hmem]
    exact settles_throw _
  · rw [if_neg hmem]
    exact settles_set (.aliased (by simpa using hmask) hmem)

theorem Added.outcome {r r' : Registry} {c : Call} {category name : Bytes}
    {entry : CommandCallback} {cat : Category} (h : Added r category name entry cat r')
    (hc : c.command? = some (category, name, entry)) : Outcome r c r' := by
  rw [h.eq]
  exact .command hc h.length h.found h.unaliased h.new

/-- A call throws and changes nothing, or does what it is there for. -/
theorem settles_call (c : Call) (r : Registry) : Settles (call c) r (Outcome r c) := by
  cases c with
  | addCategory name access reservedThreads maxQueue =>
    exact settles_addCategory name access reservedThreads maxQueue r
  | addCommand category name callback =>
    refine (settles_addCommand category name callback r).imp id ?_
    rintro ⟨r', hok, cat, hadded⟩
    exact ⟨r', hok, hadded.outcome rfl⟩
  | addRequestCommand category name callback =>
    refine (settles_addRequestCommand category name callback r).imp id ?_
    rintro ⟨r', hok, cat, hadded⟩
    exact ⟨r', hok, hadded.outcome rfl⟩
  | addCommandAlias source target => exact settles_addCommandAlias source target r

end Registry

end ArqmaMQ
