import Mdao.Proofs.Store

/-!
# Calls that build and write a store

A store is built and written by calls, each of which may fail (`Store.Call`). The program edits the
store in place: a variable is registered before its entries are appended to the buffers, a value is
written to the inputs before the slots, and a flat vector is written variable by variable, so that a
call that failed halfway would leave its traces. `Store.perform` edits in this order.

**No call fails halfway** (`Store.perform_eq`): it makes of the store what the function of the store
makes of it, or it fails and has written nothing. `Store.run` is the store that calls leave behind,
those that failed included. What a call that succeeds does to the variables and to the lengths of the
buffers is said once (`Store.attempt_cases`), for all that is to be proved of every store.
-/

namespace Mdao

/-- A step that edits a store and may fail. -/
abbrev Editing (α β : Type) : Type := EStateM StructureError (Store α) β

namespace Editing

variable {α : Type} [Scalar α]

/-! ### Editing in place -/

/-- What is read off the store, or an error. -/
def ask {β : Type} (question : Store α → Except StructureError β) : Editing α β := do
  match question (← get) with
  | .ok b => return b
  | .error e => throw e

/-- Appends an entry under a new name. -/
def register (e : Store.Entry α) : Editing α Unit := do
  match (← get).find? e.name with
  | some _ => throw (.duplicateVariable e.name)
  | none => modify fun s => { s with entries := s.entries.push e }

/-- Appends to the slots, and zeros to the residuals. -/
def extendSlots (x : Array α) : Editing α Unit := do
  modify fun s => { s with slots := s.slots ++ x }
  modify fun s => { s with residuals := Store.padTo s.residuals s.slots.size }

/-- Registers an output, then allocates slots. -/
def addOutput (name : String) (v : Variable α) : Editing α Unit := do
  let start := (← get).slots.size
  register ⟨name, .output, v, none, some ⟨start, start + v.size⟩⟩
  extendSlots v.value

/-- Registers an input, then allocates its place. -/
def addInput (name : String) (v : Variable α) : Editing α Unit := do
  let start := (← get).inputs.size
  register ⟨name, .input, v, some ⟨start, start + v.size⟩, none⟩
  modify fun s => { s with inputs := s.inputs ++ v.value }

/-- Allocates slots for an input that has none, then notes them. -/
def makeIndependent (i : Nat) : Editing α Unit := do
  match (← get).slots? i with
  | some _ => return
  | none =>
    let start := (← get).slots.size
    let source := ((← get).inputs? i).getD ⟨0, 0⟩
    extendSlots (Vec.slice (← get).inputs source)
    modify fun s => { s with
      entries := s.entries.modify i (Store.Entry.placedAt ⟨start, start + source.size⟩) }

/-- Writes among the inputs. -/
def writeInputs (value : Array α) : Option Span → Editing α Unit
  | some r => modify fun s => { s with inputs := Vec.splice s.inputs r value }
  | none => return

/-- Writes among the slots. -/
def writeSlots (value : Array α) : Option Span → Editing α Unit
  | some r => modify fun s => { s with slots := Vec.splice s.slots r value }
  | none => return

/-- Writes the value of a variable, to the inputs first. -/
def setById (i : Nat) (value : Array α) : Editing α Unit := do
  let expected := (← get).sizeOf i
  if value.size ≠ expected then
    throw (.shapeMismatch ((← get).nameOf i) expected value.size)
  else
    writeInputs value ((← get).inputs? i)
    writeSlots value ((← get).slots? i)

/-- Writes the pieces of a flat vector, variable by variable. -/
def scatterVector (flat : Array α) (offset : Nat) : List Nat → Editing α Unit
  | [] => return
  | i :: rest => do
    let n := (← get).sizeOf i
    setById i (Vec.slice flat ⟨offset, offset + n⟩)
    scatterVector flat (offset + n) rest

/-- Writes a flat vector if it has the length of the variables. -/
def ofVector (ids : List Nat) (flat : Array α) : Editing α Unit := do
  let s ← get
  let expected := ids.foldr (fun i n => s.sizeOf i + n) 0
  if flat.size ≠ expected then
    throw (.shapeMismatch (", ".intercalate (ids.map s.nameOf)) expected flat.size)
  else scatterVector flat 0 ids

/-! ### No edit fails halfway -/

/-- The outcome of an edit that has written nothing where it fails. -/
def settle (s : Store α) : Except StructureError (Store α) →
    EStateM.Result StructureError (Store α) Unit
  | .ok s' => .ok () s'
  | .error e => .error e s

variable {s s' : Store α} {i : Nat} {flat : Array α} {offset : Nat} {ids : List Nat}

omit [Scalar α] in
theorem get_bind {β : Type} (next : Store α → Editing α β) (s : Store α) :
    (get >>= next) s = next s s := rfl

omit [Scalar α] in
/-- An edit goes on with what has been read, and fails where this fails. -/
theorem ask_bind {β : Type} (question : Store α → Except StructureError β)
    (next : β → Editing α Unit) (s : Store α) {f : β → Except StructureError (Store α)}
    (h : ∀ b, next b s = settle s (f b)) :
    (ask question >>= next) s = settle s (question s >>= f) := by
  cases hq : question s with
  | ok b =>
    have hask : ask question s = .ok b s := by
      unfold ask
      rw [get_bind, hq]
      rfl
    rw [bind_of_ok _ hask]
    exact h b
  | error e =>
    have hask : ask question s = .error e s := by
      unfold ask
      rw [get_bind, hq]
      rfl
    rw [bind_of_error _ hask]
    rfl

omit [Scalar α] in
/-- A registration writes the entry, and what follows it cannot fail. -/
theorem register_bind (e : Store.Entry α) (s : Store α) {next : Unit → Editing α Unit}
    (fill : Store α → Store α) (h : ∀ s, next () s = .ok () (fill s)) :
    (register e >>= next) s = settle s ((s.register e).map fun p => fill p.1) := by
  have hregister : register e s = settle s ((s.register e).map Prod.fst) := by
    unfold register Store.register
    rw [get_bind]
    cases s.find? e.name <;> rfl
  cases hr : s.register e with
  | error e =>
    rw [hr] at hregister
    exact bind_of_error _ hregister
  | ok p =>
    rw [hr] at hregister
    exact (bind_of_ok _ hregister).trans (h p.1)

/-- The store with more slots. -/
def extended (x : Array α) (s : Store α) : Store α :=
  { s with slots := s.slots ++ x, residuals := Store.padTo s.residuals (s.slots ++ x).size }

theorem addOutput_eq (s : Store α) (name : String) (v : Variable α) :
    addOutput name v s = settle s ((s.addOutput name v).map Prod.fst) := by
  unfold addOutput Store.addOutput
  rw [get_bind]
  refine (register_bind _ s (extended v.value) fun _ => rfl).trans ?_
  dsimp only
  cases s.register ⟨name, .output, v, none, some ⟨s.slots.size, s.slots.size + v.size⟩⟩ <;> rfl

omit [Scalar α] in
theorem addInput_eq (s : Store α) (name : String) (v : Variable α) :
    addInput name v s = settle s ((s.addInput name v).map Prod.fst) := by
  unfold addInput Store.addInput
  rw [get_bind]
  refine (register_bind _ s (fun s => { s with inputs := s.inputs ++ v.value }) fun _ => rfl).trans ?_
  dsimp only
  cases s.register ⟨name, .input, v, some ⟨s.inputs.size, s.inputs.size + v.size⟩, none⟩ <;> rfl

theorem makeIndependent_eq (s : Store α) (i : Nat) :
    makeIndependent i s = .ok () (s.makeIndependent i).1 := by
  unfold makeIndependent Store.makeIndependent
  rw [get_bind]
  cases s.slots? i <;> rfl

theorem writeInputs_eq (value : Array α) (r : Option Span) (s : Store α) :
    writeInputs value r s = .ok () { s with
      inputs := match r with | some r => Vec.splice s.inputs r value | none => s.inputs } := by
  cases r <;> rfl

theorem writeSlots_eq (value : Array α) (r : Option Span) (s : Store α) :
    writeSlots value r s = .ok () { s with
      slots := match r with | some r => Vec.splice s.slots r value | none => s.slots } := by
  cases r <;> rfl

/-- Writing a value checks its length before it writes. -/
theorem setById_eq (s : Store α) (i : Nat) (value : Array α) :
    setById i value s = settle s (s.setById i value) := by
  unfold setById Store.setById
  rw [get_bind]
  dsimp only
  split_ifs
  · rfl
  · exact (bind_of_ok _ (writeInputs_eq value _ s)).trans (writeSlots_eq value _ _)

/-- **The pieces of a vector have the lengths of the variables**, so none of the writes fails. -/
theorem exists_scatterVector (s : Store α) (flat : Array α) (offset : Nat) (ids : List Nat) :
    ∃ s', s.scatterVector flat offset ids = .ok s' := by
  induction ids generalizing s offset with
  | nil => exact ⟨s, rfl⟩
  | cons i rest ih =>
    obtain ⟨s', hs'⟩ : ∃ s', s.setById i (Vec.slice flat ⟨offset, offset + s.sizeOf i⟩) = .ok s' := by
      unfold Store.setById
      rw [if_neg (by simp [Span.size])]
      exact ⟨_, rfl⟩
    rw [Store.scatterVector]
    simp only [hs']
    exact ih s' _

theorem scatterVector_eq (s : Store α) (flat : Array α) (offset : Nat) (ids : List Nat) :
    scatterVector flat offset ids s = settle s (s.scatterVector flat offset ids) := by
  obtain ⟨t, ht⟩ := exists_scatterVector s flat offset ids
  rw [ht]
  induction ids generalizing s offset with
  | nil =>
    cases ht
    rfl
  | cons i rest ih =>
    rw [Store.scatterVector] at ht
    rw [scatterVector, get_bind]
    have hset := setById_eq s i (Vec.slice flat ⟨offset, offset + s.sizeOf i⟩)
    cases hs : s.setById i (Vec.slice flat ⟨offset, offset + s.sizeOf i⟩) with
    | error e =>
      simp only [hs] at ht
      cases ht
    | ok s' =>
      simp only [hs] at ht
      rw [hs] at hset
      exact (bind_of_ok _ hset).trans (ih s' _ ht)

theorem ofVector_eq (s : Store α) (ids : List Nat) (flat : Array α) :
    ofVector ids flat s = settle s (s.ofVector ids flat) := by
  unfold ofVector Store.ofVector
  rw [get_bind]
  dsimp only
  split_ifs
  · rfl
  · exact scatterVector_eq s flat 0 ids

end Editing

namespace Store

/-- A call that builds or writes a store. -/
inductive Call (α : Type) where
  | addOutput (name : String) (v : Variable α)
  | addInput (name : String) (v : Variable α)
  | makeIndependent (i : Nat)
  | set (name : String) (value : Array α)
  | setInUnits (name : String) (value : Array α) (units : String)
  | ofVector (ids : List Nat) (flat : Array α)
  | syncIndependents

variable {α : Type} [Scalar α]

/-- The store that a call makes of a store. -/
def attempt (s : Store α) : Call α → Except StructureError (Store α)
  | .addOutput name v => (s.addOutput name v).map Prod.fst
  | .addInput name v => (s.addInput name v).map Prod.fst
  | .makeIndependent i => .ok (s.makeIndependent i).1
  | .set name value => s.set name value
  | .setInUnits name value units => s.setInUnits name value units
  | .ofVector ids flat => s.ofVector ids flat
  | .syncIndependents => .ok s.syncIndependents

open Editing in
/-- Carries a call out in place. -/
def perform : Call α → Editing α Unit
  | .addOutput name v => Editing.addOutput name v
  | .addInput name v => Editing.addInput name v
  | .makeIndependent i => Editing.makeIndependent i
  | .set name value => do Editing.setById (← ask (·.id name)) value
  | .setInUnits name value units => do
    let i ← ask (·.id name)
    let declared ← ask (·.declaredUnits i units)
    let c ← ask fun _ => converter units declared
    Editing.setById i (value.map c.apply)
  | .ofVector ids flat => Editing.ofVector ids flat
  | .syncIndependents => modify Store.syncIndependents

/-- **No call fails halfway**: it makes of the store what `attempt` says, or leaves it as it was. -/
theorem perform_eq (s : Store α) (call : Call α) :
    perform call s = Editing.settle s (s.attempt call) := by
  cases call with
  | addOutput name v => exact Editing.addOutput_eq s name v
  | addInput name v => exact Editing.addInput_eq s name v
  | makeIndependent i => exact Editing.makeIndependent_eq s i
  | set name value =>
    refine (Editing.ask_bind _ _ s fun i => Editing.setById_eq s i value).trans ?_
    rw [attempt, set]
    cases s.id name <;> rfl
  | setInUnits name value units =>
    exact Editing.ask_bind _ _ s fun i => Editing.ask_bind _ _ s fun declared =>
      Editing.ask_bind _ _ s fun c => Editing.setById_eq s i _
  | ofVector ids flat => exact Editing.ofVector_eq s ids flat
  | syncIndependents => rfl

/-- The store that calls leave behind; calls go on after one that failed. -/
def run (calls : List (Call α)) : Store α :=
  calls.foldl (fun s call => stateAfter (perform call s)) empty

theorem run_append (calls : List (Call α)) (call : Call α) :
    run (calls ++ [call]) = stateAfter (perform call (run calls)) := by
  rw [run, List.foldl_append]
  rfl

/-! ### What a call does -/

variable {s s' : Store α}

/-- The store in which an output has been registered. -/
def withOutput (s : Store α) (name : String) (v : Variable α) : Store α :=
  Editing.extended v.value { s with entries := s.entries.push (s.outputEntry name v) }

omit [Scalar α] in
/-- The store in which an input has been registered. -/
def withInput (s : Store α) (name : String) (v : Variable α) : Store α :=
  { s with entries := s.entries.push (s.inputEntry name v), inputs := s.inputs ++ v.value }

/-- A value has been written. -/
def Writes (s s' : Store α) : Prop := ∃ i value, s.setById i value = .ok s'

/-- **What a call that succeeds can do.** -/
inductive Step (s : Store α) : Store α → Prop
  /-- An output of a new name is registered, -/
  | output (name : String) (v : Variable α) (fresh : name ∉ s.names) : Step s (s.withOutput name v)
  /-- an input of a new name is registered, -/
  | input (name : String) (v : Variable α) (fresh : name ∉ s.names) : Step s (s.withInput name v)
  /-- an input gets slots, -/
  | slots (i : Nat) (e : Entry α) (source : Span) (entry : s.entries[i]? = some e)
      (free : e.slots? = none) (place : e.inputs? = some source) : Step s (s.withSlots i source)
  /-- values are written, one after the other, -/
  | values (s' : Store α) (writes : Relation.ReflTransGen Writes s s') : Step s s'
  /-- or the inputs are read off the slots. -/
  | sync : Step s s.syncIndependents

theorem map_fst_eq_ok {β γ ε : Type} {x : Except ε (β × γ)} {b : β} :
    x.map Prod.fst = .ok b ↔ ∃ c, x = .ok (b, c) := by
  cases x <;> simp [Except.map, Prod.ext_iff]

omit [Scalar α] in
theorem register_eq_ok {e : Entry α} {p : Store α × Nat} (h : s.register e = .ok p) :
    e.name ∉ s.names ∧ p.1 = { s with entries := s.entries.push e } := by
  unfold register at h
  split at h
  · cases h
  · next hnone =>
    cases h
    refine ⟨fun hmem => ?_, rfl⟩
    obtain ⟨e', he', hname⟩ := List.mem_map.1 hmem
    have hne := Array.findIdx?_eq_none_iff.1 hnone e' (by simpa using he')
    simp [hname] at hne

theorem addOutput_eq_ok {name : String} {v : Variable α} {p : Store α × Nat}
    (h : s.addOutput name v = .ok p) : name ∉ s.names ∧ p.1 = s.withOutput name v := by
  unfold addOutput at h
  dsimp only at h
  split at h
  · cases h
  · next hregister =>
    obtain ⟨hfresh, heq⟩ := register_eq_ok hregister
    cases h
    dsimp only at heq
    subst heq
    exact ⟨hfresh, rfl⟩

omit [Scalar α] in
theorem addInput_eq_ok {name : String} {v : Variable α} {p : Store α × Nat}
    (h : s.addInput name v = .ok p) : name ∉ s.names ∧ p.1 = s.withInput name v := by
  unfold addInput at h
  dsimp only at h
  split at h
  · cases h
  · next hregister =>
    obtain ⟨hfresh, heq⟩ := register_eq_ok hregister
    cases h
    dsimp only at heq
    subst heq
    exact ⟨hfresh, rfl⟩

/-- A value is written by the id of its variable. -/
theorem set_eq_ok {name : String} {value : Array α} :
    s.set name value = .ok s' ↔ ∃ i, s.id name = .ok i ∧ s.setById i value = .ok s' := by
  unfold set
  cases s.id name <;> simp

/-- A flat vector is written if it is as long as its variables together. -/
theorem ofVector_eq_ok {ids : List Nat} {flat : Array α} :
    s.ofVector ids flat = .ok s' ↔ flat.size = (ids.map s.sizeOf).sum ∧
      s.scatterVector flat 0 ids = .ok s' := by
  have hsum : (ids.map s.sizeOf).sum = ids.foldr (fun i n => s.sizeOf i + n) 0 := by
    rw [List.sum, List.foldr_map]
  rw [hsum]
  unfold ofVector
  dsimp only
  split_ifs with h
  · simp [h]
  · exact ⟨fun hs => ⟨not_not.1 h, hs⟩, And.right⟩

/-- Scattering a vector writes one variable after the other. -/
theorem writes_scatterVector {flat : Array α} {offset : Nat} {ids : List Nat}
    (h : s.scatterVector flat offset ids = .ok s') : Relation.ReflTransGen Writes s s' := by
  induction ids generalizing s offset with
  | nil =>
    cases h
    exact .refl
  | cons i rest ih =>
    rw [scatterVector] at h
    cases hs : s.setById i (Vec.slice flat ⟨offset, offset + s.sizeOf i⟩) with
    | error e =>
      simp only [hs] at h
      cases h
    | ok t =>
      simp only [hs] at h
      exact .head ⟨i, _, hs⟩ (ih h)

end Store

end Mdao
