import Mdao.Proofs.Model.Aged
import Mdao.Proofs.Model.Linearized
import Mdao.Proofs.Nonlinear.Respects

/-!
# Blocks that cannot tell how they were used

Two states of a model with the same slots may differ in everything else: in inputs and residuals that
are out of date, in derivatives, and in the Jacobians that blocks remember. When residuals are
overwritten and derivatives are written afresh, no step on the units tells the two apart
(`Assembly.Indistinct`): what it reads has been written by the step itself or by one before. So the
system that a block presents to its solvers respects this relation (`SolverBlock.respects`).
-/

namespace Mdao

open Vec

variable {α : Type} [Scalar α]

/-! ### Units -/

namespace Component

variable {c c' : Component α}

theorem Alike.solve (h : c.Alike c') (x y : Array α) : c'.solve x y = c.solve x y := by
  rw [h.eq_with]
  rfl

theorem Alike.guess (h : c.Alike c') (x y r : Array α) : c'.guess x y r = c.guess x y r := by
  rw [h.eq_with]
  rfl

end Component

namespace Assembly

variable {l : Arrangement α} {us vs : List Nat} {a₀ a b : Assembly α} {u : Nat}

/-- Units with places of their own, that overwrite residuals and write derivatives afresh. -/
structure Regular (l : Arrangement α) (us : List Nat) (a₀ : Assembly α) : Prop where
  hosts : ∀ (u : Nat) (c : Component α), a₀.units[u]? = some c → a₀.Hosts (l.unit u) c
  writesResiduals : ∀ c ∈ a₀.units, c.WritesResiduals
  linearizesAfresh : ∀ c ∈ a₀.units, c.LinearizesAfresh
  lt : ∀ u ∈ us, u < a₀.units.size
  apart : ∀ u ∈ us, ∀ w ∈ us, w ≠ u → Apart l w u

/-- Two states that come from the same one by use, with the same slots. -/
structure Indistinct (l : Arrangement α) (us : List Nat) (a₀ a b : Assembly α) : Prop where
  left : a₀.Aged l us a
  right : a₀.Aged l us b
  slots : b.store.slots = a.store.slots

/-- Places do not depend on derivatives. -/
theorem Hosts.alike {p : Placement α} {c c' : Component α} (h : a.Hosts p c) (hc : c.Alike c') :
    a.Hosts p c' := by
  refine ⟨⟨?_, ?_⟩, ?_, h.inputs_le, h.outputs_le, h.residuals_le⟩
  · rw [hc.outputs]
    exact h.fits.size_outputs
  · rw [hc.inputs]
    exact h.fits.size_routes
  · rw [hc.inputs]
    exact h.inputs

/-- A unit of a state that comes from another by use. -/
structure AgedUnit (l : Arrangement α) (u : Nat) (a : Assembly α) (c₀ c : Component α) : Prop where
  unit : a.units[u]? = some c
  aged : c₀.Aged c
  hosts : a.Hosts (l.unit u) c

theorem Aged.exists_unit (h : a₀.Aged l us a) {c₀ : Component α} (hc₀ : a₀.units[u]? = some c₀)
    (hhosts : a₀.Hosts (l.unit u) c₀) : ∃ c, AgedUnit l u a c₀ c := by
  have hlt : u < a.units.size := h.follows.units.size ▸ (Array.getElem?_eq_some_iff.1 hc₀).1
  have hc := Array.getElem?_eq_getElem hlt
  have haged := h.units u _ _ hc₀ hc
  exact ⟨_, hc, haged, (hhosts.follows h.follows).alike haged.alike⟩

/-- Solving a unit, at what it receives and from its slots. -/
theorem solve_eq_received {c : Component α} (hc : a.units[u]? = some c) (h : a.Hosts (l.unit u) c) :
    solve l u a =
      match c.solve (received l u a.store.slots) (a.outputsOf (l.unit u)) with
      | .ok _ y => .ok () ((a.transfer (l.unit u)).withOutputs (l.unit u) y)
      | .error e y => .error e ((a.transfer (l.unit u)).withOutputs (l.unit u) y) := by
  refine (onUnit_eq hc).trans ?_
  rw [inputsOf_transfer h]
  rfl

variable (hr : Regular l us a₀)

include hr

/-- A unit of two states. -/
theorem Indistinct.exists_units (h : Indistinct l us a₀ a b) (hu : u ∈ us) :
    ∃ c₀ c c', a₀.units[u]? = some c₀ ∧ c₀.WritesResiduals ∧ c₀.LinearizesAfresh ∧
      a₀.Hosts (l.unit u) c₀ ∧ AgedUnit l u a c₀ c ∧ AgedUnit l u b c₀ c' := by
  have hlt := hr.lt u hu
  have hc₀ := Array.getElem?_eq_getElem hlt
  have hhosts := hr.hosts u _ hc₀
  obtain ⟨c, hc⟩ := h.left.exists_unit hc₀ hhosts
  obtain ⟨c', hc'⟩ := h.right.exists_unit hc₀ hhosts
  exact ⟨_, c, c', hc₀, hr.writesResiduals _ (Array.getElem_mem hlt),
    hr.linearizesAfresh _ (Array.getElem_mem hlt), hhosts, hc, hc'⟩

/-- Steps on units that have the same outcome, and write the same slots, do not tell states apart. -/
theorem Indistinct.of_slots {spans : List Span} {step : EStateM EvalError (Assembly α) Unit}
    (h : Indistinct l us a₀ a b) (hchanged : Preserves (Changed l vs spans) step)
    (hvs : ∀ u ∈ vs, u ∈ us)
    (hstep : Agree (fun s t => t.store.slots = s.store.slots)
      (fun s t => t.store.slots = s.store.slots) (step a) (step b)) :
    Agree (Indistinct l us a₀) (Indistinct l us a₀) (step a) (step b) :=
  (hstep.and (P := a₀.Aged l us) (h.left.changed (hchanged a) hr.hosts hvs)
    (h.right.changed (hchanged b) hr.hosts hvs)).mono (fun _ _ h => ⟨h.2.1, h.2.2, h.1⟩)
      fun _ _ h => ⟨h.2.1, h.2.2, h.1⟩

/-! ### Steps on one unit -/

theorem evaluate_agrees (hu : u ∈ us) (h : Indistinct l us a₀ a b) :
    Agree (Indistinct l us a₀) (Indistinct l us a₀) (evaluate l u a) (evaluate l u b) := by
  obtain ⟨c₀, c, c', hc₀, hwrites, -, hhosts, hc, hc'⟩ := h.exists_units hr hu
  have hchanged : Preserves (Changed l us []) (evaluate l u) := changed_evaluate hu
  refine h.of_slots hr hchanged (fun _ => id) ?_
  rw [evaluate_eq hc.unit hc.hosts, evaluate_eq hc'.unit hc'.hosts, hc.aged.alike.residuals,
    hc'.aged.alike.residuals, outputsOf, outputsOf, h.slots]
  have hsame := Agree.of_outcome_eq (hwrites (received l u a.store.slots)
    (slice a.store.slots (l.unit u).outputs) (a.residualsOf (l.unit u)) (b.residualsOf (l.unit u))
    (hhosts.size_received _) (by rw [size_slice, hhosts.fits.size_outputs])
    (by rw [residualsOf, size_slice, hhosts.fits.size_outputs])
    (by rw [residualsOf, size_slice, hhosts.fits.size_outputs]))
  revert hsame
  generalize c₀.residuals (received l u a.store.slots) (slice a.store.slots (l.unit u).outputs)
    (a.residualsOf (l.unit u)) = r
  generalize c₀.residuals (received l u a.store.slots) (slice a.store.slots (l.unit u).outputs)
    (b.residualsOf (l.unit u)) = r'
  rintro (⟨_, -⟩ | ⟨e, -⟩)
  · exact .ok () h.slots
  · exact .error e h.slots

theorem linearize_agrees (strict : Option α) (hu : u ∈ us) (h : Indistinct l us a₀ a b) :
    Agree (Indistinct l us a₀) (Indistinct l us a₀) (linearize l strict u a)
      (linearize l strict u b) := by
  obtain ⟨c₀, c, c', hc₀, -, hafresh, hhosts, hc, hc'⟩ := h.exists_units hr hu
  have hchanged : Preserves (Changed l us []) (linearize l strict u) := changed_linearize strict hu
  refine h.of_slots hr hchanged (fun _ => id) ?_
  rw [linearize_eq hc.unit hc.hosts, linearize_eq hc'.unit hc'.hosts, outputsOf, outputsOf, h.slots]
  have hsame := hafresh.agrees hc.aged hc'.aged (hhosts.size_received a.store.slots)
    (y := slice a.store.slots (l.unit u).outputs)
    (by rw [size_slice, hhosts.fits.size_outputs]) strict
  revert hsame
  generalize c.linearize (received l u a.store.slots) (slice a.store.slots (l.unit u).outputs)
    strict = r
  generalize c'.linearize (received l u a.store.slots) (slice a.store.slots (l.unit u).outputs)
    strict = r'
  rintro (⟨_, -⟩ | ⟨e, -⟩)
  · exact .ok () h.slots
  · exact .error e h.slots

theorem solve_agrees (hu : u ∈ us) (h : Indistinct l us a₀ a b) :
    Agree (Indistinct l us a₀) (Indistinct l us a₀) (solve l u a) (solve l u b) := by
  obtain ⟨c₀, c, c', hc₀, -, -, hhosts, hc, hc'⟩ := h.exists_units hr hu
  have hchanged : Preserves (Changed l us (us.map fun w => (l.unit w).outputs)) (solve l u) :=
    changed_solve (fun w hw => List.mem_map.2 ⟨w, hw, rfl⟩) hu
  refine h.of_slots hr hchanged (fun _ => id) ?_
  rw [solve_eq_received hc.unit hc.hosts, solve_eq_received hc'.unit hc'.hosts, hc.aged.alike.solve,
    hc'.aged.alike.solve, outputsOf, outputsOf, h.slots]
  have hslots : ∀ y, ((b.transfer (l.unit u)).withOutputs (l.unit u) y).store.slots =
      ((a.transfer (l.unit u)).withOutputs (l.unit u) y).store.slots := fun y =>
    congrArg (fun x => splice x _ y) h.slots
  cases c₀.solve (received l u a.store.slots) (slice a.store.slots (l.unit u).outputs) with
  | ok _ y => exact .ok () (hslots y)
  | error e y => exact .error e (hslots y)

/-! ### Steps on many units -/

theorem evaluateAll_agrees (hvs : ∀ u ∈ vs, u ∈ us) (hnodup : vs.Nodup)
    (h : Indistinct l us a₀ a b) :
    Agree (fun s t => Indistinct l us a₀ s t ∧ ∀ u ∈ vs,
        t.inputsOf (l.unit u) = s.inputsOf (l.unit u) ∧
        t.residualsOf (l.unit u) = s.residualsOf (l.unit u))
      (Indistinct l us a₀) (evaluateAll l vs a) (evaluateAll l vs b) := by
  have hall : Agree (Indistinct l us a₀) (Indistinct l us a₀) (evaluateAll l vs a)
      (evaluateAll l vs b) := by
    unfold evaluateAll
    refine .forEach (fun u hu s t h => ?_) h
    exact evaluate_agrees hr (hvs u hu) h
  refine hall.of_ok fun _ s t hs ht hst => ⟨hst, ?_⟩
  have hpairwise : vs.Pairwise (Apart l) := hnodup.imp_of_mem fun hu hw hne =>
    hr.apart _ (hvs _ hw) _ (hvs _ hu) hne
  have hspec : ∀ {a s : Assembly α}, a₀.Aged l us a → evaluateAll l vs a = .ok () s →
      Evaluated l vs a s := by
    intro a s ha hs
    refine evaluateAll_spec (fun u hu => ?_) hpairwise hs
    have hlt := hr.lt u (hvs u hu)
    obtain ⟨c, hc⟩ := ha.exists_unit (Array.getElem?_eq_getElem hlt)
      (hr.hosts u _ (Array.getElem?_eq_getElem hlt))
    exact ⟨c, hc.unit, hc.hosts⟩
  have hs := hspec h.left hs
  have ht := hspec h.right ht
  intro u hu
  obtain ⟨c₀, c, c', -, hwrites, -, hhosts, hc, hc'⟩ := h.exists_units hr (hvs u hu)
  refine ⟨?_, ?_⟩
  · rw [hs.inputs u hu (Array.getElem?_eq_some_iff.1 hc.unit).1,
      ht.inputs u hu (Array.getElem?_eq_some_iff.1 hc'.unit).1, h.slots]
  · obtain ⟨r, hr, heval⟩ := hs.residuals u hu c hc.unit
    obtain ⟨r', hr', heval'⟩ := ht.residuals u hu c' hc'.unit
    rw [hc.aged.alike.residuals] at heval
    rw [hc'.aged.alike.residuals, outputsOf, h.slots] at heval'
    rw [hc.aged.alike.outputs] at hr
    rw [hc'.aged.alike.outputs] at hr'
    exact hwrites.again (hhosts.size_received a.store.slots)
      (by rw [outputsOf, size_slice, hhosts.fits.size_outputs]) hr heval hr' heval'

theorem linearizeAll_agrees (strict : Option α) (hvs : ∀ u ∈ vs, u ∈ us) (hnodup : vs.Nodup)
    (h : Indistinct l us a₀ a b) :
    Agree (fun s t => Indistinct l us a₀ s t ∧ ∀ u ∈ vs,
        t.inputsOf (l.unit u) = s.inputsOf (l.unit u) ∧ t.units[u]? = s.units[u]?)
      (Indistinct l us a₀) (linearizeAll l strict vs a) (linearizeAll l strict vs b) := by
  have hall : Agree (Indistinct l us a₀) (Indistinct l us a₀) (linearizeAll l strict vs a)
      (linearizeAll l strict vs b) := by
    unfold linearizeAll
    refine .forEach (fun u hu s t h => ?_) h
    exact linearize_agrees hr strict (hvs u hu) h
  refine hall.of_ok fun _ s t hs ht hst => ⟨hst, ?_⟩
  have hspec : ∀ {a s : Assembly α}, a₀.Aged l us a → linearizeAll l strict vs a = .ok () s →
      ∀ u ∈ vs, Refreshed l strict a u s := by
    intro a s ha hs
    refine (linearizeAll_refreshes hnodup (fun u hu => ?_) (fun u hu w hw hne =>
      hr.apart u (hvs u hu) w (hvs w hw) hne) hs).2
    have hlt := hr.lt u (hvs u hu)
    obtain ⟨c, hc⟩ := ha.exists_unit (Array.getElem?_eq_getElem hlt)
      (hr.hosts u _ (Array.getElem?_eq_getElem hlt))
    exact ⟨c, hc.unit, hc.hosts⟩
  intro u hu
  have hs := hspec h.left hs u hu
  have ht := hspec h.right ht u hu
  obtain ⟨c₀, c, c', -, -, hafresh, hhosts, hc, hc'⟩ := h.exists_units hr (hvs u hu)
  refine ⟨by rw [hs.inputs, ht.inputs, h.slots], ?_⟩
  obtain ⟨_, d, hcd, hd, hlinearize⟩ := hs.linearized
  obtain rfl := Option.some.inj (hcd.symm.trans hc.unit)
  obtain ⟨_, d', hcd', hd', hlinearize'⟩ := ht.linearized
  obtain rfl := Option.some.inj (hcd'.symm.trans hc'.unit)
  have hsame := hafresh.agrees hc.aged hc'.aged (hhosts.size_received a.store.slots)
    (y := a.outputsOf (l.unit u)) (by rw [outputsOf, size_slice, hhosts.fits.size_outputs]) strict
  rw [outputsOf, h.slots] at hlinearize'
  rw [hlinearize, outputsOf, hlinearize'] at hsame
  rw [hd, hd', hsame.eq_of_ok]

theorem solveAll_agrees (hvs : ∀ u ∈ vs, u ∈ us) (h : Indistinct l us a₀ a b) :
    Agree (Indistinct l us a₀) (Indistinct l us a₀) (solveAll l vs a) (solveAll l vs b) := by
  unfold solveAll
  refine .forEach (fun u hu s t h => ?_) h
  exact solve_agrees hr (hvs u hu) h

omit hr in
/-- Guesses read what an evaluation has written, and slots. -/
theorem slots_foldl_guess {vs : List Nat} (hunits : Component.AllAlike a.units b.units)
    (hslots : b.store.slots = a.store.slots)
    (hvalues : ∀ u ∈ vs, b.inputsOf (l.unit u) = a.inputsOf (l.unit u) ∧
      b.residualsOf (l.unit u) = a.residualsOf (l.unit u)) :
    (vs.foldl (guess l) b).store.slots = (vs.foldl (guess l) a).store.slots := by
  induction vs generalizing a b with
  | nil => exact hslots
  | cons u vs ih =>
    obtain ⟨hinputs, hresiduals⟩ := hvalues u List.mem_cons_self
    have hrest : ∀ w ∈ vs, b.inputsOf (l.unit w) = a.inputsOf (l.unit w) ∧
        b.residualsOf (l.unit w) = a.residualsOf (l.unit w) := fun w hw =>
      hvalues w (List.mem_cons_of_mem u hw)
    have houtputs : b.outputsOf (l.unit u) = a.outputsOf (l.unit u) :=
      congrArg (fun x => slice x _) hslots
    rw [List.foldl_cons, List.foldl_cons]
    cases hc : a.units[u]? with
    | none =>
      have hc' : b.units[u]? = none := by
        rw [Array.getElem?_eq_none_iff] at hc ⊢
        rw [hunits.size]
        exact hc
      simp only [guess, hc, hc']
      exact ih hunits hslots hrest
    | some c =>
      have hlt : u < b.units.size := hunits.size ▸ (Array.getElem?_eq_some_iff.1 hc).1
      have hc' := Array.getElem?_eq_getElem hlt
      have halike := hunits.alike u c _ hc hc'
      simp only [guess, hc, hc', halike.guess, hinputs, houtputs, hresiduals]
      exact ih hunits (congrArg (fun x => splice x _ _) hslots) hrest

omit hr in
theorem hasImplicit_eq (h : Component.AllAlike a.units b.units) (vs : List Nat) :
    b.hasImplicit vs = a.hasImplicit vs := by
  unfold hasImplicit
  refine List.any_congr rfl fun u => ?_
  cases hc : b.units[u]? with
  | none =>
    rw [Array.getElem?_eq_none_iff, h.size, ← Array.getElem?_eq_none_iff] at hc
    rw [hc]
  | some c' =>
    obtain ⟨c, hc, halike⟩ := h.exists_alike hc
    rw [hc]
    dsimp only
    rw [Component.isImplicit, halike.discipline, Component.isImplicit]

theorem guessAll_agrees (hvs : ∀ u ∈ vs, u ∈ us) (hnodup : vs.Nodup)
    (h : Indistinct l us a₀ a b) :
    Agree (Indistinct l us a₀) (Indistinct l us a₀) (guessAll l vs a) (guessAll l vs b) := by
  have hunits := h.left.follows.units.symm.trans h.right.follows.units
  refine h.of_slots hr (changed_guessAll fun w hw => List.mem_map.2 ⟨w, hw, rfl⟩) hvs ?_
  unfold guessAll
  rw [hasImplicit_eq hunits]
  split_ifs
  · have heval := evaluateAll_agrees hr hvs hnodup h
    revert heval
    generalize evaluateAll l vs a = r
    generalize evaluateAll l vs b = r'
    rintro (⟨_, h, hvalues⟩ | ⟨e, h⟩)
    · exact .ok () (slots_foldl_guess (h.left.follows.units.symm.trans h.right.follows.units)
        h.slots hvalues)
    · exact .error e h.slots
  · exact .ok () h.slots

end Assembly

/-! ### Operators -/

section Operators

variable {l : Arrangement α} {a b : Assembly α} {unitIds : List Nat}

/-- A Jacobian is built from the units that it is built of. -/
theorem Jacobian.build_congr {units units' : Array (Component α)} {range : Span}
    (h : ∀ u ∈ unitIds, units'[u]? = units[u]?) :
    build l units' unitIds range = build l units unitIds range := by
  have hvisits : visits l units' unitIds range = visits l units unitIds range := by
    refine List.flatMap_congr fun u hu => ?_
    unfold unitVisits
    rw [h u hu]
  simp only [build, refresh, contributions_eq, hvisits]

/-- Products of units depend on these units, at their inputs and outputs. -/
theorem MatrixFree.addUnits_congr {units units' : Array (Component α)} {range : Span} (mode : Mode)
    (x y slots : Array α) {inputs inputs' : Array α} (all : List Nat)
    (hunits : ∀ u ∈ unitIds, units'[u]? = units[u]?)
    (hinputs : ∀ u ∈ unitIds, slice inputs' (l.unit u).inputs = slice inputs (l.unit u).inputs) :
    addUnits ⟨l, units', all, range, slots, inputs'⟩ mode x y unitIds =
      addUnits ⟨l, units, all, range, slots, inputs⟩ mode x y unitIds := by
  induction unitIds generalizing y with
  | nil => rfl
  | cons u rest ih =>
    have hrest := fun y => ih y (fun w hw => hunits w (List.mem_cons_of_mem u hw))
      fun w hw => hinputs w (List.mem_cons_of_mem u hw)
    unfold addUnits addForward addReverse
    simp only [hunits u List.mem_cons_self, hinputs u List.mem_cons_self, hrest]

omit [Scalar α] in
/-- The parts of some units are theirs, or those of independent inputs. -/
theorem Part.mem_of_partition {range : Span} {part : Part}
    (h : part ∈ partition l unitIds range) {u : Nat} (hu : part.unit = some u) : u ∈ unitIds := by
  unfold partition at h
  rcases List.mem_append.1 h with h | h
  · obtain ⟨w, hw, hpart⟩ := List.mem_filterMap.1 h
    dsimp only at hpart
    split_ifs at hpart
    cases hpart
    exact Option.some.inj hu ▸ hw
  · obtain ⟨r, -, hpart⟩ := List.mem_filterMap.1 h
    split_ifs at hpart
    cases hpart
    cases hu

/-- The operator of some units depends on these units, at their inputs and outputs. -/
theorem Part.operator_congr {range : Span} {parts : List Part} (j? : Option (Jacobian α))
    (hunits : ∀ u ∈ unitIds, b.units[u]? = a.units[u]?)
    (hinputs : ∀ u ∈ unitIds, b.inputsOf (l.unit u) = a.inputsOf (l.unit u))
    (hslots : b.store.slots = a.store.slots)
    (hparts : ∀ part ∈ parts, ∀ u, part.unit = some u → u ∈ unitIds) :
    operator l b unitIds range parts j? = operator l a unitIds range parts j? := by
  have hsolve : Part.solve b.units parts = Part.solve a.units parts := by
    funext k rhs mode
    unfold Part.solve
    cases hpart : parts[k]? with
    | none => rfl
    | some part =>
      obtain ⟨r, unit⟩ := part
      cases unit with
      | none => rfl
      | some u =>
        dsimp only
        rw [hunits u (hparts _ (List.mem_of_getElem? hpart) u rfl)]
  unfold operator
  rw [hsolve]
  cases j? with
  | some j => rfl
  | none =>
    have happly : MatrixFree.apply ⟨l, b.units, unitIds, range, b.store.slots, b.store.inputs⟩ =
        MatrixFree.apply ⟨l, a.units, unitIds, range, a.store.slots, a.store.inputs⟩ := by
      funext mode x
      rw [hslots]
      exact MatrixFree.addUnits_congr mode x _ _ unitIds hunits hinputs
    simp only [MatrixFree.operator, happly]

end Operators

/-! ### Blocks -/

namespace SolverBlock

open Assembly

variable {l : Arrangement α} {us : List Nat} {a₀ : Assembly α} {b : SolverBlock α}

/-- A block of some units, with a part for each of them that has one. -/
structure Within (b : SolverBlock α) (l : Arrangement α) (us : List Nat) : Prop where
  fits : Model.FitsBlock l b
  mem : ∀ u ∈ b.unitIds, u ∈ us
  nodup : b.unitIds.Nodup
  parts : ∀ part ∈ b.parts, ∀ u, part.unit = some u → u ∈ b.unitIds

/-- Two states of a block that come from the same one by use, with the same slots. -/
structure Indistinct (b : SolverBlock α) (l : Arrangement α) (us : List Nat) (a₀ : Assembly α)
    (s t : State α) : Prop where
  assembly : Assembly.Indistinct l us a₀ s.assembly t.assembly
  left : b.HasBuilt l a₀.units s.jacobian
  right : b.HasBuilt l a₀.units t.jacobian

/-- A step on units and values does not tell states of a block apart if it does not tell these
apart. -/
theorem lift_agrees {Q : Assembly α → Assembly α → Prop}
    {step : EStateM EvalError (Assembly α) Unit} {s t : State α}
    (h : Agree Q (Assembly.Indistinct l us a₀) (step s.assembly) (step t.assembly))
    (hst : b.Indistinct l us a₀ s t) :
    Agree (fun s' t' => Q s'.assembly t'.assembly ∧ s'.jacobian = s.jacobian ∧
        t'.jacobian = t.jacobian) (b.Indistinct l us a₀) (State.lift step s) (State.lift step t) := by
  unfold State.lift
  revert h
  generalize step s.assembly = r
  generalize step t.assembly = r'
  rintro (⟨_, h⟩ | ⟨e, h⟩)
  · exact .ok () ⟨h, rfl, rfl⟩
  · exact .error e ⟨h, hst.left, hst.right⟩

variable (hr : Regular l us a₀) (hb : b.Within l us)

include hr hb

theorem residuals_agrees {s t : State α} (h : b.Indistinct l us a₀ s t) :
    Agree (b.Indistinct l us a₀) (b.Indistinct l us a₀) (b.residuals l s) (b.residuals l t) := by
  have heval := evaluateAll_agrees hr hb.mem hb.nodup h.assembly
  unfold residuals
  revert heval
  generalize evaluateAll l b.unitIds s.assembly = r
  generalize evaluateAll l b.unitIds t.assembly = r'
  rintro (⟨_, hst, hvalues⟩ | ⟨e, hst⟩)
  · dsimp only
    rw [slice_range_congr hb.fits fun u hu => (hvalues u hu).2]
    exact .ok _ ⟨hst, h.left, h.right⟩
  · exact .error e ⟨hst, h.left, h.right⟩

theorem linearize_agrees (strict : Option α) {s t : State α} (h : b.Indistinct l us a₀ s t) :
    Agree (fun s t => b.Indistinct l us a₀ s t ∧ b.operator l s = b.operator l t)
      (b.Indistinct l us a₀) (b.linearize l strict s) (b.linearize l strict t) := by
  have hlinearize := lift_agrees (linearizeAll_agrees hr strict hb.mem hb.nodup h.assembly) h
  unfold linearize
  revert hlinearize
  generalize State.lift (linearizeAll l strict b.unitIds) s = r
  generalize State.lift (linearizeAll l strict b.unitIds) t = r'
  rintro (⟨_, ⟨hst, hvalues⟩, hj, hj'⟩ | ⟨e, hst⟩)
  · rename_i s' t'
    have hunits : ∀ u ∈ b.unitIds, t'.assembly.units[u]? = s'.assembly.units[u]? :=
      fun u hu => (hvalues u hu).2
    have hoperator : ∀ j?, Part.operator l s'.assembly b.unitIds b.range b.parts j? =
        Part.operator l t'.assembly b.unitIds b.range b.parts j? := fun j? =>
      (Part.operator_congr j? hunits (fun u hu => (hvalues u hu).1) hst.slots hb.parts).symm
    have hleft : b.HasBuilt l a₀.units s'.jacobian := hj ▸ h.left
    have hright : b.HasBuilt l a₀.units t'.jacobian := hj' ▸ h.right
    have hs := assemble_eq hst.left.follows hleft
    have ht := assemble_eq hst.right.follows hright
    have hbuilt : ∀ {s : State α}, a₀.Follows s.assembly →
        b.HasBuilt l a₀.units (some (.build l s.assembly.units b.unitIds b.range)) := by
      intro s hs j hsome
      exact ⟨s.assembly.units, hs.units, (Option.some.inj hsome).symm⟩
    dsimp only
    split_ifs with hassemble
    · refine .ok () ⟨⟨hst, ?_, ?_⟩, ?_⟩
      · rw [hs]
        exact hbuilt hst.left.follows
      · rw [ht]
        exact hbuilt hst.right.follows
      · simp only [operator, hassemble, if_true, hs, ht, Jacobian.build_congr hunits]
        exact hoperator _
    · refine .ok () ⟨⟨hst, hleft, hright⟩, ?_⟩
      simp only [operator, hassemble]
      exact hoperator none
  · exact .error e hst

/-- **The solvers of a block cannot tell how the model was used before.** -/
theorem respects (strict : Option α) : (b.system l strict).Respects (b.Indistinct l us a₀) where
  state s t h := congrArg (fun x => slice x b.range) h.assembly.slots.symm
  setState x s t h := by
    have hchanged : ∀ s : State α, Changed l b.unitIds (b.spans l) s.assembly
        (b.setUnknowns x s).assembly := (b.keeps_changed l strict).setState x
    exact ⟨⟨h.assembly.left.changed (hchanged s) hr.hosts hb.mem,
      h.assembly.right.changed (hchanged t) hr.hosts hb.mem,
      congrArg (fun slots => splice slots b.range x) h.assembly.slots⟩, h.left, h.right⟩
  residuals s t h := residuals_agrees hr hb h
  linearize s t h := linearize_agrees hr hb strict h
  sweep s t h := (lift_agrees (solveAll_agrees hr hb.mem h.assembly) h).mono
    (fun _ _ hst => ⟨hst.1, hst.2.1 ▸ h.left, hst.2.2 ▸ h.right⟩) fun _ _ h => h
  guess s t h := (lift_agrees (guessAll_agrees hr hb.mem hb.nodup h.assembly) h).mono
    (fun _ _ hst => ⟨hst.1, hst.2.1 ▸ h.left, hst.2.2 ▸ h.right⟩) fun _ _ h => h

end SolverBlock

end Mdao
