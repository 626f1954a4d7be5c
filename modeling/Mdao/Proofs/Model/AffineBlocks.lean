import Mathlib
import Mdao.Proofs.Model.Aged
import Mdao.Proofs.Model.Frame
import Mdao.Proofs.Model.Perturbed
import Mdao.Proofs.Nonlinear.OneStep

/-!
# Blocks of affine units

The solve of a block sees the slots of its range as unknowns, and all other slots are held fixed.
Where the units of a block are affine with exact derivatives, so is the block: at any two vectors of
unknowns its residuals differ by what its operator makes of the difference of the unknowns, whether
the Jacobian is assembled or not (`AffineBlock.derivative`). An input that is routed from inside the
range, also from the unit itself, moves with the unknowns by the scale of its route; one that is
routed from elsewhere does not move, and its columns are not in the Jacobian.
-/

namespace Mdao

open Vec

variable {α : Type}

/-! ### Steps on units that succeed -/

namespace Assembly

variable [Scalar α] {l : Arrangement α} {strict : Option α} {us : List Nat} {a b : Assembly α}

/-- Units with places, one after the other, each of which can be linearized as it is. -/
theorem linearizeAll_ok_of_nodup (hnodup : us.Nodup)
    (h : ∀ u ∈ us, ∃ c, a.units[u]? = some c ∧ a.Hosts (l.unit u) c ∧
      ∀ x y, x.size = c.inputs.size → y.size = c.outputs.size →
        ∃ after, c.linearize x y strict = .ok ⟨⟩ after) :
    ∃ b, linearizeAll l strict us a = .ok () b := by
  -- the units that are left are as they were
  obtain ⟨b, hb, -⟩ := forEach_ok (linearize l strict) (fun rest b => a.Follows b ∧
    rest.Nodup ∧ ∀ u ∈ rest, u ∈ us ∧ b.units[u]? = a.units[u]?)
    (fun u rest b ⟨hfollows, hrest, hleft⟩ => by
      obtain ⟨hu, hunit⟩ := hleft u List.mem_cons_self
      obtain ⟨c, hc, hhosts, hok⟩ := h u hu
      obtain ⟨after, hstep⟩ := linearize_ok (hunit.trans hc) (hhosts.follows hfollows) hok
      have hnext := follows_linearize l strict u b
      rw [hstep] at hnext
      refine ⟨_, hstep, .trans _ _ _ hfollows hnext, (List.nodup_cons.1 hrest).2, fun w hw => ?_⟩
      obtain ⟨hwu, hw'⟩ := hleft w (List.mem_cons_of_mem _ hw)
      have hne : u ≠ w := fun heq => (List.nodup_cons.1 hrest).1 (heq ▸ hw)
      exact ⟨hwu, (Array.getElem?_setIfInBounds_ne hne).trans hw'⟩)
    (s := a) ⟨.refl a, hnodup, fun u hu => ⟨hu, rfl⟩⟩
  exact ⟨b, hb⟩

/-- Units with places, one after the other, each of which can be solved. -/
theorem solveAll_ok (h : ∀ u ∈ us, ∃ c, a.units[u]? = some c ∧ a.Hosts (l.unit u) c ∧
      ∀ x y, x.size = c.inputs.size → y.size = c.outputs.size →
        ∃ itself y', c.solve x y = .ok itself y') :
    ∃ b, solveAll l us a = .ok () b ∧ b.units = a.units := by
  obtain ⟨b, hb, -, hunits⟩ := forEach_ok_of_mem (solve l)
    (fun b => a.Follows b ∧ b.units = a.units)
    (fun u hu b ⟨hfollows, hunits⟩ => by
      obtain ⟨c, hc, hhosts, hok⟩ := h u hu
      have hcb : b.units[u]? = some c := hunits ▸ hc
      have hhostsb := hhosts.follows hfollows
      obtain ⟨itself, y', hy'⟩ := hok (received l u b.store.slots) (b.outputsOf (l.unit u))
        (hhostsb.size_received _) (by rw [outputsOf, size_slice, hhostsb.fits.size_outputs])
      have houtputs : (b.transfer (l.unit u)).outputsOf (l.unit u) = b.outputsOf (l.unit u) := rfl
      have hstep : solve l u b = .ok () ((b.transfer (l.unit u)).withOutputs (l.unit u) y') := by
        refine (onUnit_eq hcb).trans ?_
        rw [inputsOf_transfer hhostsb, houtputs, hy']
      exact ⟨_, hstep, .trans _ _ _ hfollows (.trans _ _ _ (b.follows_transfer _)
        ((b.transfer _).follows_withOutputs _ _)), hunits⟩)
    (s := a) ⟨.refl a, rfl⟩
  exact ⟨b, hb, hunits⟩

/-- Guessing leaves the units as they are. -/
theorem units_foldl_guess (l : Arrangement α) (us : List Nat) (a : Assembly α) :
    (us.foldl (guess l) a).units = a.units := by
  induction us generalizing a with
  | nil => rfl
  | cons u us ih =>
    refine (ih _).trans ?_
    unfold guess
    cases a.units[u]? <;> rfl

/-- Units with places, each of which can be evaluated, can be asked where to start. -/
theorem guessAll_ok (hhosts : ∀ u ∈ us, ∃ c, a.units[u]? = some c ∧ a.Hosts (l.unit u) c)
    (hapart : us.Pairwise (Apart l)) (h : ∃ b, evaluateAll l us a = .ok () b) :
    ∃ b, guessAll l us a = .ok () b ∧ b.units = a.units := by
  unfold guessAll
  split_ifs
  · obtain ⟨b, hb⟩ := h
    have hevaluated := evaluateAll_spec hhosts hapart hb
    exact ⟨us.foldl (guess l) b, by simp only [hb],
      (units_foldl_guess l us b).trans hevaluated.units⟩
  · exact ⟨a, rfl, rfl⟩

end Assembly

/-! ### The states of a solve -/

namespace SolverBlock

open Assembly

section States

variable [Scalar α] {b : SolverBlock α} {l : Arrangement α} {strict : Option α} {a : Assembly α}
  {s t : State α}

/-- A state of a block **before its units are linearized**: the unknowns may be any, all other slots
are those of the units and values that the solve started from. -/
structure Fresh (b : SolverBlock α) (a : Assembly α) (s : State α) : Prop where
  units : s.assembly.units = a.units
  shape : a.store.SameShape s.assembly.store
  others : ∀ k, k ∉ b.range → entry s.assembly.store.slots k = entry a.store.slots k
  jacobian : s.jacobian = b.jacobian

/-- A state of a block **after its units have been linearized**, with whatever unknowns. -/
def Refreshed (b : SolverBlock α) (l : Arrangement α) (strict : Option α) (a : Assembly α)
    (t : State α) : Prop :=
  ∃ s, b.Fresh a s ∧ b.linearize l strict s = .ok () t

theorem Fresh.refl (b : SolverBlock α) (a : Assembly α) : b.Fresh a ⟨a, b.jacobian⟩ :=
  ⟨rfl, .refl _, fun _ _ => rfl, rfl⟩

theorem Fresh.follows (h : b.Fresh a s) : a.Follows s.assembly := .of_values h.shape h.units

/-- Steps on the units of a block that do not linearize them. -/
theorem Fresh.changed (h : b.Fresh a s) (hfits : Model.FitsBlock l b) {a' : Assembly α}
    (hchanged : Changed l b.unitIds (b.spans l) s.assembly a')
    (hunits : a'.units = s.assembly.units) : b.Fresh a ⟨a', s.jacobian⟩ where
  units := hunits.trans h.units
  shape := h.shape.trans hchanged.follows.store
  others k hk := (entry_slots_of_changed hfits hchanged hk).trans (h.others k hk)
  jacobian := h.jacobian

theorem Fresh.evaluated (hs : b.Fresh a s) {a' : Assembly α}
    (ha' : Evaluated l b.unitIds s.assembly a') : b.Fresh a ⟨a', s.jacobian⟩ where
  units := ha'.units.trans hs.units
  shape := hs.shape.trans ha'.follows.store
  others k hk := by rw [ha'.slots, hs.others k hk]
  jacobian := hs.jacobian

end States

section Exact

variable [ExactScalar α]

/-- The Jacobian over the range of a block, built from its units. -/
def builtJacobian (b : SolverBlock α) (l : Arrangement α) (t : State α) : Jacobian α :=
  .build l t.assembly.units b.unitIds b.range

/-- The Jacobian of a block as a matrix. -/
def matrix (b : SolverBlock α) (l : Arrangement α) (t : State α) :
    Matrix (Fin b.range.size) (Fin b.range.size) α :=
  (b.builtJacobian l t).matrix.toMatrix b.range.size

/-- The residuals of a block at some unknowns, with all other slots held fixed. -/
def ResidualAt (b : SolverBlock α) (l : Arrangement α) (a : Assembly α) (x r : Array α) : Prop :=
  ∃ slots buffer : Array α, slice slots b.range = x ∧ slice buffer b.range = r ∧
    (∀ k, k ∉ b.range → entry slots k = entry a.store.slots k) ∧
    ∀ u ∈ b.unitIds, ∀ c, a.units[u]? = some c → Jacobian.ResidualsAt l u c slots buffer

end Exact

end SolverBlock

/-! ### Blocks of affine units -/

open Assembly Model SolverBlock

variable [ExactScalar α]

/-- **A block of affine units** of a problem, with the units and values at the start of its solve. -/
structure AffineBlock (m : Model α) (start : Problem α) (strict : Option α) (a : Assembly α)
    (b : SolverBlock α) : Prop where
  built : m.Built
  setUp : IsSetUp m start
  follows : start.assembly.Follows a
  sublist : b.unitIds.Sublist start.order
  fits : FitsBlock start.arrangement b
  jacobian : b.HasBuilt start.arrangement start.assembly.units b.jacobian
  units : ∀ u ∈ b.unitIds, ∀ c, a.units[u]? = some c → c.LinearizesExactly strict

namespace AffineBlock

variable {m : Model α} {start : Problem α} {strict : Option α} {a : Assembly α} {b : SolverBlock α}
  {s t : State α} {u : Nat}

theorem lt_size (h : AffineBlock m start strict a b) (hu : u ∈ b.unitIds) : u < m.units.size :=
  List.mem_range.1 ((h.setUp.perm h.built.sound).mem_iff.1 (h.sublist.subset hu))

theorem nodup (h : AffineBlock m start strict a b) : b.unitIds.Nodup :=
  h.sublist.nodup ((h.setUp.perm h.built.sound).nodup_iff.2 List.nodup_range)

theorem pairwise_apart (h : AffineBlock m start strict a b) :
    b.unitIds.Pairwise (Apart start.arrangement) :=
  h.setUp.pairwise_apart_of_nodup h.built.sound h.nodup fun _ => h.lt_size

/-- A unit of the block, as it was when the solve started and as it is in a later state. -/
theorem unit (h : AffineBlock m start strict a b) (hu : u ∈ b.unitIds) {a' : Assembly α}
    (ha' : a.Follows a') : ∃ c c', a.units[u]? = some c ∧ a'.units[u]? = some c' ∧ c.Alike c' ∧
      a'.Hosts (start.arrangement.unit u) c' ∧ c'.ReadsInputs ∧ c.LinearizesExactly strict := by
  have hdeclared := Array.getElem?_eq_getElem (h.lt_size hu)
  obtain ⟨c, hc, -, -⟩ := h.setUp.hosts h.built.sound h.follows hdeclared
  obtain ⟨c', hc', halike', hhosts⟩ :=
    h.setUp.hosts h.built.sound (.trans _ _ _ h.follows ha') hdeclared
  exact ⟨c, c', hc, hc', ha'.units.alike u c c' hc hc', hhosts,
    (h.built.readsInputs _ (Array.mem_of_getElem? hdeclared)).alike halike', h.units u hu c hc⟩

/-- The residuals of the block, before and after its units are linearized. -/
theorem residuals_ok (h : AffineBlock m start strict a b) (hs : a.Follows s.assembly)
    (hothers : ∀ k, k ∉ b.range → entry s.assembly.store.slots k = entry a.store.slots k) :
    ∃ r a', b.residuals start.arrangement s = .ok r ⟨a', s.jacobian⟩ ∧
      Evaluated start.arrangement b.unitIds s.assembly a' ∧
      b.ResidualAt start.arrangement a (b.unknowns s) r := by
  obtain ⟨a', hall⟩ : ∃ a', evaluateAll start.arrangement b.unitIds s.assembly = .ok () a' := by
    refine evaluateAll_ok fun u hu => ?_
    obtain ⟨c, c', hc, hc', halike, hhosts, -, hexact⟩ := h.unit hu hs
    refine ⟨c', hc', hhosts, ?_⟩
    rw [halike.inputs, halike.outputs, halike.residuals]
    exact fun x y r hx hy hr => hexact.residuals_ok hx hy hr
  have hevaluated := h.setUp.evaluated_of_nodup h.built.sound (.trans _ _ _ h.follows hs) h.nodup
    (fun _ => h.lt_size) hall
  refine ⟨slice a'.store.residuals b.range, a', by simp only [residuals, hall], hevaluated,
    s.assembly.store.slots, a'.store.residuals, rfl, rfl, hothers, fun u hu c hc => ?_⟩
  obtain ⟨c₁, c', hc₁, hc', halike, -⟩ := h.unit hu hs
  obtain rfl := Option.some.inj (hc.symm.trans hc₁)
  obtain ⟨r, hr, hresiduals⟩ := hevaluated.residuals u hu c' hc'
  exact ⟨r, by rw [hr, halike.outputs], by rw [← halike.residuals]; exact hresiduals⟩

/-! ### Before the units are linearized -/

theorem guess_ok (h : AffineBlock m start strict a b) (hs : b.Fresh a s) :
    ∃ t, State.lift (guessAll start.arrangement b.unitIds) s = .ok () t ∧ b.Fresh a t := by
  obtain ⟨a', ha', hunits⟩ := guessAll_ok (fun u hu => by
      obtain ⟨-, c', -, hc', -, hhosts, -⟩ := h.unit hu hs.follows
      exact ⟨c', hc', hhosts⟩) h.pairwise_apart (by
    obtain ⟨r, a', hresiduals, -⟩ := h.residuals_ok hs.follows hs.others
    unfold residuals at hresiduals
    cases hall : evaluateAll start.arrangement b.unitIds s.assembly with
    | ok _ a'' => exact ⟨a'', rfl⟩
    | error e a'' =>
      rw [hall] at hresiduals
      cases hresiduals)
  have hchanged : Changed start.arrangement b.unitIds (b.spans start.arrangement) s.assembly
      (stateAfter (guessAll start.arrangement b.unitIds s.assembly)) :=
    changed_guessAll (fun u hu => List.mem_cons_of_mem _ (List.mem_map.2 ⟨u, hu, rfl⟩)) s.assembly
  rw [ha'] at hchanged
  exact ⟨⟨a', s.jacobian⟩, by simp only [State.lift, ha'], hs.changed h.fits hchanged hunits⟩

theorem sweep_ok (h : AffineBlock m start strict a b)
    (hsolves : ∀ u ∈ b.unitIds, ∀ c, a.units[u]? = some c → ∀ x y, x.size = c.inputs.size →
      y.size = c.outputs.size → ∃ itself y', c.solve x y = .ok itself y') (hs : b.Fresh a s) :
    ∃ t, State.lift (solveAll start.arrangement b.unitIds) s = .ok () t ∧ b.Fresh a t := by
  obtain ⟨a', ha', hunits⟩ := solveAll_ok (l := start.arrangement) fun u hu => by
    obtain ⟨c, c', hc, hc', -, hhosts, -⟩ := h.unit hu hs.follows
    exact ⟨c', hc', hhosts, hsolves u hu c' (hs.units ▸ hc')⟩
  have hchanged : Changed start.arrangement b.unitIds (b.spans start.arrangement) s.assembly
      (stateAfter (solveAll start.arrangement b.unitIds s.assembly)) :=
    changed_solveAll (fun u hu => List.mem_cons_of_mem _ (List.mem_map.2 ⟨u, hu, rfl⟩)) s.assembly
  rw [ha'] at hchanged
  exact ⟨⟨a', s.jacobian⟩, by simp only [State.lift, ha'], hs.changed h.fits hchanged hunits⟩

/-! ### Once the units are linearized -/

theorem linearizeAll_ok (h : AffineBlock m start strict a b) (hs : b.Fresh a s) :
    ∃ a', Assembly.linearizeAll start.arrangement strict b.unitIds s.assembly = .ok () a' := by
  refine linearizeAll_ok_of_nodup h.nodup fun u hu => ?_
  obtain ⟨c, c', hc, hc', -, hhosts, -, hexact⟩ := h.unit hu hs.follows
  obtain rfl : c' = c := Option.some.inj (hc'.symm.trans (hs.units ▸ hc))
  refine ⟨c', hc', hhosts, fun x y hx hy => ?_⟩
  obtain ⟨after, hafter, -⟩ := hexact x y hx hy
  exact ⟨after, hafter⟩

/-- Linearizing a block linearizes its units, and the Jacobian, where it is kept, is that of the
units as they are then. -/
theorem linearize_ok (h : AffineBlock m start strict a b) (hs : b.Fresh a s) :
    ∃ t, b.linearize start.arrangement strict s = .ok () t ∧
      Assembly.linearizeAll start.arrangement strict b.unitIds s.assembly = .ok () t.assembly ∧
      (b.options.assembleJac = true → t.jacobian =
        some (.build start.arrangement t.assembly.units b.unitIds b.range)) := by
  obtain ⟨a', ha'⟩ := h.linearizeAll_ok hs
  have hchanged : Changed start.arrangement b.unitIds [] s.assembly (stateAfter
      (Assembly.linearizeAll start.arrangement strict b.unitIds s.assembly)) :=
    changed_linearizeAll strict s.assembly
  rw [ha'] at hchanged
  have hfollows : start.assembly.Follows a' :=
    .trans _ _ _ h.follows (.trans _ _ _ hs.follows hchanged.follows)
  have hassemble : b.assemble start.arrangement ⟨a', s.jacobian⟩ =
      .build start.arrangement a'.units b.unitIds b.range :=
    assemble_eq (s := ⟨a', s.jacobian⟩) hfollows (hs.jacobian ▸ h.jacobian)
  by_cases hkept : b.options.assembleJac = true
  · refine ⟨⟨a', some (b.assemble start.arrangement ⟨a', s.jacobian⟩)⟩, ?_, ha', fun _ => ?_⟩
    · simp only [SolverBlock.linearize, State.lift, ha', hkept, if_true]
    · rw [hassemble]
  · refine ⟨⟨a', s.jacobian⟩, ?_, ha', fun hyes => absurd hyes hkept⟩
    simp only [SolverBlock.linearize, State.lift, ha', hkept]
    rfl

/-- Where a block has been linearized, its units have been, from one of its states before. -/
theorem of_refreshed (h : AffineBlock m start strict a b)
    (ht : b.Refreshed start.arrangement strict a t) : ∃ s, b.Fresh a s ∧
      Assembly.linearizeAll start.arrangement strict b.unitIds s.assembly = .ok () t.assembly ∧
      (b.options.assembleJac = true → t.jacobian =
        some (.build start.arrangement t.assembly.units b.unitIds b.range)) := by
  obtain ⟨s, hs, hst⟩ := ht
  obtain ⟨t', ht', hall, hjacobian⟩ := h.linearize_ok hs
  rw [hst] at ht'
  cases ht'
  exact ⟨s, hs, hall, hjacobian⟩

theorem follows_of_refreshed (h : AffineBlock m start strict a b)
    (ht : b.Refreshed start.arrangement strict a t) : a.Follows t.assembly ∧
      ∀ k, k ∉ b.range → entry t.assembly.store.slots k = entry a.store.slots k := by
  obtain ⟨s, hs, hall, -⟩ := h.of_refreshed ht
  have hchanged : Changed start.arrangement b.unitIds [] s.assembly (stateAfter
      (Assembly.linearizeAll start.arrangement strict b.unitIds s.assembly)) :=
    changed_linearizeAll strict s.assembly
  rw [hall] at hchanged
  have hslots : t.assembly.store.slots = s.assembly.store.slots := hchanged.slots_eq
  exact ⟨.trans _ _ _ hs.follows hchanged.follows, fun k hk => by rw [hslots, hs.others k hk]⟩

/-- The outputs of a unit lie in the range of the block. -/
theorem liesIn (h : AffineBlock m start strict a b) (hu : u ∈ b.unitIds) :
    (start.arrangement.unit u).outputs.LiesIn b.range := by
  obtain ⟨hstart, -, hstop⟩ := h.fits.units.bounds (List.mem_map.2 ⟨u, hu, rfl⟩)
  exact .inr ⟨hstart, hstop⟩

/-- The block's Jacobian by products of its units. -/
def products (start : Problem α) (b : SolverBlock α) (t : State α) : MatrixFree α :=
  ⟨start.arrangement, t.assembly.units, b.unitIds, b.range, t.assembly.store.slots,
    t.assembly.store.inputs⟩

/-- Each unit of a block that has been linearized was linearized at its inputs and outputs. -/
theorem linearize_unit (h : AffineBlock m start strict a b)
    (ht : b.Refreshed start.arrangement strict a t) (hu : u ∈ b.unitIds) :
    ∃ c c', a.units[u]? = some c ∧ t.assembly.units[u]? = some c' ∧
      c.linearize (t.assembly.inputsOf (start.arrangement.unit u))
        (t.assembly.outputsOf (start.arrangement.unit u)) strict = .ok ⟨⟩ c' ∧
      c'.IsAffine (t.assembly.inputsOf (start.arrangement.unit u))
        (t.assembly.outputsOf (start.arrangement.unit u)) := by
  obtain ⟨s, hs, hall, -⟩ := h.of_refreshed ht
  obtain ⟨hslots, hrefreshed⟩ := linearizeAll_refreshes h.nodup (fun w hw => by
      obtain ⟨-, c', -, hc', -, hhosts, -⟩ := h.unit hw hs.follows
      exact ⟨c', hc', hhosts⟩)
    (fun w hw v hv hne => h.setUp.apart h.built.sound (h.lt_size hv) (h.lt_size hw) hne) hall
  obtain ⟨c, c₂, hc, hc₂, -, hhosts, -, hexact⟩ := h.unit hu (.refl a)
  obtain rfl := Option.some.inj (hc.symm.trans hc₂)
  obtain ⟨hinputs, c₁, c', hc₁, hc', hlinearize⟩ := hrefreshed u hu
  rw [hs.units] at hc₁
  obtain rfl := Option.some.inj (hc.symm.trans hc₁)
  have houtputs : t.assembly.outputsOf (start.arrangement.unit u) =
      s.assembly.outputsOf (start.arrangement.unit u) :=
    congrArg (slice · (start.arrangement.unit u).outputs) hslots
  rw [hinputs, houtputs]
  obtain ⟨after, hafter, haffine⟩ := hexact _ (s.assembly.outputsOf (start.arrangement.unit u))
    (hhosts.size_received s.assembly.store.slots)
    (by rw [outputsOf, size_slice, hhosts.fits.size_outputs])
  rw [hlinearize] at hafter
  cases hafter
  exact ⟨c, c', hc, hc', hlinearize, haffine⟩

/-- **The units of a block that has been linearized** are affine, with the derivatives that they
have, and act by their entries. -/
theorem linearized (h : AffineBlock m start strict a b)
    (ht : b.Refreshed start.arrangement strict a t) (hu : u ∈ b.unitIds) :
    ∃ c c', a.units[u]? = some c ∧ t.assembly.units[u]? = some c' ∧ c.Alike c' ∧
      c'.ReadsInputs ∧ (products start b t).Acts u c' ∧
      c'.IsAffine (t.assembly.inputsOf (start.arrangement.unit u))
        (t.assembly.outputsOf (start.arrangement.unit u)) := by
  have hlinearized : start.Linearized t.assembly b.unitIds := by
    refine ⟨fun w hw c' hc' => ?_, fun w hw c' hc' => ?_⟩
    · obtain ⟨c, c₁, hc, hc₁, hlinearize, -⟩ := h.linearize_unit ht hw
      obtain rfl := Option.some.inj (hc'.symm.trans hc₁)
      have hdeclared := Array.getElem?_eq_getElem (h.setUp.units ▸ h.lt_size hw)
      exact ⟨_, hdeclared, c, strict, h.follows.units.alike w _ c hdeclared hc, hlinearize⟩
    · obtain ⟨c, c₁, -, hc₁, -, haffine⟩ := h.linearize_unit ht hw
      obtain rfl := Option.some.inj (hc'.symm.trans hc₁)
      exact haffine.productsAreLinear
  obtain ⟨c, c', hc, hc', -, haffine⟩ := h.linearize_unit ht hu
  obtain ⟨c₁, c₂, hc₁, hc₂, halike, -, hreads, -⟩ := h.unit hu (h.follows_of_refreshed ht).1
  obtain rfl := Option.some.inj (hc.symm.trans hc₁)
  obtain rfl := Option.some.inj (hc'.symm.trans hc₂)
  exact ⟨c, c', hc, hc', halike, hreads,
    acts_of_linearized h.built.sound h.setUp hlinearized (fun w => h.liesIn) hu hc', haffine⟩

/-- **The operator of a block** multiplies with the Jacobian of its units and gives its diagonal
blocks, assembled or not. -/
theorem operator_spec (h : AffineBlock m start strict a b)
    (ht : b.Refreshed start.arrangement strict a t) :
    (b.operator start.arrangement t).dim = b.range.size ∧
      (∀ mode x, (b.operator start.arrangement t).apply mode x = .ok
        ((b.builtJacobian start.arrangement t).matrix.product b.range.size mode x)) ∧
      ∀ block, (b.operator start.arrangement t).diagonalBlock block =
        .ok (Operator.blockOfMatrix (b.builtJacobian start.arrangement t).matrix block) := by
  obtain ⟨-, -, -, hjacobian⟩ := h.of_refreshed ht
  unfold SolverBlock.operator Part.operator
  by_cases hkept : b.options.assembleJac = true
  · rw [if_pos hkept, hjacobian hkept]
    exact ⟨rfl, fun _ _ => rfl, fun _ => rfl⟩
  · rw [if_neg hkept]
    have hproduct : ∀ mode x, (products start b t).apply mode x = .ok
        ((b.builtJacobian start.arrangement t).matrix.product b.range.size mode x) :=
      MatrixFree.apply_eq_product fun u hu c hc => by
        obtain ⟨-, c', -, hc', -, -, hacts, -⟩ := h.linearized ht hu
        obtain rfl := Option.some.inj (hc.symm.trans hc')
        exact hacts
    exact ⟨rfl, hproduct, Jacobian.diagonalBlock_of_apply rfl (hproduct .fwd)
      fun e he => Jacobian.entries_lt he⟩

/-- So it is that of the matrix. -/
theorem isMatrix (h : AffineBlock m start strict a b)
    (ht : b.Refreshed start.arrangement strict a t) :
    (b.operator start.arrangement t).IsMatrix (b.matrix start.arrangement t) := by
  obtain ⟨hdim, happly, -⟩ := h.operator_spec ht
  exact Operator.isMatrix_of_product hdim happly fun e he => Jacobian.entries_lt he

/-- No independent input has slots in the range of a block. -/
theorem independentsIn_eq_nil (h : AffineBlock m start strict a b) :
    start.arrangement.independentsIn b.range = [] := by
  refine List.filter_eq_nil_iff.2 fun k hk hin => ?_
  obtain ⟨r, hr, hkr⟩ := List.mem_flatMap.1 hk
  exact h.setUp.notMem_range h.fits h.sublist hr (Span.mem_indices.1 hkr) (Span.contains_iff.1 hin)

/-- A slot of the block belongs to one of its units. -/
theorem sum_units (h : AffineBlock m start strict a b) {k : Nat} (hk : k ∈ b.range) (v : α) :
    (b.unitIds.map fun u => if k ∈ (start.arrangement.unit u).outputs then v else 0).sum = v := by
  obtain ⟨w, hw, hkw⟩ := exists_unit_of_mem_range h.fits hk
  have hone : ∀ u ∈ b.unitIds, (if k ∈ (start.arrangement.unit u).outputs then v else 0) =
      if u = w then v else 0 := fun u hu => by
    refine if_congr ⟨fun hku => ?_, fun heq => heq ▸ hkw⟩ rfl rfl
    exact h.fits.units.eq_of_mem hu hw hku hkw
  rw [List.map_congr_left hone, ← List.sum_toFinset _ h.nodup, Finset.sum_ite_eq',
    if_pos (List.mem_toFinset.2 hw)]

/-- **The operator of a block of affine units is the derivative of its residuals**, with all slots
outside its range held fixed. -/
theorem derivative (h : AffineBlock m start strict a b)
    (ht : b.Refreshed start.arrangement strict a t) {x r x' r' : Array α}
    (hr : b.ResidualAt start.arrangement a x r) (hr' : b.ResidualAt start.arrangement a x' r') :
    (b.operator start.arrangement t).apply .fwd (sub x' x) = .ok (sub r' r) := by
  obtain ⟨slots, buffer, rfl, rfl, hothers, hunits⟩ := hr
  obtain ⟨slots', buffer', rfl, rfl, hothers', hunits'⟩ := hr'
  have hslices : (slice buffer' b.range).size = (slice buffer b.range).size := by simp
  have hbetween : ∀ u ∈ b.unitIds, ∃ c, t.assembly.units[u]? = some c ∧
      Jacobian.Between (products start b t) slots buffer slots' buffer' u c := fun u hu => by
    obtain ⟨c, c', hc, hc', halike, hreads, hacts, haffine⟩ := h.linearized ht hu
    have hresiduals : ∀ {s q : Array α}, Jacobian.ResidualsAt start.arrangement u c s q →
        Jacobian.ResidualsAt start.arrangement u c' s q := fun ⟨before, hbefore, hq⟩ =>
      ⟨before, hbefore.trans (by rw [halike.outputs]), by rw [halike.residuals]; exact hq⟩
    exact ⟨c', hc', hacts, hreads, haffine, hresiduals (hunits u hu c hc),
      hresiduals (hunits' u hu c hc)⟩
  rw [(h.operator_spec ht).2.1]
  refine congrArg Except.ok (ext_entry (by simp) fun i hi => ?_)
  have hlt : i < b.range.size := by simpa using hi
  have hmem : b.range.start + i ∈ b.range := Span.start_add_mem hlt
  refine (Jacobian.entry_product_sub (products start b t)
    (fun k hk => (hothers' k hk).trans (hothers k hk).symm) hbetween hlt).trans ?_
  show added ((start.arrangement.independentsIn b.range).map _) i + _ = _
  rw [h.independentsIn_eq_nil, List.map_nil, added_nil, zero_add]
  refine (h.sum_units hmem _).trans ?_
  rw [entry_sub hslices, entry_slice, entry_slice, if_pos hlt, if_pos hlt]
  rfl

/-! ### The block as a system -/

/-- The range of a block lies within the slots, if it is not empty. -/
theorem slice_setUnknowns (h : AffineBlock m start strict a b) (hs : a.Follows s.assembly)
    {x : Array α} (hx : x.size = b.range.size) : b.unknowns (b.setUnknowns x s) = x := by
  by_cases hempty : b.range.size = 0
  · refine ext_entry ((size_slice _ _).trans hx.symm) fun k hk => ?_
    rw [unknowns, size_slice, hempty] at hk
    exact absurd hk (Nat.not_lt_zero k)
  · refine slice_splice_self hx ?_
    -- the last slot is an output of a unit
    have hlast : b.range.stop - 1 ∈ b.range := by
      simp only [Span.size] at hempty
      exact ⟨by omega, by omega⟩
    obtain ⟨u, hu, hlastu⟩ := exists_unit_of_mem_range h.fits hlast
    obtain ⟨_, _, -, -, -, hhosts, -⟩ := h.unit hu hs
    have hinside := hhosts.outputs_le
    obtain ⟨-, hstop⟩ := hlastu
    omega

/-- **A block of affine units is an affine system.** -/
theorem isAffine (h : AffineBlock m start strict a b) :
    (b.system start.arrangement strict).IsAffine b.range.size (b.ResidualAt start.arrangement a)
      (b.Fresh a) (b.Refreshed start.arrangement strict a) where
  guess s hs := h.guess_ok hs
  residuals s hs := by
    obtain ⟨r, a', hr, hevaluated, hresidual⟩ := h.residuals_ok hs.follows hs.others
    have hsame : b.unknowns ⟨a', s.jacobian⟩ = b.unknowns s :=
      congrArg (slice · b.range) hevaluated.slots
    rw [← hsame] at hresidual
    exact ⟨r, _, hr, hresidual, hs.evaluated hevaluated⟩
  linearize s hs := by
    obtain ⟨t, ht, hall, -⟩ := h.linearize_ok hs
    have hchanged : Changed start.arrangement b.unitIds [] s.assembly (stateAfter
        (Assembly.linearizeAll start.arrangement strict b.unitIds s.assembly)) :=
      changed_linearizeAll strict s.assembly
    rw [hall] at hchanged
    exact ⟨t, ht, congrArg (slice · b.range) hchanged.slots_eq, s, hs, ht⟩
  trial x t hx ht := by
    obtain ⟨hfollows, hothers⟩ := h.follows_of_refreshed ht
    have hmoved : a.Follows (b.setUnknowns x t).assembly :=
      .trans _ _ _ hfollows (t.assembly.follows_withSpan b.range x)
    obtain ⟨r, a', hr, -, hresidual⟩ := h.residuals_ok hmoved fun k hk =>
      (entry_splice_of_notMem hk).trans (hothers k hk)
    rw [h.slice_setUnknowns hfollows hx] at hresidual
    exact ⟨r, _, hr, hresidual⟩
  size x r := by
    rintro ⟨slots, buffer, rfl, rfl, -⟩
    exact ⟨size_slice _ _, size_slice _ _⟩
  dim t ht := (h.operator_spec ht).1
  derivative t ht x r x' r' hr hr' := h.derivative ht hr hr'

end AffineBlock

end Mdao
