import Mathlib
import Mdao.Proofs.Model.AffineBlocks
import Mdao.Proofs.Model.Checked
import Mdao.Proofs.Model.History

/-!
# Newton's method on blocks of affine units

A block of affine units is an affine system, so Newton's method without bounds solves it in at most
one iteration, whatever the values it starts from, and whether the Jacobian is kept as a matrix or
not (`Problem.runBlock_of_affine`). What it needs is that the first trial of a search is the whole
step, and that linear solves with the block's Jacobian are exact; direct solves are, unless the
factors count as singular (`AffineBlock.solvesOnce_direct`).
-/

namespace Mdao

open Vec

variable {α : Type} [ExactScalar α]

/-! ### Settings that pass their checks -/

/-- Newton's method has tolerances by default. -/
theorem isTolerance_default : isTolerance (1e-10 : α) = true := by
  have hnonneg : ¬ ((1e-10 : α) < 0) := by
    rw [ExactScalar.ofScientific_eq]
    norm_num
  simp [isTolerance, ExactScalar.isFinite_eq, hnonneg]

/-- The search of a step with default settings passes its check. -/
theorem LineSearchSettings.validate_default :
    (LineSearchSettings.default : LineSearchSettings α).validate = .ok () := by
  have hc : (0 : α) < 0.1 ∧ (0.1 : α) < 1 := by
    rw [ExactScalar.ofScientific_eq]
    norm_num
  have hrho : (0 : α) < 0.5 ∧ (0.5 : α) < 1 := by
    rw [ExactScalar.ofScientific_eq]
    norm_num
  have halpha : (0 : α) < 1.0 ∧ (1.0 : α) ≤ 1 := by
    rw [ExactScalar.ofScientific_eq]
    norm_num
  simp [LineSearchSettings.validate, LineSearchSettings.default, hc, hrho, halpha]

/-- So does Newton's method. -/
theorem BlockOptions.validate_newton :
    (BlockOptions.newton : BlockOptions α).validate = .ok () := by
  have hsettings : (NewtonSettings.default : NewtonSettings α).validate = .ok () := by
    simp only [NewtonSettings.validate, checkNonlinearTolerances, checkTolerances,
      NewtonSettings.default, isTolerance_default, Bool.not_true,
      LineSearchSettings.validate_default]
    rfl
  simp only [validate, newton, NonlinearConfig.validate, hsettings, LinearConfig.validate]

theorem LineSearchSettings.c_lt_one {s : LineSearchSettings α} (h : s.validate = .ok ()) :
    s.c < 1 := by
  unfold validate at h
  split_ifs at h with hc
  exact hc.2

/-- Where the solvers of a block pass their check, a search asks for less than a decrease to zero. -/
theorem BlockOptions.c_lt_one {o : BlockOptions α} (h : o.validate = .ok ()) {s : NewtonSettings α}
    (hs : o.nonlinear = .newton s) : s.lineSearch.c < 1 := by
  simp only [validate, hs, NonlinearConfig.validate] at h
  split at h
  · cases h
  · rename_i hsettings
    unfold NewtonSettings.validate at hsettings
    split at hsettings
    · exact LineSearchSettings.c_lt_one hsettings
    · cases hsettings

namespace SolverOptions

variable {o : SolverOptions α}

/-- Named solvers pass their checks if all of them do. -/
theorem validate_of_mem {blocks : List (String × BlockOptions α)}
    (h : validateBlocks blocks = .ok ()) {e : String × BlockOptions α} (he : e ∈ blocks) :
    e.2.validate = .ok () := by
  induction blocks with
  | nil => cases he
  | cons d rest ih =>
    unfold validateBlocks at h
    split at h
    · cases h
    · rename_i hfirst
      rcases List.mem_cons.1 he with rfl | he
      · exact hfirst
      · exact ih h he

/-- Options that pass their check have solvers that do. -/
theorem validate_solvers [Shown α] (h : o.validate = .ok ()) :
    (∀ root, o.root = some root → root.validate = .ok ()) ∧ validateBlocks o.blocks = .ok () := by
  unfold validate at h
  cases hsome : o.root with
  | none =>
    simp only [hsome] at h
    obtain ⟨_, hblocks, -⟩ := bind_eq_ok.1 h
    exact ⟨fun root hroot => (nomatch hroot), hblocks⟩
  | some root =>
    simp only [hsome] at h
    obtain ⟨_, hroot, h⟩ := bind_eq_ok.1 h
    obtain ⟨_, hblocks, -⟩ := bind_eq_ok.1 h
    exact ⟨fun root' heq => Option.some.inj heq ▸ hroot, hblocks⟩

end SolverOptions

namespace Model

variable [Shown α] {m : Model α}

/-- **The solvers of a group pass their check**, if the options of the model do. -/
theorem validate_solversFor (h : m.options.validate = .ok ()) (g : Group) :
    (m.solversFor g).validate = .ok () := by
  obtain ⟨hroot, hblocks⟩ := SolverOptions.validate_solvers h
  unfold solversFor
  split
  · exact hroot _ ‹_›
  · dsimp only
    cases hnamed : g.unitIds.findSome? fun u =>
        m.units[u]?.bind fun c => m.options.blocks.lookup c.name with
    | none =>
      show (m.defaultSolvers g).validate = .ok ()
      unfold defaultSolvers
      repeat' split
      all_goals first | rfl | exact BlockOptions.validate_newton
    | some o =>
      obtain ⟨u, -, hu⟩ := List.exists_of_findSome?_eq_some hnamed
      obtain ⟨c, -, hlookup⟩ := Option.bind_eq_some_iff.1 hu
      obtain ⟨before, after, heq, -⟩ := List.lookup_eq_some_iff.1 hlookup
      refine SolverOptions.validate_of_mem (e := (c.name, o)) hblocks ?_
      rw [heq]
      exact List.mem_append_right _ List.mem_cons_self

/-- The solvers of a block pass their check, however the problem has been used. -/
theorem validate_block {start p : Problem α} (hm : m.Sound) (hsetup : m.setup = .ok start)
    (hp : start.Aged p) {k : Nat} {b : SolverBlock α} (hb : p.blocks[k]? = some b) :
    b.options.validate = .ok () := by
  obtain ⟨b₀, hb₀, hremakes⟩ := hp.exists_block hb
  obtain ⟨g, rfl⟩ := (setup_spec hm hsetup).eq_blockOf (Array.mem_of_getElem? hb₀)
  obtain ⟨_, hvalid, -⟩ := bind_eq_ok.1 hsetup
  rw [hremakes.options]
  exact validate_solversFor hvalid g

end Model

/-! ### Linear solves -/

/-- Solves that are exact from what a setup remembers. -/
theorem LinearConfig.SolvesFrom.solvesOnce {config : LinearConfig α} {op : Operator α}
    {Ready : LinearMemory α → Prop} (h : config.SolvesFrom op Ready) {m m' : LinearMemory α}
    (hsetup : config.setup op m = .ok () m') (hready : Ready m') :
    config.solver.SolvesOnce op m := by
  refine ⟨m', hsetup, fun rhs hrhs => ?_⟩
  obtain ⟨s, m'', hs, -, hsize, happly⟩ := h m' hready .fwd rhs hrhs
  exact ⟨s, m'', hs, hsize, happly⟩

/-- **Direct solves are exact unless the factors count as singular**, whatever is remembered. -/
theorem Direct.solvesOnce {op : Operator α} {n : Nat} {J : Matrix (Fin n) (Fin n) α}
    (hop : op.IsMatrix J)
    (hblock : op.diagonalBlock (.upTo op.dim) = .ok (Factors.rowsOf J))
    (hregular : (Factors.ofRows n (Factors.rowsOf J)).isSingular = false) (m : LinearMemory α) :
    LinearConfig.direct.solver.SolvesOnce op m :=
  (solvesFrom hop.dim.symm (exists_solution_of_regular hop hregular)).solvesOnce
    (setup_eq (factorize_eq hop.dim hblock) m) rfl

namespace AffineBlock

variable {m : Model α} {start : Problem α} {strict : Option α} {a : Assembly α} {b : SolverBlock α}
  {t : SolverBlock.State α}

/-- Direct solves with the Jacobian of a block are exact unless its factors count as singular,
assembled or not. -/
theorem solvesOnce_direct (h : AffineBlock m start strict a b)
    (ht : b.Refreshed start.arrangement strict a t)
    (hregular : (Factors.ofRows b.range.size
      (Factors.rowsOf (b.matrix start.arrangement t))).isSingular = false) (mem : LinearMemory α) :
    LinearConfig.direct.solver.SolvesOnce (b.operator start.arrangement t) mem := by
  obtain ⟨hdim, -, hdiagonal⟩ := h.operator_spec ht
  refine Direct.solvesOnce (h.isMatrix ht) ?_ hregular mem
  rw [hdiagonal, hdim, Operator.blockOfMatrix_upTo]
  rfl

end AffineBlock

/-! ### Solving a block -/

/-- The operator of a block **is the derivative of its residuals**: it makes of the difference of
any two vectors of unknowns that of the residuals there, with all other slots held fixed. -/
def SolverBlock.Derives (b : SolverBlock α) (l : Arrangement α) (t : State α) : Prop :=
  ∀ x x' : Array α, x.size = b.range.size → x'.size = b.range.size → ∃ r r' t₁ t₂,
    b.residuals l (b.setUnknowns x t) = .ok r t₁ ∧ b.residuals l (b.setUnknowns x' t) = .ok r' t₂ ∧
      (b.operator l t).apply .fwd (sub x' x) = .ok (sub r' r)

/-- What a block returns as its residuals is left in the buffer. -/
theorem SolverBlock.slice_residuals {b : SolverBlock α} {l : Arrangement α} {s t : State α}
    {r : Array α} (h : b.residuals l s = .ok r t) :
    slice t.assembly.store.residuals b.range = r := by
  unfold residuals at h
  split at h
  · cases h
    rfl
  · cases h

theorem AffineBlock.derives {m : Model α} {start : Problem α} {strict : Option α} {a : Assembly α}
    {b : SolverBlock α} {t : SolverBlock.State α} (h : AffineBlock m start strict a b)
    (ht : b.Refreshed start.arrangement strict a t) : b.Derives start.arrangement t := by
  intro x x' hx hx'
  obtain ⟨r, t₁, hresiduals, hr⟩ := h.isAffine.trial x t hx ht
  obtain ⟨r', t₂, hresiduals', hr'⟩ := h.isAffine.trial x' t hx' ht
  exact ⟨r, r', t₁, t₂, hresiduals, hresiduals', h.derivative ht hr hr'⟩

namespace Problem

open Model

variable [Shown α] {m : Model α} {start p : Problem α} {k : Nat} {b : SolverBlock α}

/-- A block of a problem that has been used, if its units are affine. -/
theorem Aged.affineBlock (hm : m.Built) (h : IsSetUp m start) (hp : start.Aged p)
    (hb : p.blocks[k]? = some b) {strict : Option α} (hunits : ∀ u ∈ b.unitIds, ∀ c,
      p.assembly.units[u]? = some c → c.LinearizesExactly strict) :
    AffineBlock m start strict p.assembly b := by
  have hmem := Array.mem_of_getElem? hb
  obtain ⟨hfits, hsublist⟩ := (hp.follows.laid_blocks hm.sound h).1 b (Array.mem_toList_iff.2 hmem)
  exact ⟨hm, h, hp.follows.assembly, hsublist, hfits, hp.blocks b hmem, hunits⟩

/-- **Newton's method solves a block of affine units in one iteration**, however the problem has
been used before, whatever its slots are, and whether the Jacobian is kept as a matrix or not. The
units are affine with exact derivatives wherever they are linearized; implicit ones solve themselves
where they are asked to; there are no bounds, the first trial of a search of any kind is the whole
step, and linear solves with the block's Jacobian, which is nonsingular, are exact. The solve
converges, in one iteration if it needs any, and leaves no residuals then. The operator of the block
is the derivative of its residuals. -/
theorem runBlock_of_affine [BitPattern α] (hm : m.Built) (hsetup : m.setup = .ok start)
    (hp : start.Reached p) {slots : Array α} (hslots : slots.size = p.store.slots.size)
    (hb : p.blocks[k]? = some b) {config : NewtonSettings α}
    (hnewton : b.options.nonlinear = .newton config)
    (hmaxiter : 1 ≤ config.maxiter) (hatol : 0 < config.atol) (halpha : config.lineSearch.alpha = 1)
    (hbounds : ∀ i, LineSearch.boundAt b.lower i = none ∧ LineSearch.boundAt b.upper i = none)
    (hunits : ∀ u ∈ b.unitIds, ∀ c, p.assembly.units[u]? = some c →
      c.LinearizesExactly p.options.strictPartials)
    (hswept : config.solveSubsystems = true → ∀ u ∈ b.unitIds, ∀ c, p.assembly.units[u]? = some c →
      c.isImplicit = true → ∀ x y, x.size = c.inputs.size → y.size = c.outputs.size →
        ∃ itself y', c.solve x y = .ok itself y')
    (hregular : ∀ t, b.Refreshed p.arrangement p.options.strictPartials
      (p.withSlots slots).assembly t → (b.matrix p.arrangement t).det ≠ 0)
    (hlinear : ∀ t, b.Refreshed p.arrangement p.options.strictPartials
      (p.withSlots slots).assembly t → (b.matrix p.arrangement t).det ≠ 0 →
        b.options.linear.solver.SolvesOnce (b.operator p.arrangement t) b.memory)
    {ω : Type} {observer : Observer (NonlinearEvent α) ω}
    (hobserver : ∀ e w, (observer.stops e w).1 = false) (w : ω) :
    (∀ s, b.Fresh (p.withSlots slots).assembly s →
      ∃ t, b.linearize p.arrangement p.options.strictPartials s = .ok () t ∧
        (b.operator p.arrangement t).IsMatrix (b.matrix p.arrangement t) ∧
        b.Derives p.arrangement t) ∧
    ∃ report q w', runBlock observer k b (p.withSlots slots, w) = .ok report (q, w') ∧
      report.solution.status = .converged ∧ report.solution.iters ≤ 1 ∧
      (report.solution.iters = 1 → slice q.store.residuals b.range = zeros b.range.size) := by
  have h := setup_spec hm.sound hsetup
  have haged : start.Aged (p.withSlots slots) :=
    ((keptByUse_aged hm.sound h).withSlots p hslots).2 (hp.aged hm.sound h)
  have harrangement : (p.withSlots slots).arrangement = start.arrangement :=
    haged.follows.arrangement
  rw [show p.arrangement = start.arrangement from harrangement] at *
  have haffine : AffineBlock m start p.options.strictPartials (p.withSlots slots).assembly b :=
    haged.affineBlock hm h hb hunits
  have hderives : ∀ s, b.Fresh (p.withSlots slots).assembly s →
      ∃ t, b.linearize start.arrangement p.options.strictPartials s = .ok () t ∧
        (b.operator start.arrangement t).IsMatrix (b.matrix start.arrangement t) ∧
        b.Derives start.arrangement t := fun s hs => by
    obtain ⟨t, ht, -⟩ := haffine.linearize_ok hs
    exact ⟨t, ht, haffine.isMatrix ⟨s, hs, ht⟩, haffine.derives ⟨s, hs, ht⟩⟩
  refine ⟨hderives, ?_⟩
  have hc := BlockOptions.c_lt_one (validate_block hm.sound hsetup haged hb) hnewton
  have hsolves : config.solveSubsystems = true → ∀ u ∈ b.unitIds, ∀ c,
      p.assembly.units[u]? = some c → ∀ x y, x.size = c.inputs.size → y.size = c.outputs.size →
        ∃ itself y', c.solve x y = .ok itself y' := fun hsub u hu c hc x y hx hy => by
    cases himplicit : c.isImplicit with
    | true => exact hswept hsub u hu c hc himplicit x y hx hy
    | false => exact (hunits u hu c hc).solve_ok himplicit hx hy
  obtain ⟨solution, t, hsolve, hstatus, hiters, hevaluated⟩ := Newton.solve_of_affine
    haffine.isAffine hbounds hmaxiter hatol halpha hc.le
    (fun hsub _ hs => haffine.sweep_ok (hsolves hsub) hs)
    (fun t ht => hlinear t ht (hregular t ht)) hobserver (.refl b _) w
  refine ⟨⟨b.name, b.options.nonlinear.label, solution⟩, ((p.withSlots slots).afterBlock k t).1,
    t.watch, ?_, hstatus, hiters, fun hone => ?_⟩
  · unfold runBlock NonlinearConfig.solve
    dsimp only
    rw [harrangement, hnewton, NonlinearConfig.solveWith]
    simp only [show (p.withSlots slots).options = p.options from rfl, hsolve]
    rfl
  · obtain ⟨_, hresiduals⟩ := hevaluated hone
    exact SolverBlock.slice_residuals hresiduals

end Problem

/-! ### Two units in a loop -/

namespace Doubling

open Problem Model

/-- Each of two units doubles what the other gives. -/
def loop : Model ℚ := okOr .empty (chain.connect "second.y" "double.x")

theorem connect_loop : chain.connect "second.y" "double.x" = .ok loop :=
  eq_ok_of_isOk _ (by with_unfolding_all decide)

theorem built_loop : loop.Built := .connect built_chain connect_loop

theorem units_loop : loop.units = #[component, second] := by
  obtain ⟨_, _, _, _, _, _, hjoins⟩ := Model.joins_of_connect connect_loop
  rw [hjoins.result]
  exact units_chain

/-- The loop, ready to run. -/
def coupled : Problem ℚ := okOr problem loop.setup

theorem setup_loop : loop.setup = .ok coupled := eq_ok_of_isOk _ (by with_unfolding_all decide)

theorem isSetUp_loop : IsSetUp loop coupled := setup_spec built_loop.sound setup_loop

/-- The block of both units; its solver is the default one, with a direct linear solver. -/
def pair : SolverBlock ℚ := loop.blockOf coupled.arrangement ⟨"[double, second]", [0, 1], true⟩

theorem blocks_coupled : coupled.blocks = #[pair] := by
  obtain ⟨gs, hgs, hblocks⟩ := isSetUp_loop.blocks
  have hgroups : loop.groups = .ok [⟨"[double, second]", [0, 1], true⟩] := by with_unfolding_all rfl
  obtain rfl := Except.ok.inj (hgroups.symm.trans hgs)
  have hroot : loop.options.root.isSome = false := by with_unfolding_all rfl
  rw [hroot] at hblocks
  exact Array.toList_inj.1 hblocks

theorem options_pair : pair.options = .newton := by with_unfolding_all rfl

theorem unbounded_pair (i : Nat) :
    LineSearch.boundAt pair.lower i = none ∧ LineSearch.boundAt pair.upper i = none := by
  have hlower : pair.lower = #[none, none] := by with_unfolding_all rfl
  have hupper : pair.upper = #[none, none] := by with_unfolding_all rfl
  have hnone : (#[none, none] : Array (Option ℚ)).getD i none = none := by
    rw [Array.getD_eq_getD_getElem?]
    rcases i with _ | _ | i <;> rfl
  rw [hlower, hupper]
  exact ⟨hnone, hnone⟩

theorem strictPartials_coupled : coupled.options.strictPartials = none := by with_unfolding_all rfl

theorem isDoubling_loop {u : Nat} {c : Component ℚ} (hc : coupled.assembly.units[u]? = some c) :
    IsDoubling c := by
  rw [isSetUp_loop.units, units_loop, ← units_chain] at hc
  exact isDoubling_chain c (Array.mem_of_getElem? hc)

theorem linearizesExactly_loop {u : Nat} {c : Component ℚ}
    (hc : coupled.assembly.units[u]? = some c) : c.LinearizesExactly none := fun x y _ _ =>
  have h := isDoubling_loop hc
  ⟨c, h.linearize_eq x y, h.affineWith.isAffine h.hasSlopes x y⟩

/-- The pair from whatever outputs. -/
theorem affineBlock_pair {slots : Array ℚ} (hslots : slots.size = coupled.store.slots.size) :
    AffineBlock loop coupled none (coupled.withSlots slots).assembly pair := by
  have haged : coupled.Aged (coupled.withSlots slots) :=
    ((keptByUse_aged built_loop.sound isSetUp_loop).withSlots coupled hslots).2
      (.refl isSetUp_loop)
  have hblock : (coupled.withSlots slots).blocks[0]? = some pair := by
    show coupled.blocks[0]? = some pair
    rw [blocks_coupled]
    rfl
  exact haged.affineBlock built_loop isSetUp_loop hblock fun u _ c hc => linearizesExactly_loop hc

/-- Linearizing the pair leaves the units as they are. -/
theorem units_of_refreshed {slots : Array ℚ} (hslots : slots.size = coupled.store.slots.size)
    {t : SolverBlock.State ℚ}
    (ht : pair.Refreshed coupled.arrangement none (coupled.withSlots slots).assembly t) :
    t.assembly.units = coupled.assembly.units := by
  have h := affineBlock_pair hslots
  have hsize : t.assembly.units.size = coupled.assembly.units.size :=
    (h.follows_of_refreshed ht).1.units.size
  refine Array.ext hsize fun u hu hu' => ?_
  have hmem : u ∈ pair.unitIds := by
    rw [isSetUp_loop.units, units_loop] at hu'
    exact List.mem_range.2 hu'
  obtain ⟨c, c', hc, hc', hlinearize, -⟩ := h.linearize_unit ht hmem
  replace hc : coupled.assembly.units[u]? = some c := hc
  rw [(isDoubling_loop hc).linearize_eq] at hlinearize
  cases hlinearize
  exact Option.some.inj ((Array.getElem?_eq_getElem hu).symm.trans (hc'.trans
    (hc.symm.trans (Array.getElem?_eq_getElem hu'))))

/-- The factors of its Jacobian do not count as singular. -/
theorem regular_pair {slots : Array ℚ} (hslots : slots.size = coupled.store.slots.size)
    {t : SolverBlock.State ℚ}
    (ht : pair.Refreshed coupled.arrangement none (coupled.withSlots slots).assembly t) :
    (Factors.ofRows pair.range.size
      (Factors.rowsOf (pair.matrix coupled.arrangement t))).isSingular = false := by
  rw [SolverBlock.matrix, SolverBlock.builtJacobian, units_of_refreshed hslots ht,
    ← Operator.blockOfMatrix_upTo]
  decide +kernel

/-- From any outputs that are not zero, one iteration leads to zero. -/
theorem runBlock_pair : loop.Built ∧ loop.setup = .ok coupled ∧ coupled.Reached coupled ∧
    coupled.blocks[0]? = some pair ∧ pair.options.nonlinear = .newton .default ∧
    ∃ report q w', runBlock .silent 0 pair (coupled.withSlots #[5, 7], ()) = .ok report (q, w') ∧
      report.solution.status = .converged ∧ report.solution.iters = 1 ∧
      slice q.store.residuals pair.range = #[0, 0] := by
  have hslots : (#[5, 7] : Array ℚ).size = coupled.store.slots.size := by decide +kernel
  have hblock : coupled.blocks[0]? = some pair := by
    rw [blocks_coupled]
    rfl
  have hnewton : pair.options.nonlinear = .newton .default := by
    rw [options_pair]
    rfl
  have hatol : (0 : ℚ) < NewtonSettings.default.atol := by with_unfolding_all decide
  have halpha : (NewtonSettings.default : NewtonSettings ℚ).lineSearch.alpha = 1 := by
    with_unfolding_all decide
  have hsilent : ∀ (e : NonlinearEvent ℚ) (w : Unit), (Observer.silent.stops e w).1 = false :=
    fun _ _ => rfl
  refine ⟨built_loop, setup_loop, .start, hblock, hnewton, ?_⟩
  obtain ⟨-, report, q, w', hrun, hstatus, hiters, hzero⟩ :=
    runBlock_of_affine built_loop setup_loop .start hslots hblock hnewton (by decide) hatol halpha unbounded_pair
    (fun u _ c hc => strictPartials_coupled ▸ linearizesExactly_loop hc)
    (fun hsub => nomatch hsub)
    (fun t ht => Factors.det_ne_zero_of_regular
      (regular_pair hslots (strictPartials_coupled ▸ ht)))
    (fun t ht _ => by
      rw [options_pair]
      exact (affineBlock_pair hslots).solvesOnce_direct (strictPartials_coupled ▸ ht)
        (regular_pair hslots (strictPartials_coupled ▸ ht)) _)
    hsilent ()
  have hone : report.solution.iters = 1 := by
    have htest : (resultOf (runBlock .silent 0 pair (coupled.withSlots #[5, 7], ()))).map
        (fun r => r.solution.iters) = some 1 := by decide +kernel
    rw [hrun] at htest
    exact Option.some.inj htest
  exact ⟨report, q, w', hrun, hstatus, hone, (hzero hone).trans (by decide +kernel)⟩

end Doubling

end Mdao
