import Mathlib
import Mdao.Proofs.Linear.Exact
import Mdao.Proofs.Scalar.Order

/-!
# What linear solves report

Whatever a linear solver remembers, a solution it gives is judged against the operator of that call:
the norm that it reports is that of the residual it leaves (`LinearSolution.Measured`), an iterative
solver counts no more iterations than allowed, and a solve that ends by their number has used all of
them (`LinearSolution.Counted`). The lemmas about GMRES are about any preconditioner with any state.

A cycle of GMRES makes at least one inner iteration and at most as many as are left
(`Gmres.cycle_columns`), so the bound on the number of cycles is never what ends a solve
(`Gmres.cycles_enough`).
-/

namespace Mdao

variable {α : Type} [Scalar α]

/-- The reported norm is that of what a solution leaves of the right-hand side. -/
def LinearSolution.Measured (s : LinearSolution α) (op : Operator α) (rhs : Array α) (mode : Mode) :
    Prop :=
  ∃ r, op.residual rhs s.x mode = .ok r ∧ s.residualNorm = Vec.norm r

/-- What an iterative solver says of its solution: the norm is measured, no more iterations are counted
than allowed, `converged` is said of small norms only, and `maxIters` when all iterations are used. -/
structure LinearSolution.Counted (s : LinearSolution α) (op : Operator α) (rhs : Array α)
    (mode : Mode) (maxiter : ℕ) (small : α → Prop) : Prop where
  measured : s.Measured op rhs mode
  iters_le : s.iters ≤ maxiter
  converged : s.status = .converged → small s.residualNorm
  exhausted : s.status = .maxIters → s.iters = maxiter

variable {op : Operator α} {rhs x : Array α} {mode : Mode}

theorem linearResidual_eq_ok {r : Array α} :
    linearResidual op rhs x mode = .ok r ↔ op.residual rhs x mode = .ok r := by
  unfold linearResidual
  cases op.residual rhs x mode <;> simp

/-! ### GMRES -/

namespace Gmres

variable {ρ σ : Type} {precondition : Array α → EStateM LinearError ρ (Array α)}
  {s : GmresSettings α} {observer : Observer (LinearEvent α) σ} {tol : α}

theorem columns_extend (k : Krylov α) (z w : Array α) :
    (k.extend z w).1.columns.length = k.columns.length + 1 := by
  simp [Krylov.extend]

/-- One inner iteration, where the preconditioner answers and the operator as well. -/
theorem arnoldi_succ {rNorm : α} {fuel : Nat} {v z w : Array α} {k : Krylov α}
    {p p' : ρ} (hz : precondition v p = .ok z p') (hw : op.apply mode z = .ok w) :
    arnoldi precondition op mode rNorm tol (fuel + 1) v k p =
      if Scalar.abs (k.extend z w).1.remainder ≤ tol ∨
          (k.extend z w).2.2 ≤ Scalar.epsilon * rNorm then .ok (k.extend z w).1 p'
      else arnoldi precondition op mode rNorm tol fuel
        ((k.extend z w).2.1.map (· / (k.extend z w).2.2))
        { (k.extend z w).1 with
          basis := k.basis ++ [(k.extend z w).2.1.map (· / (k.extend z w).2.2)] } p' := by
  rw [arnoldi, bind_of_ok _ hz]
  dsimp only
  rw [hw]
  dsimp only
  rw [pure_bind]
  split_ifs <;> rfl

/-- Inner iterations add a column each: at least one and no more than allowed. -/
theorem arnoldi_columns {rNorm : α} {fuel : ℕ} {v : Array α} {k k' : Krylov α} {p p' : ρ}
    (h : arnoldi precondition op mode rNorm tol fuel v k p = .ok k' p') :
    k.columns.length + min fuel 1 ≤ k'.columns.length ∧
      k'.columns.length ≤ k.columns.length + fuel := by
  induction fuel generalizing v k p with
  | zero =>
    cases h
    exact ⟨le_rfl, le_rfl⟩
  | succ fuel ih =>
    obtain ⟨z, p₁, hz, hnext⟩ := exists_of_bind_eq_ok h
    cases happly : op.apply mode z with
    | error e =>
      rw [happly] at hnext
      obtain ⟨_, _, hthrow, -⟩ := exists_of_bind_eq_ok hnext
      cases hthrow
    | ok w =>
      rw [arnoldi_succ hz happly] at h
      have hextend := columns_extend k z w
      split_ifs at h
      · cases h
        omega
      · have hrest := ih h
        dsimp only at hrest
        omega

/-- A cycle makes at least one inner iteration, and no more than are left. -/
theorem cycle_columns {r : Array α} {rNorm : α} {budget : ℕ} (hbudget : 0 < budget) {k : Krylov α}
    {p p' : ρ} (h : cycle s precondition op r rNorm tol mode budget p = .ok k p') :
    1 ≤ k.columns.length ∧ k.columns.length ≤ budget := by
  obtain ⟨hlow, hhigh⟩ := arnoldi_columns h
  have hstart : (Krylov.start r rNorm).columns.length = 0 := rfl
  omega

/-- A solve ends where a residual is looked at, or goes on from this residual. -/
theorem of_look {goOn : Array α → EStateM LinearError (ρ × σ) (LinearSolution α)} {count iters : ℕ}
    {p : ρ × σ} {solution : LinearSolution α} {p' : ρ × σ}
    (h : look op rhs mode observer tol count iters x goOn p = .ok solution p') :
    ∃ r, op.residual rhs x mode = .ok r ∧
      (solution = ⟨.stoppedByObserver, x, iters, Vec.norm r⟩ ∨
        solution = ⟨.converged, x, iters, Vec.norm r⟩ ∧ Vec.norm r ≤ tol ∨
        ∃ q, goOn r q = .ok solution p') := by
  unfold look at h
  cases hresidual : linearResidual op rhs x mode with
  | error e =>
    rw [hresidual] at h
    cases h
  | ok r =>
    rw [hresidual] at h
    refine ⟨r, linearResidual_eq_ok.1 hresidual, ?_⟩
    dsimp only at h
    split_ifs at h with hstop hsmall
    · cases h
      exact .inl rfl
    · cases h
      exact .inr (.inl ⟨rfl, hsmall⟩)
    · exact .inr (.inr ⟨_, h⟩)

/-- **Cycles report what they leave**, with no more iterations than allowed. -/
theorem cycles_counted {fuel count iters : ℕ} (hiters : iters ≤ s.maxiter)
    (hfuel : s.maxiter ≤ iters + fuel) {p : ρ × σ} {solution : LinearSolution α} {p' : ρ × σ}
    (h : cycles s precondition op rhs mode observer tol fuel count iters x p = .ok solution p') :
    solution.Counted op rhs mode s.maxiter (· ≤ tol) := by
  -- each cycle uses up an iteration at least, so when the cycles are used up the iterations are
  induction fuel generalizing count iters x p with
  | zero =>
    unfold cycles at h
    obtain ⟨r, hr, rfl | ⟨rfl, hsmall⟩ | ⟨q, hq⟩⟩ := of_look h
    · exact ⟨⟨r, hr, rfl⟩, hiters, nofun, nofun⟩
    · exact ⟨⟨r, hr, rfl⟩, hiters, fun _ => hsmall, nofun⟩
    · cases hq
      exact ⟨⟨r, hr, rfl⟩, hiters, nofun, fun _ => le_antisymm hiters hfuel⟩
  | succ fuel ih =>
    unfold cycles at h
    obtain ⟨r, hr, rfl | ⟨rfl, hsmall⟩ | ⟨⟨q, o⟩, hq⟩⟩ := of_look h
    · exact ⟨⟨r, hr, rfl⟩, hiters, nofun, nofun⟩
    · exact ⟨⟨r, hr, rfl⟩, hiters, fun _ => hsmall, nofun⟩
    · dsimp only at hq
      split_ifs at hq with hmax
      · cases hq
        exact ⟨⟨r, hr, rfl⟩, hiters, nofun, fun _ => le_antisymm hiters hmax⟩
      · cases hcycle : cycle s precondition op r (Vec.norm r) tol mode (s.maxiter - iters) q with
        | error e q' =>
          rw [hcycle] at hq
          cases hq
        | ok k q' =>
          rw [hcycle] at hq
          obtain ⟨hlow, hhigh⟩ := cycle_columns (by omega) hcycle
          exact ih (by omega) (by omega) hq

/-- **As many cycles as there are iterations are enough**: no more are made however many are allowed. -/
theorem cycles_enough (fuel more : ℕ) {count iters : ℕ} (hfuel : s.maxiter ≤ iters + fuel) :
    cycles s precondition op rhs mode observer tol (fuel + more) count iters x =
      cycles s precondition op rhs mode observer tol fuel count iters x := by
  induction fuel generalizing count iters x with
  | zero =>
    cases more with
    | zero => rfl
    | succ more =>
      rw [Nat.zero_add, cycles, cycles]
      congr 1
      funext r ⟨q, o⟩
      exact if_pos hfuel
  | succ fuel ih =>
    rw [Nat.succ_add, cycles, cycles]
    congr 1
    funext r ⟨q, o⟩
    dsimp only
    split_ifs with hmax
    · rfl
    · cases hcycle : cycle s precondition op r (Vec.norm r) tol mode (s.maxiter - iters) q with
      | error e q' => rfl
      | ok k q' =>
        obtain ⟨hlow, -⟩ := cycle_columns (by omega) hcycle
        exact congrFun (ih (by omega)) _

/-- **GMRES reports what it leaves**, from any guess and with any preconditioner. -/
theorem solve_counted {guess : Array α} {p : ρ × σ} {solution : LinearSolution α} {p' : ρ × σ}
    (h : solve s precondition op rhs guess mode observer p = .ok solution p') :
    solution.Counted op rhs mode s.maxiter
      (· ≤ Scalar.maxNum s.atol (s.rtol * Vec.norm rhs)) :=
  cycles_counted (Nat.zero_le _) (by omega) h

end Gmres

/-! ### Sweeps -/

namespace Diagonal

variable {σ : Type} {kind : SweepKind} {s : SweepSettings α}
  {observer : Observer (LinearEvent α) σ}

/-- Repeated sweeps report what they leave. -/
theorem repeatSweeps_counted {initialNorm residualNorm : α} {fuel iters : ℕ}
    (hfuel : iters + fuel = s.maxiter)
    (hx : ∃ r, op.residual rhs x mode = .ok r ∧ residualNorm = Vec.norm r)
    {p : Diagonal α × σ} {solution : LinearSolution α} {p' : Diagonal α × σ}
    (h : repeatSweeps kind s op rhs mode observer initialNorm fuel iters x residualNorm p =
      .ok solution p') :
    solution.Counted op rhs mode s.maxiter fun r => isSmall s initialNorm r = true := by
  induction fuel generalizing iters x residualNorm p with
  | zero =>
    cases h
    exact ⟨hx, by dsimp only; omega, nofun, fun _ => hfuel⟩
  | succ fuel ih =>
    obtain ⟨d, o⟩ := p
    unfold repeatSweeps at h
    dsimp only at h
    cases hsweep : sweep kind op rhs x mode d with
    | error e d' =>
      rw [hsweep] at h
      cases h
    | ok y d' =>
      rw [hsweep] at h
      dsimp only at h
      cases hresidual : linearResidual op rhs y mode with
      | error e =>
        rw [hresidual] at h
        cases h
      | ok r =>
        rw [hresidual] at h
        have hy := linearResidual_eq_ok.1 hresidual
        dsimp only at h
        split_ifs at h with hstop hsmall
        · cases h
          exact ⟨⟨r, hy, rfl⟩, by dsimp only; omega, nofun, nofun⟩
        · cases h
          exact ⟨⟨r, hy, rfl⟩, by dsimp only; omega, fun _ => hsmall, nofun⟩
        · exact ih (by omega) ⟨r, hy, rfl⟩ h

/-- **Sweeps report what they leave**, from any guess and with any factors. -/
theorem iterate_counted {guess : Array α} {p : Diagonal α × σ} {solution : LinearSolution α}
    {p' : Diagonal α × σ}
    (h : iterate kind s op rhs guess mode observer p = .ok solution p') :
    ∃ r, op.residual rhs guess mode = .ok r ∧
      solution.Counted op rhs mode s.maxiter fun n => isSmall s (Vec.norm r) n = true := by
  unfold iterate at h
  cases hresidual : linearResidual op rhs guess mode with
  | error e =>
    rw [hresidual] at h
    cases h
  | ok r =>
    rw [hresidual] at h
    have hr := linearResidual_eq_ok.1 hresidual
    refine ⟨r, hr, ?_⟩
    dsimp only at h
    split_ifs at h with hsmall
    · cases h
      exact ⟨⟨r, hr, rfl⟩, Nat.zero_le _, fun _ => hsmall, nofun⟩
    · exact repeatSweeps_counted (Nat.zero_add _) ⟨r, hr, rfl⟩ h

/-- A single sweep reports what it leaves. -/
theorem runOnce_measured {d d' : Diagonal α} {solution : LinearSolution α}
    (h : runOnce op rhs mode d = .ok solution d') : solution.Measured op rhs mode := by
  unfold runOnce at h
  cases hdim : checkDim op rhs with
  | error e =>
    rw [hdim] at h
    cases h
  | ok _ =>
    rw [hdim] at h
    dsimp only at h
    cases hsweep : sweep .gaussSeidel op rhs (Vec.zeros op.dim) mode d with
    | error e d' =>
      rw [hsweep] at h
      cases h
    | ok y d' =>
      rw [hsweep] at h
      dsimp only at h
      cases hresidual : linearResidual op rhs y mode with
      | error e =>
        rw [hresidual] at h
        cases h
      | ok r =>
        rw [hresidual] at h
        cases h
        exact ⟨r, linearResidual_eq_ok.1 hresidual, rfl⟩

end Diagonal

/-! ### Direct solves -/

/-- **A direct solve reports what it leaves**, and it leaves little, whatever the factors. -/
theorem Direct.solveWith_measured {f : Factors α} {solution : LinearSolution α}
    (h : solveWith f op rhs mode = .ok solution) :
    solution.Measured op rhs mode ∧ ¬ tolerance rhs < solution.residualNorm := by
  obtain ⟨x, -, h⟩ := bind_eq_ok.1 h
  obtain ⟨r, hr, h⟩ := bind_eq_ok.1 h
  dsimp only at h
  split_ifs at h with hlarge
  · cases h
  · cases h
    exact ⟨⟨r, linearResidual_eq_ok.1 hr, rfl⟩, hlarge⟩

theorem Direct.solve_measured {kept kept' : Option (Factors α)} {solution : LinearSolution α}
    (h : solve op rhs mode kept = .ok solution kept') :
    solution.Measured op rhs mode ∧ ¬ tolerance rhs < solution.residualNorm := by
  unfold solve at h
  cases hdim : checkDim op rhs with
  | error e =>
    rw [hdim] at h
    cases h
  | ok _ =>
    rw [hdim] at h
    dsimp only at h
    cases hfactors : factorsFor kept op with
    | error e =>
      rw [hfactors] at h
      cases h
    | ok f =>
      rw [hfactors] at h
      dsimp only at h
      cases hsolve : solveWith f op rhs mode with
      | error e =>
        rw [hsolve] at h
        cases h
      | ok s =>
        rw [hsolve] at h
        cases h
        exact solveWith_measured hsolve

/-! ### Small norms without rounding -/

section

variable {β : Type} [ExactScalar β]

theorem Direct.tolerance_eq (rhs : Array β) :
    tolerance rhs = 1e-6 * max (Vec.norm rhs) Scalar.minPositive := by
  rw [tolerance, Scalar.maxNum_eq_max]

/-- A norm is small by itself, or against the initial one. -/
theorem Diagonal.of_isSmall {s : SweepSettings β} {initialNorm n : β}
    (h : isSmall s initialNorm n = true) : n ≤ s.atol ∨ n ≤ s.rtol * initialNorm := by
  simp only [isSmall, Bool.or_eq_true, Bool.and_eq_true, decide_eq_true_eq] at h
  exact h.imp_right fun ⟨hpos, hle⟩ => (div_le_iff₀ hpos).1 hle

end

end Mdao
