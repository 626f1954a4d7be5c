import Mathlib
import Mdao.Proofs.Nonlinear.Truthful
import Mdao.Proofs.Scalar.Binary64

/-!
# Solves that start from residuals that are not finite

In double precision a residual norm may be infinite or undefined. A solver that looks at its initial
residuals again before it changes anything ends there: it has diverged. Newton's method with sweeps
does not look again, and a sweep may bring the residuals back. Then the initial norm is still the
one that the relative tolerance is taken of, and **every finite norm is small against an infinite
one** (`meetsTolerances_iff_of_not_isFinite`): the solve converges wherever the residuals are finite
(`NonlinearConfig.converged_of_not_isFinite`).
-/

namespace Mdao

open Binary64 (view)

variable {μ σ ω : Type}

/-- Whether a solver sweeps the subsystems before it looks whether its residuals are finite. -/
def NonlinearConfig.sweepsFirst {α : Type} : NonlinearConfig α → Bool
  | .newton s => s.solveSubsystems && decide (1 ≤ s.maxSubSolves)
  | _ => false

theorem view_norm_ne (r : Array Float) : view (Vec.norm r) ≠ .infinity .negative :=
  Binary64.view_sqrt_ne _

/-- A norm that is not finite does not meet the tolerances against itself. -/
theorem meetsTolerances_self {atol rtol : Float} {r : Array Float}
    (h : (Vec.norm r).isFinite = false) :
    meetsTolerances atol rtol (Vec.norm r) (Vec.norm r) = false := by
  rw [Bool.eq_false_iff, Ne, meetsTolerances_iff]
  rintro (hlt | ⟨-, hlt⟩)
  · exact Binary64.not_lt_of_not_isFinite (view_norm_ne r) h hlt
  · exact Binary64.not_div_lt h h hlt

/-- **Against an initial norm that is not finite**, a norm meets the tolerances if it is below the
absolute one, or if it is just finite, the initial one infinite and the relative tolerance positive. -/
theorem meetsTolerances_iff_of_not_isFinite {atol rtol : Float} {r₀ r : Array Float}
    (h : (Vec.norm r₀).isFinite = false) :
    meetsTolerances atol rtol (Vec.norm r₀) (Vec.norm r) = true ↔
      (Vec.norm r).isFinite = true ∧ (Vec.norm r < atol ∨ 0 < Vec.norm r₀ ∧ 0 < rtol) := by
  rw [meetsTolerances_iff]
  cases hr : (Vec.norm r).isFinite with
  | false =>
    refine iff_of_false ?_ fun hfinite => absurd hfinite.1 nofun
    rintro (hlt | ⟨-, hlt⟩)
    · exact Binary64.not_lt_of_not_isFinite (view_norm_ne r) hr hlt
    · exact Binary64.not_div_lt hr h hlt
  | true =>
    rw [and_iff_right rfl]
    refine or_congr_right (and_congr_right fun hpos => ?_)
    exact Binary64.div_lt_iff hr ((Binary64.zero_lt_iff h).1 hpos)

variable {config : NonlinearConfig Float} {rules : StoppingRules Float}
  {linear : LinearSolver Float μ} {sys : NonlinearSystem Float σ}
  {observer : Observer (NonlinearEvent Float) ω} {solution : Solution Float}
  {s s' : SolveState μ σ ω}

/-- Newton's method without a sweep ends before its first step. -/
theorem Newton.proceed_of_not_isFinite {config : NewtonSettings Float} {r : Array Float}
    {stop : Bool} (hsweeps : (NonlinearConfig.newton config).sweepsFirst = false)
    (hfinite : (Vec.norm r).isFinite = false)
    (h : proceed config linear sys observer r stop s = .ok solution s') :
    (solution.status = .diverged ∨ solution.status = .stoppedByObserver) ∧ solution.iters = 0 := by
  unfold proceed at h
  split_ifs at h with hstop hmeets
  · cases h
    exact ⟨.inr rfl, rfl⟩
  · rw [meetsTolerances_self hfinite] at hmeets
    cases hmeets
  · cases hfuel : config.maxiter with
    | zero =>
      rw [hfuel] at h
      obtain ⟨-, rfl⟩ := giveUp_eq_ok h
      exact ⟨.inl (if_neg (Bool.eq_false_iff.1 hfinite)), rfl⟩
    | succ fuel =>
      -- no sweep is due before the first step, so the residuals are still the initial ones
      have hprepare : (prepare config sys 1 r : SolveWith Float μ σ ω _) s = .ok r s := by
        unfold prepare
        split_ifs with hdue
        · exact absurd hdue (Bool.eq_false_iff.1 hsweeps)
        · rfl
      rw [hfuel, iterate, bind_of_ok _ hprepare] at h
      dsimp only at h
      split_ifs at h with hagain
      · exact absurd hagain (Bool.eq_false_iff.1 hfinite)
      · obtain ⟨-, rfl⟩ := giveUp_eq_ok h
        exact ⟨.inl rfl, rfl⟩

/-- Block Gauss-Seidel ends before its first sweep. -/
theorem GaussSeidel.proceed_of_not_isFinite {config : GaussSeidelSettings Float} {r : Array Float}
    {stop : Bool} (hfinite : (Vec.norm r).isFinite = false)
    (h : proceed config sys observer r stop s = .ok solution s') :
    (solution.status = .diverged ∨ solution.status = .stoppedByObserver) ∧ solution.iters = 0 := by
  unfold proceed at h
  split_ifs at h with hstop hmeets hdiverged
  · cases h
    exact ⟨.inr rfl, rfl⟩
  · rw [meetsTolerances_self hfinite] at hmeets
    cases hmeets
  · obtain ⟨-, rfl⟩ := giveUp_eq_ok h
    exact ⟨.inl rfl, rfl⟩
  · exact absurd (show (!Scalar.isFinite (Vec.norm r)) = true from congrArg _ hfinite) hdiverged

/-- **A solve that starts from residuals that are not finite** has diverged at once if it does not
sweep first, or has been stopped. If it does sweep first it has converged only with a finite norm,
below the absolute tolerance or, if the initial norm is infinite and the relative tolerance positive,
any. -/
theorem NonlinearConfig.converged_of_not_isFinite (hrules : config.rules? = some rules)
    (h : config.solveWith linear sys observer s = .ok solution s')
    (hinitial : solution.initialNorm.isFinite = false) :
    (config.sweepsFirst = false →
      (solution.status = .diverged ∨ solution.status = .stoppedByObserver) ∧ solution.iters = 0) ∧
    (solution.status = .converged → solution.residualNorm.isFinite = true ∧
      (solution.residualNorm < rules.atol ∨ 0 < solution.initialNorm ∧ 0 < rules.rtol)) := by
  obtain ⟨events, htruthful⟩ := solveWith_truthful hrules h
  obtain ⟨r₀, t, -, -, ⟨u, hguess, heval⟩, hnorm, -⟩ := htruthful.started
  obtain ⟨r, -, hends⟩ := htruthful.ends
  rw [hnorm] at hinitial
  refine ⟨fun hsweeps => ?_, fun hconverged => ?_⟩
  · cases config with
    | newton settings =>
      rcases Newton.solve_cases settings linear sys observer s with
        ⟨e, t, hfails, -⟩ | ⟨r', t', stop, ⟨u', hguess', heval'⟩, hproceed⟩
      · rw [show Newton.solve _ _ _ _ _ = _ from h] at hfails
        cases hfails
      · obtain ⟨-, rfl⟩ := EStateM.Result.ok.inj (hguess.symm.trans hguess')
        obtain ⟨rfl, -⟩ := EStateM.Result.ok.inj (heval.symm.trans heval')
        exact Newton.proceed_of_not_isFinite hsweeps hinitial (hproceed.symm.trans h)
    | gaussSeidel settings =>
      rcases GaussSeidel.solve_cases settings sys observer s with
        ⟨e, t, hfails, -⟩ | ⟨r', t', stop, ⟨u', hguess', heval'⟩, hproceed⟩
      · rw [show GaussSeidel.solve _ _ _ _ = _ from h] at hfails
        cases hfails
      · obtain ⟨-, rfl⟩ := EStateM.Result.ok.inj (hguess.symm.trans hguess')
        obtain ⟨rfl, -⟩ := EStateM.Result.ok.inj (heval.symm.trans heval')
        exact GaussSeidel.proceed_of_not_isFinite hinitial (hproceed.symm.trans h)
    | runOnce => cases hrules
  · rw [hnorm, hends]
    have hmeets := htruthful.admitted.converged hconverged
    rw [hnorm, hends, ← meetsTolerances_iff, meetsTolerances_iff_of_not_isFinite hinitial] at hmeets
    exact hmeets

/-! ### A solve that starts from infinity -/

namespace Recovering

/-- One unknown whose residual is itself; a sweep sets it to 10. -/
def system : NonlinearSystem Float Float where
  state x := #[x]
  setState y x := y.getD 0 x
  lower := #[]
  upper := #[]
  residuals := fun x => .ok #[x] x
  linearize := fun x => .ok () x
  sweep := fun _ => .ok () 10
  guess := fun x => .ok () x
  operator _ := Operator.ofRows [[2]] [.upTo 1]

/-- The exact solver of `2 x = b`. -/
def halves : LinearSolver Float Unit where
  setup _ := fun m => .ok () m
  solve _ _ rhs := fun m => .ok ⟨.converged, rhs.map (· / 2), 1, 0⟩ m

/-- Newton's method with sweeps before the steps, and tolerances `2⁻¹⁰`. -/
def newton : NonlinearConfig Float :=
  .newton ⟨10, 1 / 1024, 1 / 1024, false, true, 10,
    ⟨.boundsEnforce, .vector, 1 / 8, 1 / 2, 10, 1, true⟩⟩

/-- A solve from infinity. -/
def start : SolveState Unit Float Unit := ⟨1 / 0, (), ()⟩

/-- What comes of the solve. -/
def outcome : EStateM.Result (NonlinearError Float) (SolveState Unit Float Unit) (Solution Float) :=
  newton.solveWith halves system .silent start

theorem outcome_spec : ∃ solution finish, outcome = .ok solution finish ∧
    solution.status = .converged ∧ solution.initialNorm.isFinite = false ∧
    decide (solution.residualNorm < 1 / 1024) = false := by
  obtain ⟨solution, houtcome⟩ :=
    eq_ok_of_isResult (show isResult outcome = true by decide +kernel)
  have hspec : (resultOf outcome).map (fun s => (s.status, s.initialNorm.isFinite,
      decide (s.residualNorm < 1 / 1024))) = some (.converged, false, false) := by decide +kernel
  rw [houtcome] at hspec
  simp only [resultOf, Option.map_some, Option.some_inj, Prod.mk.injEq] at hspec
  exact ⟨solution, _, houtcome, hspec⟩

/-- The solve sweeps first, so that it can converge, and does with some finite norm. -/
theorem converged_newton : ∃ rules solution finish, newton.rules? = some rules ∧
    newton.solveWith halves system .silent start = .ok solution finish ∧
    solution.initialNorm.isFinite = false ∧ solution.residualNorm.isFinite = true ∧
    (solution.residualNorm < rules.atol ∨ 0 < solution.initialNorm ∧ 0 < rules.rtol) := by
  obtain ⟨solution, finish, houtcome, hstatus, hinitial, -⟩ := outcome_spec
  obtain ⟨hfinite, hsmall⟩ :=
    (NonlinearConfig.converged_of_not_isFinite rfl houtcome hinitial).2 hstatus
  exact ⟨_, solution, finish, rfl, houtcome, hinitial, hfinite, hsmall⟩

/-- **The norm with which it converges is not below the absolute tolerance**: the sweep leads from
infinity to 10 and the step to 5, which is nothing against the initial norm. -/
theorem not_below_atol : ∃ solution finish, newton.validate = .ok () ∧
    newton.solveWith halves system .silent start = .ok solution finish ∧
    solution.initialNorm.isFinite = false ∧ solution.status = .converged ∧
    ¬(solution.residualNorm.isFinite = true ∧ solution.residualNorm < 1 / 1024) := by
  obtain ⟨solution, finish, houtcome, hstatus, hinitial, hlarge⟩ := outcome_spec
  have hvalid : newton.validate = .ok () := by decide +kernel
  exact ⟨solution, finish, hvalid, houtcome, hinitial, hstatus,
    fun h => of_decide_eq_false hlarge h.2⟩

end Recovering

end Mdao
