import Mathlib
import Mdao.Proofs.Nonlinear

/-!
# Where nonlinear solves end

Whatever way a solve takes to its end, early convergence, sweeps, shortened steps, an observer that
stops it, the last thing it does with the system is to evaluate the residuals, and their norm is the
one it reports (`NonlinearConfig.solve_ends`). A solve that stops without having converged is a
solution or an error, as the settings ask; `stopOf` reads off both how it has stopped.
-/

namespace Mdao

variable {α μ σ ω β : Type}

/-- The system is as an evaluation has left it that gave these residuals. -/
def NonlinearSystem.EvaluatedTo (sys : NonlinearSystem α σ) (r : Array α) (s : σ) : Prop :=
  ∃ t, sys.residuals t = .ok r s

namespace SolveM

variable {s s' : SolveState μ σ ω}

theorem onSystem_of_ok {step : EStateM EvalError σ β} {b : β} {t t' : σ} (h : step t = .ok b t')
    (m : μ) (w : ω) : (onSystem step : SolveWith α μ σ ω β) ⟨t, m, w⟩ = .ok b ⟨t', m, w⟩ := by
  simp only [onSystem, h]

theorem onMemory_of_ok {sys : NonlinearSystem α σ} {step : Operator α → EStateM LinearError μ β}
    {b : β} {t : σ} {m m' : μ} (h : step (sys.operator t) m = .ok b m') (w : ω) :
    (onMemory sys step : SolveWith α μ σ ω β) ⟨t, m, w⟩ = .ok b ⟨t, m', w⟩ := by
  simp only [onMemory, h]

theorem onSystem_eq_ok {step : EStateM EvalError σ β} {b : β}
    (h : (onSystem step : SolveWith α μ σ ω β) s = .ok b s') : step s.system = .ok b s'.system := by
  unfold onSystem at h
  cases hstep : step s.system with
  | ok b' t =>
    rw [hstep] at h
    cases h
    rfl
  | error e t =>
    rw [hstep] at h
    cases h

theorem evaluatedTo_residuals {sys : NonlinearSystem α σ} {r : Array α}
    (h : (onSystem sys.residuals : SolveWith α μ σ ω _) s = .ok r s') : sys.EvaluatedTo r s'.system :=
  ⟨s.system, onSystem_eq_ok h⟩

theorem system_unknowns {sys : NonlinearSystem α σ} {x : Array α}
    (h : (unknowns sys : SolveWith α μ σ ω _) s = .ok x s') : s'.system = s.system := by
  cases h
  rfl

theorem system_report {observer : Observer (NonlinearEvent α) ω} {e : NonlinearEvent α}
    {stop : Bool} (h : (report observer e : SolveWith α μ σ ω _) s = .ok stop s') :
    s'.system = s.system := by
  cases h
  rfl

end SolveM

/-- How a solve has stopped and after how many iterations, with a solution or, where that is asked
for, with the error of one that has not converged. -/
def stopOf {τ : Type} : EStateM.Result (NonlinearError α) τ (Solution α) → Option (Status × Nat)
  | .ok solution _ => some (solution.status, solution.iters)
  | .error (.nonConvergence status iters _) _ => some (status, iters)
  | .error _ _ => none

/-- A solve that gives up stops, strict or not, and leaves everything as it is. -/
theorem stop_of_givenUp (strict : Bool) (initialNorm residualNorm : α) (status : Status)
    (iters : Nat) (s : SolveState μ σ ω) :
    let outcome := (if strict then throw (.nonConvergence status iters residualNorm)
      else pure ⟨status, iters, initialNorm, residualNorm⟩ : SolveWith α μ σ ω _) s
    stopOf outcome = some (status, iters) ∧ stateAfter outcome = s := by
  cases strict <;> exact ⟨rfl, rfl⟩

variable [Scalar α] {sys : NonlinearSystem α σ} {s s' : SolveState μ σ ω}

/-- The solve reports the norm of the residuals that its last evaluation has given. -/
def Solution.Ends (sys : NonlinearSystem α σ) (solution : Solution α) (s : σ) : Prop :=
  ∃ r, sys.EvaluatedTo r s ∧ solution.residualNorm = Vec.norm r

open SolveM

/-! ### The line search -/

namespace LineSearch

/-- **Wherever a search ends**, it has evaluated the residuals there. -/
theorem backtrack_ends {config : LineSearchSettings α} {p : Path α} {initialNorm alpha : α}
    {more : Nat} {t t' : σ} {moved : α × Array α}
    (h : backtrack config sys p initialNorm more alpha t = .ok moved t') :
    sys.EvaluatedTo moved.2 t' := by
  induction more generalizing alpha t with
  | zero =>
    unfold backtrack at h
    cases htrial : trial sys p alpha t with
    | ok r u =>
      rw [htrial] at h
      cases h
      exact ⟨_, htrial⟩
    | error e u =>
      rw [htrial] at h
      cases h
  | succ more ih =>
    unfold backtrack at h
    cases htrial : trial sys p alpha t with
    | ok r u =>
      rw [htrial] at h
      dsimp only at h
      split_ifs at h
      · cases h
        exact ⟨_, htrial⟩
      · exact ih h
    | error e u =>
      rw [htrial] at h
      dsimp only at h
      split_ifs at h
      exact ih h

end LineSearch

/-! ### Newton's method -/

namespace Newton

variable {config : NewtonSettings α} {linear : LinearSolver α μ}
  {observer : Observer (NonlinearEvent α) ω} {solution : Solution α}

omit [Scalar α] in
theorem stop_giveUp (config : NewtonSettings α) (initialNorm residualNorm : α) (status : Status)
    (iters : Nat) (s : SolveState μ σ ω) :
    stopOf (giveUp config initialNorm status iters residualNorm s) = some (status, iters) ∧
      stateAfter (giveUp config initialNorm status iters residualNorm s) = s :=
  stop_of_givenUp config.errOnNonConvergence initialNorm residualNorm status iters s

omit [Scalar α] in
theorem giveUp_eq_ok {initialNorm residualNorm : α} {status : Status} {iters : Nat}
    (h : giveUp config initialNorm status iters residualNorm s = .ok solution s') :
    s' = s ∧ solution = ⟨status, iters, initialNorm, residualNorm⟩ := by
  unfold giveUp at h
  split_ifs at h
  · cases h
  · cases h
    exact ⟨rfl, rfl⟩

omit [Scalar α] in
/-- Before a step the residuals are those of the system, swept or not. -/
theorem prepare_ends {iter : Nat} {r r' : Array α} (hr : sys.EvaluatedTo r s.system)
    (h : prepare config sys iter r s = .ok r' s') : sys.EvaluatedTo r' s'.system := by
  unfold prepare at h
  split_ifs at h
  · obtain ⟨_, t, -, h⟩ := exists_of_bind_eq_ok h
    exact evaluatedTo_residuals h
  · cases h
    exact hr

theorem step_ends {r : Array α} {moved : α × Array α}
    (h : step config linear sys r s = .ok moved s') : sys.EvaluatedTo moved.2 s'.system := by
  obtain ⟨_, _, -, h⟩ := exists_of_bind_eq_ok h
  obtain ⟨_, _, -, h⟩ := exists_of_bind_eq_ok h
  obtain ⟨_, _, -, h⟩ := exists_of_bind_eq_ok h
  obtain ⟨_, _, -, h⟩ := exists_of_bind_eq_ok h
  exact LineSearch.backtrack_ends (onSystem_eq_ok h)

theorem iterate_ends {initialNorm : α} {fuel iter : Nat} {r : Array α}
    (hr : sys.EvaluatedTo r s.system)
    (h : iterate config linear sys observer initialNorm fuel iter r s = .ok solution s') :
    solution.Ends sys s'.system := by
  induction fuel generalizing iter r s with
  | zero =>
    obtain ⟨rfl, rfl⟩ := giveUp_eq_ok h
    exact ⟨r, hr, rfl⟩
  | succ fuel ih =>
    unfold iterate at h
    obtain ⟨r1, s1, hprepare, h⟩ := exists_of_bind_eq_ok h
    have hr1 := prepare_ends hr hprepare
    dsimp only at h
    split_ifs at h
    · obtain ⟨moved, s2, hstep, h⟩ := exists_of_bind_eq_ok h
      obtain ⟨x, s3, hx, h⟩ := exists_of_bind_eq_ok h
      obtain ⟨stop, s4, hstop, h⟩ := exists_of_bind_eq_ok h
      have hr4 : sys.EvaluatedTo moved.2 s4.system := by
        rw [system_report hstop, system_unknowns hx]
        exact step_ends hstep
      split_ifs at h
      · cases h
        exact ⟨moved.2, hr4, rfl⟩
      · cases h
        exact ⟨moved.2, hr4, rfl⟩
      · exact ih hr4 h
    · obtain ⟨rfl, rfl⟩ := giveUp_eq_ok h
      exact ⟨r1, hr1, rfl⟩

theorem solve_ends (h : solve config linear sys observer s = .ok solution s') :
    solution.Ends sys s'.system := by
  obtain ⟨_, s1, -, h⟩ := exists_of_bind_eq_ok h
  obtain ⟨r, s2, hresiduals, h⟩ := exists_of_bind_eq_ok h
  obtain ⟨stop, s3, hstop, h⟩ := exists_of_bind_eq_ok h
  have hr : sys.EvaluatedTo r s3.system :=
    system_report hstop ▸ evaluatedTo_residuals hresiduals
  split_ifs at h
  · cases h
    exact ⟨r, hr, rfl⟩
  · cases h
    exact ⟨r, hr, rfl⟩
  · exact iterate_ends hr h

end Newton

/-! ### Sweeps -/

namespace GaussSeidel

variable {config : GaussSeidelSettings α} {observer : Observer (NonlinearEvent α) ω}
  {solution : Solution α}

omit [Scalar α] in
theorem stop_giveUp (config : GaussSeidelSettings α) (initialNorm residualNorm : α)
    (status : Status) (iters : Nat) (s : SolveState μ σ ω) :
    stopOf (giveUp config initialNorm status iters residualNorm s) = some (status, iters) ∧
      stateAfter (giveUp config initialNorm status iters residualNorm s) = s :=
  stop_of_givenUp config.errOnNonConvergence initialNorm residualNorm status iters s

omit [Scalar α] in
theorem giveUp_eq_ok {initialNorm residualNorm : α} {status : Status} {iters : Nat}
    (h : giveUp config initialNorm status iters residualNorm s = .ok solution s') :
    s' = s ∧ solution = ⟨status, iters, initialNorm, residualNorm⟩ := by
  unfold giveUp at h
  split_ifs at h
  · cases h
  · cases h
    exact ⟨rfl, rfl⟩

/-- Each further sweep ends in an evaluation; without one the last residuals are still those of the
system. -/
theorem iterate_ends {initialNorm best : α} {fuel iter stalled : Nat} {r : Array α}
    (hr : sys.EvaluatedTo r s.system)
    (h : iterate config sys observer initialNorm fuel iter best stalled (Vec.norm r) s =
      .ok solution s') : solution.Ends sys s'.system := by
  induction fuel generalizing iter best stalled r s with
  | zero =>
    obtain ⟨rfl, rfl⟩ := giveUp_eq_ok h
    exact ⟨r, hr, rfl⟩
  | succ fuel ih =>
    unfold iterate at h
    obtain ⟨_, s1, -, h⟩ := exists_of_bind_eq_ok h
    obtain ⟨r1, s2, hresiduals, h⟩ := exists_of_bind_eq_ok h
    obtain ⟨x, s3, hx, h⟩ := exists_of_bind_eq_ok h
    obtain ⟨stop, s4, hstop, h⟩ := exists_of_bind_eq_ok h
    have hr1 : sys.EvaluatedTo r1 s4.system := by
      rw [system_report hstop, system_unknowns hx]
      exact evaluatedTo_residuals hresiduals
    split_ifs at h
    · cases h
      exact ⟨r1, hr1, rfl⟩
    · cases h
      exact ⟨r1, hr1, rfl⟩
    · obtain ⟨rfl, rfl⟩ := giveUp_eq_ok h
      exact ⟨r1, hr1, rfl⟩
    · dsimp only at h
      split_ifs at h
      · obtain ⟨rfl, rfl⟩ := giveUp_eq_ok h
        exact ⟨r1, hr1, rfl⟩
      · exact ih hr1 h

theorem solve_ends (h : solve config sys observer s = .ok solution s') :
    solution.Ends sys s'.system := by
  obtain ⟨_, s1, -, h⟩ := exists_of_bind_eq_ok h
  obtain ⟨r, s2, hresiduals, h⟩ := exists_of_bind_eq_ok h
  obtain ⟨stop, s3, hstop, h⟩ := exists_of_bind_eq_ok h
  have hr : sys.EvaluatedTo r s3.system :=
    system_report hstop ▸ evaluatedTo_residuals hresiduals
  split_ifs at h
  · cases h
    exact ⟨r, hr, rfl⟩
  · cases h
    exact ⟨r, hr, rfl⟩
  · obtain ⟨rfl, rfl⟩ := giveUp_eq_ok h
    exact ⟨r, hr, rfl⟩
  · exact iterate_ends hr h

end GaussSeidel

namespace RunOnce

theorem solve_ends {solution : Solution α} (h : solve sys s = .ok solution s') :
    solution.Ends sys s'.system := by
  obtain ⟨_, s1, -, h⟩ := exists_of_bind_eq_ok h
  obtain ⟨_, s2, -, h⟩ := exists_of_bind_eq_ok h
  obtain ⟨r, s3, hresiduals, h⟩ := exists_of_bind_eq_ok h
  cases h
  exact ⟨r, evaluatedTo_residuals hresiduals, rfl⟩

end RunOnce

/-- **A solve ends where it says**: with the system as the last evaluation has left it, and the norm
of the residuals that it gave. -/
theorem NonlinearConfig.solve_ends {config : NonlinearConfig α} {linear : LinearSolver α μ}
    {observer : Observer (NonlinearEvent α) ω} {solution : Solution α}
    (h : config.solveWith linear sys observer s = .ok solution s') :
    solution.Ends sys s'.system := by
  cases config with
  | newton settings => exact Newton.solve_ends h
  | gaussSeidel settings => exact GaussSeidel.solve_ends h
  | runOnce => exact RunOnce.solve_ends h

end Mdao
