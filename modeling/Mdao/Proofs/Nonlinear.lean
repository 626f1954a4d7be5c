import Mathlib
import Mdao.Nonlinear.Solver
import Mdao.Proofs.Step

/-!
# What nonlinear solves leave alone

A nonlinear solver touches its system only through the steps that the system offers. So whatever
each of these steps preserves is preserved by the solve, however it goes: with the bounds it runs
into, the trials of its line search, the observer that stops it, and the error it ends with
(`NonlinearSystem.Keeps.solveWith`).
-/

namespace Mdao

variable {α μ σ ω β : Type} {R : σ → σ → Prop}

/-- A relation between states that every step of a system preserves. -/
structure NonlinearSystem.Keeps (sys : NonlinearSystem α σ) (R : σ → σ → Prop) : Prop where
  refl : ∀ s, R s s
  trans : ∀ s t u, R s t → R t u → R s u
  setState : ∀ x s, R s (sys.setState x s)
  residuals : Preserves R sys.residuals
  linearize : Preserves R sys.linearize
  sweep : Preserves R sys.sweep
  guess : Preserves R sys.guess

/-- Two states of a solve whose systems are related. -/
def SolveState.Related (R : σ → σ → Prop) (s t : SolveState μ σ ω) : Prop := R s.system t.system

/-! ### Steps of a solve -/

namespace SolveM

theorem preserves_onSystem {step : EStateM EvalError σ β} (h : Preserves R step) :
    Preserves (SolveState.Related R) (onSystem step : SolveWith α μ σ ω β) := by
  intro s
  have hs := h s.system
  unfold onSystem
  cases hstep : step s.system with
  | ok b t =>
    rw [hstep] at hs
    exact hs
  | error e t =>
    rw [hstep] at hs
    exact hs

theorem preserves_onMemory (hrefl : ∀ s, R s s) (sys : NonlinearSystem α σ)
    (step : Operator α → EStateM LinearError μ β) :
    Preserves (SolveState.Related R) (onMemory sys step : SolveWith α μ σ ω β) := by
  intro s
  unfold onMemory
  cases step (sys.operator s.system) s.memory with
  | ok b m => exact hrefl s.system
  | error e m => exact hrefl s.system

theorem preserves_report (hrefl : ∀ s, R s s) (observer : Observer (NonlinearEvent α) ω)
    (e : NonlinearEvent α) :
    Preserves (SolveState.Related R) (report observer e : SolveWith α μ σ ω Bool) :=
  fun s => hrefl s.system

theorem preserves_unknowns (hrefl : ∀ s, R s s) (sys : NonlinearSystem α σ) :
    Preserves (SolveState.Related R) (unknowns sys : SolveWith α μ σ ω (Array α)) :=
  fun s => hrefl s.system

end SolveM

namespace NonlinearSystem.Keeps

open SolveM

variable {sys : NonlinearSystem α σ} (h : sys.Keeps R)

include h

theorem related_refl (s : SolveState μ σ ω) : SolveState.Related R s s := h.refl s.system

theorem related_trans (s t u : SolveState μ σ ω) (hst : SolveState.Related R s t)
    (htu : SolveState.Related R t u) : SolveState.Related R s u := h.trans _ _ _ hst htu

variable [Scalar α]

/-! ### The line search -/

theorem trial (p : LineSearch.Path α) (alpha : α) : Preserves R (LineSearch.trial sys p alpha) :=
  fun s => h.trans _ _ _ (h.setState (p.point alpha) s) (h.residuals _)

theorem backtrack (s : LineSearchSettings α) (p : LineSearch.Path α) (initialNorm : α)
    (more : Nat) (alpha : α) :
    Preserves R (LineSearch.backtrack s sys p initialNorm more alpha) := by
  induction more generalizing alpha with
  | zero =>
    intro t
    have ht := h.trial p alpha t
    unfold LineSearch.backtrack
    cases htrial : LineSearch.trial sys p alpha t with
    | ok r t' =>
      rw [htrial] at ht
      exact ht
    | error e t' =>
      rw [htrial] at ht
      exact ht
  | succ more ih =>
    intro t
    have ht := h.trial p alpha t
    unfold LineSearch.backtrack
    cases htrial : LineSearch.trial sys p alpha t with
    | ok r t' =>
      rw [htrial] at ht
      simp only
      split_ifs
      · exact ht
      · exact h.trans _ _ _ ht (ih (alpha * s.rho) t')
    | error e t' =>
      rw [htrial] at ht
      simp only
      split_ifs
      · exact h.trans _ _ _ ht (ih (alpha * s.rho) t')
      · exact ht

theorem search (s : LineSearchSettings α) (x0 step : Array α) (initialNorm : α) :
    Preserves R (LineSearch.search s sys x0 step initialNorm) :=
  h.backtrack s _ initialNorm _ s.alpha

/-! ### Solvers -/

omit [Scalar α] in
theorem gaussSeidel_giveUp (s : GaussSeidelSettings α) (initialNorm : α) (status : Status)
    (iters : Nat) (residualNorm : α) : Preserves (SolveState.Related R)
      (GaussSeidel.giveUp s initialNorm status iters residualNorm : SolveWith α μ σ ω _) := by
  unfold GaussSeidel.giveUp
  split_ifs
  · exact .throw h.related_refl _
  · exact .pure h.related_refl _

theorem gaussSeidel_iterate (s : GaussSeidelSettings α)
    (observer : Observer (NonlinearEvent α) ω) (initialNorm : α) (fuel iter : Nat) (best : α)
    (stalled : Nat) (residualNorm : α) : Preserves (SolveState.Related R)
      (GaussSeidel.iterate s sys observer initialNorm fuel iter best stalled residualNorm :
        SolveWith α μ σ ω _) := by
  induction fuel generalizing iter best stalled residualNorm with
  | zero => exact h.gaussSeidel_giveUp s initialNorm _ _ _
  | succ fuel ih =>
    unfold GaussSeidel.iterate
    refine .bind h.related_trans (preserves_onSystem h.sweep) fun _ => ?_
    refine .bind h.related_trans (preserves_onSystem h.residuals) fun residuals => ?_
    refine .bind h.related_trans (preserves_unknowns h.refl sys) fun state => ?_
    refine .bind h.related_trans (preserves_report h.refl observer _) fun stop => ?_
    split_ifs
    · exact .pure h.related_refl _
    · exact .pure h.related_refl _
    · exact h.gaussSeidel_giveUp s initialNorm _ _ _
    · dsimp only
      split_ifs
      · exact h.gaussSeidel_giveUp s initialNorm _ _ _
      · exact ih _ _ _ _

theorem gaussSeidel_solve (s : GaussSeidelSettings α) (observer : Observer (NonlinearEvent α) ω) :
    Preserves (SolveState.Related R)
      (GaussSeidel.solve s sys observer : SolveWith α μ σ ω _) := by
  unfold GaussSeidel.solve
  refine .bind h.related_trans (preserves_onSystem h.guess) fun _ => ?_
  refine .bind h.related_trans (preserves_onSystem h.residuals) fun residuals => ?_
  refine .bind h.related_trans (preserves_report h.refl observer _) fun stop => ?_
  split_ifs
  · exact .pure h.related_refl _
  · exact .pure h.related_refl _
  · exact h.gaussSeidel_giveUp s _ _ _ _
  · exact h.gaussSeidel_iterate s observer _ _ _ _ _ _

theorem runOnce_solve :
    Preserves (SolveState.Related R) (RunOnce.solve sys : SolveWith α μ σ ω _) := by
  unfold RunOnce.solve
  refine .bind h.related_trans (preserves_onSystem h.guess) fun _ => ?_
  refine .bind h.related_trans (preserves_onSystem h.sweep) fun _ => ?_
  refine .bind h.related_trans (preserves_onSystem h.residuals) fun residuals => ?_
  exact .pure h.related_refl _

omit [Scalar α] in
theorem newton_giveUp (s : NewtonSettings α) (initialNorm : α) (status : Status) (iters : Nat)
    (residualNorm : α) : Preserves (SolveState.Related R)
      (Newton.giveUp s initialNorm status iters residualNorm : SolveWith α μ σ ω _) := by
  unfold Newton.giveUp
  split_ifs
  · exact .throw h.related_refl _
  · exact .pure h.related_refl _

omit [Scalar α] in
theorem newton_prepare (s : NewtonSettings α) (iter : Nat) (residuals : Array α) :
    Preserves (SolveState.Related R) (Newton.prepare s sys iter residuals : SolveWith α μ σ ω _) := by
  unfold Newton.prepare
  split_ifs
  · refine .bind h.related_trans (preserves_onSystem h.sweep) fun _ => ?_
    exact preserves_onSystem h.residuals
  · exact .pure h.related_refl _

theorem newton_step (s : NewtonSettings α) (linear : LinearSolver α μ) (residuals : Array α) :
    Preserves (SolveState.Related R) (Newton.step s linear sys residuals : SolveWith α μ σ ω _) := by
  unfold Newton.step
  refine .bind h.related_trans (preserves_onSystem h.linearize) fun _ => ?_
  refine .bind h.related_trans (preserves_onMemory h.refl sys _) fun _ => ?_
  refine .bind h.related_trans (preserves_onMemory h.refl sys _) fun Δ => ?_
  refine .bind h.related_trans (preserves_unknowns h.refl sys) fun x0 => ?_
  exact preserves_onSystem (h.search s.lineSearch x0 Δ.x _)

theorem newton_iterate (s : NewtonSettings α) (linear : LinearSolver α μ)
    (observer : Observer (NonlinearEvent α) ω) (initialNorm : α) (fuel iter : Nat)
    (residuals : Array α) : Preserves (SolveState.Related R)
      (Newton.iterate s linear sys observer initialNorm fuel iter residuals) := by
  induction fuel generalizing iter residuals with
  | zero => exact h.newton_giveUp s initialNorm _ _ _
  | succ fuel ih =>
    unfold Newton.iterate
    refine .bind h.related_trans (h.newton_prepare s iter residuals) fun residuals => ?_
    dsimp only
    split_ifs
    · refine .bind h.related_trans (h.newton_step s linear residuals) fun moved => ?_
      refine .bind h.related_trans (preserves_unknowns h.refl sys) fun state => ?_
      refine .bind h.related_trans (preserves_report h.refl observer _) fun stop => ?_
      split_ifs
      · exact .pure h.related_refl _
      · exact .pure h.related_refl _
      · exact ih _ _
    · exact h.newton_giveUp s initialNorm _ _ _

theorem newton_solve (s : NewtonSettings α) (linear : LinearSolver α μ)
    (observer : Observer (NonlinearEvent α) ω) :
    Preserves (SolveState.Related R) (Newton.solve s linear sys observer) := by
  unfold Newton.solve
  refine .bind h.related_trans (preserves_onSystem h.guess) fun _ => ?_
  refine .bind h.related_trans (preserves_onSystem h.residuals) fun residuals => ?_
  refine .bind h.related_trans (preserves_report h.refl observer _) fun stop => ?_
  split_ifs
  · exact .pure h.related_refl _
  · exact .pure h.related_refl _
  · exact h.newton_iterate s linear observer _ _ _ _

/-- **A nonlinear solve preserves what every step of its system preserves**, also when it fails. -/
theorem solveWith (config : NonlinearConfig α) (linear : LinearSolver α μ)
    (observer : Observer (NonlinearEvent α) ω) :
    Preserves (SolveState.Related R) (config.solveWith linear sys observer) := by
  cases config with
  | newton s => exact h.newton_solve s linear observer
  | gaussSeidel s => exact h.gaussSeidel_solve s observer
  | runOnce => exact h.runOnce_solve

/-- A solve with a configured linear solver does too. -/
theorem solve (config : NonlinearConfig α) (linear : LinearConfig α)
    (observer : Observer (NonlinearEvent α) ω) :
    Preserves (SolveState.Related R) (config.solve linear sys observer) :=
  h.solveWith config linear.solver observer

end NonlinearSystem.Keeps

end Mdao
