import Mathlib
import Mdao.Nonlinear.Solver
import Mdao.Proofs.Linear.Cold

/-!
# Solves that cannot tell states apart

A nonlinear solver sees its system through the steps that the system offers. When these give the same
answers in two states, and lead to states that are alike again (`NonlinearSystem.Respects`), then the
whole solve does, if its linear solver starts afresh: it has the same outcome, it tells its observer
the same, and it leaves states behind that are alike (`NonlinearSystem.Respects.solve`).
-/

namespace Mdao

variable {α σ ω β : Type}

/-- The steps of a system answer alike in states that are related, and keep them related. After a
linearization the operators are the same. -/
structure NonlinearSystem.Respects (sys : NonlinearSystem α σ) (E : σ → σ → Prop) : Prop where
  state : ∀ s t, E s t → sys.state s = sys.state t
  setState : ∀ x s t, E s t → E (sys.setState x s) (sys.setState x t)
  residuals : ∀ s t, E s t → Agree E E (sys.residuals s) (sys.residuals t)
  linearize : ∀ s t, E s t → Agree (fun s t => E s t ∧ sys.operator s = sys.operator t) E
    (sys.linearize s) (sys.linearize t)
  sweep : ∀ s t, E s t → Agree E E (sys.sweep s) (sys.sweep t)
  guess : ∀ s t, E s t → Agree E E (sys.guess s) (sys.guess t)

/-- Two states of a solve with related systems and memories, and the same observer. -/
structure Solving.Alike (E : σ → σ → Prop) (M : LinearMemory α → LinearMemory α → Prop)
    (s t : Solving α σ ω) : Prop where
  system : E s.system t.system
  memory : M s.memory t.memory
  watch : s.watch = t.watch

/-- Memories of which nothing is known. -/
def LinearMemory.Whatever (_ _ : LinearMemory α) : Prop := True

open LinearMemory (Whatever)

/-! ### Steps of a solve -/

namespace SolveM

variable {E E' : σ → σ → Prop} {M M' : LinearMemory α → LinearMemory α → Prop}
  {s t : Solving α σ ω}

theorem onSystem_agrees {step : EStateM EvalError σ β}
    (hstep : Agree E' E (step s.system) (step t.system)) (h : s.Alike E M t) :
    Agree (Solving.Alike E' M) (Solving.Alike E M) ((onSystem step : SolveM α σ ω β) s)
      (onSystem step t) := by
  unfold onSystem
  revert hstep
  generalize step s.system = r
  generalize step t.system = r'
  rintro (⟨b, h'⟩ | ⟨e, h'⟩)
  · exact .ok b ⟨h', h.memory, h.watch⟩
  · exact .error _ ⟨h', h.memory, h.watch⟩

theorem onMemory_agrees {sys : NonlinearSystem α σ}
    {step : Operator α → EStateM LinearError (LinearMemory α) β}
    (hoperator : sys.operator s.system = sys.operator t.system)
    (hstep : Agree M' Whatever (step (sys.operator t.system) s.memory)
      (step (sys.operator t.system) t.memory)) (h : s.Alike E M t) :
    Agree (Solving.Alike E M') (Solving.Alike E Whatever) (onMemory sys step s)
      (onMemory sys step t) := by
  unfold onMemory
  rw [hoperator]
  revert hstep
  generalize step (sys.operator t.system) s.memory = r
  generalize step (sys.operator t.system) t.memory = r'
  rintro (⟨b, h'⟩ | ⟨e, h'⟩)
  · exact .ok b ⟨h.system, h', h.watch⟩
  · exact .error _ ⟨h.system, h', h.watch⟩

theorem report_agrees (observer : Observer (NonlinearEvent α) ω) (e : NonlinearEvent α)
    (h : s.Alike E M t) :
    Agree (Solving.Alike E M) (Solving.Alike E M) (report observer e s : EStateM.Result _ _ Bool)
      (report observer e t) := by
  unfold report
  rw [h.watch]
  exact .ok _ ⟨h.system, h.memory, rfl⟩

theorem unknowns_agree {sys : NonlinearSystem α σ}
    (hstate : sys.state s.system = sys.state t.system) (h : s.Alike E M t) :
    Agree (Solving.Alike E M) (Solving.Alike E M) (unknowns sys s) (unknowns sys t) := by
  unfold unknowns
  rw [hstate]
  exact .ok _ h

end SolveM

open SolveM

variable [Scalar α] {sys : NonlinearSystem α σ} {E : σ → σ → Prop}

section Linearized

variable {M : LinearMemory α → LinearMemory α → Prop} {s t : Solving α σ ω}

/-- Related states with the same operator. -/
abbrev NonlinearSystem.Linearized (sys : NonlinearSystem α σ) (E : σ → σ → Prop) (s t : σ) : Prop :=
  E s t ∧ sys.operator s = sys.operator t

open NonlinearSystem (Linearized)

omit [Scalar α] in
theorem Solving.Alike.of_linearized (h : s.Alike (Linearized sys E) M t) : s.Alike E Whatever t :=
  ⟨h.system.1, trivial, h.watch⟩

theorem SolveM.setup_agrees (linear : LinearConfig α) (h : s.Alike (Linearized sys E) M t) :
    Agree (Solving.Alike (Linearized sys E) linear.Alike) (Solving.Alike E Whatever)
      (onMemory sys (fun op => linear.setup op) s) (onMemory sys (fun op => linear.setup op) t) :=
  (onMemory_agrees h.system.2 (LinearConfig.setup_agrees _ linear _ _) h).mono
    (fun _ _ h => h) fun _ _ h => h.of_linearized

theorem SolveM.solve_agrees {linear : LinearConfig α} (hcold : linear.IsCold) (rhs : Array α)
    (h : s.Alike (Linearized sys E) linear.Alike t) :
    Agree (Solving.Alike (Linearized sys E) linear.Alike) (Solving.Alike E Whatever)
      (onMemory sys (fun op => linear.solve op .fwd rhs) s)
      (onMemory sys (fun op => linear.solve op .fwd rhs) t) := by
  have hsolve : Agree linear.Alike Whatever _ _ :=
    (LinearConfig.solve_agrees (sys.operator t.system) .fwd hcold rhs h.memory).mono
      (fun _ _ h => h) fun _ _ _ => trivial
  exact (onMemory_agrees h.system.2 hsolve h).mono (fun _ _ h => h) fun _ _ h => h.of_linearized

end Linearized

namespace NonlinearSystem.Respects

variable (h : sys.Respects E)

include h

/-! ### The line search -/

theorem trial (p : LineSearch.Path α) (alpha : α) {s t : σ} (hst : E s t) :
    Agree E E (LineSearch.trial sys p alpha s) (LineSearch.trial sys p alpha t) :=
  h.residuals _ _ (h.setState (p.point alpha) s t hst)

theorem backtrack (settings : LineSearchSettings α) (p : LineSearch.Path α) (initialNorm : α)
    (more : Nat) (alpha : α) {s t : σ} (hst : E s t) :
    Agree E E (LineSearch.backtrack settings sys p initialNorm more alpha s)
      (LineSearch.backtrack settings sys p initialNorm more alpha t) := by
  induction more generalizing alpha s t with
  | zero =>
    have htrial := h.trial p alpha hst
    unfold LineSearch.backtrack
    revert htrial
    generalize LineSearch.trial sys p alpha s = r
    generalize LineSearch.trial sys p alpha t = r'
    rintro (⟨b, h'⟩ | ⟨e, h'⟩)
    · exact .ok _ h'
    · exact .error e h'
  | succ more ih =>
    have htrial := h.trial p alpha hst
    unfold LineSearch.backtrack
    revert htrial
    generalize LineSearch.trial sys p alpha s = r
    generalize LineSearch.trial sys p alpha t = r'
    rintro (⟨b, h'⟩ | ⟨e, h'⟩)
    · dsimp only
      split_ifs
      · exact .ok _ h'
      · exact ih _ h'
    · dsimp only
      split_ifs
      · exact ih _ h'
      · exact .error e h'

theorem search (settings : LineSearchSettings α) (x0 step : Array α) (initialNorm : α) {s t : σ}
    (hst : E s t) : Agree E E (LineSearch.search settings sys x0 step initialNorm s)
      (LineSearch.search settings sys x0 step initialNorm t) :=
  h.backtrack settings _ initialNorm _ settings.alpha hst

/-! ### Solvers -/

section Solvers

variable {s t : Solving α σ ω} (observer : Observer (NonlinearEvent α) ω)

omit [Scalar α] h in
theorem gaussSeidel_giveUp (settings : GaussSeidelSettings α) (initialNorm : α) (status : Status)
    (iters : Nat) (residualNorm : α) (hst : s.Alike E Whatever t) :
    Agree (Solving.Alike E Whatever) (Solving.Alike E Whatever)
      (GaussSeidel.giveUp settings initialNorm status iters residualNorm s)
      (GaussSeidel.giveUp settings initialNorm status iters residualNorm t) := by
  unfold GaussSeidel.giveUp
  split_ifs
  · exact .error _ hst
  · exact .ok _ hst

theorem gaussSeidel_iterate (settings : GaussSeidelSettings α) (initialNorm : α) (fuel iter : Nat)
    (best : α) (stalled : Nat) (residualNorm : α) (hst : s.Alike E Whatever t) :
    Agree (Solving.Alike E Whatever) (Solving.Alike E Whatever)
      (GaussSeidel.iterate settings sys observer initialNorm fuel iter best stalled residualNorm s)
      (GaussSeidel.iterate settings sys observer initialNorm fuel iter best stalled residualNorm
        t) := by
  induction fuel generalizing iter best stalled residualNorm s t with
  | zero => exact gaussSeidel_giveUp settings initialNorm _ _ _ hst
  | succ fuel ih =>
    unfold GaussSeidel.iterate
    refine .bind (onSystem_agrees (h.sweep _ _ hst.system) hst) fun _ s t hst => ?_
    refine .bind (onSystem_agrees (h.residuals _ _ hst.system) hst) fun residuals s t hst => ?_
    refine .bind (unknowns_agree (h.state _ _ hst.system) hst) fun state s t hst => ?_
    refine .bind (report_agrees observer _ hst) fun stop s t hst => ?_
    split_ifs
    · exact .ok _ hst
    · exact .ok _ hst
    · exact gaussSeidel_giveUp settings initialNorm _ _ _ hst
    · dsimp only
      split_ifs
      · exact gaussSeidel_giveUp settings initialNorm _ _ _ hst
      · exact ih _ _ _ _ hst

theorem gaussSeidel_solve (settings : GaussSeidelSettings α) (hst : s.Alike E Whatever t) :
    Agree (Solving.Alike E Whatever) (Solving.Alike E Whatever)
      (GaussSeidel.solve settings sys observer s) (GaussSeidel.solve settings sys observer t) := by
  unfold GaussSeidel.solve
  refine .bind (onSystem_agrees (h.guess _ _ hst.system) hst) fun _ s t hst => ?_
  refine .bind (onSystem_agrees (h.residuals _ _ hst.system) hst) fun residuals s t hst => ?_
  refine .bind (report_agrees observer _ hst) fun stop s t hst => ?_
  split_ifs
  · exact .ok _ hst
  · exact .ok _ hst
  · exact gaussSeidel_giveUp settings _ _ _ _ hst
  · exact h.gaussSeidel_iterate observer settings _ _ _ _ _ _ hst

theorem runOnce_solve (hst : s.Alike E Whatever t) :
    Agree (Solving.Alike E Whatever) (Solving.Alike E Whatever)
      (RunOnce.solve sys s) (RunOnce.solve sys t) := by
  unfold RunOnce.solve
  refine .bind (onSystem_agrees (h.guess _ _ hst.system) hst) fun _ s t hst => ?_
  refine .bind (onSystem_agrees (h.sweep _ _ hst.system) hst) fun _ s t hst => ?_
  refine .bind (onSystem_agrees (h.residuals _ _ hst.system) hst) fun residuals s t hst => ?_
  exact .ok _ hst

omit [Scalar α] h in
theorem newton_giveUp (settings : NewtonSettings α) (initialNorm : α) (status : Status)
    (iters : Nat) (residualNorm : α) (hst : s.Alike E Whatever t) :
    Agree (Solving.Alike E Whatever) (Solving.Alike E Whatever)
      (Newton.giveUp settings initialNorm status iters residualNorm s)
      (Newton.giveUp settings initialNorm status iters residualNorm t) := by
  unfold Newton.giveUp
  split_ifs
  · exact .error _ hst
  · exact .ok _ hst

omit [Scalar α] in
theorem newton_prepare (settings : NewtonSettings α) (iter : Nat) (residuals : Array α)
    (hst : s.Alike E Whatever t) :
    Agree (Solving.Alike E Whatever) (Solving.Alike E Whatever)
      (Newton.prepare settings sys iter residuals s)
      (Newton.prepare settings sys iter residuals t) := by
  unfold Newton.prepare
  split_ifs
  · refine .bind (onSystem_agrees (h.sweep _ _ hst.system) hst) fun _ s t hst => ?_
    exact onSystem_agrees (h.residuals _ _ hst.system) hst
  · exact .ok _ hst

theorem newton_step (settings : NewtonSettings α) {linear : LinearConfig α} (hcold : linear.IsCold)
    (residuals : Array α) (hst : s.Alike E Whatever t) :
    Agree (Solving.Alike E Whatever) (Solving.Alike E Whatever)
      (Newton.step settings linear.solver sys residuals s)
      (Newton.step settings linear.solver sys residuals t) := by
  unfold Newton.step
  refine .bind (onSystem_agrees (h.linearize _ _ hst.system) hst) fun _ s t hst => ?_
  -- the memories are alike from the setup on, and the operators until the unknowns are moved
  refine .bind (setup_agrees linear hst) fun _ s t hst => ?_
  refine .bind (solve_agrees hcold (residuals.map fun r => -r) hst) fun Δ s t hst => ?_
  refine .bind (unknowns_agree (h.state _ _ hst.system.1) hst.of_linearized) fun x0 s t hst => ?_
  exact onSystem_agrees (h.search settings.lineSearch x0 Δ.x _ hst.system) hst

theorem newton_iterate (settings : NewtonSettings α) {linear : LinearConfig α}
    (hcold : linear.IsCold) (initialNorm : α) (fuel iter : Nat) (residuals : Array α)
    (hst : s.Alike E Whatever t) :
    Agree (Solving.Alike E Whatever) (Solving.Alike E Whatever)
      (Newton.iterate settings linear.solver sys observer initialNorm fuel iter residuals s)
      (Newton.iterate settings linear.solver sys observer initialNorm fuel iter residuals t) := by
  induction fuel generalizing iter residuals s t with
  | zero => exact newton_giveUp settings initialNorm _ _ _ hst
  | succ fuel ih =>
    unfold Newton.iterate
    refine .bind (h.newton_prepare settings iter residuals hst) fun residuals s t hst => ?_
    dsimp only
    split_ifs
    · refine .bind (h.newton_step settings hcold residuals hst) fun moved s t hst => ?_
      refine .bind (unknowns_agree (h.state _ _ hst.system) hst) fun state s t hst => ?_
      refine .bind (report_agrees observer _ hst) fun stop s t hst => ?_
      split_ifs
      · exact .ok _ hst
      · exact .ok _ hst
      · exact ih _ _ hst
    · exact newton_giveUp settings initialNorm _ _ _ hst

theorem newton_solve (settings : NewtonSettings α) {linear : LinearConfig α}
    (hcold : linear.IsCold) (hst : s.Alike E Whatever t) :
    Agree (Solving.Alike E Whatever) (Solving.Alike E Whatever)
      (Newton.solve settings linear.solver sys observer s)
      (Newton.solve settings linear.solver sys observer t) := by
  unfold Newton.solve
  refine .bind (onSystem_agrees (h.guess _ _ hst.system) hst) fun _ s t hst => ?_
  refine .bind (onSystem_agrees (h.residuals _ _ hst.system) hst) fun residuals s t hst => ?_
  refine .bind (report_agrees observer _ hst) fun stop s t hst => ?_
  split_ifs
  · exact .ok _ hst
  · exact .ok _ hst
  · exact h.newton_iterate observer settings hcold _ _ _ _ hst

/-- **A nonlinear solve cannot tell states apart that its system cannot**, whatever its linear solver
remembers, if that starts afresh. -/
theorem solve (config : NonlinearConfig α) {linear : LinearConfig α} (hcold : linear.IsCold)
    (hst : s.Alike E Whatever t) :
    Agree (Solving.Alike E Whatever) (Solving.Alike E Whatever)
      (config.solve linear sys observer s) (config.solve linear sys observer t) := by
  cases config with
  | newton settings => exact h.newton_solve observer settings hcold hst
  | gaussSeidel settings => exact h.gaussSeidel_solve observer settings hst
  | runOnce => exact h.runOnce_solve hst

end Solvers

end NonlinearSystem.Respects

end Mdao
