import Mathlib
import Mdao.Nonlinear.Basic
import Mdao.Proofs.Nonlinear.Ends

/-!
# The iterations of a nonlinear solve

A solve is a start and then iterations in a row, each of which is told to the observer before the
next one begins. `Iterated` is such a row, with the events that it gives rise to, and it does not
matter here what makes an iteration: for Newton's method it is a sweep where one is due and then a
step (`Newton.Turns`), for block Gauss-Seidel it is a sweep (`GaussSeidel.Turns`).

Behind every outcome of a solve, also a failure, stand iterations like these, and their events after
the start are all that the observer has seen (`NonlinearConfig.solveWith_traced`).

What a solve asks of its system is a sequence of requests: unknowns are set, residuals are
evaluated, the Jacobian is refreshed, subsystems are swept or asked for a guess. A system with a log
(`NonlinearSystem.logged`) answers as it does without one and writes every request down, also one
that fails. So what is said of the log of a solve is said of the order of its evaluations.
-/

namespace Mdao

variable {α μ σ ω ε : Type}

/-- What becomes of an observer that sees an event. -/
def Observer.after (observer : Observer ε ω) (w : ω) (e : ε) : ω := (observer.observe e w).2

/-- The states of a solve once the observer has seen an event. -/
def SolveState.told (s : SolveState μ σ ω) (observer : Observer (NonlinearEvent α) ω)
    (e : NonlinearEvent α) : SolveState μ σ ω :=
  { s with watch := observer.after s.watch e }

/-- How an iteration may go: its number, the residuals and the states before it, the length of its
step, and the residuals and the states after it. -/
abbrev Turn (α μ σ ω : Type) : Type :=
  Nat → Array α → SolveState μ σ ω → α → Array α → SolveState μ σ ω → Prop

/-- The rules by which an iterative solver ends. -/
structure StoppingRules (α : Type) where
  /-- The greatest number of iterations. -/
  maxiter : Nat
  /-- The absolute tolerance. -/
  atol : α
  /-- The tolerance relative to the initial residual. -/
  rtol : α
  /-- Whether a solve that does not converge is an error. -/
  errOnNonConvergence : Bool

/-- The rules of Newton's method. -/
def NewtonSettings.rules (s : NewtonSettings α) : StoppingRules α :=
  ⟨s.maxiter, s.atol, s.rtol, s.errOnNonConvergence⟩

/-- The rules of block Gauss-Seidel. -/
def GaussSeidelSettings.rules (s : GaussSeidelSettings α) : StoppingRules α :=
  ⟨s.maxiter, s.atol, s.rtol, s.errOnNonConvergence⟩

/-- The rules of a solver that iterates. -/
def NonlinearConfig.rules? : NonlinearConfig α → Option (StoppingRules α)
  | .newton s => some s.rules
  | .gaussSeidel s => some s.rules
  | .runOnce => none

variable [Scalar α]

/-- A solution has converged only within the tolerances, and it has converged or been stopped where
anything else is an error. -/
structure StoppingRules.Admits (rules : StoppingRules α) (solution : Solution α) : Prop where
  converged : solution.status = .converged → solution.residualNorm < rules.atol ∨
    0 < solution.initialNorm ∧ solution.residualNorm / solution.initialNorm < rules.rtol
  strict : rules.errOnNonConvergence = true →
    solution.status = .converged ∨ solution.status = .stoppedByObserver

/-- What the observer is told of an iteration: its number, the norm of the residuals after it, the
length of its step, and the unknowns after it. -/
def NonlinearSystem.eventAfter (sys : NonlinearSystem α σ) (k : Nat) (alpha : α) (r : Array α)
    (t : σ) : NonlinearEvent α :=
  .iterated k (Vec.norm r) alpha (sys.state t)

/-- Iterations in a row from number `k` on, each told to the observer, with the events in the order
in which they are told. -/
inductive Iterated (turn : Turn α μ σ ω) (sys : NonlinearSystem α σ)
    (observer : Observer (NonlinearEvent α) ω) :
    Nat → Array α → SolveState μ σ ω → List (NonlinearEvent α) → Array α → SolveState μ σ ω →
      Prop where
  | done (k : Nat) (r : Array α) (s : SolveState μ σ ω) : Iterated turn sys observer k r s [] r s
  | next {k : Nat} {r r' r'' : Array α} {s t u : SolveState μ σ ω} {alpha : α}
      {events : List (NonlinearEvent α)} : turn k r s alpha r' t →
      Iterated turn sys observer (k + 1) r'
        (t.told observer (sys.eventAfter k alpha r' t.system)) events r'' u →
      Iterated turn sys observer k r s (sys.eventAfter k alpha r' t.system :: events) r'' u

/-- The iterations behind an outcome of at most `fuel` iterations, the first with number `k`: their
events are what the observer has seen, and a solution counts them. -/
structure Traced (rules : StoppingRules α) (turn : Turn α μ σ ω) (sys : NonlinearSystem α σ)
    (observer : Observer (NonlinearEvent α) ω) (initialNorm : α) (fuel k : Nat) (r : Array α)
    (s : SolveState μ σ ω) (events : List (NonlinearEvent α))
    (outcome : EStateM.Result (NonlinearError α) (SolveState μ σ ω) (Solution α)) : Prop where
  length_le : events.length ≤ fuel
  iterated : ∃ r' t, Iterated turn sys observer k r s events r' t ∧
    (stateAfter outcome).watch = t.watch
  reported : ∀ solution t, outcome = .ok solution t → solution.iters + 1 = k + events.length ∧
    solution.initialNorm = initialNorm ∧ rules.Admits solution

variable {rules : StoppingRules α} {turn : Turn α μ σ ω} {sys : NonlinearSystem α σ}
  {observer : Observer (NonlinearEvent α) ω} {initialNorm : α} {fuel k : Nat} {r r' : Array α}
  {s t : SolveState μ σ ω}

/-! ### Rows of iterations -/

namespace Iterated

variable {events : List (NonlinearEvent α)}

/-- The events are numbered from the first iteration on. -/
theorem numbered (h : Iterated turn sys observer k r s events r' t) :
    events.map Progress.iteration = List.range' k events.length := by
  induction h with
  | done => rfl
  | next _ _ ih => rw [List.map_cons, ih, List.length_cons, List.range'_succ]; rfl

/-- The observer sees the events and nothing else. -/
theorem watch (hturn : ∀ k r s alpha r' t, turn k r s alpha r' t → t.watch = s.watch)
    (h : Iterated turn sys observer k r s events r' t) :
    t.watch = events.foldl observer.after s.watch := by
  induction h with
  | done => rfl
  | next hfirst _ ih =>
    rw [ih, List.foldl_cons, ← hturn _ _ _ _ _ _ hfirst]
    rfl

/-- What iterations keep, and what it makes of the events, holds along a row of them. -/
theorem forall_mem {J : SolveState μ σ ω → Prop} {P : NonlinearEvent α → Prop}
    (hturn : ∀ k r s alpha r' t, J s → turn k r s alpha r' t →
      J (t.told observer (sys.eventAfter k alpha r' t.system)) ∧
        P (sys.eventAfter k alpha r' t.system))
    (hs : J s) (h : Iterated turn sys observer k r s events r' t) : ∀ e ∈ events, P e := by
  induction h with
  | done => exact fun e he => absurd he List.not_mem_nil
  | next hfirst _ ih =>
    obtain ⟨hrest, hevent⟩ := hturn _ _ _ _ _ _ hs hfirst
    intro e he
    rcases List.mem_cons.1 he with rfl | he
    · exact hevent
    · exact ih hrest e he

end Iterated

/-! ### Outcomes -/

/-- A number that meets the tolerances does so by itself or against the initial one. -/
theorem meetsTolerances_iff {atol rtol initialNorm x : α} :
    meetsTolerances atol rtol initialNorm x = true ↔
      x < atol ∨ 0 < initialNorm ∧ x / initialNorm < rtol := by
  simp only [meetsTolerances, Bool.or_eq_true, Bool.and_eq_true, decide_eq_true_eq]

namespace Traced

variable {e : NonlinearError α} {solution : Solution α}

/-- A failure before the first iteration is complete. -/
theorem error (hwatch : t.watch = s.watch) :
    Traced rules turn sys observer initialNorm fuel k r s [] (.error e t) where
  length_le := Nat.zero_le _
  iterated := ⟨r, s, .done k r s, hwatch⟩
  reported _ _ h := by cases h

/-- A solution before the first iteration is complete. -/
theorem ok (hwatch : t.watch = s.watch) (hiters : solution.iters + 1 = k)
    (hinitial : solution.initialNorm = initialNorm) (hadmits : rules.Admits solution) :
    Traced rules turn sys observer initialNorm fuel k r s [] (.ok solution t) where
  length_le := Nat.zero_le _
  iterated := ⟨r, s, .done k r s, hwatch⟩
  reported _ _ h := by
    cases h
    exact ⟨hiters, hinitial, hadmits⟩

/-- The observer stops the solve. -/
theorem stopped {residualNorm : α} {iters : Nat} (hiters : iters + 1 = k) :
    Traced rules turn sys observer initialNorm fuel k r s []
      (.ok ⟨.stoppedByObserver, iters, initialNorm, residualNorm⟩ s) :=
  ok rfl hiters rfl ⟨nofun, fun _ => .inr rfl⟩

/-- The residuals meet the tolerances. -/
theorem converged {residualNorm : α} {iters : Nat} (hiters : iters + 1 = k)
    (hmeets : meetsTolerances rules.atol rules.rtol initialNorm residualNorm = true) :
    Traced rules turn sys observer initialNorm fuel k r s []
      (.ok ⟨.converged, iters, initialNorm, residualNorm⟩ s) :=
  ok rfl hiters rfl ⟨fun _ => meetsTolerances_iff.1 hmeets, fun _ => .inl rfl⟩

/-- The solve gives up. -/
theorem givenUp {status : Status} {residualNorm : α} {iters : Nat}
    (hstatus : status ≠ .converged) (hwatch : t.watch = s.watch) (hiters : iters + 1 = k) :
    Traced rules turn sys observer initialNorm fuel k r s []
      ((if rules.errOnNonConvergence then throw (.nonConvergence status iters residualNorm)
        else pure ⟨status, iters, initialNorm, residualNorm⟩ : SolveWith α μ σ ω _) t) := by
  split_ifs with hstrict
  · exact error hwatch
  · exact ok hwatch hiters rfl ⟨fun h => absurd h hstatus, fun h => absurd h hstrict⟩

/-- One more iteration before those behind an outcome. -/
theorem next {alpha : α} {events : List (NonlinearEvent α)}
    {outcome : EStateM.Result (NonlinearError α) (SolveState μ σ ω) (Solution α)}
    (hturn : turn k r s alpha r' t)
    (h : Traced rules turn sys observer initialNorm fuel (k + 1) r'
      (t.told observer (sys.eventAfter k alpha r' t.system)) events outcome) :
    Traced rules turn sys observer initialNorm (fuel + 1) k r s
      (sys.eventAfter k alpha r' t.system :: events) outcome where
  length_le := Nat.succ_le_succ h.length_le
  iterated := by
    obtain ⟨r'', u, hrest, hwatch⟩ := h.iterated
    exact ⟨r'', u, .next hturn hrest, hwatch⟩
  reported solution u hok := by
    obtain ⟨hiters, hinitial, hadmits⟩ := h.reported solution u hok
    refine ⟨?_, hinitial, hadmits⟩
    rw [hiters, List.length_cons]
    omega

end Traced

/-! ### What the observer does not see -/

/-- Two states of a solve with the same observer. -/
def SolveState.SameWatch (s t : SolveState μ σ ω) : Prop := t.watch = s.watch

namespace SolveM

variable {β : Type}

theorem sameWatch_refl (s : SolveState μ σ ω) : s.SameWatch s := rfl

theorem sameWatch_trans (s t u : SolveState μ σ ω) (hst : s.SameWatch t) (htu : t.SameWatch u) :
    s.SameWatch u := Eq.trans htu hst

omit [Scalar α] in
theorem sameWatch_onSystem (step : EStateM EvalError σ β) :
    Preserves SolveState.SameWatch (onSystem step : SolveWith α μ σ ω β) := by
  intro s
  unfold onSystem
  cases step s.system with
  | ok b t => rfl
  | error e t => rfl

omit [Scalar α] in
theorem sameWatch_onMemory (step : Operator α → EStateM LinearError μ β) :
    Preserves SolveState.SameWatch (onMemory sys step : SolveWith α μ σ ω β) := by
  intro s
  unfold onMemory
  cases step (sys.operator s.system) s.memory with
  | ok b m => rfl
  | error e m => rfl

omit [Scalar α] in
theorem unknowns_eq (s : SolveState μ σ ω) :
    (unknowns sys : SolveWith α μ σ ω _) s = .ok (sys.state s.system) s := rfl

omit [Scalar α] in
/-- The observer is told an event and answers. -/
theorem report_eq (s : SolveState μ σ ω) (e : NonlinearEvent α) :
    (report observer e : SolveWith α μ σ ω _) s =
      .ok ((observer.stops e s.watch).1) (s.told observer e) := rfl

omit [Scalar α] in
/-- The observer that never acts does not ask for a stop. -/
theorem stops_silent (e : NonlinearEvent α) (w : Unit) :
    (Observer.silent.stops e w).1 = false := rfl

end SolveM

open SolveM

/-! ### Newton's method -/

namespace Newton

variable {config : NewtonSettings α} {linear : LinearSolver α μ}

/-- An iteration of Newton's method: the residuals before the step are finite, after a sweep where
one is due, and the step reaches the residuals after it. -/
def Turns (config : NewtonSettings α) (linear : LinearSolver α μ) (sys : NonlinearSystem α σ) :
    Turn α μ σ ω := fun k r s alpha r' t =>
  ∃ r₁ s₁, prepare config sys k r s = .ok r₁ s₁ ∧ Scalar.isFinite (Vec.norm r₁) = true ∧
    step config linear sys r₁ s₁ = .ok (alpha, r') t

omit [Scalar α] in
theorem sameWatch_prepare (config : NewtonSettings α) (sys : NonlinearSystem α σ) (k : Nat)
    (r : Array α) :
    Preserves SolveState.SameWatch (prepare config sys k r : SolveWith α μ σ ω _) := by
  unfold prepare
  split_ifs
  · exact .bind sameWatch_trans (sameWatch_onSystem _) fun _ => sameWatch_onSystem _
  · exact .pure sameWatch_refl _

theorem sameWatch_step (config : NewtonSettings α) (linear : LinearSolver α μ)
    (sys : NonlinearSystem α σ) (r : Array α) :
    Preserves SolveState.SameWatch (step config linear sys r : SolveWith α μ σ ω _) := by
  unfold step
  refine .bind sameWatch_trans (sameWatch_onSystem _) fun _ => ?_
  refine .bind sameWatch_trans (sameWatch_onMemory _) fun _ => ?_
  refine .bind sameWatch_trans (sameWatch_onMemory _) fun Δ => ?_
  exact .bind sameWatch_trans (fun _ => rfl) fun _ => sameWatch_onSystem _

theorem Turns.watch {alpha : α} (h : Turns config linear sys k r s alpha r' t) :
    t.watch = s.watch := by
  obtain ⟨r₁, s₁, hprepare, -, hstep⟩ := h
  have hs₁ := sameWatch_prepare config sys k r s
  have ht := sameWatch_step config linear sys r₁ s₁
  rw [hprepare] at hs₁
  rw [hstep] at ht
  exact Eq.trans ht hs₁

/-- Behind every outcome of the iteration stand turns of Newton's method. -/
theorem iterate_traced (hk : 1 ≤ k) : ∃ events,
    Traced config.rules (Turns config linear sys) sys observer initialNorm fuel k r s events
      (iterate config linear sys observer initialNorm fuel k r s) := by
  induction fuel generalizing k r s with
  | zero =>
    refine ⟨[], Traced.givenUp (t := s) ?_ rfl (Nat.sub_add_cancel hk)⟩
    split_ifs <;> decide
  | succ fuel ih =>
    have hs₁ := sameWatch_prepare config sys k r s
    unfold iterate
    cases hprepare : (prepare config sys k r : SolveWith α μ σ ω _) s with
    | error e s₁ =>
      rw [hprepare] at hs₁
      rw [bind_of_error _ hprepare]
      exact ⟨[], .error hs₁⟩
    | ok r₁ s₁ =>
      rw [hprepare] at hs₁
      rw [bind_of_ok _ hprepare]
      dsimp only
      split_ifs with hfinite
      · have ht := sameWatch_step config linear sys r₁ s₁
        cases hstep : (step config linear sys r₁ : SolveWith α μ σ ω _) s₁ with
        | error e t =>
          rw [hstep] at ht
          rw [bind_of_error _ hstep]
          exact ⟨[], .error (Eq.trans ht hs₁)⟩
        | ok moved t =>
          obtain ⟨alpha, r'⟩ := moved
          have hturn : Turns config linear sys k r s alpha r' t :=
            ⟨r₁, s₁, hprepare, hfinite, hstep⟩
          rw [bind_of_ok _ hstep]
          dsimp only
          rw [bind_of_ok _ (unknowns_eq t), bind_of_ok _ (report_eq t _)]
          split_ifs with hstop hmeets
          · exact ⟨[_], .next hturn (.stopped rfl)⟩
          · exact ⟨[_], .next hturn (.converged rfl hmeets)⟩
          · obtain ⟨events, hrest⟩ := ih (Nat.le_add_left 1 k)
            exact ⟨_ :: events, .next hturn hrest⟩
      · exact ⟨[], Traced.givenUp (by decide) hs₁ (Nat.sub_add_cancel hk)⟩

end Newton

/-! ### Sweeps -/

namespace GaussSeidel

variable {config : GaussSeidelSettings α}

/-- An iteration of block Gauss-Seidel: a sweep, and the residuals after it. -/
def Turns (sys : NonlinearSystem α σ) : Turn α μ σ ω := fun _ _ s alpha r' t =>
  alpha = 1 ∧ ∃ s₁ : SolveState μ σ ω, (onSystem sys.sweep : SolveWith α μ σ ω _) s = .ok () s₁ ∧
    (onSystem sys.residuals : SolveWith α μ σ ω _) s₁ = .ok r' t

theorem Turns.watch {alpha : α} (h : Turns sys k r s alpha r' t) : t.watch = s.watch := by
  obtain ⟨-, s₁, hsweep, hresiduals⟩ := h
  have hs₁ := sameWatch_onSystem (α := α) sys.sweep s
  have ht := sameWatch_onSystem (α := α) sys.residuals s₁
  rw [hsweep] at hs₁
  rw [hresiduals] at ht
  exact Eq.trans ht hs₁

/-- Behind every outcome of the iteration stand sweeps. -/
theorem iterate_traced {best residualNorm : α} {stalled : Nat} (hk : 1 ≤ k) : ∃ events,
    Traced config.rules (Turns sys) sys observer initialNorm fuel k r s events
      (iterate config sys observer initialNorm fuel k best stalled residualNorm s) := by
  induction fuel generalizing k r s best stalled residualNorm with
  | zero => exact ⟨[], Traced.givenUp (t := s) (by decide) rfl (Nat.sub_add_cancel hk)⟩
  | succ fuel ih =>
    have hs₁ := sameWatch_onSystem (α := α) sys.sweep s
    unfold iterate
    cases hsweep : (onSystem sys.sweep : SolveWith α μ σ ω _) s with
    | error e s₁ =>
      rw [hsweep] at hs₁
      rw [bind_of_error _ hsweep]
      exact ⟨[], .error hs₁⟩
    | ok _ s₁ =>
      rw [hsweep] at hs₁
      have ht := sameWatch_onSystem (α := α) sys.residuals s₁
      rw [bind_of_ok _ hsweep]
      cases hresiduals : (onSystem sys.residuals : SolveWith α μ σ ω _) s₁ with
      | error e t =>
        rw [hresiduals] at ht
        rw [bind_of_error _ hresiduals]
        exact ⟨[], .error (Eq.trans ht hs₁)⟩
      | ok r' t =>
        have hturn : Turns sys k r s 1 r' t := ⟨rfl, s₁, hsweep, hresiduals⟩
        rw [bind_of_ok _ hresiduals]
        dsimp only
        rw [bind_of_ok _ (unknowns_eq t), bind_of_ok _ (report_eq t _)]
        split_ifs with hstop hmeets hfinite hstalled
        · exact ⟨[_], .next hturn (.stopped rfl)⟩
        · exact ⟨[_], .next hturn (.converged rfl hmeets)⟩
        · exact ⟨[_], .next hturn (Traced.givenUp (by decide) rfl rfl)⟩
        · exact ⟨[_], .next hturn (Traced.givenUp (by decide) rfl rfl)⟩
        · obtain ⟨events, hrest⟩ := ih (Nat.le_add_left 1 k)
          exact ⟨_ :: events, .next hturn hrest⟩

end GaussSeidel

/-! ### Whole solves -/

/-- The system starts from a guess with these residuals. -/
def NonlinearSystem.Starts (sys : NonlinearSystem α σ) (s : σ) (r : Array α) (t : σ) : Prop :=
  ∃ u, sys.guess s = .ok () u ∧ sys.residuals u = .ok r t

/-- A solve that starts with a guess and an evaluation, and tells the observer the norm, fails at
one of these with nothing told, or goes on from there. -/
theorem start_cases (sys : NonlinearSystem α σ) (observer : Observer (NonlinearEvent α) ω)
    (next : Array α → Bool → SolveWith α μ σ ω (Solution α)) (s : SolveState μ σ ω) :
    let started := onSystem sys.guess >>= fun _ => onSystem sys.residuals >>= fun r =>
      report observer (.started (Vec.norm r)) >>= next r
    (∃ e t, started s = .error (.eval e) t ∧ t.watch = s.watch) ∨
      ∃ r t stop, sys.Starts s.system r t ∧
        started s = next r stop ({ s with system := t }.told observer (.started (Vec.norm r))) := by
  intro started
  cases hguess : sys.guess s.system with
  | error e u =>
    have h : (onSystem sys.guess : SolveWith α μ σ ω _) s =
        .error (.eval e) { s with system := u } := by
      simp only [onSystem, hguess]
    exact .inl ⟨_, _, bind_of_error _ h, rfl⟩
  | ok _ u =>
    have h : (onSystem sys.guess : SolveWith α μ σ ω _) s = .ok () { s with system := u } := by
      simp only [onSystem, hguess]
    rw [show started s = _ from bind_of_ok _ h]
    cases hresiduals : sys.residuals u with
    | error e t =>
      have h : (onSystem sys.residuals : SolveWith α μ σ ω _) { s with system := u } =
          .error (.eval e) { s with system := t } := by
        simp only [onSystem, hresiduals]
      exact .inl ⟨_, _, bind_of_error _ h, rfl⟩
    | ok r t =>
      have h : (onSystem sys.residuals : SolveWith α μ σ ω _) { s with system := u } =
          .ok r { s with system := t } := by
        simp only [onSystem, hresiduals]
      rw [bind_of_ok _ h, bind_of_ok _ (report_eq _ _)]
      exact .inr ⟨r, t, _, ⟨u, hguess, hresiduals⟩, rfl⟩

/-- A solve by Newton's method once the observer has seen the start. -/
def Newton.proceed (config : NewtonSettings α) (linear : LinearSolver α μ)
    (sys : NonlinearSystem α σ) (observer : Observer (NonlinearEvent α) ω) (r : Array α)
    (stop : Bool) : SolveWith α μ σ ω (Solution α) :=
  let n := Vec.norm r
  if stop then pure ⟨.stoppedByObserver, 0, n, n⟩
  else if meetsTolerances config.atol config.rtol n n then pure ⟨.converged, 0, n, n⟩
  else iterate config linear sys observer n config.maxiter 1 r

/-- A solve by block Gauss-Seidel once the observer has seen the start. -/
def GaussSeidel.proceed (config : GaussSeidelSettings α) (sys : NonlinearSystem α σ)
    (observer : Observer (NonlinearEvent α) ω) (r : Array α) (stop : Bool) :
    SolveWith α μ σ ω (Solution α) :=
  let n := Vec.norm r
  if stop then pure ⟨.stoppedByObserver, 0, n, n⟩
  else if meetsTolerances config.atol config.rtol n n then pure ⟨.converged, 0, n, n⟩
  else if !Scalar.isFinite n then giveUp config n .diverged 0 n
  else iterate config sys observer n config.maxiter 1 n 0 n

theorem Newton.solve_cases (config : NewtonSettings α) (linear : LinearSolver α μ)
    (sys : NonlinearSystem α σ) (observer : Observer (NonlinearEvent α) ω)
    (s : SolveState μ σ ω) :
    (∃ e t, solve config linear sys observer s = .error (.eval e) t ∧ t.watch = s.watch) ∨
      ∃ r t stop, sys.Starts s.system r t ∧ solve config linear sys observer s =
        proceed config linear sys observer r stop
          ({ s with system := t }.told observer (.started (Vec.norm r))) :=
  start_cases sys observer (proceed config linear sys observer) s

theorem GaussSeidel.solve_cases (config : GaussSeidelSettings α) (sys : NonlinearSystem α σ)
    (observer : Observer (NonlinearEvent α) ω) (s : SolveState μ σ ω) :
    (∃ e t, solve config sys observer s = .error (.eval e) t ∧ t.watch = s.watch) ∨
      ∃ r t stop, sys.Starts s.system r t ∧ solve config sys observer s =
        proceed config sys observer r stop
          ({ s with system := t }.told observer (.started (Vec.norm r))) :=
  start_cases sys observer (proceed config sys observer) s

namespace NonlinearConfig

variable {config : NonlinearConfig α} {linear : LinearSolver α μ}

/-- An iteration of the configured solver. -/
def Turns (linear : LinearSolver α μ) (sys : NonlinearSystem α σ) :
    NonlinearConfig α → Turn α μ σ ω
  | .newton s => Newton.Turns s linear sys
  | .gaussSeidel _ => GaussSeidel.Turns sys
  | .runOnce => fun _ _ _ _ _ _ => False

/-- An iteration tells the observer nothing. -/
theorem Turns.watch {alpha : α} (h : config.Turns linear sys k r s alpha r' t) :
    t.watch = s.watch := by
  cases config with
  | newton settings => exact Newton.Turns.watch h
  | gaussSeidel settings => exact GaussSeidel.Turns.watch (k := k) (r := r) h
  | runOnce => exact absurd h not_false

/-- **Behind every outcome of a solve**, also a failure, stand a start and iterations: either an
evaluation has failed and nothing has been told, or the start and then the events of these
iterations. -/
theorem solveWith_traced (linear : LinearSolver α μ) (sys : NonlinearSystem α σ)
    (observer : Observer (NonlinearEvent α) ω) (hrules : config.rules? = some rules)
    (s : SolveState μ σ ω) :
    (∃ e t, config.solveWith linear sys observer s = .error (.eval e) t ∧ t.watch = s.watch) ∨
      ∃ r t events, sys.Starts s.system r t ∧
        Traced rules (config.Turns linear sys) sys observer (Vec.norm r) rules.maxiter 1 r
          ({ s with system := t }.told observer (.started (Vec.norm r))) events
          (config.solveWith linear sys observer s) := by
  cases config with
  | newton settings =>
    cases hrules
    refine (Newton.solve_cases settings linear sys observer s).imp id ?_
    rintro ⟨r, t, stop, hstarts, hsolve⟩
    refine ⟨r, t, ?_⟩
    change ∃ events, _ ∧ Traced _ _ _ _ _ _ _ _ _ _ (Newton.solve settings linear sys observer s)
    rw [hsolve]
    unfold Newton.proceed
    split_ifs with hstop hmeets
    · exact ⟨[], hstarts, .stopped rfl⟩
    · exact ⟨[], hstarts, .converged rfl hmeets⟩
    · exact (Newton.iterate_traced le_rfl).imp fun _ h => ⟨hstarts, h⟩
  | gaussSeidel settings =>
    cases hrules
    refine (GaussSeidel.solve_cases settings sys observer s).imp id ?_
    rintro ⟨r, t, stop, hstarts, hsolve⟩
    refine ⟨r, t, ?_⟩
    change ∃ events, _ ∧ Traced _ _ _ _ _ _ _ _ _ _ (GaussSeidel.solve settings sys observer s)
    rw [hsolve]
    unfold GaussSeidel.proceed
    split_ifs with hstop hmeets hfinite
    · exact ⟨[], hstarts, .stopped rfl⟩
    · exact ⟨[], hstarts, .converged rfl hmeets⟩
    · exact ⟨[], hstarts, Traced.givenUp (by decide) rfl rfl⟩
    · exact (GaussSeidel.iterate_traced le_rfl).imp fun _ h => ⟨hstarts, h⟩
  | runOnce => cases hrules

end NonlinearConfig

/-! ### Systems that keep a log -/

section Logged

/-- Something that is asked of a system. -/
inductive Request (α : Type) where
  /-- The unknowns are replaced. -/
  | setState (x : Array α)
  /-- The residuals are evaluated. -/
  | residuals
  /-- The Jacobian is refreshed. -/
  | linearize
  /-- The subsystems are swept. -/
  | sweep
  /-- The subsystems adjust the unknowns. -/
  | guess
  deriving DecidableEq

variable {α σ ε β : Type}

/-- A step that is written down. -/
def noted (request : Request α) (step : EStateM ε σ β) : EStateM ε (σ × List (Request α)) β :=
  fun s =>
    match step s.1 with
    | .ok b t => .ok b (t, s.2 ++ [request])
    | .error e t => .error e (t, s.2 ++ [request])

/-- The system with a log of what it is asked for. -/
def NonlinearSystem.logged (sys : NonlinearSystem α σ) :
    NonlinearSystem α (σ × List (Request α)) where
  state s := sys.state s.1
  setState x s := (sys.setState x s.1, s.2 ++ [.setState x])
  lower := sys.lower
  upper := sys.upper
  residuals := noted .residuals sys.residuals
  linearize := noted .linearize sys.linearize
  sweep := noted .sweep sys.sweep
  guess := noted .guess sys.guess
  operator s := sys.operator s.1

end Logged

end Mdao
