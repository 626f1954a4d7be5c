import Mathlib
import Mdao.Proofs.Exact
import Mdao.Proofs.Nonlinear.Trace

/-!
# What nonlinear solves report

A solution says how a solve ended, after how many iterations, and between which residual norms.
**All of it is so** (`NonlinearConfig.solveWith_truthful`), whatever the system, the linear solver and
the observer do: the first norm is that after the guess, the last is that of the system as it is left,
and the observer has been told of the start and then of each iteration that is counted. A solve always
ends, since its iterations are bounded in number from the start.
-/

namespace Mdao

variable {α μ σ ω : Type}

/-- The residuals are a function of the unknowns at which an evaluation leaves the system. -/
def NonlinearSystem.Answers (sys : NonlinearSystem α σ) (F : Array α → Array α) : Prop :=
  ∀ s r t, sys.residuals s = .ok r t → r = F (sys.state t)

variable [Scalar α]

/-- A solution reports what has happened between two states of a solve, in iterations that have given
rise to these events. -/
structure Solution.Truthful (config : NonlinearConfig α) (rules : StoppingRules α)
    (linear : LinearSolver α μ) (sys : NonlinearSystem α σ)
    (observer : Observer (NonlinearEvent α) ω) (solution : Solution α)
    (events : List (NonlinearEvent α)) (start finish : SolveState μ σ ω) : Prop where
  /-- The initial norm is the norm right after the guess, and the iterations begin there. -/
  started : ∃ r t r' u, sys.Starts start.system r t ∧ solution.initialNorm = Vec.norm r ∧
    Iterated (config.Turns linear sys) sys observer 1 r
      ({ start with system := t }.told observer (.started solution.initialNorm)) events r' u
  /-- The observer has seen the start, then the iterations, and nothing else. -/
  seen : finish.watch =
    (.started solution.initialNorm :: events).foldl observer.after start.watch
  /-- The iterations are numbered from one. -/
  numbered : events.map Progress.iteration = List.range' 1 solution.iters
  /-- An iteration is told with the norm of the residuals to which it has evaluated the system, and
  with the unknowns that it has left there. -/
  told : ∀ e ∈ events, ∃ k alpha r t, sys.EvaluatedTo r t ∧ e = sys.eventAfter k alpha r t
  /-- There are no more iterations than allowed. -/
  iters_le : solution.iters ≤ rules.maxiter
  /-- The last norm is that of the residuals to which the system has been evaluated last. -/
  ends : solution.Ends sys finish.system
  /-- If the residuals are a function of the unknowns, it is that of the unknowns now. -/
  answers : ∀ F, sys.Answers F → solution.residualNorm = Vec.norm (F (sys.state finish.system))
  /-- The status is by the rules. -/
  admitted : rules.Admits solution

variable {config : NonlinearConfig α} {rules : StoppingRules α} {linear : LinearSolver α μ}
  {sys : NonlinearSystem α σ} {observer : Observer (NonlinearEvent α) ω} {solution : Solution α}
  {s s' : SolveState μ σ ω}

theorem Solution.Ends.eq_norm {F : Array α → Array α} {s : σ} (h : solution.Ends sys s)
    (hF : sys.Answers F) : solution.residualNorm = Vec.norm (F (sys.state s)) := by
  obtain ⟨r, ⟨t, heval⟩, hnorm⟩ := h
  rw [hnorm, hF t r s heval]

/-- After an iteration the system is as an evaluation has left it. -/
theorem NonlinearConfig.Turns.evaluatedTo {k : Nat} {r r' : Array α} {s t : SolveState μ σ ω}
    {alpha : α} (h : config.Turns linear sys k r s alpha r' t) : sys.EvaluatedTo r' t.system := by
  cases config with
  | newton settings =>
    obtain ⟨r₁, s₁, -, -, hstep⟩ := h
    exact Newton.step_ends hstep
  | gaussSeidel settings =>
    obtain ⟨-, s₁, -, hresiduals⟩ := h
    exact SolveM.evaluatedTo_residuals hresiduals
  | runOnce => exact absurd h not_false

/-- **A solution reports what has happened.** -/
theorem NonlinearConfig.solveWith_truthful (hrules : config.rules? = some rules)
    (h : config.solveWith linear sys observer s = .ok solution s') :
    ∃ events, solution.Truthful config rules linear sys observer events s s' := by
  rcases solveWith_traced linear sys observer hrules s with
    ⟨e, t, hfails, -⟩ | ⟨r, t, events, hstarts, htraced⟩
  · rw [h] at hfails
    cases hfails
  · rw [h] at htraced
    obtain ⟨hiters, hinitial, hadmits⟩ := htraced.reported solution s' rfl
    obtain ⟨r', u, hiterated, hwatch⟩ := htraced.iterated
    rw [← hinitial] at hiterated
    have hcount : solution.iters = events.length := by omega
    refine ⟨events, ⟨⟨r, t, r', u, hstarts, hinitial, hiterated⟩, ?_, ?_, ?_, ?_, solve_ends h,
      fun F => (solve_ends h).eq_norm, hadmits⟩⟩
    · rw [show s'.watch = u.watch from hwatch, hiterated.watch fun _ _ _ _ _ _ h => h.watch]
      rfl
    · rw [hcount]
      exact hiterated.numbered
    · exact hiterated.forall_mem (J := fun _ => True) (fun k _ _ alpha r' t _ hturn =>
        ⟨trivial, k, alpha, r', t.system, hturn.evaluatedTo, rfl⟩) trivial
    · rw [hcount]
      exact htraced.length_le

/-! ### A solve -/

namespace Halving

/-- One unknown between 1 and 5 whose residual is itself: a guess sets it to 8, a sweep halves it. -/
def system : NonlinearSystem ℚ ℚ where
  state x := #[x]
  setState y _ := Vec.entry y 0
  lower := #[some 1]
  upper := #[some 5]
  residuals := fun x => .ok #[x] x
  linearize := fun x => .ok () x
  sweep := fun x => .ok () (x / 2)
  guess := fun _ => .ok () 8
  operator _ := Operator.ofRows [[1]] [.upTo 1]

/-- Two steps of Newton's method with sweeps before them. -/
def settings : NewtonSettings ℚ :=
  { NewtonSettings.default with maxiter := 2, solveSubsystems := true }

/-- The solver with these settings. -/
def newton : NonlinearConfig ℚ := .newton settings

/-- A solve with nothing remembered and nothing seen. -/
def start : Solving ℚ ℚ (History ℚ) := ⟨0, .blank, .empty⟩

/-- What comes of the solve. -/
def outcome : EStateM.Result (NonlinearError ℚ) (Solving ℚ ℚ (History ℚ)) (Solution ℚ) :=
  newton.solveWith LinearConfig.direct.solver system History.recorder start

/-- The guess has norm 8; the sweep before the first step leads to 4 and the step to the bound 1; the
second sweep leaves the bounds, and the second step comes back to 1. -/
theorem truthful_newton : ∃ rules solution finish, newton.rules? = some rules ∧
    newton.solveWith LinearConfig.direct.solver system History.recorder start =
      .ok solution finish ∧
    solution.status = .maxIters ∧ finish.watch.entries = [(0, 8), (1, 1), (2, 1)] ∧
    ∃ events, solution.Truthful newton rules LinearConfig.direct.solver system History.recorder
      events start finish := by
  obtain ⟨solution, houtcome⟩ :=
    eq_ok_of_isResult (show isResult outcome = true by decide +kernel)
  have hstatus : (resultOf outcome).map Solution.status = some .maxIters := by decide +kernel
  have hentries : (stateAfter outcome).watch.entries = [(0, 8), (1, 1), (2, 1)] := by
    decide +kernel
  rw [houtcome] at hstatus
  exact ⟨_, solution, stateAfter outcome, rfl, houtcome, Option.some.inj hstatus, hentries,
    NonlinearConfig.solveWith_truthful rfl houtcome⟩

end Halving

end Mdao
