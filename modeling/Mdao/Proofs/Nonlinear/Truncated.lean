import Mathlib
import Mdao.Proofs.Linear.Cold
import Mdao.Proofs.Nonlinear.Trace
import Mdao.Proofs.Nonlinear.Truthful

/-!
# Stopping early

An observer that stops a solve after `k` iterations is asked before the residuals are looked at, and
a limit of `k` iterations ends the solve only where the next one would begin. Still the two make the
same requests of the system and leave it in the same state, or fail with the same error
(`NonlinearConfig.solveWith_stopAfter`): between the observer's question and the end of the solve
nothing is asked of the system, and the sweep of an iteration belongs to its beginning. How the two
solves say that they have stopped may differ.

The linear solvers of the two solves start from the same memory, or they start afresh and their
memories do not matter (`LinearSolver.IsCold`).
-/

namespace Mdao

variable {α μ σ ω ω' β : Type}

/-! ### Linear solvers that start afresh -/

/-- The linear solver answers alike from memories that are related by `Before` until it is set up,
and by `After` from then on to the end of its solve. -/
structure LinearSolver.Repeats (linear : LinearSolver α μ) (Before After : μ → μ → Prop) :
    Prop where
  setup : ∀ op m m', Before m m' →
    Agree After (fun _ _ => True) (linear.setup op m) (linear.setup op m')
  solve : ∀ op mode rhs m m', After m m' →
    Agree Before (fun _ _ => True) (linear.solve op mode rhs m) (linear.solve op mode rhs m')

/-- The linear solver answers alike whatever it has remembered before it is set up. -/
def LinearSolver.IsCold (linear : LinearSolver α μ) : Prop :=
  ∃ After, linear.Repeats (fun _ _ => True) After

/-- From one memory a solver answers alike. -/
theorem LinearSolver.repeats_eq (linear : LinearSolver α μ) : linear.Repeats Eq Eq where
  setup _ _ _ h := h ▸ Agree.of_outcome_eq rfl
  solve _ _ _ _ _ h := h ▸ Agree.of_outcome_eq rfl

/-- A configured solver whose settings use no earlier solution starts afresh. -/
theorem LinearConfig.isCold_solver [Scalar α] {linear : LinearConfig α} (h : linear.IsCold) :
    linear.solver.IsCold :=
  ⟨linear.Alike,
    { setup := fun op m m' _ => setup_agrees op linear m m'
      solve := fun op mode rhs _ _ hm => (solve_agrees op mode h rhs hm).mono
        (fun _ _ _ => trivial) fun _ _ _ => trivial }⟩

/-! ### Two solves side by side -/

/-- Two solves with the same system, and memories that are related by `M`. -/
structure SolveState.Together (M : μ → μ → Prop) (a : SolveState μ σ ω) (b : SolveState μ σ ω') :
    Prop where
  system : a.system = b.system
  memory : M a.memory b.memory

/-- Two solves with the same system. -/
abbrev SolveState.SameSystem (a : SolveState μ σ ω) (b : SolveState μ σ ω') : Prop :=
  a.system = b.system

/-- Two solves that both stop, each in its own way, or both fail with the same error, and leave the
system in the same state. -/
inductive EndsAlike : EStateM.Result (NonlinearError α) (SolveState μ σ ω) (Solution α) →
    EStateM.Result (NonlinearError α) (SolveState μ σ ω') (Solution α) → Prop where
  | stopped {a : EStateM.Result (NonlinearError α) (SolveState μ σ ω) (Solution α)}
      {b : EStateM.Result (NonlinearError α) (SolveState μ σ ω') (Solution α)}
      (ha : (stopOf a).isSome = true) (hb : (stopOf b).isSome = true)
      (h : (stateAfter a).SameSystem (stateAfter b)) : EndsAlike a b
  | failed (e : NonlinearError α) {s : SolveState μ σ ω} {t : SolveState μ σ ω'}
      (h : s.SameSystem t) : EndsAlike (.error e s) (.error e t)

open SolveState (Together SameSystem)

/-- Two solves that give up with the same system. -/
theorem EndsAlike.givenUp
    {a : EStateM.Result (NonlinearError α) (SolveState μ σ ω) (Solution α)}
    {b : EStateM.Result (NonlinearError α) (SolveState μ σ ω') (Solution α)}
    {s : SolveState μ σ ω} {t : SolveState μ σ ω'} {stop stop' : Status × Nat}
    (ha : stopOf a = some stop ∧ stateAfter a = s) (hb : stopOf b = some stop' ∧ stateAfter b = t)
    (h : s.SameSystem t) : EndsAlike a b := by
  refine .stopped (by rw [ha.1]; rfl) (by rw [hb.1]; rfl) ?_
  rw [ha.2, hb.2]
  exact h

/-- Solves end alike where they go on alike from steps that agree. -/
theorem EndsAlike.bind {Q : SolveState μ σ ω → SolveState μ σ ω' → Prop}
    {step : SolveWith α μ σ ω β} {step' : SolveWith α μ σ ω' β}
    {next : β → SolveWith α μ σ ω (Solution α)} {next' : β → SolveWith α μ σ ω' (Solution α)}
    {s : SolveState μ σ ω} {t : SolveState μ σ ω'} (h : Agree Q SameSystem (step s) (step' t))
    (hnext : ∀ b s' t', Q s' t' → EndsAlike (next b s') (next' b t')) :
    EndsAlike ((step >>= next) s) ((step' >>= next') t) := by
  show EndsAlike (EStateM.bind step next s) (EStateM.bind step' next' t)
  unfold EStateM.bind
  revert h
  generalize step s = r
  generalize step' t = r'
  rintro (⟨b, h⟩ | ⟨e, h⟩)
  · exact hnext b _ _ h
  · exact .failed e h

/-! ### Steps -/

namespace SolveM

variable {M M' : μ → μ → Prop} {s : SolveState μ σ ω} {t : SolveState μ σ ω'}

theorem onSystem_together (step : EStateM EvalError σ β) (h : Together M s t) :
    Agree (Together M) SameSystem ((onSystem step : SolveWith α μ σ ω β) s)
      ((onSystem step : SolveWith α μ σ ω' β) t) := by
  unfold onSystem
  rw [h.system]
  cases step t.system with
  | ok b u => exact .ok b ⟨rfl, h.memory⟩
  | error e u => exact .error _ rfl

theorem onMemory_together {sys : NonlinearSystem α σ}
    {step : Operator α → EStateM LinearError μ β}
    (hstep : ∀ op m m', M m m' → Agree M' (fun _ _ => True) (step op m) (step op m'))
    (h : Together M s t) :
    Agree (Together M') SameSystem ((onMemory sys step : SolveWith α μ σ ω β) s)
      ((onMemory sys step : SolveWith α μ σ ω' β) t) := by
  unfold onMemory
  rw [h.system]
  have hagree := hstep (sys.operator t.system) _ _ h.memory
  revert hagree
  generalize step (sys.operator t.system) s.memory = r
  generalize step (sys.operator t.system) t.memory = r'
  rintro (⟨b, hm⟩ | ⟨e, -⟩)
  · exact .ok b ⟨rfl, hm⟩
  · exact .error _ rfl

theorem unknowns_together (sys : NonlinearSystem α σ) (h : Together M s t) :
    Agree (Together M) SameSystem ((unknowns sys : SolveWith α μ σ ω _) s)
      ((unknowns sys : SolveWith α μ σ ω' _) t) := by
  unfold unknowns
  rw [h.system]
  exact .ok _ h

/-- The rule asks for a stop from its iteration on. -/
theorem stops_stopAfter (k : Nat) (e : NonlinearEvent α) (w : ω) :
    ((StopAfter.mk k).observer.stops e w).1 = decide (k ≤ Progress.iteration e) := by
  unfold Observer.stops StopAfter.observer Observer.ofDecision StopAfter.decides
  by_cases hk : k ≤ Progress.iteration e
  · simp [hk]
  · simp [hk]

/-- At the start the rule asks for a stop only if it allows no iterations. -/
theorem stops_started (k : Nat) (residualNorm : α) (w : ω) :
    ((StopAfter.mk k).observer.stops (NonlinearEvent.started residualNorm) w).1 = decide (k ≤ 0) :=
  stops_stopAfter k _ w

/-- After an iteration the rule asks for a stop if it allows no more. -/
theorem stops_iterated (k iter : Nat) (residualNorm alpha : α) (x : Array α) (w : ω) :
    ((StopAfter.mk k).observer.stops (NonlinearEvent.iterated iter residualNorm alpha x) w).1 =
      decide (k ≤ iter) :=
  stops_stopAfter k _ w

/-- The observers are told an event, and nothing else changes. -/
theorem Together.told {s : SolveState μ σ ω} {t : SolveState μ σ ω'} (h : Together M s t)
    (observer : Observer (NonlinearEvent α) ω) (observer' : Observer (NonlinearEvent α) ω')
    (e : NonlinearEvent α) : Together M (s.told observer e) (t.told observer' e) :=
  ⟨h.system, h.memory⟩

end SolveM

open SolveM

/-! ### Limits -/

/-- The settings with at most `k` steps. -/
def NewtonSettings.capped (config : NewtonSettings α) (k : Nat) : NewtonSettings α :=
  { config with maxiter := min config.maxiter k }

/-- The settings with at most `k` sweeps. -/
def GaussSeidelSettings.capped (config : GaussSeidelSettings α) (k : Nat) : GaussSeidelSettings α :=
  { config with maxiter := min config.maxiter k }

/-- The solver with at most `k` iterations; one without iterations stays as it is. -/
def NonlinearConfig.capped (k : Nat) : NonlinearConfig α → NonlinearConfig α
  | .newton s => .newton (s.capped k)
  | .gaussSeidel s => .gaussSeidel (s.capped k)
  | .runOnce => .runOnce

variable [Scalar α] {sys : NonlinearSystem α σ} {linear : LinearSolver α μ}
  {Before After : μ → μ → Prop} {s : SolveState μ σ ω} {t : SolveState μ σ Unit} {k : Nat}

/-! ### Newton's method -/

namespace Newton

variable {config : NewtonSettings α}

omit [Scalar α] in
theorem prepare_together {M : μ → μ → Prop} (iter : Nat) (r : Array α) (h : Together M s t) :
    Agree (Together M) SameSystem (prepare config sys iter r s) (prepare config sys iter r t) := by
  unfold prepare
  split_ifs
  · exact .bind (onSystem_together _ h) fun _ _ _ h => onSystem_together _ h
  · exact .ok r h

theorem step_together (hlinear : linear.Repeats Before After) (r : Array α)
    (h : Together Before s t) :
    Agree (Together Before) SameSystem (step config linear sys r s)
      (step config linear sys r t) := by
  unfold step
  refine .bind (onSystem_together _ h) fun _ _ _ h => ?_
  refine .bind (onMemory_together hlinear.setup h) fun _ _ _ h => ?_
  refine .bind (onMemory_together (fun op m m' hm => hlinear.solve op .fwd _ m m' hm) h)
    fun Δ _ _ h => ?_
  exact .bind (unknowns_together sys h) fun _ _ _ h => onSystem_together _ h

/-- The limit counts where the iteration starts, and nowhere else. -/
theorem iterate_capped (observer : Observer (NonlinearEvent α) ω) (initialNorm : α)
    (fuel iter : Nat) (r : Array α) :
    (iterate (config.capped k) linear sys observer initialNorm fuel iter r :
      SolveWith α μ σ ω _) = iterate config linear sys observer initialNorm fuel iter r := by
  induction fuel generalizing iter r with
  | zero => rfl
  | succ fuel ih =>
    unfold iterate
    simp only [ih]
    rfl

/-- From an iteration up to the `k`-th, a solve that is stopped after that one ends like a solve
with so many iterations less. -/
theorem iterate_endsAlike (hlinear : linear.Repeats Before After) (initialNorm : α)
    {fuel iter : Nat} (r : Array α) (hiter : iter ≤ k) (h : Together Before s t) :
    EndsAlike (iterate config linear sys (StopAfter.mk k).observer initialNorm fuel iter r s)
      (iterate config linear sys .silent initialNorm (min fuel (k + 1 - iter)) iter r t) := by
  induction fuel generalizing iter r s t with
  | zero =>
    rw [Nat.zero_min]
    exact .givenUp (stop_giveUp config _ _ _ _ s) (stop_giveUp config _ _ _ _ t) h.system
  | succ fuel ih =>
    rw [show min (fuel + 1) (k + 1 - iter) = min fuel (k + 1 - (iter + 1)) + 1 by omega]
    unfold iterate
    refine .bind (prepare_together iter r h) fun r s t h => ?_
    dsimp only
    split_ifs
    · refine .bind (step_together hlinear r h) fun moved s t h => ?_
      refine .bind (unknowns_together sys h) fun x s t h => ?_
      rw [bind_of_ok _ (report_eq s _), bind_of_ok _ (report_eq t _), stops_iterated, stops_silent,
        if_neg Bool.false_ne_true]
      by_cases hk : k ≤ iter
      -- the observer stops the one solve, and the other has no iterations left
      · obtain rfl := le_antisymm hk hiter
        rw [if_pos (decide_eq_true hk), Nat.sub_self, Nat.min_zero]
        split_ifs
        · exact .stopped rfl rfl h.system
        · exact .givenUp ⟨rfl, rfl⟩ (stop_giveUp config _ _ _ _ _) h.system
      · rw [if_neg (by rwa [decide_eq_true_eq])]
        split_ifs
        · exact .stopped rfl rfl h.system
        · exact ih moved.2 (by omega) ⟨h.system, h.memory⟩
    · exact .givenUp (stop_giveUp config _ _ _ _ s) (stop_giveUp config _ _ _ _ t) h.system

theorem solve_endsAlike (hlinear : linear.Repeats Before After) (h : Together Before s t) :
    EndsAlike (solve config linear sys (StopAfter.mk k).observer s)
      (solve (config.capped k) linear sys .silent t) := by
  unfold solve
  refine .bind (onSystem_together _ h) fun _ s t h => ?_
  refine .bind (onSystem_together _ h) fun r s t h => ?_
  rw [bind_of_ok _ (report_eq s _), bind_of_ok _ (report_eq t _), stops_started, stops_silent,
    if_neg Bool.false_ne_true, iterate_capped]
  change EndsAlike _ ((if meetsTolerances config.atol config.rtol _ _ then _ else
    iterate config linear sys .silent _ (min config.maxiter k) 1 r : SolveWith α μ σ Unit _) _)
  by_cases hk : k ≤ 0
  · obtain rfl := Nat.le_zero.1 hk
    rw [if_pos (decide_eq_true hk), Nat.min_zero]
    split_ifs
    · exact .stopped rfl rfl h.system
    · exact .givenUp ⟨rfl, rfl⟩ (stop_giveUp config _ _ _ _ _) h.system
  · rw [if_neg (by rwa [decide_eq_true_eq])]
    split_ifs
    · exact .stopped rfl rfl h.system
    · exact iterate_endsAlike hlinear _ r (by omega) ⟨h.system, h.memory⟩

end Newton

/-! ### Sweeps -/

namespace GaussSeidel

variable {config : GaussSeidelSettings α} {M : μ → μ → Prop}

/-- The limit counts where the iteration starts, and nowhere else. -/
theorem iterate_capped (observer : Observer (NonlinearEvent α) ω) (initialNorm : α)
    (fuel iter : Nat) (best : α) (stalled : Nat) (residualNorm : α) :
    (iterate (config.capped k) sys observer initialNorm fuel iter best stalled residualNorm :
      SolveWith α μ σ ω _) =
      iterate config sys observer initialNorm fuel iter best stalled residualNorm := by
  induction fuel generalizing iter best stalled residualNorm with
  | zero => rfl
  | succ fuel ih =>
    unfold iterate
    simp only [ih]
    rfl

/-- From a sweep up to the `k`-th, a solve that is stopped after that one ends like a solve with so
many sweeps less. -/
theorem iterate_endsAlike (initialNorm : α) {fuel iter : Nat} (best : α) (stalled : Nat)
    (residualNorm : α) (hiter : iter ≤ k) (h : Together M s t) :
    EndsAlike (iterate config sys (StopAfter.mk k).observer initialNorm fuel iter best stalled
        residualNorm s)
      (iterate config sys .silent initialNorm (min fuel (k + 1 - iter)) iter best stalled
        residualNorm t) := by
  induction fuel generalizing iter best stalled residualNorm s t with
  | zero =>
    rw [Nat.zero_min]
    exact .givenUp (stop_giveUp config _ _ _ _ s) (stop_giveUp config _ _ _ _ t) h.system
  | succ fuel ih =>
    rw [show min (fuel + 1) (k + 1 - iter) = min fuel (k + 1 - (iter + 1)) + 1 by omega]
    unfold iterate
    refine .bind (onSystem_together _ h) fun _ s t h => ?_
    refine .bind (onSystem_together _ h) fun r s t h => ?_
    refine .bind (unknowns_together sys h) fun x s t h => ?_
    rw [bind_of_ok _ (report_eq s _), bind_of_ok _ (report_eq t _), stops_iterated, stops_silent,
      if_neg Bool.false_ne_true]
    dsimp only
    by_cases hk : k ≤ iter
    -- the observer stops the one solve, and the other has no sweeps left
    · obtain rfl := le_antisymm hk hiter
      rw [if_pos (decide_eq_true hk), Nat.sub_self, Nat.min_zero]
      split_ifs
      · exact .stopped rfl rfl h.system
      · exact .givenUp ⟨rfl, rfl⟩ (stop_giveUp config _ _ _ _ _) h.system
      · exact .givenUp ⟨rfl, rfl⟩ (stop_giveUp config _ _ _ _ _) h.system
      · exact .givenUp ⟨rfl, rfl⟩ (stop_giveUp config _ _ _ _ _) h.system
    · rw [if_neg (by rwa [decide_eq_true_eq])]
      split_ifs
      · exact .stopped rfl rfl h.system
      · exact .givenUp (stop_giveUp config _ _ _ _ _) (stop_giveUp config _ _ _ _ _) h.system
      · exact .givenUp (stop_giveUp config _ _ _ _ _) (stop_giveUp config _ _ _ _ _) h.system
      · exact ih _ _ _ (by omega) ⟨h.system, h.memory⟩

theorem solve_endsAlike (h : Together M s t) :
    EndsAlike (solve config sys (StopAfter.mk k).observer s)
      (solve (config.capped k) sys .silent t) := by
  unfold solve
  refine .bind (onSystem_together _ h) fun _ s t h => ?_
  refine .bind (onSystem_together _ h) fun r s t h => ?_
  rw [bind_of_ok _ (report_eq s _), bind_of_ok _ (report_eq t _), stops_started, stops_silent,
    if_neg Bool.false_ne_true, iterate_capped]
  change EndsAlike _ ((if meetsTolerances config.atol config.rtol _ _ then _ else
    if !Scalar.isFinite _ then giveUp config _ _ _ _ else
    iterate config sys .silent _ (min config.maxiter k) 1 _ _ _ : SolveWith α μ σ Unit _) _)
  by_cases hk : k ≤ 0
  · obtain rfl := Nat.le_zero.1 hk
    rw [if_pos (decide_eq_true hk), Nat.min_zero]
    split_ifs
    · exact .stopped rfl rfl h.system
    · exact .givenUp ⟨rfl, rfl⟩ (stop_giveUp config _ _ _ _ _) h.system
    · exact .givenUp ⟨rfl, rfl⟩ (stop_giveUp config _ _ _ _ _) h.system
  · rw [if_neg (by rwa [decide_eq_true_eq])]
    split_ifs
    · exact .stopped rfl rfl h.system
    · exact .givenUp (stop_giveUp config _ _ _ _ _) (stop_giveUp config _ _ _ _ _) h.system
    · exact iterate_endsAlike _ _ _ _ (by omega) ⟨h.system, h.memory⟩

end GaussSeidel

/-! ### Whole solves -/

theorem RunOnce.solve_endsAlike {M : μ → μ → Prop} (h : Together M s t) :
    EndsAlike (solve sys s) (solve sys t) := by
  unfold solve
  refine .bind (onSystem_together _ h) fun _ s t h => ?_
  refine .bind (onSystem_together _ h) fun _ s t h => ?_
  refine .bind (onSystem_together _ h) fun r s t h => ?_
  exact .stopped rfl rfl h.system

namespace NonlinearConfig

variable {config : NonlinearConfig α}

theorem solveWith_endsAlike (hlinear : linear.Repeats Before After) (h : Together Before s t) :
    EndsAlike (config.solveWith linear sys (StopAfter.mk k).observer s)
      ((config.capped k).solveWith linear sys .silent t) := by
  cases config with
  | newton settings => exact Newton.solve_endsAlike hlinear h
  | gaussSeidel settings => exact GaussSeidel.solve_endsAlike h
  | runOnce => exact RunOnce.solve_endsAlike h

/-- **Stopping early is truncation.** A solve that is stopped after `k` iterations and one that
nobody watches, with at most `k` of them, leave the system in the same state, both stopped or both
failed with the same error. They also make the same requests of it, in the same order. -/
theorem solveWith_stopAfter (config : NonlinearConfig α) (linear : LinearSolver α μ)
    (sys : NonlinearSystem α σ) (k : Nat) (s : σ) {m m' : μ} (h : linear.IsCold ∨ m = m') (w : ω) :
    EndsAlike (config.solveWith linear sys (StopAfter.mk k).observer ⟨s, m, w⟩)
        ((config.capped k).solveWith linear sys .silent ⟨s, m', ()⟩) ∧
      ∀ log : List (Request α),
        EndsAlike (config.solveWith linear sys.logged (StopAfter.mk k).observer ⟨(s, log), m, w⟩)
          ((config.capped k).solveWith linear sys.logged .silent ⟨(s, log), m', ()⟩) := by
  rcases h with ⟨After, hcold⟩ | rfl
  · exact ⟨solveWith_endsAlike hcold ⟨rfl, trivial⟩,
      fun _ => solveWith_endsAlike hcold ⟨rfl, trivial⟩⟩
  · exact ⟨solveWith_endsAlike linear.repeats_eq ⟨rfl, rfl⟩,
      fun _ => solveWith_endsAlike linear.repeats_eq ⟨rfl, rfl⟩⟩

end NonlinearConfig

namespace Halving

/-- GMRES that always starts from zero. -/
def afresh : LinearConfig ℚ := .gmres { GmresSettings.default with useCachedGuess := false }

/-- What is remembered of an earlier solve. -/
def remembered : LinearMemory ℚ := [{ LinearMemory.Cell.blank with forward := some #[5] }]

/-- One step of two: the observer stops it there, and the limit ends it there. -/
theorem endsAlike_after_one_step :
    let observed :=
      newton.solveWith afresh.solver system (StopAfter.mk 1).observer ⟨0, remembered, ()⟩
    let limited := (newton.capped 1).solveWith afresh.solver system .silent ⟨0, .blank, ()⟩
    (afresh.solver.IsCold ∨ remembered = .blank) ∧ EndsAlike observed limited ∧
      stopOf observed = some (.stoppedByObserver, 1) ∧ stopOf limited = some (.maxIters, 1) := by
  have hcold : afresh.solver.IsCold := LinearConfig.isCold_solver rfl
  exact ⟨.inl hcold,
    (NonlinearConfig.solveWith_stopAfter newton afresh.solver system 1 0 (.inl hcold) ()).1,
    by decide +kernel, by decide +kernel⟩

end Halving

end Mdao
