import Mathlib
import Mdao.Proofs.Nonlinear.Bounds
import Mdao.Proofs.Nonlinear.Trace

/-!
# Searches with shorter and shorter steps

A search of kind `armijo` tries steps of the lengths `alpha`, `alpha · rho`, `alpha · rho²` and so
on. A trial decides the search (`LineSearchSettings.Decides`) when its residual norm has decreased
enough, or when it fails with an error that a shorter step does not answer. The search ends at the
first trial that decides, and at the last one if none does, with the answer of that very trial and
the system as it leaves it; no trial after it is made (`LineSearch.search_decides`).

The residuals are a partial function of the unknowns here (`NonlinearSystem.Evaluates`), with an
error where they do not exist. Nothing is asked of the settings.
-/

namespace Mdao

variable {α σ ε β : Type}

/-- A result, or an error, with the state that is left behind. -/
def answered (answer : Except ε β) (s : σ) : EStateM.Result ε σ β :=
  match answer with
  | .ok b => .ok b s
  | .error e => .error e s

/-- From the states `I`, the residuals at `n` unknowns are those that `F` says, also after a
failure, and the unknowns are those that have been set. -/
def NonlinearSystem.Evaluates (sys : NonlinearSystem α σ) (n : Nat) (I : σ → Prop)
    (F : Array α → Except EvalError (Array α)) : Prop :=
  ∀ x s, x.size = n → I s →
    ∃ t, I t ∧ sys.state t = x ∧ sys.residuals (sys.setState x s) = answered (F x) t

variable [Scalar α]

namespace LineSearchSettings

variable (config : LineSearchSettings α)

/-- The length of each trial step. -/
def trialLength : Nat → α
  | 0 => config.alpha
  | k + 1 => trialLength k * config.rho

/-- Without rounding, each trial step is a power of `rho` shorter than the first one. -/
theorem trialLength_eq {β : Type} [ExactScalar β] (config : LineSearchSettings β) (k : Nat) :
    config.trialLength k = config.alpha * config.rho ^ k := by
  induction k with
  | zero => rw [trialLength, pow_zero, mul_one]
  | succ k ih => rw [trialLength, ih, pow_succ, mul_assoc]

/-- The search tries no step after one of length `alpha` with this answer: the norm has decreased
enough, or the error is not one to retry after. -/
def Decides (initialNorm alpha : α) : Except EvalError (Array α) → Prop
  | .ok r => Vec.norm r ≤ (1 - config.c * alpha) * initialNorm
  | .error e => ¬(config.retryOnAnalysisError = true ∧ e.isRetryable = true)

instance (initialNorm alpha : α) (answer : Except EvalError (Array α)) :
    Decidable (config.Decides initialNorm alpha answer) :=
  match answer with
  | .ok _ => inferInstanceAs (Decidable (_ ≤ _))
  | .error _ => inferInstanceAs (Decidable (¬_))

end LineSearchSettings

namespace LineSearch

/-- What a trial asks of the system. -/
def Path.asks (p : Path α) (alpha : α) : List (Request α) := [.setState (p.point alpha), .residuals]

variable {config : LineSearchSettings α} {sys : NonlinearSystem α σ} {p : Path α} {I : σ → Prop}
  {F : Array α → Except EvalError (Array α)} {initialNorm alpha : α} {t u : σ}

/-- A trial gives the residuals at its point, and the log says what has been asked for. -/
theorem exists_trial (h : sys.Evaluates p.x0.size I F) (ht : I t) (alpha : α)
    (log : List (Request α)) :
    ∃ u, I u ∧ sys.state u = p.point alpha ∧
      trial sys p alpha t = answered (F (p.point alpha)) u ∧
      trial sys.logged p alpha (t, log) =
        answered (F (p.point alpha)) (u, log ++ p.asks alpha) := by
  obtain ⟨u, hu, hstate, htrial⟩ := h (p.point alpha) t (Vec.size_tabulate _ _) ht
  refine ⟨u, hu, hstate, htrial, ?_⟩
  show noted .residuals sys.residuals (sys.setState (p.point alpha) t, _) = _
  unfold noted
  rw [htrial]
  cases F (p.point alpha) <;>
    simp only [answered, Path.asks, List.append_assoc, List.singleton_append]

/-- The last trial is accepted as it is. -/
theorem backtrack_zero {answer : Except EvalError (Array α)}
    (htrial : trial sys p alpha t = answered answer u) :
    backtrack config sys p initialNorm 0 alpha t = answered (answer.map fun r => (alpha, r)) u := by
  unfold backtrack
  rw [htrial]
  cases answer with
  | ok r => rfl
  | error e => rfl

/-- A trial that decides ends the search, and any other one is followed by a shorter step. -/
theorem backtrack_succ {answer : Except EvalError (Array α)}
    (htrial : trial sys p alpha t = answered answer u) (more : Nat) :
    backtrack config sys p initialNorm (more + 1) alpha t =
      if config.Decides initialNorm alpha answer then answered (answer.map fun r => (alpha, r)) u
      else backtrack config sys p initialNorm more (alpha * config.rho) u := by
  conv_lhs => unfold backtrack
  rw [htrial]
  cases answer with
  | ok r =>
    simp only [answered, isSufficient, decide_eq_true_eq]
    rfl
  | error e =>
    have hretry : ¬config.Decides initialNorm alpha (.error e) ↔
        (config.retryOnAnalysisError && e.isRetryable) = true :=
      not_not.trans Bool.and_eq_true_iff.symm
    dsimp only [answered]
    by_cases hdecides : config.Decides initialNorm alpha (.error e)
    · rw [if_pos hdecides, if_neg fun h => hretry.2 h hdecides]
      rfl
    · rw [if_neg hdecides, if_pos (hretry.1 hdecides)]

/-- **Shorter and shorter steps from some trial on** end at the first one that decides, or at the
last one. -/
theorem backtrack_decides (config : LineSearchSettings α) (p : Path α) (initialNorm : α)
    (h : sys.Evaluates p.x0.size I F) (ht : I t) (more first : Nat) (log : List (Request α)) :
    let answer := fun k => F (p.point (config.trialLength k))
    let decides := fun k => config.Decides initialNorm (config.trialLength k) (answer k)
    ∃ k, first ≤ k ∧ k ≤ first + more ∧ (∀ j < k, first ≤ j → ¬decides j) ∧
      (decides k ∨ k = first + more) ∧
      ∃ u, I u ∧ sys.state u = p.point (config.trialLength k) ∧
        backtrack config sys p initialNorm more (config.trialLength first) t =
          answered ((answer k).map fun r => (config.trialLength k, r)) u ∧
        backtrack config sys.logged p initialNorm more (config.trialLength first) (t, log) =
          answered ((answer k).map fun r => (config.trialLength k, r))
            (u, log ++ (List.range' first (k + 1 - first)).flatMap fun j =>
              p.asks (config.trialLength j)) := by
  intro answer decides
  -- on the trials that are left; the state is one of `I` again after each of them
  induction more generalizing first t log with
  | zero =>
    obtain ⟨u, hu, hstate, htrial, hlogged⟩ :=
      exists_trial h ht (config.trialLength first) log
    refine ⟨first, le_rfl, le_rfl, fun j hj hle => absurd hle (Nat.not_le.2 hj), .inr rfl, u, hu,
      hstate, backtrack_zero htrial, ?_⟩
    rw [backtrack_zero hlogged, Nat.add_sub_cancel_left, List.range'_one, List.flatMap_singleton]
  | succ more ih =>
    obtain ⟨u, hu, hstate, htrial, hlogged⟩ :=
      exists_trial h ht (config.trialLength first) log
    rw [backtrack_succ htrial, backtrack_succ hlogged]
    by_cases hdecides : decides first
    · refine ⟨first, le_rfl, Nat.le_add_right _ _, fun j hj hle => absurd hle (Nat.not_le.2 hj),
        .inl hdecides, u, hu, hstate, if_pos hdecides, ?_⟩
      rw [if_pos hdecides, Nat.add_sub_cancel_left, List.range'_one, List.flatMap_singleton]
    · obtain ⟨k, hfirst, hlast, hbefore, hend, v, hv, hstate', hrest, hlogged'⟩ :=
        ih hu (first + 1) (log ++ p.asks (config.trialLength first))
      refine ⟨k, by omega, by omega, fun j hj hle => ?_, hend.imp id (by omega), v, hv, hstate',
        (if_neg hdecides).trans hrest, ?_⟩
      · rcases hle.lt_or_eq with hlt | rfl
        · exact hbefore j hj hlt
        · exact hdecides
      · rw [if_neg hdecides]
        refine hlogged'.trans ?_
        rw [show k + 1 - first = (k + 1 - (first + 1)) + 1 by omega, List.range'_succ,
          List.flatMap_cons, List.append_assoc]

/-- **A search with shorter and shorter steps** goes through the trials in their order. It ends at
the first one that decides, or at the last one if none does, with the length of that step and its
residuals, or with its error, and with the system at its point. The system is asked for these trials
and for nothing after them. -/
theorem search_decides (hkind : config.kind = .armijo) (x0 step : Array α)
    (h : sys.Evaluates x0.size I F) (ht : I t) (initialNorm : α) (log : List (Request α)) :
    let x := fun k => (pathOf config sys x0 step).point (config.trialLength k)
    let decides := fun k => config.Decides initialNorm (config.trialLength k) (F (x k))
    ∃ k < max config.maxiter 1, (∀ j < k, ¬decides j) ∧
      (decides k ∨ k + 1 = max config.maxiter 1) ∧
      ∃ u, I u ∧ sys.state u = x k ∧
        search config sys x0 step initialNorm t =
          answered ((F (x k)).map fun r => (config.trialLength k, r)) u ∧
        search config sys.logged x0 step initialNorm (t, log) =
          answered ((F (x k)).map fun r => (config.trialLength k, r))
            (u, log ++ (List.range (k + 1)).flatMap fun j => [.setState (x j), .residuals]) := by
  intro x decides
  obtain ⟨k, -, hk, hbefore, hend, u, hu, hstate, hsearch, hlogged⟩ :=
    backtrack_decides config (pathOf config sys x0 step) initialNorm (by rwa [x0_pathOf]) ht
      (config.maxiter - 1) 0 log
  have htrials : ∀ {τ : Type} (sys' : NonlinearSystem α τ) (s : τ), search config sys' x0 step
      initialNorm s = backtrack config sys' (pathOf config sys' x0 step) initialNorm
        (config.maxiter - 1) config.alpha s := fun sys' s => by
    simp only [search, hkind, pathOf]
  refine ⟨k, by omega, fun j hj => hbefore j hj (Nat.zero_le j), hend.imp id (by omega), u, hu,
    hstate, (htrials sys t).trans hsearch, (htrials sys.logged (t, log)).trans ?_⟩
  rw [List.range_eq_range']
  exact hlogged

end LineSearch

/-! ### A search -/

namespace Wavering

/-- The residual at an unknown, which does not exist at 2. -/
def answer (x : Array ℚ) : Except EvalError (Array ℚ) :=
  if Vec.entry x 0 = 2 then .error (.analysis "" "singular")
  else .ok #[Vec.entry x 0 * Vec.entry x 0 + 2]

/-- One unknown without bounds, with this residual. -/
def system : NonlinearSystem ℚ (Array ℚ) where
  state x := x
  setState y _ := y
  lower := #[none]
  upper := #[none]
  residuals := fun x => answered (answer x) x
  linearize := fun x => .ok () x
  sweep := fun x => .ok () x
  guess := fun x => .ok () x
  operator _ := Operator.ofRows [[1]] [.upTo 1]

/-- Up to ten trials, each half as long as the one before. -/
def settings : LineSearchSettings ℚ := { LineSearchSettings.default with kind := .armijo }

theorem evaluates (n : Nat) : system.Evaluates n (fun _ => True) answer :=
  fun x _ _ _ => ⟨x, trivial, rfl, rfl⟩

/-- The points are 4, 2 and 1: at the first the norm is too large, at the second there are no
residuals, and the third one is accepted with a quarter of the step. -/
theorem third_trial_decides :
    settings.kind = .armijo ∧ system.Evaluates 1 (fun _ => True) answer ∧
    ∃ u, system.state u = #[1] ∧
      LineSearch.search settings system #[0] #[4] 10 #[0] = .ok (1 / 4, #[3]) u ∧
      LineSearch.search settings system.logged #[0] #[4] 10 (#[0], []) =
        .ok (1 / 4, #[3]) (u, [.setState #[4], .residuals, .setState #[2], .residuals,
          .setState #[1], .residuals]) := by
  obtain ⟨k, -, hbefore, hend, u, -, hstate, hsearch, hlogged⟩ :=
    LineSearch.search_decides (show settings.kind = .armijo from rfl) #[0] #[4] (evaluates 1)
      (t := #[0]) trivial 10 []
  obtain rfl : k = 2 := by
    rcases lt_trichotomy k 2 with hlt | rfl | hlt
    · refine hend.elim (fun hdecides => ?_) (fun hlast => ?_)
      · revert hdecides
        interval_cases k <;> decide +kernel
      · exact absurd (hlast.trans (show max settings.maxiter 1 = 10 from rfl)) (by omega)
    · rfl
    · exact absurd (show settings.Decides 10 _ (answer _) by decide +kernel) (hbefore 2 hlt)
  have hpoint : (LineSearch.pathOf settings system #[0] #[4]).point (settings.trialLength 2) =
      #[1] := by decide +kernel
  have hanswer : (answer #[1]).map (fun r => (settings.trialLength 2, r)) = .ok (1 / 4, #[3]) := by
    decide +kernel
  have hlog : (List.range 3).flatMap (fun j =>
      (LineSearch.pathOf settings system #[0] #[4]).asks (settings.trialLength j)) =
      [.setState #[4], .residuals, .setState #[2], .residuals, .setState #[1], .residuals] := by
    decide +kernel
  dsimp only at hstate hsearch hlogged
  rw [hpoint] at hstate hsearch hlogged
  rw [hanswer] at hsearch hlogged
  exact ⟨rfl, evaluates 1, u, hstate, hsearch,
    hlogged.trans (congrArg (fun log => EStateM.Result.ok _ (u, log)) hlog)⟩

end Wavering

end Mdao
