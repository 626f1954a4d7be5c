import Mathlib
import Mdao.Proofs.Linear.Truthful

/-!
# Linear solvers over many calls

A solver is set up and asked for solutions over and over, with another operator each time if need be
(`LinearConfig.Call`); `LinearConfig.journal` is what comes of the calls, one after the other. Between
calls it remembers factors and solutions. **Every solution in a journal is truthful**
(`LinearConfig.journal_truthful`): what a solver remembers may be the start of a solve, and then it is
the solution of an earlier one, but the solution is judged by the operator and the right-hand side of
its own call alone.
-/

namespace Mdao

namespace LinearMemory.Cell

variable {α : Type} [Scalar α]

omit [Scalar α] in
theorem last_keep (c : Cell α) (mode kept : Mode) (x : Array α) :
    (c.keep kept x).last mode = if mode = kept then some x else c.last mode := by
  cases mode <;> cases kept <;> rfl

/-- A solve starts from zero or from the last solution. -/
theorem guess_cases (c : Cell α) (useCached : Bool) (n : ℕ) (mode : Mode) :
    c.guess useCached n mode = Vec.zeros n ∨ c.last mode = some (c.guess useCached n mode) := by
  unfold guess
  cases h : c.last mode with
  | none => exact .inl rfl
  | some x =>
    dsimp only
    split_ifs
    · exact .inr rfl
    · exact .inl rfl

end LinearMemory.Cell

namespace LinearConfig

open LinearMemory

/-! ### Calls -/

section

variable {α σ : Type} [Scalar α]

/-- A call of a solver: to set it up, or to solve, perhaps under the eyes of an observer. -/
inductive Call (α σ : Type) where
  | setup (op : Operator α)
  | solve (op : Operator α) (mode : Mode) (rhs : Array α)
      (watch : Option (Observer (LinearEvent α) σ × σ))

/-- What comes of a call: an error, or the solution if one was asked for. -/
abbrev Outcome (α : Type) : Type := Except LinearError (Option (LinearSolution α))

omit [Scalar α] in
/-- The result of an observed solve, without the observer. -/
def unobserved : EStateM.Result LinearError (LinearMemory α × σ) (LinearSolution α) →
    EStateM.Result LinearError (LinearMemory α) (LinearSolution α)
  | .ok s (m, _) => .ok s m
  | .error e (m, _) => .error e m

/-- The result of a solve, watched or not. -/
def solveWatched (config : LinearConfig α) (op : Operator α) (mode : Mode) (rhs : Array α)
    (watch : Option (Observer (LinearEvent α) σ × σ)) (m : LinearMemory α) :
    EStateM.Result LinearError (LinearMemory α) (LinearSolution α) :=
  match watch with
  | none => config.solve op mode rhs m
  | some (observer, o) => unobserved (config.solveObserved op mode rhs observer (m, o))

/-- Makes a call; gives what comes of it and what is remembered then. -/
def perform (config : LinearConfig α) : Call α σ → LinearMemory α → Outcome α × LinearMemory α
  | .setup op, m =>
    match config.setup op m with
    | .ok _ m => (.ok none, m)
    | .error e m => (.error e, m)
  | .solve op mode rhs watch, m =>
    match config.solveWatched op mode rhs watch m with
    | .ok s m => (.ok (some s), m)
    | .error e m => (.error e, m)

/-- Calls one after the other, with what comes of them. -/
def journal (config : LinearConfig α) :
    List (Call α σ) → LinearMemory α → List (Call α σ × Outcome α)
  | [], _ => []
  | c :: rest, m => (c, (config.perform c m).1) :: config.journal rest (config.perform c m).2

end

/-! ### What is said of a solution -/

section

variable {α σ : Type} [ExactScalar α]

/-- The number of iterations that an iterative solver is allowed. -/
def maxiter? : LinearConfig α → Option ℕ
  | .gmres s | .preconditioned s _ => some s.maxiter
  | .blockGaussSeidel s | .blockJacobi s => some s.maxiter
  | .direct | .runOnce => none

/-- The residual norms that count as small: for GMRES by the right-hand side, for sweeps by the
residual at the start, and for a direct solve by how large the right-hand side is at all. -/
def Small (config : LinearConfig α) (op : Operator α) (mode : Mode) (rhs : Array α)
    (Start : Array α → Prop) (norm : α) : Prop :=
  match config with
  | .direct => norm ≤ 1e-6 * max (Vec.norm rhs) Scalar.minPositive
  | .gmres s | .preconditioned s _ => norm ≤ max s.atol (s.rtol * Vec.norm rhs)
  | .blockGaussSeidel s | .blockJacobi s => norm ≤ s.atol ∨
      ∃ x r, Start x ∧ op.residual rhs x mode = .ok r ∧ norm ≤ s.rtol * Vec.norm r
  | .runOnce => True

/-- **What a solution says is so**, by the operator and the right-hand side of its call; `Start` are the
vectors from which the solve may have started. -/
structure Truthful (config : LinearConfig α) (op : Operator α) (mode : Mode) (rhs : Array α)
    (Start : Array α → Prop) (s : LinearSolution α) : Prop where
  /-- The norm is that of what the solution leaves of the right-hand side. -/
  measured : s.Measured op rhs mode
  /-- There are no more iterations than allowed. -/
  iters_le : ∀ n, config.maxiter? = some n → s.iters ≤ n
  /-- Where the iterations are used up, there were as many as allowed. -/
  exhausted : ∀ n, config.maxiter? = some n → s.status = .maxIters → s.iters = n
  /-- Where the solve has converged, the norm is small. -/
  converged : s.status = .converged → config.Small op mode rhs Start s.residualNorm

/-- A solve starts from zero or from the last solution in its mode. -/
def StartsFrom (m : LinearMemory α) (mode : Mode) (n : ℕ) (x : Array α) : Prop :=
  x = Vec.zeros n ∨ (own m).last mode = some x

/-- What holds of the result of a solve: a solution is truthful, and it may be remembered as the last
one in its mode; besides this no last solution changes. -/
def Answers (config : LinearConfig α) (op : Operator α) (mode : Mode) (rhs : Array α)
    (m : LinearMemory α) : EStateM.Result LinearError (LinearMemory α) (LinearSolution α) → Prop
  | .ok s m' => config.Truthful op mode rhs (StartsFrom m mode op.dim) s ∧
      ∀ md x, (own m').last md = some x → (own m).last md = some x ∨ md = mode ∧ s.x = x
  | .error _ m' => ∀ md, (own m').last md = (own m).last md

variable {op : Operator α} {mode : Mode} {rhs : Array α}

omit [ExactScalar α] in
/-- A solution is remembered as the last one in its mode. -/
theorem last_of_keep {m : LinearMemory α} {c : Cell α} (hc : ∀ md, c.last md = (own m).last md)
    (x : Array α) (md : Mode) (y : Array α) (h : (c.keep mode x).last md = some y) :
    (own m).last md = some y ∨ md = mode ∧ x = y := by
  rw [Cell.last_keep] at h
  split_ifs at h with hmode
  · exact .inr ⟨hmode, Option.some.inj h⟩
  · exact .inl ((hc md).symm.trans h)

theorem gmresSolve_answers (s : GmresSettings α)
    (precondition : Array α → EStateM LinearError (LinearMemory α) (Array α))
    (observer : Observer (LinearEvent α) σ) (m : LinearMemory α) (o : σ) {config : LinearConfig α}
    (hmaxiter : config.maxiter? = some s.maxiter)
    (hsmall : ∀ Start n, n ≤ max s.atol (s.rtol * Vec.norm rhs) → config.Small op mode rhs Start n) :
    config.Answers op mode rhs m
      (unobserved (gmresSolve s precondition op rhs mode observer (m, o))) := by
  unfold gmresSolve
  dsimp only
  cases checkDim op rhs with
  | error e => exact fun _ => rfl
  | ok _ =>
    dsimp only
    cases h : Gmres.solve s precondition op rhs ((own m).guess s.useCachedGuess op.dim mode) mode
        observer (preconditioner m, o) with
    | error e p => exact fun _ => rfl
    | ok solution p =>
      have hcounted := Gmres.solve_counted h
      refine ⟨⟨hcounted.measured, fun n hn => ?_, fun n hn => ?_, fun hconverged => ?_⟩,
        last_of_keep (fun _ => rfl) _⟩
      · exact Option.some.inj (hmaxiter.symm.trans hn) ▸ hcounted.iters_le
      · exact Option.some.inj (hmaxiter.symm.trans hn) ▸ hcounted.exhausted
      · exact hsmall _ _ ((hcounted.converged hconverged).trans_eq (Scalar.maxNum_eq_max _ _))

theorem sweepSolve_answers (kind : SweepKind) (s : SweepSettings α)
    (observer : Observer (LinearEvent α) σ) (m : LinearMemory α) (o : σ) {config : LinearConfig α}
    (hmaxiter : config.maxiter? = some s.maxiter)
    (hsmall : ∀ (Start : Array α → Prop) n, (n ≤ s.atol ∨ ∃ x r, Start x ∧
      op.residual rhs x mode = .ok r ∧ n ≤ s.rtol * Vec.norm r) → config.Small op mode rhs Start n) :
    config.Answers op mode rhs m
      (unobserved (sweepSolve kind s op rhs mode observer (m, o))) := by
  unfold sweepSolve
  dsimp only
  cases checkDim op rhs with
  | error e => exact fun _ => rfl
  | ok _ =>
    dsimp only
    cases h : Diagonal.iterate kind s op rhs ((own m).guess s.useCachedGuess op.dim mode) mode
        observer ((own m).diagonal, o) with
    | error e p => exact fun md => by cases md <;> rfl
    | ok solution p =>
      obtain ⟨r, hr, hcounted⟩ := Diagonal.iterate_counted h
      refine ⟨⟨hcounted.measured, fun n hn => ?_, fun n hn => ?_, fun hconverged => ?_⟩,
        last_of_keep (fun md => by cases md <;> rfl) _⟩
      · exact Option.some.inj (hmaxiter.symm.trans hn) ▸ hcounted.iters_le
      · exact Option.some.inj (hmaxiter.symm.trans hn) ▸ hcounted.exhausted
      · exact hsmall _ _ ((Diagonal.of_isSmall (hcounted.converged hconverged)).imp_right
          fun hle => ⟨_, r, (own m).guess_cases _ _ _, hr, hle⟩)

theorem direct_answers (m : LinearMemory α) :
    LinearConfig.direct.Answers op mode rhs m (LinearConfig.direct.solve op mode rhs m) := by
  have hlast : ∀ (f : Option (Factors α)) md,
      (own ({ own m with factors := f } :: preconditioner m)).last md = (own m).last md :=
    fun f md => by cases md <;> rfl
  unfold LinearConfig.solve
  dsimp only
  cases h : Direct.solve op rhs mode (own m).factors with
  | error e f => exact hlast f
  | ok s f =>
    obtain ⟨hmeasured, hsmall⟩ := Direct.solve_measured h
    have hnone : ∀ n, (LinearConfig.direct : LinearConfig α).maxiter? ≠ some n := by simp [maxiter?]
    refine ⟨⟨hmeasured, fun n hn => absurd hn (hnone n), fun n hn => absurd hn (hnone n), fun _ => ?_⟩,
      fun md x hx => .inl ((hlast f md).symm.trans hx)⟩
    exact (not_lt.1 hsmall).trans_eq (Direct.tolerance_eq rhs)

theorem runOnce_answers (m : LinearMemory α) :
    LinearConfig.runOnce.Answers op mode rhs m (LinearConfig.runOnce.solve op mode rhs m) := by
  have hlast : ∀ (d : Diagonal α) md,
      (own ({ own m with diagonal := d } :: preconditioner m)).last md = (own m).last md :=
    fun d md => by cases md <;> rfl
  unfold LinearConfig.solve
  dsimp only
  cases h : Diagonal.runOnce op rhs mode (own m).diagonal with
  | error e d => exact hlast d
  | ok s d =>
    have hnone : ∀ n, (LinearConfig.runOnce : LinearConfig α).maxiter? ≠ some n := by simp [maxiter?]
    exact ⟨⟨Diagonal.runOnce_measured h, fun n hn => absurd hn (hnone n),
      fun n hn => absurd hn (hnone n), fun _ => trivial⟩,
      fun md x hx => .inl ((hlast d md).symm.trans hx)⟩

omit [ExactScalar α] in
theorem unwatched_eq [Scalar α]
    (solve : EStateM LinearError (LinearMemory α × Unit) (LinearSolution α)) (m : LinearMemory α) :
    unwatched solve m = unobserved (solve (m, ())) := by
  unfold unwatched
  cases solve (m, ()) <;> rfl

/-- **The result of a solve, whatever is remembered.** -/
theorem solve_answers (config : LinearConfig α) (m : LinearMemory α) :
    config.Answers op mode rhs m (config.solve op mode rhs m) := by
  cases config with
  | direct => exact direct_answers m
  | gmres s =>
    rw [LinearConfig.solve, unwatched_eq]
    exact gmresSolve_answers s _ _ m () rfl fun _ _ h => h
  | preconditioned s nested =>
    rw [LinearConfig.solve, unwatched_eq]
    exact gmresSolve_answers s _ _ m () rfl fun _ _ h => h
  | blockGaussSeidel s =>
    rw [LinearConfig.solve, unwatched_eq]
    exact sweepSolve_answers _ s _ m () rfl fun _ _ h => h
  | blockJacobi s =>
    rw [LinearConfig.solve, unwatched_eq]
    exact sweepSolve_answers _ s _ m () rfl fun _ _ h => h
  | runOnce => exact runOnce_answers m

omit [ExactScalar α] in
/-- A solver with nothing to report gives the same result under the eyes of an observer. -/
theorem unobserved_solveObserved [Scalar α] (config : LinearConfig α)
    (hconfig : config = .direct ∨ config = .runOnce ∨ ∃ s, config = .blockJacobi s)
    (observer : Observer (LinearEvent α) σ) (m : LinearMemory α) (o : σ) :
    unobserved (config.solveObserved op mode rhs observer (m, o)) = config.solve op mode rhs m := by
  rcases hconfig with rfl | rfl | ⟨s, rfl⟩ <;>
  · unfold solveObserved
    dsimp only
    cases LinearConfig.solve op mode _ rhs m <;> rfl

/-- The result of an observed solve, whatever is remembered. -/
theorem solveWatched_answers (config : LinearConfig α)
    (watch : Option (Observer (LinearEvent α) σ × σ)) (m : LinearMemory α) :
    config.Answers op mode rhs m (config.solveWatched op mode rhs watch m) := by
  obtain _ | ⟨observer, o⟩ := watch
  · exact solve_answers config m
  · show config.Answers op mode rhs m (unobserved (config.solveObserved op mode rhs observer (m, o)))
    cases config with
    | gmres s => exact gmresSolve_answers s _ observer m o rfl fun _ _ h => h
    | preconditioned s nested => exact gmresSolve_answers s _ observer m o rfl fun _ _ h => h
    | blockGaussSeidel s => exact sweepSolve_answers _ s observer m o rfl fun _ _ h => h
    | direct =>
      rw [unobserved_solveObserved _ (.inl rfl)]
      exact solve_answers _ m
    | blockJacobi s =>
      rw [unobserved_solveObserved _ (.inr (.inr ⟨s, rfl⟩))]
      exact solve_answers _ m
    | runOnce =>
      rw [unobserved_solveObserved _ (.inr (.inl rfl))]
      exact solve_answers _ m

/-! ### Many calls -/

omit [ExactScalar α] in
/-- No last solution changes in a setup. -/
theorem setup_last [Scalar α] (op : Operator α) (config : LinearConfig α) (m : LinearMemory α)
    (mode : Mode) : (own (config.perform (.setup op : Call α σ) m).2).last mode = (own m).last mode := by
  unfold perform
  cases config with
  | direct =>
    simp only [LinearConfig.setup]
    cases Direct.factorize op <;> cases mode <;> rfl
  | gmres s => rfl
  | preconditioned s nested =>
    simp only [LinearConfig.setup]
    cases LinearConfig.setup op nested (preconditioner m) <;> rfl
  | blockGaussSeidel s => cases mode <;> rfl
  | blockJacobi s => cases mode <;> rfl
  | runOnce => cases mode <;> rfl

/-- A journal has a solution in this mode. -/
def HasSolution (entries : List (Call α σ × Outcome α)) (mode : Mode) (x : Array α) : Prop :=
  ∃ op rhs watch s, (Call.solve op mode rhs watch, Except.ok (some s)) ∈ entries ∧ s.x = x

/-- The last solutions are in the journal. -/
def Remembers (entries : List (Call α σ × Outcome α)) (m : LinearMemory α) : Prop :=
  ∀ mode x, (own m).last mode = some x → HasSolution entries mode x

omit [ExactScalar α] in
theorem HasSolution.append {entries : List (Call α σ × Outcome α)} {x : Array α}
    (h : HasSolution entries mode x) (more : List (Call α σ × Outcome α)) :
    HasSolution (entries ++ more) mode x := by
  obtain ⟨op, rhs, watch, s, hmem, hx⟩ := h
  exact ⟨op, rhs, watch, s, List.mem_append_left _ hmem, hx⟩

/-- A call adds its solution to the journal, if it remembers one. -/
theorem Remembers.perform {entries : List (Call α σ × Outcome α)} {m : LinearMemory α}
    (h : Remembers entries m) (config : LinearConfig α) (c : Call α σ) :
    Remembers (entries ++ [(c, (config.perform c m).1)]) (config.perform c m).2 := by
  intro mode x hlast
  cases c with
  | setup op =>
    rw [setup_last] at hlast
    exact (h mode x hlast).append _
  | solve op kept rhs watch =>
    have hanswers : config.Answers op kept rhs m (config.solveWatched op kept rhs watch m) :=
      solveWatched_answers config watch m
    unfold LinearConfig.perform at hlast ⊢
    dsimp only at hlast ⊢
    cases hsolve : config.solveWatched op kept rhs watch m with
    | error e m' =>
      rw [hsolve] at hanswers hlast
      exact (h mode x ((hanswers mode).symm.trans hlast)).append _
    | ok s m' =>
      rw [hsolve] at hanswers hlast
      rcases hanswers.2 mode x hlast with hbefore | ⟨rfl, hx⟩
      · exact (h mode x hbefore).append _
      · exact ⟨op, rhs, watch, s, List.mem_append_right _ (List.mem_singleton.2 rfl), hx⟩

/-- Where a solve may have started, as the journal before it shows: at zero or at an earlier solution in
its mode. -/
def StartsIn (entries : List (Call α σ × Outcome α)) (mode : Mode) (n : ℕ) (x : Array α) : Prop :=
  x = Vec.zeros n ∨ HasSolution entries mode x

theorem Truthful.mono {config : LinearConfig α} {Start Start' : Array α → Prop}
    {s : LinearSolution α} (h : config.Truthful op mode rhs Start s)
    (hStart : ∀ x, Start x → Start' x) : config.Truthful op mode rhs Start' s := by
  refine ⟨h.measured, h.iters_le, h.exhausted, fun hconverged => ?_⟩
  have hsmall := h.converged hconverged
  cases config with
  | direct => exact hsmall
  | gmres settings => exact hsmall
  | preconditioned settings nested => exact hsmall
  | blockGaussSeidel settings =>
    exact hsmall.imp_right fun ⟨x, r, hx, hr⟩ => ⟨x, r, hStart x hx, hr⟩
  | blockJacobi settings =>
    exact hsmall.imp_right fun ⟨x, r, hx, hr⟩ => ⟨x, r, hStart x hx, hr⟩
  | runOnce => exact hsmall

/-- **Every solution in a journal is truthful**, whatever the calls before it were. -/
theorem journal_truthful (config : LinearConfig α) {calls : List (Call α σ)} {m : LinearMemory α}
    {entries past later : List (Call α σ × Outcome α)} (hm : Remembers entries m)
    {watch : Option (Observer (LinearEvent α) σ × σ)} {s : LinearSolution α}
    (h : config.journal calls m = past ++ (.solve op mode rhs watch, .ok (some s)) :: later) :
    config.Truthful op mode rhs (StartsIn (entries ++ past) mode op.dim) s := by
  -- what has been performed is in `entries`, and the memory is explained by it at every call
  induction calls generalizing m entries past with
  | nil => exact absurd h (by simp [journal])
  | cons c calls ih =>
    cases past with
    | nil =>
      obtain ⟨hfirst, -⟩ := List.cons.inj h
      obtain ⟨rfl, houtcome⟩ := Prod.mk.inj hfirst
      have hanswers : config.Answers op mode rhs m (config.solveWatched op mode rhs watch m) :=
        solveWatched_answers config watch m
      unfold perform at houtcome
      dsimp only at houtcome
      cases hsolve : config.solveWatched op mode rhs watch m with
      | error e m' =>
        rw [hsolve] at houtcome
        cases houtcome
      | ok s' m' =>
        rw [hsolve] at houtcome hanswers
        cases houtcome
        refine hanswers.1.mono fun x hx => hx.imp_right fun hlast => ?_
        rw [List.append_nil]
        exact hm mode x hlast
    | cons p past =>
      obtain ⟨hfirst, hrest⟩ := List.cons.inj h
      have := ih (hm.perform config c) hrest
      rwa [hfirst, List.append_assoc] at this

/-- **What linear solvers say is so over any history of calls.** Every call is answered, and every
solution is truthful by the operator and the right-hand side of its own call; with GMRES the
preconditioner may be anything that keeps a state of any kind, and the cycles end by themselves. -/
theorem solves_truthful {ρ : Type} (config : LinearConfig α) (calls : List (Call α σ)) :
    (config.journal calls .blank).map Prod.fst = calls ∧
    (∀ past op mode rhs watch s later,
      config.journal calls .blank = past ++ (.solve op mode rhs watch, .ok (some s)) :: later →
        config.Truthful op mode rhs (StartsIn past mode op.dim) s) ∧
    (∀ (settings : GmresSettings α) (precondition : Array α → EStateM LinearError ρ (Array α)) op rhs
      guess mode (observer : Observer (LinearEvent α) σ) p s p',
      Gmres.solve settings precondition op rhs guess mode observer p = .ok s p' →
        s.Counted op rhs mode settings.maxiter
          (· ≤ max settings.atol (settings.rtol * Vec.norm rhs))) ∧
    (∀ (settings : GmresSettings α) (precondition : Array α → EStateM LinearError ρ (Array α)) op rhs
      mode (observer : Observer (LinearEvent α) σ) tol x more,
      Gmres.cycles settings precondition op rhs mode observer tol (settings.maxiter + more) 0 0 x =
        Gmres.cycles settings precondition op rhs mode observer tol settings.maxiter 0 0 x) := by
  refine ⟨?_, fun past op mode rhs watch s later h => ?_,
    fun settings precondition op rhs guess mode observer p s p' h => ?_,
    fun settings precondition op rhs mode observer tol x more => ?_⟩
  · generalize (LinearMemory.blank : LinearMemory α) = m
    induction calls generalizing m with
    | nil => rfl
    | cons c calls ih => exact congrArg (c :: ·) (ih _)
  · have hblank : Remembers ([] : List (Call α σ × Outcome α)) .blank := by
      rintro (_ | _) x ⟨⟩
    simpa using journal_truthful config hblank h
  · simpa only [Scalar.maxNum_eq_max] using Gmres.solve_counted h
  · exact Gmres.cycles_enough _ more (Nat.le_add_left _ _)

end

/-! ### An old factor -/

namespace Scaled

/-- The operator that multiplies a number. -/
def operator (a : ℚ) : Operator ℚ := Operator.ofRows [[a]] [.upTo 1]

/-- GMRES behind a single sweep. -/
def config : LinearConfig ℚ := .preconditioned .default .runOnce

/-- A solve with 2 and one with 4, without a setup between. -/
def calls : List (Call ℚ Unit) :=
  [.solve (operator 2) .fwd #[4] none, .solve (operator 4) .fwd #[4] none]

/-- The sweep still divides by 2 and the second solve starts at the solution of the first, and yet what
it says is so for 4. -/
theorem truthful_second : ∃ s t : LinearSolution ℚ,
    config.journal calls .blank = [(.solve (operator 2) .fwd #[4] none, .ok (some s)),
      (.solve (operator 4) .fwd #[4] none, .ok (some t))] ∧
    s.x = #[2] ∧ t.x = #[1] ∧
    config.Truthful (operator 4) .fwd #[4] (StartsIn (σ := Unit)
      [(.solve (operator 2) .fwd #[4] none, .ok (some s))] .fwd 1) t := by
  have hanswered : ∀ {a : ℚ} {m : LinearMemory ℚ} {x : Array ℚ},
      (resultOf (config.solve (operator a) .fwd #[4] m)).map LinearSolution.x = some x →
      ∃ s, (config.perform (.solve (operator a) .fwd #[4] none : Call ℚ Unit) m).1 = .ok (some s) ∧
        s.x = x := by
    intro a m x h
    obtain ⟨s, hs, hx⟩ := Option.map_eq_some_iff.1 h
    refine ⟨s, ?_, hx⟩
    unfold perform solveWatched
    dsimp only
    rw [eq_ok_of_resultOf hs]
  obtain ⟨s, hs, hx⟩ := hanswered (a := 2) (m := .blank) (x := #[2]) (by decide +kernel)
  obtain ⟨t, ht, hy⟩ := hanswered (a := 4) (m := (config.perform
    (.solve (operator 2) .fwd #[4] none : Call ℚ Unit) .blank).2) (x := #[1]) (by decide +kernel)
  have hjournal : config.journal calls .blank = [(.solve (operator 2) .fwd #[4] none, .ok (some s)),
      (.solve (operator 4) .fwd #[4] none, .ok (some t))] := by
    rw [← hs, ← ht]
    rfl
  exact ⟨s, t, hjournal, hx, hy,
    (solves_truthful (ρ := Unit) config calls).2.1 [_] _ _ _ _ t [] hjournal⟩

end Scaled

end LinearConfig

end Mdao
