import Mathlib
import Mdao.Proofs.Linear.Exact
import Mdao.Proofs.Nonlinear.Feasible

/-!
# Newton's method on affine systems

A system is affine when its residuals at two points differ by what its operator makes of the
difference of the points (`NonlinearSystem.IsAffine`). From any point, the exact step leads to a
point with no residuals: without bounds, every kind of search tries this point first and accepts it
(`LineSearch.sub_point_one`, `LineSearch.search_of_norm_eq_zero`). So Newton's method converges in
at most one iteration (`Newton.solve_of_affine`).
-/

namespace Mdao

open Vec

variable {α μ σ ω : Type} [ExactScalar α]

/-! ### Searches without bounds -/

/-- There are no bounds. -/
def NonlinearSystem.Unbounded {α σ : Type} [Scalar α] (sys : NonlinearSystem α σ) : Prop :=
  ∀ i, LineSearch.boundAt sys.lower i = none ∧ LineSearch.boundAt sys.upper i = none

namespace LineSearch

variable {sys : NonlinearSystem α σ} {config : LineSearchSettings α} {x0 step : Array α}

/-- Without bounds every number lies between them. -/
theorem between_of_unbounded {lower upper : Option α} (h : lower = none ∧ upper = none) (x : α) :
    Between lower upper x where
  lower_le _ ha := nomatch h.1.symm.trans ha
  le_upper _ hb := nomatch h.2.symm.trans hb

/-- Without bounds the step is not shortened. -/
theorem step_pathOf (h : sys.Unbounded) : (pathOf config sys x0 step).step = step := by
  have hwithin : StartsWithin x0 sys.lower sys.upper := fun i _ => between_of_unbounded (h i) _
  have hwhole : 1 ≤ feasibleFraction x0 step sys.lower sys.upper :=
    (isGreatest_feasibleFraction step hwithin).2
      ⟨zero_le_one, le_rfl, fun i _ => between_of_unbounded (h i) _⟩
  unfold pathOf Path.make
  split
  · exact if_neg (not_lt.2 hwhole)
  · rfl
  · rfl

/-- Without bounds a trial point is not brought back. -/
theorem entry_pathOf (h : sys.Unbounded) (alpha : α) (i : Nat) :
    (pathOf config sys x0 step).entry alpha i = entry x0 i + alpha * entry step i := by
  have hlower : boundAt (pathOf config sys x0 step).lower i = none := by
    unfold pathOf Path.make
    split <;> exact (h i).1
  have hupper : boundAt (pathOf config sys x0 step).upper i = none := by
    unfold pathOf Path.make
    split <;> exact (h i).2
  unfold Path.entry
  simp only [hlower, hupper, clip, Option.getD_none, ite_self, step_pathOf h, x0_pathOf]
  split <;> rfl

/-- Without bounds the first trial point of a whole step is its end. -/
theorem sub_point_one (h : sys.Unbounded) (hstep : step.size = x0.size) :
    sub ((pathOf config sys x0 step).point 1) x0 = step := by
  have hpoint : ((pathOf config sys x0 step).point 1).size = x0.size := by
    rw [Path.point, size_tabulate, x0_pathOf]
  refine ext_entry ((size_sub hpoint).trans hstep.symm) fun i hi => ?_
  have hlt : i < (pathOf config sys x0 step).x0.size := by
    rw [x0_pathOf]
    rwa [size_sub hpoint] at hi
  rw [entry_sub hpoint, Path.point, entry_tabulate, if_pos hlt, entry_pathOf h, one_mul,
    add_sub_cancel_left]

/-- The first trial is the last one where it achieves enough. -/
theorem backtrack_of_sufficient {p : Path α} {initialNorm alpha : α} {r : Array α} {t t' : σ}
    (h : trial sys p alpha t = .ok r t') (hs : isSufficient config initialNorm alpha r = true)
    (more : Nat) : backtrack config sys p initialNorm more alpha t = .ok (alpha, r) t' := by
  cases more with
  | zero => simp only [backtrack, h]
  | succ more => simp only [backtrack, h, hs, if_true]

/-- **A whole step to a point without residuals is taken**, by every kind of search. -/
theorem search_of_norm_eq_zero (halpha : config.alpha = 1) (hc : config.c ≤ 1)
    {r residuals : Array α} {t t' : σ}
    (htrial : sys.residuals (sys.setState ((pathOf config sys x0 step).point 1) t) = .ok r t')
    (hr : Vec.norm r = 0) :
    search config sys x0 step (Vec.norm residuals) t = .ok (1, r) t' := by
  have hsufficient : isSufficient config (Vec.norm residuals) 1 r = true := by
    rw [isSufficient, hr, mul_one]
    exact decide_eq_true (mul_nonneg (sub_nonneg.2 hc) (norm_nonneg _))
  unfold search
  rw [halpha]
  exact backtrack_of_sufficient htrial hsufficient _

end LineSearch

/-! ### Affine systems -/

/-- A linear solver that, from what it remembers, can be set up for an operator and then ends with a
vector that has the right-hand side as its product. -/
def LinearSolver.SolvesOnce (linear : LinearSolver α μ) (op : Operator α) (m : μ) : Prop :=
  ∃ m', linear.setup op m = .ok () m' ∧ ∀ rhs, rhs.size = op.dim →
    ∃ s m'', linear.solve op .fwd rhs m' = .ok s m'' ∧ s.x.size = op.dim ∧
      op.apply .fwd s.x = .ok rhs

/-- A system with `n` unknowns **whose operator is the derivative of its residuals**: `Residual x r`
says that these are `r` at the unknowns `x`. The states before the Jacobian is refreshed are
`Fresh`, and `Refreshed` afterwards. -/
structure NonlinearSystem.IsAffine (sys : NonlinearSystem α σ) (n : Nat)
    (Residual : Array α → Array α → Prop) (Fresh Refreshed : σ → Prop) : Prop where
  guess : ∀ s, Fresh s → ∃ t, sys.guess s = .ok () t ∧ Fresh t
  residuals : ∀ s, Fresh s →
    ∃ r t, sys.residuals s = .ok r t ∧ Residual (sys.state t) r ∧ Fresh t
  linearize : ∀ s, Fresh s →
    ∃ t, sys.linearize s = .ok () t ∧ sys.state t = sys.state s ∧ Refreshed t
  /-- The residuals at any unknowns, once the Jacobian has been refreshed. -/
  trial : ∀ x s, x.size = n → Refreshed s →
    ∃ r t, sys.residuals (sys.setState x s) = .ok r t ∧ Residual x r
  size : ∀ x r, Residual x r → x.size = n ∧ r.size = n
  dim : ∀ t, Refreshed t → (sys.operator t).dim = n
  derivative : ∀ t, Refreshed t → ∀ x r x' r', Residual x r → Residual x' r' →
    (sys.operator t).apply .fwd (sub x' x) = .ok (sub r' r)

namespace Newton

open SolveM

variable {sys : NonlinearSystem α σ} {n : Nat} {Residual : Array α → Array α → Prop}
  {Fresh Refreshed : σ → Prop} {config : NewtonSettings α} {linear : LinearSolver α μ}
  {observer : Observer (NonlinearEvent α) ω} {s : σ} {m : μ} {r : Array α}

/-- Before a step, also after a sweep, the residuals are those at the unknowns. -/
theorem prepare_of_affine (h : sys.IsAffine n Residual Fresh Refreshed)
    (hsweep : config.solveSubsystems = true → ∀ s, Fresh s → ∃ t, sys.sweep s = .ok () t ∧ Fresh t)
    (hs : Fresh s) (hr : Residual (sys.state s) r) (iter : Nat) (w : ω) :
    ∃ r' t, (prepare config sys iter r : SolveWith α μ σ ω _) ⟨s, m, w⟩ = .ok r' ⟨t, m, w⟩ ∧
      Residual (sys.state t) r' ∧ Fresh t := by
  unfold prepare
  split_ifs with hdue
  · obtain ⟨t, ht, hfresh⟩ := hsweep (by simp_all) s hs
    obtain ⟨r', t', hr', hresidual, hfresh'⟩ := h.residuals t hfresh
    exact ⟨r', t', (bind_of_ok _ (onSystem_of_ok ht m w)).trans (onSystem_of_ok hr' m w), hresidual,
      hfresh'⟩
  · exact ⟨r, s, rfl, hr, hs⟩

/-- **One step of an affine system** leads to a point without residuals. -/
theorem step_of_affine (h : sys.IsAffine n Residual Fresh Refreshed) (hbounds : sys.Unbounded)
    (halpha : config.lineSearch.alpha = 1) (hc : config.lineSearch.c ≤ 1)
    (hlinear : ∀ t, Refreshed t → linear.SolvesOnce (sys.operator t) m)
    (hs : Fresh s) (hr : Residual (sys.state s) r) (w : ω) :
    ∃ t m', step config linear sys r ⟨s, m, w⟩ = .ok (1, zeros n) ⟨t, m', w⟩ ∧
      sys.EvaluatedTo (zeros n) t := by
  obtain ⟨t, hlinearize, hstate, ht⟩ := h.linearize s hs
  obtain ⟨m₁, hsetup, hsolve⟩ := hlinear t ht
  obtain ⟨hx0, hrn⟩ := h.size _ _ hr
  have hdim := h.dim t ht
  obtain ⟨Δ, m₂, hΔ, hsize, happly⟩ :=
    hsolve (r.map fun v => -v) (by rw [Array.size_map, hrn, hdim])
  have hsame : Δ.x.size = (sys.state t).size := by rw [hsize, hdim, hstate, hx0]
  -- the end of the step
  obtain ⟨x, hx⟩ : ∃ x, x = (LineSearch.pathOf config.lineSearch sys (sys.state t) Δ.x).point 1 :=
    ⟨_, rfl⟩
  have hxn : x.size = n := by
    rw [hx, LineSearch.Path.point, size_tabulate, LineSearch.x0_pathOf, hstate, hx0]
  obtain ⟨r', t', hresiduals, hr'⟩ := h.trial x t hxn ht
  obtain ⟨-, hrn'⟩ := h.size _ _ hr'
  have hzero : r' = zeros n := by
    have hchange := h.derivative t ht _ _ _ _ hr hr'
    rw [← hstate, hx, LineSearch.sub_point_one hbounds hsame, happly] at hchange
    refine ext_entry (by rw [hrn', size_zeros]) fun i hi => ?_
    have hentry := congrArg (entry · i) (Except.ok.inj hchange)
    have hneg : entry (r.map fun v => -v) i = -entry r i := by
      have hlt : i < r.size := by omega
      rw [entry_eq_getElem (by simpa using hlt), entry_eq_getElem hlt, Array.getElem_map]
    simp only [hneg, entry_sub (hrn'.trans hrn.symm)] at hentry
    rw [entry_zeros]
    linarith
  subst hzero
  have hsearch : LineSearch.search config.lineSearch sys (sys.state t) Δ.x (Vec.norm r) t =
      .ok (1, zeros n) t' :=
    LineSearch.search_of_norm_eq_zero halpha hc (hx ▸ hresiduals)
      (norm_eq_zero fun k _ => entry_zeros n k)
  refine ⟨t', m₂, ?_, _, hresiduals⟩
  calc step config linear sys r ⟨s, m, w⟩
    _ = _ := bind_of_ok _ (onSystem_of_ok hlinearize m w)
    _ = _ := bind_of_ok _ (onMemory_of_ok hsetup w)
    _ = _ := bind_of_ok _ (onMemory_of_ok hΔ w)
    _ = _ := onSystem_of_ok hsearch m₂ w

/-- **Newton's method solves an affine system in one iteration**, if it needs any: without bounds,
with whole steps, a positive tolerance, and a linear solver that is exact for the operator. -/
theorem solve_of_affine (h : sys.IsAffine n Residual Fresh Refreshed) (hbounds : sys.Unbounded)
    (hmaxiter : 1 ≤ config.maxiter) (hatol : 0 < config.atol)
    (halpha : config.lineSearch.alpha = 1) (hc : config.lineSearch.c ≤ 1)
    (hsweep : config.solveSubsystems = true → ∀ s, Fresh s → ∃ t, sys.sweep s = .ok () t ∧ Fresh t)
    (hlinear : ∀ t, Refreshed t → linear.SolvesOnce (sys.operator t) m)
    (hobserver : ∀ e w, (observer.stops e w).1 = false) (hs : Fresh s) (w : ω) :
    ∃ solution t, solve config linear sys observer ⟨s, m, w⟩ = .ok solution t ∧
      solution.status = .converged ∧ solution.iters ≤ 1 ∧
      (solution.iters = 1 → sys.EvaluatedTo (zeros n) t.system) := by
  obtain ⟨s₁, hguess, hs₁⟩ := h.guess s hs
  obtain ⟨r, s₂, hresiduals, hr, hs₂⟩ := h.residuals s₁ hs₁
  have hreport : ∀ (e : NonlinearEvent α) (s : σ) (m : μ) (w : ω), ∃ w',
      (report observer e : SolveWith α μ σ ω Bool) ⟨s, m, w⟩ = .ok false ⟨s, m, w'⟩ :=
    fun e s m w => ⟨(observer.stops e w).2,
      congrArg (EStateM.Result.ok · _) (hobserver e w)⟩
  obtain ⟨w₁, hstarted⟩ := hreport (.started (Vec.norm r)) s₂ m w
  have hstart : solve config linear sys observer ⟨s, m, w⟩ = _ :=
    (bind_of_ok _ (onSystem_of_ok hguess m w)).trans
      ((bind_of_ok _ (onSystem_of_ok hresiduals m w)).trans (bind_of_ok _ hstarted))
  rw [hstart, if_neg Bool.false_ne_true]
  split_ifs with hmeets
  · exact ⟨_, _, rfl, rfl, Nat.zero_le 1, fun hone => nomatch hone⟩
  -- the only iteration
  obtain ⟨fuel, hfuel⟩ := Nat.exists_eq_add_of_le' hmaxiter
  obtain ⟨r', s₃, hprepare, hr', hs₃⟩ := prepare_of_affine h hsweep hs₂ hr 1 w₁
  obtain ⟨s₄, m', hstep, hevaluated⟩ := step_of_affine h hbounds halpha hc hlinear hs₃ hr' w₁
  obtain ⟨w₂, hiterated⟩ :=
    hreport (.iterated 1 (Vec.norm (zeros n : Array α)) 1 (sys.state s₄)) s₄ m' w₁
  have hnorm : Vec.norm (zeros n : Array α) = 0 := norm_eq_zero fun k _ => entry_zeros n k
  have hconverged : meetsTolerances config.atol config.rtol (Vec.norm r)
      (Vec.norm (zeros n : Array α)) = true := by
    rw [meetsTolerances, hnorm, decide_eq_true hatol, Bool.true_or]
  rw [hfuel]
  unfold iterate
  rw [bind_of_ok _ hprepare]
  dsimp only
  rw [if_pos (ExactScalar.isFinite_eq _), bind_of_ok _ hstep]
  dsimp only
  refine ⟨⟨.converged, 1, Vec.norm r, Vec.norm (zeros n : Array α)⟩, ⟨s₄, m', w₂⟩, ?_, rfl, le_rfl,
    fun _ => hevaluated⟩
  have hunknowns : (unknowns sys : SolveWith α μ σ ω _) ⟨s₄, m', w₁⟩ =
      .ok (sys.state s₄) ⟨s₄, m', w₁⟩ := rfl
  refine (bind_of_ok _ hunknowns).trans ((bind_of_ok _ hiterated).trans ?_)
  rw [if_neg Bool.false_ne_true, if_pos hconverged]
  rfl

end Newton

end Mdao
