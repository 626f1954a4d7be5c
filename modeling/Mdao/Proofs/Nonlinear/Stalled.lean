import Mathlib
import Mdao.Proofs.Nonlinear.Trace
import Mdao.Proofs.Scalar.Order

/-!
# When sweeps stall

Block Gauss-Seidel gives up when the residual norm has not decreased for a number of sweeps. What it
keeps for that is the least norm so far and a count that starts again with each strict decrease;
what it means is a window over the norms: the last `L` of them are all at least the least one before
(`StallsAt`). The count says the same as the window, because the least norm so far was first reached
exactly as many sweeps ago as are counted (`Watches`).

A solve whose norms are all finite therefore stops at the first sweep that converges or stalls, and
else with the last one (`GaussSeidel.stops_solve`), which tells exactly when it stalls.
-/

namespace Mdao

variable {α μ σ : Type} [Scalar α]

/-! ### The rule on a sequence of norms -/

/-- The last `limit` of the norms up to the `n`-th are all at least the least one before them. -/
def StallsAt (q : Nat → α) (limit n : Nat) : Prop :=
  limit ≤ n ∧ ∃ j ≤ n - limit, (∀ i ≤ n - limit, q j ≤ q i) ∧
    ∀ i, n - limit < i → i ≤ n → q j ≤ q i

/-- What is kept of the first norms: the least one, and for how many sweeps it has been the least.
-/
structure Watches (q : Nat → α) (n : Nat) (best : α) (stalled : Nat) : Prop where
  stalled_le : stalled ≤ n
  best_eq : best = q (n - stalled)
  lt_earlier : ∀ i < n - stalled, best < q i
  le_all : ∀ i ≤ n, best ≤ q i

namespace Watches

variable [LinearScalar α] {q : Nat → α} {n stalled : Nat} {best : α}

/-- Before the first sweep there is one norm. -/
theorem zero (hq : Scalar.isUndefined (q 0) = false) : Watches q 0 (q 0) 0 where
  stalled_le := le_rfl
  best_eq := rfl
  lt_earlier i hi := absurd hi (Nat.not_lt_zero i)
  le_all i hi := by
    obtain rfl := Nat.le_zero.1 hi
    exact Scalar.le_self hq

/-- One more sweep: a strict decrease starts the count again, and any other norm adds to it. -/
theorem countStalled (h : Watches q n best stalled)
    (hq : Scalar.isUndefined (q (n + 1)) = false) :
    Watches q (n + 1) (GaussSeidel.countStalled best stalled (q (n + 1))).1
      (GaussSeidel.countStalled best stalled (q (n + 1))).2 := by
  unfold GaussSeidel.countStalled
  split_ifs with hlt
  · obtain ⟨hle, hnot⟩ := (LinearScalar.lt_iff_le_not_le _ _).1 hlt
    refine ⟨Nat.zero_le _, rfl, fun i hi => ?_, fun i hi => ?_⟩
    · have hbest := h.le_all i (Nat.lt_succ_iff.1 hi)
      exact (LinearScalar.lt_iff_le_not_le _ _).2 ⟨LinearScalar.le_trans _ _ _ hle hbest,
        fun hback => hnot (LinearScalar.le_trans _ _ _ hbest hback)⟩
    · rcases Nat.le_succ_iff.1 hi with hi | rfl
      · exact LinearScalar.le_trans _ _ _ hle (h.le_all i hi)
      · exact Scalar.le_self hq
  · have hplace : n + 1 - (stalled + 1) = n - stalled := Nat.add_sub_add_right n 1 stalled
    have hbest : Scalar.isUndefined best = false :=
      (OrderedScalar.isUndefined_of_le _ _ (h.le_all n le_rfl)).1
    refine ⟨Nat.succ_le_succ h.stalled_le, ?_, ?_, fun i hi => ?_⟩
    · rw [hplace]
      exact h.best_eq
    · rw [hplace]
      exact h.lt_earlier
    · rcases Nat.le_succ_iff.1 hi with hi | rfl
      · exact h.le_all i hi
      · exact OrderedScalar.le_of_not_lt _ _ hq hbest hlt

/-- **The count measures the window**: the norms stall exactly when the count has reached the
limit. -/
theorem stallsAt_iff (h : Watches q n best stalled) (limit : Nat) :
    StallsAt q limit n ↔ limit ≤ stalled := by
  constructor
  · rintro ⟨hlimit, j, hj, -, hwindow⟩
    by_contra hshort
    -- The least norm would have been reached within the window, below all the norms before it.
    have hinside : n - limit < n - stalled := by omega
    have hlt := h.lt_earlier j (lt_of_le_of_lt hj hinside)
    have hle := hwindow (n - stalled) hinside (Nat.sub_le n stalled)
    rw [← h.best_eq] at hle
    exact ((LinearScalar.lt_iff_le_not_le _ _).1 hlt).2 hle
  · intro hlimit
    refine ⟨hlimit.trans h.stalled_le, n - stalled, Nat.sub_le_sub_left hlimit n, ?_, ?_⟩
    · intro i hi
      rw [← h.best_eq]
      exact h.le_all i (hi.trans (Nat.sub_le n limit))
    · intro i _ hi
      rw [← h.best_eq]
      exact h.le_all i hi

end Watches

/-! ### The rules of a solve -/

namespace GaussSeidelSettings

variable (config : GaussSeidelSettings α) (r : Nat → Array α)

/-- The residuals after `n` sweeps meet the tolerances. -/
def Meets (n : Nat) : Prop :=
  meetsTolerances config.atol config.rtol (Vec.norm (r 0)) (Vec.norm (r n)) = true

/-- The norms have stalled after `n` sweeps, as far as that is looked at. -/
def Stalls (n : Nat) : Prop :=
  0 < config.stallLimit ∧ StallsAt (fun i => Vec.norm (r i)) config.stallLimit n

/-- Neither rule ends a solve after `n` sweeps. -/
def GoesOn (n : Nat) : Prop := ¬config.Meets r n ∧ ¬config.Stalls r n

/-- The end that the rules give to a solve whose sweeps leave the residuals `r` behind. -/
inductive Stops : Status → Nat → Prop where
  | converged {n : Nat} (hn : n ≤ config.maxiter) (hbefore : ∀ i < n, config.GoesOn r i)
      (hmeets : config.Meets r n) : Stops .converged n
  | stalled {n : Nat} (hn : n ≤ config.maxiter) (hbefore : ∀ i < n, config.GoesOn r i)
      (hmeets : ¬config.Meets r n) (hstalls : config.Stalls r n) : Stops .stalled n
  | maxIters (hbefore : ∀ i ≤ config.maxiter, config.GoesOn r i) : Stops .maxIters config.maxiter

/-- How a solve comes back from its `n`-th sweep with a status, where the sweeps leave the residuals
`r` and the systems `t` behind. -/
def comesBack (t : Nat → σ) (m : μ) (status : Status) (n : Nat) :
    EStateM.Result (NonlinearError α) (SolveState μ σ Unit) (Solution α) :=
  let norm := fun i => Vec.norm (r i)
  match status with
  | .converged => .ok ⟨.converged, n, norm 0, norm n⟩ ⟨t n, m, ()⟩
  | status => GaussSeidel.giveUp config (norm 0) status n (norm n) ⟨t n, m, ()⟩

variable {config r}

theorem stopOf_comesBack (config : GaussSeidelSettings α) (r : Nat → Array α) (t : Nat → σ) (m : μ)
    (status : Status) (n : Nat) : stopOf (config.comesBack r t m status n) = some (status, n) := by
  cases status with
  | converged => rfl
  | _ => exact (GaussSeidel.stop_giveUp config _ _ _ n _).1

namespace Stops

variable {status : Status} {n : Nat}

/-- What has happened before a stall: the limit is in force, nothing has met the tolerances, and no
earlier window has stalled. -/
theorem stalled_iff (h : config.Stops r status n) {k : Nat} :
    (status, n) = (.stalled, k) ↔ 0 < config.stallLimit ∧ (∀ i ≤ k, ¬config.Meets r i) ∧
      k ≤ config.maxiter ∧
      IsLeast {i | StallsAt (fun i => Vec.norm (r i)) config.stallLimit i} k := by
  constructor
  · intro heq
    obtain ⟨rfl, rfl⟩ := Prod.mk.inj heq
    cases h with
    | stalled hn hbefore hmeets hstalls =>
      refine ⟨hstalls.1, fun i hi => ?_, hn, hstalls.2, fun i hi => ?_⟩
      · rcases hi.lt_or_eq with hi | rfl
        · exact (hbefore i hi).1
        · exact hmeets
      · by_contra hlt
        exact (hbefore i (not_le.1 hlt)).2 ⟨hstalls.1, hi⟩
  · rintro ⟨hlimit, hmeets, hk, hstalls, hleast⟩
    cases h with
    | converged hn hbefore hconverged =>
      have hlt : k < n := by
        by_contra hle
        exact hmeets n (not_lt.1 hle) hconverged
      exact absurd ⟨hlimit, hstalls⟩ (hbefore k hlt).2
    | stalled hn hbefore _ hstalled =>
      have hle : k ≤ n := hleast hstalled.2
      rcases hle.lt_or_eq with hlt | rfl
      · exact absurd ⟨hlimit, hstalls⟩ (hbefore k hlt).2
      · rfl
    | maxIters hbefore => exact absurd ⟨hlimit, hstalls⟩ (hbefore k hk).2

/-- Without a stall, a solve converges where the tolerances are first met, or never meets them. -/
theorem of_not_stalled (h : config.Stops r status n) (hstatus : status ≠ .stalled) :
    (∃ k ≤ config.maxiter, IsLeast {i | config.Meets r i} k ∧ (status, n) = (.converged, k)) ∨
      (∀ i ≤ config.maxiter, ¬config.Meets r i) ∧ (status, n) = (.maxIters, config.maxiter) := by
  cases h with
  | converged hn hbefore hmeets =>
    refine .inl ⟨n, hn, ⟨hmeets, fun i hi => ?_⟩, rfl⟩
    by_contra hlt
    exact (hbefore i (not_le.1 hlt)).1 hi
  | stalled => exact absurd rfl hstatus
  | maxIters hbefore => exact .inr ⟨fun i hi => (hbefore i hi).1, rfl⟩

end Stops

end GaussSeidelSettings

/-! ### The solve -/

namespace GaussSeidel

open SolveM

variable {config : GaussSeidelSettings α} {sys : NonlinearSystem α σ}

/-- From `s` on, the sweeps of a solve leave the residuals `r` and the systems `t` behind, with
finite norms. Nothing is said of sweeps that the rules keep it from making. -/
structure Runs (config : GaussSeidelSettings α) (sys : NonlinearSystem α σ) (s : σ)
    (r : Nat → Array α) (t : Nat → σ) : Prop where
  starts : sys.Starts s (r 0) (t 0)
  next : ∀ k < config.maxiter, (∀ i ≤ k, config.GoesOn r i) →
    ∃ u, sys.sweep (t k) = .ok () u ∧ sys.residuals u = .ok (r (k + 1)) (t (k + 1))
  finite : ∀ k ≤ config.maxiter, (∀ i < k, config.GoesOn r i) →
    Scalar.isFinite (Vec.norm (r k)) = true

/-- One sweep of the solve: the residuals after it meet the tolerances, or have stalled, or the
solve goes on. -/
theorem iterate_of_sweep {initialNorm best residualNorm : α} {fuel iter stalled : Nat} {m : μ}
    {s u s' : σ} {r : Array α} (hsweep : sys.sweep s = .ok () u)
    (hresiduals : sys.residuals u = .ok r s') (hfinite : Scalar.isFinite (Vec.norm r) = true) :
    iterate config sys .silent initialNorm (fuel + 1) iter best stalled residualNorm ⟨s, m, ()⟩ =
      (if meetsTolerances config.atol config.rtol initialNorm (Vec.norm r) then
        pure ⟨.converged, iter, initialNorm, Vec.norm r⟩
      else
        let kept := countStalled best stalled (Vec.norm r)
        if 0 < config.stallLimit ∧ config.stallLimit ≤ kept.2 then
          giveUp config initialNorm .stalled iter (Vec.norm r)
        else iterate config sys .silent initialNorm fuel (iter + 1) kept.1 kept.2 (Vec.norm r) :
        SolveWith α μ σ Unit (Solution α)) ⟨s', m, ()⟩ := by
  rw [iterate, bind_of_ok _ (onSystem_of_ok hsweep m ()),
    bind_of_ok _ (onSystem_of_ok hresiduals m ())]
  dsimp only
  rw [bind_of_ok _ (unknowns_eq _), bind_of_ok _ (report_eq _ _), stops_silent,
    if_neg Bool.false_ne_true, hfinite]
  rfl

/-- A norm alone does not stall. -/
theorem not_stalls_zero (config : GaussSeidelSettings α) (r : Nat → Array α) :
    ¬config.Stalls r 0 := fun h => absurd h.2.1 (Nat.not_le.2 h.1)

variable [LinearScalar α] {s : σ} {r : Nat → Array α} {t : Nat → σ}

/-- From a sweep at which the rules let a solve go on, it runs into the end that they give it. -/
theorem stops_iterate (h : Runs config sys s r t) (m : μ) {fuel n stalled : Nat} {best : α}
    (hfuel : n + fuel = config.maxiter) (hbefore : ∀ i ≤ n, config.GoesOn r i)
    (hwatches : Watches (fun i => Vec.norm (r i)) n best stalled) :
    ∃ status k, config.Stops r status k ∧
      iterate config sys .silent (Vec.norm (r 0)) fuel (n + 1) best stalled (Vec.norm (r n))
        ⟨t n, m, ()⟩ = config.comesBack r t m status k := by
  -- on the sweeps that are left; `Watches` is what the kept norm and count know of those before
  induction fuel generalizing n best stalled with
  | zero =>
    obtain rfl : n = config.maxiter := hfuel
    exact ⟨_, _, .maxIters hbefore, rfl⟩
  | succ fuel ih =>
    have hn : n < config.maxiter := by omega
    have hearlier : ∀ i < n + 1, config.GoesOn r i := fun i hi => hbefore i (Nat.lt_succ_iff.1 hi)
    obtain ⟨u, hsweep, hresiduals⟩ := h.next n hn hbefore
    have hfinite := h.finite (n + 1) hn hearlier
    have hnext := hwatches.countStalled (LinearScalar.isUndefined_of_isFinite _ hfinite)
    have hstalls : config.Stalls r (n + 1) ↔ 0 < config.stallLimit ∧ config.stallLimit ≤
        (countStalled best stalled (Vec.norm (r (n + 1)))).2 :=
      and_congr_right fun _ => hnext.stallsAt_iff _
    rw [iterate_of_sweep hsweep hresiduals hfinite]
    dsimp only
    split_ifs with hmeets hstalled
    · exact ⟨_, _, .converged hn hearlier hmeets, rfl⟩
    · exact ⟨_, _, .stalled hn hearlier hmeets (hstalls.2 hstalled), rfl⟩
    · have hgoesOn : config.GoesOn r (n + 1) := ⟨hmeets, fun hs => hstalled (hstalls.1 hs)⟩
      refine ih (by omega) (fun i hi => ?_) hnext
      rcases Nat.le_succ_iff.1 hi with hi | rfl
      · exact hbefore i hi
      · exact hgoesOn

/-- **A solve ends as the rules say**, wherever that is. -/
theorem stops_solve (h : Runs config sys s r t) (m : μ) :
    ∃ status n, config.Stops r status n ∧
      solve config sys .silent ⟨s, m, ()⟩ = config.comesBack r t m status n := by
  obtain ⟨u, hguess, hresiduals⟩ := h.starts
  have hfinite := h.finite 0 (Nat.zero_le _) fun i hi => absurd hi (Nat.not_lt_zero i)
  rw [solve, bind_of_ok _ (onSystem_of_ok hguess m ()),
    bind_of_ok _ (onSystem_of_ok hresiduals m ()), bind_of_ok _ (report_eq _ _), stops_silent,
    if_neg Bool.false_ne_true, hfinite]
  split_ifs with hmeets hinfinite
  · exact ⟨_, _, .converged (Nat.zero_le _) (fun i hi => absurd hi (Nat.not_lt_zero i)) hmeets, rfl⟩
  · exact absurd hinfinite Bool.false_ne_true
  · refine stops_iterate h m (Nat.zero_add _) (fun i hi => ?_)
      (Watches.zero (LinearScalar.isUndefined_of_isFinite _ hfinite))
    obtain rfl := Nat.le_zero.1 hi
    exact ⟨hmeets, not_stalls_zero config r⟩

/-- **When a solve stalls.** Without an observer it stops after `n` sweeps with a stall exactly when
there is a limit, nothing up to there meets the tolerances, and `n` is the first sweep at which the
last norms, as many as the limit says, are all at least the least norm before them. Any other solve
converges where the tolerances are first met, or makes all its sweeps. It always comes back with the
norms and the system of that sweep. -/
theorem solve_stalls_iff (h : Runs config sys s r t) (m : μ) :
    let outcome := solve config sys .silent ⟨s, m, ()⟩
    (∀ n, stopOf outcome = some (.stalled, n) ↔
      0 < config.stallLimit ∧ (∀ i ≤ n, ¬config.Meets r i) ∧ n ≤ config.maxiter ∧
        IsLeast {i | StallsAt (fun i => Vec.norm (r i)) config.stallLimit i} n) ∧
    ((∀ n, stopOf outcome ≠ some (.stalled, n)) →
      (∃ n ≤ config.maxiter, IsLeast {i | config.Meets r i} n ∧
        stopOf outcome = some (.converged, n)) ∨
      (∀ i ≤ config.maxiter, ¬config.Meets r i) ∧
        stopOf outcome = some (.maxIters, config.maxiter)) ∧
    ∀ status n, stopOf outcome = some (status, n) → outcome = config.comesBack r t m status n := by
  obtain ⟨status, n, hstops, houtcome⟩ := stops_solve h m
  intro outcome
  have hstop : stopOf outcome = some (status, n) :=
    (congrArg stopOf houtcome).trans (GaussSeidelSettings.stopOf_comesBack config r t m status n)
  rw [hstop]
  simp only [Option.some_inj]
  refine ⟨fun k => hstops.stalled_iff, fun hother => hstops.of_not_stalled ?_, ?_⟩
  · rintro rfl
    exact hother n rfl
  · rintro status' n' heq
    obtain ⟨rfl, rfl⟩ := Prod.mk.inj heq
    exact houtcome

end GaussSeidel

/-! ### A stall -/

namespace Fading

/-- The residual after a number of sweeps. -/
def residual (k : Nat) : ℚ := [8, 4, 5, 4].getD k 6

/-- One unknown that sweeps do not change, but its residual; the state counts the sweeps. -/
def system : NonlinearSystem ℚ Nat where
  state _ := #[0]
  setState _ k := k
  lower := #[none]
  upper := #[none]
  residuals := fun k => .ok #[residual k] k
  linearize := fun k => .ok () k
  sweep := fun k => .ok () (k + 1)
  guess := fun k => .ok () k
  operator _ := Operator.ofRows [[1]] [.upTo 1]

/-- At most ten sweeps, and three without a decrease. -/
def settings : GaussSeidelSettings ℚ := .default

theorem runs : GaussSeidel.Runs settings system 0 (fun k => #[residual k]) id where
  starts := ⟨0, rfl, rfl⟩
  next k _ _ := ⟨k + 1, rfl, rfl⟩
  finite _ _ _ := rfl

/-- The norms are 8, 4, 5, 4 and 6: a fall to 4 and then three that are not below it, though the
third of them is below the second. -/
theorem stalls_after_four :
    GaussSeidel.Runs settings system 0 (fun k => #[residual k]) id ∧
      stopOf (GaussSeidel.solve settings system .silent (⟨0, (), ()⟩ : SolveState Unit Nat Unit)) =
        some (.stalled, 4) ∧
      IsLeast {n | StallsAt (fun i => Vec.norm #[residual i]) settings.stallLimit n} 4 := by
  have hstop : stopOf (GaussSeidel.solve settings system .silent
      (⟨0, (), ()⟩ : SolveState Unit Nat Unit)) = some (.stalled, 4) := by decide +kernel
  obtain ⟨-, -, -, hleast⟩ := ((GaussSeidel.solve_stalls_iff runs ()).1 4).1 hstop
  exact ⟨runs, hstop, hleast⟩

end Fading

end Mdao
