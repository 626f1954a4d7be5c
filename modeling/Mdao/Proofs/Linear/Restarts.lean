import Mathlib
import Mdao.Proofs.Linear.Krylov
import Mdao.Proofs.Linear.Truthful
import Mdao.Proofs.Nonlinear.Trace

/-!
# Restarts of GMRES

A cycle begins open and stays so until it ends, hence it ends explained (`Gmres.arnoldi_explained`,
`Gmres.cycle_left_over`). What a correction leaves of a residual is the residual from which the next
cycle starts (`residual_add`), so the norms that an observer is told never grow
(`Gmres.cycles_descend`).

The preconditioner is any function with a state that answers a vector with one of the same length,
so what is shown holds also where it differs from call to call, or fails.
-/

namespace Mdao

open Vec Matrix

variable {α : Type} {n : Nat}

/-- Vectors of one length with the same function are equal. -/
theorem Vec.eq_of_toFun [ExactScalar α] {x y : Array α} (hx : x.size = n) (hy : y.size = n)
    (h : toFun n x = toFun n y) : x = y :=
  (eq_ofFun hx h).trans (eq_ofFun hy rfl).symm

/-- What a corrected solution leaves is what the correction leaves of the residual. -/
theorem residual_add [ExactScalar α] {op : Operator α} {J : Matrix (Fin n) (Fin n) α}
    (hop : op.IsMatrix J) {mode : Mode} {rhs x u r w : Array α} (hrhs : rhs.size = n)
    (hx : x.size = n) (hu : u.size = n) (hr : op.residual rhs x mode = .ok r)
    (hw : op.apply mode u = .ok w) :
    op.residual rhs (add x u) mode = .ok (sub r w) := by
  obtain ⟨y, hy, hr⟩ := bind_eq_ok.1 hr
  obtain rfl : sub rhs y = r := Except.ok.inj hr
  obtain ⟨y', hy', hysize, hyfun⟩ := hop.apply mode x
  obtain rfl : y' = y := Except.ok.inj (hy'.symm.trans hy)
  obtain ⟨w', hw', hwsize, hwfun⟩ := hop.apply mode u
  obtain rfl : w' = w := Except.ok.inj (hw'.symm.trans hw)
  obtain ⟨v, hv, hvsize, hvfun⟩ := hop.apply mode (add x u)
  refine bind_eq_ok.2 ⟨v, hv, congrArg Except.ok ?_⟩
  have hsum : toFun n (add x u) = toFun n x + toFun n u := by
    funext i
    exact entry_zipWith _ _ _ _ (hx.symm ▸ i.2) (hu.symm ▸ i.2)
  have hsub : (sub rhs y').size = n := (size_sub (hrhs.trans hysize.symm)).trans hysize
  rw [hsum, Matrix.mulVec_add, ← hyfun, ← hwfun] at hvfun
  refine eq_of_toFun ((size_sub (hrhs.trans hvsize.symm)).trans hvsize)
    ((size_sub (hsub.trans hwsize.symm)).trans hwsize) (funext fun i => ?_)
  show entry (sub rhs v) i = entry (sub (sub rhs y') w') i
  rw [entry_sub (hrhs.trans hvsize.symm), entry_sub (hsub.trans hwsize.symm),
    entry_sub (hrhs.trans hysize.symm),
    show entry v i = entry y' i + entry w' i from congrFun hvfun i]
  ring

namespace Gmres

variable {ρ σ : Type} {precondition : Array α → EStateM LinearError ρ (Array α)}
  {s : GmresSettings α} {op : Operator α} {mode : Mode} {observer : Observer (LinearEvent α) σ}

/-- A preconditioner answers a vector with one of the same length, unless it fails. -/
def KeepsSize (n : Nat) (precondition : Array α → EStateM LinearError ρ (Array α)) : Prop :=
  ∀ v p z p', v.size = n → precondition v p = .ok z p' → z.size = n

variable [EuclideanScalar α] {J : Matrix (Fin n) (Fin n) α}

/-- **An inner iteration goes on only with a new direction.** -/
theorem norm_ne_zero_of_not_break {rNorm wNorm : α} (hr : 0 ≤ rNorm)
    (h : ¬wNorm ≤ Scalar.epsilon * rNorm) : wNorm ≠ 0 := by
  have heps : (0 : α) ≤ Scalar.epsilon := div_nonneg zero_le_one (Nat.cast_nonneg _)
  exact ((mul_nonneg heps hr).trans_lt (not_le.1 h)).ne'

/-- **Inner iterations keep a cycle explained.** -/
theorem arnoldi_explained (hop : op.IsMatrix J) (hprecondition : KeepsSize n precondition)
    {b : Fin n → α} {rNorm tol : α} (hrNorm : 0 ≤ rNorm) {fuel : Nat} {v : Array α}
    {k k' : Krylov α} (hk : Krylov.Open (mode.along J) b k) (hv : v.size = n) {p p' : ρ}
    (h : arnoldi precondition op mode rNorm tol fuel v k p = .ok k' p') :
    ∃ us q, Krylov.Explained (mode.along J) b k' us q := by
  induction fuel generalizing v k p with
  | zero =>
    cases h
    exact ⟨_, _, hk.explained⟩
  | succ fuel ih =>
    obtain ⟨z, p₁, hz, -⟩ := exists_of_bind_eq_ok h
    have hzsize := hprecondition v p z p₁ hv hz
    obtain ⟨w, hw, hwsize, himage⟩ := hop.apply mode z
    rw [arnoldi_succ hz hw] at h
    split_ifs at h with hbreak
    · cases h
      exact hk.explained_extend hzsize hwsize himage
    · have hnorm := norm_ne_zero_of_not_break hrNorm fun hle => hbreak (.inr hle)
      have hopen := hk.extend hzsize hwsize himage hnorm
      exact ih hopen (hopen.sizes _ (List.mem_append_right _ (List.mem_singleton_self _))) h

/-- **Inner iterations do not fail by themselves**: where the preconditioner answers, so do they. -/
theorem arnoldi_total (hop : op.IsMatrix J)
    (hprecondition : ∀ v p, isResult (precondition v p) = true) {rNorm tol : α} {fuel : Nat}
    {v : Array α} {k : Krylov α} {p : ρ} :
    isResult (arnoldi precondition op mode rNorm tol fuel v k p) = true := by
  induction fuel generalizing v k p with
  | zero => rfl
  | succ fuel ih =>
    obtain ⟨z, hz⟩ := eq_ok_of_isResult (hprecondition v p)
    obtain ⟨w, hw, -⟩ := hop.apply mode z
    rw [arnoldi_succ hz hw]
    split_ifs
    · rfl
    · exact ih

/-- **At the end of a cycle** the remainder is the norm of what the correction leaves, up to sign,
unless the last diagonal entry is zero, and what is left is no larger than the residual before. -/
theorem cycle_left_over (hop : op.IsMatrix J) (hprecondition : KeepsSize n precondition)
    {r : Array α} (hr : r.size = n) (hnorm : Vec.norm r ≠ 0) {tol : α} {budget : Nat} {p p' : ρ}
    {k : Krylov α} (h : cycle s precondition op r (Vec.norm r) tol mode budget p = .ok k p') :
    ∃ w, op.apply mode (k.update op.dim) = .ok w ∧ w.size = n ∧ (k.update op.dim).size = n ∧
      (k.lastDiagonal ≠ 0 → |k.remainder| = Vec.norm (Vec.sub r w)) ∧
      Vec.norm (Vec.sub r w) ≤ Vec.norm r := by
  have hstart := Krylov.open_start (mode.along J) hr hnorm
  obtain ⟨us, q, hk⟩ := arnoldi_explained hop hprecondition (norm_nonneg r) hstart
    (hstart.sizes _ (List.mem_singleton_self _)) h
  obtain ⟨w, hw, hwsize, himage⟩ := hop.apply mode (k.update n)
  rw [hop.dim]
  exact ⟨w, hw, hwsize, (Krylov.toFun_update hk.sizes).1, hk.norm_left_over hr hwsize himage⟩

/-- The observer is shown the residual, and then the solve ends here or goes on. -/
theorem look_eq {x rhs r : Array α} (hr : op.residual rhs x mode = .ok r) {tol : α}
    {count iters : Nat} (goOn : Array α → EStateM LinearError (ρ × σ) (LinearSolution α)) (p : ρ)
    (o : σ) :
    (stateAfter (look op rhs mode observer tol count iters x goOn (p, o))).2 =
        observer.after o ⟨count, iters, Vec.norm r⟩ ∨
      tol < Vec.norm r ∧ look op rhs mode observer tol count iters x goOn (p, o) =
        goOn r (p, observer.after o ⟨count, iters, Vec.norm r⟩) := by
  unfold look
  rw [linearResidual_eq_ok.2 hr]
  dsimp only
  split_ifs with hstop hsmall
  · exact .inl rfl
  · exact .inl rfl
  · exact .inr ⟨not_le.1 hsmall, rfl⟩

/-- Settings that make sense have no negative tolerance. -/
theorem atol_nonneg (hs : s.validate = .ok ()) : 0 ≤ s.atol := by
  unfold GmresSettings.validate checkTolerances at hs
  by_contra hneg
  simp [isTolerance, not_le.1 hneg] at hs

/-- **What the observer of cycles sees**: the norm of the residual at which they start, and then
norms none of which is larger than the one before. -/
theorem cycles_descend (hop : op.IsMatrix J) (hprecondition : KeepsSize n precondition)
    {rhs : Array α} (hrhs : rhs.size = n) {tol : α} (htol : 0 ≤ tol) (fuel count iters : Nat)
    {x r : Array α} (hx : x.size = n) (hr : op.residual rhs x mode = .ok r) (p : ρ) (o : σ) :
    ∃ events : List (LinearEvent α),
      (stateAfter (cycles s precondition op rhs mode observer tol fuel count iters x (p, o))).2 =
        (⟨count, iters, Vec.norm r⟩ :: events).foldl observer.after o ∧
      (Vec.norm r :: events.map LinearEvent.residualNorm).Pairwise (· ≥ ·) := by
  induction fuel generalizing count iters x r p o with
  | zero =>
    refine ⟨[], ?_, List.pairwise_singleton _ _⟩
    unfold cycles
    rcases look_eq hr (fun r => pure ⟨.maxIters, x, iters, Vec.norm r⟩) p o with h | ⟨-, h⟩
    · exact h
    · rw [h]
      rfl
  | succ fuel ih =>
    unfold cycles
    refine (look_eq hr _ p o).elim (fun h => ⟨[], h, List.pairwise_singleton _ _⟩) ?_
    rintro ⟨hlarge, h⟩
    rw [h]
    dsimp only
    split_ifs with hmax
    · exact ⟨[], rfl, List.pairwise_singleton _ _⟩
    · cases hcycle : cycle s precondition op r (Vec.norm r) tol mode (s.maxiter - iters) p with
      | error e p' => exact ⟨[], rfl, List.pairwise_singleton _ _⟩
      | ok k p' =>
        obtain ⟨y, hy, hysize, -⟩ := hop.apply mode x
        obtain rfl : Vec.sub rhs y = r :=
          Except.ok.inj ((bind_eq_ok.2 ⟨y, hy, rfl⟩ : op.residual rhs x mode = _).symm.trans hr)
        have hrsize := (size_sub (hrhs.trans hysize.symm)).trans hysize
        obtain ⟨w, hw, -, hu, -, hle⟩ :=
          cycle_left_over hop hprecondition hrsize (htol.trans_lt hlarge).ne' hcycle
        have hnext := residual_add hop hrhs hx hu hr hw
        have hxnext : (Vec.add x (k.update op.dim)).size = n := by simp [Vec.add, hx, hu]
        obtain ⟨events, hseen, hdescend⟩ := ih (count + 1) (iters + k.columns.length) hxnext hnext
          p' (observer.after o ⟨count, iters, Vec.norm (Vec.sub rhs y)⟩)
        refine ⟨_ :: events, hseen, List.pairwise_cons.2 ⟨fun b hb => ?_, hdescend⟩⟩
        rcases List.mem_cons.1 hb with rfl | hb
        · exact hle
        · exact (List.rel_of_pairwise_cons hdescend hb).trans hle

/-- **GMRES never makes the residual worse, and its recurrence is the true residual.** At the end of
a cycle from any residual the remainder is the norm of what the correction leaves, up to sign,
unless the last diagonal entry is zero, and what is left is no larger than the residual; a cycle
fails only where the preconditioner does. So the norms that a solve shows to its observer never
grow, also where the solve fails in the end. -/
theorem residual_never_grows (hop : op.IsMatrix J) (hs : s.validate = .ok ())
    (hprecondition : KeepsSize n precondition) (mode : Mode) :
    (∀ r tol budget p, r.size = n → Vec.norm r ≠ 0 →
      ((∀ v q, isResult (precondition v q) = true) →
        isResult (cycle s precondition op r (Vec.norm r) tol mode budget p) = true) ∧
      ∀ k p', cycle s precondition op r (Vec.norm r) tol mode budget p = .ok k p' →
        ∃ w, op.apply mode (k.update op.dim) = .ok w ∧
          (k.lastDiagonal ≠ 0 → |k.remainder| = Vec.norm (Vec.sub r w)) ∧
          Vec.norm (Vec.sub r w) ≤ Vec.norm r) ∧
    ∀ rhs guess, rhs.size = n → guess.size = n → ∀ (observer : Observer (LinearEvent α) σ) p o,
      ∃ events : List (LinearEvent α),
        (stateAfter (solve s precondition op rhs guess mode observer (p, o))).2 =
          events.foldl observer.after o ∧
        (events.map LinearEvent.residualNorm).Pairwise (· ≥ ·) := by
  refine ⟨fun r tol budget p hr hnorm => ⟨fun h => arnoldi_total hop h, fun k p' h => ?_⟩,
    fun rhs guess hrhs hguess observer p o => ?_⟩
  · obtain ⟨w, hw, -, -, hleft⟩ := cycle_left_over hop hprecondition hr hnorm h
    exact ⟨w, hw, hleft⟩
  · have htol : 0 ≤ Scalar.maxNum s.atol (s.rtol * Vec.norm rhs) := by
      rw [Scalar.maxNum_eq_max]
      exact (atol_nonneg hs).trans (le_max_left _ _)
    have hx : (if Vec.norm rhs == 0 then Vec.zeros op.dim else guess).size = n := by
      split_ifs
      · exact (Vec.size_zeros _).trans hop.dim
      · exact hguess
    obtain ⟨y, hy, -⟩ := hop.apply mode (if Vec.norm rhs == 0 then Vec.zeros op.dim else guess)
    obtain ⟨events, hseen, hdescend⟩ := cycles_descend hop hprecondition hrhs htol s.maxiter 0 0 hx
      (bind_eq_ok.2 ⟨y, hy, rfl⟩) p o
    exact ⟨_ :: events, hseen, hdescend⟩

end Gmres

/-! ### A quarter turn -/

namespace QuarterTurn

/-- A turn of the plane by a right angle: no image has a part along its vector. -/
noncomputable def matrix : SparseMatrix ℝ := ⟨[(0, 1, -1), (1, 0, 1)]⟩

/-- The turn as an operator. -/
noncomputable def op : Operator ℝ := .ofMatrix 2 matrix

/-- Restarts after each inner iteration. -/
noncomputable def settings : GmresSettings ℝ := ⟨10, 0, 0, 1, false⟩

/-- A preconditioner that scales by the number of the call, so the first answer is zero. -/
noncomputable def fickle (v : Array ℝ) : EStateM LinearError Nat (Array ℝ) :=
  fun calls => .ok (v.map (· * (calls : ℝ))) (calls + 1)

theorem isMatrix_op : op.IsMatrix (matrix.toMatrix 2) :=
  Operator.isMatrix_of_product rfl (fun _ _ => rfl) (by simp [matrix])

theorem keepsSize_fickle : Gmres.KeepsSize 2 fickle := by
  intro v p z p' hv h
  cases h
  simpa using hv

theorem validate_settings : settings.validate = .ok () := by
  simp [settings, GmresSettings.validate, checkTolerances, isTolerance, ExactScalar.isFinite_eq]

/-- A cycle on the turn ends without having made a residual worse, though it is preconditioned with
zero. -/
theorem cycle_op : ∃ k calls w,
    Gmres.cycle settings fickle op #[3, 4] (Vec.norm #[3, 4]) 0 .rev 10 0 = .ok k calls ∧
      op.apply .rev (k.update 2) = .ok w ∧
      Vec.norm (Vec.sub #[3, 4] w) ≤ Vec.norm (#[3, 4] : Array ℝ) := by
  have hnorm : Vec.norm (#[3, 4] : Array ℝ) ≠ 0 := fun hzero => by
    have hsquare := norm_mul_self (n := 2) (x := (#[3, 4] : Array ℝ)) rfl
    rw [hzero, dotProduct, Fin.sum_univ_two] at hsquare
    norm_num [toFun, entry] at hsquare
  obtain ⟨htotal, hcycle⟩ := (Gmres.residual_never_grows (σ := Unit) isMatrix_op validate_settings
    keepsSize_fickle .rev).1 #[3, 4] 0 10 0 rfl hnorm
  obtain ⟨k, hk⟩ := eq_ok_of_isResult (htotal fun _ _ => rfl)
  obtain ⟨w, hw, -, hle⟩ := hcycle k _ hk
  exact ⟨k, _, w, hk, hw, hle⟩

end QuarterTurn

end Mdao
