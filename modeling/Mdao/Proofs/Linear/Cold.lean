import Mdao.Proofs.Agree
import Mdao.Linear.Solver

/-!
# Linear solvers that start afresh

What a linear solver remembers from one solve to the next are factors and last solutions. Factors are
made anew by a setup, and a last solution is where a solve starts from only where the settings say
so. A solver whose settings do not, and neither do those of its preconditioners
(`LinearConfig.IsCold`), gives the same answers after a setup whatever it remembered before
(`setup_agrees`, `solve_agrees`).
-/

namespace Mdao

variable {α : Type}

/-- No solve starts from an earlier solution. -/
def LinearConfig.IsCold : LinearConfig α → Prop
  | .direct => True
  | .gmres s => s.useCachedGuess = false
  | .preconditioned s nested => s.useCachedGuess = false ∧ nested.IsCold
  | .blockGaussSeidel s => s.useCachedGuess = false
  | .blockJacobi s => s.useCachedGuess = false
  | .runOnce => True

variable [Scalar α]

/-! ### GMRES -/

namespace Gmres

variable {ρ σ : Type} {P : ρ → ρ → Prop}
  {precondition : Array α → EStateM LinearError ρ (Array α)}

/-- Inner iterations agree where the calls of the preconditioner do. -/
theorem arnoldi_agrees
    (hpre : ∀ v s t, P s t → Agree P P (precondition v s) (precondition v t)) (op : Operator α)
    (mode : Mode) (rNorm tol : α) (fuel : Nat) (v : Array α) (k : Krylov α) {s t : ρ}
    (h : P s t) : Agree P P (arnoldi precondition op mode rNorm tol fuel v k s)
      (arnoldi precondition op mode rNorm tol fuel v k t) := by
  induction fuel generalizing v k s t with
  | zero => exact .ok k h
  | succ fuel ih =>
    unfold arnoldi
    refine .bind (hpre v s t h) fun z s t h => ?_
    cases op.apply mode z with
    | error e => exact .bind (Q := fun _ _ => False) (.error _ h) fun _ _ _ h => h.elim
    | ok w =>
      refine .bind (.ok w h) fun w s t h => ?_
      obtain ⟨k, w, wNorm⟩ := k.extend z w
      dsimp only
      split_ifs
      · exact .ok _ h
      · exact ih _ _ h

/-- Two states of a solve with the same observer. -/
def Beside (P : ρ → ρ → Prop) (a b : ρ × σ) : Prop := P a.1 b.1 ∧ a.2 = b.2

/-- Looking at a residual does not depend on the preconditioner. -/
theorem look_agrees (op : Operator α) (rhs : Array α) (mode : Mode)
    (observer : Observer (LinearEvent α) σ) (tol : α) (count iters : Nat) (x : Array α)
    {goOn : Array α → EStateM LinearError (ρ × σ) (LinearSolution α)}
    (hgoOn : ∀ r a b, Beside P a b → Agree (Beside P) (Beside P) (goOn r a) (goOn r b))
    {a b : ρ × σ} (h : Beside P a b) : Agree (Beside P) (Beside P)
      (look op rhs mode observer tol count iters x goOn a)
      (look op rhs mode observer tol count iters x goOn b) := by
  obtain ⟨p, o⟩ := a
  obtain ⟨q, o'⟩ := b
  obtain ⟨h, rfl : o = o'⟩ := h
  unfold look
  dsimp only
  cases linearResidual op rhs x mode with
  | error e => exact .error e ⟨h, rfl⟩
  | ok r =>
    dsimp only
    split_ifs
    · exact .ok _ ⟨h, rfl⟩
    · exact .ok _ ⟨h, rfl⟩
    · exact hgoOn r _ _ ⟨h, rfl⟩

/-- Cycles agree where the calls of the preconditioner do. -/
theorem cycles_agree (s : GmresSettings α)
    (hpre : ∀ v s t, P s t → Agree P P (precondition v s) (precondition v t)) (op : Operator α)
    (rhs : Array α) (mode : Mode) (observer : Observer (LinearEvent α) σ) (tol : α)
    (fuel count iters : Nat) (x : Array α) {a b : ρ × σ} (h : Beside P a b) :
    Agree (Beside P) (Beside P)
      (cycles s precondition op rhs mode observer tol fuel count iters x a)
      (cycles s precondition op rhs mode observer tol fuel count iters x b) := by
  induction fuel generalizing count iters x a b with
  | zero =>
    unfold cycles
    refine look_agrees op rhs mode observer tol count iters x (fun r a b h => ?_) h
    exact .ok _ h
  | succ fuel ih =>
    unfold cycles
    refine look_agrees op rhs mode observer tol count iters x (fun r a b h => ?_) h
    obtain ⟨p, o⟩ := a
    obtain ⟨q, o'⟩ := b
    obtain ⟨h, rfl : o = o'⟩ := h
    dsimp only
    split_ifs
    · exact .ok _ ⟨h, rfl⟩
    · have hcycle : Agree P P
          (cycle s precondition op r (Vec.norm r) tol mode (s.maxiter - iters) p)
          (cycle s precondition op r (Vec.norm r) tol mode (s.maxiter - iters) q) :=
        arnoldi_agrees hpre op mode _ _ _ _ _ h
      revert hcycle
      generalize cycle s precondition op r (Vec.norm r) tol mode (s.maxiter - iters) p = c
      generalize cycle s precondition op r (Vec.norm r) tol mode (s.maxiter - iters) q = c'
      rintro (⟨k, h⟩ | ⟨e, h⟩)
      · exact ih _ _ _ ⟨h, rfl⟩
      · exact .error e ⟨h, rfl⟩

/-- GMRES agrees where the calls of the preconditioner do. -/
theorem solve_agrees (s : GmresSettings α)
    (hpre : ∀ v s t, P s t → Agree P P (precondition v s) (precondition v t)) (op : Operator α)
    (rhs guess : Array α) (mode : Mode) (observer : Observer (LinearEvent α) σ) {a b : ρ × σ}
    (h : Beside P a b) : Agree (Beside P) (Beside P)
      (solve s precondition op rhs guess mode observer a)
      (solve s precondition op rhs guess mode observer b) :=
  cycles_agree s hpre op rhs mode observer _ _ _ _ _ h

end Gmres

/-! ### Solvers -/

namespace LinearConfig

open LinearMemory

/-- Two memories that a solver cannot tell apart once it has been set up. -/
def Alike : LinearConfig α → LinearMemory α → LinearMemory α → Prop
  | .direct, m, m' => (own m).factors = (own m').factors
  | .gmres _, _, _ => True
  | .preconditioned _ nested, m, m' => nested.Alike (preconditioner m) (preconditioner m')
  | .blockGaussSeidel _, m, m' => (own m).diagonal = (own m').diagonal
  | .blockJacobi _, m, m' => (own m).diagonal = (own m').diagonal
  | .runOnce, m, m' => (own m).diagonal = (own m').diagonal

/-- **A setup forgets what was there before.** -/
theorem setup_agrees (op : Operator α) (config : LinearConfig α) (m m' : LinearMemory α) :
    Agree config.Alike (fun _ _ => True) (setup op config m) (setup op config m') := by
  induction config generalizing m m' with
  | direct =>
    unfold setup
    cases Direct.factorize op with
    | ok f => exact .ok () rfl
    | error e => exact .error e trivial
  | gmres s => exact .ok () trivial
  | preconditioned s nested ih =>
    unfold setup
    have hnested := ih (preconditioner m) (preconditioner m')
    revert hnested
    generalize setup op nested (preconditioner m) = r
    generalize setup op nested (preconditioner m') = r'
    rintro (⟨_, h⟩ | ⟨e, h⟩)
    · exact .ok () h
    · exact .error e trivial
  | blockGaussSeidel s => exact .ok () rfl
  | blockJacobi s => exact .ok () rfl
  | runOnce => exact .ok () rfl

theorem guess_eq {useCached : Bool} (h : useCached = false) (c : Cell α) (n : Nat) (mode : Mode) :
    c.guess useCached n mode = Vec.zeros n := by
  unfold Cell.guess
  cases c.last mode with
  | none => rfl
  | some x => simp [h]

/-- GMRES from zero agrees where the calls of its preconditioner do. -/
theorem gmresSolve_agrees {σ : Type} (s : GmresSettings α) (hcold : s.useCachedGuess = false)
    {P : LinearMemory α → LinearMemory α → Prop}
    {precondition : Array α → EStateM LinearError (LinearMemory α) (Array α)}
    (hpre : ∀ v s t, P s t → Agree P P (precondition v s) (precondition v t)) (op : Operator α)
    (rhs : Array α) (mode : Mode) (observer : Observer (LinearEvent α) σ) {m m' : LinearMemory α}
    (o : σ) (h : P (preconditioner m) (preconditioner m')) :
    Agree (fun a b => P (preconditioner a.1) (preconditioner b.1) ∧ a.2 = b.2)
      (fun a b => P (preconditioner a.1) (preconditioner b.1) ∧ a.2 = b.2)
      (gmresSolve s precondition op rhs mode observer (m, o))
      (gmresSolve s precondition op rhs mode observer (m', o)) := by
  unfold gmresSolve
  dsimp only
  cases checkDim op rhs with
  | error e => exact .error e ⟨h, rfl⟩
  | ok _ =>
    rw [guess_eq hcold, guess_eq hcold]
    have hsolve := Gmres.solve_agrees s hpre op rhs (Vec.zeros op.dim) mode observer
      (a := (preconditioner m, o)) (b := (preconditioner m', o)) ⟨h, rfl⟩
    dsimp only
    revert hsolve
    generalize Gmres.solve s precondition op rhs (Vec.zeros op.dim) mode observer
      (preconditioner m, o) = r
    generalize Gmres.solve s precondition op rhs (Vec.zeros op.dim) mode observer
      (preconditioner m', o) = r'
    rintro (⟨solution, h⟩ | ⟨e, h⟩)
    · exact .ok solution h
    · exact .error e h

/-- Sweeps from zero depend on the diagonal blocks alone. -/
theorem sweepSolve_agrees {σ : Type} (kind : SweepKind) (s : SweepSettings α)
    (hcold : s.useCachedGuess = false) (op : Operator α) (rhs : Array α) (mode : Mode)
    (observer : Observer (LinearEvent α) σ) {m m' : LinearMemory α} (o : σ)
    (h : (own m).diagonal = (own m').diagonal) :
    Agree (fun a b => (own a.1).diagonal = (own b.1).diagonal ∧ a.2 = b.2)
      (fun a b => (own a.1).diagonal = (own b.1).diagonal ∧ a.2 = b.2)
      (sweepSolve kind s op rhs mode observer (m, o))
      (sweepSolve kind s op rhs mode observer (m', o)) := by
  unfold sweepSolve
  dsimp only
  cases checkDim op rhs with
  | error e => exact .error e ⟨h, rfl⟩
  | ok _ =>
    rw [guess_eq hcold, guess_eq hcold, h]
    dsimp only
    cases Diagonal.iterate kind s op rhs (Vec.zeros op.dim) mode observer
        ((own m').diagonal, o) with
    | error e state => exact .error e ⟨rfl, rfl⟩
    | ok solution state =>
      cases mode with
      | fwd => exact .ok solution ⟨rfl, rfl⟩
      | rev => exact .ok solution ⟨rfl, rfl⟩

omit [Scalar α] in
theorem unwatched_agrees {P : LinearMemory α → LinearMemory α → Prop}
    {solve : EStateM LinearError (LinearMemory α × Unit) (LinearSolution α)} {m m' : LinearMemory α}
    (h : Agree (fun a b => P a.1 b.1 ∧ a.2 = b.2) (fun a b => P a.1 b.1 ∧ a.2 = b.2)
      (solve (m, ())) (solve (m', ()))) : Agree P P (unwatched solve m) (unwatched solve m') := by
  unfold unwatched
  revert h
  generalize solve (m, ()) = r
  generalize solve (m', ()) = r'
  rintro (⟨solution, h⟩ | ⟨e, h⟩)
  · exact .ok solution h.1
  · exact .error e h.1

/-- **A solver that starts afresh gives the same answers after a setup**, whatever it remembers. -/
theorem solve_agrees (op : Operator α) (mode : Mode) {config : LinearConfig α}
    (hcold : config.IsCold) (rhs : Array α) {m m' : LinearMemory α} (h : config.Alike m m') :
    Agree config.Alike config.Alike (solve op mode config rhs m) (solve op mode config rhs m') := by
  induction config generalizing rhs m m' with
  | direct =>
    have hfactors : (own m).factors = (own m').factors := h
    unfold solve
    rw [hfactors]
    cases Direct.solve op rhs mode (own m').factors with
    | ok s f => exact .ok s rfl
    | error e f => exact .error e rfl
  | gmres s =>
    unfold solve
    refine unwatched_agrees (P := fun _ _ => True) ?_
    refine gmresSolve_agrees s hcold (P := fun _ _ => True) (fun v m m' _ => ?_) op rhs mode .silent
      () trivial
    exact .ok v trivial
  | preconditioned s nested ih =>
    unfold solve
    refine unwatched_agrees ?_
    refine gmresSolve_agrees s hcold.1 (P := nested.Alike) (fun v m m' h => ?_) op rhs mode .silent
      () h
    exact .bind (ih hcold.2 v h) fun s _ _ h => .ok s.x h
  | blockGaussSeidel s =>
    unfold solve
    exact unwatched_agrees (sweepSolve_agrees .gaussSeidel s hcold op rhs mode .silent () h)
  | blockJacobi s =>
    unfold solve
    exact unwatched_agrees (sweepSolve_agrees .jacobi s hcold op rhs mode .silent () h)
  | runOnce =>
    have hdiagonal : (own m).diagonal = (own m').diagonal := h
    unfold solve
    rw [hdiagonal]
    cases Diagonal.runOnce op rhs mode (own m').diagonal with
    | ok s d => exact .ok s rfl
    | error e d => exact .error e rfl

end LinearConfig

end Mdao
