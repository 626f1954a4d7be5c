import Mathlib
import Mdao.Linear.Solver
import Mdao.Proofs.Nonlinear.Truthful

/-!
# What a history tells of the solves it has seen

A `History` has no marks between solves: `History.solves` counts the events of iteration 0, and
`History.isMonotone` starts anew at each of them. So both are right about the solvers that report
the iterate they start from, Newton's method, nonlinear block Gauss-Seidel and GMRES, however they
end. Linear block Gauss-Seidel reports its sweeps alone, from number 1 on. A history does not count
its solves, and takes their norms for those of iterations that go on where the history was before; a
solve that converges without a sweep leaves no trace (`Records.history_spec`).
-/

namespace Mdao

variable {α : Type} [Scalar α]

/-! ### Watched solves -/

/-- The solvers that an observer can watch. -/
inductive WatchedSolver where
  /-- Newton's method and nonlinear block Gauss-Seidel. -/
  | nonlinear
  /-- GMRES. -/
  | gmres
  /-- Linear block Gauss-Seidel. -/
  | sweeps
  deriving DecidableEq

/-- Whether a solver reports the iterate it starts from. -/
def WatchedSolver.reportsStart : WatchedSolver → Bool
  | .sweeps => false
  | _ => true

/-- The number of the first event of a solver. -/
def WatchedSolver.first (solver : WatchedSolver) : Nat := if solver.reportsStart then 0 else 1

/-- A solve that is complete, with a solution or as one that has not converged, makes the second
history of the first one. -/
inductive WatchedSolver.Completes : WatchedSolver → History α → History α → Prop where
  | nonlinear {μ σ : Type} {rules : StoppingRules α} (config : NonlinearConfig α)
      (hrules : config.rules? = some rules) (linear : LinearSolver α μ) (sys : NonlinearSystem α σ)
      (t : σ) (m : μ) (h : History α)
      (hstop : (stopOf (config.solveWith linear sys History.recorder ⟨t, m, h⟩)).isSome = true) :
      Completes .nonlinear h
        (stateAfter (config.solveWith linear sys History.recorder ⟨t, m, h⟩)).watch
  | gmres (settings : GmresSettings α)
      (precondition : Array α → EStateM LinearError (LinearMemory α) (Array α)) (op : Operator α)
      (rhs : Array α) (mode : Mode) (m : LinearMemory α) (h : History α)
      (hsolve : isResult (LinearConfig.gmresSolve settings precondition op rhs mode
        History.recorder (m, h)) = true) :
      Completes .gmres h
        (stateAfter (LinearConfig.gmresSolve settings precondition op rhs mode History.recorder
          (m, h))).2
  | sweeps (settings : SweepSettings α) (op : Operator α) (rhs : Array α) (mode : Mode)
      (m : LinearMemory α) (h : History α) (hsolve : isResult (LinearConfig.sweepSolve .gaussSeidel
        settings op rhs mode History.recorder (m, h)) = true) :
      Completes .sweeps h
        (stateAfter (LinearConfig.sweepSolve .gaussSeidel settings op rhs mode History.recorder
          (m, h))).2

/-- A complete solve with the histories before and after it. -/
structure WatchedSolve (α : Type) [Scalar α] where
  /-- The solver. -/
  solver : WatchedSolver
  /-- The history that the solve adds to. -/
  before : History α
  /-- The history that it makes of it. -/
  after : History α
  /-- It is complete. -/
  completes : solver.Completes before after

/-- Solves that add to one history, each to what the ones before it have left. -/
inductive Records (h : History α) : List (WatchedSolve α) → History α → Prop where
  | nil : Records h [] h
  | concat {solves : List (WatchedSolve α)} (s : WatchedSolve α) :
      Records h solves s.before → Records h (solves ++ [s]) s.after

/-- No norm is above the one before it. -/
def NeverGrows (norms : List α) : Prop := norms.IsChain fun a b => b ≤ a

namespace WatchedSolve

/-- The norms that a solve has reported. -/
def norms (s : WatchedSolve α) : List α :=
  (s.after.entries.drop s.before.entries.length).map Prod.snd

/-- The norms that a history takes for those of one solve: a solve that does not report its start is
taken to go on from the last norm before it. -/
def comparedNorms (s : WatchedSolve α) : List α :=
  (if s.solver.reportsStart then [] else s.before.last?.toList) ++ s.norms

end WatchedSolve

/-! ### Histories as lists -/

namespace History

/-- What a history keeps of an event. -/
def entryOf {ε : Type} [Progress ε α] (e : ε) : Nat × α :=
  (Progress.iteration e, Progress.residualNorm e)

/-- The second history has entries after those of the first one, numbered from `first` on. -/
def Extends (first : Nat) (h h' : History α) (told : List (Nat × α)) : Prop :=
  h'.entries = h.entries ++ told ∧ told.map Prod.fst = List.range' first told.length

variable {first : Nat} {h h' : History α} {told : List (Nat × α)}

omit [Scalar α] in
theorem Extends.refl (first : Nat) (h : History α) : Extends first h h [] :=
  ⟨(List.append_nil _).symm, rfl⟩

omit [Scalar α] in
/-- One more event before those that are numbered from the next one on. -/
theorem Extends.cons {ε : Type} [Progress ε α] {e : ε} (he : Progress.iteration e = first)
    (hrest : Extends (first + 1) (h.record e) h' told) :
    Extends first h h' (entryOf e :: told) := by
  refine ⟨?_, ?_⟩
  · rw [hrest.1, record, List.append_assoc, List.singleton_append]
    rfl
  · rw [List.map_cons, hrest.2, List.length_cons, List.range'_succ, entryOf, he]

omit [Scalar α] in
/-- The entries after the first one are not those of a start. -/
theorem Extends.ne_zero (hextends : Extends first h h' told) : ∀ y ∈ told.tail, y.1 ≠ 0 := by
  cases told with
  | nil => exact fun y hy => absurd hy List.not_mem_nil
  | cons e told =>
    obtain ⟨-, hrest⟩ := List.cons.inj (hextends.2.trans List.range'_succ)
    intro y hy
    have hmem : y.1 ∈ List.range' (first + 1) told.length := hrest ▸ List.mem_map_of_mem hy
    have hle := (List.mem_range'_1.1 hmem).1
    omega

omit [Scalar α] in
/-- The first entry has the first number. -/
theorem Extends.eq_first (hextends : Extends first h h' told) : ∀ y ∈ told.head?, y.1 = first := by
  cases told with
  | nil => exact fun y hy => nomatch hy
  | cons e told =>
    rintro y ⟨⟩
    exact (List.cons.inj (hextends.2.trans List.range'_succ)).1

omit [Scalar α] in
/-- Recording events one after the other adds their entries. -/
theorem entries_foldl {ε : Type} [Progress ε α] (events : List ε) (h : History α) :
    (events.foldl recorder.after h).entries = h.entries ++ events.map entryOf := by
  induction events generalizing h with
  | nil => exact (List.append_nil _).symm
  | cons e events ih =>
    rw [List.foldl_cons, ih, List.map_cons]
    show (h.entries ++ [entryOf e]) ++ _ = _
    rw [List.append_assoc, List.singleton_append]

omit [Scalar α] in
/-- The solves that a history counts are the entries of iteration 0. -/
theorem solves_eq_count (h : History α) : h.solves = (h.entries.map Prod.fst).count 0 := by
  unfold solves
  rw [← List.countP_eq_length_filter, List.count, List.countP_map]
  rfl

/-- Two entries in a row that do not speak against monotony. -/
def Descends (a b : Nat × α) : Prop := b.1 = 0 ∨ b.2 ≤ a.2

/-- A history is monotone when its entries descend, pair by pair. -/
theorem isMonotone_iff (h : History α) : h.isMonotone = true ↔ h.entries.IsChain Descends := by
  obtain ⟨entries⟩ := h
  unfold isMonotone
  induction entries with
  | nil => exact ⟨fun _ => .nil, fun _ => rfl⟩
  | cons a entries ih =>
    cases entries with
    | nil => exact ⟨fun _ => .singleton a, fun _ => rfl⟩
    | cons b entries =>
      rw [List.isChain_cons_cons, ← ih]
      simp only [List.tail_cons, List.zip_cons_cons, List.all_cons, Bool.and_eq_true,
        Bool.or_eq_true, beq_iff_eq, decide_eq_true_eq, Descends]

omit [Scalar α] in
/-- Events that are numbered from `first` on extend a history. -/
theorem Extends.of_events {ε : Type} [Progress ε α] {events : List ε}
    (hevents : events.map Progress.iteration = List.range' first events.length) (h : History α) :
    Extends first h (events.foldl recorder.after h) (events.map entryOf) := by
  refine ⟨entries_foldl events h, ?_⟩
  rw [List.map_map, List.length_map]
  exact hevents

end History

open History

/-! ### What each solver reports -/

namespace Gmres

variable {ρ : Type} {op : Operator α} {rhs : Array α} {mode : Mode} {tol : α} {x : Array α}
  {count iters : Nat} {p p' : ρ} {h h' : History α} {solution : LinearSolution α}

/-- A look at a residual is told as one event, and the solve ends with it or goes on. -/
theorem look_recorder {goOn : Array α → EStateM LinearError (ρ × History α) (LinearSolution α)}
    (hlook : look op rhs mode recorder tol count iters x goOn (p, h) = .ok solution (p', h')) :
    ∃ e : LinearEvent α, e.cycle = count ∧
      (h' = h.record e ∨ ∃ r, goOn r (p, h.record e) = .ok solution (p', h')) := by
  unfold look at hlook
  cases hresidual : linearResidual op rhs x mode with
  | error e =>
    rw [hresidual] at hlook
    cases hlook
  | ok r =>
    rw [hresidual] at hlook
    refine ⟨⟨count, iters, Vec.norm r⟩, rfl, ?_⟩
    change (if false then _ else if Vec.norm r ≤ tol then _ else goOn r (p, _)) = _ at hlook
    rw [if_neg Bool.false_ne_true] at hlook
    split_ifs at hlook
    · cases hlook
      exact .inl rfl
    · exact .inr ⟨r, hlook⟩

/-- Cycles are numbered from the first one on, and there is one at least. -/
theorem cycles_extends {settings : GmresSettings α}
    {precondition : Array α → EStateM LinearError ρ (Array α)} {fuel : Nat}
    (hcycles : cycles settings precondition op rhs mode recorder tol fuel count iters x (p, h) =
      .ok solution (p', h')) : ∃ told, Extends count h h' told ∧ told ≠ [] := by
  induction fuel generalizing count iters x p h with
  | zero =>
    unfold cycles at hcycles
    obtain ⟨e, he, rfl | ⟨r, hgoOn⟩⟩ := look_recorder hcycles
    · exact ⟨_, .cons he (.refl _ _), List.cons_ne_nil _ _⟩
    · cases hgoOn
      exact ⟨_, .cons he (.refl _ _), List.cons_ne_nil _ _⟩
  | succ fuel ih =>
    unfold cycles at hcycles
    obtain ⟨e, he, rfl | ⟨r, hgoOn⟩⟩ := look_recorder hcycles
    · exact ⟨_, .cons he (.refl _ _), List.cons_ne_nil _ _⟩
    · dsimp only at hgoOn
      split_ifs at hgoOn
      · cases hgoOn
        exact ⟨_, .cons he (.refl _ _), List.cons_ne_nil _ _⟩
      · split at hgoOn
        · cases hgoOn
        · obtain ⟨told, htold, -⟩ := ih hgoOn
          exact ⟨_, .cons he htold, List.cons_ne_nil _ _⟩

end Gmres

namespace Diagonal

variable {op : Operator α} {rhs : Array α} {mode : Mode} {settings : SweepSettings α}
  {d d' : Diagonal α} {h h' : History α} {solution : LinearSolution α}

/-- Sweeps are numbered on from those before. -/
theorem repeatSweeps_extends {kind : SweepKind} {initialNorm residualNorm : α} {fuel iters : Nat}
    {x : Array α} (hsweeps : repeatSweeps kind settings op rhs mode recorder initialNorm fuel iters
      x residualNorm (d, h) = .ok solution (d', h')) :
    ∃ told, Extends (iters + 1) h h' told := by
  induction fuel generalizing iters x residualNorm d h with
  | zero =>
    cases hsweeps
    exact ⟨[], .refl _ _⟩
  | succ fuel ih =>
    unfold repeatSweeps at hsweeps
    dsimp only at hsweeps
    split at hsweeps
    · cases hsweeps
    · split at hsweeps
      · cases hsweeps
      · rename_i r _
        change (if false then _ else if isSmall settings initialNorm (Vec.norm r) then _ else
          repeatSweeps kind settings op rhs mode recorder initialNorm fuel (iters + 1) _ _
            (_, h.record (⟨iters + 1, iters + 1, Vec.norm r⟩ : LinearEvent α))) = _ at hsweeps
        rw [if_neg Bool.false_ne_true] at hsweeps
        split_ifs at hsweeps
        · cases hsweeps
          exact ⟨_, .cons rfl (.refl _ _)⟩
        · obtain ⟨told, htold⟩ := ih hsweeps
          exact ⟨_, .cons rfl htold⟩

/-- Solves by sweeps report the sweeps alone. -/
theorem iterate_extends {kind : SweepKind} {guess : Array α}
    (hiterate : iterate kind settings op rhs guess mode recorder (d, h) = .ok solution (d', h')) :
    ∃ told, Extends 1 h h' told := by
  unfold iterate at hiterate
  split at hiterate
  · cases hiterate
  · dsimp only at hiterate
    split_ifs at hiterate
    · cases hiterate
      exact ⟨[], .refl _ _⟩
    · exact repeatSweeps_extends hiterate

end Diagonal

/-- **What a complete solve adds to a history** is numbered in a row, from 0 on and not nothing
where the solver reports its start, and from 1 on where it does not. -/
theorem WatchedSolver.Completes.extends {solver : WatchedSolver} {h h' : History α}
    (hcompletes : solver.Completes h h') :
    ∃ told, Extends solver.first h h' told ∧ (solver.reportsStart = true → told ≠ []) := by
  cases hcompletes with
  | nonlinear config hrules linear sys t m h hstop =>
    rcases NonlinearConfig.solveWith_traced linear sys recorder hrules ⟨t, m, h⟩ with
      ⟨e, u, hfails, -⟩ | ⟨r, u, events, -, htraced⟩
    · rw [hfails] at hstop
      cases hstop
    · obtain ⟨r', v, hiterated, hwatch⟩ := htraced.iterated
      rw [hwatch, hiterated.watch fun _ _ _ _ _ _ h => h.watch]
      exact ⟨_, .cons rfl (.of_events hiterated.numbered _), fun _ => List.cons_ne_nil _ _⟩
  | gmres settings precondition op rhs mode m h hsolve =>
    revert hsolve
    unfold LinearConfig.gmresSolve
    dsimp only
    split
    · exact nofun
    · split
      · exact nofun
      · rename_i hinner
        obtain ⟨told, htold, hne⟩ := Gmres.cycles_extends hinner
        exact fun _ => ⟨told, htold, fun _ => hne⟩
  | sweeps settings op rhs mode m h hsolve =>
    revert hsolve
    unfold LinearConfig.sweepSolve
    dsimp only
    split
    · exact nofun
    · split
      · exact nofun
      · rename_i hinner
        obtain ⟨told, htold⟩ := Diagonal.iterate_extends hinner
        exact fun _ => ⟨told, htold, fun h => absurd h Bool.false_ne_true⟩

/-! ### One solve after another -/

/-- Norms that go on from a last one do not grow if they start at most there. -/
theorem neverGrows_toList_append (last? : Option α) (norms : List α) :
    NeverGrows (last?.toList ++ norms) ↔
      (∀ a ∈ last?, ∀ b ∈ norms.head?, b ≤ a) ∧ NeverGrows norms := by
  cases last? with
  | none => simp [NeverGrows]
  | some a => simp [NeverGrows, List.isChain_cons]

namespace WatchedSolve

variable (s : WatchedSolve α)

/-- A solve counts for a history if it reports its start. -/
theorem solves_after :
    s.after.solves = s.before.solves + if s.solver.reportsStart then 1 else 0 := by
  obtain ⟨told, ⟨hentries, hnumbers⟩, hne⟩ := s.completes.extends
  rw [solves_eq_count, solves_eq_count, hentries, List.map_append, List.count_append, hnumbers,
    List.count_range']
  congr 1
  unfold WatchedSolver.first
  cases hstart : s.solver.reportsStart with
  | true => exact if_pos ⟨0, List.length_pos_iff.2 (hne hstart), rfl⟩
  | false => exact if_neg fun ⟨i, _, hi⟩ => absurd hi (by simp; omega)

/-- A history is monotone after a solve if it was before, and what it takes for the norms of one
solve does not grow. -/
theorem isMonotone_after :
    s.after.isMonotone = true ↔ s.before.isMonotone = true ∧ NeverGrows s.comparedNorms := by
  obtain ⟨told, ⟨hentries, hnumbers⟩, hne⟩ := s.completes.extends
  have hnorms : s.norms = told.map Prod.snd := by
    rw [norms, hentries, List.drop_left]
  -- within a solve no entry is one of a start, so that only the norms count
  have hwithin : told.IsChain Descends ↔ NeverGrows s.norms := by
    rw [hnorms, NeverGrows, List.isChain_map]
    exact List.IsChain.iff_of_mem_tail_imp fun _ b _ hb =>
      or_iff_right (Extends.ne_zero ⟨hentries, hnumbers⟩ b hb)
  have hfirst := Extends.eq_first ⟨hentries, hnumbers⟩
  rw [isMonotone_iff, isMonotone_iff, hentries, List.isChain_append, hwithin, comparedNorms]
  refine and_congr_right fun _ => ?_
  unfold WatchedSolver.first at hfirst
  cases hstart : s.solver.reportsStart with
  | true =>
    rw [hstart] at hfirst
    exact and_iff_left fun x _ y hy => .inl (hfirst y hy)
  | false =>
    rw [hstart] at hfirst
    have hlast : s.before.last? = s.before.entries.getLast?.map Prod.snd := List.getLast?_map
    have hjoint : (∀ x ∈ s.before.entries.getLast?, ∀ y ∈ told.head?, Descends x y) ↔
        ∀ a ∈ s.before.last?, ∀ b ∈ s.norms.head?, b ≤ a := by
      rw [hlast, hnorms, List.head?_map]
      simp only [Option.mem_map, forall_exists_index, and_imp, forall_apply_eq_imp_iff₂]
      refine forall₂_congr fun x _ => forall₂_congr fun y hy => or_iff_right ?_
      rw [hfirst y hy]
      exact Nat.one_ne_zero
    rw [hjoint, and_comm, if_neg Bool.false_ne_true, neverGrows_toList_append]

/-- The norms of a solve come after those before it. -/
theorem norms_after : s.after.norms = s.before.norms ++ s.norms := by
  obtain ⟨told, ⟨hentries, -⟩, -⟩ := s.completes.extends
  rw [History.norms, History.norms, norms, hentries, List.drop_left, List.map_append]

end WatchedSolve

/-- **What a history tells of the solves it has seen**, in whatever order they come: it holds the
norms that they have reported, it counts the solves that report their start, and it is monotone when
the norms of none of them grow, where those of a solve that does not report its start are taken
together with the last norm before it. -/
theorem Records.history_spec {solves : List (WatchedSolve α)} {h : History α}
    (hrecords : Records .empty solves h) :
    h.norms = solves.flatMap WatchedSolve.norms ∧
      h.solves = solves.countP (fun s => s.solver.reportsStart) ∧
      (h.isMonotone = true ↔ ∀ s ∈ solves, NeverGrows s.comparedNorms) := by
  induction hrecords with
  | nil => exact ⟨rfl, rfl, fun _ s hs => absurd hs List.not_mem_nil, fun _ => rfl⟩
  | concat s _ ih =>
    obtain ⟨hnorms, hsolves, hmonotone⟩ := ih
    refine ⟨?_, ?_, ?_⟩
    · rw [s.norms_after, hnorms, List.flatMap_append, List.flatMap_singleton]
    · rw [s.solves_after, hsolves, List.countP_append, List.countP_singleton]
    · rw [s.isMonotone_after, hmonotone, List.forall_mem_append, List.forall_mem_singleton]

/-! ### Three solves of which two count, and two of which none does -/

namespace Watching

/-- Two equations in two unknowns, a block for each of them. -/
def operator : Operator ℚ := Operator.ofRows [[2, 1], [1, 2]] [⟨0, 1⟩, ⟨1, 2⟩]

/-- A single sweep. -/
def settings : SweepSettings ℚ := { SweepSettings.default with maxiter := 1 }

/-- Two steps of Newton's method, with the norms 8, 1 and 1. -/
def byNewton : WatchedSolve ℚ where
  solver := .nonlinear
  before := .empty
  after := _
  completes := .nonlinear Halving.newton rfl LinearConfig.direct.solver Halving.system 0 .blank
    .empty (by decide +kernel)

/-- Then GMRES, for a right-hand side without anything to solve: its only norm is 0. -/
def byGmres : WatchedSolve ℚ where
  solver := .gmres
  before := byNewton.after
  after := _
  completes := .gmres .default pure operator #[0, 0] .fwd .blank byNewton.after (by decide +kernel)

/-- Then a sweep that leaves the norm 1/2. -/
def bySweep : WatchedSolve ℚ where
  solver := .sweeps
  before := byGmres.after
  after := _
  completes := .sweeps settings operator #[2, 2] .fwd .blank byGmres.after (by decide +kernel)

/-- The history counts two of three solves, and takes the sweep for growth from 0 to 1/2. -/
theorem records_three : Records .empty [byNewton, byGmres, bySweep] bySweep.after ∧
    bySweep.after.norms = [8, 1, 1, 0, 1 / 2] ∧ bySweep.after.solves = 2 ∧
      bySweep.after.isMonotone = false := by
  have hfirst := Records.concat byNewton .nil
  have hrecords : Records .empty [byNewton, byGmres, bySweep] bySweep.after :=
    (hfirst.concat byGmres).concat bySweep
  obtain ⟨hnorms, hsolves, hmonotone⟩ := hrecords.history_spec
  have hgrows : ¬NeverGrows bySweep.comparedNorms := by
    unfold NeverGrows
    decide +kernel
  refine ⟨hrecords, hnorms.trans (by decide +kernel), hsolves, Bool.eq_false_iff.2 fun h => ?_⟩
  exact hgrows (hmonotone.1 h _ (by simp))

/-- A first sweep that solves the system: its norm is 0. -/
def firstSweep : WatchedSolve ℚ where
  solver := .sweeps
  before := .empty
  after := _
  completes := .sweeps settings operator #[2, 1] .fwd .blank .empty (by decide +kernel)

/-- Then a sweep that leaves the norm 1/2. -/
def secondSweep : WatchedSolve ℚ where
  solver := .sweeps
  before := firstSweep.after
  after := _
  completes := .sweeps settings operator #[2, 2] .fwd .blank firstSweep.after (by decide +kernel)

/-- The norms of neither solve grow, but the history counts none of them and is not monotone. -/
theorem records_not_counted : Records .empty [firstSweep, secondSweep] secondSweep.after ∧
    secondSweep.after.solves ≠ [firstSweep, secondSweep].length ∧
      ¬(secondSweep.after.isMonotone = true ↔
        ∀ s ∈ [firstSweep, secondSweep], NeverGrows s.norms) := by
  have hgrow : ∀ s ∈ [firstSweep, secondSweep], NeverGrows s.norms := by
    unfold NeverGrows
    decide +kernel
  have hmonotone : secondSweep.after.isMonotone = false := by decide +kernel
  have hfirst := Records.concat firstSweep .nil
  refine ⟨hfirst.concat secondSweep, by decide +kernel, fun h => ?_⟩
  rw [h.2 hgrow] at hmonotone
  cases hmonotone

end Watching

end Mdao
