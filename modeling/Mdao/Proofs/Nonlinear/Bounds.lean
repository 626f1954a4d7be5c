import Mathlib
import Mdao.Proofs.Model.Steps
import Mdao.Proofs.Model.Transfer
import Mdao.Proofs.Nonlinear.Truthful
import Mdao.Proofs.Scalar.Order
import Mdao.Proofs.Vec

/-!
# Newton's method within bounds

A line search that enforces bounds tries only points within them (`LineSearch.within_point`),
whatever the step, its length, and the point from which it starts: the policies differ in where they
bring an unknown back to, but none of them leaves it outside. So Newton's method never moves its
system out of the bounds, and where the system holds the unknowns that it is given, no iteration
ends out of them (`Newton.solve_within`). The blocks of a model do (`SolverBlock.holds_system`). A
guess or a sweep may leave the bounds, and the next step comes back.
-/

namespace Mdao

variable {α μ σ ω : Type} [Scalar α]

namespace LineSearch

/-! ### Unknowns and their bounds -/

/-- Bounds that numbers can lie between: defined, and the lower one at most the upper one. -/
structure Ordered (lower upper : Option α) : Prop where
  lower_defined : ∀ a, lower = some a → Scalar.isUndefined a = false
  upper_defined : ∀ b, upper = some b → Scalar.isUndefined b = false
  le : ∀ a b, lower = some a → upper = some b → a ≤ b

/-- A number lies between the bounds that there are. -/
structure Between (lower upper : Option α) (x : α) : Prop where
  lower_le : ∀ a, lower = some a → a ≤ x
  le_upper : ∀ b, upper = some b → x ≤ b

section Unknown

variable [OrderedScalar α] {lower upper : Option α}

theorem Ordered.between_upper {b : α} (h : Ordered lower upper) (hb : upper = some b) :
    Between lower upper b where
  lower_le a ha := h.le a b ha hb
  le_upper b' hb' := by
    cases hb.symm.trans hb'
    exact Scalar.le_self (h.upper_defined b hb)

theorem Ordered.between_lower {a : α} (h : Ordered lower upper) (ha : lower = some a) :
    Between lower upper a where
  lower_le a' ha' := by
    cases ha.symm.trans ha'
    exact Scalar.le_self (h.lower_defined a ha)
  le_upper b hb := h.le a b ha hb

/-- **A clipped number lies between its bounds.** -/
theorem Ordered.between_clip (h : Ordered lower upper) (x : α) :
    Between lower upper (clip x lower upper) := by
  have hle : ∀ a, lower = some a → a ≤ Scalar.maxNum x a := fun a ha =>
    Scalar.le_maxNum (h.lower_defined a ha)
  have hge : ∀ y b, upper = some b → Scalar.minNum y b ≤ b := fun y b hb =>
    Scalar.minNum_le (h.upper_defined b hb)
  refine ⟨fun a ha => ?_, fun b hb => ?_⟩
  · subst ha
    cases upper with
    | none => exact hle a rfl
    | some b => exact Scalar.le_minNum (hle a rfl) (h.le a b rfl rfl)
  · subst hb
    exact hge _ b rfl

end Unknown

omit [Scalar α] in
theorem getD_tabulate {n i : Nat} {f : Nat → Bool}
    (h : (Vec.tabulate n f).getD i false = true) : f i = true := by
  unfold Vec.tabulate at h
  rw [Array.getD_eq_getD_getElem?, List.getElem?_toArray, List.getElem?_map] at h
  by_cases hi : i < n
  · rw [List.getElem?_range hi] at h
    exact h
  · rw [List.getElem?_eq_none (by simpa using hi)] at h
    cases h

/-! ### Paths -/

section Path

variable [OrderedScalar α] {x0 step : Array α} {lower upper : Array (Option α)}

/-- **A trial point lies within the bounds** in every entry, for every policy. -/
theorem Path.entry_between (e : BoundEnforcement) (alpha : α) {i : Nat}
    (h : Ordered (boundAt lower i) (boundAt upper i)) :
    Between (boundAt lower i) (boundAt upper i)
      ((Path.make x0 step lower upper (some e)).entry alpha i) := by
  cases e with
  | vector => exact h.between_clip _
  | scalar => exact h.between_clip _
  | wall =>
    show Between _ _ (if Array.getD _ i false then if above _ (boundAt upper i) then
      (boundAt upper i).getD _ else (boundAt lower i).getD _ else clip _ _ _)
    split_ifs with hpinned habove
    · cases hb : boundAt upper i with
      | none =>
        rw [hb] at habove
        cases habove
      | some b =>
        rw [hb] at h
        exact h.between_upper rfl
    · have hout : (above (Vec.entry x0 i + Vec.entry step i) (boundAt upper i) ||
          below (Vec.entry x0 i + Vec.entry step i) (boundAt lower i)) = true :=
        getD_tabulate hpinned
      have hbelow := (Bool.or_eq_true_iff.1 hout).resolve_left habove
      cases ha : boundAt lower i with
      | none =>
        rw [ha] at hbelow
        cases hbelow
      | some a =>
        rw [ha] at h
        exact h.between_lower rfl
    · exact h.between_clip _

end Path

end LineSearch

open LineSearch

/-- The bounds of a system can be kept. -/
def NonlinearSystem.OrderedBounds (sys : NonlinearSystem α σ) : Prop :=
  ∀ i, Ordered (boundAt sys.lower i) (boundAt sys.upper i)

/-- The unknowns lie within the bounds of a system, in every entry. -/
def NonlinearSystem.Within (sys : NonlinearSystem α σ) (x : Array α) : Prop :=
  ∀ i < x.size, Between (boundAt sys.lower i) (boundAt sys.upper i) (Vec.entry x i)

variable {sys : NonlinearSystem α σ} {config : NewtonSettings α} {linear : LinearSolver α μ}
  {observer : Observer (NonlinearEvent α) ω}

/-- The path of a search. -/
def LineSearch.pathOf (s : LineSearchSettings α) (sys : NonlinearSystem α σ)
    (x0 step : Array α) : Path α :=
  Path.make x0 step sys.lower sys.upper (enforcementOf s)

theorem LineSearch.x0_pathOf (s : LineSearchSettings α) (x0 step : Array α) :
    (pathOf s sys x0 step).x0 = x0 := by
  unfold pathOf Path.make
  split <;> rfl

/-- **A search that enforces bounds tries only points within them**, for every step and every length
of it. -/
theorem LineSearch.within_point [OrderedScalar α] {s : LineSearchSettings α}
    (hkind : s.kind ≠ .none) (hbounds : sys.OrderedBounds) (x0 step : Array α) (alpha : α) :
    sys.Within ((pathOf s sys x0 step).point alpha) := by
  intro i hi
  have hentry : Vec.entry ((pathOf s sys x0 step).point alpha) i =
      (pathOf s sys x0 step).entry alpha i := by
    unfold Path.point at hi ⊢
    rw [Vec.size_tabulate] at hi
    rw [Vec.entry_tabulate, if_pos hi]
  have hpath : pathOf s sys x0 step =
      Path.make x0 step sys.lower sys.upper (some s.boundEnforcement) := by
    unfold pathOf enforcementOf
    cases h : s.kind with
    | none => exact absurd h hkind
    | boundsEnforce => rfl
    | armijo => rfl
  rw [hentry, hpath]
  exact Path.entry_between _ _ (hbounds i)

/-! ### What a solve does not ask for -/

section Congr

variable {set : Array α → σ → σ}

/-- A search that only tries points at which two systems are set alike is the same for both. -/
theorem LineSearch.backtrack_congr {s : LineSearchSettings α} {p : Path α}
    (hset : ∀ alpha t, set (p.point alpha) t = sys.setState (p.point alpha) t) (initialNorm : α)
    (more : Nat) (alpha : α) :
    backtrack s { sys with setState := set } p initialNorm more alpha =
      backtrack s sys p initialNorm more alpha := by
  have htrial : ∀ alpha, trial { sys with setState := set } p alpha = trial sys p alpha := by
    intro alpha
    funext t
    unfold trial
    rw [← hset alpha t]
  induction more generalizing alpha with
  | zero =>
    unfold backtrack
    rw [htrial]
  | succ more ih =>
    unfold backtrack
    rw [htrial, ih]

variable [OrderedScalar α] (hkind : config.lineSearch.kind ≠ .none) (hbounds : sys.OrderedBounds)
  (hset : ∀ x t, sys.Within x → set x t = sys.setState x t)

include hkind hbounds hset

theorem Newton.step_congr (r : Array α) :
    (step config linear { sys with setState := set } r : SolveWith α μ σ ω _) =
      step config linear sys r := by
  have hsearch : ∀ x0 Δ n, search config.lineSearch { sys with setState := set } x0 Δ n =
      search config.lineSearch sys x0 Δ n := fun x0 Δ n =>
    backtrack_congr (fun alpha t => hset _ t (within_point hkind hbounds x0 Δ alpha)) n _ _
  unfold step
  simp only [hsearch]
  rfl

theorem Newton.iterate_congr (initialNorm : α) (fuel k : Nat) (r : Array α) :
    iterate config linear { sys with setState := set } observer initialNorm fuel k r =
      iterate config linear sys observer initialNorm fuel k r := by
  induction fuel generalizing k r with
  | zero => rfl
  | succ fuel ih =>
    unfold iterate
    simp only [step_congr hkind hbounds hset, ih]
    rfl

/-- **A solve does not depend on what becomes of unknowns out of bounds.** -/
theorem Newton.solve_congr :
    solve config linear { sys with setState := set } observer =
      solve config linear sys observer := by
  unfold solve
  simp only [iterate_congr hkind hbounds hset]

end Congr

/-! ### The points that are tried -/

section Recording

variable {τ ε β : Type}

/-- A step that leaves something beside its state alone. -/
def beside (step : EStateM ε σ β) : EStateM ε (σ × τ) β := fun s =>
  match step s.1 with
  | .ok b t => .ok b (t, s.2)
  | .error e t => .error e (t, s.2)

omit [Scalar α] in
theorem preserves_beside {R : σ × τ → σ × τ → Prop} (h : ∀ s t u, R (s, u) (t, u))
    (step : EStateM ε σ β) : Preserves R (beside step : EStateM ε (σ × τ) β) := by
  intro s
  unfold beside
  cases step s.1 with
  | ok b t => exact h s.1 t s.2
  | error e t => exact h s.1 t s.2

/-- The system with a record of the unknowns that it has been given. -/
def NonlinearSystem.recording (sys : NonlinearSystem α σ) :
    NonlinearSystem α (σ × List (Array α)) where
  state s := sys.state s.1
  setState x s := (sys.setState x s.1, s.2 ++ [x])
  lower := sys.lower
  upper := sys.upper
  residuals := beside sys.residuals
  linearize := beside sys.linearize
  sweep := beside sys.sweep
  guess := beside sys.guess
  operator s := sys.operator s.1

/-- **Newton's method gives its system only unknowns within the bounds**, also when it fails. -/
theorem Newton.recorded_within [OrderedScalar α] (hkind : config.lineSearch.kind ≠ .none)
    (hbounds : sys.OrderedBounds) (s : SolveState μ (σ × List (Array α)) ω)
    (hs : ∀ x ∈ s.system.2, sys.Within x) :
    ∀ x ∈ (stateAfter (solve config linear sys.recording observer s)).system.2, sys.Within x := by
  classical
  -- a system that takes no others cannot be told apart, and keeps a good record by its make
  let set : Array α → σ × List (Array α) → σ × List (Array α) := fun x s =>
    if sys.Within x then sys.recording.setState x s else s
  have hkeeps : { sys.recording with setState := set }.Keeps
      fun s t => (∀ x ∈ s.2, sys.Within x) → ∀ x ∈ t.2, sys.Within x :=
    { refl := fun _ h => h
      trans := fun _ _ _ hst htu h => htu (hst h)
      setState := by
        intro x s hs
        show ∀ y ∈ (ite _ _ _ : σ × List (Array α)).2, _
        split_ifs with hx
        · exact fun y hy => (List.mem_append.1 hy).elim (hs y) fun hy =>
            List.mem_singleton.1 hy ▸ hx
        · exact hs
      residuals := preserves_beside (fun _ _ _ h => h) _
      linearize := preserves_beside (fun _ _ _ h => h) _
      sweep := preserves_beside (fun _ _ _ h => h) _
      guess := preserves_beside (fun _ _ _ h => h) _ }
  have hordered : sys.recording.OrderedBounds := hbounds
  have hset : ∀ x t, sys.recording.Within x → set x t = sys.recording.setState x t :=
    fun x t hx => if_pos hx
  rw [← solve_congr hkind hordered hset]
  exact hkeeps.newton_solve config linear observer s hs

end Recording

/-! ### Where iterations end -/

/-- An invariant of a system of `n` unknowns under which it holds the unknowns that it is given, also
while residuals are evaluated. -/
structure NonlinearSystem.Holds (sys : NonlinearSystem α σ) (n : Nat) (I : σ → Prop) : Prop where
  size : ∀ s, I s → (sys.state s).size = n
  setState : ∀ x s, I s → x.size = n → I (sys.setState x s)
  state_setState : ∀ x s, I s → x.size = n → sys.state (sys.setState x s) = x
  residuals : ∀ s, I s → I (stateAfter (sys.residuals s))
  state_residuals : ∀ s r t, I s → sys.residuals s = .ok r t → sys.state t = sys.state s
  linearize : ∀ s, I s → I (stateAfter (sys.linearize s))
  sweep : ∀ s, I s → I (stateAfter (sys.sweep s))
  guess : ∀ s, I s → I (stateAfter (sys.guess s))

namespace SolveM

variable {β : Type} {s t : SolveState μ σ ω}

omit [Scalar α] in
theorem holds_onSystem {I : σ → Prop} {step : EStateM EvalError σ β} {b : β}
    (hstep : ∀ s, I s → I (stateAfter (step s))) (hs : I s.system)
    (hok : (onSystem step : SolveWith α μ σ ω β) s = .ok b t) : I t.system := by
  have ht := hstep _ hs
  rwa [onSystem_eq_ok hok] at ht

omit [Scalar α] in
theorem system_onMemory {step : Operator α → EStateM LinearError μ β} {b : β}
    (hok : (onMemory sys step : SolveWith α μ σ ω β) s = .ok b t) : t.system = s.system := by
  unfold onMemory at hok
  cases hstep : step (sys.operator s.system) s.memory with
  | ok b' m =>
    rw [hstep] at hok
    cases hok
    rfl
  | error e m =>
    rw [hstep] at hok
    cases hok

end SolveM

open SolveM

section Held

variable {n : Nat} {I : σ → Prop} (h : sys.Holds n I)

include h

/-- A search ends at a point of its path. -/
theorem LineSearch.backtrack_point {s : LineSearchSettings α} {p : Path α} (hp : p.x0.size = n)
    {initialNorm alpha : α} {more : Nat} {t t' : σ} {moved : α × Array α} (ht : I t)
    (hback : backtrack s sys p initialNorm more alpha t = .ok moved t') :
    I t' ∧ ∃ alpha, sys.state t' = p.point alpha := by
  have hsize : ∀ alpha, (p.point alpha).size = n := fun alpha => by
    unfold Path.point
    rw [Vec.size_tabulate, hp]
  have hkeeps : ∀ alpha t, I t → I (stateAfter (trial sys p alpha t)) := fun alpha t ht =>
    h.residuals _ (h.setState _ t ht (hsize alpha))
  have hpoint : ∀ alpha t r t', I t → trial sys p alpha t = .ok r t' →
      I t' ∧ ∃ alpha, sys.state t' = p.point alpha := by
    intro alpha t r t' ht htrial
    have ht' := hkeeps alpha t ht
    rw [htrial] at ht'
    refine ⟨ht', alpha, ?_⟩
    rw [h.state_residuals _ r t' (h.setState _ t ht (hsize alpha)) htrial,
      h.state_setState _ t ht (hsize alpha)]
  induction more generalizing alpha t with
  | zero =>
    unfold backtrack at hback
    cases htrial : trial sys p alpha t with
    | ok r u =>
      rw [htrial] at hback
      cases hback
      exact hpoint alpha t r _ ht htrial
    | error e u =>
      rw [htrial] at hback
      cases hback
  | succ more ih =>
    have hu := hkeeps alpha t ht
    unfold backtrack at hback
    cases htrial : trial sys p alpha t with
    | ok r u =>
      rw [htrial] at hback hu
      dsimp only at hback
      split_ifs at hback
      · cases hback
        exact hpoint alpha t r _ ht htrial
      · exact ih hu hback
    | error e u =>
      rw [htrial] at hback hu
      dsimp only at hback
      split_ifs at hback
      exact ih hu hback

omit [Scalar α] in
theorem Newton.holds_prepare {k : Nat} {r r₁ : Array α} {s t : SolveState μ σ ω}
    (hs : I s.system) (hok : prepare config sys k r s = .ok r₁ t) : I t.system := by
  unfold prepare at hok
  split_ifs at hok
  · obtain ⟨_, s₁, hsweep, hok⟩ := exists_of_bind_eq_ok hok
    exact holds_onSystem h.residuals (holds_onSystem h.sweep hs hsweep) hok
  · cases hok
    exact hs

variable [OrderedScalar α] (hkind : config.lineSearch.kind ≠ .none) (hbounds : sys.OrderedBounds)

include hkind hbounds

/-- **An iteration ends within the bounds**, wherever it starts. -/
theorem Newton.Turns.within {k : Nat} {r r' : Array α} {s t : SolveState μ σ ω} {alpha : α}
    (hs : I s.system) (hturn : Turns config linear sys k r s alpha r' t) :
    I t.system ∧ sys.Within (sys.state t.system) := by
  obtain ⟨r₁, s₁, hprepare, -, hstep⟩ := hturn
  have hs₁ := holds_prepare h hs hprepare
  obtain ⟨_, s₂, hlinearize, hstep⟩ := exists_of_bind_eq_ok hstep
  obtain ⟨_, s₃, hsetup, hstep⟩ := exists_of_bind_eq_ok hstep
  obtain ⟨Δ, s₄, hsolve, hstep⟩ := exists_of_bind_eq_ok hstep
  obtain ⟨x0, s₅, hx0, hsearch⟩ := exists_of_bind_eq_ok hstep
  have hs₄ : I s₄.system := by
    rw [system_onMemory hsolve, system_onMemory hsetup]
    exact holds_onSystem h.linearize hs₁ hlinearize
  obtain ⟨rfl, rfl⟩ := EStateM.Result.ok.inj hx0
  obtain ⟨ht, alpha', hpoint⟩ :=
    backtrack_point (p := pathOf config.lineSearch sys (sys.state s₄.system) Δ.x) h
      (by rw [x0_pathOf, h.size _ hs₄]) hs₄ (onSystem_eq_ok hsearch)
  exact ⟨ht, hpoint ▸ within_point hkind hbounds _ _ _⟩

/-- An event of an iteration within the bounds, or the start. -/
def NonlinearEvent.Within (sys : NonlinearSystem α σ) : NonlinearEvent α → Prop
  | .started _ => True
  | .iterated _ _ _ x => sys.Within x

end Held

/-- **Newton's method keeps the bounds of its system**, whatever its linear solver, its line search if
that enforces bounds, its observer, and its outcome. All unknowns that it gives the system lie within
them, so that the system may do with others what it will; and where the system holds the unknowns
that it is given, those of every iteration that the observer is told of lie within the bounds. -/
theorem Newton.solve_within [OrderedScalar α] (linear : LinearSolver α μ)
    (observer : Observer (NonlinearEvent α) ω) (hkind : config.lineSearch.kind ≠ .none)
    (hbounds : sys.OrderedBounds) (s : SolveState μ σ ω) :
    (∀ x ∈ (stateAfter (solve config linear sys.recording observer
      ⟨(s.system, []), s.memory, s.watch⟩)).system.2, sys.Within x) ∧
    (∀ set : Array α → σ → σ, (∀ x t, sys.Within x → set x t = sys.setState x t) →
      solve config linear { sys with setState := set } observer s =
        solve config linear sys observer s) ∧
    ∀ n I, sys.Holds n I → I s.system → ∃ events : List (NonlinearEvent α),
      (stateAfter (solve config linear sys observer s)).watch =
        events.foldl observer.after s.watch ∧ ∀ e ∈ events, e.Within sys := by
  refine ⟨recorded_within hkind hbounds _ fun x hx => absurd hx List.not_mem_nil,
    fun set hset => congrFun (solve_congr hkind hbounds hset) s, ?_⟩
  intro n I h hs
  have hrules : (NonlinearConfig.newton config).rules? = some config.rules := rfl
  rcases NonlinearConfig.solveWith_traced linear sys observer hrules s with
    ⟨e, t, hfails, hwatch⟩ | ⟨r, t, events, ⟨u, hguess, hresiduals⟩, htraced⟩
  · refine ⟨[], ?_, fun e he => absurd he List.not_mem_nil⟩
    rw [show solve config linear sys observer s = _ from hfails]
    exact hwatch
  · obtain ⟨r', s', hiterated, hwatch⟩ := htraced.iterated
    have hu := h.guess _ hs
    rw [hguess] at hu
    have ht := h.residuals u hu
    rw [hresiduals] at ht
    refine ⟨.started (Vec.norm r) :: events, ?_, ?_⟩
    · have hseen := hiterated.watch fun _ _ _ _ _ _ h => NonlinearConfig.Turns.watch h
      exact hwatch.trans hseen
    · refine List.forall_mem_cons.2 ⟨trivial, hiterated.forall_mem (J := fun s => I s.system)
        (fun k _ _ alpha r' t hs hturn => ?_) ht⟩
      show I t.system ∧ sys.Within (sys.state t.system)
      exact Turns.within h hkind hbounds hs hturn

/-! ### Blocks of a model -/

theorem Assembly.Changed.size_slots {l : Arrangement α} {us : List Nat} {spans : List Span}
    {a b : Assembly α} (h : Assembly.Changed l us spans a b) :
    b.store.slots.size = a.store.slots.size := by
  induction h with
  | refl a => rfl
  | trans _ _ ih ih' => exact ih'.trans ih
  | transfer _ a => rfl
  | residuals _ a r => rfl
  | slots _ a y => exact Vec.size_splice _ _ _
  | linearized => rfl

/-- **A block holds the unknowns that it is given** as long as the model has slots for them. -/
theorem SolverBlock.holds_system (b : SolverBlock α) (l : Arrangement α) (strict : Option α) :
    (b.system l strict).Holds b.range.size fun s =>
      b.range.stop ≤ s.assembly.store.slots.size := by
  have hkeeps := b.keeps_changed l strict
  have hsize : ∀ {s t : State α}, State.Related (Assembly.Changed l b.unitIds (b.spans l)) s t →
      b.range.stop ≤ s.assembly.store.slots.size → b.range.stop ≤ t.assembly.store.slots.size :=
    fun h hs => h.size_slots.symm ▸ hs
  exact {
    size := fun s _ => Vec.size_slice _ _
    setState := fun x s hs _ => hsize (hkeeps.setState x s) hs
    state_setState := fun x s hs hx => Vec.slice_splice_self hx hs
    residuals := fun s hs => hsize (hkeeps.residuals s) hs
    state_residuals := by
      intro s r t _ heval
      have hs : Assembly.Changed l b.unitIds [] s.assembly _ :=
        Assembly.changed_evaluateAll s.assembly
      change b.residuals l s = .ok r t at heval
      unfold residuals at heval
      cases hall : Assembly.evaluateAll l b.unitIds s.assembly with
      | error e a =>
        rw [hall] at heval
        cases heval
      | ok _ a =>
        rw [hall] at heval hs
        cases heval
        exact congrArg (Vec.slice · b.range) hs.slots_eq
    linearize := fun s hs => hsize (hkeeps.linearize s) hs
    sweep := fun s hs => hsize (hkeeps.sweep s) hs
    guess := fun s hs => hsize (hkeeps.guess s) hs }

/-! ### A solve that leaves the bounds -/

namespace Halving

theorem orderedBounds : system.OrderedBounds := by
  intro i
  cases i with
  | zero =>
    refine ⟨fun _ _ => rfl, fun _ _ => rfl, ?_⟩
    rintro a b ⟨⟩ ⟨⟩
    norm_num
  | succ i => exact ⟨nofun, nofun, nofun⟩

theorem holds : system.Holds 1 fun _ => True where
  size _ _ := rfl
  setState _ _ _ _ := trivial
  state_setState x _ _ hx := by
    refine Vec.ext_entry hx.symm fun i hi => ?_
    obtain rfl : i = 0 := Nat.lt_one_iff.1 hi
    rfl
  residuals _ _ := trivial
  state_residuals s r t _ h := by
    cases h
    rfl
  linearize _ _ := trivial
  sweep _ _ := trivial
  guess _ _ := trivial

/-- What comes of the solve with a record of the unknowns. -/
def recorded : EStateM.Result (NonlinearError ℚ)
    (Solving ℚ (ℚ × List (Array ℚ)) (History ℚ)) (Solution ℚ) :=
  Newton.solve settings LinearConfig.direct.solver system.recording History.recorder
    ⟨(start.system, []), start.memory, start.watch⟩

/-- The guess is at 8, above the bounds, and the second sweep leads to 1/2, below them; both steps
lead to the lower bound. -/
theorem within_newton : settings.lineSearch.kind ≠ .none ∧ system.OrderedBounds ∧
    system.Holds 1 (fun _ => True) ∧ (stateAfter recorded).system.2 = [#[1], #[1]] ∧
    (∀ x ∈ (stateAfter recorded).system.2, system.Within x) ∧
    ∃ events : List (NonlinearEvent ℚ),
      (stateAfter (Newton.solve settings LinearConfig.direct.solver system History.recorder
        start)).watch = events.foldl History.recorder.after start.watch ∧
      ∀ e ∈ events, e.Within system := by
  have hkind : settings.lineSearch.kind ≠ .none := by decide
  obtain ⟨hgiven, -, htold⟩ := Newton.solve_within LinearConfig.direct.solver History.recorder
    hkind orderedBounds start
  exact ⟨hkind, orderedBounds, holds, by decide +kernel, hgiven, htold 1 _ holds trivial⟩

end Halving

end Mdao
