import Mdao.Proofs.Model.Determined

/-!
# Checks of totals give the values back

A check of totals runs the model at other points. Afterwards the slots are what they were, however
the check goes (`Problem.slots_checkTotals`), and with them the values of all outputs. The value that
an input reads is the one that was transferred last: that of an independent input is given back by the
evaluation at the end, unless this evaluation fails at an earlier unit
(`Problem.checkTotals_restores`, `Guarded.get_checkTotals_ne`).
-/

namespace Mdao

variable {α : Type}

namespace Problem

/-! ### The slots -/

section Slots

variable [Scalar α]

/-- **Looking at a problem** leaves its slots alone. -/
theorem keptByLooks_slots :
    KeptByLooks fun p q : Problem α => q.store.slots = p.store.slots where
  refl _ := rfl
  trans _ _ _ h h' := h'.trans h
  changed _ _ h := h.slots_eq
  jacobian _ := rfl
  cache _ _ _ := rfl

/-- The present slots can be evaluated, also after other points have been looked at. -/
def IsEvaluable (p : Problem α) : Prop :=
  ∀ q, p.Follows q → q.store.slots = p.store.slots → isResult (evaluateAll q) = true

/-- A problem that comes from another by looking at it, or by evaluating its slots at the end. -/
def Rests (Q : Problem α → Problem α → Prop) (p r : Problem α) : Prop :=
  Q p r ∨ ∃ q, p.Follows q ∧ q.store.slots = p.store.slots ∧ r = stateAfter (evaluateAll q)

/-- Differences of runs end with an evaluation at the slots they started from. -/
theorem rests_differenceTotals (Q : Problem α → Problem α → Prop) (names : List String)
    (cols : Quantities α) (o : FdOptions α) (p : Problem α) :
    Rests Q p (stateAfter (differenceTotals names cols o p)) := by
  have hp := keptByUse_follows.differences names cols o (Eq.refl p.store.slots.size) p rfl
  have hback : ∀ q : Problem α, p.Follows q → p.Follows (q.withSlots p.store.slots) := fun q hq =>
    .trans _ _ _ hq (.withSlots q hq.assembly.store.slots.symm)
  unfold differenceTotals
  dsimp only
  cases hdiff : differences names cols o p.store.slots p with
  | ok values q =>
    rw [hdiff] at hp
    refine .inr ⟨q.withSlots p.store.slots, hback q hp, rfl, ?_⟩
    dsimp only
    cases heval : evaluateAll (q.withSlots p.store.slots) with
    | ok _ r => rfl
    | error e r => rfl
  | error e q =>
    rw [hdiff] at hp
    refine .inr ⟨q.withSlots p.store.slots, hback q hp, rfl, ?_⟩
    dsimp only
    cases heval : evaluateAll (q.withSlots p.store.slots) with
    | ok _ r => rfl
    | error e r => rfl

variable {Q : Problem α → Problem α → Prop}

/-- Looking at a problem first changes nothing in how it ends. -/
theorem Rests.of_looks (h : KeptByLooks Q) {p q r : Problem α} (hpq : Q p q)
    (hfollows : p.Follows q) (hslots : q.store.slots = p.store.slots) (hr : Rests Q q r) :
    Rests Q p r := by
  rcases hr with hqr | ⟨q', hq', hslots', rfl⟩
  · exact .inl (h.trans _ _ _ hpq hqr)
  · exact .inr ⟨q', .trans _ _ _ hfollows hq', hslots'.trans hslots, rfl⟩

/-- **A check of totals** looks at the problem, and where it moves it, ends with an evaluation at the
slots before. -/
theorem rests_checkTotals (h : KeptByLooks Q) (quantities inputs : List String) (mode : Mode)
    (method : Method α) (p : Problem α) :
    Rests Q p (stateAfter (checkTotals quantities inputs mode method p)) := by
  have hp := h.prepareTotals quantities inputs p
  have hfollows := keptByUse_follows.prepareTotals quantities inputs p
  have hslots := keptByLooks_slots.prepareTotals quantities inputs p
  unfold checkTotals
  cases hprepare : prepareTotals quantities inputs p with
  | error e q =>
    rw [hprepare] at hp
    exact .inl hp
  | ok prepared q =>
    obtain ⟨rows, cols⟩ := prepared
    rw [hprepare] at hp hfollows hslots
    dsimp only
    cases q.totalsAt rows cols mode with
    | error e => exact .inl hp
    | ok analytic =>
      have hnumerical : Rests Q p (stateAfter (numericalTotals quantities rows cols method q)) := by
        refine .of_looks h hp hfollows hslots ?_
        cases method with
        | cs step => exact .inl (h.approximateTotals rows cols (.cs step) q)
        | fd o => exact rests_differenceTotals Q quantities cols o q
        | exact => exact rests_differenceTotals Q quantities cols .default q
      dsimp only
      cases hrun : numericalTotals quantities rows cols method q with
      | error e r =>
        rw [hrun] at hnumerical
        exact hnumerical
      | ok values r =>
        rw [hrun] at hnumerical
        exact hnumerical

/-- **A check of totals gives the slots back**, whatever fails on the way. -/
theorem slots_checkTotals (quantities inputs : List String) (mode : Mode) (method : Method α)
    (p : Problem α) :
    (stateAfter (checkTotals quantities inputs mode method p)).store.slots = p.store.slots := by
  rcases rests_checkTotals keptByLooks_slots quantities inputs mode method p with
    h | ⟨q, -, hslots, heq⟩
  · exact h
  · rw [heq]
    exact (keptByLooks_slots.evaluateAll q).trans hslots

end Slots

end Problem

/-! ### Independent inputs -/

/-- A variable reads the value that its slots hold. -/
def Store.ReadsAsHeld [Scalar α] (s : Store α) (name : String) : Prop :=
  ∃ y, s.held name = some y ∧ s.get name = .ok y

namespace Model

open Assembly

variable [ExactScalar α] {m : Model α} {start : Problem α} {a b : Assembly α} {name : String}

/-- The path of an output. -/
def IsOutput (m : Model α) (name : String) : Prop :=
  ∃ c ∈ m.units, ∃ v ∈ c.discipline.outputs, name = pathOf c v

omit [ExactScalar α] in
/-- What a variable reads is told by its entries and the values. -/
theorem get_congr [Scalar α] {s t : Store α} (hentries : t.entries = s.entries)
    (hslots : t.slots = s.slots) (hinputs : t.inputs = s.inputs) : t.get name = s.get name := by
  cases s
  cases t
  cases hentries
  cases hslots
  cases hinputs
  rfl

omit [ExactScalar α] in
theorem held_congr [Scalar α] {s t : Store α} (hentries : t.entries = s.entries)
    (hslots : t.slots = s.slots) : t.held name = s.held name := by
  rw [Store.held, Store.held, Store.slotsOf_congr hentries, hslots]

/-- **Looking at units** does not change that an independent input reads what its slots hold: it is
transferred from them. -/
theorem IsSetUp.readsAsHeld_of_changed (hm : m.Sound) (h : IsSetUp m start)
    (hname : m.IsIndependent name) {us : List Nat} (hus : ∀ u ∈ us, u < m.units.size)
    (hab : Changed start.arrangement us [] a b) (ha : start.assembly.Follows a)
    (hreads : a.store.ReadsAsHeld name) : b.store.ReadsAsHeld name := by
  induction hab with
  | refl a => exact hreads
  | trans hab _ ih ih' => exact ih' (.trans _ _ _ ha hab.follows) (ih ha hreads)
  | @transfer u hu a =>
    obtain ⟨c, hc, v, hv, hlink, rfl⟩ := hname
    obtain ⟨w, hw⟩ := Array.getElem?_of_mem hc
    have hb : start.assembly.Follows (a.transfer (start.arrangement.unit u)) :=
      .trans _ _ _ ha (follows_transfer a _)
    by_cases huw : u = w
    · subst huw
      obtain ⟨c', -, -, hhosts⟩ := h.hosts hm ha hw
      exact h.get_independent hm hb hw hv hlink (inputsOf_transfer hhosts)
    · -- the inputs of another unit are elsewhere
      obtain ⟨place, hplaced⟩ := Variable.exists_placed 0 hv
      obtain ⟨y, hheld, hget⟩ := hreads
      have hapart := h.apart hm (Array.getElem?_eq_some_iff.1 hw).1 (hus u hu) (Ne.symm huw)
      have hsame : (a.transfer (start.arrangement.unit u)).inputsOf (start.arrangement.unit w) =
          a.inputsOf (start.arrangement.unit w) :=
        Vec.slice_congr fun k hk => Vec.entry_splice_of_notMem (hapart.inputs k hk)
      refine ⟨y, hheld, ?_⟩
      rw [h.get_input hm hb hw hplaced, hsame, ← h.get_input hm ha hw hplaced, hget]
  | residuals _ a r =>
    obtain ⟨y, hheld, hget⟩ := hreads
    exact ⟨y, (held_congr rfl rfl).trans hheld, (get_congr rfl rfl rfl).trans hget⟩
  | slots hs => cases hs
  | linearized => exact hreads

/-- **After an evaluation of all units** every independent input reads what its slots hold. -/
theorem IsSetUp.readsAsHeld_of_evaluated (hm : m.Sound) (h : IsSetUp m start)
    (hname : m.IsIndependent name) (ha : start.assembly.Follows a)
    (heval : evaluateAll start.arrangement start.order a = .ok () b) :
    b.store.ReadsAsHeld name := by
  obtain ⟨c, hc, v, hv, hlink, rfl⟩ := hname
  obtain ⟨u, hu⟩ := Array.getElem?_of_mem hc
  have hev := h.evaluated hm ha heval
  have hlt := (Array.getElem?_eq_some_iff.1 hu).1
  have hmem : u ∈ start.order := (h.perm hm).mem_iff.2 (List.mem_range.2 hlt)
  have hsize : u < a.units.size := by
    rw [ha.units.size, h.units]
    exact hlt
  refine h.get_independent hm (.trans _ _ _ ha hev.follows) hu hv hlink ?_
  rw [hev.inputs u hmem hsize, hev.slots]

end Model

/-! ### What a check of totals gives back -/

namespace Problem

open Model

variable [ExactScalar α] {m : Model α} {start p : Problem α}

/-- **Looking at a problem** keeps what independent inputs read. -/
theorem keptByLooks_readsAsHeld (hm : m.Sound) (h : IsSetUp m start) {name : String}
    (hname : m.IsIndependent name) : KeptByLooks fun p q : Problem α => start.Follows p →
      start.Follows q ∧ (p.store.ReadsAsHeld name → q.store.ReadsAsHeld name) where
  refl _ hp := ⟨hp, id⟩
  trans _ _ _ hpq hqr hp := ⟨(hqr (hpq hp).1).1, (hqr (hpq hp).1).2 ∘ (hpq hp).2⟩
  changed p a hchanged hp := by
    refine ⟨.trans _ _ _ hp (.of_assembly p hchanged.follows), fun hreads => ?_⟩
    rw [hp.arrangement, hp.order] at hchanged
    exact h.readsAsHeld_of_changed hm hname
      (fun u hu => List.mem_range.1 ((h.perm hm).mem_iff.1 hu)) hchanged hp.assembly hreads
  jacobian p hp := ⟨.trans _ _ _ hp (.withJacobian p), id⟩
  cache p _ hc hp := ⟨.trans _ _ _ hp (keptByUse_follows.cache p hc), id⟩

/-- Where no unit fails, any slots can be evaluated. -/
theorem isEvaluable_of_total (hm : m.Sound) (h : IsSetUp m start) (hp : start.Follows p)
    (htotal : ∀ c ∈ m.units, ∀ x y r, x.size = c.inputs.size → y.size = c.outputs.size →
      r.size = c.outputs.size → ∃ r', c.residuals x y r = .ok ⟨⟩ r') : p.IsEvaluable := by
  intro q hq _
  have hfollows := hp.trans _ _ _ hq
  have hok : ∃ b, Assembly.evaluateAll q.arrangement q.order q.assembly = .ok () b := by
    rw [hfollows.arrangement, hfollows.order]
    refine Assembly.evaluateAll_ok fun u hu => ?_
    have hlt := List.mem_range.1 ((h.perm hm).mem_iff.1 hu)
    obtain ⟨c', hc', halike, hhosts⟩ :=
      h.hosts hm hfollows.assembly (Array.getElem?_eq_getElem hlt)
    refine ⟨c', hc', hhosts, ?_⟩
    rw [halike.residuals, halike.inputs, halike.outputs]
    exact htotal _ (Array.getElem_mem hlt)
  obtain ⟨b, hb⟩ := hok
  unfold evaluateAll onAssembly
  rw [hb]
  rfl

/-- **A check of totals gives back the values of all outputs**, whatever fails on the way: a unit, a
solver or a linear solver, at a perturbed point or in the evaluation at the end. It gives back the
values of independent inputs as well, as long as that evaluation cannot fail: they are read from
another place than runs take them from, and only a transfer writes this place. -/
theorem checkTotals_restores [BitPattern α] [Shown α] (hm : m.Built) (hsetup : m.setup = .ok start)
    (hp : start.Reached p) (quantities inputs : List String) (mode : Mode) (method : Method α)
    (name : String) :
    (m.IsOutput name →
      (stateAfter (checkTotals quantities inputs mode method p)).get name = p.get name) ∧
      (m.IsIndependent name → p.IsEvaluable → p.store.ReadsAsHeld name →
        (stateAfter (checkTotals quantities inputs mode method p)).get name = p.get name) := by
  have h := setup_spec hm.sound hsetup
  have hfollows := hp.follows
  have hslots := slots_checkTotals quantities inputs mode method p
  have hq := hfollows.trans _ _ _ (keptByUse_follows.checkTotals quantities inputs mode method p)
  generalize hdef : stateAfter (checkTotals quantities inputs mode method p) = q at hslots hq ⊢
  constructor
  · rintro ⟨c, hc, v, hv, rfl⟩
    obtain ⟨u, hu⟩ := Array.getElem?_of_mem hc
    obtain ⟨place, hplaced⟩ := Variable.exists_placed 0 hv
    have houtputs : q.assembly.outputsOf (start.arrangement.unit u) =
        p.assembly.outputsOf (start.arrangement.unit u) :=
      congrArg (Vec.slice · (start.arrangement.unit u).outputs) hslots
    unfold Problem.get Problem.store
    rw [h.get_output hm.sound hq.assembly hu hplaced, houtputs,
      h.get_output hm.sound hfollows.assembly hu hplaced]
  · intro hname heval hreads
    have hreadsq : q.store.ReadsAsHeld name := by
      rcases rests_checkTotals (keptByLooks_readsAsHeld hm.sound h hname) quantities inputs mode
        method p with hlooks | ⟨r, hr, hslotsr, heq⟩
      · rw [hdef] at hlooks
        exact (hlooks hfollows).2 hreads
      · obtain ⟨_, hok⟩ := eq_ok_of_isResult (heval r hr hslotsr)
        have hassembly := evaluateAll_eq_ok hok
        rw [← heq, hdef, (hfollows.trans _ _ _ hr).arrangement,
          (hfollows.trans _ _ _ hr).order] at hassembly
        exact h.readsAsHeld_of_evaluated hm.sound hname (hfollows.trans _ _ _ hr).assembly hassembly
    obtain ⟨y, hheld, hget⟩ := hreads
    obtain ⟨y', hheld', hget'⟩ := hreadsq
    have hsame : q.store.held name = p.store.held name :=
      held_congr (hq.assembly.entries.trans hfollows.assembly.entries.symm) hslots
    obtain rfl : y' = y := Option.some.inj (hheld'.symm.trans (hsame.trans hheld))
    unfold Problem.get
    rw [hget, hget']

end Problem

/-! ### A check that fails at the end -/

namespace Doubling

theorem checkTotals_of_doubling : model.Built ∧ model.setup = .ok problem ∧
    problem.Reached problem ∧ model.IsOutput "double.y" ∧ model.IsIndependent "double.x" ∧
    problem.IsEvaluable ∧ problem.store.ReadsAsHeld "double.x" ∧
    ∀ name ∈ ["double.y", "double.x"],
      (stateAfter (problem.checkTotals ["double.y"] ["double.x"] .rev .exact)).get name =
        problem.get name := by
  have hunit : component ∈ model.units := by
    rw [units_model]
    exact Array.mem_singleton.2 rfl
  have houtput : model.IsOutput "double.y" :=
    ⟨component, hunit, Variable.named "y", by
      rw [isDeclared.discipline]
      exact List.mem_singleton.2 rfl, by with_unfolding_all decide⟩
  have hindependent : model.IsIndependent "double.x" :=
    ⟨component, hunit, Variable.named "x", by
      rw [isDeclared.discipline]
      exact List.mem_singleton.2 rfl, by with_unfolding_all decide, by with_unfolding_all decide⟩
  have hcomputes : component.Computes double := computes_double isDeclared.discipline
    (by with_unfolding_all decide) (by with_unfolding_all decide)
  have hevaluable : problem.IsEvaluable := by
    refine Problem.isEvaluable_of_total built.sound (Model.setup_spec built.sound setup_eq)
      (.refl problem) fun c hc x y r hx hy hr => ?_
    rw [units_model] at hc
    obtain rfl := Array.mem_singleton.1 hc
    exact ⟨_, hcomputes.residuals_eq hx hy hr⟩
  have hreads : problem.store.ReadsAsHeld "double.x" :=
    ⟨#[1], by with_unfolding_all decide,
      Model.eq_ok_of_toOption (by with_unfolding_all decide)⟩
  refine ⟨built, setup_eq, .start, houtput, hindependent, hevaluable, hreads, fun name hname => ?_⟩
  have hrestores :=
    Problem.checkTotals_restores built setup_eq .start ["double.y"] ["double.x"] .rev .exact name
  rcases List.mem_cons.1 hname with rfl | hname
  · exact hrestores.1 houtput
  · obtain rfl := List.mem_singleton.1 hname
    exact hrestores.2 hindependent hevaluable hreads

end Doubling

namespace Guarded

open Doubling

/-- `y = x`; a guarded one is defined for `x` that is not negative alone. -/
def discipline (guarded : Bool) : ExplicitDiscipline ℚ :=
  { (ExplicitDiscipline.blank : ExplicitDiscipline ℚ) with
    inputs := [Variable.named "x"]
    outputs := [Variable.named "y"]
    partials := [{ PartialDeclaration.dense "y" "x" with constant := some #[1] }]
    compute := fun inputs outputs =>
      if guarded && decide (inputs.value "x" < 0) then .error (.analysis "" "negative") outputs.data
      else .ok ⟨⟩ (outputs.setEntry "y" 0 (inputs.value "x")).data }

/-- A unit of a name. -/
def unit (name : String) (guarded : Bool) : Component ℚ :=
  okOr component (Component.declare name (.explicit (discipline guarded)))

/-- A model with one more unit, or the model as it was. -/
def adding (m : Model ℚ) (name : String) (guarded : Bool) : Model ℚ :=
  okOr m (m.addUnit (unit name guarded))

/-- A unit that feeds a guarded one, and a third one beside them. -/
def model : Model ℚ :=
  let units := adding (adding (adding .empty "up" false) "root" true) "side" false
  okOr units (units.connect "up.y" "root.x")

/-- The model ready to run. -/
def problem : Problem ℚ := okOr Doubling.problem model.setup

/-- The problem with an output at which the guarded unit cannot be evaluated. -/
def moved : Problem ℚ := okOr problem (problem.set "up.y" #[-1])

/-- The problem after a check of totals with steps of one half. -/
def checked : EStateM.Result (ModelError ℚ) (Problem ℚ) (List (DerivativeCheck ℚ)) :=
  Problem.checkTotals ["side.y"] ["side.x"] .fwd (.fd ⟨.forward, 1 / 2, .abs⟩) moved

/-- **The evaluation at the end may fail**, and then an independent input keeps the perturbed value: the
guarded unit fails at the output that was set, though not in the runs, and the unit after it is not
reached any more. -/
theorem get_checkTotals_ne : isResult checked = false ∧
    (moved.get "side.x").toOption = some #[1] ∧
    ((stateAfter checked).get "side.x").toOption = some #[3 / 2] := by
  have hall : (!isResult checked && (moved.get "side.x").toOption == some #[1] &&
      ((stateAfter checked).get "side.x").toOption == some #[3 / 2]) = true := by decide +kernel
  simpa [and_assoc] using hall

end Guarded

end Mdao
