import Mdao.Proofs.Component.Products
import Mdao.Proofs.Model.Setup

/-!
# The two forms of the Jacobian of a model

A solver is given the Jacobian of a model either as an assembled matrix or as products of the units.
In every problem that is set up, the two are the same operator over any range of slots, in both
modes, once the units have been linearized at the present values (`product_of_linearized`); and so
the dense blocks read off the matrix are those probed with unit vectors.
-/

namespace Mdao

variable {α : Type}

/-- A state of a component after a linearization at given values. Before it the derivatives may have
been any, as other linearizations leave them, also when they fail. -/
def Component.LinearizedAt [Scalar α] (declared : Component α) (inputs outputs : Array α)
    (c : Component α) : Prop :=
  ∃ before strict, declared.Alike before ∧ before.linearize inputs outputs strict = .ok ⟨⟩ c

/-- Units with a place in a problem, each linearized at the present values. -/
structure Problem.Linearized [ExactScalar α] (p : Problem α) (a : Assembly α)
    (unitIds : List Nat) : Prop where
  /-- Each unit has been linearized at its inputs and outputs. -/
  units : ∀ u ∈ unitIds, ∀ c, a.units[u]? = some c → ∃ declared,
    p.assembly.units[u]? = some declared ∧ declared.LinearizedAt
      (a.inputsOf (p.arrangement.unit u)) (a.outputsOf (p.arrangement.unit u)) c
  /-- A unit that forms its own products forms those of a linear map and its transpose. -/
  products : ∀ u ∈ unitIds, ∀ c, a.units[u]? = some c → c.ProductsAreLinear
    (a.inputsOf (p.arrangement.unit u)) (a.outputsOf (p.arrangement.unit u))

namespace Model

variable [ExactScalar α] [Shown α] {m : Model α} {p : Problem α}

omit [Shown α] in
/-- In a problem that is set up, a unit acts by its entries at the values at which it was
linearized. -/
theorem acts_of_linearized (hm : m.Sound) (hp : IsSetUp m p) {a : Assembly α}
    {unitIds : List Nat} {range : Span} (ha : p.Linearized a unitIds)
    (hrange : ∀ u ∈ unitIds, (p.arrangement.unit u).outputs.LiesIn range) {u : Nat}
    (hu : u ∈ unitIds) {c : Component α} (hc : a.units[u]? = some c) :
    MatrixFree.Acts ⟨p.arrangement, a.units, unitIds, range, a.store.slots, a.store.inputs⟩ u c := by
  obtain ⟨declared, hdeclared, before, strict, halike, hlinearize⟩ := ha.units u hu c hc
  rw [hp.units] at hdeclared
  have hsound := (hm.declared declared (Array.mem_of_getElem? hdeclared)).sound
  have halike' : declared.Alike c := by
    have := Component.alike_linearize before (a.inputsOf (p.arrangement.unit u))
      (a.outputsOf (p.arrangement.unit u)) strict
    rw [hlinearize] at this
    exact halike.trans this
  have hfits := hp.laid.fits hm hdeclared
  refine ⟨⟨?_, ?_⟩, hrange u hu, ?_⟩
  · rw [halike'.outputs]
    exact hfits.size_outputs
  · rw [halike'.inputs]
    exact hfits.size_routes
  · exact (hsound.alike halike).actsByEntries_of_linearize (ha.products u hu c hc) hlinearize

/-- **The assembled Jacobian and the matrix-free one are the same operator**: over any range of
slots, for any units whose outputs lie there, forward and in reverse; and the diagonal blocks that
solvers take from them are the same. -/
theorem product_of_linearized (hm : m.Built) (hp : m.setup = .ok p) {a : Assembly α}
    {unitIds : List Nat} {range : Span} (ha : p.Linearized a unitIds)
    (hrange : ∀ u ∈ unitIds, (p.arrangement.unit u).outputs.LiesIn range) :
    (∀ mode x, MatrixFree.apply
        ⟨p.arrangement, a.units, unitIds, range, a.store.slots, a.store.inputs⟩ mode x =
      .ok ((Jacobian.build p.arrangement a.units unitIds range).matrix.product range.size mode x)) ∧
    ∀ parts block,
      (Part.operator p.arrangement a unitIds range parts none).diagonalBlock block =
      (Part.operator p.arrangement a unitIds range parts
        (some (.build p.arrangement a.units unitIds range))).diagonalBlock block := by
  have hset := setup_spec hm.sound hp
  have hproduct := MatrixFree.apply_eq_product
    (fun u hu c hc => acts_of_linearized hm.sound hset ha hrange hu hc)
  refine ⟨hproduct, fun parts block => ?_⟩
  rw [Jacobian.diagonalBlock_of_apply rfl (fun x => hproduct .fwd x) ?_ block]
  · rfl
  · exact fun e he => Jacobian.entries_lt he

end Model

/-! ### A model of one unit -/

instance : Shown ℚ := ⟨toString⟩

namespace Doubling

/-- `y = 2 x`, with the derivative fixed by the declaration. -/
def discipline : ExplicitDiscipline ℚ :=
  { (ExplicitDiscipline.blank : ExplicitDiscipline ℚ) with
    inputs := [Variable.named "x"]
    outputs := [Variable.named "y"]
    partials := [{ PartialDeclaration.dense "y" "x" with constant := some #[2] }]
    compute := fun inputs outputs =>
      .ok ⟨⟩ (outputs.setEntry "y" 0 (2 * inputs.value "x")).data }

/-- What a step that succeeds gives, and something else otherwise. -/
def okOr {ε β : Type} (other : β) : Except ε β → β
  | .ok b => b
  | .error _ => other

theorem eq_ok_of_isOk {ε β : Type} {e : Except ε β} (other : β) (h : e.isOk = true) :
    e = .ok (okOr other e) := by
  cases e with
  | ok b => rfl
  | error e => cases h

/-- The unit. -/
def component : Component ℚ :=
  okOr ⟨"", .explicit discipline, .empty, .empty, .empty, none, #[]⟩
    (Component.declare "double" (.explicit discipline))

theorem declare_eq : Component.declare "double" (.explicit discipline) = .ok component :=
  eq_ok_of_isOk _ (by with_unfolding_all decide)

theorem isDeclared : Component.IsDeclared "double" (.explicit discipline) component :=
  Component.isDeclared_of_declare declare_eq ⟨by with_unfolding_all decide,
    by with_unfolding_all decide⟩

/-- The model of this unit. -/
def model : Model ℚ := okOr .empty (Model.empty.addUnit component)

theorem addUnit_eq : Model.empty.addUnit component = .ok model :=
  eq_ok_of_isOk _ (by with_unfolding_all decide)

theorem built : model.Built :=
  .addUnit .empty ⟨by with_unfolding_all decide, by with_unfolding_all decide⟩ declare_eq addUnit_eq

theorem units_model : model.units = #[component] := Model.units_addUnit addUnit_eq

/-- The model ready to run. -/
def problem : Problem ℚ :=
  okOr ⟨⟨#[], .empty⟩, .empty, #[], [], .default, [], [], none, .inMemory⟩ model.setup

theorem setup_eq : model.setup = .ok problem :=
  eq_ok_of_isOk _ (by with_unfolding_all decide)

/-- The unit after a linearization. -/
def linearized : Component ℚ := stateAfter (component.linearize #[1] #[1] none)

theorem linearize_eq : component.linearize #[1] #[1] none = .ok ⟨⟩ linearized :=
  (eq_ok_of_isResult (by with_unfolding_all decide)).choose_spec

/-- The unit in its linearized state, with the values of the problem. -/
def assembly : Assembly ℚ := ⟨#[linearized], problem.store⟩

theorem linearized_problem : problem.Linearized assembly [0] := by
  have hunits : problem.assembly.units = #[component] := by
    rw [(Model.setup_spec built.sound setup_eq).units, units_model]
  have hinputs : assembly.inputsOf (problem.arrangement.unit 0) = #[1] := by
    with_unfolding_all decide
  have houtputs : assembly.outputsOf (problem.arrangement.unit 0) = #[1] := by
    with_unfolding_all decide
  have hexplicit : linearized.discipline = .explicit discipline := by
    have halike := Component.alike_linearize component #[1] #[1] none
    exact halike.discipline.trans isDeclared.discipline
  refine ⟨fun u hu c hc => ?_, fun u hu c hc => ?_⟩
  · obtain rfl := List.mem_singleton.1 hu
    obtain rfl : linearized = c := Option.some.inj hc
    refine ⟨component, by rw [hunits]; rfl, component, none, .refl _, ?_⟩
    rw [hinputs, houtputs]
    exact linearize_eq
  · obtain rfl := List.mem_singleton.1 hu
    obtain rfl : linearized = c := Option.some.inj hc
    intro d hd
    rw [hexplicit] at hd
    cases hd

/-- Over both slots, the unit's output and the independent input. -/
theorem product_of_doubling : problem.Linearized assembly [0] ∧
    (∀ u ∈ [0], (problem.arrangement.unit u).outputs.LiesIn (.upTo 2)) ∧
    MatrixFree.apply ⟨problem.arrangement, assembly.units, [0], .upTo 2, assembly.store.slots,
        assembly.store.inputs⟩ .fwd #[3, 5] =
      .ok ((Jacobian.build problem.arrangement assembly.units [0] (.upTo 2)).matrix.product 2 .fwd
        #[3, 5]) := by
  have hrange : ∀ u ∈ [0], (problem.arrangement.unit u).outputs.LiesIn (.upTo 2) := by
    intro u hu
    obtain rfl := List.mem_singleton.1 hu
    exact .inr ⟨by with_unfolding_all decide, by with_unfolding_all decide⟩
  exact ⟨linearized_problem, hrange,
    (Model.product_of_linearized built setup_eq linearized_problem hrange).1 .fwd #[3, 5]⟩

end Doubling

end Mdao
