import Mathlib
import Mdao.Model.Check
import Mdao.Proofs.Component.Declared
import Mdao.Proofs.Nonlinear
import Mdao.Proofs.Store

/-!
# Steps on some units

Whatever is done with a unit changes an assembly in one of four ways: its inputs are transferred, its
residuals or some slots are written, or it is linearized. `Assembly.Changed l us spans` says that one
state comes from another by such changes of the units `us`, with slots written in `spans` alone.
Every step on units is of this kind, also one that fails half way, and so is the solve of a block
(`SolverBlock.keeps_changed`); what a solve leaves alone is read off the four changes.

Steps change values and derivatives: the variables of the store, their places and the lengths of the
buffers stay as they are, and every unit stays the same declared component (`Assembly.Follows`).
-/

namespace Mdao

variable {α : Type} [Scalar α]

namespace Assembly

/-- The assembly with other slots in a span. -/
def withSpan (a : Assembly α) (s : Span) (y : Array α) : Assembly α :=
  { a with store := { a.store with slots := Vec.splice a.store.slots s y } }

/-- A state that comes from another by changes of some units, with slots written in some spans. -/
inductive Changed (l : Arrangement α) (us : List Nat) (spans : List Span) :
    Assembly α → Assembly α → Prop where
  | refl (a : Assembly α) : Changed l us spans a a
  | trans {a b c : Assembly α} :
    Changed l us spans a b → Changed l us spans b c → Changed l us spans a c
  | transfer {u : Nat} (hu : u ∈ us) (a : Assembly α) :
    Changed l us spans a (a.transfer (l.unit u))
  | residuals {u : Nat} (hu : u ∈ us) (a : Assembly α) (r : Array α) :
    Changed l us spans a (a.withResiduals (l.unit u) r)
  | slots {s : Span} (hs : s ∈ spans) (a : Assembly α) (y : Array α) :
    Changed l us spans a (a.withSpan s y)
  | linearized {u : Nat} (hu : u ∈ us) {a : Assembly α} {c : Component α}
    (hc : a.units[u]? = some c) (strict : Option α) :
    Changed l us spans a (a.withUnit u (stateAfter
      (c.linearize (a.inputsOf (l.unit u)) (a.outputsOf (l.unit u)) strict)))

variable {l : Arrangement α} {us vs : List Nat} {spans spans' : List Span} {u : Nat}

namespace Changed

/-- Changes of some units are changes of more units, in more spans. -/
theorem mono {a b : Assembly α} (h : Changed l us spans a b) (hus : ∀ u ∈ us, u ∈ vs)
    (hspans : ∀ s ∈ spans, s ∈ spans') : Changed l vs spans' a b := by
  induction h with
  | refl a => exact .refl a
  | trans _ _ ih ih' => exact .trans ih ih'
  | transfer hu a => exact .transfer (hus _ hu) a
  | residuals hu a r => exact .residuals (hus _ hu) a r
  | slots hs a y => exact .slots (hspans _ hs) a y
  | linearized hu hc strict => exact .linearized (hus _ hu) hc strict

/-- Transitivity in the form that sequences of steps ask for. -/
theorem comp (a b c : Assembly α) (h : Changed l us spans a b) (h' : Changed l us spans b c) :
    Changed l us spans a c := .trans h h'

/-- Without spans to write in, the slots stay as they are. -/
theorem slots_eq {a b : Assembly α} (h : Changed l us [] a b) : b.store.slots = a.store.slots := by
  induction h with
  | refl a => rfl
  | trans _ _ ih ih' => exact ih'.trans ih
  | transfer _ a => rfl
  | residuals _ a r => rfl
  | slots hs => cases hs
  | linearized => rfl

end Changed

/-- A step on one unit makes the changes that it makes after the transfer. -/
theorem changed_onUnit (hu : u ∈ us)
    {step : Component α → Placement α → EStateM EvalError (Assembly α) Unit}
    (hstep : ∀ c (a : Assembly α), a.units[u]? = some c →
      Changed l us spans a (stateAfter (step c (l.unit u) a))) :
    Preserves (Changed l us spans) (onUnit l u step) := by
  intro a
  unfold onUnit
  cases hc : a.units[u]? with
  | none => exact .refl a
  | some c => exact .trans (.transfer hu a) (hstep c _ hc)

/-! ### Looking at units -/

theorem changed_evaluate (hu : u ∈ us) : Preserves (Changed l us spans) (evaluate l u) := by
  refine changed_onUnit hu fun c a _ => ?_
  cases c.residuals (a.inputsOf (l.unit u)) (a.outputsOf (l.unit u))
      (a.residualsOf (l.unit u)) with
  | ok _ r => exact .residuals hu a r
  | error e r => exact .residuals hu a r

theorem changed_linearize (strict : Option α) (hu : u ∈ us) :
    Preserves (Changed l us spans) (linearize l strict u) := by
  refine changed_onUnit hu fun c a hc => ?_
  have hchanged : Changed l us spans a _ := .linearized hu hc strict
  cases hlinearize : c.linearize (a.inputsOf (l.unit u)) (a.outputsOf (l.unit u)) strict with
  | ok _ c' =>
    rw [hlinearize] at hchanged
    exact hchanged
  | error e c' =>
    rw [hlinearize] at hchanged
    exact hchanged

theorem changed_evaluateAll : Preserves (Changed l us spans) (evaluateAll l us) :=
  .forEach .refl Changed.comp fun _ hu => changed_evaluate hu

theorem changed_linearizeAll (strict : Option α) :
    Preserves (Changed l us spans) (linearizeAll l strict us) :=
  .forEach .refl Changed.comp fun _ hu => changed_linearize strict hu

/-- Linearizing units to compare their derivatives. -/
theorem changed_checkPartials (method : Method α) :
    Preserves (Changed l us spans) (checkPartials l method us) := by
  induction us with
  | nil => exact .refl
  | cons u us ih =>
    intro a
    have ha : Changed l (u :: us) spans a _ := changed_linearize none List.mem_cons_self a
    have hrest := fun b => (ih b).mono (fun _ => List.mem_cons_of_mem u) fun _ => id
    unfold checkPartials
    cases hlinearize : linearize l none u a with
    | error e b =>
      rw [hlinearize] at ha
      exact ha
    | ok _ b =>
      rw [hlinearize] at ha
      have hb := ha.trans (hrest b)
      dsimp only
      split
      · exact ha
      · cases hcheck : checkPartials l method us b with
        | ok others b' =>
          rw [hcheck] at hb
          exact hb
        | error e b' =>
          rw [hcheck] at hb
          exact hb

/-- Transferring the inputs of units to approximate their derivatives. -/
theorem changed_approximateUnits (method : Method α) :
    Preserves (Changed l us spans) (Problem.approximateUnits l method us) := by
  induction us with
  | nil => exact .refl
  | cons u us ih =>
    intro a
    have ha : Changed l (u :: us) spans a _ := .transfer List.mem_cons_self a
    have hrest := ha.trans
      ((ih (a.transfer (l.unit u))).mono (fun _ => List.mem_cons_of_mem u) fun _ => id)
    unfold Problem.approximateUnits
    dsimp only
    split
    · exact ha
    · cases happ : Problem.approximateUnits l method us (a.transfer (l.unit u)) with
      | ok others b =>
        rw [happ] at hrest
        exact hrest
      | error e b =>
        rw [happ] at hrest
        exact hrest

/-! ### Moving units -/

section Moving

variable (hspans : ∀ u ∈ us, (l.unit u).outputs ∈ spans)

include hspans

theorem changed_solve (hu : u ∈ us) : Preserves (Changed l us spans) (solve l u) := by
  refine changed_onUnit hu fun c a _ => ?_
  cases c.solve (a.inputsOf (l.unit u)) (a.outputsOf (l.unit u)) with
  | ok _ y => exact .slots (hspans u hu) a y
  | error e y => exact .slots (hspans u hu) a y

theorem changed_guess (hu : u ∈ us) (a : Assembly α) : Changed l us spans a (guess l a u) := by
  unfold guess
  cases a.units[u]? with
  | none => exact .refl a
  | some c => exact .slots (hspans u hu) a _

theorem changed_solveAll : Preserves (Changed l us spans) (solveAll l us) :=
  .forEach .refl Changed.comp fun _ hu => changed_solve hspans hu

theorem changed_foldl_guess (hvs : ∀ u ∈ vs, u ∈ us) (a : Assembly α) :
    Changed l us spans a (vs.foldl (guess l) a) := by
  induction vs generalizing a with
  | nil => exact .refl a
  | cons u vs ih =>
    exact (changed_guess hspans (hvs u List.mem_cons_self) a).trans
      (ih (fun w hw => hvs w (List.mem_cons_of_mem u hw)) _)

theorem changed_guessAll : Preserves (Changed l us spans) (guessAll l us) := by
  intro a
  unfold guessAll
  split_ifs
  · have ha : Changed l us spans a _ := changed_evaluateAll a
    cases heval : evaluateAll l us a with
    | ok _ b =>
      rw [heval] at ha
      exact ha.trans (changed_foldl_guess hspans (fun _ => id) b)
    | error e b =>
      rw [heval] at ha
      exact ha
  · exact .refl a

end Moving

end Assembly

/-! ### Blocks -/

namespace SolverBlock

variable {l : Arrangement α} {b : SolverBlock α}

/-- A relation between the units and values of two states of a block. -/
def State.Related (R : Assembly α → Assembly α → Prop) (s t : State α) : Prop :=
  R s.assembly t.assembly

omit [Scalar α] in
theorem preserves_lift {R : Assembly α → Assembly α → Prop}
    {step : EStateM EvalError (Assembly α) Unit} (h : Preserves R step) :
    Preserves (State.Related R) (State.lift step) := by
  intro s
  have hs := h s.assembly
  unfold State.lift
  cases hstep : step s.assembly with
  | ok _ a =>
    rw [hstep] at hs
    exact hs
  | error e a =>
    rw [hstep] at hs
    exact hs

/-- The spans of slots that the solve of a block writes: the slots of the block, and those of each
of its units. -/
def spans (b : SolverBlock α) (l : Arrangement α) : List Span :=
  b.range :: b.unitIds.map fun u => (l.unit u).outputs

/-- **The solve of a block** changes its units, and slots of the block alone. -/
theorem keeps_changed (b : SolverBlock α) (l : Arrangement α) (strict : Option α) :
    (b.system l strict).Keeps
      (State.Related (Assembly.Changed l b.unitIds (b.spans l))) where
  refl s := .refl s.assembly
  trans s t u := .comp s.assembly t.assembly u.assembly
  setState x s := .slots List.mem_cons_self s.assembly x
  residuals := by
    intro s
    have hs : Assembly.Changed l b.unitIds (b.spans l) s.assembly _ :=
      Assembly.changed_evaluateAll s.assembly
    show State.Related _ s (stateAfter (b.residuals l s))
    unfold residuals
    cases heval : Assembly.evaluateAll l b.unitIds s.assembly with
    | ok _ a =>
      rw [heval] at hs
      exact hs
    | error e a =>
      rw [heval] at hs
      exact hs
  linearize := by
    intro s
    have hchanged : Preserves (Assembly.Changed l b.unitIds (b.spans l)) _ :=
      Assembly.changed_linearizeAll strict
    have hs := preserves_lift hchanged s
    show State.Related _ s (stateAfter (b.linearize l strict s))
    unfold linearize
    cases hlinearize : State.lift (Assembly.linearizeAll l strict b.unitIds) s with
    | error e t =>
      rw [hlinearize] at hs
      exact hs
    | ok _ t =>
      rw [hlinearize] at hs
      dsimp only
      split_ifs
      · exact hs
      · exact hs
  sweep := preserves_lift <| Assembly.changed_solveAll fun u hu =>
    List.mem_cons_of_mem _ (List.mem_map.2 ⟨u, hu, rfl⟩)
  guess := preserves_lift <| Assembly.changed_guessAll fun u hu =>
    List.mem_cons_of_mem _ (List.mem_map.2 ⟨u, hu, rfl⟩)

end SolverBlock

/-! ### What steps leave alone -/

/-- Units and values that come from others by steps on them: the same units up to derivatives, the
same variables up to values. -/
structure Assembly.Follows (a b : Assembly α) : Prop where
  store : a.store.SameShape b.store
  units : Component.AllAlike a.units b.units

namespace Assembly

namespace Follows

theorem entries {a b : Assembly α} (h : a.Follows b) : b.store.entries = a.store.entries :=
  h.store.entries

theorem refl (a : Assembly α) : a.Follows a := ⟨.refl _, .refl a.units⟩

theorem trans (a b c : Assembly α) (h : a.Follows b) (h' : b.Follows c) : a.Follows c :=
  ⟨h.store.trans h'.store, h.units.trans h'.units⟩

theorem symm {a b : Assembly α} (h : a.Follows b) : b.Follows a :=
  ⟨h.store.symm, h.units.symm⟩

/-- Other values of the same variables. -/
theorem of_values {a b : Assembly α} (hstore : a.store.SameShape b.store)
    (hunits : b.units = a.units) : a.Follows b :=
  ⟨hstore, hunits ▸ .refl a.units⟩

end Follows

theorem follows_transfer (a : Assembly α) (p : Placement α) : a.Follows (a.transfer p) :=
  .of_values ⟨rfl, rfl, rfl, Vec.size_splice _ _ _⟩ rfl

theorem follows_withResiduals (a : Assembly α) (p : Placement α) (r : Array α) :
    a.Follows (a.withResiduals p r) :=
  .of_values ⟨rfl, rfl, Vec.size_splice _ _ _, rfl⟩ rfl

theorem follows_withOutputs (a : Assembly α) (p : Placement α) (y : Array α) :
    a.Follows (a.withOutputs p y) :=
  .of_values ⟨rfl, Vec.size_splice _ _ _, rfl, rfl⟩ rfl

theorem follows_withUnit (a : Assembly α) {u : Nat} {c c' : Component α}
    (hc : a.units[u]? = some c) (h : c.Alike c') : a.Follows (a.withUnit u c') :=
  ⟨.refl _, .set hc h⟩

theorem follows_withSpan (a : Assembly α) (s : Span) (y : Array α) : a.Follows (a.withSpan s y) :=
  .of_values ⟨rfl, Vec.size_splice _ _ _, rfl, rfl⟩ rfl

/-- **Steps on units** change values and derivatives only. -/
theorem Changed.follows {l : Arrangement α} {us : List Nat} {spans : List Span} {a b : Assembly α}
    (h : Changed l us spans a b) : a.Follows b := by
  induction h with
  | refl a => exact .refl a
  | trans _ _ ih ih' => exact .trans _ _ _ ih ih'
  | transfer _ a => exact a.follows_transfer _
  | residuals _ a r => exact a.follows_withResiduals _ r
  | slots _ a y => exact a.follows_withSpan _ y
  | linearized _ hc strict => exact follows_withUnit _ hc (Component.alike_linearize _ _ _ strict)

theorem follows_evaluate (l : Arrangement α) (u : Nat) : Preserves Follows (evaluate l u) :=
  fun a =>
    have ha : Changed l [u] [] a _ := changed_evaluate (List.mem_singleton.2 rfl) a
    ha.follows

theorem follows_linearize (l : Arrangement α) (strict : Option α) (u : Nat) :
    Preserves Follows (linearize l strict u) :=
  fun a =>
    have ha : Changed l [u] [] a _ := changed_linearize strict (List.mem_singleton.2 rfl) a
    ha.follows

end Assembly

end Mdao
