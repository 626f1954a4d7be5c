import Mdao.Proofs.Jacobian.Replay
import Mdao.Proofs.Model.Jacobian
import Mdao.Proofs.Model.Setup

/-!
# Jacobians of models that are set up

Setting a model up puts sound units in their places (`IsSetUp.allFit`). So whatever calls have built
the model, the Jacobian of any of its units over any range of slots has the pattern that
declarations and connections give it, and a refresh is a new assembly after any run of
linearizations and refreshes (`reassembles_after`).
-/

namespace Mdao

namespace Model

open Jacobian

section Setup

variable {α : Type} [Scalar α] [Shown α] {m : Model α} {start : Problem α}

omit [Shown α] in
/-- The units of a model that is set up are sound and in their places. -/
theorem IsSetUp.allFit (hm : m.Sound) (h : IsSetUp m start) :
    AllFit start.arrangement start.assembly.units := by
  intro u c hc
  rw [h.units] at hc
  exact ⟨(hm.declared c (Array.mem_of_getElem? hc)).sound, h.laid.fits hm hc⟩

end Setup

variable {α : Type} [ExactScalar α] [Shown α]

/-- **What is assembled is exact, and a refresh is a new assembly.** The Jacobian of any units of a
model over any range of slots, built after any linearizations `before`, has after any run of
linearizations and refreshes the pattern that declarations and routes give it; and a refresh makes
it the Jacobian that would be built then, whose entries are the sums of all contributions. -/
theorem reassembles_after {calls : List (Call α)} (hcalls : ∀ call ∈ calls, call.Admissible)
    {o : SolverOptions α} {start : Problem α}
    (hsetup : ((after calls).withOptions o).setup = .ok start) (unitIds : List Nat) (range : Span)
    (before : List (Linearizing α)) (events : List (Event α)) :
    Reassembles start.arrangement start.assembly.units unitIds range
      (afterRun start.arrangement start.assembly.units unitIds range before events) := by
  have hm := (sound_after hcalls).withOptions o
  have hset := setup_spec hm hsetup
  exact (builtFrom_afterRun start.arrangement start.assembly.units unitIds range before
    events).reassembles (hset.allFit hm) hset.laid.nodup_independents

end Model

/-! ### A unit and its input -/

namespace Doubling

open Jacobian

/-- The model of the doubling unit, by calls. -/
def unitCalls : List (Model.Call ℚ) := [.declare "double" (.explicit discipline)]

theorem setup_calls : ((Model.after unitCalls).withOptions .default).setup = .ok problem := by
  have hmodel : Model.after unitCalls = model := by
    simp [Model.after, unitCalls, Model.perform, declare_eq, addUnit_eq, Except.toOption]
  have hoptions : model.options = .default := Model.options_addUnit addUnit_eq
  rw [hmodel, Model.withOptions, ← hoptions]
  exact setup_eq

/-- Linearized before it is assembled; linearized, refreshed and linearized again later. -/
theorem reassembles_double : (∀ call ∈ unitCalls, call.Admissible) ∧
    ((Model.after unitCalls).withOptions .default).setup = .ok problem ∧
    Reassembles problem.arrangement problem.assembly.units [0] (.upTo 2)
      (afterRun problem.arrangement problem.assembly.units [0] (.upTo 2) [⟨0, #[1], #[1], none⟩]
        [.linearize ⟨0, #[3], #[6], none⟩, .refresh, .linearize ⟨0, #[4], #[9], some 1⟩]) := by
  have hcalls : ∀ call ∈ unitCalls, call.Admissible := by
    intro call hcall
    obtain rfl := List.mem_singleton.1 hcall
    exact ⟨by with_unfolding_all decide, by with_unfolding_all decide⟩
  exact ⟨hcalls, setup_calls, Model.reassembles_after hcalls setup_calls [0] (.upTo 2) _ _⟩

/-- The row of the output and that of the input. -/
example : (build problem.arrangement problem.assembly.units [0] (.upTo 2)).pattern =
    [(0, 0), (0, 1), (1, 1)] := by with_unfolding_all decide

end Doubling

end Mdao
