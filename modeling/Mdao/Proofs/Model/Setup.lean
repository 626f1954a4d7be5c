import Mdao.Proofs.Model.Layout

/-!
# Problems that are set up

`Model.setup` lays the model out in execution order. It succeeds wherever the options make sense
(`Model.setup_eq_ok`), and `Model.IsSetUp` says what the problem it gives consists of: the units,
links and options of the model, the arrangement of its slots, the blocks, and no Jacobian and no
coloring yet.
-/

namespace Mdao.Model

variable {α : Type} [Scalar α] [Shown α] {m : Model α} {p : Problem α}

/-- **What holds of a problem that is set up.** -/
structure IsSetUp (m : Model α) (p : Problem α) : Prop where
  laid : Laid m p.order p.store p.arrangement
  order : p.order = m.placedUnits.flatten
  blocks : ∃ gs, m.groups = .ok gs ∧ p.blocks.toList =
    (if m.options.root.isSome then [rootGroup p.order] else gs).map (m.blockOf p.arrangement)
  units : p.assembly.units = m.units
  links : p.links = m.links
  options : p.options = m.options
  parts : p.totalParts = Part.partition p.arrangement p.order (.upTo p.arrangement.size)
  jacobian : p.totalJacobian = none
  cache : p.cache.current = none

omit [Shown α] in
/-- Every unit is in the execution order, once. -/
theorem IsSetUp.perm (hm : m.Sound) (h : IsSetUp m p) :
    p.order.Perm (List.range m.units.size) := by
  rw [h.order]
  exact hm.isExecutionOrder.perm

/-- **A model is set up** if its options make sense and name units that are there. -/
theorem setup_eq_ok (hm : m.Sound) (hvalid : m.options.validate = .ok ())
    (hnamed : m.checkNamedBlocks = .ok ()) : ∃ p, m.setup = .ok p ∧ IsSetUp m p := by
  obtain ⟨gs, hgs, hids, -⟩ := hm.groups_eq
  have horder : gs.flatMap Group.unitIds = m.placedUnits.flatten := by
    rw [← hids, List.flatMap_def]
  have hperm : (gs.flatMap Group.unitIds).Perm (List.range m.units.size) := by
    rw [horder]
    exact hm.isExecutionOrder.perm
  obtain ⟨laid, hlaid, hspec⟩ := layOut_spec hm hperm
  have hgroups : (Problem.ofStructure m.groups : Except (ModelError α) _) = .ok gs := by
    rw [hgs]
    rfl
  refine ⟨_, bind_eq_ok.2 ⟨(), hvalid, bind_eq_ok.2 ⟨(), hnamed, bind_eq_ok.2 ⟨gs, hgroups,
    bind_eq_ok.2 ⟨laid, hlaid, rfl⟩⟩⟩⟩, hspec, horder, ⟨gs, hgs, rfl⟩, rfl, rfl, rfl, rfl, rfl, ?_⟩
  dsimp only
  split_ifs <;> rfl

/-- **Setting a model up.** -/
theorem setup_spec (hm : m.Sound) (h : m.setup = .ok p) : IsSetUp m p := by
  obtain ⟨_, hvalid, h'⟩ := bind_eq_ok.1 h
  obtain ⟨_, hnamed, -⟩ := bind_eq_ok.1 h'
  obtain ⟨p', hp', hspec⟩ := setup_eq_ok hm hvalid hnamed
  rw [h] at hp'
  cases hp'
  exact hspec

end Mdao.Model
