import Mdao.Proofs.Jacobian.Assembled
import Mdao.Proofs.Model.Use

/-!
# Problems that are used

After it has been set up a problem is used in any order: values are written, it is run, totals are
computed with and without colorings, derivatives are checked, and each of these may fail half way
(`Problem.Reached`). Whatever has happened before, the arrangement is the one of the setup, the
Jacobian is built anew whenever totals are computed, and the cache remembers sound colorings only
(`Reached.follows`).
-/

namespace Mdao

variable {α : Type} [Scalar α]

/-- A block without what its solvers remember. -/
def SolverBlock.outline (b : SolverBlock α) : SolverBlock α :=
  { b with memory := .blank, jacobian := none }

namespace Problem

/-- The Jacobian over all slots, if there is one, was built from the units at some linearization. -/
def JacobianIsBuilt (p : Problem α) : Prop :=
  ∀ j, p.totalJacobian = some j → ∃ units, Component.AllAlike p.assembly.units units ∧
    j = .build p.arrangement units p.order (.upTo p.arrangement.size)

/-- A problem that comes from another by using it. -/
structure Follows (p q : Problem α) : Prop where
  arrangement : q.arrangement = p.arrangement
  links : q.links = p.links
  options : q.options = p.options
  order : q.order = p.order
  parts : q.totalParts = p.totalParts
  blocks : q.blocks.map SolverBlock.outline = p.blocks.map SolverBlock.outline
  assembly : p.assembly.Follows q.assembly
  jacobian : p.JacobianIsBuilt → q.JacobianIsBuilt
  cache : p.cache.Sound → q.cache.Sound

namespace Follows

theorem refl (p : Problem α) : p.Follows p := ⟨rfl, rfl, rfl, rfl, rfl, rfl, .refl _, id, id⟩

theorem trans (p q r : Problem α) (h : p.Follows q) (h' : q.Follows r) : p.Follows r :=
  ⟨h'.arrangement.trans h.arrangement, h'.links.trans h.links, h'.options.trans h.options,
    h'.order.trans h.order, h'.parts.trans h.parts, h'.blocks.trans h.blocks,
    .trans _ _ _ h.assembly h'.assembly, h'.jacobian ∘ h.jacobian, h'.cache ∘ h.cache⟩

/-- Other units and values that come from the ones before, and blocks that remember something
else. -/
theorem of_blocks (p : Problem α) {a : Assembly α} {blocks : Array (SolverBlock α)}
    (hblocks : blocks.map SolverBlock.outline = p.blocks.map SolverBlock.outline)
    (h : p.assembly.Follows a) : p.Follows { p with assembly := a, blocks := blocks } := by
  refine ⟨rfl, rfl, rfl, rfl, rfl, hblocks, h, fun hj j hsome => ?_, id⟩
  obtain ⟨units, halike, rfl⟩ := hj j hsome
  exact ⟨units, h.units.symm.trans halike, rfl⟩

/-- Other units and values that come from the ones before. -/
theorem of_assembly (p : Problem α) {a : Assembly α} (h : p.assembly.Follows a) :
    p.Follows { p with assembly := a } :=
  of_blocks p rfl h

/-- Other values of the same variables. -/
theorem of_store (p : Problem α) {s : Store α} (h : p.store.SameShape s) :
    p.Follows (p.withStore s) :=
  of_assembly p (.of_values h rfl)

/-- Other slots, as many as before. -/
theorem withSlots (p : Problem α) {slots : Array α} (h : slots.size = p.store.slots.size) :
    p.Follows (p.withSlots slots) :=
  .of_store p ⟨rfl, h, rfl, rfl⟩

end Follows

/-! ### What keeps a problem following another -/

theorem follows_runBlock {ω : Type} (observer : Observer (NonlinearEvent α) ω) (k : Nat)
    (b : SolverBlock α) : Preserves (Beside Follows) (runBlock observer k b) := by
  rintro ⟨p, w⟩
  obtain ⟨s, hs, hchanged⟩ := stateAfter_runBlock observer k b p w
  have hmodify : (p.afterBlock k s).1.blocks.map SolverBlock.outline =
      p.blocks.map SolverBlock.outline := by
    refine Array.ext (by simp [afterBlock]) fun i h1 h2 => ?_
    simp only [afterBlock, Array.getElem_map, Array.getElem_modify]
    split_ifs <;> rfl
  rw [hs]
  exact .of_blocks p hmodify hchanged.follows

theorem follows_runBlocks {ω : Type} (observer : Observer (NonlinearEvent α) ω)
    (bs : List (SolverBlock α × Nat)) : Preserves (Beside Follows) (runBlocks observer bs) := by
  have htrans : ∀ s t u : Problem α × ω, Beside Follows s t → Beside Follows t u →
      Beside Follows s u := fun s t u => .trans s.1 t.1 u.1
  induction bs with
  | nil => exact .pure (fun s => .refl s.1) []
  | cons e bs ih =>
    obtain ⟨b, k⟩ := e
    exact .bind htrans (follows_runBlock observer k b) fun report =>
      .bind htrans ih fun others => .pure (fun s => .refl s.1) (report :: others)

/-- Refreshing a Jacobian that was built is building it anew. -/
theorem freshJacobian_eq (p : Problem α) (hj : p.JacobianIsBuilt) :
    p.freshJacobian p.arrangement =
      .build p.arrangement p.assembly.units p.order (.upTo p.arrangement.size) := by
  unfold freshJacobian
  cases hsome : p.totalJacobian with
  | none => rfl
  | some j =>
    obtain ⟨units, halike, rfl⟩ := hj j hsome
    exact Jacobian.refresh_build halike.symm p.order _

/-- The problem with its Jacobian refreshed. -/
theorem Follows.withJacobian (p : Problem α) :
    p.Follows { p with totalJacobian := some (p.freshJacobian p.arrangement) } :=
  ⟨rfl, rfl, rfl, rfl, rfl, rfl, .refl _, fun hj j hsome => by
    obtain rfl := Option.some.inj hsome
    exact ⟨p.assembly.units, .refl _, p.freshJacobian_eq hj⟩, id⟩

/-- **Using a problem** leads to problems that follow it. -/
theorem keptByUse_follows : KeptByUse (Follows (α := α)) where
  refl := .refl
  trans := .trans
  changed _ _ h := .of_assembly _ h.follows
  runBlock observer k b p w _ := follows_runBlock observer k b (p, w)
  jacobian := .withJacobian
  cache _ _ h := ⟨rfl, rfl, rfl, rfl, rfl, rfl, .refl _, id, h⟩
  shape _ _ h := h.assembly.store
  withStore _ _ h _ := .of_store _ h

/-! ### Linearizing -/

theorem follows_linearizeAll : Preserves Follows (linearizeAll (α := α)) :=
  keptByUse_follows.linearizeAll

/-- Refreshing all derivatives leads to a problem that follows. -/
theorem Follows.of_linearizeAll {p q : Problem α} (h : linearizeAll p = .ok () q) : p.Follows q := by
  have hfollows := follows_linearizeAll p
  rwa [h] at hfollows

/-- Linearizing all units, and what it leaves in the place of the Jacobian. -/
theorem linearizeAll_spec (p : Problem α) :
    p.Follows (stateAfter (linearizeAll p)) ∧ ∀ u q, linearizeAll p = .ok u q →
      p.JacobianIsBuilt → q.totalJacobian =
        some (.build q.arrangement q.assembly.units q.order (.upTo q.arrangement.size)) := by
  refine ⟨follows_linearizeAll p, fun u q h hj => ?_⟩
  have hp : p.Follows (stateAfter (onAssembly _ p)) :=
    keptByUse_follows.onAssembly p
      (Assembly.changed_linearizeAll p.options.strictPartials p.assembly)
  unfold linearizeAll at h
  dsimp only at h
  cases hstep : onAssembly
      (Assembly.linearizeAll p.arrangement p.options.strictPartials p.order) p with
  | error e r =>
    rw [hstep] at h
    cases h
  | ok _ r =>
    rw [hstep] at h hp
    cases h
    have harrangement : p.arrangement = r.arrangement := hp.arrangement.symm
    show some (r.freshJacobian p.arrangement) = _
    rw [harrangement, r.freshJacobian_eq (hp.jacobian hj)]

/-! ### Using a problem -/

/-- **The problems that using a problem leads to**: in any order, also through steps that fail. A
coloring file may be changed by others in between, as long as what it holds can be trusted. -/
inductive Reached [BitPattern α] (start : Problem α) : Problem α → Prop where
  | start : Reached start start
  | set {p q : Problem α} {name : String} {value : Array α} :
    Reached start p → p.set name value = .ok q → Reached start q
  | setInUnits {p q : Problem α} {name units : String} {value : Array α} :
    Reached start p → p.setInUnits name value units = .ok q → Reached start q
  | run {p : Problem α} {ω : Type} (observer : Observer (NonlinearEvent α) ω) (w : ω) :
    Reached start p → Reached start (stateAfter (runObserved observer (p, w))).1
  | totals {p : Problem α} (quantities inputs : List String) (mode : Mode) :
    Reached start p → Reached start (stateAfter (totals quantities inputs mode p))
  | coloring {p : Problem α} (quantities inputs : List String) {file : ColoringFile} :
    Reached start p → file.Trusted →
    Reached start (stateAfter (coloring quantities inputs (p, file))).1
  | totalsColored {p : Problem α} (quantities inputs : List String) {file : ColoringFile} :
    Reached start p → file.Trusted →
    Reached start (stateAfter (totalsColored quantities inputs (p, file))).1
  | checkPartials {p : Problem α} (method : Method α) :
    Reached start p → Reached start (stateAfter (checkPartials method p))
  | checkTotals {p : Problem α} (quantities inputs : List String) (mode : Mode)
      (method : Method α) :
    Reached start p → Reached start (stateAfter (checkTotals quantities inputs mode method p))

/-- **What every call keeps** is kept from the start on. -/
theorem Reached.kept [BitPattern α] {Q : Problem α → Problem α → Prop} (h : KeptByUse Q)
    {start p : Problem α} (hp : Reached start p) : Q start p := by
  induction hp with
  | start => exact h.refl start
  | set _ hset ih => exact h.trans _ _ _ ih (h.set hset)
  | setInUnits _ hset ih => exact h.trans _ _ _ ih (h.setInUnits hset)
  | run observer w _ ih => exact h.trans _ _ _ ih (h.runObserved observer _ w)
  | totals quantities inputs mode _ ih => exact h.trans _ _ _ ih (h.totals quantities inputs mode _)
  | coloring quantities inputs _ hfile ih =>
    exact h.trans _ _ _ ih (h.coloring quantities inputs _ hfile)
  | totalsColored quantities inputs _ hfile ih =>
    exact h.trans _ _ _ ih (h.totalsColored quantities inputs _ hfile)
  | checkPartials method _ ih => exact h.trans _ _ _ ih (h.checkPartials method _)
  | checkTotals quantities inputs mode method _ ih =>
    exact h.trans _ _ _ ih (h.checkTotals quantities inputs mode method _)

/-- **Using a problem leaves its arrangement alone.** -/
theorem Reached.follows [BitPattern α] {start p : Problem α} (h : Reached start p) :
    start.Follows p := h.kept keptByUse_follows

end Problem

end Mdao
