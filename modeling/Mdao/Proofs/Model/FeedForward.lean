import Mdao.Proofs.Component.Computes
import Mdao.Proofs.Model.Blocks
import Mdao.Proofs.Model.Reached
import Mdao.Proofs.Model.Transfer

/-!
# Running a model without coupled blocks

In a model without coupled blocks whose units are all explicit, every block is one unit that is swept
once, in execution order. A unit is never routed from itself or from a later one
(`IsSetUp.unread`), so what it has computed stays what it computes from its inputs
(`Passed.step`), the residuals of each block are zero (`solve_single`), and one pass settles the
whole model (`run_of_follows`).
-/

namespace Mdao

open Vec

variable {α : Type}

/-! ### One unit -/

namespace Assembly

variable [Scalar α] {l : Arrangement α} {u : Nat} {a b : Assembly α} {c : Component α}
  {f : Array α → Array α}

/-- A unit that is solved has the outputs that it computes from what it receives. -/
theorem solve_eq (hc : a.units[u]? = some c) (h : a.Hosts (l.unit u) c) (hf : c.Computes f) :
    solve l u a = .ok () ((a.transfer (l.unit u)).withOutputs (l.unit u)
      (f (received l u a.store.slots))) := by
  have houtputs : ((a.transfer (l.unit u)).outputsOf (l.unit u)).size = c.outputs.size := by
    rw [outputsOf, size_slice, h.fits.size_outputs]
  have hsolve := hf.solve_eq (h.size_received a.store.slots) houtputs
  refine (onUnit_eq hc).trans ?_
  rw [inputsOf_transfer h, hsolve]

/-- Without implicit units there is nothing to guess. -/
theorem guessAll_eq (hc : a.units[u]? = some c) (hf : c.Computes f) :
    guessAll l [u] a = .ok () a := by
  have hexplicit : a.hasImplicit [u] = false := by
    simp [hasImplicit, hc, hf.isImplicit]
  simp [guessAll, hexplicit]

end Assembly

/-! ### A sweep that is exact -/

namespace RunOnce

variable [ExactScalar α] {σ ω : Type} {sys : NonlinearSystem α σ}

theorem tolerance_pos : (0 : α) < Scalar.toOfScientific.ofScientific 1 true 10 := by
  rw [ExactScalar.ofScientific_eq]
  norm_num

/-- Where one sweep makes all residuals zero, the solve has converged. -/
theorem solve_eq {s s1 s2 s3 : σ} {mem : LinearMemory α} {w : ω} {r : Array α}
    (hguess : sys.guess s = .ok () s1) (hsweep : sys.sweep s1 = .ok () s2)
    (hresiduals : sys.residuals s2 = .ok r s3) (hr : Vec.norm r = 0) :
    RunOnce.solve sys ⟨s, mem, w⟩ = .ok ⟨.converged, 1, 0, 0⟩ ⟨s3, mem, w⟩ := by
  have h1 : (SolveM.onSystem sys.guess : SolveM α σ ω _) ⟨s, mem, w⟩ = .ok () ⟨s1, mem, w⟩ := by
    simp only [SolveM.onSystem, hguess]
  have h2 : (SolveM.onSystem sys.sweep : SolveM α σ ω _) ⟨s1, mem, w⟩ = .ok () ⟨s2, mem, w⟩ := by
    simp only [SolveM.onSystem, hsweep]
  have h3 : (SolveM.onSystem sys.residuals : SolveM α σ ω _) ⟨s2, mem, w⟩ =
      .ok r ⟨s3, mem, w⟩ := by
    simp only [SolveM.onSystem, hresiduals]
  unfold RunOnce.solve
  rw [bind_of_ok _ h1, bind_of_ok _ h2, bind_of_ok _ h3]
  simp only [hr, ExactScalar.isFinite_eq, tolerance_pos]
  rfl

end RunOnce

/-! ### One pass over all units -/

namespace Model

open Assembly

section Pass

variable [Scalar α] {m : Model α} {start : Problem α} {a b : Assembly α} {base : Array α}
  {f : String → Array α → Array α}

/-- The outputs of a unit are what it computes from what it receives. -/
def Settled (m : Model α) (f : String → Array α → Array α) (l : Arrangement α)
    (slots : Array α) (u : Nat) : Prop :=
  ∀ c, m.units[u]? = some c → slice slots (l.unit u).outputs = f c.name (received l u slots)

/-- What holds once some units have been solved: they are settled, and the independent inputs are
what they were. -/
structure Passed (m : Model α) (f : String → Array α → Array α) (start : Problem α)
    (base : Array α) (done : List Nat) (a : Assembly α) : Prop where
  follows : start.assembly.Follows a
  settled : ∀ u ∈ done, m.Settled f start.arrangement a.store.slots u
  kept : ∀ r ∈ start.arrangement.independents, ∀ k ∈ r, entry a.store.slots k = entry base k

/-- The state of a pass is told by the slots. -/
theorem Passed.of_slots {done : List Nat} (h : Passed m f start base done a) (hab : a.Follows b)
    (hslots : b.store.slots = a.store.slots) : Passed m f start base done b :=
  ⟨.trans _ _ _ h.follows hab, hslots ▸ h.settled, hslots ▸ h.kept⟩

/-- **No unit is routed from itself or from a later one.** -/
theorem IsSetUp.unread (hm : m.Sound) (h : IsSetUp m start) (hff : m.FeedForward)
    {done post : List Nat} {u w : Nat} (horder : start.order = done ++ u :: post)
    (hw : w ∈ done ∨ w = u) {route : Route α} (hroute : route ∈ (start.arrangement.unit w).routes) :
    route.slot ∉ (start.arrangement.unit u).outputs := by
  intro hslot
  have hperm := h.perm hm
  have hnodup : (done ++ u :: post).Nodup := horder ▸ hperm.nodup_iff.2 List.nodup_range
  have hmem : ∀ {v : Nat}, v ∈ start.order → v < m.units.size := fun hv =>
    List.mem_range.1 (hperm.mem_iff.1 hv)
  have hu : u ∈ start.order := by simp [horder]
  have hwmem : w ∈ start.order := by
    rcases hw with hw | rfl
    · simp [horder, hw]
    · exact hu
  obtain ⟨mid, houts, -⟩ := h.laid.tiles
  rcases source_of_route hm h.laid (Array.getElem?_eq_getElem (hmem hwmem)) hroute with
    ⟨v, hedge, hv⟩ | ⟨r, hr, hkr⟩
  · -- the unit that feeds it would have to come before itself
    have hsize : m.graph.units.size = m.units.size := by rw [hm.graph, Array.size_map]
    have hvmem : v ∈ start.order := hperm.mem_iff.2
      (List.mem_range.2 (hsize ▸ (Graph.bounded_edges m.graph _ hedge).1))
    obtain rfl := houts.eq_of_mem hvmem hu hv hslot
    rw [h.order] at horder
    rw [List.nodup_append] at hnodup
    rcases hw with hw | rfl
    · obtain ⟨pre, mid, rfl⟩ := List.append_of_mem hw
      rw [List.append_assoc, List.cons_append] at horder
      have hpre := hm.fed_before hff horder hedge
      exact hnodup.2.2 v (List.mem_append_left _ hpre) v List.mem_cons_self rfl
    · exact hnodup.2.2 w (hm.fed_before hff horder hedge) w List.mem_cons_self rfl
  · exact ((slot_cases h.laid).1 r hr _ hkr).2 u hu hslot

/-- **Solving the next unit settles it and leaves the others settled.** -/
theorem Passed.step (hm : m.Sound) (h : IsSetUp m start) (hff : m.FeedForward)
    (hf : ∀ c ∈ m.units, c.Computes (f c.name)) {done post : List Nat} {u : Nat}
    (horder : start.order = done ++ u :: post) (ha : Passed m f start base done a)
    {c : Component α} (hu : m.units[u]? = some c) :
    Passed m f start base (done ++ [u]) ((a.transfer (start.arrangement.unit u)).withOutputs
      (start.arrangement.unit u) (f c.name (received start.arrangement u a.store.slots))) := by
  obtain ⟨c', hc', halike, hhosts⟩ := h.hosts hm ha.follows hu
  have hsize := ((hf c (Array.mem_of_getElem? hu)).alike halike).size
    (hhosts.size_received a.store.slots)
  obtain ⟨y, hy⟩ : ∃ y, f c.name (received start.arrangement u a.store.slots) = y := ⟨_, rfl⟩
  rw [hy] at hsize ⊢
  have hkeeps : ∀ k, k ∉ (start.arrangement.unit u).outputs →
      entry (splice a.store.slots (start.arrangement.unit u).outputs y) k =
        entry a.store.slots k := fun k hk => entry_splice_of_notMem hk
  have hreceived : ∀ w, w ∈ done ∨ w = u →
      received start.arrangement w
        (splice a.store.slots (start.arrangement.unit u).outputs y) =
        received start.arrangement w a.store.slots := fun w hw =>
    received_congr fun route hroute => hkeeps _ (h.unread hm hff horder hw hroute)
  have hu' : u ∈ start.order := by simp [horder]
  refine ⟨.trans _ _ _ ha.follows (.trans _ _ _ (a.follows_transfer _)
    (follows_withOutputs _ _ _)), fun w hw cw hcw => ?_, fun r hr k hk => ?_⟩
  · rcases List.mem_append.1 hw with hw | hw
    · have hapart : (done ++ u :: post).Pairwise (Apart start.arrangement) :=
        horder ▸ h.pairwise_apart hm
      have hwu := (List.pairwise_append.1 hapart).2.2 w hw u List.mem_cons_self
      calc slice (splice a.store.slots (start.arrangement.unit u).outputs y)
            (start.arrangement.unit w).outputs
          = slice a.store.slots (start.arrangement.unit w).outputs :=
            slice_congr fun k hk => hkeeps k (hwu.outputs k hk)
        _ = f cw.name (received start.arrangement w a.store.slots) := ha.settled w hw cw hcw
        _ = f cw.name (received start.arrangement w
              (splice a.store.slots (start.arrangement.unit u).outputs y)) := by
            rw [hreceived w (.inl hw)]
    · obtain rfl := List.mem_singleton.1 hw
      obtain rfl : c = cw := Option.some.inj (hu.symm.trans hcw)
      calc slice (splice a.store.slots (start.arrangement.unit w).outputs y)
            (start.arrangement.unit w).outputs
          = y := slice_splice_self (hsize.trans hhosts.fits.size_outputs.symm) hhosts.outputs_le
        _ = f c.name (received start.arrangement w a.store.slots) := hy.symm
        _ = f c.name (received start.arrangement w
              (splice a.store.slots (start.arrangement.unit w).outputs y)) := by
            rw [hreceived w (.inr rfl)]
  · exact (hkeeps k (((slot_cases h.laid).1 r hr k hk).2 u hu')).trans (ha.kept r hr k hk)

/-! ### Blocks of one unit -/

/-- A block of one unit that is swept once. -/
structure Sweeps (l : Arrangement α) (b : SolverBlock α) (u : Nat) : Prop where
  unitIds : b.unitIds = [u]
  range : b.range = (l.unit u).outputs
  options : b.options = .default

/-- Under default options a group of one explicit unit that is not coupled is swept once. -/
theorem sweeps_blockOf (hoptions : m.options = .default) (l : Arrangement α) {g : Group} {u : Nat}
    {c : Component α} (hg : g.unitIds = [u]) (hcoupled : g.coupled = false)
    (hu : m.units[u]? = some c) (hc : c.isImplicit = false) : Sweeps l (m.blockOf l g) u := by
  refine ⟨hg, ?_, ?_⟩
  · show spanOf l g.unitIds = _
    rw [hg]
    rfl
  · show m.solversFor g = _
    simp [solversFor, hoptions, SolverOptions.default, hg, hu, defaultSolvers, hcoupled,
      solvesItself, hc]

theorem forall₂_of_singletons {R : Group → Nat → Prop} {gs : List Group}
    (h : ∀ g ∈ gs, ∃ u, g.unitIds = [u] ∧ R g u) :
    List.Forall₂ R gs (gs.map Group.unitIds).flatten := by
  induction gs with
  | nil => exact .nil
  | cons g gs ih =>
    obtain ⟨u, hu, hR⟩ := h g List.mem_cons_self
    rw [List.map_cons, List.flatten_cons, hu]
    exact .cons hR (ih fun g' hg' => h g' (List.mem_cons_of_mem _ hg'))

/-- **The blocks of a model without coupled blocks** are its units in execution order, each swept
once. -/
theorem IsSetUp.sweeps (hm : m.Sound) (h : IsSetUp m start) (hoptions : m.options = .default)
    (hff : m.FeedForward) (hexplicit : ∀ c ∈ m.units, c.isImplicit = false) :
    List.Forall₂ (Sweeps start.arrangement) start.blocks.toList start.order := by
  obtain ⟨gs, hgs, hblocks⟩ := h.blocks
  obtain ⟨gs', hgs', hids, hsingle⟩ := hm.groups_eq
  obtain rfl : gs' = gs := Except.ok.inj (hgs'.symm.trans hgs)
  have hroot : m.options.root.isSome = false := by
    rw [hoptions]
    rfl
  have hcoupled : ∀ g ∈ gs', g.coupled = false := by
    intro g hg
    have hmem : g.coupled ∈ gs'.map Group.coupled := List.mem_map.2 ⟨g, hg, rfl⟩
    rw [map_coupled_groupsOf hgs] at hmem
    obtain ⟨b, hb, heq⟩ := List.mem_map.1 hmem
    rw [← heq]
    exact hff b hb
  rw [hblocks, hroot, h.order, ← hids]
  refine List.forall₂_map_left_iff.2 (forall₂_of_singletons fun g hg => ?_)
  obtain ⟨u, hu, -⟩ := hsingle g hg (hcoupled g hg)
  have hmem : u ∈ m.placedUnits.flatten := by
    rw [← hids]
    exact List.mem_flatten.2 ⟨g.unitIds, List.mem_map.2 ⟨g, hg, rfl⟩, by simp [hu]⟩
  have hlt : u < m.units.size := List.mem_range.1 (hm.isExecutionOrder.perm.mem_iff.1 hmem)
  exact ⟨u, hu, sweeps_blockOf hoptions _ hu (hcoupled g hg) (Array.getElem?_eq_getElem hlt)
    (hexplicit _ (Array.getElem_mem hlt))⟩

end Pass

end Model

/-! ### Running -/

namespace Problem

open Assembly Model

variable [ExactScalar α] {m : Model α} {start p : Problem α} {base : Array α}
  {f : String → Array α → Array α}

/-- The report of a block that one sweep has solved exactly. -/
def exactReport (name : String) : BlockReport α := ⟨name, "run_once", ⟨.converged, 1, 0, 0⟩⟩

/-- **Evaluating a unit that is settled** leaves no residuals, and the slots as they are. -/
theorem evaluate_settled (hm : m.Sound) (h : IsSetUp m start)
    (hf : ∀ c ∈ m.units, c.Computes (f c.name)) {a : Assembly α} (ha : start.assembly.Follows a)
    {u : Nat} {c : Component α} (hu : m.units[u]? = some c)
    (hsettled : m.Settled f start.arrangement a.store.slots u) :
    ∃ a', Assembly.evaluateAll start.arrangement [u] a = .ok () a' ∧ a.Follows a' ∧
      a'.store.slots = a.store.slots ∧
      Vec.norm (slice a'.store.residuals (start.arrangement.unit u).outputs) = 0 := by
  obtain ⟨c', hc', halike, hhosts⟩ := h.hosts hm ha hu
  have hcomputes := (hf c (Array.mem_of_getElem? hu)).alike halike
  obtain ⟨a', ha'⟩ : ∃ a', Assembly.evaluateAll start.arrangement [u] a = .ok () a' :=
    evaluateAll_ok fun w hw => by
      obtain rfl := List.mem_singleton.1 hw
      exact ⟨c', hc', hhosts, fun x y r hx hy hr => ⟨_, hcomputes.residuals_eq hx hy hr⟩⟩
  have hevaluated := evaluateAll_spec (fun w hw => by
    obtain rfl := List.mem_singleton.1 hw
    exact ⟨c', hc', hhosts⟩) (List.pairwise_singleton _ _) ha'
  obtain ⟨r, hr, hresiduals⟩ := hevaluated.residuals u List.mem_cons_self c' hc'
  have houtputs : (a.outputsOf (start.arrangement.unit u)).size = c'.outputs.size := by
    rw [outputsOf, size_slice, hhosts.fits.size_outputs]
  rw [hcomputes.residuals_eq (hhosts.size_received _) houtputs hr] at hresiduals
  -- what the unit computes is what its outputs are
  have hzero : a'.residualsOf (start.arrangement.unit u) =
      Vec.sub (a.outputsOf (start.arrangement.unit u)) (a.outputsOf (start.arrangement.unit u)) := by
    rw [← (EStateM.Result.ok.inj hresiduals).2, ← hsettled c hu]
    rfl
  refine ⟨a', ha', hevaluated.follows, hevaluated.slots, norm_eq_zero fun k hk => ?_⟩
  change entry (a'.residualsOf (start.arrangement.unit u)) k = 0
  have hk' : k < (a.outputsOf (start.arrangement.unit u)).size := by
    rw [houtputs, ← hhosts.fits.size_outputs]
    simpa using hk
  rw [hzero, Vec.sub, entry_zipWith _ _ _ _ hk' hk', sub_self]

/-- **Solving a block of one unit** solves the unit, and the residuals of the block are zero. -/
theorem solve_single (hm : m.Sound) (h : IsSetUp m start) (hff : m.FeedForward)
    (hf : ∀ c ∈ m.units, c.Computes (f c.name)) {done post : List Nat} {u : Nat}
    (horder : start.order = done ++ u :: post) {a : Assembly α}
    (ha : Passed m f start base done a) {b : SolverBlock α}
    (hb : Sweeps start.arrangement b u) (strict : Option α) {ω : Type} (j : Option (Jacobian α))
    (mem : LinearMemory α) (w : ω) :
    ∃ a', RunOnce.solve (b.system start.arrangement strict) ⟨⟨a, j⟩, mem, w⟩ =
        .ok ⟨.converged, 1, 0, 0⟩ ⟨⟨a', j⟩, mem, w⟩ ∧ Passed m f start base (done ++ [u]) a' := by
  have hlt : u < m.units.size := by
    refine List.mem_range.1 ((h.perm hm).mem_iff.1 ?_)
    simp [horder]
  have hu := Array.getElem?_eq_getElem hlt
  obtain ⟨c, hc, halike, hhosts⟩ := h.hosts hm ha.follows hu
  have hcomputes := (hf _ (Array.getElem_mem hlt)).alike halike
  -- the sweep
  have hsolve := solve_eq hc hhosts hcomputes
  have hpassed := ha.step hm h hff hf horder hu
  generalize (a.transfer (start.arrangement.unit u)).withOutputs (start.arrangement.unit u)
    (f m.units[u].name (received start.arrangement u a.store.slots)) = a1 at hsolve hpassed
  -- the residuals
  obtain ⟨a2, ha2, hfollows, hslots, hnorm⟩ :=
    evaluate_settled hm h hf hpassed.follows hu (hpassed.settled u (by simp))
  have hguess : SolverBlock.State.lift (guessAll start.arrangement b.unitIds) ⟨a, j⟩ =
      .ok () ⟨a, j⟩ := by
    simp only [SolverBlock.State.lift, hb.unitIds, guessAll_eq hc hcomputes]
  have hsweep : SolverBlock.State.lift (solveAll start.arrangement b.unitIds) ⟨a, j⟩ =
      .ok () ⟨a1, j⟩ := by
    have hall : solveAll start.arrangement [u] a = .ok () a1 := bind_of_ok _ hsolve
    simp only [SolverBlock.State.lift, hb.unitIds, hall]
  refine ⟨a2, RunOnce.solve_eq hguess hsweep ?_ (hb.range ▸ hnorm), hpassed.of_slots hfollows hslots⟩
  show b.residuals start.arrangement ⟨a1, j⟩ = _
  simp only [SolverBlock.residuals, hb.unitIds, ha2]

/-- What is told from the outlines of blocks does not change. -/
theorem Follows.outline_blocks (hp : start.Follows p) :
    p.blocks.toList.map SolverBlock.outline = start.blocks.toList.map SolverBlock.outline := by
  rw [← Array.toList_map, hp.blocks, Array.toList_map]

theorem Follows.name_blocks (hp : start.Follows p) :
    p.blocks.toList.map SolverBlock.name = start.blockNames := by
  have hmap := congrArg (List.map SolverBlock.name) hp.outline_blocks
  rw [List.map_map, List.map_map] at hmap
  exact hmap

/-- Blocks that are swept once are so however the problem has been used. -/
theorem Follows.sweeps (hp : start.Follows p) {l : Arrangement α} {us : List Nat}
    (h : List.Forall₂ (Sweeps l) start.blocks.toList us) :
    List.Forall₂ (Sweeps l) p.blocks.toList us := by
  have hsame : ∀ (b : SolverBlock α) (u : Nat), Sweeps l b.outline u ↔ Sweeps l b u := fun b u =>
    ⟨fun ⟨h1, h2, h3⟩ => ⟨h1, h2, h3⟩, fun ⟨h1, h2, h3⟩ => ⟨h1, h2, h3⟩⟩
  have hlift : ∀ bs : List (SolverBlock α), List.Forall₂ (Sweeps l) (bs.map SolverBlock.outline) us ↔
      List.Forall₂ (Sweeps l) bs us := fun bs => by
    rw [List.forall₂_map_left_iff]
    simp only [hsame]
  rw [← hlift, hp.outline_blocks, hlift]
  exact h

/-- **All units can be evaluated**, whatever the values, and then their inputs are what they receive. -/
theorem evaluateAll_computes (hm : m.Sound) (h : IsSetUp m start)
    (hf : ∀ c ∈ m.units, c.Computes (f c.name)) {a : Assembly α} (ha : start.assembly.Follows a) :
    ∃ a', Assembly.evaluateAll start.arrangement start.order a = .ok () a' ∧ a.Follows a' ∧
      a'.store.slots = a.store.slots ∧ ∀ u < m.units.size,
        a'.inputsOf (start.arrangement.unit u) = received start.arrangement u a'.store.slots := by
  have hunit : ∀ u < m.units.size, ∃ c, a.units[u]? = some c ∧
      a.Hosts (start.arrangement.unit u) c ∧
      ∀ x y r, x.size = c.inputs.size → y.size = c.outputs.size → r.size = c.outputs.size →
        ∃ r', c.residuals x y r = .ok ⟨⟩ r' := by
    intro u hu
    obtain ⟨c, hc, halike, hhosts⟩ := h.hosts hm ha (Array.getElem?_eq_getElem hu)
    exact ⟨c, hc, hhosts, fun x y r hx hy hr =>
      ⟨_, ((hf _ (Array.getElem_mem hu)).alike halike).residuals_eq hx hy hr⟩⟩
  have hmem : ∀ {u}, u ∈ start.order ↔ u < m.units.size := fun {u} =>
    (h.perm hm).mem_iff.trans List.mem_range
  obtain ⟨a', ha'⟩ := evaluateAll_ok fun u hu => hunit u (hmem.1 hu)
  have hevaluated := h.evaluated hm ha ha'
  refine ⟨a', ha', hevaluated.follows, hevaluated.slots, fun u hu => ?_⟩
  have hsize : u < a.units.size := by
    obtain ⟨c, hc, -⟩ := hunit u hu
    exact (Array.getElem?_eq_some_iff.1 hc).1
  have hinputs := hevaluated.inputs u (hmem.2 hu) hsize
  rwa [← hevaluated.slots] at hinputs

section Observed

variable {ω : Type} (observer : Observer (NonlinearEvent α) ω) (w : ω)

theorem runBlock_single (hm : m.Sound) (h : IsSetUp m start) (hff : m.FeedForward)
    (hf : ∀ c ∈ m.units, c.Computes (f c.name)) {done post : List Nat} {u : Nat}
    (horder : start.order = done ++ u :: post) (hp : start.Follows p)
    (ha : Passed m f start base done p.assembly) {b : SolverBlock α}
    (hb : Sweeps start.arrangement b u) (k : Nat) :
    ∃ q, runBlock observer k b (p, w) = .ok (exactReport b.name) (q, w) ∧ start.Follows q ∧
      Passed m f start base (done ++ [u]) q.assembly := by
  obtain ⟨a, hsolve, hpassed⟩ :=
    solve_single hm h hff hf horder ha hb p.options.strictPartials b.jacobian b.memory w
  have hrun : runBlock observer k b (p, w) = .ok (exactReport b.name)
      (p.afterBlock k ⟨⟨a, b.jacobian⟩, b.memory, w⟩) := by
    have hconfig : b.options.nonlinear = .runOnce := by
      rw [hb.options]
      rfl
    simp only [runBlock, hconfig, NonlinearConfig.solve, NonlinearConfig.solveWith, hp.arrangement, hsolve]
    rfl
  have hfollows := follows_runBlock observer k b (p, w)
  rw [hrun] at hfollows
  exact ⟨_, hrun, .trans _ _ _ hp hfollows, hpassed⟩

/-- **Running blocks of one unit each**, in execution order, settles their units. -/
theorem runBlocks_single (hm : m.Sound) (h : IsSetUp m start) (hff : m.FeedForward)
    (hf : ∀ c ∈ m.units, c.Computes (f c.name)) {done us : List Nat}
    {bs : List (SolverBlock α × Nat)} (horder : start.order = done ++ us)
    (hp : start.Follows p) (ha : Passed m f start base done p.assembly)
    (hbs : List.Forall₂ (Sweeps start.arrangement) (bs.map Prod.fst) us) :
    ∃ q, runBlocks observer bs (p, w) = .ok (bs.map fun b => exactReport b.1.name) (q, w) ∧
      start.Follows q ∧ Passed m f start base start.order q.assembly := by
  induction bs generalizing p done us with
  | nil =>
    cases hbs
    rw [List.append_nil] at horder
    exact ⟨p, rfl, hp, horder ▸ ha⟩
  | cons b bs ih =>
    obtain ⟨b, k⟩ := b
    cases hbs with
    | cons hb hrest =>
      rename_i u us
      obtain ⟨p1, hrun, hp1, ha1⟩ := runBlock_single observer w hm h hff hf horder hp ha hb k
      obtain ⟨q, hq, hfollows, hpassed⟩ :=
        ih (by rw [horder, List.append_assoc, List.singleton_append]) hp1 ha1 hrest
      refine ⟨q, ?_, hfollows, hpassed⟩
      rw [runBlocks, bind_of_ok _ hrun, bind_of_ok _ hq]
      rfl

/-- **One pass settles a model without coupled blocks**, from any values. -/
theorem run_of_follows (hm : m.Sound) (h : IsSetUp m start) (hoptions : m.options = .default)
    (hff : m.FeedForward) (hf : ∀ c ∈ m.units, c.Computes (f c.name)) (hp : start.Follows p) :
    ∃ q, runObserved observer (p, w) = .ok ⟨start.blockNames.map exactReport⟩ (q, w) ∧
      start.Follows q ∧ Passed m f start p.store.slots start.order q.assembly ∧
      ∀ u < m.units.size, q.assembly.inputsOf (start.arrangement.unit u) =
        received start.arrangement u q.store.slots := by
  have hexplicit : ∀ c ∈ m.units, c.isImplicit = false := fun c hc => (hf c hc).isImplicit
  have hsweeps := hp.sweeps (h.sweeps hm hoptions hff hexplicit)
  have hnone : Passed m f start p.store.slots [] p.assembly :=
    ⟨hp.assembly, by simp, fun _ _ _ _ => rfl⟩
  rw [← List.zipIdx_map_fst 0 p.blocks.toList] at hsweeps
  obtain ⟨q, hq, hfollows, hpassed⟩ :=
    runBlocks_single observer w hm h hff hf (List.nil_append _).symm hp hnone hsweeps
  obtain ⟨a, ha, hfollows', hslots, hinputs⟩ := evaluateAll_computes hm h hf hpassed.follows
  refine ⟨{ q with assembly := a }, ?_, .trans _ _ _ hfollows (.of_assembly q hfollows'),
    hpassed.of_slots hfollows' hslots, hinputs⟩
  have hreports : p.blocks.toList.zipIdx.map (fun b => exactReport (α := α) b.1.name) =
      start.blockNames.map exactReport := by
    rw [← hp.name_blocks, List.map_map]
    conv_rhs => rw [← List.zipIdx_map_fst 0 p.blocks.toList, List.map_map]
    rfl
  simp only [runObserved, hq, evaluateAll, onAssembly, hfollows.arrangement, hfollows.order, ha,
    hreports]

end Observed

end Problem

end Mdao
