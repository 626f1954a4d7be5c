import Mdao.Proofs.Model.Determined
import Mdao.Proofs.Model.Indistinct
import Mdao.Proofs.Model.Restored

/-!
# A problem has no hidden state

The slots of a problem are all that later calls see of earlier ones: if they are equal in two problems
that come from the same model, then runs and totals give equal results in both
(`Problem.no_hidden_state`), whatever has been done with the problems and whatever has failed. What a
problem remembers besides, from inputs and residuals to derivatives, Jacobians and factors, is written
again before it is read.
-/

namespace Mdao

open Vec

variable {α : Type} [Scalar α]

/-- Vectors with the same slice have the same entries there. -/
theorem Vec.entry_eq_of_slice_eq {x y : Array α} {r : Span} {k : Nat} (h : slice x r = slice y r)
    (hk : k ∈ r) : entry x k = entry y k := by
  have hentry := congrArg (fun z => entry z (k - r.start)) h
  simpa only [entry_slice, Span.sub_start_lt hk, Span.start_add_sub hk, if_true] using hentry

namespace Problem

open Assembly Model SolverBlock

/-- Two problems that come from the same one by use, with the same slots. -/
structure Indistinct (start p q : Problem α) : Prop where
  left : start.Aged p
  right : start.Aged q
  slots : q.store.slots = p.store.slots

/-- Two problems with an observer each, which are the same. -/
def IndistinctBeside {ω : Type} (start : Problem α) (s t : Problem α × ω) : Prop :=
  Indistinct start s.1 t.1 ∧ t.2 = s.2

theorem Indistinct.assembly {start p q : Problem α} (h : Indistinct start p q) :
    Assembly.Indistinct start.arrangement start.order start.assembly p.assembly q.assembly :=
  ⟨h.left.assembly, h.right.assembly, h.slots⟩

variable [Shown α] {m : Model α} {start p q : Problem α}

omit [Shown α] in
/-- The units of a problem that is set up have places of their own. -/
theorem regular_start (hm : m.Sound) (h : IsSetUp m start)
    (hwrites : ∀ c ∈ m.units, c.WritesResiduals) (hafresh : ∀ c ∈ m.units, c.LinearizesAfresh) :
    Regular start.arrangement start.order start.assembly := by
  have hlt : ∀ u ∈ start.order, u < m.units.size := fun u hu =>
    List.mem_range.1 ((h.perm hm).mem_iff.1 hu)
  refine ⟨hosts_start hm h, ?_, ?_, fun u hu => ?_, fun u hu w hw hne => ?_⟩
  · rw [h.units]
    exact hwrites
  · rw [h.units]
    exact hafresh
  · rw [h.units]
    exact hlt u hu
  · exact h.apart hm (hlt w hw) (hlt u hu) hne

/-- A block but for what its solvers remember. -/
structure Remakes (b₀ b : SolverBlock α) : Prop where
  name : b.name = b₀.name
  options : b.options = b₀.options
  system : b.system = b₀.system
  hasBuilt : b.HasBuilt = b₀.HasBuilt

omit [Shown α] in
theorem remakes_of_outline {b₀ b : SolverBlock α} (h : b.outline = b₀.outline) : Remakes b₀ b := by
  cases b
  cases b₀
  simp only [SolverBlock.outline, SolverBlock.mk.injEq] at h
  obtain ⟨rfl, rfl, rfl, rfl, rfl, rfl, rfl, -⟩ := h
  exact ⟨rfl, rfl, rfl, rfl⟩

omit [Shown α] in
/-- A block of a problem that is used is one of the problem that was set up. -/
theorem Aged.exists_block (hp : start.Aged p) {k : Nat} {b : SolverBlock α}
    (hb : p.blocks[k]? = some b) : ∃ b₀, start.blocks[k]? = some b₀ ∧ Remakes b₀ b := by
  have hk := congrArg (fun bs => bs[k]?) hp.follows.blocks
  simp only [Array.getElem?_map, hb, Option.map_some] at hk
  obtain ⟨b₀, hb₀, houtline⟩ := Option.map_eq_some_iff.1 hk.symm
  exact ⟨b₀, hb₀, remakes_of_outline houtline.symm⟩

/-- A block of a problem that is set up has a part for its own units only. -/
theorem within_start (hm : m.Sound) (h : IsSetUp m start) {b : SolverBlock α}
    (hb : b ∈ start.blocks) : b.Within start.arrangement start.order := by
  have hsub := h.unitIds_sublist hm hb
  have hnodup := (h.perm hm).nodup_iff.2 List.nodup_range
  refine ⟨h.fitsBlock hm hb, fun u hu => hsub.subset hu, hsub.nodup hnodup, ?_⟩
  obtain ⟨g, rfl⟩ := h.eq_blockOf hb
  exact fun part hpart u => Part.mem_of_partition hpart

/-! ### Blocks -/

section Runs

variable {ω : Type} (hm : m.Sound) (h : IsSetUp m start)
  (hwrites : ∀ c ∈ m.units, c.WritesResiduals) (hafresh : ∀ c ∈ m.units, c.LinearizesAfresh)
  (hcold : ∀ b ∈ start.blocks, b.options.linear.IsCold) (observer : Observer (NonlinearEvent α) ω)

include hm h hwrites hafresh hcold

/-- **The solve of a block goes the same way** in problems with the same slots. -/
theorem runBlock_agrees {k : Nat} {b b' : SolverBlock α} {s t : Problem α × ω}
    (hst : IndistinctBeside start s t) (hb : s.1.blocks[k]? = some b)
    (hb' : t.1.blocks[k]? = some b') :
    Agree (IndistinctBeside start) (IndistinctBeside start) (runBlock observer k b s)
      (runBlock observer k b' t) := by
  obtain ⟨p, w⟩ := s
  obtain ⟨q, w'⟩ := t
  obtain ⟨hpq, rfl : w' = w⟩ := hst
  have haged := ((keptByUse_aged hm h).runBlock observer k b p w' hb).2 hpq.left
  have haged' := ((keptByUse_aged hm h).runBlock observer k b' q w' hb').2 hpq.right
  have hslots : Agree (fun s t : Problem α × ω => t.1.store.slots = s.1.store.slots ∧ t.2 = s.2)
      (fun s t => t.1.store.slots = s.1.store.slots ∧ t.2 = s.2)
      (runBlock observer k b (p, w')) (runBlock observer k b' (q, w')) := by
    obtain ⟨b₀, hb₀, hremakes⟩ := hpq.left.exists_block hb
    obtain ⟨b₀', hb₀', hremakes'⟩ := hpq.right.exists_block hb'
    obtain rfl := Option.some.inj (hb₀.symm.trans hb₀')
    have hmem := Array.mem_of_getElem? hb₀
    have hbuilt := hpq.left.blocks b (Array.mem_of_getElem? hb)
    have hbuilt' := hpq.right.blocks b' (Array.mem_of_getElem? hb')
    rw [hremakes.hasBuilt] at hbuilt
    rw [hremakes'.hasBuilt] at hbuilt'
    have hrespects := respects (regular_start hm h hwrites hafresh) (within_start hm h hmem)
      start.options.strictPartials
    have hsolve := hrespects.solve observer b₀.options.nonlinear (hcold b₀ hmem)
      (s := ⟨⟨p.assembly, b.jacobian⟩, b.memory, w'⟩)
      (t := ⟨⟨q.assembly, b'.jacobian⟩, b'.memory, w'⟩)
      ⟨⟨hpq.assembly, hbuilt, hbuilt'⟩, trivial, rfl⟩
    unfold runBlock
    dsimp only
    rw [hremakes.system, hremakes'.system, hremakes.options, hremakes'.options, hremakes.name,
      hremakes'.name, hpq.left.follows.arrangement, hpq.right.follows.arrangement,
      hpq.left.follows.options, hpq.right.follows.options]
    revert hsolve
    generalize NonlinearConfig.solve b₀.options.linear
      (b₀.system start.arrangement start.options.strictPartials) observer b₀.options.nonlinear
      (⟨⟨p.assembly, b.jacobian⟩, b.memory, w'⟩ : Solving α (SolverBlock.State α) ω) = r
    generalize NonlinearConfig.solve b₀.options.linear
      (b₀.system start.arrangement start.options.strictPartials) observer b₀.options.nonlinear
      (⟨⟨q.assembly, b'.jacobian⟩, b'.memory, w'⟩ : Solving α (SolverBlock.State α) ω) = r'
    rintro (⟨solution, hst⟩ | ⟨e, hst⟩)
    · exact .ok _ ⟨hst.system.assembly.slots, hst.watch.symm⟩
    · exact .error _ ⟨hst.system.assembly.slots, hst.watch.symm⟩
  exact ((hslots.and (P := fun s => start.Aged s.1) haged haged').mono
    (fun _ _ h => ⟨⟨h.2.1, h.2.2, h.1.1⟩, h.1.2⟩) fun _ _ h => ⟨⟨h.2.1, h.2.2, h.1.1⟩, h.1.2⟩)

/-- **The solves of blocks go the same way**, one after the other. -/
theorem runBlocks_agrees {bs cs : List (SolverBlock α × Nat)}
    (hnumbers : cs.map Prod.snd = bs.map Prod.snd) (hnodup : (bs.map Prod.snd).Nodup)
    {s t : Problem α × ω} (hst : IndistinctBeside start s t)
    (hbs : ∀ e ∈ bs, s.1.blocks[e.2]? = some e.1) (hcs : ∀ e ∈ cs, t.1.blocks[e.2]? = some e.1) :
    Agree (IndistinctBeside start) (IndistinctBeside start) (runBlocks observer bs s)
      (runBlocks observer cs t) := by
  induction bs generalizing cs s t with
  | nil =>
    obtain rfl := List.map_eq_nil_iff.1 hnumbers
    exact .ok [] hst
  | cons e bs ih =>
    obtain ⟨e', cs, rfl, hnumber, hrest⟩ := List.map_eq_cons_iff.1 hnumbers
    obtain ⟨b, k⟩ := e
    obtain ⟨b', k'⟩ := e'
    obtain rfl : k' = k := hnumber
    rw [List.map_cons, List.nodup_cons] at hnodup
    have hfirst := runBlock_agrees hm h hwrites hafresh hcold observer hst
      (hbs (b, k') List.mem_cons_self) (hcs (b', k') List.mem_cons_self)
    -- the blocks that are still to be solved are as they were
    have hothers : ∀ (d : SolverBlock α) (s : Problem α × ω) {ds : List (SolverBlock α × Nat)},
        k' ∉ ds.map Prod.snd → (∀ e ∈ ds, s.1.blocks[e.2]? = some e.1) →
        ∀ e ∈ ds, (stateAfter (runBlock observer k' d s)).1.blocks[e.2]? = some e.1 := by
      intro d s ds hfresh hds e he
      rw [getElem?_blocks_runBlock observer k' d s.1 s.2
        fun heq => hfresh (List.mem_map.2 ⟨e, he, heq⟩)]
      exact hds e he
    have hleft := hothers b s hnodup.1 fun e he => hbs e (List.mem_cons_of_mem _ he)
    have hright := hothers b' t (hrest ▸ hnodup.1) fun e he => hcs e (List.mem_cons_of_mem _ he)
    have hremain : Agree (fun s t => IndistinctBeside start s t ∧
        (∀ e ∈ bs, s.1.blocks[e.2]? = some e.1) ∧ ∀ e ∈ cs, t.1.blocks[e.2]? = some e.1)
        (IndistinctBeside start) (runBlock observer k' b s) (runBlock observer k' b' t) := by
      refine hfirst.of_ok fun _ s' t' hs ht hst' => ?_
      rw [hs] at hleft
      rw [ht] at hright
      exact ⟨hst', hleft, hright⟩
    unfold runBlocks
    refine .bind hremain fun report s' t' hst' => ?_
    refine .bind (ih hrest hnodup.2 hst'.1 hst'.2.1 hst'.2.2) fun others s' t' hst' => ?_
    exact .ok _ hst'

end Runs

/-! ### Steps on all units -/

section Steps

variable (hm : m.Sound) (h : IsSetUp m start) (hwrites : ∀ c ∈ m.units, c.WritesResiduals)
  (hafresh : ∀ c ∈ m.units, c.LinearizesAfresh)

omit [Shown α] in
/-- Values are equal that have the same slots, the same inputs and residuals of each unit, and come
from the same values. -/
theorem Indistinct.store_eq (hlaid : Laid m start.order start.store start.arrangement)
    (hperm : start.order.Perm (List.range m.units.size)) (hpq : Indistinct start p q)
    (hunits : ∀ u ∈ start.order,
      q.assembly.inputsOf (start.arrangement.unit u) =
        p.assembly.inputsOf (start.arrangement.unit u) ∧
      q.assembly.residualsOf (start.arrangement.unit u) =
        p.assembly.residualsOf (start.arrangement.unit u)) : q.store = p.store := by
  have hshape : p.store.SameShape q.store :=
    hpq.left.follows.assembly.store.symm.trans hpq.right.follows.assembly.store
  have hresiduals : q.store.residuals = p.store.residuals := by
    refine ext_entry hshape.residuals fun k _ => ?_
    by_cases hk : ∃ u ∈ start.order, k ∈ (start.arrangement.unit u).outputs
    · obtain ⟨u, hu, hk⟩ := hk
      exact entry_eq_of_slice_eq (hunits u hu).2 hk
    · push Not at hk
      exact (hpq.right.assembly.residuals k hk).trans (hpq.left.assembly.residuals k hk).symm
  have hinputs : q.store.inputs = p.store.inputs := by
    refine ext_entry hshape.inputs fun k hk => ?_
    replace hk := hpq.right.follows.assembly.store.inputs ▸ hk
    obtain ⟨r, hr, hkr⟩ := hlaid.inputTiles.cover (Nat.zero_le k) hk
    obtain ⟨u, hu, rfl⟩ := List.mem_map.1 hr
    exact entry_eq_of_slice_eq (hunits u (hperm.mem_iff.2 hu)).1 hkr
  have hslots := hpq.slots
  have hentries := hshape.entries
  generalize q.store = s at *
  generalize p.store = t at *
  cases s
  cases t
  simp_all

include hm h hwrites hafresh

/-- **Evaluating all units** makes problems with the same slots equal in all values. -/
theorem evaluateAll_agrees (hpq : Indistinct start p q) :
    Agree (fun p q => Indistinct start p q ∧ q.store = p.store) (Indistinct start) (evaluateAll p)
      (evaluateAll q) := by
  have haged := ((keptByUse_aged hm h).evaluateAll p).2 hpq.left
  have haged' := ((keptByUse_aged hm h).evaluateAll q).2 hpq.right
  have hnodup := (h.perm hm).nodup_iff.2 List.nodup_range
  have hall := Assembly.evaluateAll_agrees (regular_start hm h hwrites hafresh)
    (fun u (hu : u ∈ start.order) => hu) hnodup hpq.assembly
  have hvalues : Agree (fun p q : Problem α => q.store.slots = p.store.slots ∧
      ∀ u ∈ start.order,
        q.assembly.inputsOf (start.arrangement.unit u) =
          p.assembly.inputsOf (start.arrangement.unit u) ∧
        q.assembly.residualsOf (start.arrangement.unit u) =
          p.assembly.residualsOf (start.arrangement.unit u))
      (fun p q => q.store.slots = p.store.slots) (evaluateAll p) (evaluateAll q) := by
    unfold evaluateAll onAssembly
    rw [hpq.left.follows.arrangement, hpq.right.follows.arrangement, hpq.left.follows.order,
      hpq.right.follows.order]
    revert hall
    generalize Assembly.evaluateAll start.arrangement start.order p.assembly = r
    generalize Assembly.evaluateAll start.arrangement start.order q.assembly = r'
    rintro (⟨_, hst⟩ | ⟨e, hst⟩)
    · exact .ok () ⟨hst.1.slots, hst.2⟩
    · exact .error _ hst.slots
  refine (hvalues.and (P := start.Aged) haged haged').mono (fun s t hst => ?_)
    fun _ _ hst => ⟨hst.2.1, hst.2.2, hst.1⟩
  have hindistinct : Indistinct start s t := ⟨hst.2.1, hst.2.2, hst.1.1⟩
  exact ⟨hindistinct, hindistinct.store_eq h.laid (h.perm hm) hst.1.2⟩

/-- **Linearizing all units** makes the operators of problems with the same slots equal. -/
theorem linearizeAll_agrees (hpq : Indistinct start p q) :
    Agree (fun p q => Indistinct start p q ∧ q.totalOperator = p.totalOperator) (Indistinct start)
      (linearizeAll p) (linearizeAll q) := by
  have haged := ((keptByUse_aged hm h).linearizeAll p).2 hpq.left
  have haged' := ((keptByUse_aged hm h).linearizeAll q).2 hpq.right
  have hnodup := (h.perm hm).nodup_iff.2 List.nodup_range
  have hall := Assembly.linearizeAll_agrees (regular_start hm h hwrites hafresh)
    start.options.strictPartials (fun u (hu : u ∈ start.order) => hu) hnodup hpq.assembly
  have hvalues : Agree (fun p q : Problem α => q.store.slots = p.store.slots ∧
      ∀ u ∈ start.order,
        q.assembly.inputsOf (start.arrangement.unit u) =
          p.assembly.inputsOf (start.arrangement.unit u) ∧
        q.assembly.units[u]? = p.assembly.units[u]?)
      (fun p q => q.store.slots = p.store.slots) (linearizeAll p) (linearizeAll q) := by
    unfold linearizeAll onAssembly
    dsimp only
    rw [hpq.left.follows.arrangement, hpq.right.follows.arrangement, hpq.left.follows.order,
      hpq.right.follows.order, hpq.left.follows.options, hpq.right.follows.options]
    revert hall
    generalize Assembly.linearizeAll start.arrangement start.options.strictPartials start.order
      p.assembly = r
    generalize Assembly.linearizeAll start.arrangement start.options.strictPartials start.order
      q.assembly = r'
    rintro (⟨_, hst⟩ | ⟨e, hst⟩)
    · exact .ok () ⟨hst.1.slots, hst.2⟩
    · exact .error _ hst.slots
  have hjacobian : start.JacobianIsBuilt := fun j hj => by
    rw [h.jacobian] at hj
    cases hj
  refine ((hvalues.and (P := start.Aged) haged haged').mono (fun _ _ => id)
    fun _ _ hst => ⟨hst.2.1, hst.2.2, hst.1⟩).of_ok fun _ s t hs ht hst => ?_
  obtain ⟨⟨hslots, hunits⟩, hleft, hright⟩ := hst
  refine ⟨⟨hleft, hright, hslots⟩, ?_⟩
  have hs := (linearizeAll_spec p).2 _ s hs (hpq.left.follows.jacobian hjacobian)
  have ht := (linearizeAll_spec q).2 _ t ht (hpq.right.follows.jacobian hjacobian)
  unfold totalOperator
  rw [hs, ht, hleft.follows.arrangement, hright.follows.arrangement, hleft.follows.order,
    hright.follows.order, hleft.follows.parts, hright.follows.parts,
    Jacobian.build_congr fun u hu => (hunits u hu).2]
  refine Part.operator_congr _ (fun u hu => (hunits u hu).2) (fun u hu => (hunits u hu).1) hslots ?_
  rw [h.parts]
  exact fun part hpart u => Part.mem_of_partition hpart

end Steps

/-! ### Runs and totals -/

section History

variable (hm : m.Sound) (h : IsSetUp m start) (hwrites : ∀ c ∈ m.units, c.WritesResiduals)
  (hafresh : ∀ c ∈ m.units, c.LinearizesAfresh)

include hm h hwrites hafresh

/-- A run gives equal results in problems with the same slots, and equal values if it succeeds. -/
theorem runObserved_agrees (hcold : ∀ b ∈ start.blocks, b.options.linear.IsCold) {ω : Type}
    (observer : Observer (NonlinearEvent α) ω) (hpq : Indistinct start p q) (w : ω) :
    Agree (fun s t => t.1.store = s.1.store ∧ t.2 = s.2)
      (fun s t => t.1.store.slots = s.1.store.slots ∧ t.2 = s.2)
      (runObserved observer (p, w)) (runObserved observer (q, w)) := by
  have hsize : q.blocks.toList.length = p.blocks.toList.length := by
    simpa using congrArg Array.size
      (hpq.right.follows.blocks.trans hpq.left.follows.blocks.symm)
  have hat : ∀ p : Problem α, ∀ e ∈ p.blocks.toList.zipIdx, p.blocks[e.2]? = some e.1 :=
    fun p e he => by
      rw [← Array.getElem?_toList]
      exact List.mem_zipIdx_iff_getElem?.1 he
  have hnumbers : q.blocks.toList.zipIdx.map Prod.snd = p.blocks.toList.zipIdx.map Prod.snd := by
    rw [List.zipIdx_map_snd, List.zipIdx_map_snd, hsize]
  have hnodup : (p.blocks.toList.zipIdx.map Prod.snd).Nodup := by
    rw [List.zipIdx_map_snd]
    exact List.nodup_range'
  have hblocks := runBlocks_agrees hm h hwrites hafresh hcold observer hnumbers hnodup
    (s := (p, w)) (t := (q, w)) ⟨hpq, rfl⟩ (hat p) (hat q)
  unfold runObserved
  dsimp only
  revert hblocks
  generalize runBlocks observer p.blocks.toList.zipIdx (p, w) = r
  generalize runBlocks observer q.blocks.toList.zipIdx (q, w) = r'
  rintro (⟨reports, hst⟩ | ⟨e, hst⟩)
  · rename_i s t
    obtain ⟨s, w⟩ := s
    obtain ⟨t, w'⟩ := t
    obtain ⟨hst, rfl : w' = w⟩ := hst
    have hevaluate := evaluateAll_agrees hm h hwrites hafresh hst
    dsimp only
    revert hevaluate
    generalize evaluateAll s = r
    generalize evaluateAll t = r'
    rintro (⟨_, hst⟩ | ⟨e, hst⟩)
    · exact .ok _ ⟨hst.2, rfl⟩
    · exact .error e ⟨hst.slots, rfl⟩
  · exact .error e ⟨hst.1.slots, hst.2⟩

/-- Totals are equal in problems with the same slots. -/
theorem totals_agrees (hpq : Indistinct start p q) (quantities inputs : List String) (mode : Mode) :
    Agree (Indistinct start) (Indistinct start) (totals quantities inputs mode p)
      (totals quantities inputs mode q) := by
  have hshape := hpq.left.follows.assembly.store.symm.trans hpq.right.follows.assembly.store
  have hprepare : Agree (fun p q => Indistinct start p q ∧ q.totalOperator = p.totalOperator)
      (Indistinct start) (prepareTotals quantities inputs p) (prepareTotals quantities inputs q) := by
    unfold prepareTotals
    rw [resolveOf_congr hshape.entries (hpq.right.follows.links.trans hpq.left.follows.links.symm),
      resolveWrt_congr hshape.entries]
    cases p.resolveOf quantities with
    | error e => exact .error _ hpq
    | ok rows =>
      cases p.resolveWrt inputs with
      | error e => exact .error _ hpq
      | ok cols =>
        have hlinearize := linearizeAll_agrees hm h hwrites hafresh hpq
        dsimp only
        revert hlinearize
        generalize linearizeAll p = r
        generalize linearizeAll q = r'
        rintro (⟨_, hst⟩ | ⟨e, hst⟩)
        · exact .ok _ hst
        · exact .error e hst
  unfold totals
  revert hprepare
  generalize prepareTotals quantities inputs p = r
  generalize prepareTotals quantities inputs q = r'
  rintro (⟨named, hst⟩ | ⟨e, hst⟩)
  · rename_i s t
    obtain ⟨rows, cols⟩ := named
    have hat : t.totalsAt rows cols mode = s.totalsAt rows cols mode := by
      unfold totalsAt
      rw [hst.2, hst.1.left.follows.options, hst.1.right.follows.options]
    dsimp only
    rw [hat]
    cases s.totalsAt rows cols mode with
    | ok t => exact .ok t hst.1
    | error e => exact .error e hst.1
  · exact .error e hst

end History

/-- **A problem has no hidden state.** Let units overwrite their residuals and write their derivatives
afresh, and let no linear solver of a block start from an earlier solution. If two uses of a problem
lead to the same slots, whatever they are and whatever fails on the way, then a run has the same
outcome after both: the same reports or the same error, the same calls of the observer and the same
slots, and if it succeeds the same inputs and residuals. Totals have the same outcome too. -/
theorem no_hidden_state [BitPattern α] (hm : m.Built) (hsetup : m.setup = .ok start)
    (hwrites : ∀ c ∈ m.units, c.WritesResiduals) (hafresh : ∀ c ∈ m.units, c.LinearizesAfresh)
    (hcold : ∀ b ∈ start.blocks, b.options.linear.IsCold) (hp : Reached start p)
    (hq : Reached start q) (hslots : q.store.slots = p.store.slots) :
    (∀ {ω : Type} (observer : Observer (NonlinearEvent α) ω) (w : ω),
      Agree (fun s t => t.1.store = s.1.store ∧ t.2 = s.2)
        (fun s t => t.1.store.slots = s.1.store.slots ∧ t.2 = s.2)
        (runObserved observer (p, w)) (runObserved observer (q, w))) ∧
    Agree (fun s t => t.store = s.store) (fun s t => t.store.slots = s.store.slots)
      (run p) (run q) ∧
    ∀ quantities inputs mode,
      Agree (fun s t => t.store.slots = s.store.slots) (fun s t => t.store.slots = s.store.slots)
        (totals quantities inputs mode p) (totals quantities inputs mode q) := by
  have hstart := setup_spec hm.sound hsetup
  have hpq : Indistinct start p q :=
    ⟨hp.aged hm.sound hstart, hq.aged hm.sound hstart, hslots⟩
  refine ⟨fun observer w => runObserved_agrees hm.sound hstart hwrites hafresh hcold observer hpq w,
    ?_, fun quantities inputs mode => ?_⟩
  · have hrun := runObserved_agrees hm.sound hstart hwrites hafresh hcold .silent hpq ()
    unfold run
    revert hrun
    generalize runObserved .silent (p, ()) = r
    generalize runObserved .silent (q, ()) = r'
    rintro (⟨report, hst⟩ | ⟨e, hst⟩)
    · exact .ok report hst.1
    · exact .error e hst.1
  · exact (totals_agrees hm.sound hstart hwrites hafresh hpq quantities inputs mode).mono
      (fun _ _ hst => hst.slots) fun _ _ hst => hst.slots

/-- By default, no linear solver starts from an earlier solution. -/
theorem isCold_of_default (h : IsSetUp m start) (hoptions : m.options = .default) :
    ∀ b ∈ start.blocks, b.options.linear.IsCold := by
  intro b hb
  obtain ⟨g, rfl⟩ := h.eq_blockOf hb
  show (m.solversFor g).linear.IsCold
  have hnone : (g.unitIds.findSome? fun u => m.units[u]?.bind fun c =>
      m.options.blocks.lookup c.name) = none := by
    simp [hoptions, SolverOptions.default]
  have hsolvers : m.solversFor g = m.defaultSolvers g := by
    unfold solversFor
    rw [hnone, hoptions]
    rfl
  rw [hsolvers]
  unfold defaultSolvers
  split
  · split
    · split_ifs
      · exact trivial
      · exact trivial
    · exact trivial
  · exact trivial

end Problem

/-! ### A unit that has been linearized -/

namespace Squaring

open Doubling (okOr eq_ok_of_isOk)

/-- `y = x²`, with its derivative. -/
def discipline : ExplicitDiscipline ℚ :=
  { (ExplicitDiscipline.blank : ExplicitDiscipline ℚ) with
    inputs := [Variable.named "x"]
    outputs := [Variable.named "y"]
    partials := [PartialDeclaration.dense "y" "x"]
    compute := fun inputs outputs =>
      .ok ⟨⟩ (outputs.setEntry "y" 0 (inputs.value "x" * inputs.value "x")).data
    linearize := fun inputs => ⟨[.block "y" "x" #[2 * inputs.value "x"]], none, none⟩ }

/-- The unit. -/
def component : Component ℚ :=
  okOr Doubling.component (Component.declare "square" (.explicit discipline))

theorem declare_eq : Component.declare "square" (.explicit discipline) = .ok component :=
  eq_ok_of_isOk _ (by with_unfolding_all decide)

theorem isDeclared : Component.IsDeclared "square" (.explicit discipline) component :=
  Component.isDeclared_of_declare declare_eq ⟨by with_unfolding_all decide,
    by with_unfolding_all decide⟩

/-- The model of this unit. -/
def model : Model ℚ := okOr .empty (Model.empty.addUnit component)

theorem addUnit_eq : Model.empty.addUnit component = .ok model :=
  eq_ok_of_isOk _ (by with_unfolding_all decide)

theorem built : model.Built :=
  .addUnit .empty ⟨by with_unfolding_all decide, by with_unfolding_all decide⟩ declare_eq addUnit_eq

theorem eq_component {c : Component ℚ} (hc : c ∈ model.units) : c = component := by
  rw [Model.units_addUnit addUnit_eq] at hc
  exact List.mem_singleton.1 (Array.mem_toList_iff.2 hc)

/-- The unit writes its only derivative. -/
theorem linearizesAfresh : component.LinearizesAfresh := by
  have hone : component.partials.blocks.map (fun b => (b.constant, b.method.isApproximated,
      b.values.size)) = #[(false, false, 1)] := by with_unfolding_all decide
  have hplace : component.partials.position? "y" "x" = some 0 := by with_unfolding_all decide
  have hown : ∀ x y, component.ownLinearization x y =
      ⟨[.block "y" "x" #[2 * (View.value ⟨component.inputs, x⟩ "x")]], none, none⟩ := fun x y => by
    unfold Component.ownLinearization
    rw [isDeclared.discipline]
    rfl
  have hwritten : ∀ (v : ℚ) j i, (component.partials.written (.block "y" "x" #[v]) j i).isSome ↔
      j = 0 ∧ i = 0 := by
    intro v j i
    rw [Partials.written, hplace]
    by_cases hj : j = 0
    · simp [hj]
    · simp [hj, eq_comm]
  have hexact : ∀ j i, component.IsExact j i ↔ j = 0 ∧ i = 0 := by
    intro j i
    have hblock := congrArg (fun bs => bs[j]?) hone
    simp only [Array.getElem?_map] at hblock
    unfold Component.IsExact
    cases hb : component.partials.blocks[j]? with
    | none =>
      rw [hb] at hblock
      have hj : j ≠ 0 := by
        rintro rfl
        cases hblock
      simp [hj]
    | some b =>
      rw [hb] at hblock
      obtain ⟨hj, hvalues⟩ := Array.getElem?_eq_some_iff.1 hblock.symm
      obtain rfl : j = 0 := by simpa using hj
      obtain ⟨hconstant, hmethod, hsize⟩ :
          b.constant = false ∧ b.method.isApproximated = false ∧ 1 = b.values.size := by
        simpa using hvalues
      simp [hconstant, hmethod, ← hsize]
  refine Component.linearizesAfresh_of_exact (fun x y _ _ _ j i hji => ?_)
    (fun x y _ _ w hw j i hji => ?_) fun x y _ _ => ?_
  · rw [hown]
    exact ⟨_, List.mem_singleton_self _, (hwritten _ j i).2 ((hexact j i).1 hji)⟩
  · rw [hown] at hw
    obtain rfl := List.mem_singleton.1 hw
    exact (hexact j i).2 ((hwritten _ j i).1 hji)
  · rw [hown]

/-- Computing totals does not show in runs and totals later on. -/
theorem totals_do_not_show : model.Built ∧ (∀ c ∈ model.units, c.WritesResiduals) ∧
    (∀ c ∈ model.units, c.LinearizesAfresh) ∧ ∃ start p, model.setup = .ok start ∧
      (∀ b ∈ start.blocks, b.options.linear.IsCold) ∧ start.Reached start ∧
      p = stateAfter (Problem.totals ["square.y"] ["square.x"] .fwd start) ∧ start.Reached p ∧
      start.store.slots = p.store.slots ∧
      Agree (fun s t => t.store = s.store) (fun s t => t.store.slots = s.store.slots)
        (Problem.run p) (Problem.run start) := by
  have hwrites : ∀ c ∈ model.units, c.WritesResiduals := fun c hc =>
    Component.writesResiduals_of_explicit (eq_component hc ▸ isDeclared.discipline)
  have hafresh : ∀ c ∈ model.units, c.LinearizesAfresh := fun c hc =>
    eq_component hc ▸ linearizesAfresh
  have hoptions : model.options = .default := by
    rw [Model.options_addUnit addUnit_eq]
    rfl
  obtain ⟨start, hstart, h⟩ := Problem.setup_of_default built.sound hoptions
  have hcold := Problem.isCold_of_default h hoptions
  have hslots := Problem.keptByLooks_slots.totals ["square.y"] ["square.x"] .fwd start
  have hp : start.Reached (stateAfter (Problem.totals ["square.y"] ["square.x"] .fwd start)) :=
    .totals _ _ _ .start
  obtain ⟨-, hrun, -⟩ :=
    Problem.no_hidden_state built hstart hwrites hafresh hcold hp .start hslots.symm
  exact ⟨built, hwrites, hafresh, start, _, hstart, hcold, .start, rfl, hp, hslots.symm, hrun⟩

end Squaring

end Mdao
