import Mdao.Proofs.Coloring.Cache
import Mdao.Proofs.Coloring.Samples
import Mdao.Proofs.Model.Steps

/-!
# What using a problem keeps

Totals and checks of partial derivatives look at units, refresh the Jacobian over all slots and change
the cache of colorings; a relation between problems that these keep is kept by the whole call, also by
one that fails half way (`Problem.KeptByLooks`). Runs solve blocks besides (`Problem.KeptByRuns`), and
checks of totals run the model at other points (`Problem.KeptByUse`).
-/

namespace Mdao

variable {α : Type} [Scalar α]

namespace Problem

/-- The Jacobian with the present derivatives, refreshed where there is one. -/
def freshJacobian (p : Problem α) (l : Arrangement α) : Jacobian α :=
  match p.totalJacobian with
  | some j => j.refresh l p.assembly.units
  | none => .build l p.assembly.units p.order (.upTo l.size)

/-- A relation that is kept by looking at units, by refreshing the Jacobian and by a cache of sound
colorings. -/
structure KeptByLooks (Q : Problem α → Problem α → Prop) : Prop where
  refl : ∀ p, Q p p
  trans : ∀ p q r, Q p q → Q q r → Q p r
  changed : ∀ (p : Problem α) {a : Assembly α},
    Assembly.Changed p.arrangement p.order [] p.assembly a → Q p { p with assembly := a }
  jacobian : ∀ p, Q p { p with totalJacobian := some (p.freshJacobian p.arrangement) }
  cache : ∀ (p : Problem α) {cache : ColoringCache}, (p.cache.Sound → cache.Sound) →
    Q p { p with cache := cache }

/-- A relation that is kept by solving blocks too. -/
structure KeptByRuns (Q : Problem α → Problem α → Prop) : Prop extends KeptByLooks Q where
  runBlock : ∀ {ω : Type} (observer : Observer (NonlinearEvent α) ω) (k : Nat) (b : SolverBlock α)
    (p : Problem α) (w : ω), p.blocks[k]? = some b →
    Q p (stateAfter (runBlock observer k b (p, w))).1

/-- A relation that is kept by other values of the variables too. -/
structure KeptByUse (Q : Problem α → Problem α → Prop) : Prop extends KeptByRuns Q where
  shape : ∀ p q, Q p q → p.store.SameShape q.store
  withStore : ∀ (p : Problem α) {s : Store α}, p.store.SameShape s →
    s.residuals = p.store.residuals → Q p (p.withStore s)

/-- A relation between problems, each beside something else. -/
def Beside {ω : Type} (Q : Problem α → Problem α → Prop) (s t : Problem α × ω) : Prop := Q s.1 t.1

section RunBlock

variable {ω : Type} (observer : Observer (NonlinearEvent α) ω) (k : Nat) (b : SolverBlock α)
  (p : Problem α) (w : ω)

/-- What the steps of a block preserve is preserved by its solve, whatever comes of it. -/
theorem stateAfter_runBlock_of_keeps
    {R : SolverBlock.State α → SolverBlock.State α → Prop}
    (h : (b.system p.arrangement p.options.strictPartials).Keeps R) :
    ∃ s, stateAfter (runBlock observer k b (p, w)) = p.afterBlock k s ∧
      R ⟨p.assembly, b.jacobian⟩ s.system := by
  have hsolve := h.solve b.options.nonlinear b.options.linear observer
    ⟨⟨p.assembly, b.jacobian⟩, b.memory, w⟩
  unfold runBlock
  dsimp only
  cases hrun : NonlinearConfig.solve b.options.linear
      (b.system p.arrangement p.options.strictPartials) observer b.options.nonlinear
      ⟨⟨p.assembly, b.jacobian⟩, b.memory, w⟩ with
  | ok solution s =>
    rw [hrun] at hsolve
    exact ⟨s, rfl, hsolve⟩
  | error e s =>
    rw [hrun] at hsolve
    exact ⟨s, rfl, hsolve⟩

/-- **The solve of a block**, whatever comes of it, changes its units, slots of the block, and what
its solvers remember. -/
theorem stateAfter_runBlock : ∃ s, stateAfter (runBlock observer k b (p, w)) = p.afterBlock k s ∧
    Assembly.Changed p.arrangement b.unitIds (b.spans p.arrangement) p.assembly
      s.system.assembly :=
  stateAfter_runBlock_of_keeps observer k b p w (b.keeps_changed p.arrangement _)

theorem changed_runBlock :
    Assembly.Changed p.arrangement b.unitIds (b.spans p.arrangement) p.assembly
      (stateAfter (runBlock observer k b (p, w))).1.assembly := by
  obtain ⟨s, hs, hchanged⟩ := stateAfter_runBlock observer k b p w
  rw [hs]
  exact hchanged

/-- The other blocks stay as they are. -/
theorem getElem?_blocks_runBlock {j : Nat} (hjk : j ≠ k) :
    (stateAfter (runBlock observer k b (p, w))).1.blocks[j]? = p.blocks[j]? := by
  obtain ⟨s, hs, -⟩ := stateAfter_runBlock observer k b p w
  rw [hs]
  simp [afterBlock, Array.getElem?_modify, hjk.symm]

end RunBlock

/-- An evaluation of all units is one of the units and values. -/
theorem evaluateAll_eq_ok {p q : Problem α} {u : Unit} (h : evaluateAll p = .ok u q) :
    Assembly.evaluateAll p.arrangement p.order p.assembly = .ok () q.assembly := by
  unfold evaluateAll onAssembly at h
  cases heval : Assembly.evaluateAll p.arrangement p.order p.assembly with
  | ok _ a =>
    rw [heval] at h
    cases h
    rfl
  | error e a =>
    rw [heval] at h
    cases h

/-! ### Totals -/

namespace KeptByLooks

variable {Q : Problem α → Problem α → Prop} (h : KeptByLooks Q)

include h

theorem onAssembly {step : EStateM EvalError (Assembly α) Unit} (p : Problem α)
    (hstep : Assembly.Changed p.arrangement p.order [] p.assembly (stateAfter (step p.assembly))) :
    Q p (stateAfter (Problem.onAssembly step p)) := by
  have hp := h.changed p hstep
  unfold Problem.onAssembly
  cases hrun : step p.assembly with
  | ok _ a =>
    rw [hrun] at hp
    exact hp
  | error e a =>
    rw [hrun] at hp
    exact hp

theorem evaluateAll : Preserves Q (Problem.evaluateAll (α := α)) := fun p =>
  h.onAssembly p (Assembly.changed_evaluateAll p.assembly)

theorem linearizeAll : Preserves Q (Problem.linearizeAll (α := α)) := by
  intro p
  have hp : Q p (stateAfter (Problem.onAssembly _ p)) :=
    h.onAssembly p (Assembly.changed_linearizeAll p.options.strictPartials p.assembly)
  unfold Problem.linearizeAll
  dsimp only
  unfold Problem.onAssembly at hp ⊢
  cases hstep : Assembly.linearizeAll p.arrangement p.options.strictPartials p.order p.assembly with
  | error e a =>
    rw [hstep] at hp
    exact hp
  | ok _ a =>
    rw [hstep] at hp
    exact h.trans _ _ _ hp (h.jacobian { p with assembly := a })

theorem prepareTotals (quantities inputs : List String) :
    Preserves Q (Problem.prepareTotals (α := α) quantities inputs) := by
  intro p
  have hp := h.linearizeAll p
  unfold Problem.prepareTotals
  cases p.resolveOf quantities with
  | error e => exact h.refl p
  | ok rows =>
    cases p.resolveWrt inputs with
    | error e => exact h.refl p
    | ok cols =>
      dsimp only
      cases hlinearize : Problem.linearizeAll p with
      | ok _ q =>
        rw [hlinearize] at hp
        exact hp
      | error e q =>
        rw [hlinearize] at hp
        exact hp

theorem totals (quantities inputs : List String) (mode : Mode) :
    Preserves Q (Problem.totals (α := α) quantities inputs mode) := by
  intro p
  have hp := h.prepareTotals quantities inputs p
  unfold Problem.totals
  cases hprepare : Problem.prepareTotals quantities inputs p with
  | error e q =>
    rw [hprepare] at hp
    exact hp
  | ok prepared q =>
    rw [hprepare] at hp
    dsimp only
    split
    · exact hp
    · exact hp

end KeptByLooks

/-! ### Colorings -/

section Coloring

variable [BitPattern α]

/-- A new coloring of totals is sound once it is signed for them. -/
theorem sound_of_computeColoring {s : ColoringSettings α} {j : Jacobian α} {rows cols : Quantities α}
    {k : Coloring} (h : computeColoring s j rows cols = .ok k) :
    (k.withSignature (totalsSignature s j.pattern rows cols)).Sound := by
  unfold computeColoring at h
  split at h
  · cases h
  · rename_i pattern r hdetect
    obtain ⟨hpattern, hnrows, hncols⟩ := Pattern.wellFormed_of_detect hdetect
    refine (Coloring.sound_of_compute hpattern h ?_).1
    rw [hnrows, hncols]
    rfl

/-- **The coloring of prepared totals** changes nothing but the cache; it is sound and has their
shape. -/
theorem coloringAt_spec (p : Problem α) {file : ColoringFile} (hfile : file.Trusted)
    (rows cols : Quantities α) :
    (∃ cache, (stateAfter (coloringAt rows cols (p, file))).1 = { p with cache := cache } ∧
      (p.cache.Sound → cache.Sound)) ∧
      ∀ c q file', coloringAt rows cols (p, file) = .ok c (q, file') → p.cache.Sound →
        (∃ cache, q = { p with cache := cache }) ∧ c.Sound ∧
          c.pattern.nrows = rows.length ∧ c.pattern.ncols = cols.length := by
  unfold coloringAt
  dsimp only
  cases hj : p.totalJacobian with
  | none =>
    refine ⟨⟨p.cache, ?_, id⟩, fun c q file' h => by cases h⟩
    dsimp only [stateAfter_error]
    rw [← hj]
  | some j =>
    have hcompute : ∀ k, computeColoring p.options.totals.coloring j rows cols = .ok k →
        (k.withSignature (totalsSignature p.options.totals.coloring j.pattern rows cols)).Sound :=
      fun k hk => sound_of_computeColoring hk
    have hspec := fun hcache : p.cache.Sound =>
      @ColoringCache.getOrCompute_spec p.cache hcache file hfile _ (fun _ => _) hcompute
    dsimp only
    cases hget : ColoringCache.getOrCompute
        (totalsSignature p.options.totals.coloring j.pattern rows cols)
        (fun _ => computeColoring p.options.totals.coloring j rows cols) (p.cache, file) with
    | error e state =>
      obtain ⟨cache, file'⟩ := state
      refine ⟨⟨cache, rfl, fun hcache => ?_⟩, fun c q file' h => by cases h⟩
      have := (hspec hcache).1
      rw [hget] at this
      exact this
    | ok answer state =>
      obtain ⟨cache, file'⟩ := state
      refine ⟨⟨cache, rfl, fun hcache => ?_⟩, fun c q file'' h hcache => ?_⟩
      · have := (hspec hcache).1
        rw [hget] at this
        exact this
      · cases h
        obtain ⟨hsound, hsigned⟩ := (hspec hcache).2 answer _ hget
        have hshape := hsound.shape _ hsigned
        exact ⟨⟨cache, rfl⟩, hsound, (congrArg Prod.fst hshape).symm,
          (congrArg Prod.snd hshape).symm⟩

namespace KeptByLooks

variable {Q : Problem α → Problem α → Prop} (h : KeptByLooks Q)

include h

theorem coloringAt (p : Problem α) {file : ColoringFile} (hfile : file.Trusted)
    (rows cols : Quantities α) : Q p (stateAfter (Problem.coloringAt rows cols (p, file))).1 := by
  obtain ⟨cache, heq, hsound⟩ := (coloringAt_spec p hfile rows cols).1
  rw [heq]
  exact h.cache p hsound

/-- Asking for a coloring keeps what the coloring of prepared totals keeps. -/
theorem coloring_of {file : ColoringFile} (hat : ∀ (q : Problem α) (rows cols : Quantities α),
    Q q (stateAfter (Problem.coloringAt rows cols (q, file))).1)
    (quantities inputs : List String) (p : Problem α) :
    Q p (stateAfter (Problem.coloring quantities inputs (p, file))).1 := by
  have hp := h.prepareTotals quantities inputs p
  unfold Problem.coloring
  dsimp only
  cases hprepare : Problem.prepareTotals quantities inputs p with
  | error e q =>
    rw [hprepare] at hp
    exact hp
  | ok prepared q =>
    rw [hprepare] at hp
    exact h.trans _ _ _ hp (hat q prepared.1 prepared.2)

theorem coloring (quantities inputs : List String) (p : Problem α) {file : ColoringFile}
    (hfile : file.Trusted) : Q p (stateAfter (Problem.coloring quantities inputs (p, file))).1 :=
  h.coloring_of (fun q => h.coloringAt q hfile) quantities inputs p

/-- Colored totals keep what the coloring of prepared totals keeps. -/
theorem totalsColored_of {file : ColoringFile} (hat : ∀ (q : Problem α) (rows cols : Quantities α),
    Q q (stateAfter (Problem.coloringAt rows cols (q, file))).1)
    (quantities inputs : List String) (p : Problem α) :
    Q p (stateAfter (Problem.totalsColored quantities inputs (p, file))).1 := by
  have hp := h.prepareTotals quantities inputs p
  unfold Problem.totalsColored
  dsimp only
  cases hprepare : Problem.prepareTotals quantities inputs p with
  | error e q =>
    rw [hprepare] at hp
    exact hp
  | ok prepared q =>
    obtain ⟨rows, cols⟩ := prepared
    rw [hprepare] at hp
    have hq := h.trans _ _ _ hp (hat q rows cols)
    dsimp only
    cases hcoloring : Problem.coloringAt rows cols (q, file) with
    | error e s =>
      rw [hcoloring] at hq
      exact hq
    | ok c s =>
      rw [hcoloring] at hq
      dsimp only
      split
      · exact hq
      · exact hq

theorem totalsColored (quantities inputs : List String) (p : Problem α) {file : ColoringFile}
    (hfile : file.Trusted) :
    Q p (stateAfter (Problem.totalsColored quantities inputs (p, file))).1 :=
  h.totalsColored_of (fun q => h.coloringAt q hfile) quantities inputs p

end KeptByLooks

end Coloring

/-! ### Checks of derivatives -/

namespace KeptByLooks

variable {Q : Problem α → Problem α → Prop} (h : KeptByLooks Q)

include h

theorem checkPartials (method : Method α) : Preserves Q (Problem.checkPartials method) := by
  intro p
  have hchanged : Assembly.Changed p.arrangement p.order [] p.assembly _ :=
    Assembly.changed_checkPartials method p.assembly
  have hp := h.changed p hchanged
  unfold Problem.checkPartials
  cases hcheck : Assembly.checkPartials p.arrangement method p.order p.assembly with
  | ok checks a =>
    rw [hcheck] at hp
    exact hp
  | error e a =>
    rw [hcheck] at hp
    exact hp

theorem approximateJacobian (method : Method α) :
    Preserves Q (Problem.approximateJacobian method) := by
  intro p
  have hchanged : Assembly.Changed p.arrangement p.order [] p.assembly _ :=
    Assembly.changed_approximateUnits method p.assembly
  have hp := h.changed p hchanged
  unfold Problem.approximateJacobian
  dsimp only
  cases happ : approximateUnits p.arrangement method p.order p.assembly with
  | error e a =>
    rw [happ] at hp
    exact hp
  | ok cs a =>
    rw [happ] at hp
    exact hp

theorem approximateTotals (rows cols : Quantities α) (method : Method α) :
    Preserves Q (Problem.approximateTotals rows cols method) := by
  intro p
  have hp := h.approximateJacobian method p
  unfold Problem.approximateTotals
  cases happ : Problem.approximateJacobian method p with
  | error e q =>
    rw [happ] at hp
    exact hp
  | ok j q =>
    rw [happ] at hp
    dsimp only
    split
    · exact hp
    · exact hp

end KeptByLooks

/-! ### Running -/

namespace KeptByRuns

variable {Q : Problem α → Problem α → Prop} (h : KeptByRuns Q)

include h

theorem runBlocks {ω : Type} (observer : Observer (NonlinearEvent α) ω)
    (bs : List (SolverBlock α × Nat)) (p : Problem α) (w : ω)
    (hbs : ∀ e ∈ bs, p.blocks[e.2]? = some e.1) (hnodup : (bs.map Prod.snd).Nodup) :
    Q p (stateAfter (Problem.runBlocks observer bs (p, w))).1 := by
  induction bs generalizing p w with
  | nil => exact h.refl p
  | cons e bs ih =>
    obtain ⟨b, k⟩ := e
    have hfirst := h.runBlock observer k b p w (hbs _ List.mem_cons_self)
    have hothers := fun j (hj : j ≠ k) => getElem?_blocks_runBlock observer k b p w hj
    rw [List.map_cons, List.nodup_cons] at hnodup
    unfold Problem.runBlocks
    refine Preserves.bind_at (R := Beside Q) (s := (p, w)) (fun s t u => h.trans s.1 t.1 u.1) hfirst
      fun report s hrun => ?_
    obtain ⟨q, w'⟩ := s
    rw [hrun] at hothers
    refine Preserves.bind_at (R := Beside Q) (fun s t u => h.trans s.1 t.1 u.1) ?_
      fun others s _ => h.refl s.1
    refine ih q w' (fun e he => (hothers e.2 ?_).trans (hbs e (List.mem_cons_of_mem _ he))) hnodup.2
    rintro rfl
    exact hnodup.1 (List.mem_map.2 ⟨e, he, rfl⟩)

theorem runObserved {ω : Type} (observer : Observer (NonlinearEvent α) ω) (p : Problem α) (w : ω) :
    Q p (stateAfter (Problem.runObserved observer (p, w))).1 := by
  have hblocks := h.runBlocks observer p.blocks.toList.zipIdx p w (fun e he => by
      rw [← Array.getElem?_toList]
      exact List.mem_zipIdx_iff_getElem?.1 he) (by
      rw [List.zipIdx_map_snd]
      exact List.nodup_range')
  unfold Problem.runObserved
  dsimp only
  cases hrun : Problem.runBlocks observer p.blocks.toList.zipIdx (p, w) with
  | error e s =>
    rw [hrun] at hblocks
    exact hblocks
  | ok reports s =>
    obtain ⟨q, w'⟩ := s
    rw [hrun] at hblocks
    have hq := h.trans _ _ _ hblocks (h.evaluateAll q)
    dsimp only
    cases heval : Problem.evaluateAll q with
    | ok _ r =>
      rw [heval] at hq
      exact hq
    | error e r =>
      rw [heval] at hq
      exact hq

theorem run : Preserves Q (Problem.run (α := α)) := by
  intro p
  have hrun := h.runObserved (.silent : Observer (NonlinearEvent α) Unit) p ()
  unfold Problem.run
  cases hres : Problem.runObserved .silent (p, ()) with
  | ok report s =>
    rw [hres] at hrun
    exact hrun
  | error e s =>
    rw [hres] at hrun
    exact hrun

end KeptByRuns

/-! ### Runs at other points -/

/-- A relation between problems of which the first has `n` slots. -/
def Sized (n : Nat) (Q : Problem α → Problem α → Prop) (p q : Problem α) : Prop :=
  p.store.slots.size = n → Q p q

namespace KeptByUse

variable {Q : Problem α → Problem α → Prop} (h : KeptByUse Q)

include h

theorem sized_refl {n : Nat} (p : Problem α) : Sized n Q p p := fun _ => h.refl p

theorem sized_trans {n : Nat} (p q r : Problem α) (hpq : Sized n Q p q) (hqr : Sized n Q q r) :
    Sized n Q p r := fun hp =>
  h.trans _ _ _ (hpq hp) (hqr ((h.shape _ _ (hpq hp)).slots.trans hp))

/-- Other slots, as many as before. -/
theorem withSlots (p : Problem α) {slots : Array α} (hslots : slots.size = p.store.slots.size) :
    Q p (p.withSlots slots) :=
  h.withStore p ⟨rfl, hslots, rfl, rfl⟩ rfl

theorem runAt (names : List String) {n : Nat} {slots : Array α} (hslots : slots.size = n) :
    Preserves (Sized n Q) (Problem.runAt names slots) := by
  intro p hn
  have hp := h.trans _ _ _ (h.withSlots p (hslots.trans hn.symm)) (h.run (p.withSlots slots))
  unfold Problem.runAt
  cases hrun : Problem.run (p.withSlots slots) with
  | error e q =>
    rw [hrun] at hp
    exact hp
  | ok report q =>
    rw [hrun] at hp
    dsimp only
    split
    · exact hp
    · exact hp

theorem differenceColumn (names : List String) (o : FdOptions α) {n : Nat} {base : Array α}
    (hbase : base.size = n) (center : Array α) (slot : Nat) :
    Preserves (Sized n Q) (Problem.differenceColumn names o base center slot) := by
  have hmoved : ∀ f : α → α, (base.modify slot f).size = n := fun f => by
    rw [Array.size_modify, hbase]
  unfold Problem.differenceColumn
  dsimp only
  split
  · exact .bind h.sized_trans (h.runAt names (hmoved _)) fun plus => .pure h.sized_refl _
  · exact .bind h.sized_trans (h.runAt names (hmoved _)) fun minus => .pure h.sized_refl _
  · exact .bind h.sized_trans (h.runAt names (hmoved _)) fun plus =>
      .bind h.sized_trans (h.runAt names (hmoved _)) fun minus => .pure h.sized_refl _

theorem differenceColumns (names : List String) (o : FdOptions α) {n : Nat} {base : Array α}
    (hbase : base.size = n) (center : Array α) (slots : List Nat) :
    Preserves (Sized n Q) (Problem.differenceColumns names o base center slots) := by
  induction slots with
  | nil => exact .pure h.sized_refl _
  | cons slot slots ih =>
    unfold Problem.differenceColumns
    refine .bind h.sized_trans (h.differenceColumn names o hbase center slot) fun column => ?_
    refine .bind h.sized_trans ih fun others => ?_
    exact .pure h.sized_refl _

theorem differences (names : List String) (cols : Quantities α) (o : FdOptions α) {n : Nat}
    {base : Array α} (hbase : base.size = n) :
    Preserves (Sized n Q) (Problem.differences names cols o base) := by
  unfold Problem.differences
  refine .bind h.sized_trans (h.runAt names hbase) fun center => ?_
  refine .bind h.sized_trans (h.differenceColumns names o hbase center cols.slots) fun columns => ?_
  exact .pure h.sized_refl _

theorem differenceTotals (names : List String) (cols : Quantities α) (o : FdOptions α) :
    Preserves Q (Problem.differenceTotals names cols o) := by
  intro p
  have hp := h.differences names cols o (Eq.refl p.store.slots.size) p rfl
  have hrestored : ∀ q : Problem α, Q p q →
      Q p (stateAfter (Problem.evaluateAll (q.withSlots p.store.slots))) := fun q hq =>
    h.trans _ _ _ hq (h.trans _ _ _ (h.withSlots q (h.shape _ _ hq).slots.symm) (h.evaluateAll _))
  unfold Problem.differenceTotals
  dsimp only
  cases hdiff : Problem.differences names cols o p.store.slots p with
  | ok values q =>
    rw [hdiff] at hp
    have hq := hrestored q hp
    dsimp only
    cases heval : Problem.evaluateAll (q.withSlots p.store.slots) with
    | ok _ r =>
      rw [heval] at hq
      exact hq
    | error e r =>
      rw [heval] at hq
      exact hq
  | error e q =>
    rw [hdiff] at hp
    have hq := hrestored q hp
    dsimp only
    cases heval : Problem.evaluateAll (q.withSlots p.store.slots) with
    | ok _ r =>
      rw [heval] at hq
      exact hq
    | error e r =>
      rw [heval] at hq
      exact hq

theorem numericalTotals (names : List String) (rows cols : Quantities α) (method : Method α) :
    Preserves Q (Problem.numericalTotals names rows cols method) := by
  cases method with
  | cs step => exact h.approximateTotals rows cols (.cs step)
  | fd o => exact h.differenceTotals names cols o
  | exact => exact h.differenceTotals names cols .default

theorem checkTotals (quantities inputs : List String) (mode : Mode) (method : Method α) :
    Preserves Q (Problem.checkTotals quantities inputs mode method) := by
  intro p
  have hp := h.prepareTotals quantities inputs p
  unfold Problem.checkTotals
  cases hprepare : Problem.prepareTotals quantities inputs p with
  | error e q =>
    rw [hprepare] at hp
    exact hp
  | ok prepared q =>
    obtain ⟨rows, cols⟩ := prepared
    rw [hprepare] at hp
    have hq := h.trans _ _ _ hp (h.numericalTotals quantities rows cols method q)
    dsimp only
    cases q.totalsAt rows cols mode with
    | error e => exact hp
    | ok analytic =>
      dsimp only
      cases hnumerical : Problem.numericalTotals quantities rows cols method q with
      | error e r =>
        rw [hnumerical] at hq
        exact hq
      | ok values r =>
        rw [hnumerical] at hq
        exact hq

end KeptByUse

/-! ### Writing values -/

omit [Scalar α] in
theorem ofStructure_eq_ok {β : Type} {e : Except StructureError β} {b : β}
    (h : (ofStructure e : Except (ModelError α) β) = .ok b) : e = .ok b := by
  cases e with
  | ok b' =>
    cases h
    rfl
  | error e => cases h

namespace KeptByUse

variable {Q : Problem α → Problem α → Prop} (h : KeptByUse Q)

include h

theorem set {p q : Problem α} {name : String} {value : Array α}
    (hset : p.set name value = .ok q) : Q p q := by
  obtain ⟨_, -, hset⟩ := bind_eq_ok.1 (ofStructure_eq_ok hset)
  obtain ⟨s, hs, hset⟩ := bind_eq_ok.1 hset
  cases hset
  unfold Store.set at hs
  split at hs
  · obtain ⟨hshape, hresiduals⟩ := Store.sameShape_setById hs
    exact h.withStore p hshape hresiduals
  · cases hs

theorem setInUnits {p q : Problem α} {name units : String} {value : Array α}
    (hset : p.setInUnits name value units = .ok q) : Q p q := by
  obtain ⟨_, -, hset⟩ := bind_eq_ok.1 (ofStructure_eq_ok hset)
  obtain ⟨s, hs, hset⟩ := bind_eq_ok.1 hset
  cases hset
  obtain ⟨i, -, hs⟩ := bind_eq_ok.1 hs
  obtain ⟨declared, -, hs⟩ := bind_eq_ok.1 hs
  obtain ⟨c, -, hs⟩ := bind_eq_ok.1 hs
  obtain ⟨hshape, hresiduals⟩ := Store.sameShape_setById hs
  exact h.withStore p hshape hresiduals

end KeptByUse

end Problem

end Mdao
