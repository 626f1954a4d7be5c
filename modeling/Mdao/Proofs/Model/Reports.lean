import Mdao.Proofs.Model.Determined
import Mdao.Proofs.Model.Frame
import Mdao.Proofs.Nonlinear.Ends

/-!
# What reports say

A run solves one block after the other and evaluates all residuals at the end. When a block is done,
its values are up to date and its report has the norm of its residuals (`runBlock_holds`). Later
blocks spare them (`spared_runBlocks`), and so does the evaluation at the end: the reports of a run
are true of the state that it ends in (`reports_hold`).
-/

namespace Mdao

open Vec

variable {α : Type} [Scalar α]

namespace Problem

open Assembly Model SolverBlock

/-- A block keeps its values from one state of a run to another, also as values that are up to
date. -/
structure Spared (l : Arrangement α) (b : SolverBlock α) (p q : Problem α) : Prop where
  arrangement : q.arrangement = p.arrangement
  sameValues : b.SameValues l p.assembly q.assembly
  upToDate : b.UpToDate l p.assembly → b.UpToDate l q.assembly

/-- A report is true of a state: the block is up to date there, and the norm is that of its
residuals. -/
structure Holds (l : Arrangement α) (b : SolverBlock α) (r : BlockReport α) (p : Problem α) :
    Prop where
  name : r.name = b.name
  upToDate : b.UpToDate l p.assembly
  residualNorm : r.solution.residualNorm = Vec.norm (slice p.store.residuals b.range)

/-- The problem and the observer after the solves of the first `n` blocks, or of fewer where one of
them fails. -/
def afterBlocks {ω : Type} (observer : Observer (NonlinearEvent α) ω) (n : Nat)
    (s : Problem α × ω) : Problem α × ω :=
  stateAfter (runBlocks observer (s.1.blocks.toList.zipIdx.take n) s)

variable {l : Arrangement α} {b later : SolverBlock α}

namespace Spared

theorem refl (p : Problem α) : Spared l b p p := ⟨rfl, .refl b l _, id⟩

theorem trans (p q r : Problem α) (h : Spared l b p q) (h' : Spared l b q r) : Spared l b p r :=
  ⟨h'.arrangement.trans h.arrangement, h.sameValues.trans h'.sameValues,
    h'.upToDate ∘ h.upToDate⟩

end Spared

/-- What a report says stays true of a block that is spared. -/
theorem Holds.of_spared {r : BlockReport α} {p q : Problem α} (hr : Holds l b r p)
    (h : Spared l b p q) : Holds l b r q :=
  ⟨hr.name, h.upToDate hr.upToDate, hr.residualNorm.trans
    (congrArg Vec.norm h.sameValues.residuals.symm)⟩

section Run

variable {ω : Type} {observer : Observer (NonlinearEvent α) ω}

/-! ### One block -/

/-- **The solve of a later block spares an earlier one.** -/
theorem spared_runBlock (observer : Observer (NonlinearEvent α) ω) (h : Upstream l b later)
    (hfits : FitsBlock l later) (hb : FitsBlock l b) (k : Nat) (p : Problem α) (w : ω)
    (hp : p.arrangement = l) :
    Spared l b p (stateAfter (runBlock observer k later (p, w))).1 := by
  obtain ⟨s, hs, hchanged⟩ := stateAfter_runBlock observer k later p w
  rw [hp] at hchanged
  rw [hs]
  exact ⟨rfl, h.sameValues hfits hchanged, fun hdate => hdate.while_later h hfits hb hchanged⟩

/-- **What a solved block reports is true**: the solve has ended in an evaluation of the block. -/
theorem runBlock_holds {m : Model α} {start : Problem α} (hm : m.Sound) (h : IsSetUp m start)
    {s t : Problem α × ω} (hs : start.Follows s.1) (hb : b.unitIds.Sublist start.order) {k : Nat}
    {report : BlockReport α} (hrun : runBlock observer k b s = .ok report t) :
    Holds start.arrangement b report t.1 := by
  obtain ⟨p, w⟩ := s
  have hchanged := changed_runBlock observer k b p w
  rw [hrun] at hchanged
  have hfollows := Assembly.Follows.trans _ _ _ hs.assembly hchanged.follows
  unfold runBlock at hrun
  dsimp only at hrun
  rw [hs.arrangement] at hrun
  cases hsolve : NonlinearConfig.solve b.options.linear
      (b.system start.arrangement p.options.strictPartials) observer b.options.nonlinear
      ⟨⟨p.assembly, b.jacobian⟩, b.memory, w⟩ with
  | error e s =>
    rw [hsolve] at hrun
    cases hrun
  | ok solution s =>
    rw [hsolve] at hrun
    cases hrun
    obtain ⟨r, ⟨t, heval⟩, hnorm⟩ := NonlinearConfig.solve_ends hsolve
    change SolverBlock.residuals b start.arrangement t = _ at heval
    unfold SolverBlock.residuals at heval
    have hback : Changed start.arrangement b.unitIds [] t.assembly _ :=
      changed_evaluateAll t.assembly
    cases hall : Assembly.evaluateAll start.arrangement b.unitIds t.assembly with
    | error e a =>
      rw [hall] at heval
      cases heval
    | ok _ a =>
      rw [hall] at heval hback
      obtain ⟨rfl, hsystem⟩ := EStateM.Result.ok.inj heval
      obtain rfl : s.system.assembly = a := congrArg State.assembly hsystem.symm
      have hnodup := hb.nodup ((h.perm hm).nodup_iff.2 List.nodup_range)
      have hlt : ∀ u ∈ b.unitIds, u < m.units.size := fun u hu =>
        List.mem_range.1 ((h.perm hm).mem_iff.1 (hb.subset hu))
      have ht : start.assembly.Follows t.assembly := .trans _ _ _ hfollows hback.follows.symm
      have hevaluated := h.evaluated_of_nodup hm ht hnodup hlt hall
      refine ⟨rfl, .of_evaluated (fun u hu => ?_) hevaluated, hnorm⟩
      obtain ⟨c, hc, -⟩ := h.hosts hm ht (Array.getElem?_eq_getElem (hlt u hu))
      exact (Array.getElem?_eq_some_iff.1 hc).1

/-! ### Many blocks -/

/-- A run of blocks gives the reports of the first ones and then those of the others. -/
theorem runBlocks_append (bs cs : List (SolverBlock α × Nat)) :
    runBlocks observer (bs ++ cs) = runBlocks observer bs >>= fun reports =>
      runBlocks observer cs >>= fun others => pure (reports ++ others) := by
  induction bs with
  | nil => simp [runBlocks]
  | cons e bs ih =>
    obtain ⟨b, k⟩ := e
    simp [runBlocks, ih]

/-- **Later blocks spare an earlier one**, also where one of them fails. -/
theorem spared_runBlocks (observer : Observer (NonlinearEvent α) ω) (hb : FitsBlock l b)
    {bs : List (SolverBlock α × Nat)}
    (hbs : ∀ e ∈ bs, Upstream l b e.1 ∧ FitsBlock l e.1) (p : Problem α) (w : ω)
    (hp : p.arrangement = l) : Spared l b p (stateAfter (runBlocks observer bs (p, w))).1 := by
  induction bs generalizing p w with
  | nil => exact .refl p
  | cons e bs ih =>
    obtain ⟨later, k⟩ := e
    obtain ⟨hup, hfits⟩ := hbs _ List.mem_cons_self
    have hfirst := spared_runBlock observer hup hfits hb k p w hp
    unfold runBlocks
    refine Preserves.bind_at (R := Beside (Spared l b)) (s := (p, w))
      (fun s t u => .trans s.1 t.1 u.1) hfirst fun report s hrun => ?_
    obtain ⟨q, w'⟩ := s
    rw [hrun] at hfirst
    refine Preserves.bind_at (R := Beside (Spared l b)) (fun s t u => .trans s.1 t.1 u.1) ?_
      fun others s _ => .refl s.1
    exact ih (fun e he => hbs e (List.mem_cons_of_mem _ he)) q w' (hfirst.arrangement.trans hp)

/-- **When all blocks are done, the reports are true of all of them.** -/
theorem runBlocks_hold {m : Model α} {start : Problem α} (hm : m.Sound) (h : IsSetUp m start)
    {bs : List (SolverBlock α × Nat)}
    (hbs : ∀ e ∈ bs, FitsBlock start.arrangement e.1 ∧ e.1.unitIds.Sublist start.order)
    (hpairs : bs.Pairwise fun e e' => Upstream start.arrangement e.1 e'.1)
    {s t : Problem α × ω} (hs : start.Follows s.1) {reports : List (BlockReport α)}
    (hrun : runBlocks observer bs s = .ok reports t) :
    List.Forall₂ (fun e r => Holds start.arrangement e.1 r t.1) bs reports := by
  induction bs generalizing s reports with
  | nil =>
    cases hrun
    exact .nil
  | cons e bs ih =>
    obtain ⟨b, k⟩ := e
    obtain ⟨report, s', hfirst, hrest⟩ := exists_of_bind_eq_ok hrun
    obtain ⟨others, t', hothers, hpure⟩ := exists_of_bind_eq_ok hrest
    cases hpure
    obtain ⟨hfits, hsub⟩ := hbs _ List.mem_cons_self
    obtain ⟨hlater, hpairs⟩ := List.pairwise_cons.1 hpairs
    have hs' := follows_runBlock observer k b s
    rw [hfirst] at hs'
    have hfollows : start.Follows s'.1 := .trans _ _ _ hs hs'
    refine .cons ?_ (ih (fun e he => hbs e (List.mem_cons_of_mem _ he)) hpairs hfollows hothers)
    have hspared := spared_runBlocks observer hfits
      (fun e he => ⟨hlater e he, (hbs e (List.mem_cons_of_mem _ he)).1⟩) s'.1 s'.2
      hfollows.arrangement
    rw [hothers] at hspared
    exact (runBlock_holds hm h hs hsub hfirst).of_spared hspared

end Run

/-! ### The blocks of a problem -/

omit [Scalar α] in
theorem fitsBlock_outline : FitsBlock l b.outline ↔ FitsBlock l b :=
  ⟨fun h => ⟨h.units, h.parts, h.lower, h.upper⟩, fun h => ⟨h.units, h.parts, h.lower, h.upper⟩⟩

omit [Scalar α] in
theorem upstream_outline : Upstream l b.outline later.outline ↔ Upstream l b later :=
  ⟨fun h => ⟨h.range, h.routes, h.apart⟩, fun h => ⟨h.range, h.routes, h.apart⟩⟩

/-- The blocks of a problem that is used fit their units, and each is upstream of those that are
solved later. -/
theorem Follows.laid_blocks [Shown α] {m : Model α} {start p : Problem α} (hm : m.Sound)
    (h : IsSetUp m start) (hp : start.Follows p) :
    (∀ b ∈ p.blocks.toList, FitsBlock start.arrangement b ∧ b.unitIds.Sublist start.order) ∧
      p.blocks.toList.Pairwise (Upstream start.arrangement) := by
  have houtline : p.blocks.toList.map outline = start.blocks.toList.map outline := by
    rw [← Array.toList_map, ← Array.toList_map, hp.blocks]
  have hmem : ∀ b ∈ start.blocks.toList.map outline,
      FitsBlock start.arrangement b ∧ b.unitIds.Sublist start.order := by
    refine List.forall_mem_map.2 fun b hb => ?_
    have hb := Array.mem_toList_iff.1 hb
    have hsub := h.unitIds_sublist hm hb
    exact ⟨fitsBlock_outline.2 (h.fitsBlock hm hb), hsub⟩
  have hpairs : (start.blocks.toList.map outline).Pairwise (Upstream start.arrangement) :=
    List.pairwise_map.2 ((h.pairwise_upstream hm).imp upstream_outline.2)
  rw [← houtline] at hmem hpairs
  refine ⟨fun b hb => ?_, (List.pairwise_map.1 hpairs).imp upstream_outline.1⟩
  obtain ⟨hfits, hsub⟩ := List.forall_mem_map.1 hmem b hb
  exact ⟨fitsBlock_outline.1 hfits, hsub⟩

section Used

variable [Shown α] {ω : Type} {observer : Observer (NonlinearEvent α) ω} {m : Model α}
  {start p : Problem α}

/-- **The solve of a block writes slots of its range alone**, whatever comes of it. -/
theorem entry_slots_afterBlocks (hm : m.Sound) (h : IsSetUp m start) (hp : start.Follows p) (w : ω)
    {k : Nat} (hk : p.blocks[k]? = some b) {i : Nat} (hi : i ∉ b.range) :
    entry (afterBlocks observer (k + 1) (p, w)).1.store.slots i =
      entry (afterBlocks observer k (p, w)).1.store.slots i := by
  have hget : p.blocks.toList.zipIdx[k]? = some (b, k) := by
    simp [List.getElem?_zipIdx, hk]
  have htake : p.blocks.toList.zipIdx.take (k + 1) =
      p.blocks.toList.zipIdx.take k ++ [(b, k)] := by
    rw [List.take_add_one, hget, Option.toList_some]
  have hfits := ((hp.laid_blocks hm h).1 b (List.mem_of_getElem? (by simpa using hk))).1
  have hbefore := follows_runBlocks observer (p.blocks.toList.zipIdx.take k) (p, w)
  unfold afterBlocks
  rw [htake, runBlocks_append]
  cases hrun : runBlocks observer (p.blocks.toList.zipIdx.take k) (p, w) with
  | error e s =>
    show entry (stateAfter (EStateM.bind _ _ (p, w))).1.store.slots i = _
    unfold EStateM.bind
    rw [hrun]
  | ok reports s =>
    obtain ⟨q, w'⟩ := s
    rw [hrun] at hbefore
    rw [bind_of_ok _ hrun]
    have hsame : ∀ s t u : Problem α × ω,
        entry t.1.store.slots i = entry s.1.store.slots i →
        entry u.1.store.slots i = entry t.1.store.slots i →
        entry u.1.store.slots i = entry s.1.store.slots i := fun _ _ _ h h' => h'.trans h
    have hchanged := changed_runBlock observer k b q w'
    have hq : q.arrangement = start.arrangement :=
      (Follows.arrangement hbefore).trans hp.arrangement
    rw [hq] at hchanged
    refine Preserves.bind_at hsame ?_ fun _ _ _ => rfl
    refine Preserves.bind_at hsame ?_ fun _ s _ => Preserves.bind_at hsame rfl fun _ _ _ => rfl
    exact entry_slots_of_changed hfits hchanged hi

/-- When all blocks are done, the report of each is true. -/
theorem holds_of_runBlocks (hm : m.Sound) (h : IsSetUp m start) (hp : start.Follows p) {w : ω}
    {reports : List (BlockReport α)} {t : Problem α × ω}
    (hrun : runBlocks observer p.blocks.toList.zipIdx (p, w) = .ok reports t) :
    reports.length = p.blocks.size ∧ ∀ (k : Nat) (b : SolverBlock α), p.blocks[k]? = some b →
      ∃ r, reports[k]? = some r ∧ Holds start.arrangement b r t.1 := by
  obtain ⟨hfits, hpairs⟩ := hp.laid_blocks hm h
  rw [← List.zipIdx_map_fst 0 p.blocks.toList] at hpairs
  obtain ⟨hlength, hall⟩ := List.forall₂_iff_get.1 (runBlocks_hold hm h
    (fun e he => hfits _ (List.fst_mem_of_mem_zipIdx he)) (List.pairwise_map.1 hpairs) hp hrun)
  refine ⟨by rw [← hlength, List.length_zipIdx, Array.length_toList], fun k b hk => ?_⟩
  have hlt : k < p.blocks.toList.zipIdx.length := by
    simpa using (Array.getElem?_eq_some_iff.1 hk).1
  have hholds := hall k hlt (hlength ▸ hlt)
  rw [List.get_eq_getElem, List.getElem_zipIdx, Array.getElem_toList,
    (Array.getElem?_eq_some_iff.1 hk).2] at hholds
  exact ⟨_, List.getElem?_eq_getElem (hlength ▸ hlt), hholds⟩

/-- From when a block is done until all are, the block is spared. -/
theorem spared_afterBlocks (hm : m.Sound) (h : IsSetUp m start) (hp : start.Follows p) {w : ω}
    {reports : List (BlockReport α)} {t : Problem α × ω}
    (hrun : runBlocks observer p.blocks.toList.zipIdx (p, w) = .ok reports t) {k n : Nat}
    (hk : p.blocks[k]? = some b) (hn : k < n) :
    Spared start.arrangement b (afterBlocks observer n (p, w)).1 t.1 := by
  obtain ⟨hfits, hpairs⟩ := hp.laid_blocks hm h
  have hlater : ∀ e ∈ p.blocks.toList.zipIdx.drop n,
      Upstream start.arrangement b e.1 ∧ FitsBlock start.arrangement e.1 := by
    intro e he
    obtain ⟨i, hi, rfl⟩ := List.mem_drop_iff_getElem.1 he
    have hlt : n + i < p.blocks.toList.length := by simpa [Nat.add_comm] using hi
    obtain ⟨hklt, rfl⟩ := Array.getElem?_eq_some_iff.1 hk
    rw [List.getElem_zipIdx]
    exact ⟨List.pairwise_iff_getElem.1 hpairs k (n + i) hklt hlt (by omega),
      (hfits _ (List.getElem_mem hlt)).1⟩
  have hb := (hfits b (List.mem_of_getElem? (by simpa using hk))).1
  rw [← List.take_append_drop n p.blocks.toList.zipIdx, runBlocks_append] at hrun
  obtain ⟨first, s, hfirst, hrest⟩ := exists_of_bind_eq_ok hrun
  obtain ⟨others, t', hothers, hpure⟩ := exists_of_bind_eq_ok hrest
  obtain rfl : t' = t := (EStateM.Result.ok.inj hpure).2
  have hs := follows_runBlocks observer (p.blocks.toList.zipIdx.take n) (p, w)
  rw [hfirst] at hs
  have hspared := spared_runBlocks observer hb hlater s.1 s.2
    ((Follows.arrangement hs).trans hp.arrangement)
  rw [hothers] at hspared
  rw [afterBlocks, hfirst]
  exact hspared

omit [Shown α] in
/-- Evaluating all units leaves what is up to date as it is. -/
theorem sameValues_evaluateAll (hm : m.Sound) (h : IsSetUp m start) (hp : start.Follows p)
    (hwrites : ∀ c ∈ m.units, c.WritesResiduals) (hfits : FitsBlock start.arrangement b)
    (hsub : b.unitIds.Sublist start.order) (hdate : b.UpToDate start.arrangement p.assembly)
    {u : Unit} {q : Problem α} (heval : evaluateAll p = .ok u q) :
    b.SameValues start.arrangement p.assembly q.assembly := by
  have hassembly := evaluateAll_eq_ok heval
  rw [hp.arrangement, hp.order] at hassembly
  refine hdate.sameValues hfits (fun u hu => hsub.subset hu) (fun u hu => ?_)
    (h.evaluated hm hp.assembly hassembly)
  have hlt : u < m.units.size := List.mem_range.1 ((h.perm hm).mem_iff.1 (hsub.subset hu))
  obtain ⟨c, hc, halike, hhosts⟩ := h.hosts hm hp.assembly (Array.getElem?_eq_getElem hlt)
  exact ⟨c, hc, hhosts, (hwrites _ (Array.getElem_mem hlt)).alike halike⟩

/-- What running keeps of independent inputs. -/
theorem keptByRuns_independents (hm : m.Sound) (h : IsSetUp m start) :
    KeptByRuns fun p q : Problem α => start.Follows p → start.Follows q ∧
      ∀ r ∈ start.arrangement.independents, slice q.store.slots r = slice p.store.slots r where
  refl _ hp := ⟨hp, fun _ _ => rfl⟩
  trans _ _ _ hpq hqr hp := by
    obtain ⟨hq, hsame⟩ := hpq hp
    obtain ⟨hr, hsame'⟩ := hqr hq
    exact ⟨hr, fun r hr => (hsame' r hr).trans (hsame r hr)⟩
  changed p _ hchanged hp := ⟨.trans _ _ _ hp (.of_assembly p hchanged.follows), fun r _ =>
    congrArg (fun slots => slice slots r) hchanged.slots_eq⟩
  jacobian p hp := ⟨.trans _ _ _ hp (.withJacobian p), fun _ _ => rfl⟩
  cache p _ hcache hp :=
    ⟨.trans _ _ _ hp ⟨rfl, rfl, rfl, rfl, rfl, rfl, .refl _, id, hcache⟩, fun _ _ => rfl⟩
  runBlock observer k b p w hb hp := by
    refine ⟨.trans _ _ _ hp (follows_runBlock observer k b (p, w)), fun r hr => ?_⟩
    obtain ⟨hfits, hsub⟩ := (hp.laid_blocks hm h).1 b (List.mem_of_getElem? (by simpa using hb))
    have hchanged := changed_runBlock observer k b p w
    rw [hp.arrangement] at hchanged
    exact slice_congr fun i hi =>
      entry_slots_of_changed hfits hchanged (h.notMem_range hfits hsub hr hi)

omit [Shown α] in
/-- A run that has a result has solved all blocks and then evaluated all units. -/
theorem runObserved_eq_ok {s : Problem α × ω} {report : RunReport α} {q : Problem α} {w' : ω}
    (hrun : runObserved observer s = .ok report (q, w')) :
    ∃ q', runBlocks observer s.1.blocks.toList.zipIdx s = .ok report.blocks (q', w') ∧
      evaluateAll q' = .ok () q := by
  obtain ⟨p, w⟩ := s
  unfold runObserved at hrun
  dsimp only at hrun
  cases hblocks : runBlocks observer p.blocks.toList.zipIdx (p, w) with
  | error e t =>
    rw [hblocks] at hrun
    cases hrun
  | ok reports t =>
    rw [hblocks] at hrun
    obtain ⟨q', w''⟩ := t
    dsimp only at hrun
    cases heval : evaluateAll q' with
    | error e r =>
      rw [heval] at hrun
      cases hrun
    | ok _ r =>
      rw [heval] at hrun
      cases hrun
      exact ⟨q', rfl, heval⟩

/-- **A finished run is told truly.** Whatever has been done with the problem before, whatever
solvers its blocks have and whoever observes them:

* each block writes its own slots alone, and the slots of independent inputs stay as they are, also
  when a solve fails;
* when the run has a result, each report has the norm of the residuals that the block has at the
  end, and no later block and no evaluation has changed the inputs, outputs and residuals that the
  block had when it was done. -/
theorem reports_hold [BitPattern α] (hm : m.Built) (hstart : m.setup = .ok start)
    (hp : Reached start p) (hwrites : ∀ c ∈ m.units, c.WritesResiduals)
    (observer : Observer (NonlinearEvent α) ω) (w : ω) :
    (∀ (k : Nat) (b : SolverBlock α), p.blocks[k]? = some b → ∀ i ∉ b.range,
      entry (afterBlocks observer (k + 1) (p, w)).1.store.slots i =
        entry (afterBlocks observer k (p, w)).1.store.slots i) ∧
    (∀ r ∈ p.arrangement.independents,
      slice (stateAfter (runObserved observer (p, w))).1.store.slots r = slice p.store.slots r) ∧
    ∀ (report : RunReport α) (q : Problem α) (w' : ω), runObserved observer (p, w) = .ok report (q, w') →
      report.blocks.length = p.blocks.size ∧
      ∀ (k : Nat) (b : SolverBlock α), p.blocks[k]? = some b → ∃ r : BlockReport α,
        report.blocks[k]? = some r ∧ r.name = b.name ∧
        r.solution.residualNorm = Vec.norm (slice q.store.residuals b.range) ∧
        ∀ n, k < n → b.SameValues p.arrangement (afterBlocks observer n (p, w)).1.assembly
          q.assembly := by
  have h := setup_spec hm.sound hstart
  have hfollows := hp.follows
  refine ⟨fun k b hk i hi => entry_slots_afterBlocks hm.sound h hfollows w hk hi, fun r hr => ?_, ?_⟩
  · rw [hfollows.arrangement] at hr
    exact ((keptByRuns_independents hm.sound h).runObserved observer p w hfollows).2 r hr
  · intro report q w' hrun
    obtain ⟨q', hblocks, heval⟩ := runObserved_eq_ok hrun
    obtain ⟨hlength, hreports⟩ := holds_of_runBlocks hm.sound h hfollows hblocks
    refine ⟨hlength, fun k b hk => ?_⟩
    obtain ⟨r, hr, hholds⟩ := hreports k b hk
    have hsteps := follows_runBlocks observer p.blocks.toList.zipIdx (p, w)
    rw [hblocks] at hsteps
    obtain ⟨hfits, hsub⟩ := (hfollows.laid_blocks hm.sound h).1 b
      (List.mem_of_getElem? (by simpa using hk))
    have hend := sameValues_evaluateAll hm.sound h (.trans _ _ _ hfollows hsteps) hwrites hfits hsub
      hholds.upToDate heval
    refine ⟨r, hr, hholds.name, hholds.residualNorm.trans (congrArg Vec.norm hend.residuals.symm),
      fun n hn => ?_⟩
    rw [hfollows.arrangement]
    exact (spared_afterBlocks hm.sound h hfollows hblocks hk hn).sameValues.trans hend

end Used

end Problem

namespace Doubling

/-- Two doubling units in a row report what they end with. -/
theorem reports_of_chain : chain.Built ∧ (∀ c ∈ chain.units, c.WritesResiduals) ∧
    ∃ start report q, chain.setup = .ok start ∧
      Problem.runObserved .silent (start, ()) = .ok report (q, ()) ∧ report.blocks.length = 2 ∧
      ∀ (k : Nat) (b : SolverBlock ℚ), start.blocks[k]? = some b → ∃ r : BlockReport ℚ,
        report.blocks[k]? = some r ∧ r.name = b.name ∧
        r.solution.residualNorm = Vec.norm (slice q.store.residuals b.range) := by
  have hwrites : ∀ c ∈ chain.units, c.WritesResiduals := fun c hc => by
    obtain ⟨d, hd, -⟩ := computes_chain c hc
    exact Component.writesResiduals_of_explicit hd
  obtain ⟨start, hstart, h⟩ := Problem.setup_of_default built_chain.sound options_chain
  have hexplicit : ∀ c ∈ chain.units, c.isImplicit = false := fun c hc =>
    (computes_chain c hc).isImplicit
  obtain ⟨q, hrun, -⟩ := Problem.run_of_follows (f := fun _ => double) (.silent : Observer (NonlinearEvent ℚ) Unit) ()
    built_chain.sound h options_chain feedForward_chain computes_chain (.refl start)
  obtain ⟨-, -, hreports⟩ := Problem.reports_hold built_chain hstart .start hwrites
    (.silent : Observer (NonlinearEvent ℚ) Unit) ()
  obtain ⟨hlength, hall⟩ := hreports _ q () hrun
  refine ⟨built_chain, hwrites, start, _, q, hstart, hrun, ?_, fun k b hk => ?_⟩
  · rw [hlength]
    have hsweeps := h.sweeps built_chain.sound options_chain feedForward_chain hexplicit
    rw [← Array.length_toList, hsweeps.length_eq, (h.perm built_chain.sound).length_eq,
      List.length_range, units_chain]
    rfl
  · obtain ⟨r, hr, hname, hnorm, -⟩ := hall k b hk
    exact ⟨r, hr, hname, hnorm⟩

end Doubling

end Mdao
