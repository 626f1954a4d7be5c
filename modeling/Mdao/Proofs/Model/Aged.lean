import Mdao.Proofs.Component.Afresh
import Mdao.Proofs.Model.Reports

/-!
# Problems that have been used

What a use of a problem changes besides values is the derivatives of its units, which age
(`Component.Aged`), and what the blocks remember: the Jacobian of a block, if there is one, was built
from units that differ in derivatives only. `Problem.Aged` says this of a problem, and every use keeps
it (`keptByUse_aged`).
-/

namespace Mdao

open Vec

variable {α : Type} [Scalar α]

/-! ### Units and values -/

namespace Assembly

variable {l : Arrangement α} {us vs : List Nat} {spans : List Span} {a b b' : Assembly α}

/-- Units and values that come from others by steps on some units. -/
structure Aged (l : Arrangement α) (us : List Nat) (a b : Assembly α) : Prop where
  follows : a.Follows b
  units : ∀ (u : Nat) (c c' : Component α), a.units[u]? = some c → b.units[u]? = some c' → c.Aged c'
  residuals : ∀ k, (∀ u ∈ us, k ∉ (l.unit u).outputs) →
    entry b.store.residuals k = entry a.store.residuals k

theorem Aged.refl (a : Assembly α) : a.Aged l us a := by
  refine ⟨.refl a, fun u c c' hc hc' => ?_, fun _ _ => rfl⟩
  obtain rfl := Option.some.inj (hc.symm.trans hc')
  exact .refl c

/-- Steps on units age units. -/
theorem Changed.units_aged (h : Changed l vs spans b b')
    (hhosts : ∀ (u : Nat) (c : Component α), a.units[u]? = some c → a.Hosts (l.unit u) c)
    (hb : ∀ (u : Nat) (c c' : Component α), a.units[u]? = some c → b.units[u]? = some c' →
      c.Aged c') (u : Nat) (c c' : Component α) (hc : a.units[u]? = some c)
    (hc' : b'.units[u]? = some c') : c.Aged c' := by
  induction h generalizing u c c' with
  | refl b => exact hb u c c' hc hc'
  | trans _ _ ih ih' => exact ih' (fun u c c' => ih hb u c c') u c c' hc hc'
  | transfer _ b => exact hb u c c' hc hc'
  | residuals _ b r => exact hb u c c' hc hc'
  | slots _ b y => exact hb u c c' hc hc'
  | linearized hu hd strict =>
    rename_i w b d
    rw [withUnit, Array.getElem?_setIfInBounds] at hc'
    split_ifs at hc' with hwu hlt
    · subst hwu
      obtain rfl := Option.some.inj hc'
      have hplace := hhosts w c hc
      refine (hb w c d hc hd).linearize ?_ ?_ strict
      · rw [inputsOf, size_slice, hplace.inputs]
      · rw [outputsOf, size_slice, hplace.fits.size_outputs]
    · exact hb u c c' hc hc'

/-- **Steps on units age units and values.** -/
theorem Aged.changed (hb : a.Aged l us b) (h : Changed l vs spans b b')
    (hhosts : ∀ (u : Nat) (c : Component α), a.units[u]? = some c → a.Hosts (l.unit u) c)
    (hvs : ∀ u ∈ vs, u ∈ us) : a.Aged l us b' :=
  ⟨.trans _ _ _ hb.follows h.follows, h.units_aged hhosts hb.units, fun k hk =>
    (h.entry_residuals fun u hu => hk u (hvs u hu)).trans (hb.residuals k hk)⟩

end Assembly

/-! ### Blocks -/

namespace SolverBlock

open Assembly

variable {l : Arrangement α} {b : SolverBlock α} {a : Assembly α}

/-- The Jacobian of a block, if there is one, was built from units that differ from given ones in
derivatives only. -/
def HasBuilt (b : SolverBlock α) (l : Arrangement α) (units : Array (Component α))
    (j? : Option (Jacobian α)) : Prop :=
  ∀ j, j? = some j → ∃ units', Component.AllAlike units units' ∧
    j = .build l units' b.unitIds b.range

/-- A Jacobian that was built is assembled as it would be built. -/
theorem assemble_eq {s : State α} (hs : a.Follows s.assembly)
    (h : b.HasBuilt l a.units s.jacobian) :
    b.assemble l s = .build l s.assembly.units b.unitIds b.range := by
  unfold assemble
  cases hj : s.jacobian with
  | none => rfl
  | some j =>
    obtain ⟨units, halike, rfl⟩ := h j hj
    exact Jacobian.refresh_build (hs.units.symm.trans halike).symm b.unitIds b.range

/-- What the solve of a block does to its units and its Jacobian. -/
def Solves (b : SolverBlock α) (l : Arrangement α) (a : Assembly α) (s t : State α) : Prop :=
  Changed l b.unitIds (b.spans l) s.assembly t.assembly ∧
    (a.Follows s.assembly → b.HasBuilt l a.units s.jacobian → b.HasBuilt l a.units t.jacobian)

/-- **The solve of a block** changes its units, slots of the block alone, and keeps a Jacobian that was
built. -/
theorem keeps_solves (b : SolverBlock α) (l : Arrangement α) (strict : Option α) (a : Assembly α) :
    (b.system l strict).Keeps (b.Solves l a) where
  refl s := ⟨.refl s.assembly, fun _ => id⟩
  trans s t u h h' := ⟨h.1.trans h'.1, fun hs hj =>
    h'.2 (.trans _ _ _ hs h.1.follows) (h.2 hs hj)⟩
  setState x s := ⟨(b.keeps_changed l strict).setState x s, fun _ => id⟩
  residuals s := by
    refine ⟨(b.keeps_changed l strict).residuals s, fun _ hj => ?_⟩
    show b.HasBuilt l a.units (stateAfter (b.residuals l s)).jacobian
    unfold residuals
    cases evaluateAll l b.unitIds s.assembly with
    | ok _ _ => exact hj
    | error _ _ => exact hj
  linearize s := by
    have hchanged := (b.keeps_changed l strict).linearize s
    refine ⟨hchanged, fun hs hj => ?_⟩
    have hfollows := Follows.trans _ _ _ hs (Changed.follows hchanged)
    revert hfollows
    show a.Follows (stateAfter (b.linearize l strict s)).assembly →
      b.HasBuilt l a.units (stateAfter (b.linearize l strict s)).jacobian
    unfold linearize State.lift
    cases linearizeAll l strict b.unitIds s.assembly with
    | error e c => exact fun _ => hj
    | ok _ c =>
      dsimp only
      split_ifs
      · intro hfollows j hsome
        obtain rfl := Option.some.inj hsome
        have hc : a.Follows c := hfollows
        exact ⟨c.units, hc.units, assemble_eq (s := ⟨c, s.jacobian⟩) hc hj⟩
      · exact fun _ => hj
  sweep s := by
    refine ⟨(b.keeps_changed l strict).sweep s, fun _ hj => ?_⟩
    show b.HasBuilt l a.units (stateAfter (State.lift (solveAll l b.unitIds) s)).jacobian
    unfold State.lift
    cases solveAll l b.unitIds s.assembly with
    | ok _ _ => exact hj
    | error _ _ => exact hj
  guess s := by
    refine ⟨(b.keeps_changed l strict).guess s, fun _ hj => ?_⟩
    show b.HasBuilt l a.units (stateAfter (State.lift (guessAll l b.unitIds) s)).jacobian
    unfold State.lift
    cases guessAll l b.unitIds s.assembly with
    | ok _ _ => exact hj
    | error _ _ => exact hj

end SolverBlock

/-! ### Problems -/

namespace Problem

open Assembly Model SolverBlock

/-- A problem that comes from another by using it. -/
structure Aged (start p : Problem α) : Prop where
  follows : start.Follows p
  assembly : start.assembly.Aged start.arrangement start.order p.assembly
  blocks : ∀ b ∈ p.blocks, b.HasBuilt start.arrangement start.assembly.units b.jacobian

variable [Shown α] {m : Model α} {start p : Problem α}

/-- A problem that is set up has not been used. -/
theorem Aged.refl (h : IsSetUp m start) : start.Aged start := by
  refine ⟨.refl start, .refl _, fun b hb j hj => ?_⟩
  obtain ⟨g, rfl⟩ := h.eq_blockOf hb
  cases hj

omit [Shown α] in
/-- The places of the units of a problem that is set up. -/
theorem hosts_start (hm : m.Sound) (h : IsSetUp m start) (u : Nat) (c : Component α)
    (hc : start.assembly.units[u]? = some c) :
    start.assembly.Hosts (start.arrangement.unit u) c := by
  rw [h.units] at hc
  obtain ⟨c', hc', -, hhosts⟩ := h.hosts hm (.refl _) hc
  rw [h.units, hc] at hc'
  exact Option.some.inj hc' ▸ hhosts

/-- **Using a problem ages it**, and does nothing else to it but change values. -/
theorem keptByUse_aged (hm : m.Sound) (h : IsSetUp m start) :
    KeptByUse fun p q : Problem α => p.store.SameShape q.store ∧ (start.Aged p → start.Aged q) where
  refl p := ⟨.refl _, id⟩
  trans p q r hpq hqr := ⟨hpq.1.trans hqr.1, hqr.2 ∘ hpq.2⟩
  changed p a hchanged := ⟨hchanged.follows.store, fun hp =>
    ⟨.trans _ _ _ hp.follows (.of_assembly p hchanged.follows),
      hp.assembly.changed (hp.follows.arrangement ▸ hchanged) (hosts_start hm h) fun u hu =>
        hp.follows.order ▸ hu, hp.blocks⟩⟩
  jacobian p := ⟨.refl _, fun hp =>
    ⟨.trans _ _ _ hp.follows (.withJacobian p), hp.assembly, hp.blocks⟩⟩
  cache p _ hcache := ⟨.refl _, fun hp =>
    ⟨.trans _ _ _ hp.follows ⟨rfl, rfl, rfl, rfl, rfl, rfl, .refl _, id, hcache⟩, hp.assembly,
      hp.blocks⟩⟩
  runBlock observer k b p w hb := by
    have hfollows := follows_runBlock observer k b (p, w)
    refine ⟨(Follows.assembly hfollows).store, fun hp => ?_⟩
    obtain ⟨s, hs, hchanged, hbuilt⟩ := stateAfter_runBlock_of_keeps observer k b p w
      (b.keeps_solves p.arrangement p.options.strictPartials start.assembly)
    have hsub := ((hp.follows.laid_blocks hm h).1 b (List.mem_of_getElem? (by simpa using hb))).2
    rw [hs] at hfollows ⊢
    rw [hp.follows.arrangement] at hchanged hbuilt
    refine ⟨.trans _ _ _ hp.follows hfollows,
      hp.assembly.changed hchanged (hosts_start hm h) fun u hu => hsub.subset hu, fun d hd => ?_⟩
    obtain ⟨i, hi, rfl⟩ := Array.getElem_of_mem hd
    simp only [afterBlock, Array.getElem_modify]
    have hlt : i < p.blocks.size := by simpa [afterBlock] using hi
    split_ifs with hki
    · subst hki
      rw [(Array.getElem?_eq_some_iff.1 hb).2]
      exact hbuilt hp.follows.assembly (hp.blocks b (Array.mem_of_getElem? hb))
    · exact hp.blocks _ (Array.getElem_mem hlt)
  shape _ _ h := h.1
  withStore p s hshape hresiduals := ⟨hshape, fun hp =>
    ⟨.trans _ _ _ hp.follows (.of_store p hshape),
      ⟨.trans _ _ _ hp.assembly.follows (.of_values hshape rfl), hp.assembly.units, fun k hk => by
        rw [← hp.assembly.residuals k hk]
        exact congrArg (fun r => entry r k) hresiduals⟩, hp.blocks⟩⟩

/-- **A problem that is reached by using it has aged.** -/
theorem Reached.aged [BitPattern α] (hm : m.Sound) (h : IsSetUp m start) (hp : Reached start p) :
    start.Aged p := (hp.kept (keptByUse_aged hm h)).2 (.refl h)

end Problem

end Mdao
