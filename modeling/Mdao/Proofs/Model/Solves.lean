import Mathlib
import Mdao.Model.Totals
import Mdao.Proofs.Coloring.Recovery
import Mdao.Proofs.Linear.Exact
import Mdao.Proofs.Step

/-!
# Totals by exact solves

With a linear solver that returns exact solutions, the totals are entries of the inverse Jacobian,
scaled by the factors of the quantities (`totalAt`). Forward, each solve gives a column of them, in
reverse a row (`solveTotals_of_shows`); with a coloring each solve gives a sum of columns or of rows
(`isProducts_groups`), from which they are recovered.
-/

namespace Mdao

open Vec Matrix

variable {α : Type} [ExactScalar α] {n : Nat}

namespace Quantities

/-- All slots of some quantities are below a number. -/
def Within (q : Quantities α) (n : Nat) : Prop := ∀ e ∈ q.entries, e.1 < n

variable {q : Quantities α}

omit [ExactScalar α] in
@[simp] theorem length_slots (q : Quantities α) : q.slots.length = q.length := List.length_map _

theorem Within.entry (h : q.Within n) {i : Nat} (hi : i < q.length) :
    (q.entries.getD i (0, 0)).1 < n := by
  have hi' : i < q.entries.length := hi
  rw [List.getD_eq_getElem _ _ hi']
  exact h _ (List.getElem_mem hi')

omit [ExactScalar α] in
theorem Within.slot (h : q.Within n) {j : Nat} (hj : j < q.length) : q.slots.getD j 0 < n := by
  have hj' : j < q.slots.length := by rwa [length_slots]
  rw [List.getD_eq_getElem _ _ hj']
  obtain ⟨e, he, heq⟩ := List.mem_map.1 (List.getElem_mem hj')
  rw [← heq]
  exact h e he

omit [ExactScalar α] in
theorem Within.of_mem_slots (h : q.Within n) {k : Nat} (hk : k ∈ q.slots) : k < n := by
  obtain ⟨e, he, rfl⟩ := List.mem_map.1 hk
  exact h e he

end Quantities

open Quantities

namespace Problem

/-- **The total derivative** of one entry with respect to another: the entry of the inverse Jacobian
at their slots, scaled. -/
noncomputable def totalAt (J : Matrix (Fin n) (Fin n) α) (rows cols : Quantities α)
    (i j : Nat) : α :=
  if j < cols.length then
    (rows.entries.getD i (0, 0)).2 *
      coeff J⁻¹ (rows.entries.getD i (0, 0)).1 (cols.slots.getD j 0)
  else 0

/-- All total derivatives, row by row. -/
noncomputable def exactTotals (J : Matrix (Fin n) (Fin n) α) (rows cols : Quantities α) : Array α :=
  rowMajor rows.length cols.length (totalAt J rows cols)

variable {J : Matrix (Fin n) (Fin n) α} {rows cols : Quantities α}

theorem totalAt_of_lt {i j : Nat} (hj : j < cols.length) : totalAt J rows cols i j =
    (rows.entries.getD i (0, 0)).2 *
      coeff J⁻¹ (rows.entries.getD i (0, 0)).1 (cols.slots.getD j 0) := if_pos hj

/-- A list mapped is a map over its positions. -/
theorem map_eq_map_range {β γ : Type} (l : List β) (d : β) (f : β → γ) :
    l.map f = (List.range l.length).map fun i => f (l.getD i d) := by
  refine List.ext_getElem (by simp) fun i h1 h2 => ?_
  have hi : i < l.length := by simpa using h1
  simp [hi]

theorem entry_toArray_map {β : Type} (l : List β) (d : β) (f : β → α) {i : Nat}
    (hi : i < l.length) : entry (l.map f).toArray i = f (l.getD i d) := by
  rw [entry_toArray]
  simp [hi]

/-! ### One solve for each right-hand side -/

section Solves

variable {config : LinearConfig α} {op : Operator α} {Ready : LinearMemory α → Prop}

omit [ExactScalar α] in
/-- **Several solves, each of which can be said something of.** -/
theorem solveEach_spec [Scalar α] {config : LinearConfig α} {op : Operator α}
    {Ready : LinearMemory α → Prop} {β : Type} (rhs : β → Array α) (mode : Mode)
    (read : Array α → Array α) (R : β → Array α → Prop) {bs : List β}
    (h : ∀ b ∈ bs, ∀ m, Ready m → ∃ s m', config.solve op mode (rhs b) m = .ok s m' ∧ Ready m' ∧
      R b (read s.x)) {m : LinearMemory α} (hm : Ready m) :
    ∃ ys m', solveEach config op mode read (bs.map rhs) m = .ok ys m' ∧ Ready m' ∧
      List.Forall₂ R bs ys := by
  induction bs generalizing m with
  | nil => exact ⟨[], m, rfl, hm, .nil⟩
  | cons b bs ih =>
    obtain ⟨s, m1, hs, hm1, hread⟩ := h b List.mem_cons_self m hm
    obtain ⟨ys, m2, hrest, hm2, hys⟩ := ih (fun c hc => h c (List.mem_cons_of_mem _ hc)) hm1
    have hfirst : solveFor config op mode (rhs b) m = .ok s.x m1 := by
      rw [solveFor, bind_of_ok _ hs]
      rfl
    refine ⟨read s.x :: ys, m2, ?_, hm2, .cons hread hys⟩
    rw [List.map_cons, solveEach, bind_of_ok _ hfirst, bind_of_ok _ hrest]
    rfl

omit [ExactScalar α] in
/-- Lists of the same values. -/
theorem map_eq_of_forall₂ {β γ δ : Type} {f : β → δ} {g : γ → δ} {bs : List β} {cs : List γ}
    (h : List.Forall₂ (fun b c => g c = f b) bs cs) : cs.map g = bs.map f := by
  induction h with
  | nil => rfl
  | cons hhead _ ih => rw [List.map_cons, List.map_cons, hhead, ih]

/-- Exact solves read from the solution of each system. -/
theorem solveEach_eq (hop : op.IsMatrix J) (hJ : J.det ≠ 0) (hsolve : config.SolvesFrom op Ready)
    (mode : Mode) (read : Array α → Array α) {rhss : List (Array α)} {m : LinearMemory α}
    (hm : Ready m) (hrhs : ∀ b ∈ rhss, b.size = n) :
    ∃ m', solveEach config op mode read rhss m =
        .ok (rhss.map fun b => read (solution J mode b)) m' ∧ Ready m' := by
  obtain ⟨ys, m', hys, hm', hread⟩ := solveEach_spec id mode read
    (fun b y => y = read (solution J mode b)) (fun b hb m hm => by
      obtain ⟨s, m', hs, hm', hsize, happly⟩ := hsolve m hm mode b ((hrhs b hb).trans hop.dim.symm)
      exact ⟨s, m', hs, hm', congrArg read (eq_solution hop hJ (hsize.trans hop.dim) happly)⟩) hm
  refine ⟨m', ?_, hm'⟩
  rw [List.map_id] at hys
  rw [hys, ← map_eq_of_forall₂ hread, List.map_id']

/-- The matrix with the factor of a quantity times what a function has for its slot and that of an
input, row by row. -/
def scaledTable (rows cols : Quantities α) (G : Nat → Nat → α) : Array α :=
  rowMajor rows.length cols.length fun i j =>
    (rows.entries.getD i (0, 0)).2 * G (rows.entries.getD i (0, 0)).1 (cols.slots.getD j 0)

/-- The table from its columns. -/
theorem ofColumns_eq_scaledTable (rows cols : Quantities α) (G : Nat → Nat → α) :
    ofColumns rows.length (cols.slots.map fun k => (rows.entries.map fun e => e.2 * G e.1 k).toArray) =
      scaledTable rows cols G := by
  rw [ofColumns, scaledTable, ← flatMap_range_eq]
  refine congrArg List.toArray (List.flatMap_congr fun i hi => ?_)
  rw [List.map_map, map_eq_map_range cols.slots 0, length_slots]
  refine List.map_congr_left fun j _ => ?_
  rw [Function.comp_apply, entry_toArray_map _ (0, 0) _ (List.mem_range.1 hi)]

/-- What solves for unit vectors show at the slots of interest, forward at those of quantities and
in reverse at those of inputs. -/
def Shows (config : LinearConfig α) (op : Operator α) (Ready : LinearMemory α → Prop)
    (rows cols : Quantities α) (G : Nat → Nat → α) : Mode → Prop
  | .fwd => ∀ k ∈ cols.slots, ∀ m, Ready m → ∃ s m',
      config.solve op .fwd (unit op.dim k) m = .ok s m' ∧ Ready m' ∧
        ∀ i ∈ rows.slots, entry s.x i = G i k
  | .rev => ∀ i ∈ rows.slots, ∀ m, Ready m → ∃ s m',
      config.solve op .rev (unit op.dim i) m = .ok s m' ∧ Ready m' ∧
        ∀ k ∈ cols.slots, entry s.x k = G i k

/-- **Totals are what the solves show**, in either mode. -/
theorem solveTotals_of_shows {G : Nat → Nat → α} {mode : Mode}
    (h : Shows config op Ready rows cols G mode) {m : LinearMemory α} (hm : Ready m) :
    ∃ m', solveTotals config op rows cols mode m = .ok (scaledTable rows cols G) m' := by
  cases mode with
  | fwd =>
    obtain ⟨columns, m', hcolumns, -, hread⟩ := solveEach_spec (unit op.dim) .fwd rows.readFrom
      (fun k y => y = (rows.entries.map fun e => e.2 * G e.1 k).toArray) (fun k hk m hm => by
        obtain ⟨s, m', hs, hm', hshow⟩ := h k hk m hm
        refine ⟨s, m', hs, hm', congrArg List.toArray (List.map_congr_left fun e he => ?_)⟩
        rw [hshow e.1 (List.mem_map.2 ⟨e, he, rfl⟩)]) hm
    have hmap := map_eq_of_forall₂ (g := id) hread
    rw [List.map_id] at hmap
    refine ⟨m', (bind_of_ok _ hcolumns).trans (congrArg (EStateM.Result.ok · m') ?_)⟩
    rw [hmap]
    exact ofColumns_eq_scaledTable rows cols G
  | rev =>
    obtain ⟨xs, m', hxs, -, hread⟩ := solveEach_spec (fun e : Nat × α => unit op.dim e.1) .rev id
      (fun e x => ∀ k ∈ cols.slots, entry x k = G e.1 k)
      (fun e he m hm => h e.1 (List.mem_map.2 ⟨e, he, rfl⟩) m hm) hm
    have hslots : rows.slots.map (unit op.dim) =
        rows.entries.map fun e => (unit op.dim e.1 : Array α) := List.map_map
    rw [← hslots] at hxs
    refine ⟨m', (bind_of_ok _ hxs).trans (congrArg (EStateM.Result.ok · m') ?_)⟩
    have hzip : List.zipWith
        (fun scale x => (cols.slots.map fun k => scale * entry x k).toArray) rows.scales xs =
        rows.entries.map fun e => (cols.slots.map fun k => e.2 * G e.1 k).toArray := by
      rw [Quantities.scales]
      clear hxs hslots
      generalize rows.entries = es at hread
      induction hread with
      | nil => rfl
      | cons hhead _ ih =>
        rw [List.map_cons, List.zipWith_cons_cons, List.map_cons, ih,
          List.map_congr_left fun k hk => by rw [hhead k hk]]
    rw [ofRows, scaledTable, ← flatMap_range_eq, hzip, map_eq_map_range rows.entries (0, 0),
      List.flatMap_map]
    refine congrArg List.toArray (List.flatMap_congr fun i _ => List.map_congr_left fun j hj => ?_)
    rw [entry_toArray_map _ 0 _ (by rw [length_slots]; exact List.mem_range.1 hj)]

/-- The quantities that a mode solves for, one solve for each entry. -/
def solvedFor (rows cols : Quantities α) : Mode → Quantities α
  | .fwd => cols
  | .rev => rows

/-- A first solve that fails makes all of them fail. -/
theorem solveTotals_of_error {mode : Mode} {k : Nat} {slots : List Nat}
    (hslots : (solvedFor rows cols mode).slots = k :: slots) {m m' : LinearMemory α}
    {e : LinearError} (h : config.solve op mode (unit op.dim k) m = .error e m') :
    solveTotals config op rows cols mode m = .error e m' := by
  have hfirst : solveFor config op mode (unit op.dim k) m = .error e m' := bind_of_error _ h
  have hall : ∀ read, solveEach config op mode read
      ((solvedFor rows cols mode).slots.map (unit op.dim)) m = .error e m' := fun read => by
    rw [hslots, List.map_cons, solveEach, bind_of_error _ hfirst]
  cases mode with
  | fwd => exact bind_of_error _ (hall rows.readFrom)
  | rev => exact bind_of_error _ (hall id)

/-- Where nothing is solved for, there is nothing that could fail, and the table is empty. -/
theorem solveTotals_of_nil {mode : Mode} (hslots : (solvedFor rows cols mode).slots = [])
    (G : Nat → Nat → α) (m : LinearMemory α) :
    ∃ m', solveTotals config op rows cols mode m = .ok (scaledTable rows cols G) m' := by
  have hshows : Shows config op (fun _ => True) rows cols G mode := by
    cases mode with
    | fwd =>
      intro k hk
      rw [show cols.slots = [] from hslots] at hk
      cases hk
    | rev =>
      intro i hi
      rw [show rows.slots = [] from hslots] at hi
      cases hi
  exact solveTotals_of_shows hshows trivial

/-- With exact solves, these are the total derivatives. -/
theorem scaledTable_coeff_inv (J : Matrix (Fin n) (Fin n) α) (rows cols : Quantities α) :
    scaledTable rows cols (coeff J⁻¹) = exactTotals J rows cols :=
  rowMajor_eq_iff.2 fun _ _ _ hj => (totalAt_of_lt hj).symm

/-- Exact solves for unit vectors show the inverse Jacobian. -/
theorem shows_coeff_inv (hop : op.IsMatrix J) (hJ : J.det ≠ 0) (hsolve : config.SolvesFrom op Ready)
    (hrows : rows.Within n) (hcols : cols.Within n) (mode : Mode) :
    Shows config op Ready rows cols (coeff J⁻¹) mode := by
  have hsolution : ∀ mode k, ∀ m, Ready m → ∃ s m', config.solve op mode (unit op.dim k) m =
      .ok s m' ∧ Ready m' ∧ ∀ i < n, entry s.x i = inverseAt J mode i k := by
    intro mode k m hm
    obtain ⟨s, m', hs, hm', hsize, happly⟩ := hsolve m hm mode (unit op.dim k) (size_unit _ _)
    refine ⟨s, m', hs, hm', fun i hi => ?_⟩
    rw [eq_solution hop hJ (hsize.trans hop.dim) happly, hop.dim, entry_solution_unit _ _ hi]
  cases mode with
  | fwd =>
    intro k _ m hm
    obtain ⟨s, m', hs, hm', hentry⟩ := hsolution .fwd k m hm
    exact ⟨s, m', hs, hm', fun i hi => hentry i (hrows.of_mem_slots hi)⟩
  | rev =>
    intro i _ m hm
    obtain ⟨s, m', hs, hm', hentry⟩ := hsolution .rev i m hm
    exact ⟨s, m', hs, hm', fun k hk => hentry k (hcols.of_mem_slots hk)⟩

/-! ### One solve for each group -/

/-- The entries of quantities of interest in the solution for a group of inputs are sums of
totals. -/
theorem entry_readFrom_columnSeed (hrows : rows.Within n) {group : List Nat}
    (hgroup : ∀ j ∈ group, j < cols.length) {i : Nat} (hi : i < rows.length) :
    entry (rows.readFrom (solution J .fwd (columnSeed n cols group))) i =
      (group.map (totalAt J rows cols i)).sum := by
  have hslot : (rows.entries.getD i (0, 0)).1 < n := hrows.entry hi
  rw [Quantities.readFrom, entry_toArray_map _ (0, 0) _ hi, columnSeed, entry_solution _ _ hslot,
    List.map_map, ← List.sum_map_mul_left]
  refine congrArg List.sum (List.map_congr_left fun j hj => ?_)
  rw [totalAt_of_lt (hgroup j hj), Function.comp_apply, mul_one]
  rfl

/-- The entries of inputs in the solution for a group of quantities of interest are sums of
totals. -/
theorem entry_readColumns_rowSeed (hcols : cols.Within n) (group : List Nat) {j : Nat}
    (hj : j < cols.length) :
    entry (cols.slots.map (entry (solution J .rev (rowSeed n rows group)))).toArray j =
      (group.map fun i => totalAt J rows cols i j).sum := by
  rw [entry_toArray_map _ 0 _ (by rwa [length_slots]), rowSeed,
    entry_solution _ _ (hcols.slot hj), List.map_map]
  refine congrArg List.sum (List.map_congr_left fun i _ => ?_)
  rw [totalAt_of_lt hj, Function.comp_apply, mul_comm]
  rfl

/-- **The solutions for the groups of a coloring are its products.** -/
theorem isProducts_groups {c : Coloring} (hc : c.Separates) (hrows : rows.Within n)
    (hcols : cols.Within n) (hnrows : c.pattern.nrows = rows.length)
    (hncols : c.pattern.ncols = cols.length) :
    c.IsProducts (totalAt J rows cols)
      (c.fwd.map fun g => rows.readFrom (solution J .fwd (columnSeed n cols g)))
      (c.rev.map fun g =>
        (cols.slots.map (entry (solution J .rev (rowSeed n rows g)))).toArray) where
  length_fwd := List.length_map _
  length_rev := List.length_map _
  size_fwd x hx := by
    obtain ⟨g, -, rfl⟩ := List.mem_map.1 hx
    simp [Quantities.readFrom, Quantities.length, hnrows]
  size_rev x hx := by
    obtain ⟨g, -, rfl⟩ := List.mem_map.1 hx
    simp [length_slots, hncols]
  entry_fwd k i hi := by
    rw [hnrows] at hi
    by_cases hk : k < c.fwd.length
    · have hgroup : ∀ j ∈ c.fwd.getD k [], j < cols.length := fun j hj => by
        rw [← hncols]
        exact hc.fwd_lt k j hj
      rw [← entry_readFrom_columnSeed hrows hgroup hi]
      simp [Coloring.productEntry, hk]
    · simp [Coloring.productEntry, hk]
  entry_rev k j hj := by
    rw [hncols] at hj
    by_cases hk : k < c.rev.length
    · rw [← entry_readColumns_rowSeed hcols (c.rev.getD k []) hj]
      simp [Coloring.productEntry, hk]
    · simp [Coloring.productEntry, hk]

/-- The solves for the groups of a coloring. -/
theorem groupProducts_eq (hop : op.IsMatrix J) (hJ : J.det ≠ 0)
    (hsolve : config.SolvesFrom op Ready) (rows cols : Quantities α) (c : Coloring)
    {m : LinearMemory α} (hm : Ready m) :
    ∃ m', groupProducts config op rows cols c m =
      .ok (c.fwd.map fun g => rows.readFrom (solution J .fwd (columnSeed n cols g)),
        c.rev.map fun g =>
          (cols.slots.map (entry (solution J .rev (rowSeed n rows g)))).toArray) m' := by
  have hfwd : ∀ b ∈ c.fwd.map (columnSeed op.dim cols), (b : Array α).size = n := by
    intro b hb
    obtain ⟨g, -, rfl⟩ := List.mem_map.1 hb
    simp [columnSeed, hop.dim]
  have hrev : ∀ b ∈ c.rev.map (rowSeed op.dim rows), (b : Array α).size = n := by
    intro b hb
    obtain ⟨g, -, rfl⟩ := List.mem_map.1 hb
    simp [rowSeed, hop.dim]
  obtain ⟨m1, h1, hm1⟩ := solveEach_eq hop hJ hsolve .fwd rows.readFrom hm hfwd
  obtain ⟨m2, h2, -⟩ := solveEach_eq hop hJ hsolve .rev
    (fun x => (cols.slots.map (entry x)).toArray) hm1 hrev
  refine ⟨m2, ?_⟩
  refine (bind_of_ok _ h1).trans ((bind_of_ok _ h2).trans ?_)
  rw [List.map_map, List.map_map, hop.dim]
  rfl

/-! ### Totals of a problem -/

variable {p : Problem α}

omit [ExactScalar α] in
theorem withLinear_eq_ok {β : Type} {setup : EStateM LinearError (LinearMemory α) Unit}
    {step : EStateM LinearError (LinearMemory α) β} {m m' : LinearMemory α} {b : β}
    (hsetup : setup .blank = .ok () m) (hstep : step m = .ok b m') :
    withLinear (do setup; step) = .ok b := by
  rw [withLinear, bind_of_ok _ hsetup, hstep]

/-- **Totals in either mode**, with a linear solver that returns exact solutions. -/
theorem totalsAt_eq (hop : p.totalOperator.IsMatrix J) (hJ : J.det ≠ 0)
    (hsolve : p.options.totals.linear.SolvesExactly p.totalOperator) (hrows : rows.Within n)
    (hcols : cols.Within n) (mode : Mode) :
    p.totalsAt rows cols mode = .ok ⟨rows.names, cols.names, (rows.length, cols.length),
      exactTotals J rows cols, solveCount rows cols mode⟩ := by
  obtain ⟨Ready, ⟨m, hsetup, hm⟩, hexact⟩ := hsolve
  obtain ⟨m', hstep⟩ := solveTotals_of_shows (shows_coeff_inv hop hJ hexact hrows hcols mode) hm
  rw [scaledTable_coeff_inv] at hstep
  exact bind_eq_ok.2 ⟨_, withLinear_eq_ok hsetup hstep, rfl⟩

/-- **Totals with a coloring** whose pattern has all of their nonzeros. -/
theorem coloredTotalsAt_eq (hop : p.totalOperator.IsMatrix J) (hJ : J.det ≠ 0)
    (hsolve : p.options.totals.linear.SolvesExactly p.totalOperator) (hrows : rows.Within n)
    (hcols : cols.Within n) (hfit : rows.length * cols.length < Count.modulus) {c : Coloring}
    (hc : c.Separates) (hnrows : c.pattern.nrows = rows.length)
    (hncols : c.pattern.ncols = cols.length)
    (hcovers : Coloring.Covers c.pattern (totalAt J rows cols)) :
    p.coloredTotalsAt rows cols c = .ok ⟨rows.names, cols.names, (rows.length, cols.length),
      exactTotals J rows cols, c.solves⟩ := by
  obtain ⟨Ready, ⟨m, hsetup, hm⟩, hexact⟩ := hsolve
  obtain ⟨m', hstep⟩ := groupProducts_eq hop hJ hexact rows cols c hm
  have hrecover := hc.recover_eq hcovers (isProducts_groups hc hrows hcols hnrows hncols)
    (by rwa [hnrows, hncols])
  rw [hnrows, hncols] at hrecover
  refine bind_eq_ok.2 ⟨_, withLinear_eq_ok hsetup hstep, ?_⟩
  simp only [hrecover]
  rfl

end Solves

end Problem

end Mdao
