import Mdao.Proofs.Component.Places
import Mdao.Proofs.Jacobian.MatrixFree

/-!
# Products with the Jacobian of a component

A sound component that declares its derivatives acts by its entries wherever it is
(`Sound.actsByEntries`). A component that forms its own products does so at the point at which it
was probed, provided that its products are linear in the seeds, are added to what is there, and are
transposes of each other (`Component.AppliesLinearly`): the probed columns are the images of unit
vectors, and a linear map is known from these (`actsByEntries_of_probe`).
-/

namespace Mdao

open Vec

variable {α : Type} [ExactScalar α]

namespace Component

/-! ### Entries of sound components -/

/-- An entry inside the outputs: its row is one, and so is its column unless it is an input. -/
def Entry.Inside (n : Nat) (e : Entry α) : Prop :=
  e.row < n ∧ ∀ k, e.column = .output k → k < n

/-- **The entries of a sound component lie inside its outputs.** -/
theorem Sound.entry_inside {c : Component α} (hc : c.Sound) {e : Entry α} (he : e ∈ c.entries) :
    e.Inside c.outputs.size := by
  have hplace : c.HasPlace e.row e.column := hc.mem_places.1 (List.mem_map_of_mem he)
  obtain ⟨hr, hk⟩ := hc.hasPlace_inside hplace
  refine ⟨hr, fun j hj => ?_⟩
  rw [hj] at hk
  exact hk

/-- **A sound component that declares its derivatives acts by its entries everywhere.** -/
theorem Sound.actsByEntries {c : Component α} (hc : c.Sound)
    (happly : c.capabilities.applyLinear = false) (inputs outputs : Array α) :
    c.ActsByEntries inputs outputs := by
  refine ⟨fun e he => (hc.entry_inside he).1, fun e he => (hc.entry_inside he).2,
    fun dInputs dOutputs dResiduals _ _ _ => ?_, fun dResiduals dInputs dOutputs _ _ _ => ?_⟩
  · unfold applyForward
    cases hd : c.discipline with
    | explicit d => rfl
    | implicit d =>
      have hnot : d.capabilities.applyLinear = false := by
        rw [← happly, capabilities, hd]
        rfl
      simp only [hnot, Bool.false_eq_true, if_false]
  · unfold applyReverse
    cases hd : c.discipline with
    | explicit d => rfl
    | implicit d =>
      have hnot : d.capabilities.applyLinear = false := by
        rw [← happly, capabilities, hd]
        rfl
      simp only [hnot, Bool.false_eq_true, if_false]

/-! ### Components that form their own products -/

/-- The products that a discipline forms at a point are linear in the seeds and are added to what is
there, and the reverse products are transposes of the forward ones. -/
structure AppliesLinearly (c : Component α) (d : ImplicitDiscipline α) (inputs outputs : Array α)
    (F : (Fin c.inputs.size → α) × (Fin c.outputs.size → α) →ₗ[α] (Fin c.outputs.size → α))
    (G : (Fin c.outputs.size → α) → (Fin c.inputs.size → α) × (Fin c.outputs.size → α)) :
    Prop where
  /-- A forward product adds the image of the seeds. -/
  forward : ∀ dInputs dOutputs dResiduals : Array α, dInputs.size = c.inputs.size →
    dOutputs.size = c.outputs.size → dResiduals.size = c.outputs.size →
    d.applyForward ⟨c.inputs, inputs⟩ ⟨c.outputs, outputs⟩ ⟨c.inputs, dInputs⟩
        ⟨c.outputs, dOutputs⟩ ⟨c.outputs, dResiduals⟩ =
      .ok (Array.ofFn (toFun _ dResiduals + F (toFun _ dInputs, toFun _ dOutputs)))
  /-- A reverse product adds the transposed image of the seed. -/
  reverse : ∀ dResiduals dInputs dOutputs : Array α, dResiduals.size = c.outputs.size →
    dInputs.size = c.inputs.size → dOutputs.size = c.outputs.size →
    d.applyReverse ⟨c.inputs, inputs⟩ ⟨c.outputs, outputs⟩ ⟨c.outputs, dResiduals⟩
        ⟨c.inputs, dInputs⟩ ⟨c.outputs, dOutputs⟩ =
      .ok (Array.ofFn (toFun _ dInputs + (G (toFun _ dResiduals)).1),
        Array.ofFn (toFun _ dOutputs + (G (toFun _ dResiduals)).2))
  /-- Transposed: both sides pair in the same way. -/
  transpose : ∀ a b w, F (a, b) ⬝ᵥ w = a ⬝ᵥ (G w).1 + b ⬝ᵥ (G w).2

section Linear

variable {m n : Nat} (F : (Fin m → α) × (Fin n → α) →ₗ[α] (Fin n → α))

/-- The unit vector in direction `k`. -/
def basis (n k : Nat) : Fin n → α := fun i => if (i : Nat) = k then 1 else 0

theorem basis_dotProduct (x : Fin n → α) {k : Nat} (hk : k < n) :
    basis n k ⬝ᵥ x = x ⟨k, hk⟩ := by
  simp only [dotProduct, basis, ite_mul, one_mul, zero_mul]
  rw [Finset.sum_eq_single_of_mem ⟨k, hk⟩ (Finset.mem_univ _) fun i _ hne =>
    if_neg fun h => hne (Fin.ext h), if_pos rfl]

/-- The column of a linear map, those of the outputs first. -/
def columnOf (k : Nat) : Fin n → α :=
  if k < n then F (0, basis n k) else F (basis m (k - n), 0)

theorem eq_sum_basis {V : Type} [AddCommMonoid V] [Module α V] (f : (Fin n → α) →ₗ[α] V)
    (x : Fin n → α) : f x = ∑ k : Fin n, x k • f (basis n k) := by
  rw [f.pi_apply_eq_sum_univ x]
  refine Finset.sum_congr rfl fun k _ => ?_
  congr 2
  funext j
  simp only [basis, Fin.ext_iff, eq_comm]

/-- A linear map is known from its columns. -/
theorem apply_eq_sum_columns (a : Fin m → α) (b : Fin n → α) (i : Fin n) :
    F (a, b) i = ∑ k : Fin n, columnOf F k i * b k + ∑ k : Fin m, columnOf F (n + k) i * a k := by
  have hsplit : F (a, b) = (F.comp (LinearMap.inr α _ _)) b + (F.comp (LinearMap.inl α _ _)) a := by
    rw [LinearMap.comp_apply, LinearMap.comp_apply, ← map_add]
    simp
  rw [hsplit, Pi.add_apply, eq_sum_basis (F.comp (LinearMap.inr α _ _)) b,
    eq_sum_basis (F.comp (LinearMap.inl α _ _)) a, Finset.sum_apply, Finset.sum_apply]
  congr 1
  · refine Finset.sum_congr rfl fun k _ => ?_
    rw [columnOf, if_pos k.2, Pi.smul_apply, smul_eq_mul, mul_comm]
    rfl
  · refine Finset.sum_congr rfl fun k _ => ?_
    rw [columnOf, if_neg (by omega), Nat.add_sub_cancel_left, Pi.smul_apply, smul_eq_mul, mul_comm]
    rfl

end Linear

section Probed

variable {c : Component α} {d : ImplicitDiscipline α} {inputs outputs : Array α}
  {F : (Fin c.inputs.size → α) × (Fin c.outputs.size → α) →ₗ[α] (Fin c.outputs.size → α)}
  {G : (Fin c.outputs.size → α) → (Fin c.inputs.size → α) × (Fin c.outputs.size → α)}

@[simp] theorem toFun_unit (n k : Nat) : toFun n (unit n k : Array α) = basis n k := by
  funext i
  simp only [toFun, entry_unit, basis, i.2, and_true, eq_comm]

/-- Probing gives the columns of the linear map. -/
theorem AppliesLinearly.probeColumns_eq (h : c.AppliesLinearly d inputs outputs F G)
    (hd : c.discipline = .implicit d) (ks : List Nat) :
    c.probeColumns inputs outputs ks = .ok (ks.map fun k => Array.ofFn (columnOf F k)) := by
  induction ks with
  | nil => rfl
  | cons k ks ih =>
    have hproduct := h.forward
      (if k < c.outputs.size then zeros c.inputs.size else unit c.inputs.size (k - c.outputs.size))
      (if k < c.outputs.size then unit c.outputs.size k else zeros c.outputs.size)
      (zeros c.outputs.size) (by split_ifs <;> simp) (by split_ifs <;> simp) (by simp)
    have hcolumn : toFun _ (zeros c.outputs.size) + F (toFun _ (if k < c.outputs.size then
        zeros c.inputs.size else unit c.inputs.size (k - c.outputs.size)),
        toFun _ (if k < c.outputs.size then unit c.outputs.size k else zeros c.outputs.size)) =
        columnOf F k := by
      unfold columnOf
      split_ifs <;> simp
    rw [hcolumn] at hproduct
    simp only [probeColumns, hd, hproduct]
    rw [overlay_of_size (by simp)]
    simp only [ih]
    rfl

/-- The dense Jacobian of a probed component has the columns of the linear map. -/
theorem AppliesLinearly.probe_eq (h : c.AppliesLinearly d inputs outputs F G)
    (hd : c.discipline = .implicit d) :
    ∃ dense, c.probe inputs outputs = .ok dense ∧ ∀ (r : Fin c.outputs.size),
      ∀ k < c.outputs.size + c.inputs.size,
        entry dense (r * (c.outputs.size + c.inputs.size) + k) = columnOf F k r := by
  refine ⟨rowMajor c.outputs.size (c.outputs.size + c.inputs.size) fun r k =>
    entry (Array.ofFn (columnOf F k)) r, ?_, fun r k hk => ?_⟩
  · simp only [probe, h.probeColumns_eq hd]
    rw [← flatMap_range_eq]
    simp only [bind, Except.bind, List.map_map]
    rfl
  · rw [entry_rowMajor _ r.2 hk, entry_ofFn _ r.2]

/-- A sum over the entries of a component with a probed Jacobian. -/
theorem sum_entries_probed (happly : c.capabilities.applyLinear = true) {dense : Array α}
    (hprobed : c.probed = some dense) (g : Entry α → α) :
    (c.entries.map g).sum = ∑ r ∈ Finset.range c.outputs.size,
      (∑ k ∈ Finset.range c.outputs.size,
          g ⟨r, .output k, entry dense (r * (c.outputs.size + c.inputs.size) + k)⟩ +
        ∑ k ∈ Finset.range c.inputs.size, g ⟨r, .input k,
          entry dense (r * (c.outputs.size + c.inputs.size) + (c.outputs.size + k))⟩) := by
  simp only [entries, happly, if_true, hprobed]
  rw [sum_map_flatMap, sum_map_range]
  refine Finset.sum_congr rfl fun r _ => ?_
  rw [List.map_append, List.sum_append, List.map_map, List.map_map]
  rfl

/-- A component that forms its own products, and whose probed Jacobian has the columns of a linear
map. -/
structure ProbedAs (c : Component α) (dense : Array α)
    (F : (Fin c.inputs.size → α) × (Fin c.outputs.size → α) →ₗ[α] (Fin c.outputs.size → α)) :
    Prop where
  forms : c.capabilities.applyLinear = true
  probed : c.probed = some dense
  entry_eq : ∀ r : Fin c.outputs.size, ∀ k < c.outputs.size + c.inputs.size,
    entry dense (r * (c.outputs.size + c.inputs.size) + k) = columnOf F k r

section ProbedAs

variable {dense : Array α}

/-- The entries of a row make of the seeds what the map makes of them. -/
theorem ProbedAs.added_row (h : c.ProbedAs dense F) (dInputs dOutputs : Array α) {i : Nat}
    (hi : i < c.outputs.size) :
    added (c.entries.map fun e => (e.row, e.value * entryAt dInputs dOutputs e.column)) i =
      F (toFun _ dInputs, toFun _ dOutputs) ⟨i, hi⟩ := by
  rw [added_map, sum_entries_probed h.forms h.probed, apply_eq_sum_columns]
  -- only the row of the index is left of the sum over all rows
  have hrow : ∀ r ∈ Finset.range c.outputs.size, r ≠ i →
      (∑ k ∈ Finset.range c.outputs.size, (if r = i then
          entry dense (r * (c.outputs.size + c.inputs.size) + k) *
            entryAt dInputs dOutputs (.output k) else 0) +
        ∑ k ∈ Finset.range c.inputs.size, if r = i then
          entry dense (r * (c.outputs.size + c.inputs.size) + (c.outputs.size + k)) *
            entryAt dInputs dOutputs (.input k) else 0) = 0 := by
    intro r _ hri
    simp only [if_neg hri, Finset.sum_const_zero, add_zero]
  rw [Finset.sum_eq_single_of_mem i (Finset.mem_range.2 hi) hrow]
  simp only [if_true, entryAt]
  rw [Finset.sum_range, Finset.sum_range]
  refine congrArg₂ (· + ·) (Finset.sum_congr rfl fun k _ => ?_)
    (Finset.sum_congr rfl fun k _ => ?_)
  · rw [h.entry_eq ⟨i, hi⟩ k (by omega)]
    rfl
  · rw [h.entry_eq ⟨i, hi⟩ (c.outputs.size + k) (by omega)]
    rfl

/-- The entries of the column of an input make of a seed its product with the image of the input's
unit vector. -/
theorem ProbedAs.added_input (h : c.ProbedAs dense F) (dResiduals : Array α) {i : Nat}
    (hi : i < c.inputs.size) :
    added (inputContributions dResiduals c.entries) i =
      F (basis _ i, 0) ⬝ᵥ toFun _ dResiduals := by
  rw [inputContributions, added_filterMap, sum_entries_probed h.forms h.probed, dotProduct,
    Finset.sum_range]
  refine Finset.sum_congr rfl fun r _ => ?_
  simp only [Option.elim_none, Finset.sum_const_zero, zero_add, Option.elim_some]
  rw [Finset.sum_ite_eq' _ i, if_pos (Finset.mem_range.2 hi),
    h.entry_eq r (c.outputs.size + i) (by omega), columnOf, if_neg (by omega),
    Nat.add_sub_cancel_left]
  rfl

/-- The entries of the column of an output do the same with the output's unit vector. -/
theorem ProbedAs.added_output (h : c.ProbedAs dense F) (dResiduals : Array α) {i : Nat}
    (hi : i < c.outputs.size) :
    added (outputContributions dResiduals c.entries) i =
      F (0, basis _ i) ⬝ᵥ toFun _ dResiduals := by
  rw [outputContributions, added_filterMap, sum_entries_probed h.forms h.probed, dotProduct,
    Finset.sum_range]
  refine Finset.sum_congr rfl fun r _ => ?_
  simp only [Option.elim_none, Finset.sum_const_zero, add_zero, Option.elim_some]
  rw [Finset.sum_ite_eq' _ i, if_pos (Finset.mem_range.2 hi), h.entry_eq r i (by omega), columnOf,
    if_pos hi]
  rfl

end ProbedAs

/-- A reverse product at an input is the product with the image of its unit vector. -/
theorem AppliesLinearly.reverse_input (h : c.AppliesLinearly d inputs outputs F G)
    (w : Fin c.outputs.size → α) {i : Nat} (hi : i < c.inputs.size) :
    (G w).1 ⟨i, hi⟩ = F (basis _ i, 0) ⬝ᵥ w := by
  rw [h.transpose, zero_dotProduct, add_zero, basis_dotProduct _ hi]

/-- So is a reverse product at an output. -/
theorem AppliesLinearly.reverse_output (h : c.AppliesLinearly d inputs outputs F G)
    (w : Fin c.outputs.size → α) {i : Nat} (hi : i < c.outputs.size) :
    (G w).2 ⟨i, hi⟩ = F (0, basis _ i) ⬝ᵥ w := by
  rw [h.transpose, zero_dotProduct, zero_add, basis_dotProduct _ hi]

/-- **A probed component acts by its entries at the point where it was probed.** -/
theorem Sound.actsByEntries_of_probe (hc : c.Sound) (hd : c.discipline = .implicit d)
    (happly : d.capabilities.applyLinear = true) (h : c.AppliesLinearly d inputs outputs F G)
    {dense : Array α} (hprobed : c.probed = some dense)
    (hprobe : c.probe inputs outputs = .ok dense) : c.ActsByEntries inputs outputs := by
  have hcap : c.capabilities.applyLinear = true := by
    rw [capabilities, hd]
    exact happly
  obtain ⟨dense', hdense', hentry⟩ := h.probe_eq hd
  obtain rfl : dense' = dense := Except.ok.inj (hdense'.symm.trans hprobe)
  have hF : c.ProbedAs dense' F := ⟨hcap, hprobed, hentry⟩
  refine ⟨fun e he => (hc.entry_inside he).1, fun e he => (hc.entry_inside he).2,
    fun dInputs dOutputs dResiduals hi ho hr => ?_, fun dResiduals dInputs dOutputs hr hi ho => ?_⟩
  · simp only [applyForward, hd, happly, if_true, h.forward dInputs dOutputs dResiduals hi ho hr]
    rw [overlay_of_size (by simp [hr])]
    refine congrArg Except.ok (ext_entry (by simp [hr]) fun i hin => ?_)
    have hin' : i < c.outputs.size := by simpa using hin
    rw [entry_ofFn _ hin', entry_scatter _ _ _ (by omega), hF.added_row _ _ hin']
    rfl
  · simp only [applyReverse, hd, happly, if_true, h.reverse dResiduals dInputs dOutputs hr hi ho]
    rw [overlay_of_size (by simp [hi]), overlay_of_size (by simp [ho])]
    refine congrArg Except.ok (Prod.ext (ext_entry (by simp [hi]) fun i hin => ?_)
      (ext_entry (by simp [ho]) fun i hin => ?_))
    · have hin' : i < c.inputs.size := by simpa using hin
      rw [entry_ofFn _ hin', entry_scatter _ _ _ (by omega), hF.added_input _ hin', Pi.add_apply,
        h.reverse_input]
      rfl
    · have hin' : i < c.outputs.size := by simpa using hin
      rw [entry_ofFn _ hin', entry_scatter _ _ _ (by omega), hF.added_output _ hin', Pi.add_apply,
        h.reverse_output]
      rfl

end Probed

/-! ### Linearized components -/

/-- **A component that forms its own products has been probed** at the point of its last
linearization. -/
theorem probed_of_linearize {c c' : Component α} {inputs outputs : Array α} {strict : Option α}
    (happly : c.capabilities.applyLinear = true)
    (h : c.linearize inputs outputs strict = .ok ⟨⟩ c') :
    ∃ dense, c'.probed = some dense ∧ c'.probe inputs outputs = .ok dense := by
  have halike : c.Alike c' := by
    have := alike_linearize c inputs outputs strict
    rwa [h] at this
  obtain ⟨own, probed, hown, hprobed, happrox, -⟩ := linearize_eq_ok.1 h
  have h1 : c.Alike own := by
    have := alike_linearizeOwn c inputs outputs
    rwa [hown] at this
  have hrest := rest_approximate probed inputs outputs
  rw [happrox] at hrest
  have hcap : own.capabilities.applyLinear = true := by
    rw [h1.capabilities]
    exact happly
  rw [linearizeProbed, if_pos hcap] at hprobed
  cases hprobe : own.probe inputs outputs with
  | error e => simp [hprobe] at hprobed
  | ok dense =>
    rw [hprobe] at hprobed
    cases hprobed
    refine ⟨dense, congrArg Component.probed hrest, ?_⟩
    rw [halike.probe, ← h1.probe]
    exact hprobe

/-- What is asked of the products of a component at a point: if it forms its own, they are linear,
added, and transposes of each other. -/
def ProductsAreLinear (c : Component α) (inputs outputs : Array α) : Prop :=
  ∀ d, c.discipline = .implicit d → d.capabilities.applyLinear = true →
    ∃ F G, c.AppliesLinearly d inputs outputs F G

/-- **A component acts by its entries at the point of its last linearization.** -/
theorem Sound.actsByEntries_of_linearize {c c' : Component α} (hc : c.Sound)
    {inputs outputs : Array α} {strict : Option α}
    (hlinear : c'.ProductsAreLinear inputs outputs)
    (h : c.linearize inputs outputs strict = .ok ⟨⟩ c') : c'.ActsByEntries inputs outputs := by
  have halike : c.Alike c' := by
    have := alike_linearize c inputs outputs strict
    rwa [h] at this
  have hc' := hc.alike halike
  cases happly : c'.capabilities.applyLinear with
  | false => exact hc'.actsByEntries happly inputs outputs
  | true =>
    cases hd : c'.discipline with
    | explicit d => simp [capabilities, hd, Discipline.capabilities] at happly
    | implicit d =>
      have hcap : d.capabilities.applyLinear = true := by
        rw [capabilities, hd] at happly
        exact happly
      have hcap' : c.capabilities.applyLinear = true := by
        rw [capabilities, ← halike.discipline]
        exact happly
      obtain ⟨dense, hprobed, hprobe⟩ := probed_of_linearize hcap' h
      obtain ⟨F, G, hFG⟩ := hlinear d hd hcap
      exact hc'.actsByEntries_of_probe hd hcap hFG hprobed hprobe

end Component

end Mdao
