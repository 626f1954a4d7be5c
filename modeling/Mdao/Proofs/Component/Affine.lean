import Mdao.Proofs.Component.Computes
import Mdao.Proofs.Component.Products

/-!
# Affine components

A component is affine with exact derivatives when what it computes, or its residuals, at two points
differ by what the derivatives make of the difference of the points (`Component.IsAffine`). The
derivatives are those that the component declares, or the products that it forms.

The entries of a component are its Jacobian in residual form, where an explicit component has ones
on the diagonal and its derivatives with a minus sign. Between any two points, the rows of entries
make of the difference of the points that of the residuals (`IsAffine.sum_entries_sub`).
-/

namespace Mdao

open Vec

variable {α : Type} [ExactScalar α]

namespace Component

/-- What the declared derivatives of a component make of changes of its inputs and outputs, at an
index of its outputs. -/
def differential (c : Component α) (dInputs dOutputs : Array α) (i : Nat) : α :=
  ((c.partials.blocks.toList.flatMap (c.blockEntries 1)).map fun e =>
    if e.row = i then e.value * entryAt dInputs dOutputs e.column else 0).sum

/-- **A component that is affine, with exact derivatives**, as they are after a linearization at the
given inputs and outputs. -/
inductive IsAffine (c : Component α) (inputs outputs : Array α) : Prop where
  /-- What an explicit component computes changes by its derivatives. -/
  | explicit (f : Array α → Array α) (computes : c.Computes f)
      (change : ∀ x x' : Array α, x.size = c.inputs.size → x'.size = c.inputs.size →
        ∀ i < c.outputs.size, entry (f x') i - entry (f x) i =
          c.differential (sub x' x) (zeros c.outputs.size) i)
  /-- The residuals of an implicit component change by its derivatives. -/
  | implicit (R : Array α → Array α → Array α) (residuals : c.HasResiduals R)
      (declared : c.capabilities.applyLinear = false)
      (change : ∀ x y x' y' : Array α, x.size = c.inputs.size → y.size = c.outputs.size →
        x'.size = c.inputs.size → y'.size = c.outputs.size → ∀ i < c.outputs.size,
          entry (R x' y') i - entry (R x y) i = c.differential (sub x' x) (sub y' y) i)
  /-- The residuals of an implicit component change by the products that it forms. -/
  | products (R : Array α → Array α → Array α) (residuals : c.HasResiduals R)
      (d : ImplicitDiscipline α)
      (F : (Fin c.inputs.size → α) × (Fin c.outputs.size → α) →ₗ[α] (Fin c.outputs.size → α))
      (G : (Fin c.outputs.size → α) → (Fin c.inputs.size → α) × (Fin c.outputs.size → α))
      (discipline : c.discipline = .implicit d) (forms : d.capabilities.applyLinear = true)
      (linear : c.AppliesLinearly d inputs outputs F G)
      (change : ∀ x y x' y' : Array α, x.size = c.inputs.size → y.size = c.outputs.size →
        x'.size = c.inputs.size → y'.size = c.outputs.size →
          toFun c.outputs.size (R x' y') - toFun c.outputs.size (R x y) =
            F (toFun _ (sub x' x), toFun _ (sub y' y)))

variable {c : Component α} {inputs outputs : Array α}

/-- Products of an affine component are linear, if it forms any. -/
theorem IsAffine.productsAreLinear (h : c.IsAffine inputs outputs) :
    c.ProductsAreLinear inputs outputs := by
  intro d hd happly
  cases h with
  | explicit f computes _ =>
    obtain ⟨d', hd', -⟩ := computes
    rw [hd] at hd'
    cases hd'
  | implicit R _ declared _ =>
    rw [capabilities, hd] at declared
    exact absurd (happly.symm.trans declared) (by decide)
  | products R _ d' F G discipline _ linear _ =>
    obtain rfl : d = d' := by
      rw [hd] at discipline
      injection discipline
    exact ⟨F, G, linear⟩

/-! ### Entries and derivatives -/

/-- The entries of declared derivatives, each with a sign. -/
theorem sum_blockEntries (c : Component α) (sign : α) (dInputs dOutputs : Array α) (i : Nat) :
    ((c.partials.blocks.toList.flatMap (c.blockEntries sign)).map fun e =>
      if e.row = i then e.value * entryAt dInputs dOutputs e.column else 0).sum =
      sign * c.differential dInputs dOutputs i := by
  have hsigned : ∀ b, c.blockEntries sign b =
      (c.blockEntries 1 b).map fun e => { e with value := sign * e.value } := by
    intro b
    simp [blockEntries, Function.comp_def]
  rw [List.flatMap_congr fun b _ => hsigned b, ← List.map_flatMap, List.map_map, differential,
    ← List.sum_map_mul_left]
  refine congrArg List.sum (List.map_congr_left fun e _ => ?_)
  simp only [Function.comp_apply]
  split_ifs <;> ring

/-- The derivatives of an explicit component do not see its outputs. -/
theorem differential_of_readsInputs (hreads : c.ReadsInputs) (hexplicit : c.isImplicit = false)
    (dInputs dOutputs dOutputs' : Array α) (i : Nat) :
    c.differential dInputs dOutputs i = c.differential dInputs dOutputs' i := by
  unfold differential
  refine congrArg List.sum (List.map_congr_left fun e he => ?_)
  obtain ⟨b, hb, he⟩ := List.mem_flatMap.1 he
  obtain ⟨q, -, rfl⟩ := List.mem_map.1 he
  obtain ⟨p, hp⟩ := hreads hexplicit b (Array.mem_toList_iff.1 hb)
  simp only [columnAt, hp, entryAt]

/-- Where no input changes, what an explicit component computes does not. -/
theorem differential_eq_zero (hreads : c.ReadsInputs) (hexplicit : c.isImplicit = false)
    {dInputs : Array α} (hzero : ∀ k, entry dInputs k = 0) (dOutputs : Array α) (i : Nat) :
    c.differential dInputs dOutputs i = 0 := by
  rw [differential_of_readsInputs hreads hexplicit dInputs dOutputs #[], differential]
  refine List.sum_eq_zero fun v hv => ?_
  obtain ⟨e, -, rfl⟩ := List.mem_map.1 hv
  have hcolumn : entryAt dInputs #[] e.column = 0 := by
    cases e.column with
    | input k => exact hzero k
    | output k => rfl
  rw [hcolumn, mul_zero, ite_self]

omit [ExactScalar α] in
/-- Explicit components do not form their own products. -/
theorem applyLinear_of_explicit [Scalar α] {c : Component α} (hexplicit : c.isImplicit = false) :
    c.capabilities.applyLinear = false := by
  unfold isImplicit at hexplicit
  cases hd : c.discipline with
  | explicit d => simp [capabilities, hd, Discipline.capabilities]
  | implicit d => simp [hd, Discipline.isImplicit] at hexplicit

theorem entries_of_declared (happly : c.capabilities.applyLinear = false) :
    c.entries = (if c.isImplicit then [] else (List.range c.outputs.size).map fun i =>
      ⟨i, .output i, 1⟩) ++
        c.partials.blocks.toList.flatMap (c.blockEntries (if c.isImplicit then 1 else -1)) := by
  simp only [entries, happly, Bool.false_eq_true, if_false]

/-- A row of the entries of an explicit component: the change of an output less that of what is
computed. -/
theorem sum_entries_explicit (hexplicit : c.isImplicit = false) (dInputs dOutputs : Array α)
    {i : Nat} (hi : i < c.outputs.size) :
    (c.entries.map fun e =>
      if e.row = i then e.value * entryAt dInputs dOutputs e.column else 0).sum =
      entry dOutputs i - c.differential dInputs dOutputs i := by
  rw [entries_of_declared (applyLinear_of_explicit hexplicit), hexplicit]
  simp only [Bool.false_eq_true, if_false]
  rw [List.map_append, List.sum_append, sum_blockEntries, List.map_map, neg_one_mul,
    ← sub_eq_add_neg]
  refine congrArg (· - _) ?_
  simp only [Function.comp_def, entryAt, one_mul]
  rw [sum_map_range, Finset.sum_ite_eq', if_pos (Finset.mem_range.2 hi)]

/-- A row of the entries of an implicit component that declares its derivatives. -/
theorem sum_entries_implicit (himplicit : c.isImplicit = true)
    (happly : c.capabilities.applyLinear = false) (dInputs dOutputs : Array α) (i : Nat) :
    (c.entries.map fun e =>
      if e.row = i then e.value * entryAt dInputs dOutputs e.column else 0).sum =
      c.differential dInputs dOutputs i := by
  rw [entries_of_declared happly, himplicit]
  simp only [if_true, List.nil_append]
  rw [sum_blockEntries, one_mul]

/-- A row of the entries of a component that forms its own products. -/
theorem sum_entries_products {d : ImplicitDiscipline α}
    {F : (Fin c.inputs.size → α) × (Fin c.outputs.size → α) →ₗ[α] (Fin c.outputs.size → α)}
    {G : (Fin c.outputs.size → α) → (Fin c.inputs.size → α) × (Fin c.outputs.size → α)}
    (hacts : c.ActsByEntries inputs outputs) (hd : c.discipline = .implicit d)
    (happly : d.capabilities.applyLinear = true) (h : c.AppliesLinearly d inputs outputs F G)
    {dInputs dOutputs : Array α} (hin : dInputs.size = c.inputs.size)
    (hout : dOutputs.size = c.outputs.size) {i : Nat} (hi : i < c.outputs.size) :
    (c.entries.map fun e =>
      if e.row = i then e.value * entryAt dInputs dOutputs e.column else 0).sum =
      F (toFun _ dInputs, toFun _ dOutputs) ⟨i, hi⟩ := by
  have hentries := hacts.forward dInputs dOutputs (zeros c.outputs.size) hin hout (size_zeros _)
  have hproduct := h.forward dInputs dOutputs (zeros c.outputs.size) hin hout (size_zeros _)
  simp only [applyForward, hd, happly, if_true, hproduct] at hentries
  rw [overlay_of_size (by simp)] at hentries
  have hentry := congrArg (entry · i) (Except.ok.inj hentries)
  simp only [entry_ofFn _ hi, toFun_zeros, zero_add] at hentry
  rw [hentry, entry_scatter _ _ _ (by simpa using hi), entry_zeros, zero_add, added_map]

/-! ### Between two points -/

/-- **The entries of an affine component make of the difference of two points that of its residuals
there.** -/
theorem IsAffine.sum_entries_sub (h : c.IsAffine inputs outputs) (hreads : c.ReadsInputs)
    (hacts : c.ActsByEntries inputs outputs) {x y b r x' y' b' r' : Array α}
    (hx : x.size = c.inputs.size) (hy : y.size = c.outputs.size) (hb : b.size = c.outputs.size)
    (hx' : x'.size = c.inputs.size) (hy' : y'.size = c.outputs.size)
    (hb' : b'.size = c.outputs.size) (hr : c.residuals x y b = .ok ⟨⟩ r)
    (hr' : c.residuals x' y' b' = .ok ⟨⟩ r') {i : Nat} (hi : i < c.outputs.size) :
    (c.entries.map fun e =>
      if e.row = i then e.value * entryAt (sub x' x) (sub y' y) e.column else 0).sum =
      entry r' i - entry r i := by
  have hdx : (sub x' x).size = c.inputs.size := (size_sub (hx'.trans hx.symm)).trans hx
  have hdy : (sub y' y).size = c.outputs.size := (size_sub (hy'.trans hy.symm)).trans hy
  cases h with
  | explicit f computes change =>
    have hoff : ∀ {x y b r : Array α}, x.size = c.inputs.size → y.size = c.outputs.size →
        b.size = c.outputs.size → c.residuals x y b = .ok ⟨⟩ r →
        entry r i = entry y i - entry (f x) i := fun {x y b r} hx hy hb hr => by
      rw [computes.residuals_eq hx hy hb] at hr
      injection hr with _ hr
      rw [← hr, entry_sub (hy.trans (computes.size hx).symm)]
    rw [sum_entries_explicit computes.isImplicit _ _ hi,
      differential_of_readsInputs hreads computes.isImplicit _ _ (zeros c.outputs.size),
      ← change x x' hx hx' i hi, entry_sub (hy'.trans hy.symm), hoff hx hy hb hr,
      hoff hx' hy' hb' hr', sub_sub_sub_comm]
  | implicit R residuals declared change =>
    rw [residuals.residuals_eq hx hy hb] at hr
    rw [residuals.residuals_eq hx' hy' hb'] at hr'
    injection hr with _ hr
    injection hr' with _ hr'
    rw [sum_entries_implicit residuals.isImplicit declared, ← change x y x' y' hx hy hx' hy' i hi,
      hr, hr']
  | products R residuals d F G discipline forms linear change =>
    rw [residuals.residuals_eq hx hy hb] at hr
    rw [residuals.residuals_eq hx' hy' hb'] at hr'
    injection hr with _ hr
    injection hr' with _ hr'
    refine (sum_entries_products hacts discipline forms linear hdx hdy hi).trans ?_
    rw [← change x y x' y' hx hy hx' hy', hr, hr']
    rfl

/-! ### Wherever it is linearized -/

/-- The residuals of an affine component are there at every point. -/
theorem IsAffine.residuals_ok (h : c.IsAffine inputs outputs) {x y b : Array α}
    (hx : x.size = c.inputs.size) (hy : y.size = c.outputs.size) (hb : b.size = c.outputs.size) :
    ∃ r, c.residuals x y b = .ok ⟨⟩ r := by
  cases h with
  | explicit f computes _ => exact ⟨_, computes.residuals_eq hx hy hb⟩
  | implicit R residuals _ _ => exact ⟨_, residuals.residuals_eq hx hy hb⟩
  | products R residuals _ _ _ _ _ _ _ => exact ⟨_, residuals.residuals_eq hx hy hb⟩

/-- A component that is affine, and **has exact derivatives wherever it is linearized next**. -/
def LinearizesExactly (c : Component α) (strict : Option α) : Prop :=
  ∀ x y : Array α, x.size = c.inputs.size → y.size = c.outputs.size →
    ∃ after, c.linearize x y strict = .ok ⟨⟩ after ∧ after.IsAffine x y

theorem LinearizesExactly.exists_alike {strict : Option α} (h : c.LinearizesExactly strict)
    {x y : Array α} (hx : x.size = c.inputs.size) (hy : y.size = c.outputs.size) :
    ∃ after, c.Alike after ∧ after.IsAffine x y := by
  obtain ⟨after, hlinearize, haffine⟩ := h x y hx hy
  have halike := alike_linearize c x y strict
  rw [hlinearize] at halike
  exact ⟨after, halike, haffine⟩

theorem LinearizesExactly.residuals_ok {strict : Option α} (h : c.LinearizesExactly strict)
    {x y b : Array α} (hx : x.size = c.inputs.size) (hy : y.size = c.outputs.size)
    (hb : b.size = c.outputs.size) : ∃ r, c.residuals x y b = .ok ⟨⟩ r := by
  obtain ⟨after, halike, haffine⟩ := h.exists_alike hx hy
  rw [← halike.residuals]
  exact haffine.residuals_ok (halike.inputs ▸ hx) (halike.outputs ▸ hy) (halike.outputs ▸ hb)

/-- Such a component can be solved, if it is explicit. -/
theorem LinearizesExactly.solve_ok {strict : Option α} (h : c.LinearizesExactly strict)
    (hexplicit : c.isImplicit = false) {x y : Array α} (hx : x.size = c.inputs.size)
    (hy : y.size = c.outputs.size) : ∃ itself y', c.solve x y = .ok itself y' := by
  obtain ⟨after, halike, haffine⟩ := h.exists_alike hx hy
  have hafter : after.isImplicit = false := by
    rw [isImplicit, halike.discipline]
    exact hexplicit
  cases haffine with
  | explicit f computes _ => exact ⟨true, f x, (computes.alike halike.symm).solve_eq hx hy⟩
  | implicit R residuals _ _ => exact absurd (hafter.symm.trans residuals.isImplicit) (by decide)
  | products R residuals _ _ _ _ _ _ _ =>
    exact absurd (hafter.symm.trans residuals.isImplicit) (by decide)

end Component

end Mdao
