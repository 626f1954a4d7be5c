import Mdao.Proofs.Component.Differences
import Mdao.Proofs.Component.Grouped
import Mdao.Proofs.Component.Located

/-!
# Affine components with finite differences

Each entry that an affine component approximates by a finite difference is the whole slope at its
place (`Component.value_of_differenced`). Entries at one place add up, so that a place counts as
often as it is listed: the sum is the slope times the number of entries there, and it is the slope
where no block lists a place twice (`Component.entrySum_of_differenced`).
-/

namespace Mdao

open Vec

variable {α : Type} [ExactScalar α]

namespace Component

variable {c c' : Component α} {x y base : Array α} {K : Nat → Column → α} {r : Nat} {k : Column}

/-- The sum of the entries at a place. -/
def entrySum (c : Component α) (r : Nat) (k : Column) : α :=
  ((c.entries.filter fun e => e.place == (r, k)).map Entry.value).sum

/-- All partial derivatives are finite differences over steps other than zero. -/
def Differenced (c : Component α) : Prop :=
  ∀ b ∈ c.partials.blocks, b.constant = false ∧ ∃ o, b.method = .fd o ∧ o.step ≠ 0

/-- There is a place wherever there is a slope. -/
def HasPlacesOf (c : Component α) (K : Nat → Column → α) : Prop :=
  ∀ r < c.outputs.size, ∀ k, c.HasColumn k → K r k ≠ 0 → c.HasPlace r k

/-- No block lists a place twice. -/
def ListsOnce (c : Component α) : Prop := ∀ b ∈ c.partials.blocks, b.places.toList.Nodup

/-! ### Sums of entries -/

/-- Entries that are slopes add up to as many times the slope as there are entries. -/
theorem entrySum_eq (h : ∀ e ∈ c.entries, e.value = K e.row e.column) (r : Nat) (k : Column) :
    c.entrySum r k = (c.entries.map Entry.place).count (r, k) * K r k := by
  have hall : ∀ v ∈ (c.entries.filter fun e => e.place == (r, k)).map Entry.value,
      v = K r k := by
    intro v hv
    obtain ⟨e, he, rfl⟩ := List.mem_map.1 hv
    obtain ⟨he, hplace⟩ := List.mem_filter.1 he
    obtain ⟨hrow, hcolumn⟩ := Prod.mk.inj (eq_of_beq hplace)
    rw [h e he, hrow, hcolumn]
  have hcount : (c.entries.map Entry.place).count (r, k) =
      (c.entries.filter fun e => e.place == (r, k)).length := by
    rw [List.count, List.countP_map, List.countP_eq_length_filter]
    rfl
  rw [entrySum, List.sum_eq_card_nsmul _ _ hall, List.length_map, hcount, nsmul_eq_mul]

/-! ### Approximating -/

theorem approximateColumns_ok {cols : List (Wrt × Method α × Nat × Column)}
    (h : ∀ col ∈ cols, ∃ v, c.groupColumn x y base col.2.1 col.2.2.2 = .ok v) :
    ∃ c', approximateColumns x y base c cols = .ok ⟨⟩ c' := by
  induction cols generalizing c with
  | nil => exact ⟨c, rfl⟩
  | cons col cols ih =>
    obtain ⟨wrt, method, k, place⟩ := col
    obtain ⟨v, hv⟩ := h _ List.mem_cons_self
    dsimp only at hv
    rw [approximateColumns_cons, hv]
    refine ih fun col hcol => ?_
    rw [(alike_fillColumn c wrt method k v).groupColumn]
    exact h col (List.mem_cons_of_mem _ hcol)

theorem Differenced.alike (hc : c.Differenced) (h : c.Alike c') : c'.Differenced := by
  intro b hb
  obtain ⟨b₀, hb₀, houtline⟩ := h.exists_outline hb
  rw [← PartialBlock.constant_of_outline houtline, ← PartialBlock.method_of_outline houtline]
  exact hc b₀ hb₀

/-- A block whose values are finite differences is approximated. -/
theorem Differenced.approximated (hc : c.Differenced) {b : PartialBlock α}
    (hb : b ∈ c.partials.blocks) : b.Approximated := by
  obtain ⟨hconstant, o, hmethod, -⟩ := hc b hb
  refine ⟨?_, hconstant⟩
  rw [hmethod]
  rfl

/-- **Differences of an affine component can all be taken.** -/
theorem exists_approximate (hc : c.Differenced) (hJ : c.ChangesBy K) (hsound : c.Sound)
    (hx : x.size = c.inputs.size) (hy : y.size = c.outputs.size) :
    ∃ c', c.approximate x y = .ok ⟨⟩ c' := by
  obtain ⟨base, hbase⟩ := hJ.exists_raw hx hy
  unfold approximate
  dsimp only
  split_ifs
  · exact ⟨c, rfl⟩
  simp only [hbase]
  refine approximateColumns_ok fun col hcol => ?_
  obtain ⟨wrt, method, k, col⟩ := col
  obtain ⟨hgroup, hk, rfl⟩ := mem_approximatedColumns.1 hcol
  obtain ⟨b, hb, -, heq⟩ := exists_of_mem_approximationGroups hgroup
  obtain ⟨rfl, rfl⟩ := Prod.mk.inj heq
  obtain ⟨-, o, hmethod, ho⟩ := hc b hb
  have hcolumn := hJ.fdColumn_eq hx hy hbase (hsound.hasColumn_columnAt hk) ho
  simp only [hmethod]
  exact ⟨_, hcolumn⟩

/-! ### Values -/

/-- An entry of a block has the place and the value of the same index. -/
theorem exists_of_mem_blockEntries {sign : α} {b : PartialBlock α} {e : Entry α}
    (he : e ∈ c.blockEntries sign b) : ∃ (i : Nat) (place : Nat × Nat) (v : α),
      b.places[i]? = some place ∧ b.values[i]? = some v ∧
        e = ⟨(c.outputs.spanAt b.output).start + place.1, c.columnAt b.wrt place.2, sign * v⟩ := by
  obtain ⟨⟨row, col, v⟩, hentry, rfl⟩ := List.mem_map.1 he
  obtain ⟨i, hi⟩ := List.mem_iff_getElem?.1 hentry
  obtain ⟨place, w, hplace, hw, heq⟩ := List.getElem?_zipWith_eq_some.1 hi
  cases heq
  exact ⟨i, place, v, by simpa using hplace, by simpa using hw, rfl⟩

section Differenced

variable {name : String} {d : Discipline α} {c₀ after : Component α} {us : List (PartialUse α)}
  {strict : Option α}

/-- **Each value of a block is a slope of what is differentiated.** -/
theorem value_of_block {b : PartialBlock α} {i : Nat} {place : Nat × Nat} {v : α}
    (h : declare name d = .ok c₀) (hd : d.Addressable) (hK : c₀.ChangesBy K)
    (hfd : c₀.Differenced) (hx : x.size = c₀.inputs.size) (hy : y.size = c₀.outputs.size)
    (hafter : (c₀.useAll us).linearize x y strict = .ok ⟨⟩ after)
    (hb : b ∈ after.partials.blocks) (hplace : b.places[i]? = some place)
    (hv : b.values[i]? = some v) :
    v = K ((after.outputs.spanAt b.output).start + place.1) (after.columnAt b.wrt place.2) := by
  have halike : c₀.Alike after := alike_of_linearize hafter
  have hsound := (isDeclared_of_declare h hd).sound.alike halike
  have hJ := hK.alike halike
  rw [← halike.inputs] at hx
  rw [← halike.outputs] at hy
  obtain ⟨own, -, hblocks, -⟩ := entries_of_linearize h us hafter
  obtain ⟨j, hj⟩ := Array.getElem?_of_mem hb
  obtain ⟨hrow, hcol⟩ := hsound.places b hb place (Array.mem_of_getElem? hplace)
  obtain ⟨column, hcolumn, -, hentry⟩ := (hblocks j b hj).1 ((hfd.alike halike).approximated hb)
    (tellsApart_of_lawful after b) i place hplace
  obtain ⟨-, o, hmethod, ho⟩ := hfd.alike halike b hb
  obtain ⟨base, hbase⟩ := hJ.exists_raw hx hy
  rw [hmethod, Component.column, hbase] at hcolumn
  obtain rfl := Except.ok.inj
    ((hJ.fdColumn_eq hx hy hbase (hsound.hasColumn_columnAt hcol) ho).symm.trans hcolumn)
  rw [hv, entry_tabulate, if_pos (hsound.outputs_bounded.start_add_lt hrow)] at hentry
  exact Option.some.inj hentry

/-- **Each entry is the whole slope at its place**, however often the place is listed. -/
theorem value_of_differenced (h : declare name d = .ok c₀) (hd : d.Addressable)
    (hK : c₀.ResidualsChangeBy K) (happly : c₀.capabilities.applyLinear = false)
    (hfd : c₀.Differenced) (hx : x.size = c₀.inputs.size) (hy : y.size = c₀.outputs.size)
    (hafter : (c₀.useAll us).linearize x y strict = .ok ⟨⟩ after) :
    ∀ e ∈ after.entries, e.value = K e.row e.column := by
  have halike : c₀.Alike after := alike_of_linearize hafter
  have himplicit : after.isImplicit = c₀.isImplicit := halike.sameVariables.isImplicit
  intro e he
  simp only [entries, halike.capabilities, happly, Bool.false_eq_true, if_false, himplicit,
    List.mem_append, List.mem_flatMap, Array.mem_toList_iff] at he
  rcases he with he | ⟨b, hb, he⟩
  · cases hexplicit : c₀.isImplicit with
    | true => simp [hexplicit] at he
    | false =>
      simp only [hexplicit, Bool.false_eq_true, if_false, List.mem_map, List.mem_range] at he
      obtain ⟨i, hi, rfl⟩ := he
      rw [halike.outputs] at hi
      dsimp only
      rw [hK.slope_output hexplicit hi hi, if_pos rfl]
  · obtain ⟨i, place, v, hplace, hv, rfl⟩ := exists_of_mem_blockEntries he
    dsimp only
    rw [value_of_block h hd hK.changesBy hfd hx hy hafter hb hplace hv]
    cases hexplicit : c₀.isImplicit with
    | true => simp [rawSlopes, hexplicit]
    | false =>
      -- an explicit component differentiates with respect to its inputs
      obtain ⟨p, hp⟩ := (readsInputs_of_declare h).alike halike (himplicit.trans hexplicit) b hb
      simp [rawSlopes, hexplicit, hp, columnAt]

end Differenced

/-! ### Places that are listed once -/

/-- Places of entries of blocks differ where no block lists one twice. -/
theorem ListsOnce.nodup_blockPlaces (honce : c.ListsOnce) (hc : c.Tidy) (hsound : c.Sound)
    (htiled : c.Tiled) (sign : α) :
    ((c.partials.blocks.toList.flatMap (c.blockEntries sign)).map Entry.place).Nodup := by
  rw [List.map_flatMap, List.nodup_flatMap]
  constructor
  · intro b hb
    rw [Array.mem_toList_iff] at hb
    rw [map_place_blockEntries, hsound.values b hb, ← Array.length_toList, List.take_length]
    refine (honce b hb).map_on fun q hq q' hq' heq => ?_
    obtain ⟨hrow, hcol⟩ := Prod.mk.inj heq
    exact (htiled.place_inj hsound hb hb (Array.mem_toList_iff.1 hq) (Array.mem_toList_iff.1 hq')
      hrow hcol).2
  · -- blocks of different pairs have no place in common
    have hpairs := List.pairwise_map.1 hc.nodup_pairs
    refine hpairs.imp_of_mem fun {b b'} hb hb' hne => ?_
    rw [Array.mem_toList_iff] at hb hb'
    rw [Function.onFun, List.disjoint_left]
    rintro ⟨r, k⟩ hmem hmem'
    obtain ⟨q, hq, rfl, rfl⟩ := (mem_places_blockEntries (hsound.values b hb)).1 hmem
    obtain ⟨q', hq', hrow, hcol⟩ := (mem_places_blockEntries (hsound.values b' hb')).1 hmem'
    exact hne (htiled.place_inj hsound hb hb' hq hq' hrow hcol).1

/-- **Places of entries differ where no block lists one twice.** -/
theorem ListsOnce.nodup_places (honce : c.ListsOnce) (hc : c.Tidy) (hsound : c.Sound)
    (htiled : c.Tiled) (hreads : c.ReadsInputs) (happly : c.capabilities.applyLinear = false) :
    (c.entries.map Entry.place).Nodup := by
  have hblocks := honce.nodup_blockPlaces hc hsound htiled
  simp only [entries, happly, Bool.false_eq_true, if_false, List.map_append]
  cases hexplicit : c.isImplicit with
  | true =>
    simp only [if_true, List.map_nil, List.nil_append]
    exact hblocks 1
  | false =>
    simp only [Bool.false_eq_true, if_false]
    refine List.Nodup.append ?_ (hblocks (-1)) ?_
    · rw [List.map_map]
      exact List.nodup_range.map fun i i' heq => congrArg Prod.fst heq
    · -- the diagonal is in the columns of outputs, the blocks in those of inputs
      rw [List.disjoint_left]
      rintro ⟨r, k⟩ hdiagonal hblock
      rw [List.map_map] at hdiagonal
      obtain ⟨i, -, hi⟩ := List.mem_map.1 hdiagonal
      rw [List.map_flatMap] at hblock
      obtain ⟨b, hb, hplace⟩ := List.mem_flatMap.1 hblock
      rw [Array.mem_toList_iff] at hb
      obtain ⟨q, -, -, rfl⟩ := (mem_places_blockEntries (hsound.values b hb)).1 hplace
      obtain ⟨p, hp⟩ := hreads hexplicit b hb
      rw [hp] at hi
      cases congrArg Prod.snd hi

/-- **The Jacobian of an affine component by finite differences.** Where the declarations have a
place for each slope, linearizing succeeds, and the entries at a place add up to the slope as often
as the place is listed: to the slope itself where no block lists a place twice. -/
theorem entrySum_of_differenced {name : String} {d : Discipline α} {c₀ : Component α}
    (h : declare name d = .ok c₀) (hd : d.Addressable) (us : List (PartialUse α))
    (hK : c₀.ResidualsChangeBy K) (happly : c₀.capabilities.applyLinear = false)
    (hfd : c₀.Differenced) (hplaces : c₀.HasPlacesOf K) (hx : x.size = c₀.inputs.size)
    (hy : y.size = c₀.outputs.size)
    (hown : isResult ((c₀.useAll us).linearizeOwn x y) = true) :
    ∃ after, (c₀.useAll us).linearize x y none = .ok ⟨⟩ after ∧
      (∀ r k, after.entrySum r k = (c₀.entries.map Entry.place).count (r, k) * K r k) ∧
      (c₀.ListsOnce → ∀ r < c₀.outputs.size, ∀ k, c₀.HasColumn k → after.entrySum r k = K r k) := by
  have hdeclared := isDeclared_of_declare h hd
  obtain ⟨u, hown⟩ := eq_ok_of_isResult hown
  generalize stateAfter ((c₀.useAll us).linearizeOwn x y) = own at hown
  have halike : c₀.Alike own := by
    have hlinearize := alike_linearizeOwn (c₀.useAll us) x y
    rw [hown, stateAfter_ok] at hlinearize
    exact (alike_useAll c₀ us).trans hlinearize
  have hprobed : own.linearizeProbed x y = .ok ⟨⟩ own := by
    rw [linearizeProbed, halike.capabilities, happly, if_neg Bool.false_ne_true]
  obtain ⟨after, happrox⟩ := exists_approximate (hfd.alike halike) (hK.changesBy.alike halike)
    (hdeclared.sound.alike halike) (halike.inputs ▸ hx) (halike.outputs ▸ hy)
  have hafter : (c₀.useAll us).linearize x y none = .ok ⟨⟩ after := by
    refine linearize_eq_ok.2 ⟨own, own, hown, hprobed, happrox, fun _ hnone => ?_⟩
    cases hnone
  have hsum : ∀ r k, after.entrySum r k = (c₀.entries.map Entry.place).count (r, k) * K r k := by
    intro r k
    rw [entrySum_eq (value_of_differenced h hd hK happly hfd hx hy hafter),
      (alike_of_linearize hafter).places]
  refine ⟨after, hafter, hsum, fun honce r hr k hk => ?_⟩
  have hnodup := honce.nodup_places (mem_blocks_iff h).1 hdeclared.sound hdeclared.tiled
    (readsInputs_of_declare h) happly
  rw [hsum]
  by_cases hmem : (r, k) ∈ c₀.entries.map Entry.place
  · rw [List.count_eq_one_of_mem hnodup hmem, Nat.cast_one, one_mul]
  · -- a place that is not listed has no slope
    have hzero : K r k = 0 := by
      by_contra hne
      exact hmem (hdeclared.sound.mem_places.2 (hplaces r hr k hk hne))
    rw [hzero, mul_zero]

end Component

/-! ### A place that is listed twice -/

namespace Tripling

/-- The only entry, listed twice, by forward differences. -/
def twice : List (PartialDeclaration ℚ) :=
  [⟨"y", "x", .sparse [0, 0] [0, 0], none, .fd ⟨.forward, 1 / 2, .abs⟩⟩]

theorem declare_twice : Component.declare "triple" (discipline twice) = .ok (component twice) :=
  declare_eq (by with_unfolding_all decide)

theorem residuals_twice : (component twice).ResidualsChangeBy slopes :=
  residualsChangeBy (Component.isDeclared_of_declare declare_twice (addressable twice)).discipline
    (by with_unfolding_all decide) (by with_unfolding_all decide)

/-- The block of the component. -/
def block : PartialBlock ℚ :=
  ⟨0, .input 0, "y", "x", (1, 1), #[(0, 0), (0, 0)], #[0, 0], .fd ⟨.forward, 1 / 2, .abs⟩, false,
    false⟩

theorem blocks_twice : (component twice).partials.blocks = #[block] := by with_unfolding_all rfl

theorem differenced_twice : (component twice).Differenced := by
  rw [Component.Differenced, blocks_twice]
  intro b hb
  obtain rfl := List.mem_singleton.1 (Array.mem_toList_iff.2 hb)
  exact ⟨rfl, _, rfl, by norm_num⟩

theorem hasPlaces_twice : (component twice).HasPlacesOf slopes := by
  have hout : (component twice).outputs.size = 1 := by with_unfolding_all decide
  have hin : (component twice).inputs.size = 1 := by with_unfolding_all decide
  intro r hr k hk _
  rw [hout] at hr
  obtain rfl : r = 0 := Nat.lt_one_iff.1 hr
  cases k with
  | input k =>
    obtain rfl : k = 0 := Nat.lt_one_iff.1 (hk.trans_eq hin)
    have hrow : ((component twice).outputs.spanAt block.output).start + 0 = 0 := by
      with_unfolding_all decide
    have hcol : (component twice).columnAt block.wrt 0 = .input 0 := by with_unfolding_all decide
    have hblock : (component twice).HasPlace
        (((component twice).outputs.spanAt block.output).start + 0)
        ((component twice).columnAt block.wrt 0) :=
      .block (q := (0, 0)) (by with_unfolding_all decide) (by simp [blocks_twice])
        (by with_unfolding_all decide)
    rw [hrow, hcol] at hblock
    exact hblock
  | output k =>
    obtain rfl : k = 0 := Nat.lt_one_iff.1 (hk.trans_eq hout)
    exact .diagonal (by with_unfolding_all decide) (by with_unfolding_all decide)
      (by with_unfolding_all decide)

/-- Listed twice, the entry counts twice. -/
theorem entrySum_component : Component.declare "triple" (discipline twice) = .ok (component twice) ∧
    ∃ after, ((component twice).useAll []).linearize #[1] #[0] none = .ok ⟨⟩ after ∧
      after.entrySum 0 (.input 0) = 2 * slopes 0 (.input 0) := by
  obtain ⟨after, hafter, hsum, -⟩ := Component.entrySum_of_differenced declare_twice
    (addressable twice) [] residuals_twice (by with_unfolding_all decide) differenced_twice
    hasPlaces_twice (x := #[1]) (y := #[0]) (by with_unfolding_all decide)
    (by with_unfolding_all decide) (by with_unfolding_all decide)
  have hcount : ((component twice).entries.map Component.Entry.place).count (0, .input 0) = 2 := by
    with_unfolding_all decide
  refine ⟨declare_twice, after, hafter, ?_⟩
  rw [hsum, hcount]
  norm_num

/-- The component after a linearization. -/
def linearized : Component ℚ := stateAfter ((component twice).linearize #[1] #[0] none)

/-- **What is accepted need not give the Jacobian**: an affine component with differences at places
that cover its only slope has entries that add up to twice the slope. -/
theorem entrySum_ne_slope :
    Component.declare "triple" (discipline twice) = .ok (component twice) ∧
      (component twice).ResidualsChangeBy slopes ∧ (component twice).Differenced ∧
      (component twice).HasPlacesOf slopes ∧
      (component twice).linearize #[1] #[0] none = .ok ⟨⟩ linearized ∧
      linearized.entrySum 0 (.input 0) ≠ slopes 0 (.input 0) := by
  refine ⟨declare_twice, residuals_twice, differenced_twice, hasPlaces_twice,
    (eq_ok_of_isResult (by with_unfolding_all decide)).choose_spec, by with_unfolding_all decide⟩

end Tripling

end Mdao
