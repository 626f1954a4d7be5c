import Mdao.Proofs.Component.Differences
import Mdao.Proofs.Component.Latest
import Mdao.Proofs.Component.Located

/-!
# Derivatives outside the declared structure

With a tolerance a linearization ends with a check: each entry of the point is moved in turn, and a
derivative above the tolerance at a place that is not declared is an error. For an affine component
the check misses none and reports none in vain. What it reports is the first in the order of the
columns, inputs before outputs, and then of the rows (`Component.linearize_strict_spec`).

* `Component.isDeclared_iff`: a place is declared when some block lists it.
* `Component.verifyColumns_eq`: a check fails at the first column where it finds something.
-/

namespace Mdao

open Vec

variable {α : Type}

/-! ### The order of the check -/

/-- A column comes before another: inputs before outputs, and by index. -/
def Column.Before : Column → Column → Prop
  | .input i, .input j => i < j
  | .input _, .output _ => True
  | .output _, .input _ => False
  | .output i, .output j => i < j

namespace Column

variable {k k' : Column}

theorem Before.asymm (h : k.Before k') : ¬k'.Before k := by
  cases k with
  | input i =>
    cases k' with
    | input j => exact Nat.lt_asymm h
    | output j => exact id
  | output i =>
    cases k' with
    | input j => exact h.elim
    | output j => exact Nat.lt_asymm h

end Column

namespace Component

variable {c c' : Component α} {r : Nat} {k : Column}

/-- A column that the check moves: an input, or an output of an implicit component. -/
def IsMoved (c : Component α) : Column → Prop
  | .input i => i < c.inputs.size
  | .output i => c.isImplicit = true ∧ i < c.outputs.size

/-- The columns that the check moves, in turn. -/
def movedColumns (c : Component α) : List Column :=
  (List.range c.inputs.size).map Column.input ++
    if c.isImplicit then (List.range c.outputs.size).map Column.output else []

theorem mem_movedColumns : k ∈ c.movedColumns ↔ c.IsMoved k := by
  unfold movedColumns
  cases k with
  | input i => cases c.isImplicit <;> simp [IsMoved]
  | output i => cases himplicit : c.isImplicit <;> simp [IsMoved, himplicit]

theorem IsMoved.hasColumn (hk : c.IsMoved k) : c.HasColumn k := by
  cases k with
  | input i => exact hk
  | output i => exact hk.2

/-- The columns are moved in order. -/
theorem pairwise_movedColumns (c : Component α) : c.movedColumns.Pairwise Column.Before := by
  have hinputs : ((List.range c.inputs.size).map Column.input).Pairwise Column.Before := by
    rw [List.pairwise_map]
    exact List.pairwise_lt_range
  have houtputs : ((List.range c.outputs.size).map Column.output).Pairwise Column.Before := by
    rw [List.pairwise_map]
    exact List.pairwise_lt_range
  unfold movedColumns
  rw [List.pairwise_append]
  refine ⟨hinputs, ?_, fun k hk k' hk' => ?_⟩
  · split_ifs
    · exact houtputs
    · exact .nil
  · obtain ⟨i, -, rfl⟩ := List.mem_map.1 hk
    split_ifs at hk' with himplicit
    · obtain ⟨j, -, rfl⟩ := List.mem_map.1 hk'
      trivial
    · cases hk'

/-- A column that comes before one in the list stands before it. -/
theorem mem_of_before {before after : List Column} {k k' : Column}
    (hsplit : c.movedColumns = before ++ k :: after) (hmoved : c.IsMoved k')
    (hk' : k'.Before k) : k' ∈ before := by
  have hmem := mem_movedColumns.2 hmoved
  have hpairwise := pairwise_movedColumns c
  rw [hsplit] at hmem hpairwise
  rcases List.mem_append.1 hmem with h | h
  · exact h
  · exfalso
    rcases List.mem_cons.1 h with rfl | h
    · exact hk'.asymm hk'
    · have hafter := (List.pairwise_append.1 hpairwise).2.1
      exact hk'.asymm (List.rel_of_pairwise_cons hafter h)

/-! ### Declared places -/

section Declared

variable [Scalar α]

omit [Scalar α] in
/-- In a column that is moved, places are those of blocks. -/
theorem HasPlace.exists_block (h : c.HasPlace r k) (happly : c.capabilities.applyLinear = false)
    (hk : c.IsMoved k) : ∃ b ∈ c.partials.blocks, ∃ q ∈ b.places,
      (c.outputs.spanAt b.output).start + q.1 = r ∧ c.columnAt b.wrt q.2 = k := by
  cases h with
  | product h => simp [happly] at h
  | diagonal _ hexplicit => exact absurd (hk.1.symm.trans hexplicit) (by decide)
  | block _ hb hq => exact ⟨_, hb, _, hq, rfl, rfl⟩

/-- **A place is declared when a block lists it.** -/
theorem isDeclared_iff {name : String} {d : Discipline α} (h : declare name d = .ok c)
    (hd : d.Addressable) (happly : c.capabilities.applyLinear = false)
    (hr : r < c.outputs.size) (hk : c.IsMoved k) : c.isDeclared r k = true ↔ c.HasPlace r k := by
  have hdeclared := isDeclared_of_declare h hd
  have htiled := hdeclared.tiled
  have hnamed := named_of_declare h
  obtain ⟨htidy, hmem⟩ := mem_blocks_iff h
  obtain ⟨o, i, hi, rfl⟩ := htiled.outputs.exists_start_add hr
  obtain ⟨w, j, hj, rfl⟩ := htiled.exists_columnAt hk.hasColumn
  have hpair : c.HasPair (o, w) := by
    refine ⟨Layout.lt_length_of_lt_size hi, ?_⟩
    cases w with
    | input p => exact Layout.lt_length_of_lt_size hj
    | output p => exact ⟨hk.1, Layout.lt_length_of_lt_size hj⟩
  -- the block that is found is that of the pair, and it contains what it lists
  have hcontains : ∀ b ∈ c.partials.blocks, b.pair = (o, w) →
      (b.contains i j = true ↔ (i, j) ∈ b.places) := by
    intro b hb heq
    obtain ⟨q, -, hblock⟩ := (hmem b).1 hb
    rw [heq] at hblock
    refine hblock.contains_iff ?_ ?_
    · rw [hblock.shape]
      exact hi
    · rw [hblock.shape]
      exact hj
  have hfind : ∀ b, c.partials.find? (c.outputs.nameAt o) (c.wrtField w).1 = some b ↔
      b ∈ c.partials.blocks ∧ b.pair = (o, w) := fun b =>
    htidy.keyed.find?_eq_some.trans
      (and_congr_right fun hb => htidy.key_eq_iff hnamed hb hpair)
  unfold isDeclared
  rw [htiled.placeOf_columnAt hj, htiled.placeIn_outputs hi]
  dsimp only
  constructor
  · intro hfound
    cases hb : c.partials.find? (c.outputs.nameAt o) (c.wrtField w).1 with
    | none => simp [hb] at hfound
    | some b =>
      rw [hb] at hfound
      obtain ⟨hb, hpair⟩ := (hfind b).1 hb
      have hplace : (i, j) ∈ b.places := (hcontains b hb hpair).1 hfound
      have hblock := HasPlace.block happly hb hplace
      obtain ⟨rfl, rfl⟩ := Prod.mk.inj hpair
      exact hblock
  · intro hplace
    obtain ⟨b, hb, q, hq, hrow, hcol⟩ := hplace.exists_block happly hk
    obtain ⟨hq1, hq2⟩ := hdeclared.sound.places b hb q hq
    obtain ⟨rfl, rfl⟩ := htiled.outputs.start_add_inj hq1 hi hrow
    obtain ⟨rfl, rfl⟩ := htiled.columnAt_inj hq2 hj hcol
    rw [(hfind b).2 ⟨hb, rfl⟩]
    exact (hcontains b hb rfl).2 hq

end Declared

/-! ### Checking columns -/

section Checking

variable [ExactScalar α] {x y base : Array α} {J : Nat → Column → α} {t : α}

/-- A slope above the tolerance at a place that is not declared, as the check sees it. -/
def Misses (c : Component α) (J : Nat → Column → α) (t : α) (r : Nat) (k : Column) : Prop :=
  t < |J r k| ∧ c.isDeclared r k = false

/-- What the check looks for in a column of slopes. -/
theorem test_iff (r : Nat) (k : Column) :
    (!decide (Scalar.abs (J r k) ≤ t) && !c.isDeclared r k) = true ↔ c.Misses J t r k := by
  rw [ExactScalar.abs_eq, Bool.and_eq_true, Bool.not_eq_true', Bool.not_eq_true',
    decide_eq_false_iff_not, not_le, Misses]

/-- What the check finds in a column: the first value above the tolerance that is not declared, with
its row. -/
def firstMissed (c : Component α) (t : α) (k : Column) (values : Array α) : Option (α × Nat) :=
  values.toList.zipIdx.find? fun (v, row) =>
    !decide (Scalar.abs v ≤ t) && !c.isDeclared row k

theorem verifyColumns_cons (k : Column) (ks : List Column) :
    c.verifyColumns x y base t (k :: ks) =
      match c.fdColumn x y .default base k with
      | .error e => .error e
      | .ok values =>
        match c.firstMissed t k values with
        | some (_, row) => .error (c.undeclaredAt row k)
        | none => c.verifyColumns x y base t ks := rfl

theorem getElem?_tabulate {n r : Nat} (f : Nat → α) (hr : r < n) :
    (tabulate n f).toList[r]? = some (f r) := by
  have hsize : r < (tabulate n f).size := by rwa [size_tabulate]
  rw [Array.getElem?_toList, Array.getElem?_eq_getElem hsize, ← entry_eq_getElem hsize,
    entry_tabulate, if_pos hr]

/-- In a column of slopes the check finds the first row that it misses, if there is one. -/
theorem firstMissed_tabulate (n : Nat) (k : Column) :
    c.firstMissed t k (tabulate n fun i => J i k) = none ∧ (∀ r < n, ¬c.Misses J t r k) ∨
    ∃ r < n, c.firstMissed t k (tabulate n fun i => J i k) = some (J r k, r) ∧
      c.Misses J t r k ∧ ∀ r' < r, ¬c.Misses J t r' k := by
  unfold firstMissed
  cases hfind : ((tabulate n fun i => J i k).toList.zipIdx.find? fun (v, row) =>
      !decide (Scalar.abs v ≤ t) && !c.isDeclared row k) with
  | none =>
    refine .inl ⟨rfl, fun r hr hmiss => ?_⟩
    have hmem : (J r k, r) ∈ (tabulate n fun i => J i k).toList.zipIdx :=
      List.mem_zipIdx_iff_getElem?.2 (getElem?_tabulate (fun i => J i k) hr)
    exact List.find?_eq_none.1 hfind _ hmem ((test_iff r k).2 hmiss)
  | some found =>
    obtain ⟨v, r⟩ := found
    obtain ⟨htest, i, hi, heq, hbefore⟩ := List.find?_eq_some_iff_getElem.1 hfind
    -- each row has its slope, at its own index
    have hlt : ∀ j, j < (tabulate n fun i => J i k).toList.zipIdx.length → j < n := by
      intro j hj
      simpa using hj
    have hrow : ∀ j (hj : j < (tabulate n fun i => J i k).toList.zipIdx.length),
        (tabulate n fun i => J i k).toList.zipIdx[j] = (J j k, j) := by
      intro j hj
      have hget := getElem?_tabulate (fun i => J i k) (hlt j hj)
      rw [List.getElem_zipIdx, Nat.zero_add]
      exact congrArg (·, j) (List.getElem?_eq_some_iff.1 hget).2
    obtain ⟨rfl, rfl⟩ := Prod.mk.inj ((hrow i hi).symm.trans heq)
    refine .inr ⟨i, hlt i hi, rfl, (test_iff i k).1 htest, fun r' hr' hmiss => ?_⟩
    have hnot := hbefore r' hr'
    rw [hrow r' (hr'.trans hi)] at hnot
    dsimp only at hnot
    rw [(test_iff r' k).2 hmiss] at hnot
    cases hnot

/-- **The check fails at the first column where it finds something**, and there at the first row. -/
theorem verifyColumns_eq {ks : List Column} (hfd : ∀ k ∈ ks,
      c.fdColumn x y .default base k = .ok (tabulate c.outputs.size fun i => J i k)) :
    (c.verifyColumns x y base t ks : Except EvalError Unit) = .ok ⟨⟩ ∧
      (∀ k ∈ ks, ∀ r < c.outputs.size, ¬c.Misses J t r k) ∨
    ∃ before k after r, ks = before ++ k :: after ∧ r < c.outputs.size ∧
      (c.verifyColumns x y base t ks : Except EvalError Unit) = .error (c.undeclaredAt r k) ∧
      c.Misses J t r k ∧ (∀ k' ∈ before, ∀ r' < c.outputs.size, ¬c.Misses J t r' k') ∧
      ∀ r' < r, ¬c.Misses J t r' k := by
  induction ks with
  | nil => exact .inl ⟨rfl, fun k hk => nomatch hk⟩
  | cons k ks ih =>
    have hstep : (c.verifyColumns x y base t (k :: ks) : Except EvalError Unit) =
        match c.firstMissed t k (tabulate c.outputs.size fun i => J i k) with
        | some (_, row) => .error (c.undeclaredAt row k)
        | none => c.verifyColumns x y base t ks := by
      rw [verifyColumns_cons, hfd k List.mem_cons_self]
    rcases firstMissed_tabulate (c := c) (J := J) (t := t) c.outputs.size k with
      ⟨hnone, hrows⟩ | ⟨r, hr, hsome, hmiss, hrows⟩
    · rw [hnone] at hstep
      rcases ih fun k' hk' => hfd k' (List.mem_cons_of_mem k hk') with
        ⟨hok, hcolumns⟩ | ⟨before, k', after, r, rfl, hr, herror, hmiss, hcolumns, hrows'⟩
      · refine .inl ⟨hstep.trans hok, fun k' hk' => ?_⟩
        rcases List.mem_cons.1 hk' with rfl | hk'
        · exact hrows
        · exact hcolumns k' hk'
      · refine .inr ⟨k :: before, k', after, r, rfl, hr, hstep.trans herror, hmiss,
          fun k'' hk'' => ?_, hrows'⟩
        rcases List.mem_cons.1 hk'' with rfl | hk''
        · exact hrows
        · exact hcolumns k'' hk''
    · rw [hsome] at hstep
      exact .inr ⟨[], k, ks, r, rfl, hr, hstep, hmiss, fun _ hk' => (nomatch hk'), hrows⟩

end Checking

/-! ### What does not depend on values -/

section Alike

variable [Scalar α] {x y : Array α}

/-- Which places are declared does not depend on values. -/
theorem Alike.isDeclared (h : c.Alike c') (r : Nat) (k : Column) :
    c'.isDeclared r k = c.isDeclared r k := by
  have hplace : c'.placeOf k = c.placeOf k := by
    rw [h.eq_with]
    rfl
  unfold Component.isDeclared
  rw [hplace, h.outputs]
  split
  · rename_i wrtName _ name _ _ _
    rcases h.partials.find? name wrtName with ⟨hb, hb'⟩ | ⟨b, b', hb, hb', houtline⟩
    · simp only [hb, hb']
    · simp only [hb, hb', PartialBlock.contains, PartialBlock.dense_of_outline houtline,
        PartialBlock.places_of_outline houtline]
  · rfl

theorem Alike.undeclaredAt (h : c.Alike c') (r : Nat) (k : Column) :
    c'.undeclaredAt r k = c.undeclaredAt r k := by
  rw [h.eq_with]
  rfl

/-- Neither does what the check finds. -/
theorem Alike.verify (h : c.Alike c') (t : α) : c'.verify x y t = c.verify x y t := by
  have hcolumns : ∀ base ks, (c'.verifyColumns x y base t ks : Except EvalError Unit) =
      c.verifyColumns x y base t ks := by
    intro base ks
    induction ks with
    | nil => rfl
    | cons k ks ih =>
      unfold verifyColumns
      rw [h.fdColumn]
      simp only [h.isDeclared, h.undeclaredAt, ih]
  unfold Component.verify
  simp only [h.capabilities, isImplicit, h.discipline, h.inputs, h.outputs, h.raw, hcolumns]
  rfl

end Alike

/-! ### The check of an affine component -/

section Affine

variable [ExactScalar α] {name : String} {d : Discipline α} {x y : Array α} {J : Nat → Column → α}
  {t : α}

/-- **A derivative outside the declared structure**: a slope above the tolerance, in a column that
the check moves, at a place that is not declared. -/
def Undeclared (c : Component α) (J : Nat → Column → α) (t : α) (r : Nat) (k : Column) : Prop :=
  r < c.outputs.size ∧ c.IsMoved k ∧ t < |J r k| ∧ ¬c.HasPlace r k

/-- The first derivative outside the declared structure, by columns and then by rows. -/
def IsFirst (c : Component α) (J : Nat → Column → α) (t : α) (r : Nat) (k : Column) : Prop :=
  c.Undeclared J t r k ∧
    ∀ r' k', k'.Before k ∨ k' = k ∧ r' < r → ¬c.Undeclared J t r' k'

/-- What the check misses is what is undeclared. -/
theorem misses_iff (h : declare name d = .ok c) (hd : d.Addressable)
    (happly : c.capabilities.applyLinear = false) (hr : r < c.outputs.size) (hk : c.IsMoved k) :
    c.Misses J t r k ↔ c.Undeclared J t r k := by
  rw [Misses, ← Bool.not_eq_true, isDeclared_iff h hd happly hr hk]
  exact ⟨fun hmiss => ⟨hr, hk, hmiss⟩, fun hundeclared => hundeclared.2.2⟩

/-- **The check of an affine component**: it finds nothing and there is nothing to find, or it
reports what is first. -/
theorem verify_spec (h : declare name d = .ok c) (hd : d.Addressable)
    (happly : c.capabilities.applyLinear = false) (hJ : c.ChangesBy J)
    (hx : x.size = c.inputs.size) (hy : y.size = c.outputs.size) (t : α) :
    c.verify x y t = .ok ⟨⟩ ∧ (∀ r k, ¬c.Undeclared J t r k) ∨
      ∃ r k, c.IsFirst J t r k ∧ c.verify x y t = .error (c.undeclaredAt r k) := by
  obtain ⟨base, hbase⟩ := hJ.exists_raw hx hy
  have hverify : c.verify x y t = c.verifyColumns x y base t c.movedColumns := by
    unfold verify
    rw [happly, if_neg Bool.false_ne_true, hbase]
    rfl
  have hfd : ∀ k ∈ c.movedColumns,
      c.fdColumn x y .default base k = .ok (tabulate c.outputs.size fun i => J i k) := fun k hk =>
    hJ.fdColumn_eq hx hy hbase (mem_movedColumns.1 hk).hasColumn FdOptions.default_step_ne_zero
  have hmisses : ∀ {r k}, r < c.outputs.size → c.IsMoved k →
      (c.Misses J t r k ↔ c.Undeclared J t r k) := fun hr hk => misses_iff h hd happly hr hk
  rw [hverify]
  rcases verifyColumns_eq (t := t) hfd with
    ⟨hok, hnone⟩ | ⟨before, k, after, r, hsplit, hr, herror, hmiss, hcolumns, hrows⟩
  · refine .inl ⟨hok, fun r k hundeclared => ?_⟩
    have hr := hundeclared.1
    have hk := hundeclared.2.1
    exact hnone k (mem_movedColumns.2 hk) r hr ((hmisses hr hk).2 hundeclared)
  · have hk : c.IsMoved k := mem_movedColumns.1 (by rw [hsplit]; simp)
    refine .inr ⟨r, k, ⟨(hmisses hr hk).1 hmiss, fun r' k' hbefore hundeclared => ?_⟩, herror⟩
    have hr' := hundeclared.1
    have hk' := hundeclared.2.1
    rcases hbefore with hbefore | ⟨rfl, hlt⟩
    · exact hcolumns k' (mem_of_before hsplit hk' hbefore) r' hr' ((hmisses hr' hk').2 hundeclared)
    · exact hrows r' hlt ((hmisses hr' hk').2 hundeclared)

/-- **With a tolerance, a linearization of an affine component** that succeeds without one fails
exactly where a derivative above the tolerance is outside the declared structure. It then reports
the first such derivative by the names of its variables and its offsets in them; otherwise the
derivatives are those found without a tolerance. -/
theorem linearize_strict_spec {c₀ after : Component α} (h : declare name d = .ok c₀)
    (hd : d.Addressable) (us : List (PartialUse α))
    (happly : c₀.capabilities.applyLinear = false) (hJ : c₀.ChangesBy J)
    (hx : x.size = c₀.inputs.size) (hy : y.size = c₀.outputs.size) (t : α)
    (hplain : (c₀.useAll us).linearize x y none = .ok ⟨⟩ after) :
    (isResult ((c₀.useAll us).linearize x y (some t)) = false ↔ ∃ r k, c₀.Undeclared J t r k) ∧
    ((∀ r k, ¬c₀.Undeclared J t r k) →
      (c₀.useAll us).linearize x y (some t) = .ok ⟨⟩ after) ∧
    ((∃ r k, c₀.Undeclared J t r k) → ∃ o i w j,
      i < (c₀.outputs.spanAt o).size ∧ j < (c₀.wrtField w).2 ∧
      c₀.IsFirst J t ((c₀.outputs.spanAt o).start + i) (c₀.columnAt w j) ∧
      (c₀.useAll us).linearize x y (some t) =
        .error (.undeclaredNonzero name (c₀.outputs.nameAt o) (c₀.wrtField w).1 i j) after) := by
  have hdeclared := isDeclared_of_declare h hd
  have halike : c₀.Alike after := alike_of_linearize hplain
  have hstrict := linearize_strict hplain t
  rw [halike.verify] at hstrict
  rcases verify_spec h hd happly hJ hx hy t with ⟨hok, hnone⟩ | ⟨r, k, hfirst, herror⟩
  · rw [hok] at hstrict
    dsimp only at hstrict
    have hno : ¬∃ r k, c₀.Undeclared J t r k := fun ⟨r, k, hundeclared⟩ => hnone r k hundeclared
    refine ⟨?_, fun _ => hstrict, fun hsome => absurd hsome hno⟩
    rw [hstrict]
    exact ⟨fun hresult => (nomatch hresult), fun hsome => absurd hsome hno⟩
  · rw [herror] at hstrict
    dsimp only at hstrict
    refine ⟨?_, fun hnone => absurd hfirst.1 (hnone r k), fun _ => ?_⟩
    · rw [hstrict]
      exact ⟨fun _ => ⟨r, k, hfirst.1⟩, fun _ => rfl⟩
    · obtain ⟨o, i, hi, rfl⟩ := hdeclared.tiled.outputs.exists_start_add hfirst.1.1
      obtain ⟨w, j, hj, rfl⟩ := hdeclared.tiled.exists_columnAt hfirst.1.2.1.hasColumn
      refine ⟨o, i, w, j, hi, hj, hfirst, ?_⟩
      rw [hstrict, undeclaredAt, hdeclared.tiled.placeOf_columnAt hj,
        hdeclared.tiled.placeIn_outputs hi, hdeclared.name]
      rfl

end Affine

end Component

/-! ### A component without declarations -/

namespace Tripling

theorem declare_nothing : Component.declare "triple" (discipline []) = .ok (component []) :=
  declare_eq (by with_unfolding_all decide)

theorem isImplicit_nothing : (component []).isImplicit = false := by with_unfolding_all decide

theorem changesBy_nothing : (component []).ChangesBy ((component []).rawSlopes slopes) :=
  (residualsChangeBy
    (Component.isDeclared_of_declare declare_nothing (addressable [])).discipline
    (by with_unfolding_all decide) (by with_unfolding_all decide)).changesBy

/-- The slope of the output in the input. -/
theorem rawSlopes_input (r k : Nat) : (component []).rawSlopes slopes r (.input k) = 3 := by
  simp [Component.rawSlopes, isImplicit_nothing, slopes]

/-- The slope of the input is not declared. -/
theorem undeclared_nothing :
    (component []).Undeclared ((component []).rawSlopes slopes) 2 0 (.input 0) := by
  have hmoved : (component []).IsMoved (.input 0) :=
    show 0 < (component []).inputs.size by with_unfolding_all decide
  refine ⟨by with_unfolding_all decide, hmoved, ?_, fun hplace => ?_⟩
  · rw [rawSlopes_input]
    norm_num
  · have hblocks : (component []).partials.blocks = #[] := by with_unfolding_all rfl
    obtain ⟨b, hb, -⟩ := hplace.exists_block (by with_unfolding_all decide) hmoved
    rw [hblocks] at hb
    simp at hb

/-- The component after a linearization without a tolerance. -/
def linearizedPlain : Component ℚ :=
  stateAfter (((component []).useAll []).linearize #[1] #[0] none)

theorem linearize_plain :
    ((component []).useAll []).linearize #[1] #[0] none = .ok ⟨⟩ linearizedPlain :=
  (eq_ok_of_isResult (by with_unfolding_all decide)).choose_spec

/-- A slope of three that is not declared is an error with a tolerance of two, but not of three. -/
theorem strict_nothing : Component.declare "triple" (discipline []) = .ok (component []) ∧
    ((component []).useAll []).linearize #[1] #[0] none = .ok ⟨⟩ linearizedPlain ∧
    isResult (((component []).useAll []).linearize #[1] #[0] (some 2)) = false ∧
    ((component []).useAll []).linearize #[1] #[0] (some 3) = .ok ⟨⟩ linearizedPlain := by
  have hspec := fun t => Component.linearize_strict_spec declare_nothing (addressable []) []
    (by with_unfolding_all decide) changesBy_nothing (x := #[1]) (y := #[0])
    (by with_unfolding_all decide) (by with_unfolding_all decide) t linearize_plain
  refine ⟨declare_nothing, linearize_plain, (hspec 2).1.2 ⟨0, .input 0, undeclared_nothing⟩,
    (hspec 3).2.1 fun r k hundeclared => ?_⟩
  have hlarge := hundeclared.2.2.1
  cases k with
  | input k =>
    rw [rawSlopes_input] at hlarge
    norm_num at hlarge
  | output k =>
    exact absurd (hundeclared.2.1.1.symm.trans isImplicit_nothing) (by decide)

end Tripling

end Mdao
