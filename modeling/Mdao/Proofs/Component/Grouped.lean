import Mdao.Proofs.Component.Afresh
import Mdao.Proofs.Component.Computes
import Mdao.Proofs.Component.Latest
import Mdao.Proofs.Scalar.Order

/-!
# Approximations by groups

An approximation moves each entry of a variable once for all blocks that differentiate with respect
to it by the same method, and writes the column it finds into each of them. A block may be written
several times; its entries are those of its own column and method as long as all columns that reach
an entry agree on it (`value?_approximateColumns`).

* `Component.TellsApart`: no other method of the same variable compares equal to that of the block.
* `Component.entries_of_linearize`: entries of such a block are those of the columns that
  `Component.column` finds by its method, and other blocks are left alone.
* `Component.tellsApart_of_lawful`: without rounding every block is such a block. A floating-point
  step may be a zero of either sign, which compare equal (`Signed.first_group_prevails`).
-/

namespace Mdao

variable {α : Type}

section Lawful

variable [BEq α]

theorem FdOptions.beq_eq (o o' : FdOptions α) :
    (o == o') = (o.form == o'.form && (o.step == o'.step && o.scale == o'.scale)) := by
  cases o
  cases o'
  rfl

/-- Methods that compare equal are approximations both or neither. -/
theorem Method.isApproximated_of_beq {m m' : Method α} (h : (m == m') = true) :
    m.isApproximated = m'.isApproximated := by
  cases m with
  | exact =>
    cases m' with
    | exact => rfl
    | fd o => cases h
    | cs step => cases h
  | fd o =>
    cases m' with
    | exact => cases h
    | fd o' => rfl
    | cs step => rfl
  | cs step =>
    cases m' with
    | exact => cases h
    | fd o => rfl
    | cs step' => rfl

variable [LawfulBEq α]

/-- Options compare equal only if they are, where numbers do. -/
instance : LawfulBEq (FdOptions α) where
  rfl {o} := by simp [FdOptions.beq_eq]
  eq_of_beq {o o'} h := by
    simp only [FdOptions.beq_eq, Bool.and_eq_true, beq_iff_eq] at h
    obtain ⟨hform, hstep, hscale⟩ := h
    cases o
    cases o'
    simp only at hform hstep hscale
    rw [hform, hstep, hscale]

/-- Methods compare equal only if they are, where numbers do. -/
instance : LawfulBEq (Method α) where
  rfl {m} := by
    cases m with
    | exact => rfl
    | fd o => exact beq_self_eq_true o
    | cs step => exact beq_self_eq_true step
  eq_of_beq {m m'} h := by
    cases m with
    | exact =>
      cases m' with
      | exact => rfl
      | fd o => cases h
      | cs step => cases h
    | fd o =>
      cases m' with
      | exact => cases h
      | fd o' => rw [eq_of_beq (show (o == o') = true from h)]
      | cs step => cases h
    | cs step =>
      cases m' with
      | exact => cases h
      | fd o => cases h
      | cs step' => rw [eq_of_beq (show (step == step') = true from h)]

end Lawful

/-- A block whose values are approximated. -/
structure PartialBlock.Approximated (b : PartialBlock α) : Prop where
  method : b.method.isApproximated = true
  constant : b.constant = false

namespace Component

variable [Scalar α] {c c' : Component α} {x y base : Array α} {j i : Nat}

/-! ### Groups -/

/-- One more block among the groups. -/
def addGroup (groups : List (Wrt × Method α)) (b : PartialBlock α) : List (Wrt × Method α) :=
  if b.method.isApproximated && !b.constant
      && !groups.any (fun g => g.1 == b.wrt && g.2 == b.method) then
    groups ++ [(b.wrt, b.method)]
  else groups

theorem approximationGroups_eq (c : Component α) :
    c.approximationGroups = c.partials.blocks.toList.foldl addGroup [] :=
  (Array.foldl_toList addGroup).symm

/-- A block adds at most its own variable and method. -/
theorem mem_addGroup {groups : List (Wrt × Method α)} {b : PartialBlock α} {g : Wrt × Method α}
    (h : g ∈ addGroup groups b) : g ∈ groups ∨ b.Approximated ∧ g = (b.wrt, b.method) := by
  unfold addGroup at h
  split_ifs at h with hnew
  · rcases List.mem_append.1 h with hg | hg
    · exact .inl hg
    · simp only [Bool.and_eq_true, Bool.not_eq_true'] at hnew
      exact .inr ⟨⟨hnew.1.1, hnew.1.2⟩, List.mem_singleton.1 hg⟩
  · exact .inl h

theorem subset_addGroup (groups : List (Wrt × Method α)) (b : PartialBlock α) :
    groups ⊆ addGroup groups b := by
  unfold addGroup
  split_ifs
  · exact List.subset_append_left _ _
  · exact List.Subset.refl _

/-- An approximated block has a group once it is added, which may be that of another method that
compares equal. -/
theorem exists_of_addGroup (groups : List (Wrt × Method α)) {b : PartialBlock α}
    (hb : b.Approximated) : ∃ g ∈ addGroup groups b,
      g.1 = b.wrt ∧ (g.2 = b.method ∨ (g.2 == b.method) = true) := by
  unfold addGroup
  split_ifs with hnew
  · exact ⟨_, List.mem_append_right _ (List.mem_singleton_self _), rfl, .inl rfl⟩
  · simp only [hb.method, hb.constant, Bool.not_false, Bool.and_self, Bool.true_and,
      Bool.not_eq_true', Bool.not_eq_false] at hnew
    obtain ⟨g, hg, heq⟩ := List.any_eq_true.1 hnew
    rw [Bool.and_eq_true, beq_iff_eq] at heq
    exact ⟨g, hg, heq.1, .inr heq.2⟩

/-- Each group is that of an approximated block. -/
theorem exists_of_mem_approximationGroups {g : Wrt × Method α} (hg : g ∈ c.approximationGroups) :
    ∃ b ∈ c.partials.blocks, b.Approximated ∧ g = (b.wrt, b.method) := by
  have hfold : ∀ (bs : List (PartialBlock α)) groups, g ∈ bs.foldl addGroup groups →
      g ∈ groups ∨ ∃ b ∈ bs, b.Approximated ∧ g = (b.wrt, b.method) := by
    intro bs
    induction bs with
    | nil => exact fun groups h => .inl h
    | cons b bs ih =>
      intro groups h
      rcases ih _ h with h | ⟨b', hb', h⟩
      · rcases mem_addGroup h with h | h
        · exact .inl h
        · exact .inr ⟨b, List.mem_cons_self, h⟩
      · exact .inr ⟨b', List.mem_cons_of_mem _ hb', h⟩
  rw [approximationGroups_eq] at hg
  rcases hfold _ _ hg with h | ⟨b, hb, h⟩
  · cases h
  · exact ⟨b, Array.mem_toList_iff.1 hb, h⟩

/-- Each approximated block has a group. -/
theorem exists_approximationGroup {b : PartialBlock α} (hb : b ∈ c.partials.blocks)
    (happrox : b.Approximated) : ∃ g ∈ c.approximationGroups,
      g.1 = b.wrt ∧ (g.2 = b.method ∨ (g.2 == b.method) = true) := by
  have hsubset : ∀ (bs : List (PartialBlock α)) groups, groups ⊆ bs.foldl addGroup groups := by
    intro bs
    induction bs with
    | nil => exact fun groups => List.Subset.refl _
    | cons b bs ih => exact fun groups => List.Subset.trans (subset_addGroup groups b) (ih _)
  have hfold : ∀ (bs : List (PartialBlock α)) groups, b ∈ bs →
      ∃ g ∈ bs.foldl addGroup groups,
        g.1 = b.wrt ∧ (g.2 = b.method ∨ (g.2 == b.method) = true) := by
    intro bs
    induction bs with
    | nil => exact fun groups h => nomatch h
    | cons b' bs ih =>
      intro groups h
      rcases List.mem_cons.1 h with rfl | h
      · obtain ⟨g, hg, heq⟩ := exists_of_addGroup groups happrox
        exact ⟨g, hsubset bs _ hg, heq⟩
      · exact ih _ h
  rw [approximationGroups_eq]
  exact hfold _ _ (Array.mem_toList_iff.2 hb)

/-- **The method of a block is told apart** from those of the other groups of its variable: it
compares equal to itself, and to no other. -/
structure TellsApart (c : Component α) (b : PartialBlock α) : Prop where
  self : (b.method == b.method) = true
  others : ∀ g ∈ c.approximationGroups, g.1 = b.wrt →
    (b.method == g.2) = true ∨ (g.2 == b.method) = true → g.2 = b.method

/-- Where only equal numbers compare equal, all methods are told apart. -/
theorem tellsApart_of_lawful [LawfulBEq α] (c : Component α) (b : PartialBlock α) :
    c.TellsApart b := by
  refine ⟨beq_self_eq_true _, fun g _ _ heq => ?_⟩
  rcases heq with heq | heq
  · exact (eq_of_beq heq).symm
  · exact eq_of_beq heq

/-- A block whose method is told apart has a group of its own method. -/
theorem TellsApart.mem_groups {b : PartialBlock α} (h : c.TellsApart b)
    (hb : b ∈ c.partials.blocks) (happrox : b.Approximated) :
    (b.wrt, b.method) ∈ c.approximationGroups := by
  obtain ⟨⟨wrt, method⟩, hg, hwrt, heq⟩ := exists_approximationGroup hb happrox
  have hmethod : method = b.method := by
    rcases heq with heq | heq
    · exact heq
    · exact h.others _ hg hwrt (.inr heq)
  rw [← hwrt, ← hmethod]
  exact hg

theorem Alike.tellsApart (h : c.Alike c') {b : PartialBlock α} (hb : c'.TellsApart b) :
    c.TellsApart b := by
  refine ⟨hb.self, ?_⟩
  rw [← h.approximationGroups]
  exact hb.others

/-! ### Columns of variables -/

omit [Scalar α] in
theorem mem_zipIdx_indices {s : Span} {p : Nat × Nat} :
    p ∈ s.indices.zipIdx ↔ p.2 < s.size ∧ p.1 = s.start + p.2 := by
  obtain ⟨i, k⟩ := p
  rw [List.mem_zipIdx_iff_getElem?, Span.indices]
  by_cases hk : k < s.size
  · rw [List.getElem?_range' hk, one_mul, Option.some_inj]
    exact ⟨fun h => ⟨hk, h.symm⟩, fun h => h.2.symm⟩
  · rw [List.getElem?_eq_none (by simpa using hk)]
    constructor
    · intro h
      cases h
    · exact fun h => absurd h.1 hk

omit [Scalar α] in
/-- The columns of a variable. -/
theorem mem_columnsOf {wrt : Wrt} {k : Nat} {col : Column} :
    (k, col) ∈ c.columnsOf wrt ↔ k < (c.wrtField wrt).2 ∧ col = c.columnAt wrt k := by
  cases wrt with
  | input p =>
    simp only [columnsOf, List.mem_map, mem_zipIdx_indices, Prod.mk.injEq, wrtField, columnAt]
    constructor
    · rintro ⟨⟨i, k⟩, ⟨hk, hi⟩, rfl, rfl⟩
      exact ⟨hk, congrArg Column.input hi⟩
    · rintro ⟨hk, rfl⟩
      exact ⟨⟨_, k⟩, ⟨hk, rfl⟩, rfl, rfl⟩
  | output p =>
    simp only [columnsOf, List.mem_map, mem_zipIdx_indices, Prod.mk.injEq, wrtField, columnAt]
    constructor
    · rintro ⟨⟨i, k⟩, ⟨hk, hi⟩, rfl, rfl⟩
      exact ⟨hk, congrArg Column.output hi⟩
    · rintro ⟨hk, rfl⟩
      exact ⟨⟨_, k⟩, ⟨hk, rfl⟩, rfl, rfl⟩

/-- The columns that are approximated: those of the variables of the groups. -/
theorem mem_approximatedColumns {wrt : Wrt} {method : Method α} {k : Nat} {col : Column} :
    (wrt, method, k, col) ∈ c.approximatedColumns ↔
      (wrt, method) ∈ c.approximationGroups ∧ k < (c.wrtField wrt).2 ∧ col = c.columnAt wrt k := by
  simp only [approximatedColumns, List.mem_flatMap, List.mem_map, Prod.mk.injEq]
  rw [← mem_columnsOf]
  constructor
  · rintro ⟨⟨wrt, method⟩, hg, ⟨k, col⟩, hcol, rfl, rfl, rfl, rfl⟩
    exact ⟨hg, hcol⟩
  · rintro ⟨hg, hcol⟩
    exact ⟨(wrt, method), hg, (k, col), hcol, rfl, rfl, rfl, rfl⟩

/-! ### Filling columns one after the other -/

/-- The column that is written for a group; `base` is the function at the point. -/
def groupColumn (c : Component α) (x y base : Array α) (method : Method α) (col : Column) :
    Except EvalError (Array α) :=
  match method with
  | .fd o => c.fdColumn x y o base col
  | .cs step => c.csColumn x y step col
  | .exact => .ok #[]

theorem approximateColumns_cons (wrt : Wrt) (method : Method α) (k : Nat) (col : Column)
    (cols : List (Wrt × Method α × Nat × Column)) :
    approximateColumns x y base c ((wrt, method, k, col) :: cols) =
      match c.groupColumn x y base method col with
      | .ok values => approximateColumns x y base (c.fillColumn wrt method k values) cols
      | .error e => .error e c := rfl

theorem Alike.groupColumn (h : c.Alike c') (method : Method α) (col : Column) :
    c'.groupColumn x y base method col = c.groupColumn x y base method col := by
  cases method with
  | exact => rfl
  | fd o => exact h.fdColumn x y o base col
  | cs step => exact h.csColumn x y step col

/-- Columns that are all written have all been found. -/
theorem groupColumn_of_approximateColumns {cols : List (Wrt × Method α × Nat × Column)}
    (h : approximateColumns x y base c cols = .ok ⟨⟩ c') :
    ∀ col ∈ cols, ∃ values, c.groupColumn x y base col.2.1 col.2.2.2 = .ok values := by
  induction cols generalizing c with
  | nil => exact fun col hcol => nomatch hcol
  | cons col cols ih =>
    obtain ⟨wrt, method, k, place⟩ := col
    rw [approximateColumns_cons] at h
    cases hvalues : c.groupColumn x y base method place with
    | error e => simp [hvalues] at h
    | ok values =>
      simp only [hvalues] at h
      intro col hcol
      rcases List.mem_cons.1 hcol with rfl | hcol
      · exact ⟨values, hvalues⟩
      · rw [← (alike_fillColumn c wrt method k values).groupColumn]
        exact ih h col hcol

/-- **An entry that some column reaches, and on which all columns agree that reach it**, has that
value once they are written. -/
theorem value?_approximateColumns {cols : List (Wrt × Method α × Nat × Column)} {v : α}
    (h : approximateColumns x y base c cols = .ok ⟨⟩ c')
    (hagree : ∀ col ∈ cols, ∀ values, c.groupColumn x y base col.2.1 col.2.2.2 = .ok values →
      ∀ w, c.filled col.1 col.2.1 col.2.2.1 values j i = some w → w = v)
    (hreach : c.partials.value? j i = some v ∨
      ∃ col ∈ cols, (c.filled col.1 col.2.1 col.2.2.1 #[] j i).isSome) :
    c'.partials.value? j i = some v := by
  induction cols generalizing c with
  | nil =>
    cases h
    rcases hreach with hv | ⟨col, hcol, -⟩
    · exact hv
    · cases hcol
  | cons col cols ih =>
    obtain ⟨wrt, method, k, place⟩ := col
    rw [approximateColumns_cons] at h
    cases hvalues : c.groupColumn x y base method place with
    | error e => simp [hvalues] at h
    | ok values =>
      simp only [hvalues] at h
      have halike := alike_fillColumn c wrt method k values
      refine ih h (fun col hcol values' hvalues' w hw => ?_) ?_
      · rw [halike.groupColumn] at hvalues'
        rw [halike.filled] at hw
        exact hagree col (List.mem_cons_of_mem _ hcol) values' hvalues' w hw
      · rw [value?_fillColumn]
        cases hfilled : c.filled wrt method k values j i with
        | some w =>
          rw [hagree _ List.mem_cons_self values hvalues w hfilled]
          exact .inl rfl
        | none =>
          -- the entry is not of this column, and so of a later one, or there already
          rw [Option.none_or]
          rcases hreach with hv | ⟨col, hcol, hsome⟩
          · exact .inl hv
          · rcases List.mem_cons.1 hcol with rfl | hcol
            · rw [isSome_filled c wrt method k #[] values, hfilled] at hsome
              cases hsome
            · refine .inr ⟨col, hcol, ?_⟩
              rw [halike.filled]
              exact hsome

/-! ### Columns by a method -/

/-- A component whose declarations ask for a complex step has one. -/
def StepsComplex (c : Component α) : Prop :=
  ∀ b ∈ c.partials.blocks, b.method.isComplexStep = true → c.capabilities.complexStep = true

theorem complexStep_of_declarePartials {ds : List (PartialDeclaration α)}
    (h : c.declarePartials ds = .ok c') {d : PartialDeclaration α} (hd : d ∈ ds)
    (hcomplex : d.method.isComplexStep = true) : c.capabilities.complexStep = true := by
  induction ds generalizing c with
  | nil => cases hd
  | cons d' ds ih =>
    unfold declarePartials at h
    cases hd' : c.declarePartial d' with
    | error e => simp [hd'] at h
    | ok c1 =>
      rw [hd'] at h
      rcases List.mem_cons.1 hd with rfl | hd
      · unfold declarePartial at hd'
        split_ifs at hd' with hunsupported
        simpa [hcomplex] using hunsupported
      · have hrest := ih h hd
        rw [capabilities, (declares_partial hd').discipline] at hrest
        exact hrest

theorem stepsComplex_of_declare {name : String} {d : Discipline α} (h : declare name d = .ok c) :
    c.StepsComplex := by
  intro b hb hcomplex
  obtain ⟨q, ⟨before, after, hq, -⟩, hblock⟩ := ((mem_blocks_iff h).2 b).1 hb
  obtain ⟨inputs, -, h⟩ := bind_eq_ok.1 h
  obtain ⟨outputs, -, h⟩ := bind_eq_ok.1 h
  have hmem : q ∈ d.partials := by
    rw [hq]
    simp
  rw [hblock.method] at hcomplex
  have hcap := complexStep_of_declarePartials h hmem hcomplex
  rw [capabilities, (declares_partials h).discipline]
  exact hcap

/-- The column of a group is the column by its method. -/
theorem column_eq_groupColumn {method : Method α} {col : Column} (hbase : c.raw x y = .ok base)
    (happrox : method.isApproximated = true)
    (hcomplex : method.isComplexStep = true → c.capabilities.complexStep = true) :
    c.column x y col method = c.groupColumn x y base method col := by
  cases method with
  | exact => cases happrox
  | fd o =>
    rw [column, hbase]
    rfl
  | cs step =>
    rw [column, if_pos (hcomplex rfl)]
    rfl

/-- A column has an entry for each output. -/
theorem size_groupColumn {method : Method α} {k : Column} {column : Array α}
    (hbase : base.size = c.outputs.size) (happrox : method.isApproximated = true)
    (h : c.groupColumn x y base method k = .ok column) : column.size = c.outputs.size := by
  cases method with
  | exact => cases happrox
  | fd o =>
    simp only [groupColumn, fdColumn] at h
    cases hform : o.form with
    | forward =>
      rw [hform] at h
      obtain ⟨plus, hplus, h⟩ := bind_eq_ok.1 h
      cases h
      simp [size_rawMoved hplus, hbase]
    | backward =>
      rw [hform] at h
      obtain ⟨minus, hminus, h⟩ := bind_eq_ok.1 h
      cases h
      simp [size_rawMoved hminus, hbase]
    | central =>
      rw [hform] at h
      obtain ⟨plus, hplus, h⟩ := bind_eq_ok.1 h
      obtain ⟨minus, hminus, h⟩ := bind_eq_ok.1 h
      cases h
      simp [size_rawMoved hplus, size_rawMoved hminus]
  | cs step =>
    simp only [groupColumn, csColumn] at h
    split at h
    · rename_i values hvalues
      cases h
      rw [Array.size_map, size_settle hvalues]
      exact Array.size_replicate
    · cases h

/-! ### Approximating -/

/-- When a column reaches an entry of a block. -/
theorem filled_eq_some {b : PartialBlock α} (hb : c.partials.blocks[j]? = some b) {wrt : Wrt}
    {method : Method α} {k : Nat} {values : Array α} {v : α} :
    c.filled wrt method k values j i = some v ↔
      (b.wrt = wrt ∧ (b.method == method) = true ∧ b.constant = false) ∧
        ∃ place, b.places[i]? = some place ∧ place.2 = k ∧ i < b.values.size ∧
          v = Vec.entry values ((c.outputs.spanAt b.output).start + place.1) := by
  simp only [filled, hb, Option.bind_some]
  constructor
  · intro h
    split_ifs at h with hcond
    simp only [Bool.and_eq_true, Bool.not_eq_true', beq_iff_eq (α := Wrt)] at hcond
    refine ⟨⟨hcond.1.1, hcond.1.2, hcond.2⟩, ?_⟩
    obtain ⟨place, hplace, h⟩ := Option.bind_eq_some_iff.1 h
    split_ifs at h with hk
    exact ⟨place, hplace, hk.1, hk.2, (Option.some.inj h).symm⟩
  · rintro ⟨⟨rfl, hmethod, hconstant⟩, place, hplace, rfl, hi, rfl⟩
    simp [hmethod, hconstant, hplace, hi]

/-- **Each entry of an approximated block** becomes that of its own column by its own method. -/
theorem value?_approximate {b : PartialBlock α} {k : Nat} {place : Nat × Nat}
    (hcomplex : c.StepsComplex) (h : c.approximate x y = .ok ⟨⟩ c')
    (hb : c.partials.blocks[j]? = some b) (happrox : b.Approximated) (htold : c.TellsApart b)
    (hplace : b.places[k]? = some place) (hcol : place.2 < (c.wrtField b.wrt).2)
    (hk : k < b.values.size) :
    ∃ column, c.column x y (c.columnAt b.wrt place.2) b.method = .ok column ∧
      column.size = c.outputs.size ∧ c'.partials.value? j k =
        some (Vec.entry column ((c.outputs.spanAt b.output).start + place.1)) := by
  have hmem : b ∈ c.partials.blocks := Array.mem_of_getElem? hb
  have hgroup := htold.mem_groups hmem happrox
  have hcolumn := mem_approximatedColumns.2 ⟨hgroup, hcol, rfl⟩
  unfold approximate at h
  dsimp only at h
  split_ifs at h with hempty
  · rw [List.isEmpty_iff.1 hempty] at hgroup
    cases hgroup
  cases hbase : c.raw x y with
  | error e => simp [hbase] at h
  | ok base =>
    simp only [hbase] at h
    obtain ⟨column, hvalues⟩ := groupColumn_of_approximateColumns h _ hcolumn
    dsimp only at hvalues
    refine ⟨column, ?_, size_groupColumn (size_raw hbase) happrox.method hvalues,
      value?_approximateColumns h ?_ (.inr ⟨_, hcolumn, ?_⟩)⟩
    · rw [column_eq_groupColumn hbase happrox.method (hcomplex b hmem)]
      exact hvalues
    · -- a column that reaches the entry is that of its own variable, index and method
      rintro ⟨wrt, method, k', col⟩ hcol' values hvalues' w hw
      obtain ⟨⟨rfl, hmethod, -⟩, place', hplace', rfl, -, rfl⟩ := (filled_eq_some hb).1 hw
      obtain rfl := Option.some.inj (hplace.symm.trans hplace')
      obtain ⟨hgroup', -, rfl⟩ := mem_approximatedColumns.1 hcol'
      obtain rfl : method = b.method := htold.others _ hgroup' rfl (.inl hmethod)
      rw [hvalues] at hvalues'
      cases hvalues'
      rfl
    · rw [Option.isSome_iff_exists]
      exact ⟨_, (filled_eq_some hb).2
        ⟨⟨rfl, htold.self, happrox.constant⟩, place, hplace, rfl, hk, rfl⟩⟩

/-- No group has the method of a block that is not approximated. -/
theorem not_approximates {b : PartialBlock α} (hb : c.partials.blocks[j]? = some b)
    (hnot : ¬b.Approximated) (i : Nat) : ¬c.Approximates j i := by
  rintro ⟨⟨wrt, method, k, col⟩, hcol, hfilled⟩
  obtain ⟨w, hw⟩ := Option.isSome_iff_exists.1 hfilled
  obtain ⟨⟨rfl, hmethod, hconstant⟩, -⟩ := (filled_eq_some hb).1 hw
  obtain ⟨hgroup, -⟩ := mem_approximatedColumns.1 hcol
  obtain ⟨b', -, happrox, heq⟩ := exists_of_mem_approximationGroups hgroup
  obtain rfl : method = b'.method := congrArg Prod.snd heq
  refine hnot ⟨?_, hconstant⟩
  rw [Method.isApproximated_of_beq hmethod]
  exact happrox.method

/-- Blocks that are not approximated are left alone. -/
theorem getElem?_of_approximate {b : PartialBlock α} (h : c.approximate x y = .ok ⟨⟩ c')
    (hb : c'.partials.blocks[j]? = some b) (hnot : ¬b.Approximated) :
    c.partials.blocks[j]? = some b := by
  have heq := eqOff_approximate c x y
  rw [h, stateAfter_ok] at heq
  rcases heq.alike.getElem? j with ⟨-, hnone⟩ | ⟨b₀, b', hb₀, hb', houtline⟩
  · rw [hb] at hnone
    cases hnone
  obtain rfl : b' = b := Option.some.inj (hb'.symm.trans hb)
  have hnot₀ : ¬b₀.Approximated := by
    refine fun happrox => hnot ⟨?_, ?_⟩
    · rw [PartialBlock.method_of_outline houtline]
      exact happrox.method
    · rw [PartialBlock.constant_of_outline houtline]
      exact happrox.constant
  have hvalues : b'.values = b₀.values := by
    refine Array.ext_getElem? fun i => ?_
    have hvalue := heq.value j i (not_approximates hb₀ hnot₀ i)
    simpa only [Partials.value?, hb₀, hb', Option.bind_some] using hvalue
  rw [PartialBlock.eq_of_outline houtline hvalues]
  exact hb₀

/-! ### Linearizing -/

/-- Probing writes no partial derivatives. -/
theorem partials_linearizeProbed (h : c.linearizeProbed x y = .ok ⟨⟩ c') :
    c'.partials = c.partials := by
  unfold linearizeProbed at h
  split_ifs at h
  · cases hprobe : c.probe x y with
    | error e => simp [hprobe] at h
    | ok dense =>
      rw [hprobe] at h
      cases h
      rfl
  · cases h
    rfl

omit [Scalar α] in
/-- The discipline's own linearization changes partial derivatives by what it writes. -/
theorem partials_linearizeOwn (h : c.linearizeOwn x y = .ok ⟨⟩ c') :
    c'.partials = stateAfter (c.partials.writeAll (c.ownLinearization x y).writes) := by
  rw [linearizeOwn_eq] at h
  unfold afterWrites at h
  cases hwrites : c.partials.writeAll (c.ownLinearization x y).writes with
  | error e p => simp [hwrites] at h
  | ok b p =>
    simp only [hwrites] at h
    cases hfailure : (c.ownLinearization x y).failure with
    | some e => simp [hfailure] at h
    | none =>
      simp only [hfailure] at h
      cases h
      rfl

theorem StepsComplex.alike (hc : c.StepsComplex) (h : c.Alike c') : c'.StepsComplex := by
  intro b hb hcomplex
  obtain ⟨b₀, hb₀, houtline⟩ := h.exists_outline hb
  rw [h.capabilities]
  refine hc b₀ hb₀ ?_
  rw [PartialBlock.method_of_outline houtline]
  exact hcomplex

theorem Alike.column (h : c.Alike c') (k : Column) (method : Method α) :
    c'.column x y k method = c.column x y k method := by
  rw [h.eq_with]
  rfl

/-- Each entry of an approximated block, looked at after the approximation. -/
theorem entry_of_approximate {b : PartialBlock α} {k : Nat} {place : Nat × Nat}
    (hcomplex : c.StepsComplex) (h : c.approximate x y = .ok ⟨⟩ c')
    (hb : c'.partials.blocks[j]? = some b) (happrox : b.Approximated) (htold : c'.TellsApart b)
    (hplace : b.places[k]? = some place) (hcol : place.2 < (c'.wrtField b.wrt).2)
    (hk : k < b.values.size) :
    ∃ column, c'.column x y (c'.columnAt b.wrt place.2) b.method = .ok column ∧
      column.size = c'.outputs.size ∧
      b.values[k]? = some (Vec.entry column ((c'.outputs.spanAt b.output).start + place.1)) := by
  have halike := alike_approximate c x y
  rw [h, stateAfter_ok] at halike
  rcases halike.partials.getElem? j with ⟨-, hnone⟩ | ⟨b₀, b', hb₀, hb', houtline⟩
  · rw [hb] at hnone
    cases hnone
  obtain rfl : b' = b := Option.some.inj (hb'.symm.trans hb)
  have hmethod := PartialBlock.method_of_outline houtline
  have hwrt := PartialBlock.wrt_of_outline houtline
  have happrox₀ : b₀.Approximated :=
    ⟨hmethod ▸ happrox.method, PartialBlock.constant_of_outline houtline ▸ happrox.constant⟩
  have htold₀ : c.TellsApart b₀ := by
    have htold' := halike.tellsApart htold
    refine ⟨hmethod ▸ htold'.self, ?_⟩
    rw [← hmethod, ← hwrt]
    exact htold'.others
  rw [halike.sameVariables.wrtField, hwrt] at hcol
  rw [PartialBlock.places_of_outline houtline] at hplace
  rw [PartialBlock.size_of_outline houtline] at hk
  obtain ⟨column, hcolumn, hsize, hvalue⟩ :=
    value?_approximate hcomplex h hb₀ happrox₀ htold₀ hplace hcol hk
  refine ⟨column, ?_, ?_, ?_⟩
  · rw [halike.column, halike.sameVariables.columnAt, hwrt, hmethod]
    exact hcolumn
  · rw [halike.outputs]
    exact hsize
  · rw [halike.outputs, PartialBlock.output_of_outline houtline, ← hvalue, Partials.value?, hb']
    rfl

/-- **Approximating by groups is approximating entry by entry.** After a linearization each entry of
an approximated block whose method is told apart is the entry, in the row of its output, of the
column by that method. Any other block holds what the discipline's own linearization has left there,
which is what was there before wherever it writes nothing. -/
theorem entries_of_linearize {name : String} {d : Discipline α} {c₀ : Component α}
    (h : declare name d = .ok c₀) (us : List (PartialUse α)) {strict : Option α}
    (hlinearize : (c₀.useAll us).linearize x y strict = .ok ⟨⟩ c') :
    ∃ own : Component α, (c₀.useAll us).linearizeOwn x y = .ok ⟨⟩ own ∧
      (∀ (j : Nat) (b : PartialBlock α), c'.partials.blocks[j]? = some b →
        (b.Approximated → c'.TellsApart b → ∀ (k : Nat) (place : Nat × Nat),
          b.places[k]? = some place → ∃ column,
            c'.column x y (c'.columnAt b.wrt place.2) b.method = .ok column ∧
            (d.Addressable → (c'.outputs.spanAt b.output).start + place.1 < column.size) ∧
            b.values[k]? =
              some (Vec.entry column ((c'.outputs.spanAt b.output).start + place.1))) ∧
        (¬b.Approximated → own.partials.blocks[j]? = some b)) ∧
      ∀ (j i : Nat), (∀ w ∈ ((c₀.useAll us).ownLinearization x y).writes,
          (c₀.useAll us).partials.written w j i = none) →
        own.partials.value? j i = (c₀.useAll us).partials.value? j i := by
  have huse := alike_useAll c₀ us
  obtain ⟨own, probed, hown, hprobed, happrox, -⟩ := linearize_eq_ok.1 hlinearize
  have h1 := alike_linearizeOwn (c₀.useAll us) x y
  have h2 := alike_linearizeProbed own x y
  have h3 := alike_approximate probed x y
  rw [hown, stateAfter_ok] at h1
  rw [hprobed, stateAfter_ok] at h2
  rw [happrox, stateAfter_ok] at h3
  have hprobed₀ : c₀.Alike probed := (huse.trans h1).trans h2
  have halike : c₀.Alike c' := hprobed₀.trans h3
  refine ⟨own, hown, fun j b hb => ⟨fun hb' htold k place hplace => ?_, fun hnot => ?_⟩,
    fun j i hunwritten => ?_⟩
  · obtain ⟨hsize, hinside⟩ := places_of_declare h halike (Array.mem_of_getElem? hb)
    obtain ⟨hrow, hcol⟩ := hinside place (Array.mem_of_getElem? hplace)
    have hk : k < b.values.size := by
      rw [hsize]
      exact (Array.getElem?_eq_some_iff.1 hplace).1
    rw [← halike.sameVariables.wrtField] at hcol
    obtain ⟨column, hcolumn, hfull, hvalue⟩ := entry_of_approximate
      ((stepsComplex_of_declare h).alike hprobed₀) happrox hb hb' htold hplace hcol hk
    refine ⟨column, hcolumn, fun hd => ?_, hvalue⟩
    rw [hfull, halike.outputs]
    exact (isDeclared_of_declare h hd).sound.outputs_bounded.start_add_lt hrow
  · have hrest := getElem?_of_approximate happrox hb hnot
    rw [partials_linearizeProbed hprobed] at hrest
    exact hrest
  · have heq := Partials.EqOff.of_writeAll (c₀.useAll us).partials
      ((c₀.useAll us).ownLinearization x y).writes
    rw [← partials_linearizeOwn hown] at heq
    refine heq.value j i ?_
    rintro ⟨w, hw, hwritten⟩
    rw [hunwritten w hw] at hwritten
    cases hwritten

end Component

/-! ### One output by two methods -/

namespace TwoMethods

/-- `y = x²` by forward and `z = x²` by central differences, with a derivative of `z` with respect
to `w` that is fixed. -/
def discipline : ExplicitDiscipline ℚ :=
  { (ExplicitDiscipline.blank : ExplicitDiscipline ℚ) with
    inputs := [Variable.named "x", Variable.named "w"]
    outputs := [Variable.named "y", Variable.named "z"]
    partials := [{ PartialDeclaration.dense "y" "x" with method := .fd ⟨.forward, 1 / 2, .abs⟩ },
      { PartialDeclaration.dense "z" "x" with method := .fd ⟨.central, 1 / 2, .abs⟩ },
      { PartialDeclaration.dense "z" "w" with constant := some #[3] }]
    compute := fun inputs outputs =>
      let v := inputs.value "x" * inputs.value "x"
      .ok ⟨⟩ ((outputs.setEntry "y" 0 v).setEntry "z" 0 (v + 3 * inputs.value "w")).data }

/-- Its component. -/
def component : Component ℚ :=
  (Component.declare "squares" (.explicit discipline)).toOption.getD
    ⟨"", .explicit discipline, .empty, .empty, .empty, none, #[]⟩

theorem declare_eq : Component.declare "squares" (.explicit discipline) = .ok component :=
  eq_ok_getD _ (by with_unfolding_all decide)

/-- The component after a linearization. -/
def linearized : Component ℚ := stateAfter (component.linearize #[1, 1] #[0, 0] none)

theorem linearize_eq : (component.useAll []).linearize #[1, 1] #[0, 0] none = .ok ⟨⟩ linearized :=
  (eq_ok_of_isResult (by with_unfolding_all decide)).choose_spec

/-- The block of `z` and `x`. -/
def block : PartialBlock ℚ :=
  linearized.partials.blocks.getD 1 ⟨0, .input 0, "", "", (0, 0), #[], #[], .exact, true, true⟩

/-- The derivative of `z` with respect to `x` is the central difference, and not the forward one
that is found with the same input moved. -/
theorem entries_of_block : Component.declare "squares" (.explicit discipline) = .ok component ∧
    (component.useAll []).linearize #[1, 1] #[0, 0] none = .ok ⟨⟩ linearized ∧
    ∃ column, linearized.column #[1, 1] #[0, 0] (linearized.columnAt block.wrt 0) block.method =
        .ok column ∧
      block.values[0]? =
        some (Vec.entry column ((linearized.outputs.spanAt block.output).start + 0)) := by
  refine ⟨declare_eq, linearize_eq, ?_⟩
  obtain ⟨own, -, hblocks, -⟩ := Component.entries_of_linearize declare_eq [] linearize_eq
  have hblock : linearized.partials.blocks[1]? = some block := by
    have hlt : 1 < linearized.partials.blocks.size := by with_unfolding_all decide
    rw [block, Array.getD_eq_getD_getElem?, Array.getElem?_eq_getElem hlt, Option.getD_some]
  obtain ⟨column, hcolumn, -, hvalue⟩ := (hblocks 1 block hblock).1
    ⟨by with_unfolding_all decide, by with_unfolding_all decide⟩
    (Component.tellsApart_of_lawful linearized block) 0 (0, 0) (by with_unfolding_all decide)
  exact ⟨column, hcolumn, hvalue⟩

end TwoMethods

/-! ### Steps that compare equal -/

namespace Signed

/-- `y = 1 / x` and `z = 1 / x`, by forward differences with the two zeros as steps. -/
def discipline (α : Type) [Scalar α] : ExplicitDiscipline α :=
  { (ExplicitDiscipline.blank : ExplicitDiscipline α) with
    inputs := [Variable.named "x"]
    outputs := [Variable.named "y", Variable.named "z"]
    partials := [{ PartialDeclaration.dense "y" "x" with method := .fd ⟨.forward, 0, .abs⟩ },
      { PartialDeclaration.dense "z" "x" with method := .fd ⟨.forward, -0, .abs⟩ }]
    compute := fun inputs outputs =>
      let v := 1 / inputs.value "x"
      .ok ⟨⟩ ((outputs.setEntry "y" 0 v).setEntry "z" 0 v).data }

/-- Its component. -/
def component : Component Float :=
  (Component.declare "u" (.explicit (discipline Float))).toOption.getD
    ⟨"", .explicit (discipline Float), .empty, .empty, .empty, none, #[]⟩

theorem declare_eq : Component.declare "u" (.explicit (discipline Float)) = .ok component :=
  eq_ok_getD _ (by with_unfolding_all decide)

/-- After a linearization at the negative zero. -/
def linearized : Component Float := stateAfter (component.linearize #[-0] #[0, 0] none)

theorem linearize_eq : component.linearize #[-0] #[0, 0] none = .ok ⟨⟩ linearized :=
  (eq_ok_of_isResult (by with_unfolding_all decide)).choose_spec

/-- The block of `z`. -/
def block : PartialBlock Float :=
  linearized.partials.blocks.getD 1 ⟨0, .input 0, "", "", (0, 0), #[], #[], .exact, true, true⟩

/-- The column of `x` by the method of `z`. -/
def column : Array Float :=
  (linearized.column #[-0] #[0, 0] (linearized.columnAt block.wrt 0) block.method).toOption.getD #[]

/-- The entry of a column for the first place of a block. -/
def entryFor [Scalar α] (c : Component α) (b : PartialBlock α) (column : Array α) : α :=
  Vec.entry column ((c.outputs.spanAt b.output).start + 0)

/-- **The first group prevails.** Since zeros compare equal, the blocks of `y` and `z` are of one
group, and the block of `z` is filled with the column by the method of `y`, which is infinite; by
its own method the column is undefined. -/
theorem first_group_prevails :
    Component.declare "u" (.explicit (discipline Float)) = .ok component ∧
      component.linearize #[-0] #[0, 0] none = .ok ⟨⟩ linearized ∧
      linearized.partials.blocks[1]? = some block ∧ block.Approximated ∧
      block.places[0]? = some (0, 0) ∧
      linearized.column #[-0] #[0, 0] (linearized.columnAt block.wrt 0) block.method = .ok column ∧
      block.values[0]? ≠ some (entryFor linearized block column) := by
  refine ⟨declare_eq, linearize_eq, ?_,
    ⟨by with_unfolding_all decide, by with_unfolding_all decide⟩, by with_unfolding_all decide,
    eq_ok_getD _ (by with_unfolding_all decide), fun heq => ?_⟩
  · have hlt : 1 < linearized.partials.blocks.size := by with_unfolding_all decide
    rw [block, Array.getD_eq_getD_getElem?, Array.getElem?_eq_getElem hlt, Option.getD_some]
  · have hvalue : (block.values[0]?.any fun v => decide (0 < v)) = true := by
      with_unfolding_all decide
    have hcolumn : ¬0 < entryFor linearized block column := by
      with_unfolding_all decide
    rw [heq] at hvalue
    exact hcolumn (of_decide_eq_true hvalue)

end Signed

end Mdao
