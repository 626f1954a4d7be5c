import Mathlib
import Mdao.Coloring.Recover
import Mdao.Proofs.Coloring.Conflicts
import Mdao.Proofs.Vec

/-!
# Recovery from colored products is exact

`Coloring.Separates` is the invariant that ties the two colorings of a split to the way in which
entries are read: the column of an entry that is read forward is alone of its color in the row, and
where an entry is read in reverse, every other entry of the column in a row of the same color is
known forward. `separates_partition` proves it for every split and both recoveries, so every
coloring that `Coloring.compute` can choose has it.

From the invariant alone `Separates.recover_eq` rebuilds the matrix: the forward pass writes each
known entry, and the reverse pass subtracts only entries that are known. At every place outside its
pattern what is recovered is zero, whatever the products are (`entry_recover`).
-/

namespace Mdao

/-! ### Numbers of groups -/

private theorem getD_foldl_set (k : Nat) (l : List Nat) (colors : Array (Option Nat)) (i : Nat)
    (hi : i < colors.size) :
    (l.foldl (fun colors i => colors.setIfInBounds i (some k)) colors).getD i none =
      if i ∈ l then some k else colors.getD i none := by
  induction l generalizing colors with
  | nil => simp
  | cons a l ih =>
    rw [List.foldl_cons, ih _ (by simpa using hi)]
    by_cases hl : i ∈ l
    · simp [hl]
    · by_cases ha : a = i
      · simp [hl, ha, hi]
      · have ha' : i ≠ a := Ne.symm ha
        simp [hl, ha, ha', Array.getD_eq_getD_getElem?]

private theorem size_foldl_set (k : Nat) (l : List Nat) (colors : Array (Option Nat)) :
    (l.foldl (fun colors i => colors.setIfInBounds i (some k)) colors).size = colors.size := by
  induction l generalizing colors with
  | nil => rfl
  | cons a l ih => rw [List.foldl_cons, ih, Array.size_setIfInBounds]

theorem groupNumbers_append (n : Nat) (groups : List (List Nat)) (l : List Nat) :
    groupNumbers n (groups ++ [l]) = l.foldl
      (fun colors i => colors.setIfInBounds i (some groups.length)) (groupNumbers n groups) := by
  simp only [groupNumbers]
  rw [List.zipIdx_append, List.foldl_append]
  simp

@[simp] theorem size_groupNumbers (n : Nat) (groups : List (List Nat)) :
    (groupNumbers n groups).size = n := by
  induction groups using List.reverseRecOn with
  | nil => simp [groupNumbers]
  | append_singleton groups l ih => rw [groupNumbers_append, size_foldl_set, ih]

/-- **An index has the number of the group it is in**, when no index is in two groups. -/
theorem getD_groupNumbers {n : Nat} {groups : List (List Nat)}
    (hunique : ∀ {i j k}, i ∈ groups.getD j [] → i ∈ groups.getD k [] → j = k)
    (hlt : ∀ k, ∀ i ∈ groups.getD k [], i < n) (i k : Nat) :
    (groupNumbers n groups).getD i none = some k ↔ i ∈ groups.getD k [] := by
  by_cases hi : i < n
  · clear hlt
    induction groups using List.reverseRecOn generalizing k with
    | nil => simp [groupNumbers, hi]
    | append_singleton groups l ih =>
      have hstep : (groupNumbers n (groups ++ [l])).getD i none =
          if i ∈ l then some groups.length else (groupNumbers n groups).getD i none := by
        rw [groupNumbers_append]
        exact getD_foldl_set _ l _ i (by simpa using hi)
      -- a group of the shorter list is a group of the longer one
      have hold : ∀ {j x}, x ∈ groups.getD j [] → x ∈ (groups ++ [l]).getD j [] := by
        intro j x hx
        by_cases hj : j < groups.length
        · rwa [List.getD_append _ _ _ _ hj]
        · rw [List.getD_eq_default _ _ (by omega)] at hx
          cases hx
      have hlast : (groups ++ [l]).getD groups.length [] = l := by simp
      rw [hstep]
      split_ifs with hl
      · rw [Option.some.injEq]
        refine ⟨fun h => h ▸ hlast.symm ▸ hl, fun h => hunique (hlast.symm ▸ hl) h⟩
      · rw [ih fun hx hy => hunique (hold hx) (hold hy)]
        refine ⟨hold, fun h => ?_⟩
        by_cases hk : k < groups.length
        · rwa [List.getD_append _ _ _ _ hk] at h
        · by_cases hk' : k = groups.length
          · subst hk'
            rw [hlast] at h
            exact absurd h hl
          · rw [List.getD_eq_default _ _ (by rw [List.length_append]; simp; omega)] at h
            cases h
  · refine ⟨fun h => ?_, fun h => absurd (hlt k i h) hi⟩
    simp [Array.getD_eq_getD_getElem?, hi] at h

namespace Coloring

/-! ### The invariant of a split -/

/-- Whether an entry is read from a forward product. -/
def known (c : Coloring) (row col : Nat) : Bool :=
  isFwdKnown c.pattern c.revRows c.recovery c.fwdColors row col

/-- **The colors of both sides separate the entries of the pattern.** -/
structure Separates (c : Coloring) : Prop where
  /-- The pattern is well formed. -/
  wellFormed : c.pattern.WellFormed
  /-- A column has the color of its group. -/
  fwdColors_iff : ∀ j k, c.fwdColors.getD j none = some k ↔ j ∈ c.fwd.getD k []
  /-- A row has the color of its group. -/
  revColors_iff : ∀ i k, c.revColors.getD i none = some k ↔ i ∈ c.rev.getD k []
  /-- Groups of columns have no repetitions. -/
  fwd_nodup : ∀ k, (c.fwd.getD k []).Nodup
  /-- Groups of rows have no repetitions. -/
  rev_nodup : ∀ k, (c.rev.getD k []).Nodup
  /-- A column of a group is a column of the pattern. -/
  fwd_lt : ∀ k, ∀ j ∈ c.fwd.getD k [], j < c.pattern.ncols
  /-- A row of a group is a row of the pattern. -/
  rev_lt : ∀ k, ∀ i ∈ c.rev.getD k [], i < c.pattern.nrows
  /-- An entry that is read forward is alone of its color in its row. -/
  forward : ∀ {i j}, j ∈ c.pattern.row i → c.known i j = true →
    ∃ k, j ∈ c.fwd.getD k [] ∧ ∀ j' ∈ c.fwd.getD k [], j' ∈ c.pattern.row i → j' = j
  /-- Where an entry is read in reverse, its group mates are known. -/
  reverse : ∀ {i j}, j ∈ c.pattern.row i → c.known i j = false →
    ∃ k, i ∈ c.rev.getD k [] ∧
      ∀ i' ∈ c.rev.getD k [], j ∈ c.pattern.row i' → i' ≠ i → c.known i' j = true

section Partition

variable {p : Pattern} {revRows : List Bool} {recovery : Recovery}

/-- The rows that are read from forward products. -/
def forwardRows (p : Pattern) (revRows : List Bool) : List Nat :=
  (List.range p.nrows).filter fun r => !revRows.getD r false

/-- The rows in which each column has an entry that is not read forward, given the colors of the
columns. -/
def unknownRows (p : Pattern) (revRows : List Bool) (recovery : Recovery)
    (colors : Array (Option Nat)) : List (List Nat) :=
  p.columns.toList.zipIdx.map fun (rows, c) =>
    rows.filter fun r => revRows.getD r false && !isFwdKnown p revRows recovery colors r c

/-- An entry that is not read forward is in a reverse row. -/
theorem revRows_of_not_known {colors : Array (Option Nat)} {i j : Nat}
    (h : isFwdKnown p revRows recovery colors i j = false) : revRows.getD i false = true := by
  unfold isFwdKnown at h
  split_ifs at h with hr
  simpa using hr

/-- An entry that is read forward is in a forward row, or it is the only one of its color in its
row. -/
theorem alone_of_known {colors : Array (Option Nat)} {i j : Nat} (hj : j ∈ p.row i)
    (h : isFwdKnown p revRows recovery colors i j = true) :
    revRows.getD i false = false ∨ ∃ k, colors.getD j none = some k ∧
      ∀ j' ∈ p.row i, colors.getD j' none = some k → j' = j := by
  unfold isFwdKnown at h
  split_ifs at h with hr
  · exact .inl (by simpa using hr)
  · cases recovery with
    | direct => simp at h
    | substitution =>
      cases hk : colors.getD j none with
      | none => simp [hk] at h
      | some k =>
        simp only [hk, beq_iff_eq, List.length_eq_one_iff] at h
        obtain ⟨a, ha⟩ := h
        have hall : ∀ j' ∈ p.row i, colors.getD j' none = some k → j' = a := by
          intro j' hj' hk'
          have hmem : j' ∈ [a] := by
            rw [← ha, List.mem_filter]
            exact ⟨hj', by simpa using hk'⟩
          exact List.mem_singleton.1 hmem
        refine .inr ⟨k, rfl, fun j' hj' hk' => ?_⟩
        rw [hall j' hj' hk', hall j hj hk]

/-- The list of a column in `unknownRows` holds the rows of its entries that are not read
forward. -/
theorem mem_unknownRows {colors : Array (Option Nat)} {l : List Nat} :
    l ∈ unknownRows p revRows recovery colors ↔ ∃ j < p.ncols,
      l = (p.columns.getD j []).filter fun r =>
        revRows.getD r false && !isFwdKnown p revRows recovery colors r j := by
  simp only [unknownRows, List.mem_map, Prod.exists]
  constructor
  · rintro ⟨rows, j, hmem, rfl⟩
    obtain ⟨-, hlt, hrows⟩ := List.mem_zipIdx hmem
    have hj : j < p.columns.size := by simpa using hlt
    refine ⟨j, by simpa using hj, ?_⟩
    rw [Array.getD_eq_getD_getElem?, Array.getElem?_eq_getElem hj, Option.getD_some, hrows]
    simp
  · rintro ⟨j, hj, rfl⟩
    have hj' : j < p.columns.size := by simpa using hj
    refine ⟨p.columns[j], j, ?_, by
      rw [Array.getD_eq_getD_getElem?, Array.getElem?_eq_getElem hj', Option.getD_some]⟩
    rw [List.mk_mem_zipIdx_iff_getElem?]
    simp [hj]

/-- Two rows share a list of `unknownRows` when both have an unknown entry in one column. -/
theorem exists_mem_unknownRows {colors : Array (Option Nat)} {q : Nat → Prop} :
    (∃ l ∈ unknownRows p revRows recovery colors, ∀ i, q i → i ∈ l) ↔
      ∃ j < p.ncols, ∀ i, q i → j ∈ p.row i ∧ isFwdKnown p revRows recovery colors i j = false := by
  have hmem : ∀ {i j}, j < p.ncols → (i ∈ ((p.columns.getD j []).filter fun r =>
      revRows.getD r false && !isFwdKnown p revRows recovery colors r j) ↔
      j ∈ p.row i ∧ isFwdKnown p revRows recovery colors i j = false) := by
    intro i j hj
    rw [List.mem_filter, Pattern.mem_columns hj]
    refine and_congr_right fun _ => ⟨fun h => by simpa using (Bool.and_eq_true_iff.1 h).2,
      fun h => by rw [revRows_of_not_known h, h]; rfl⟩
  constructor
  · rintro ⟨l, hl, hq⟩
    obtain ⟨j, hj, rfl⟩ := mem_unknownRows.1 hl
    exact ⟨j, hj, fun i hi => (hmem hj).1 (hq i hi)⟩
  · rintro ⟨j, hj, hq⟩
    exact ⟨_, mem_unknownRows.2 ⟨j, hj, rfl⟩, fun i hi => (hmem hj).2 (hq i hi)⟩

/-- Coloring the members of some lists gives proper groups of their graph. -/
theorem properGroups_cliques {n : Nat} {ls : List (List Nat)} (hls : ∀ l ∈ ls, ∀ b ∈ l, b < n) :
    (ls.foldl Conflicts.addClique (.empty n)).ProperGroups (sortedSet ls.flatten)
      ((ls.foldl Conflicts.addClique (.empty n)).color (sortedSet ls.flatten)) := by
  obtain ⟨hsize, -⟩ := Conflicts.neighbors_addCliques hls
  refine Conflicts.properGroups_color (Conflicts.simple_addCliques hls)
    (nodup_of_increasing (pairwise_sortedSet _)) fun v hv => ?_
  obtain ⟨l, hl, hvl⟩ := List.mem_flatten.1 (mem_sortedSet.1 hv)
  rw [hsize]
  exact hls l hl v hvl

/-- What the groups of some lists satisfy: each member is in a group, and two different members of
one list are in different groups. -/
structure SeparatesLists (n : Nat) (ls groups : List (List Nat)) : Prop where
  lt : ∀ k, ∀ v ∈ groups.getD k [], v < n
  nodup : ∀ k, (groups.getD k []).Nodup
  unique : ∀ {v j k}, v ∈ groups.getD j [] → v ∈ groups.getD k [] → j = k
  exists_group : ∀ l ∈ ls, ∀ v ∈ l, ∃ k, v ∈ groups.getD k []
  eq_of_mem : ∀ l ∈ ls, ∀ {u v k}, u ∈ l → v ∈ l → u ∈ groups.getD k [] → v ∈ groups.getD k [] →
    u = v

theorem separatesLists_color {n : Nat} {ls : List (List Nat)} (hls : ∀ l ∈ ls, ∀ b ∈ l, b < n) :
    SeparatesLists n ls
      ((ls.foldl Conflicts.addClique (.empty n)).color (sortedSet ls.flatten)) := by
  obtain ⟨-, hadj⟩ := Conflicts.neighbors_addCliques hls
  have h := properGroups_cliques hls
  refine ⟨fun k v hv => ?_, fun k => nodup_of_increasing (h.increasing k), h.unique,
    fun l hl v hv => ?_, fun l hl {u v k} hu hv huk hvk => ?_⟩
  · have hactive := mem_sortedSet.1 ((h.mem_iff v).1 ⟨k, hv⟩)
    obtain ⟨l, hl, hvl⟩ := List.mem_flatten.1 hactive
    exact hls l hl v hvl
  · exact (h.mem_iff v).2 (mem_sortedSet.2 (List.mem_flatten.2 ⟨l, hl, hv⟩))
  · by_contra hne
    exact h.independent huk hvk ((hadj u v).2 ⟨hne, l, hl, hu, hv⟩)

/-- The forward groups of a split separate the rows that are read forward. -/
theorem separatesLists_fwd (hp : p.WellFormed) (revRows : List Bool) (recovery : Recovery) :
    SeparatesLists p.ncols ((forwardRows p revRows).map p.row)
      (partition p revRows recovery).fwd := by
  have hlt : ∀ l ∈ (forwardRows p revRows).map p.row, ∀ b ∈ l, b < p.ncols := by
    intro l hl b hb
    obtain ⟨r, -, rfl⟩ := List.mem_map.1 hl
    exact hp.lt_ncols r b hb
  have h := separatesLists_color hlt
  rw [← List.flatMap_def] at h
  exact h

/-- The reverse groups of a split separate the rows of each column that forward products leave
unknown. -/
theorem separatesLists_rev (hp : p.WellFormed) (revRows : List Bool) (recovery : Recovery) :
    SeparatesLists p.nrows
      (unknownRows p revRows recovery (partition p revRows recovery).fwdColors)
      (partition p revRows recovery).rev := by
  refine separatesLists_color fun l hl b hb => ?_
  obtain ⟨j, hj, rfl⟩ := mem_unknownRows.1 hl
  exact hp.lt_nrows ((Pattern.mem_columns hj).1 (List.mem_filter.1 hb).1)

/-- **An entry that counts as known is alone of its color in its row**: its row is one of those that
are colored, or it was found to be alone. -/
theorem exists_fwd_of_known (hp : p.WellFormed) {i j : Nat} (hj : j ∈ p.row i)
    (hknown : (partition p revRows recovery).known i j = true) :
    ∃ k, j ∈ (partition p revRows recovery).fwd.getD k [] ∧
      ∀ j' ∈ (partition p revRows recovery).fwd.getD k [], j' ∈ p.row i → j' = j := by
  have hf := separatesLists_fwd hp revRows recovery
  have hcolors : ∀ j k, (partition p revRows recovery).fwdColors.getD j none = some k ↔
      j ∈ (partition p revRows recovery).fwd.getD k [] := getD_groupNumbers hf.unique hf.lt
  rcases alone_of_known hj hknown with hri | ⟨k, hk, halone⟩
  · -- the whole row is one clique
    have hrow : p.row i ∈ (forwardRows p revRows).map p.row :=
      List.mem_map.2 ⟨i, List.mem_filter.2 ⟨List.mem_range.2 (hp.lt_nrows hj),
        congrArg (! ·) hri⟩, rfl⟩
    obtain ⟨k, hk⟩ := hf.exists_group _ hrow j hj
    exact ⟨k, hk, fun j' hj'k hj' => hf.eq_of_mem _ hrow hj' hj hj'k hk⟩
  · exact ⟨k, (hcolors j k).1 hk, fun j' hj'k hj' => halone j' hj' ((hcolors j' k).2 hj'k)⟩

/-- **The group mates of an entry that is not known are known in its column**, since two rows that are
unknown in one column are in different groups. -/
theorem exists_rev_of_unknown (hp : p.WellFormed) {i j : Nat} (hj : j ∈ p.row i)
    (hknown : (partition p revRows recovery).known i j = false) :
    ∃ k, i ∈ (partition p revRows recovery).rev.getD k [] ∧
      ∀ i' ∈ (partition p revRows recovery).rev.getD k [], j ∈ p.row i' → i' ≠ i →
        (partition p revRows recovery).known i' j = true := by
  have hr := separatesLists_rev hp revRows recovery
  obtain ⟨l, hl, hmem⟩ := (exists_mem_unknownRows (q := (· = i))).2
    ⟨j, hp.lt_ncols i j hj, by
      rintro _ rfl
      exact ⟨hj, hknown⟩⟩
  obtain ⟨k, hk⟩ := hr.exists_group l hl i (hmem i rfl)
  refine ⟨k, hk, fun i' hi'k hj' hne => ?_⟩
  by_contra hunknown
  rw [Bool.not_eq_true] at hunknown
  obtain ⟨l, hl, hmem⟩ := (exists_mem_unknownRows (q := fun u => u = i ∨ u = i')).2
    ⟨j, hp.lt_ncols i j hj, by
      rintro _ (rfl | rfl)
      · exact ⟨hj, hknown⟩
      · exact ⟨hj', hunknown⟩⟩
  exact hne (hr.eq_of_mem l hl (hmem i' (.inr rfl)) (hmem i (.inl rfl)) hi'k hk)

/-- **Every split separates its entries**, whatever rows are read in reverse. -/
theorem separates_partition (hp : p.WellFormed) : (partition p revRows recovery).Separates := by
  have hf := separatesLists_fwd hp revRows recovery
  have hr := separatesLists_rev hp revRows recovery
  exact ⟨hp, getD_groupNumbers hf.unique hf.lt, getD_groupNumbers hr.unique hr.lt, hf.nodup, hr.nodup,
    hf.lt, hr.lt, exists_fwd_of_known hp, exists_rev_of_unknown hp⟩

end Partition

/-! ### Recovery -/

section Recovery

variable {α : Type} [ExactScalar α] {c : Coloring} {m : Nat → Nat → α} {fwd rev : List (Array α)}

/-- The products of a matrix with the groups of a coloring. -/
structure IsProducts (c : Coloring) (m : Nat → Nat → α) (fwd rev : List (Array α)) : Prop where
  length_fwd : fwd.length = c.fwd.length
  length_rev : rev.length = c.rev.length
  size_fwd : ∀ x ∈ fwd, x.size = c.pattern.nrows
  size_rev : ∀ x ∈ rev, x.size = c.pattern.ncols
  /-- A forward product sums the columns of its group. -/
  entry_fwd : ∀ k i, i < c.pattern.nrows →
    productEntry fwd k i = ((c.fwd.getD k []).map (m i)).sum
  /-- A reverse product sums the rows of its group. -/
  entry_rev : ∀ k j, j < c.pattern.ncols →
    productEntry rev k j = ((c.rev.getD k []).map fun i => m i j).sum

/-- A matrix whose nonzeros lie inside a pattern. -/
def Covers (p : Pattern) (m : Nat → Nat → α) : Prop := ∀ i j, m i j ≠ 0 → j ∈ p.row i

theorem sum_map_filter {l : List Nat} {q : Nat → Bool} {f : Nat → α}
    (h : ∀ x ∈ l, f x ≠ 0 → q x = true) : ((l.filter q).map f).sum = (l.map f).sum := by
  induction l with
  | nil => rfl
  | cons a l ih =>
    have ih := ih fun x hx => h x (by simp [hx])
    cases hq : q a with
    | true => rw [List.filter_cons_of_pos hq, List.map_cons, List.map_cons, List.sum_cons,
        List.sum_cons, ih]
    | false =>
      have ha : f a = 0 := by
        by_contra hne
        rw [h a (by simp) hne] at hq
        cases hq
      rw [List.filter_cons_of_neg (by simp [hq]), List.map_cons, List.sum_cons, ha, zero_add, ih]

/-- The sum over a group is one summand and the sum over the others that may not vanish. -/
theorem sum_group {l : List Nat} (hl : l.Nodup) {i : Nat} (hi : i ∈ l) {q : Nat → Bool}
    {f : Nat → α} (h : ∀ x ∈ l, x ≠ i → f x ≠ 0 → q x = true) :
    (l.map f).sum = f i + ((l.filter fun x => x != i && q x).map f).sum := by
  rw [← List.sum_map_erase f hi, hl.erase_eq_filter, ← sum_map_filter (q := q), List.filter_filter]
  · simp only [Bool.and_comm]
  · intro x hx
    rw [List.mem_filter, bne_iff_ne] at hx
    exact h x hx.1 hx.2

/-- A forward product shows the entries that are read from it. -/
theorem Separates.productEntry_fwd (hc : c.Separates) (hm : Covers c.pattern m)
    (hprod : c.IsProducts m fwd rev) {i j k : Nat} (hj : j ∈ c.pattern.row i)
    (hknown : c.known i j = true) (hk : j ∈ c.fwd.getD k []) : productEntry fwd k i = m i j := by
  obtain ⟨k', hk', halone⟩ := hc.forward hj hknown
  obtain rfl : k = k' := Option.some.inj
    (((hc.fwdColors_iff j k).2 hk).symm.trans ((hc.fwdColors_iff j k').2 hk'))
  rw [hprod.entry_fwd k i (hc.wellFormed.lt_nrows hj),
    sum_group (q := fun _ => false) (hc.fwd_nodup k) hk fun x hx hne h0 =>
      absurd (halone x hx (hm i x h0)) hne]
  simp

/-- The forward pass writes the entries that are known. -/
theorem Separates.recoverForward_eq (hc : c.Separates) (hm : Covers c.pattern m)
    (hprod : c.IsProducts m fwd rev) :
    c.recoverForward fwd = (c.pattern.entries.filter fun e => c.known e.1 e.2).foldl
      (fun x e => x.setIfInBounds (e.1 * c.pattern.ncols + e.2) (m e.1 e.2))
      (Vec.zeros c.pattern.places) := by
  rw [List.foldl_filter, recoverForward]
  refine List.foldl_ext _ _ _ fun x e he => ?_
  obtain ⟨i, j⟩ := e
  have hj := Pattern.mem_entries.1 he
  simp only
  by_cases hknown : c.known i j = true
  · obtain ⟨k, hk, -⟩ := hc.forward hj hknown
    rw [if_pos hknown, if_pos (show isFwdKnown .. = true from hknown),
      (hc.fwdColors_iff j k).2 hk]
    simp only
    rw [hc.productEntry_fwd hm hprod hj hknown hk]
  · rw [if_neg hknown, if_neg (show ¬ isFwdKnown .. = true from hknown)]

/-- An entry is pending with the color of its row when it is not known. -/
theorem mem_pendingEntries {i j k : Nat} : (i, j, k) ∈ c.pendingEntries ↔
    j ∈ c.pattern.row i ∧ c.known i j = false ∧ c.revColors.getD i none = some k := by
  simp only [pendingEntries, List.mem_filterMap, Prod.exists, Pattern.mem_entries]
  constructor
  · rintro ⟨a, b, hb, h⟩
    split_ifs at h with hknown
    obtain ⟨k', hk', heq⟩ := Option.map_eq_some_iff.1 h
    cases heq
    exact ⟨hb, by simpa [known] using hknown, hk'⟩
  · rintro ⟨hj, hknown, hk⟩
    refine ⟨i, j, hj, ?_⟩
    rw [known] at hknown
    rw [if_neg (by simp [hknown]), hk]
    rfl

/-- **A reverse product shows an entry once its group mates are subtracted**, all of which are known
from forward products. -/
theorem Separates.productEntry_rev (hc : c.Separates) (hm : Covers c.pattern m)
    (hprod : c.IsProducts m fwd rev) {values : Array α}
    (hvalues : ∀ i j, j ∈ c.pattern.row i → c.known i j = true →
      Vec.entry values (i * c.pattern.ncols + j) = m i j)
    {i j k : Nat} (h : (i, j, k) ∈ c.pendingEntries) :
    productEntry rev k j - c.mates values i j k = m i j := by
  obtain ⟨hj, hunknown, hcolor⟩ := mem_pendingEntries.1 h
  have hk := (hc.revColors_iff i k).1 hcolor
  obtain ⟨k', hk', hmates⟩ := hc.reverse hj hunknown
  obtain rfl : k = k' := Option.some.inj (hcolor.symm.trans ((hc.revColors_iff i k').2 hk'))
  have hsum := sum_group (q := fun x => c.pattern.contains x j) (f := fun x => m x j)
    (hc.rev_nodup k) hk fun x _ _ h0 => hc.wellFormed.contains_iff.2 (hm x j h0)
  have hread : c.mates values i j k =
      (((c.rev.getD k []).filter fun x => x != i && c.pattern.contains x j).map
        fun x => m x j).sum := by
    rw [mates, Vec.sum_eq]
    congr 1
    refine List.map_congr_left fun x hx => ?_
    obtain ⟨hxk, hx⟩ := List.mem_filter.1 hx
    rw [Bool.and_eq_true, bne_iff_ne, hc.wellFormed.contains_iff] at hx
    exact hvalues x j hx.2 (hmates x hxk hx.2 hx.1)
  rw [hprod.entry_rev k j (hc.wellFormed.lt_ncols i j hj), hsum, hread, add_sub_cancel_right]

/-- The reverse pass writes pending entries into values that have the known ones. -/
theorem Separates.foldl_pending (hc : c.Separates) (hm : Covers c.pattern m)
    (hprod : c.IsProducts m fwd rev) {es : List (Nat × Nat × Nat)}
    (hes : ∀ e ∈ es, e ∈ c.pendingEntries) {values : Array α}
    (hvalues : ∀ i j, j ∈ c.pattern.row i → c.known i j = true →
      Vec.entry values (i * c.pattern.ncols + j) = m i j) :
    es.foldl (fun values e => values.setIfInBounds (e.1 * c.pattern.ncols + e.2.1)
        (productEntry rev e.2.2 e.2.1 - c.mates values e.1 e.2.1 e.2.2)) values =
      (es.map fun e => (e.1, e.2.1)).foldl
        (fun x e => x.setIfInBounds (e.1 * c.pattern.ncols + e.2) (m e.1 e.2)) values := by
  induction es generalizing values with
  | nil => rfl
  | cons e es ih =>
    obtain ⟨i, j, k⟩ := e
    have he := hes (i, j, k) (by simp)
    obtain ⟨hj, hunknown, -⟩ := mem_pendingEntries.1 he
    rw [List.foldl_cons, List.map_cons, List.foldl_cons, hc.productEntry_rev hm hprod hvalues he]
    refine ih (fun e h => hes e (by simp [h])) fun a b hb hknown => ?_
    -- a pending place is not the place of a known entry
    rw [Vec.entry_setIfInBounds, if_neg, hvalues a b hb hknown]
    rintro ⟨hplace, -⟩
    obtain ⟨rfl, rfl⟩ := Vec.place_inj (hc.wellFormed.lt_ncols i j hj)
      (hc.wellFormed.lt_ncols a b hb) hplace
    rw [hknown] at hunknown
    cases hunknown

omit [ExactScalar α] in
theorem checkProducts_eq_ok {mode : Mode} {groups : List (List Nat)} {products : List (Array α)}
    {n : Nat} (hlen : products.length = groups.length) (hsize : ∀ x ∈ products, x.size = n) :
    checkProducts mode groups products n = .ok () := by
  have hfind : products.find? (fun p => p.size ≠ n) = none := by
    rw [List.find?_eq_none]
    intro x hx
    simp [hsize x hx]
  rw [checkProducts, if_neg (not_not.2 hlen), hfind]

/-- **Recovery from the products of a matrix returns the matrix**, for every coloring that separates
the entries of a pattern around its nonzeros. -/
theorem Separates.recover_eq (hc : c.Separates) (hm : Covers c.pattern m)
    (hprod : c.IsProducts m fwd rev)
    (hfit : c.pattern.nrows * c.pattern.ncols < Count.modulus) :
    c.recover fwd rev = .ok (Vec.rowMajor c.pattern.nrows c.pattern.ncols m) := by
  have hplaces : c.pattern.places = c.pattern.nrows * c.pattern.ncols := Count.mul_of_lt hfit
  have hlt : ∀ e ∈ c.pattern.entries.filter fun e => c.known e.1 e.2, e.2 < c.pattern.ncols :=
    fun e he => hc.wellFormed.lt_ncols _ _ (Pattern.mem_entries.1 (List.mem_filter.1 he).1)
  have hpendingLt : ∀ e ∈ c.pendingEntries.map fun e => (e.1, e.2.1), e.2 < c.pattern.ncols := by
    intro e he
    obtain ⟨⟨i, j, k⟩, hpending, rfl⟩ := List.mem_map.1 he
    exact hc.wellFormed.lt_ncols i j (mem_pendingEntries.1 hpending).1
  have hsize : (c.recoverForward fwd).size = c.pattern.nrows * c.pattern.ncols := by
    rw [hc.recoverForward_eq hm hprod, Vec.size_foldl_write, Vec.size_zeros, hplaces]
  have hforward : ∀ i < c.pattern.nrows, ∀ j < c.pattern.ncols,
      Vec.entry (c.recoverForward fwd) (i * c.pattern.ncols + j) =
        if j ∈ c.pattern.row i ∧ c.known i j = true then m i j else 0 := by
    intro i hi j hj
    rw [hc.recoverForward_eq hm hprod, Vec.entry_foldl_write m _ hlt _ hj (by
      rw [Vec.size_zeros, hplaces]
      exact Vec.place_lt hi hj), Vec.entry_zeros]
    simp only [List.mem_filter, Pattern.mem_entries]
  have hreverse := hc.foldl_pending hm hprod (fun _ h => h) fun i j hj hknown => by
    rw [hforward i (hc.wellFormed.lt_nrows hj) j (hc.wellFormed.lt_ncols i j hj),
      if_pos ⟨hj, hknown⟩]
  have hresult : c.recoverReverse rev (c.recoverForward fwd) =
      Vec.rowMajor c.pattern.nrows c.pattern.ncols m := by
    refine hreverse.trans ?_
    refine Vec.eq_rowMajor (by rw [Vec.size_foldl_write, hsize]) fun i hi j hj => ?_
    rw [Vec.entry_foldl_write m _ hpendingLt _ hj (by rw [hsize]; exact Vec.place_lt hi hj),
      hforward i hi j hj]
    split_ifs with hpending hknown
    · rfl
    · rfl
    · -- neither known nor pending, so not in the pattern
      by_contra hne
      have hmem := hm i j (Ne.symm hne)
      have hunknown : c.known i j = false := by
        rw [← Bool.not_eq_true]
        exact fun h => hknown ⟨hmem, h⟩
      obtain ⟨k, hk, -⟩ := hc.reverse hmem hunknown
      exact hpending (List.mem_map.2 ⟨(i, j, k),
        mem_pendingEntries.2 ⟨hmem, hunknown, (hc.revColors_iff i k).2 hk⟩, rfl⟩)
  rw [recover, checkProducts_eq_ok hprod.length_fwd hprod.size_fwd,
    checkProducts_eq_ok hprod.length_rev hprod.size_rev, hresult]
  rfl

/-! ### Places outside the pattern -/

open Vec

/-- Steps that leave an entry alone, one after the other, leave it alone. -/
theorem entry_foldl {ι : Type} {step : Array α → ι → Array α} {es : List ι} {k : Nat}
    (h : ∀ x, ∀ e ∈ es, entry (step x e) k = entry x k) (x : Array α) :
    entry (es.foldl step x) k = entry x k := by
  induction es generalizing x with
  | nil => rfl
  | cons e es ih =>
    rw [List.foldl_cons, ih fun x e he => h x e (List.mem_cons_of_mem _ he)]
    exact h x e List.mem_cons_self

/-- Writing at a place of a pattern leaves the places outside of it alone. -/
theorem entry_write (hc : c.pattern.WellFormed) {a b i k : Nat} (hab : b ∈ c.pattern.row a)
    (hk : k < c.pattern.ncols) (hout : k ∉ c.pattern.row i) (x : Array α) (v : α) :
    entry (x.setIfInBounds (a * c.pattern.ncols + b) v) (i * c.pattern.ncols + k) =
      entry x (i * c.pattern.ncols + k) := by
  rw [entry_setIfInBounds, if_neg]
  rintro ⟨hplace, -⟩
  obtain ⟨rfl, rfl⟩ := place_inj (hc.lt_ncols a b hab) hk hplace
  exact hout hab

/-- **What is recovered is zero outside the pattern.** -/
theorem entry_recover (hc : c.pattern.WellFormed) {i k : Nat} (hk : k < c.pattern.ncols)
    (hout : k ∉ c.pattern.row i) :
    entry (c.recoverReverse rev (c.recoverForward fwd)) (i * c.pattern.ncols + k) = 0 := by
  rw [recoverReverse, entry_foldl fun x e he => ?_, recoverForward, entry_foldl fun x e he => ?_,
    entry_zeros]
  · dsimp only
    split_ifs
    · split
      · exact entry_write hc (Pattern.mem_entries.1 he) hk hout x _
      · rfl
    · rfl
  · obtain ⟨a, b, g⟩ := e
    exact entry_write hc (mem_pendingEntries.1 he).1 hk hout x _

theorem size_recover : (c.recoverReverse rev (c.recoverForward fwd)).size = c.pattern.places := by
  have hforward : (c.recoverForward fwd).size = c.pattern.places := by
    rw [recoverForward]
    refine List.foldlRecOn (motive := fun x : Array α => x.size = _) _ _ (size_zeros _)
      fun x hx e _ => ?_
    dsimp only
    split_ifs
    · split
      · rw [Array.size_setIfInBounds, hx]
      · exact hx
    · exact hx
  rw [recoverReverse]
  refine List.foldlRecOn (motive := fun x : Array α => x.size = _) _ _ hforward fun x hx e _ => ?_
  rw [Array.size_setIfInBounds, hx]

/-- Products of the right shape are accepted. -/
theorem recover_of_isProducts {m : Nat → Nat → α} (h : c.IsProducts m fwd rev) :
    c.recover fwd rev = .ok (c.recoverReverse rev (c.recoverForward fwd)) := by
  rw [recover, checkProducts_eq_ok h.length_fwd h.size_fwd,
    checkProducts_eq_ok h.length_rev h.size_rev]
  rfl

end Recovery

/-! ### The colorings that are computed -/

theorem cheapest_mem (c : Coloring) (others : List Coloring) : cheapest c others ∈ c :: others := by
  unfold cheapest
  induction others generalizing c with
  | nil => simp
  | cons d others ih =>
    rw [List.foldl_cons]
    rcases List.mem_cons.1 (ih (if isCheaper d c then d else c)) with h | h
    · rw [h]
      split_ifs <;> simp
    · simp [h]

theorem bidirectional_eq_partition (p : Pattern) (recovery : Recovery) :
    ∃ revRows recovery', bidirectional p recovery = partition p revRows recovery' := by
  unfold bidirectional
  split
  · rename_i c others hcands
    have hmem : cheapest c others ∈ (candidates p).flatMap (splitColorings p recovery) := by
      rw [hcands]
      exact cheapest_mem c others
    obtain ⟨revRows, -, hsplit⟩ := List.mem_flatMap.1 hmem
    refine ⟨revRows, ?_⟩
    cases recovery with
    | direct => exact ⟨.direct, List.mem_singleton.1 hsplit⟩
    | substitution =>
      rcases List.mem_cons.1 hsplit with h | h
      · exact ⟨.substitution, h⟩
      · exact ⟨.direct, List.mem_singleton.1 h⟩
  · exact ⟨_, _, rfl⟩

/-- **Valid settings give the coloring of some split**, whatever direction they ask for. -/
theorem compute_eq_partition {β : Type} [Scalar β] (p : Pattern) {s : ColoringSettings β}
    (hs : s.validate = .ok ()) :
    ∃ revRows recovery, compute p s = .ok (partition p revRows recovery) := by
  unfold compute
  rw [hs]
  cases s.direction with
  | fwd => exact ⟨_, _, rfl⟩
  | rev => exact ⟨_, _, rfl⟩
  | auto =>
    simp only
    split_ifs
    · exact ⟨_, _, rfl⟩
    · exact ⟨_, _, rfl⟩
  | bidirectional =>
    obtain ⟨revRows, recovery, h⟩ := bidirectional_eq_partition p s.recovery
    exact ⟨revRows, recovery, by rw [← h]⟩

theorem pattern_partition (p : Pattern) (revRows : List Bool) (recovery : Recovery) :
    (partition p revRows recovery).pattern = p := rfl

/-! ### Matrices -/

section Matrices

open Matrix Vec

variable {α : Type} [ExactScalar α] {nrows ncols : Nat}

/-- The sum of the unit vectors of a group. -/
def groupSeed (n : Nat) (group : List Nat) : Fin n → α :=
  (group.map fun k (i : Fin n) => if (i : Nat) = k then 1 else 0).sum

/-- A product with a seed sums the columns of its group. -/
theorem mulVec_groupSeed (M : Matrix (Fin nrows) (Fin ncols) α) {group : List Nat}
    (hlt : ∀ k ∈ group, k < ncols) (i : Fin nrows) :
    (M *ᵥ groupSeed ncols group) i = (group.map (coeff M i)).sum := by
  induction group with
  | nil => simp [groupSeed]
  | cons k group ih =>
    have hk := hlt k (by simp)
    have hunit : (M *ᵥ fun j : Fin ncols => if (j : Nat) = k then 1 else 0) i = coeff M i k := by
      have hval : ∀ j : Fin ncols, ((j : Nat) = k) ↔ (j = ⟨k, hk⟩) := fun j =>
        ⟨fun h => Fin.ext h, fun h => congrArg Fin.val h⟩
      simp only [Matrix.mulVec, dotProduct, hval, mul_ite, mul_one, mul_zero,
        Finset.sum_ite_eq', Finset.mem_univ, if_true]
      exact (coeff_fin M i ⟨k, hk⟩).symm
    have hcons : groupSeed (α := α) ncols (k :: group) =
        (fun j : Fin ncols => if (j : Nat) = k then 1 else 0) + groupSeed ncols group := by
      simp [groupSeed]
    rw [hcons, Matrix.mulVec_add, Pi.add_apply, hunit, ih fun j hj => hlt j (by simp [hj]),
      List.map_cons, List.sum_cons]

theorem productEntry_map {n : Nat} (groups : List (List Nat)) (f : List Nat → Fin n → α)
    (h0 : f [] = 0) (k : Nat) (i : Fin n) :
    productEntry (groups.map fun g => Array.ofFn (f g)) k i = f (groups.getD k []) i := by
  unfold productEntry
  by_cases hk : k < groups.length
  · simp [hk, Vec.entry]
  · simp [hk, h0]

/-- The products of a matrix with the seeds of a coloring are its products. -/
theorem Separates.isProducts {c : Coloring} (hc : c.Separates)
    (M : Matrix (Fin c.pattern.nrows) (Fin c.pattern.ncols) α) :
    c.IsProducts (coeff M) (c.fwd.map fun g => Array.ofFn (M *ᵥ groupSeed _ g))
      (c.rev.map fun g => Array.ofFn (Mᵀ *ᵥ groupSeed _ g)) where
  length_fwd := List.length_map _
  length_rev := List.length_map _
  size_fwd x hx := by
    obtain ⟨g, -, rfl⟩ := List.mem_map.1 hx
    simp
  size_rev x hx := by
    obtain ⟨g, -, rfl⟩ := List.mem_map.1 hx
    simp
  entry_fwd k i hi := by
    have h := productEntry_map c.fwd (fun g => M *ᵥ groupSeed _ g) (by simp [groupSeed]) k ⟨i, hi⟩
    rw [h, mulVec_groupSeed M (hc.fwd_lt k)]
  entry_rev k j hj := by
    have h := productEntry_map c.rev (fun g => Mᵀ *ᵥ groupSeed _ g) (by simp [groupSeed]) k ⟨j, hj⟩
    rw [h, mulVec_groupSeed Mᵀ (hc.rev_lt k)]
    exact congrArg List.sum (List.map_congr_left fun i _ => coeff_transpose M j i)

/-- **Colored recovery is exact**: valid settings always give a coloring, and recovery from the
products with its groups returns a matrix whose nonzeros lie inside the pattern, row by row, as long
as its entries can be counted. Every entry of the pattern is read, forward with the color of its
column or in reverse with the color of its row, and whatever is subtracted from a reverse product is
itself read forward. -/
theorem recover_compute {β : Type} [Scalar β] {p : Pattern} (hp : p.WellFormed)
    (hfit : p.nrows * p.ncols < Count.modulus) (s : ColoringSettings β) (hs : s.validate = .ok ())
    (M : Matrix (Fin p.nrows) (Fin p.ncols) α) (hM : ∀ i j, M i j ≠ 0 → (j : Nat) ∈ p.row i) :
    ∃ c, compute p s = .ok c ∧
      c.recover (c.fwd.map fun g => Array.ofFn (M *ᵥ groupSeed p.ncols g))
        (c.rev.map fun g => Array.ofFn (Mᵀ *ᵥ groupSeed p.nrows g)) =
          .ok (Array.ofFn fun i => M i.divNat i.modNat) ∧
      (∀ i j, j ∈ p.row i → (c.known i j = true ∧ ∃ k, c.fwdColors.getD j none = some k) ∨
        ∃ k, (i, j, k) ∈ c.pendingEntries) ∧
      ∀ i j k, (i, j, k) ∈ c.pendingEntries → ∀ i' ∈ c.rev.getD k [], i' ≠ i → j ∈ p.row i' →
        c.known i' j = true ∧ ∃ k', c.fwdColors.getD j none = some k' := by
  obtain ⟨revRows, recovery, hcompute⟩ := compute_eq_partition p hs
  have hc : (partition p revRows recovery).Separates := separates_partition hp
  have hcovers : Covers p (coeff M) := by
    intro i j h
    unfold coeff at h
    split_ifs at h with hij
    · exact hM _ _ h
    · exact absurd rfl h
  have hread : ∀ i j, j ∈ p.row i → (partition p revRows recovery).known i j = true →
      ∃ k, (partition p revRows recovery).fwdColors.getD j none = some k := by
    intro i j hj hknown
    obtain ⟨k, hk, -⟩ := hc.forward hj hknown
    exact ⟨k, (hc.fwdColors_iff j k).2 hk⟩
  refine ⟨_, hcompute, ?_, fun i j hj => ?_, fun i j k hpending i' hi' hne hj' => ?_⟩
  · exact (hc.recover_eq hcovers (hc.isProducts M) hfit).trans (congrArg _ (rowMajor_coeff M))
  · cases hknown : (partition p revRows recovery).known i j with
    | true => exact .inl ⟨rfl, hread i j hj hknown⟩
    | false =>
      obtain ⟨k, hk, -⟩ := hc.reverse hj hknown
      exact .inr ⟨k, mem_pendingEntries.2 ⟨hj, hknown, (hc.revColors_iff i k).2 hk⟩⟩
  · obtain ⟨hj, hunknown, hcolor⟩ := mem_pendingEntries.1 hpending
    obtain ⟨k', hk', hmates⟩ := hc.reverse hj hunknown
    obtain rfl : k = k' := Option.some.inj (hcolor.symm.trans ((hc.revColors_iff i k').2 hk'))
    have hknown := hmates i' hi' hj' hne
    exact ⟨hknown, hread i' j hj' hknown⟩

/-- The pattern of a square matrix of three rows that is nonzero in its first row, its first column
and its diagonal. -/
def arrowhead : Pattern := ⟨3, 3, #[[0, 1, 2], [0, 1], [0, 2]]⟩

/-- An arrowhead is recovered from products in both directions by substitution. -/
theorem recover_arrowhead : ∃ c,
    compute arrowhead (⟨.bidirectional, .substitution, 0, 1, 0⟩ : ColoringSettings ℚ) = .ok c ∧
      c.recover (c.fwd.map fun g => Array.ofFn (!![1, 2, 3; 4, 5, 0; 6, 0, 7] *ᵥ groupSeed 3 g))
        (c.rev.map fun g => Array.ofFn (!![1, 2, 3; 4, 5, 0; 6, 0, 7]ᵀ *ᵥ groupSeed 3 g)) =
          .ok #[(1 : ℚ), 2, 3, 4, 5, 0, 6, 0, 7] := by
  have hmade : Pattern.ofEntries 3 3
      [(0, 0), (0, 1), (0, 2), (1, 0), (1, 1), (2, 0), (2, 2)] = .ok arrowhead := rfl
  have hp := (Pattern.wellFormed_of_ofEntries hmade).1
  have hM : ∀ i j : Fin 3, (!![1, 2, 3; 4, 5, 0; 6, 0, 7] : Matrix (Fin 3) (Fin 3) ℚ) i j ≠ 0 →
      (j : Nat) ∈ arrowhead.row i := by
    intro i j
    fin_cases i <;> fin_cases j <;> simp [arrowhead, Pattern.row]
  obtain ⟨c, hc, hrecover, -⟩ := recover_compute hp (by decide)
    (⟨.bidirectional, .substitution, 0, 1, 0⟩ : ColoringSettings ℚ) rfl _ hM
  exact ⟨c, hc, hrecover⟩

end Matrices

end Coloring

end Mdao
