import Mathlib
import Mdao.Proofs.Coloring.Recovery

/-!
# Numbers of products

A coloring needs at least as many forward products as a forward row has entries, since no two of these
share a color, and at most as many as there are columns in forward rows, since no group is empty; in
reverse rows and columns change places (`length_fwd_spec`, `length_rev_spec`).

Greedy coloring is not monotone: fewer conflicts may lead to more groups. That a bidirectional
coloring never needs more products than one in a single direction comes from the splits it tries. One
reads every row from forward products and one reads every row with an entry from reverse products, and
with substitution each split is also tried without (`Coloring.solves_compute`).
-/

namespace Mdao

/-! ### Numbers of groups -/

namespace Conflicts.ProperGroups

variable {g : Conflicts} {active : List Nat} {groups : List (List Nat)}

/-- There are no more groups than active vertices: each group holds one that is in no other group. -/
theorem length_le (h : g.ProperGroups active groups) : groups.length ≤ active.length := by
  have hmember : ∀ k : Fin groups.length, ∃ v, v ∈ groups.getD k [] := fun k =>
    List.exists_mem_of_ne_nil _ (h.nonempty k k.2)
  choose v hv using hmember
  have hinj : Function.Injective v := fun j k hjk => Fin.ext (h.unique (hv j) (hjk ▸ hv k))
  have hactive : List.ofFn v ⊆ active := by
    intro u hu
    obtain ⟨k, rfl⟩ := (List.mem_ofFn' v u).1 hu
    exact (h.mem_iff _).1 ⟨k, hv k⟩
  have hle := ((List.nodup_ofFn.2 hinj).subperm hactive).length_le
  rwa [List.length_ofFn] at hle

/-- There are at least as many groups as vertices of which any two are adjacent: each is in a group
of its own. -/
theorem le_length (h : g.ProperGroups active groups) {clique : List Nat} (hnodup : clique.Nodup)
    (hactive : ∀ v ∈ clique, v ∈ active)
    (hadj : ∀ u ∈ clique, ∀ v ∈ clique, u ≠ v → u ∈ g.neighbors v) :
    clique.length ≤ groups.length := by
  have hgroup : ∀ v ∈ clique, ∃ k, v ∈ groups.getD k [] := fun v hv =>
    (h.mem_iff v).2 (hactive v hv)
  choose! k hk using hgroup
  have hnodup' : (clique.map k).Nodup := by
    refine hnodup.map_on fun u hu v hv huv => ?_
    by_contra hne
    exact h.independent (hk u hu) (huv ▸ hk v hv) (hadj u hu v hv hne)
  have hlt : clique.map k ⊆ List.range groups.length := by
    intro j hj
    obtain ⟨v, hv, rfl⟩ := List.mem_map.1 hj
    rw [List.mem_range]
    by_contra hout
    have hmem := hk v hv
    rw [List.getD_eq_default _ _ (by omega)] at hmem
    cases hmem
  have hle := (hnodup'.subperm hlt).length_le
  rwa [List.length_map, List.length_range] at hle

end Conflicts.ProperGroups

/-! ### Columns and rows with an entry -/

namespace Pattern

variable {p : Pattern}

/-- The columns with an entry. -/
def columnsInUse (p : Pattern) : List Nat :=
  (List.range p.ncols).filter fun c => !(p.columns.getD c []).isEmpty

/-- The rows with an entry. -/
def rowsInUse (p : Pattern) : List Nat := (List.range p.nrows).filter fun r => !(p.row r).isEmpty

theorem WellFormed.mem_columnsInUse (hp : p.WellFormed) {r c : Nat} (h : c ∈ p.row r) :
    c ∈ p.columnsInUse := by
  have hc := hp.lt_ncols r c h
  refine List.mem_filter.2 ⟨List.mem_range.2 hc, ?_⟩
  simpa using List.ne_nil_of_mem ((mem_columns hc).2 h)

theorem WellFormed.mem_rowsInUse (hp : p.WellFormed) {r c : Nat} (h : c ∈ p.row r) :
    r ∈ p.rowsInUse := by
  refine List.mem_filter.2 ⟨List.mem_range.2 (hp.lt_nrows h), ?_⟩
  simpa using List.ne_nil_of_mem h

theorem length_columnsInUse_le (p : Pattern) : p.columnsInUse.length ≤ p.ncols :=
  (List.length_filter_le _ _).trans_eq List.length_range

theorem length_rowsInUse_le (p : Pattern) : p.rowsInUse.length ≤ p.nrows :=
  (List.length_filter_le _ _).trans_eq List.length_range

end Pattern

namespace Coloring

variable {p : Pattern}

/-! ### The products of a split -/

/-- The groups of some lists: no more than the lists have members, and no fewer than one list has. -/
theorem length_color_cliques {n : Nat} {ls : List (List Nat)} (hls : ∀ l ∈ ls, ∀ b ∈ l, b < n) :
    ((ls.foldl Conflicts.addClique (.empty n)).color (sortedSet ls.flatten)).length ≤
        (sortedSet ls.flatten).length ∧
      ∀ l ∈ ls, l.Nodup → l.length ≤
        ((ls.foldl Conflicts.addClique (.empty n)).color (sortedSet ls.flatten)).length := by
  obtain ⟨-, hadj⟩ := Conflicts.neighbors_addCliques hls
  have h := properGroups_cliques hls
  refine ⟨h.length_le, fun l hl hnodup => h.le_length hnodup (fun v hv => ?_) fun u hu v hv hne => ?_⟩
  · exact mem_sortedSet.2 (List.mem_flatten.2 ⟨l, hl, hv⟩)
  · exact (hadj u v).2 ⟨hne, l, hl, hu, hv⟩

/-- **The number of forward products** is at most that of the columns in forward rows, and at least
the number of entries of each forward row. -/
theorem length_fwd_spec (hp : p.WellFormed) (revRows : List Bool) (recovery : Recovery) :
    (partition p revRows recovery).fwd.length ≤
        (sortedSet ((forwardRows p revRows).flatMap p.row)).length ∧
      ∀ r ∈ forwardRows p revRows, (p.row r).length ≤ (partition p revRows recovery).fwd.length := by
  have hlt : ∀ l ∈ (forwardRows p revRows).map p.row, ∀ b ∈ l, b < p.ncols := by
    intro l hl b hb
    obtain ⟨r, -, rfl⟩ := List.mem_map.1 hl
    exact hp.lt_ncols r b hb
  have hspec := length_color_cliques hlt
  rw [← List.flatMap_def] at hspec
  refine ⟨hspec.1, fun r hr => hspec.2 _ (List.mem_map.2 ⟨r, hr, rfl⟩) ?_⟩
  exact nodup_of_increasing (hp.increasing r)

/-- **The number of reverse products** is at most that of the rows with an unknown entry, and at least
the number of unknown entries of each column. -/
theorem length_rev_spec (hp : p.WellFormed) (revRows : List Bool) (recovery : Recovery)
    {unknown : List (List Nat)}
    (hunknown : unknown = unknownRows p revRows recovery (partition p revRows recovery).fwdColors) :
    (partition p revRows recovery).rev.length ≤ (sortedSet unknown.flatten).length ∧
      ∀ l ∈ unknown, l.length ≤ (partition p revRows recovery).rev.length := by
  subst hunknown
  have hlt : ∀ l ∈ unknownRows p revRows recovery (partition p revRows recovery).fwdColors,
      ∀ b ∈ l, b < p.nrows := by
    intro l hl b hb
    obtain ⟨j, hj, rfl⟩ := mem_unknownRows.1 hl
    exact hp.lt_nrows ((Pattern.mem_columns hj).1 (List.mem_filter.1 hb).1)
  have hspec := length_color_cliques hlt
  refine ⟨hspec.1, fun l hl => hspec.2 l hl ?_⟩
  obtain ⟨j, hj, rfl⟩ := mem_unknownRows.1 hl
  exact (nodup_of_increasing (hp.pairwise_columns hj)).filter _

/-! ### One direction -/

/-- The split that reads every row from forward products. -/
def allForward (p : Pattern) : List Bool := (List.range p.nrows).map fun _ => false

/-- The split that reads every row with an entry from reverse products. -/
def allReverse (p : Pattern) : List Bool := (List.range p.nrows).map fun r => !(p.row r).isEmpty

theorem getD_allForward (p : Pattern) (r : Nat) : (allForward p).getD r false = false := by
  by_cases hr : r < p.nrows <;> simp [allForward, hr]

theorem getD_allReverse (hp : p.WellFormed) {r c : Nat} (h : c ∈ p.row r) :
    (allReverse p).getD r false = true := by
  have hr := hp.lt_nrows h
  simpa [allReverse, hr] using List.ne_nil_of_mem h

/-- **Forward alone** a coloring needs as many products as the longest row has entries, at least, and
as many as there are columns with an entry, at most. -/
theorem solves_forwardOnly (hp : p.WellFormed) :
    (∀ r, (p.row r).length ≤ (forwardOnly p).solves) ∧
      (forwardOnly p).solves ≤ p.columnsInUse.length := by
  obtain ⟨hle, hge⟩ := length_fwd_spec hp (allForward p) .direct
  obtain ⟨hrev, -⟩ := length_rev_spec hp (allForward p) .direct rfl
  -- every entry is read forward
  have hnone : (sortedSet (unknownRows p (allForward p) .direct
      (partition p (allForward p) .direct).fwdColors).flatten).length = 0 := by
    rw [List.length_eq_zero_iff, List.eq_nil_iff_forall_not_mem]
    intro r hr
    obtain ⟨l, hl, hrl⟩ := List.mem_flatten.1 (mem_sortedSet.1 hr)
    obtain ⟨j, -, rfl⟩ := mem_unknownRows.1 hl
    have := (List.mem_filter.1 hrl).2
    rw [getD_allForward] at this
    cases this
  have hsolves : (forwardOnly p).solves = (partition p (allForward p) .direct).fwd.length := by
    show (partition p (allForward p) .direct).fwd.length +
      (partition p (allForward p) .direct).rev.length = _
    omega
  rw [hsolves]
  refine ⟨fun r => ?_, hle.trans ?_⟩
  · by_cases hr : r < p.nrows
    · refine hge r (List.mem_filter.2 ⟨List.mem_range.2 hr, ?_⟩)
      rw [getD_allForward]
      rfl
    · rw [Pattern.row_of_size_le (by rw [hp.size_rows]; omega)]
      exact Nat.zero_le _
  · refine ((nodup_of_increasing (pairwise_sortedSet _)).subperm fun c hc => ?_).length_le
    obtain ⟨r, -, hrc⟩ := List.mem_flatMap.1 (mem_sortedSet.1 hc)
    exact hp.mem_columnsInUse hrc

/-- **In reverse alone** a coloring needs as many products as the longest column has entries, at
least, and as many as there are rows with an entry, at most. -/
theorem solves_reverseOnly (hp : p.WellFormed) :
    (∀ c, (p.columns.getD c []).length ≤ (reverseOnly p).solves) ∧
      (reverseOnly p).solves ≤ p.rowsInUse.length := by
  obtain ⟨hfwd, -⟩ := length_fwd_spec hp (allReverse p) .direct
  obtain ⟨hle, hge⟩ := length_rev_spec hp (allReverse p) .direct rfl
  -- the rows that are read forward have no entry
  have hnone : (sortedSet ((forwardRows p (allReverse p)).flatMap p.row)).length = 0 := by
    rw [List.length_eq_zero_iff, List.eq_nil_iff_forall_not_mem]
    intro c hc
    obtain ⟨r, hr, hrc⟩ := List.mem_flatMap.1 (mem_sortedSet.1 hc)
    have := (List.mem_filter.1 hr).2
    rw [getD_allReverse hp hrc] at this
    cases this
  have hsolves : (reverseOnly p).solves = (partition p (allReverse p) .direct).rev.length := by
    show (partition p (allReverse p) .direct).fwd.length +
      (partition p (allReverse p) .direct).rev.length = _
    omega
  rw [hsolves]
  refine ⟨fun c => ?_, hle.trans ?_⟩
  · by_cases hc : c < p.ncols
    · refine le_of_eq_of_le ?_ (hge _ (mem_unknownRows.2 ⟨c, hc, rfl⟩))
      rw [List.filter_eq_self.2]
      intro r hr
      have hrev := getD_allReverse hp ((Pattern.mem_columns hc).1 hr)
      simp only [isFwdKnown, hrev]
      rfl
    · rw [Array.getD_eq_getD_getElem?, Array.getElem?_eq_none (by simpa using hc)]
      exact Nat.zero_le _
  · refine ((nodup_of_increasing (pairwise_sortedSet _)).subperm fun r hr => ?_).length_le
    obtain ⟨l, hl, hrl⟩ := List.mem_flatten.1 (mem_sortedSet.1 hr)
    obtain ⟨c, hc, rfl⟩ := mem_unknownRows.1 hl
    exact hp.mem_rowsInUse ((Pattern.mem_columns hc).1 (List.mem_filter.1 hrl).1)

/-! ### The splits that are tried -/

theorem mem_insertSplit {s t : List Bool} {ss : List (List Bool)} :
    t ∈ insertSplit s ss ↔ t = s ∨ t ∈ ss := by
  induction ss with
  | nil => simp [insertSplit]
  | cons u ss ih =>
    unfold insertSplit
    split_ifs with h1 h2
    · subst h1
      simp
    · exact List.mem_cons
    · rw [List.mem_cons, List.mem_cons, ih]
      exact or_left_comm

theorem mem_foldl_insertSplit {ts ss : List (List Bool)} {t : List Bool} :
    t ∈ ts.foldl (fun ss s => insertSplit s ss) ss ↔ t ∈ ts ∨ t ∈ ss := by
  induction ts generalizing ss with
  | nil => simp
  | cons u ts ih =>
    rw [List.foldl_cons, ih, mem_insertSplit, List.mem_cons]
    tauto

theorem allForward_mem_candidates (p : Pattern) : allForward p ∈ candidates p :=
  mem_foldl_insertSplit.2 (.inl List.mem_cons_self)

/-- The rows that have at least as many entries as the shortest one are all rows; of these, the ones
with an entry are tried. -/
theorem allReverse_mem_candidates (p : Pattern) : allReverse p ∈ candidates p := by
  refine mem_foldl_insertSplit.2 (.inl ?_)
  cases hcounts : sortedSet ((List.range p.nrows).map fun r => (p.row r).length) with
  | nil =>
    have hrows : p.nrows = 0 := by
      by_contra hne
      have hmem : (p.row 0).length ∈
          sortedSet ((List.range p.nrows).map fun r => (p.row r).length) :=
        mem_sortedSet.2 (List.mem_map.2 ⟨0, List.mem_range.2 (Nat.pos_of_ne_zero hne), rfl⟩)
      rw [hcounts] at hmem
      cases hmem
    simp [allReverse, hrows]
  | cons t ts =>
    have hleast : ∀ r < p.nrows, t ≤ (p.row r).length := by
      intro r hr
      have hmem : (p.row r).length ∈
          sortedSet ((List.range p.nrows).map fun r => (p.row r).length) :=
        mem_sortedSet.2 (List.mem_map.2 ⟨r, List.mem_range.2 hr, rfl⟩)
      have hincreasing := pairwise_sortedSet ((List.range p.nrows).map fun r => (p.row r).length)
      rw [hcounts] at hmem hincreasing
      rcases List.mem_cons.1 hmem with h | h
      · exact h.ge
      · exact ((List.pairwise_cons.1 hincreasing).1 _ h).le
    refine List.mem_cons_of_mem _ (List.mem_append_left _ (List.mem_map.2 ⟨t, by simp, ?_⟩))
    rw [List.map_map, allReverse]
    refine List.map_congr_left fun r hr => ?_
    simp only [Function.comp_apply, hleast r (List.mem_range.1 hr), decide_true, Bool.true_and]
    cases p.row r <;> simp

/-! ### The cheapest coloring -/

theorem solves_le_of_isCheaper {a b : Coloring} (h : isCheaper a b = true) : a.solves ≤ b.solves := by
  simp only [isCheaper, Bool.or_eq_true, decide_eq_true_eq, Bool.and_eq_true, beq_iff_eq] at h
  omega

theorem solves_le_of_not_isCheaper {a b : Coloring} (h : isCheaper a b = false) :
    b.solves ≤ a.solves := by
  simp only [isCheaper, Bool.or_eq_false_iff, decide_eq_false_iff_not] at h
  omega

theorem solves_cheapest_le {c d : Coloring} {others : List Coloring} (h : d ∈ c :: others) :
    (cheapest c others).solves ≤ d.solves := by
  unfold cheapest
  induction others generalizing c d with
  | nil => rw [List.mem_singleton.1 h, List.foldl_nil]
  | cons e others ih =>
    rw [List.foldl_cons]
    cases hcheaper : isCheaper e c with
    | true =>
      rw [if_pos rfl]
      rcases List.mem_cons.1 h with rfl | h
      · exact (ih List.mem_cons_self).trans (solves_le_of_isCheaper hcheaper)
      · exact ih h
    | false =>
      rw [if_neg Bool.false_ne_true]
      rcases List.mem_cons.1 h with rfl | h
      · exact ih List.mem_cons_self
      · rcases List.mem_cons.1 h with rfl | h
        · exact (ih List.mem_cons_self).trans (solves_le_of_not_isCheaper hcheaper)
        · exact ih (List.mem_cons_of_mem _ h)

/-- **A bidirectional coloring is the cheapest of those it tries**, and it is one of them. -/
theorem bidirectional_spec (p : Pattern) (recovery : Recovery) :
    bidirectional p recovery ∈ (candidates p).flatMap (splitColorings p recovery) ∧
      ∀ d ∈ (candidates p).flatMap (splitColorings p recovery),
        (bidirectional p recovery).solves ≤ d.solves := by
  have htried : ∃ d, d ∈ splitColorings p recovery (allForward p) := by
    cases recovery <;> exact ⟨_, List.mem_cons_self⟩
  obtain ⟨d, hd⟩ := htried
  have hne := List.ne_nil_of_mem
    (List.mem_flatMap.2 ⟨_, allForward_mem_candidates p, hd⟩)
  unfold bidirectional
  cases h : (candidates p).flatMap (splitColorings p recovery) with
  | nil => exact absurd h hne
  | cons c others => exact ⟨cheapest_mem c others, fun d hd => solves_cheapest_le hd⟩

/-- The coloring of a split in which each entry is read from one product is tried in any case. -/
theorem direct_mem_splitColorings (p : Pattern) (recovery : Recovery) (revRows : List Bool) :
    partition p revRows .direct ∈ splitColorings p recovery revRows := by
  cases recovery <;> simp [splitColorings]

theorem solves_bidirectional_le {p : Pattern} {revRows : List Bool} (h : revRows ∈ candidates p)
    (recovery : Recovery) :
    (bidirectional p recovery).solves ≤ (partition p revRows .direct).solves :=
  (bidirectional_spec p recovery).2 _
    (List.mem_flatMap.2 ⟨revRows, h, direct_mem_splitColorings p recovery revRows⟩)

/-- Where substitution is allowed, no more products are needed than without. -/
theorem solves_substitution_le (p : Pattern) :
    (bidirectional p .substitution).solves ≤ (bidirectional p .direct).solves := by
  obtain ⟨revRows, hcandidate, hsplit⟩ := List.mem_flatMap.1 (bidirectional_spec p .direct).1
  rw [List.mem_singleton.1 hsplit]
  exact solves_bidirectional_le hcandidate .substitution

/-- The coloring that a direction and a recovery lead to. -/
def chosen (p : Pattern) : Direction → Recovery → Coloring
  | .fwd, _ => forwardOnly p
  | .rev, _ => reverseOnly p
  | .auto, _ =>
    if (reverseOnly p).solves < (forwardOnly p).solves then reverseOnly p else forwardOnly p
  | .bidirectional, recovery => bidirectional p recovery

theorem compute_eq_chosen {β : Type} [Scalar β] (p : Pattern) {s : ColoringSettings β}
    (hs : s.validate = .ok ()) : compute p s = .ok (chosen p s.direction s.recovery) := by
  rw [compute, hs]
  cases s.direction <;> rfl

theorem pattern_chosen (p : Pattern) (d : Direction) (r : Recovery) : (chosen p d r).pattern = p := by
  cases d with
  | fwd => rfl
  | rev => rfl
  | auto =>
    simp only [chosen]
    split_ifs <;> rfl
  | bidirectional =>
    obtain ⟨revRows, recovery, h⟩ := bidirectional_eq_partition p r
    rw [chosen, h, pattern_partition]

/-- The automatic choice is the cheaper of the two directions. -/
theorem solves_auto (p : Pattern) (r : Recovery) :
    (chosen p .auto r).solves = min (forwardOnly p).solves (reverseOnly p).solves := by
  simp only [chosen]
  split_ifs with h
  · exact (min_eq_right h.le).symm
  · exact (min_eq_left (not_lt.1 h)).symm

/-- **No coloring costs more than its simpler alternatives.** Settings that make sense lead to a
coloring, and the numbers of products are in order: bidirectional with substitution, bidirectional
without, the cheaper of both directions. In one direction the number lies between the largest number
of entries of a row, or column, and the number of columns, or rows, with an entry. So neither the
automatic nor the bidirectional choice needs more products than there are rows, or than there are
columns. -/
theorem solves_compute {β : Type} [Scalar β] {p : Pattern} (hp : p.WellFormed)
    (s : ColoringSettings β) (hs : s.validate = .ok ()) :
    ∃ c : Direction → Recovery → Coloring,
      (∀ d r, compute p { s with direction := d, recovery := r } = .ok (c d r)) ∧
      (c .bidirectional .substitution).solves ≤ (c .bidirectional .direct).solves ∧
      ∀ r, (c .bidirectional .direct).solves ≤ (c .auto r).solves ∧
        (c .auto r).solves = min (c .fwd r).solves (c .rev r).solves ∧
        ((∀ i, (p.row i).length ≤ (c .fwd r).solves) ∧
          (c .fwd r).solves ≤ p.columnsInUse.length) ∧
        ((∀ j, (p.columns.getD j []).length ≤ (c .rev r).solves) ∧
          (c .rev r).solves ≤ p.rowsInUse.length) ∧
        ∀ d ∈ [Direction.auto, .bidirectional], (c d r).solves ≤ (c d r).naiveSolves ∧
          (c d r).naiveSolves = min p.nrows p.ncols := by
  have hfwd := solves_forwardOnly hp
  have hrev := solves_reverseOnly hp
  have hauto : ∀ r, (chosen p .auto r).solves ≤ min p.nrows p.ncols := fun r => by
    rw [solves_auto, min_comm]
    exact min_le_min (hrev.2.trans p.length_rowsInUse_le) (hfwd.2.trans p.length_columnsInUse_le)
  have hbidirectional : ∀ r r', (bidirectional p r).solves ≤ (chosen p .auto r').solves :=
    fun r r' => by
      rw [solves_auto, le_min_iff]
      exact ⟨solves_bidirectional_le (allForward_mem_candidates p) r,
        solves_bidirectional_le (allReverse_mem_candidates p) r⟩
  have hnaive : ∀ d r, (chosen p d r).naiveSolves = min p.nrows p.ncols := fun d r => by
    rw [naiveSolves, pattern_chosen]
  refine ⟨chosen p, fun d r => compute_eq_chosen p hs, solves_substitution_le p, fun r =>
    ⟨hbidirectional .direct r, solves_auto p r, hfwd, hrev, fun d hd => ⟨?_, hnaive d r⟩⟩⟩
  rw [hnaive]
  rcases List.mem_pair.1 hd with rfl | rfl
  · exact hauto r
  · exact (hbidirectional r r).trans (hauto r)

/-- An arrowhead takes three products in one direction, and no more in both. -/
theorem solves_arrowhead : arrowhead.WellFormed ∧
    (⟨.auto, .direct, 0, 1, 0⟩ : ColoringSettings ℚ).validate = .ok () ∧
    ∃ fwd rev both,
      compute arrowhead (⟨.fwd, .direct, 0, 1, 0⟩ : ColoringSettings ℚ) = .ok fwd ∧
      compute arrowhead (⟨.rev, .direct, 0, 1, 0⟩ : ColoringSettings ℚ) = .ok rev ∧
      compute arrowhead (⟨.bidirectional, .substitution, 0, 1, 0⟩ : ColoringSettings ℚ) = .ok both ∧
      fwd.solves = 3 ∧ rev.solves = 3 ∧ both.solves ≤ 3 := by
  have hmade : Pattern.ofEntries 3 3
      [(0, 0), (0, 1), (0, 2), (1, 0), (1, 1), (2, 0), (2, 2)] = .ok arrowhead := rfl
  have hp := (Pattern.wellFormed_of_ofEntries hmade).1
  have hs : (⟨.auto, .direct, 0, 1, 0⟩ : ColoringSettings ℚ).validate = .ok () := rfl
  obtain ⟨c, hc, hsubstitution, hchain⟩ := solves_compute hp _ hs
  obtain ⟨-, -, ⟨hrow, hcols⟩, ⟨hcol, hrows⟩, hnaive⟩ := hchain .direct
  obtain ⟨hle, heq⟩ := hnaive .bidirectional (by decide)
  have hfwd : 3 ≤ (c .fwd .direct).solves := hrow 0
  have hrev : 3 ≤ (c .rev .direct).solves := hcol 0
  have hcols' : arrowhead.columnsInUse.length = 3 := by decide
  have hrows' : arrowhead.rowsInUse.length = 3 := by decide
  have hmin : min arrowhead.nrows arrowhead.ncols = 3 := by decide
  exact ⟨hp, hs, _, _, _, hc .fwd .direct, hc .rev .direct, hc .bidirectional .substitution,
    by omega, by omega, by omega⟩

end Coloring

end Mdao
