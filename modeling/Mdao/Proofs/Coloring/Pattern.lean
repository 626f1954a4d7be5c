import Mathlib
import Mdao.Coloring.Pattern

/-!
# Well-formed patterns

A pattern is well formed when it has one list of columns for each row, and each list increases and
stays below the number of columns. Every pattern that is made from entries or from a dense matrix is
well formed (`wellFormed_of_ofEntries`, `wellFormed_of_ofDense`), and a well-formed pattern is the
pattern of its own entries (`ofEntries_entries`), so well-formedness says exactly what can be made.

In a well-formed pattern bisection, the list of entries and the lists of columns agree on what
belongs to it: `contains_iff`, `mem_entries`, `mem_columns`.
-/

namespace Mdao

/-! ### Increasing lists -/

theorem mem_insertSorted {x y : Nat} {l : List Nat} : y ∈ insertSorted x l ↔ y = x ∨ y ∈ l := by
  induction l with
  | nil => simp [insertSorted]
  | cons a l ih =>
    unfold insertSorted
    split_ifs with h1 h2
    · exact List.mem_cons
    · subst h2
      simp
    · rw [List.mem_cons, List.mem_cons, ih]
      exact or_left_comm

theorem pairwise_insertSorted {x : Nat} {l : List Nat} (h : l.Pairwise (· < ·)) :
    (insertSorted x l).Pairwise (· < ·) := by
  induction l with
  | nil => simp [insertSorted]
  | cons a l ih =>
    obtain ⟨hal, hl⟩ := List.pairwise_cons.1 h
    unfold insertSorted
    split_ifs with h1 h2
    · refine List.pairwise_cons.2 ⟨fun b hb => ?_, h⟩
      rcases List.mem_cons.1 hb with rfl | hb
      · exact h1
      · exact h1.trans (hal b hb)
    · exact h
    · refine List.pairwise_cons.2 ⟨fun b hb => ?_, ih hl⟩
      rcases mem_insertSorted.1 hb with rfl | hb
      · omega
      · exact hal b hb

/-- An increasing list has no repetitions. -/
theorem nodup_of_increasing {l : List Nat} (h : l.Pairwise (· < ·)) : l.Nodup :=
  h.imp fun hab => hab.ne

private theorem foldl_insertSorted (xs s : List Nat) :
    (∀ y, y ∈ xs.foldl (fun s x => insertSorted x s) s ↔ y ∈ xs ∨ y ∈ s) ∧
      (s.Pairwise (· < ·) → (xs.foldl (fun s x => insertSorted x s) s).Pairwise (· < ·)) := by
  induction xs generalizing s with
  | nil => simp
  | cons x xs ih =>
    refine ⟨fun y => ?_, fun hs => (ih _).2 (pairwise_insertSorted hs)⟩
    rw [List.foldl_cons, (ih _).1, mem_insertSorted, List.mem_cons]
    tauto

theorem mem_sortedSet {xs : List Nat} {y : Nat} : y ∈ sortedSet xs ↔ y ∈ xs := by
  rw [sortedSet, (foldl_insertSorted xs []).1]
  simp

theorem pairwise_sortedSet (xs : List Nat) : (sortedSet xs).Pairwise (· < ·) :=
  (foldl_insertSorted xs []).2 List.Pairwise.nil

/-- Below the first entry of its upper half an increasing list is found in its lower half. -/
private theorem mem_take_of_lt {x : Nat} {ys : List Nat} (h : ys.Pairwise (· < ·)) (k m : Nat)
    (hk : k ≤ m) (hx : x < (ys.drop k).headD 0) : x ∈ ys.take m ↔ x ∈ ys := by
  refine ⟨List.mem_of_mem_take, fun hmem => ?_⟩
  rw [← List.take_append_drop k ys, List.mem_append] at hmem
  rcases hmem with hlow | hup
  · exact List.take_subset_take_left ys hk hlow
  · have hsorted := h.sublist (List.drop_sublist k ys)
    cases hd : ys.drop k with
    | nil => simp [hd] at hup
    | cons b rest =>
      rw [hd] at hup hx hsorted
      rcases List.mem_cons.1 hup with rfl | hrest
      · simp at hx
      · have := (List.pairwise_cons.1 hsorted).1 x hrest
        simp only [List.headD_cons] at hx
        omega

/-- From the first entry of its upper half on an increasing list is found in that half. -/
private theorem mem_drop_of_le {x : Nat} {ys : List Nat} (h : ys.Pairwise (· < ·)) (k : Nat)
    (hk : k < ys.length) (hx : ¬ x < (ys.drop k).headD 0) : x ∈ ys.drop k ↔ x ∈ ys := by
  refine ⟨List.mem_of_mem_drop, fun hmem => ?_⟩
  have hhead : (ys.drop k).headD 0 ∈ ys.drop k := by
    cases hd : ys.drop k with
    | nil =>
      have := congrArg List.length hd
      simp at this
      omega
    | cons b rest => simp
  rw [← List.take_append_drop k ys] at h hmem
  rcases List.mem_append.1 hmem with hlow | hup
  · exact absurd ((List.pairwise_append.1 h).2.2 x hlow _ hhead) hx
  · exact hup

/-- With enough fuel bisection decides membership in an increasing list. -/
theorem bisect_iff {x : Nat} : ∀ {fuel : Nat} {ys : List Nat}, ys.Pairwise (· < ·) →
    ys.length ≤ fuel + 1 → (bisect x fuel ys = true ↔ x ∈ ys) := by
  intro fuel
  induction fuel with
  | zero =>
    intro ys _ hlen
    match ys, hlen with
    | [], _ => simp [bisect]
    | [y], _ => simpa [bisect] using eq_comm
  | succ fuel ih =>
    intro ys h hlen
    match ys, h, hlen with
    | [], _, _ => simp [bisect]
    | [y], _, _ => simpa [bisect] using eq_comm
    | a :: b :: rest, h, hlen =>
      have hl : (a :: b :: rest).length = rest.length + 2 := rfl
      unfold bisect
      simp only
      split_ifs with hx
      · rw [ih (h.sublist (List.take_sublist _ _)) (by rw [List.length_take]; omega)]
        exact mem_take_of_lt h _ _ (by omega) hx
      · rw [ih (h.sublist (List.drop_sublist _ _)) (by rw [List.length_drop]; omega)]
        exact mem_drop_of_le h _ (by omega) hx

theorem isFound_iff {x : Nat} {ys : List Nat} (h : ys.Pairwise (· < ·)) :
    isFound x ys = true ↔ x ∈ ys := bisect_iff h (by omega)

namespace Pattern

/-! ### Well-formedness -/

/-- One increasing list of columns for each row. -/
structure WellFormed (p : Pattern) : Prop where
  /-- There is a list for each row. -/
  size_rows : p.rows.size = p.nrows
  /-- The columns of a row increase. -/
  increasing : ∀ r, (p.row r).Pairwise (· < ·)
  /-- There is no column beyond the last. -/
  lt_ncols : ∀ r, ∀ c ∈ p.row r, c < p.ncols

theorem row_of_size_le {p : Pattern} {r : Nat} (h : p.rows.size ≤ r) : p.row r = [] := by
  simp [row, h]

theorem row_eq_getElem {p : Pattern} {r : Nat} (h : r < p.rows.size) : p.row r = p.rows[r] := by
  simp [row, h]

/-- A row with an entry is one of the rows. -/
theorem WellFormed.lt_nrows {p : Pattern} (hp : p.WellFormed) {r c : Nat} (h : c ∈ p.row r) :
    r < p.nrows := by
  by_contra hr
  rw [row_of_size_le (by rw [hp.size_rows]; omega)] at h
  cases h

theorem WellFormed.contains_iff {p : Pattern} (hp : p.WellFormed) {r c : Nat} :
    p.contains r c = true ↔ c ∈ p.row r := isFound_iff (hp.increasing r)

theorem mem_entries {p : Pattern} {r c : Nat} : (r, c) ∈ p.entries ↔ c ∈ p.row r := by
  simp only [entries, List.mem_flatMap, List.mem_map, Prod.exists, Prod.mk.injEq]
  constructor
  · rintro ⟨cols, i, hi, c', hc', rfl, rfl⟩
    obtain ⟨-, hlt, hcols⟩ := List.mem_zipIdx hi
    have hlt' : i < p.rows.size := by simpa using hlt
    rw [row_eq_getElem hlt']
    simpa [hcols] using hc'
  · intro h
    by_cases hr : r < p.rows.size
    · rw [row_eq_getElem hr] at h
      refine ⟨p.rows[r], r, ?_, c, h, rfl, rfl⟩
      rw [List.mk_mem_zipIdx_iff_getElem?]
      simp [hr]
    · rw [row_of_size_le (by omega)] at h
      cases h

/-! ### Columns -/

private theorem getD_foldl_columns (es : List (Nat × Nat)) (cols : Array (List Nat)) :
    (es.foldl (fun cols e => cols.modify e.2 (· ++ [e.1])) cols).size = cols.size ∧
      ∀ c < cols.size, (es.foldl (fun cols e => cols.modify e.2 (· ++ [e.1])) cols).getD c [] =
        cols.getD c [] ++ (es.filter fun e => e.2 = c).map Prod.fst := by
  induction es generalizing cols with
  | nil => simp
  | cons e es ih =>
    obtain ⟨hsize, hget⟩ := ih (cols.modify e.2 (· ++ [e.1]))
    refine ⟨by simpa using hsize, fun c hc => ?_⟩
    rw [List.foldl_cons, hget c (by simpa using hc)]
    simp only [Array.getD_eq_getD_getElem?, Array.getElem?_modify]
    by_cases h : e.2 = c
    · simp [h, hc]
    · simp [h]

@[simp] theorem size_columns (p : Pattern) : p.columns.size = p.ncols := by
  simpa [columns] using (getD_foldl_columns p.entries (Array.replicate p.ncols [])).1

/-- A column lists the rows of its entries. -/
theorem getD_columns {p : Pattern} {c : Nat} (hc : c < p.ncols) :
    p.columns.getD c [] = (p.entries.filter fun e => e.2 = c).map Prod.fst := by
  have h := (getD_foldl_columns p.entries (Array.replicate p.ncols [])).2 c (by simpa using hc)
  rw [columns, h]
  simp [hc]

theorem mem_columns {p : Pattern} {r c : Nat} (hc : c < p.ncols) :
    r ∈ p.columns.getD c [] ↔ c ∈ p.row r := by
  rw [← mem_entries, getD_columns hc]
  simp

/-- The entries row by row, with the rows counted. -/
theorem WellFormed.entries_eq {p : Pattern} (hp : p.WellFormed) :
    p.entries = (List.range p.nrows).flatMap fun r => (p.row r).map fun c => (r, c) := by
  have hzip : p.rows.toList.zipIdx = (List.range p.nrows).map fun r => (p.row r, r) := by
    refine List.ext_getElem (by simp [hp.size_rows]) fun r h1 h2 => ?_
    have hr : r < p.rows.size := by simpa using h1
    simp [row_eq_getElem hr]
  rw [entries, hzip, List.flatMap_map]

/-- **A column lists the rows with an entry in it**, in increasing order. -/
theorem WellFormed.columns_eq {p : Pattern} (hp : p.WellFormed) {c : Nat} (hc : c < p.ncols) :
    p.columns.getD c [] = (List.range p.nrows).filter fun r => c ∈ p.row r := by
  have hrow : ∀ r, (((p.row r).map fun k => (r, k)).filter fun e => e.2 = c).map Prod.fst =
      if c ∈ p.row r then [r] else [] := by
    intro r
    have hcount : (p.row r).count c = if c ∈ p.row r then 1 else 0 :=
      (nodup_of_increasing (hp.increasing r)).count
    rw [List.filter_map, List.map_map]
    simp only [Function.comp_def, List.filter_eq, List.map_replicate, hcount]
    split_ifs <;> rfl
  rw [getD_columns hc, hp.entries_eq]
  induction List.range p.nrows with
  | nil => rfl
  | cons r rs ih =>
    rw [List.flatMap_cons, List.filter_append, List.map_append, hrow, ih, List.filter_cons]
    split_ifs <;> simp_all

theorem WellFormed.pairwise_columns {p : Pattern} (hp : p.WellFormed) {c : Nat} (hc : c < p.ncols) :
    (p.columns.getD c []).Pairwise (· < ·) := by
  rw [hp.columns_eq hc]
  exact List.pairwise_lt_range.filter _

/-! ### Making patterns -/

@[simp] theorem row_empty (nrows ncols r : Nat) : (empty nrows ncols).row r = [] := by
  by_cases hr : r < nrows <;> simp [row, empty, hr]

theorem wellFormed_empty (nrows ncols : Nat) : (empty nrows ncols).WellFormed where
  size_rows := by simp [empty]
  increasing r := by simp
  lt_ncols r c hc := by simp at hc

theorem row_insert {p : Pattern} {r c : Nat} (hr : r < p.rows.size) (i : Nat) :
    (p.insert r c).row i = if r = i then insertSorted c (p.row i) else p.row i := by
  simp only [row, insert, Array.getD_eq_getD_getElem?, Array.getElem?_modify]
  split_ifs with h
  · subst h
    simp [hr]
  · rfl

theorem WellFormed.insert {p : Pattern} (hp : p.WellFormed) {r c : Nat} (hr : r < p.nrows)
    (hc : c < p.ncols) : (p.insert r c).WellFormed := by
  have hrow := row_insert (p := p) (c := c) (hp.size_rows ▸ hr)
  refine ⟨by simpa [Pattern.insert] using hp.size_rows, fun i => ?_, fun i c' hc' => ?_⟩
  · rw [hrow]
    split_ifs
    · exact pairwise_insertSorted (hp.increasing i)
    · exact hp.increasing i
  · rw [hrow] at hc'
    split_ifs at hc'
    · rcases mem_insertSorted.1 hc' with rfl | h
      · exact hc
      · exact hp.lt_ncols i c' h
    · exact hp.lt_ncols i c' hc'

/-- What putting entries into a pattern does: the shape stays, and the entries are those that were
there and those that are put in. -/
theorem WellFormed.insertAll {p q : Pattern} (hp : p.WellFormed) {es : List (Nat × Nat)}
    (h : p.insertAll es = .ok q) :
    q.WellFormed ∧ (q.nrows = p.nrows ∧ q.ncols = p.ncols) ∧
      ∀ r c, c ∈ q.row r ↔ (r, c) ∈ es ∨ c ∈ p.row r := by
  induction es generalizing p with
  | nil =>
    cases h
    simp [hp]
  | cons e es ih =>
    obtain ⟨r, c⟩ := e
    unfold Pattern.insertAll at h
    split_ifs at h with hout
    have hr : r < p.nrows := by omega
    have hc : c < p.ncols := by omega
    obtain ⟨hq, hshape, hmem⟩ := ih (hp.insert hr hc) h
    refine ⟨hq, hshape, fun r' c' => ?_⟩
    rw [hmem, row_insert (hp.size_rows ▸ hr), List.mem_cons, Prod.mk.injEq]
    split_ifs with heq
    · subst heq
      rw [mem_insertSorted]
      tauto
    · constructor
      · tauto
      · rintro ((⟨h1, -⟩ | h2) | h3)
        · exact absurd h1.symm heq
        · exact .inl h2
        · exact .inr h3

/-- **A pattern made from entries is well formed**, has the shape that was asked for, and has these
entries. -/
theorem wellFormed_of_ofEntries {nrows ncols : Nat} {es : List (Nat × Nat)} {p : Pattern}
    (h : ofEntries nrows ncols es = .ok p) :
    p.WellFormed ∧ (p.nrows = nrows ∧ p.ncols = ncols) ∧ ∀ r c, c ∈ p.row r ↔ (r, c) ∈ es := by
  obtain ⟨hp, hshape, hmem⟩ := (wellFormed_empty nrows ncols).insertAll h
  exact ⟨hp, hshape, fun r c => by simpa using hmem r c⟩

theorem insertAll_eq_ok {p : Pattern} {es : List (Nat × Nat)}
    (h : ∀ e ∈ es, e.1 < p.nrows ∧ e.2 < p.ncols) : ∃ q, p.insertAll es = .ok q := by
  induction es generalizing p with
  | nil => exact ⟨p, rfl⟩
  | cons e es ih =>
    obtain ⟨hr, hc⟩ := h e (by simp)
    obtain ⟨q, hq⟩ := ih (p := p.insert e.1 e.2) fun e' he' => h e' (by simp [he'])
    refine ⟨q, ?_⟩
    unfold Pattern.insertAll
    rw [if_neg (by omega)]
    exact hq

/-- Two increasing lists with the same members are equal. -/
theorem eq_of_increasing {l m : List Nat} (hl : l.Pairwise (· < ·)) (hm : m.Pairwise (· < ·))
    (h : ∀ x, x ∈ l ↔ x ∈ m) : l = m :=
  List.Perm.eq_of_pairwise (fun _ _ _ _ hab hba => absurd hab hba.not_gt) hl hm
    ((List.perm_ext_iff_of_nodup (nodup_of_increasing hl) (nodup_of_increasing hm)).2 h)

/-- Well-formed patterns of one shape with the same entries are equal. -/
theorem WellFormed.ext {p q : Pattern} (hp : p.WellFormed) (hq : q.WellFormed)
    (hr : p.nrows = q.nrows) (hc : p.ncols = q.ncols) (h : ∀ r c, c ∈ p.row r ↔ c ∈ q.row r) :
    p = q := by
  have hrows : p.rows = q.rows := by
    refine Array.ext (by rw [hp.size_rows, hq.size_rows, hr]) fun i h1 h2 => ?_
    rw [← row_eq_getElem h1, ← row_eq_getElem h2]
    exact eq_of_increasing (hp.increasing i) (hq.increasing i) (h i)
  cases p
  cases q
  simp_all

/-- **Every well-formed pattern can be made**: it is the pattern of its own entries. -/
theorem WellFormed.ofEntries_entries {p : Pattern} (hp : p.WellFormed) :
    ofEntries p.nrows p.ncols p.entries = .ok p := by
  have hin : ∀ e ∈ p.entries, e.1 < (empty p.nrows p.ncols).nrows ∧
      e.2 < (empty p.nrows p.ncols).ncols := by
    intro e he
    have hmem := mem_entries.1 he
    exact ⟨hp.lt_nrows hmem, hp.lt_ncols _ _ hmem⟩
  obtain ⟨q, hq⟩ := insertAll_eq_ok hin
  obtain ⟨hwf, ⟨hr, hc⟩, hmem⟩ := wellFormed_of_ofEntries hq
  rw [ofEntries, hq, hwf.ext hp hr hc fun r c => by rw [hmem, mem_entries]]

section

variable {α : Type} [Scalar α]

/-- The rows of a pattern made from a dense matrix. -/
theorem row_of_ofDense {nrows ncols : Nat} {values : Array α} {tol : α} {p : Pattern}
    (h : ofDense nrows ncols values tol = .ok p) (r : Nat) :
    p.row r = if r < nrows then (List.range ncols).filter fun c => decide (tol < Scalar.abs
      (Vec.entry values (r * ncols + c))) else [] := by
  simp only [ofDense] at h
  split_ifs at h
  cases h
  simp only [row, Vec.tabulate]
  by_cases hr : r < nrows <;> simp [hr]

/-- A pattern made from a dense matrix is well formed and has the shape that was asked for. -/
theorem wellFormed_of_ofDense {nrows ncols : Nat} {values : Array α} {tol : α} {p : Pattern}
    (h : ofDense nrows ncols values tol = .ok p) :
    p.WellFormed ∧ p.nrows = nrows ∧ p.ncols = ncols := by
  have hrow := row_of_ofDense h
  simp only [ofDense] at h
  split_ifs at h
  cases h
  refine ⟨⟨by simp, fun r => ?_, fun r c hc => ?_⟩, rfl, rfl⟩
  · rw [hrow]
    split_ifs
    · exact List.pairwise_lt_range.filter _
    · exact List.Pairwise.nil
  · rw [hrow] at hc
    split_ifs at hc
    · exact List.mem_range.1 (List.mem_filter.1 hc).1
    · cases hc

end

end Pattern

end Mdao
