import Mathlib
import Mdao.Linear.Solver
import Mdao.Proofs.Linear.Exact

/-!
# Elimination is exact

Without rounding, a matrix that is eliminated with pivots that are not zero is nonsingular, and the
stages of its elimination solve every system with it, and in reverse every system with its
transpose, wherever the groups of unknowns start (`Factors.inner_solveStages`,
`Factors.against_solveStagesTransposed`). The induction is on the number of rows: a stage takes one
row and one column away (`Factors.eliminate_succ`), and an exchange of rows is undone by the same
exchange.

So direct solves with a matrix are exact (`Direct.solvesExactly_of_regular`), unless its factors count
as singular, and then each of them says so (`Direct.setup_of_singular`).
-/

namespace Mdao

open Vec Matrix

namespace Factors

/-! ### Exchanges -/

section Exchange

variable {β γ : Type}

theorem exchange_map (f : β → γ) (i : Nat) (l : List β) :
    exchange i (l.map f) = (exchange i l).map f := by
  cases l with
  | nil => rfl
  | cons x rest =>
    cases i with
    | zero => rfl
    | succ k => cases h : rest[k]? <;> simp [exchange, h, List.map_set]

/-- An exchange is undone by the same exchange. -/
@[simp] theorem exchange_exchange (i : Nat) (l : List β) : exchange i (exchange i l) = l := by
  cases l with
  | nil => rfl
  | cons x rest =>
    cases i with
    | zero => rfl
    | succ k =>
      cases h : rest[k]? with
      | none => simp [exchange, h]
      | some y =>
        obtain ⟨hk, hy⟩ := List.getElem?_eq_some_iff.1 h
        have hset : (rest.set k x)[k]? = some x := by simp [hk]
        simp only [exchange, h, hset, List.set_set]
        rw [← hy, List.set_getElem_self]

theorem perm_exchange (i : Nat) (l : List β) : (exchange i l).Perm l := by
  cases l with
  | nil => exact .refl _
  | cons x rest =>
    cases i with
    | zero => exact .refl _
    | succ k =>
      cases h : rest[k]? with
      | none => simp [exchange, h]
      | some y =>
        obtain ⟨hk, rfl⟩ := List.getElem?_eq_some_iff.1 h
        simp only [exchange, h]
        exact (((List.set_perm_cons_eraseIdx hk x).cons _).trans (.swap _ _ _)).trans
          ((List.getElem_cons_eraseIdx_perm hk).cons x)

@[simp] theorem length_exchange (i : Nat) (l : List β) : (exchange i l).length = l.length :=
  (perm_exchange i l).length_eq

theorem exchange_zip (i : Nat) {a : List β} {b : List γ} (h : a.length = b.length) :
    (exchange i a).zip (exchange i b) = exchange i (a.zip b) := by
  have ha : exchange i a = (exchange i (a.zip b)).map Prod.fst := by
    rw [← exchange_map, List.map_fst_zip h.le]
  have hb : exchange i b = (exchange i (a.zip b)).map Prod.snd := by
    rw [← exchange_map, List.map_snd_zip h.ge]
  rw [ha, hb, List.zip_map', List.map_id'' fun _ => rfl]

end Exchange

variable {α : Type} [ExactScalar α]

/-! ### Products -/

/-- The sum of the products of corresponding entries. -/
def inner (a b : List α) : α := ((a.zip b).map fun e => e.1 * e.2).sum

@[simp] theorem inner_cons (x y : α) (a b : List α) :
    inner (x :: a) (y :: b) = x * y + inner a b := rfl

theorem subtractTerms_eq (x : α) (terms : List (Term α)) :
    subtractTerms x terms = x - (terms.map fun t => t.1 * t.2).sum := by
  induction terms generalizing x with
  | nil => exact (sub_zero x).symm
  | cons t terms ih =>
    rw [List.map_cons, List.sum_cons, ← sub_sub]
    exact ih _

theorem subtractProducts_eq (x : α) (a b : List α) : subtractProducts x a b = x - inner a b :=
  subtractTerms_eq x _

theorem foldl_add (x : α) (l : List α) : l.foldl (· + ·) x = x + l.sum := by
  induction l generalizing x with
  | nil => exact (add_zero x).symm
  | cons y l ih => rw [List.foldl_cons, ih, List.sum_cons, add_assoc]

/-- It does not matter that each summand is divided on its own. -/
theorem quotient_eq (pivot b : α) (terms : List (Term α)) :
    quotient pivot b terms = subtractTerms b terms * (1 / pivot) := by
  have hsum : quotient pivot b terms =
      b * (1 / pivot) + (terms.map fun t => -t.1 * (1 / pivot) * t.2).sum := by
    unfold quotient
    match terms with
    | [] => simp
    | [t] => simp
    | t :: u :: rest => simp only [List.map_cons, List.sum_cons, foldl_add, add_assoc]
  have hterm : ∀ t : Term α, -t.1 * (1 / pivot) * t.2 = -(1 / pivot) * (t.1 * t.2) := by
    intro t
    ring
  rw [hsum, subtractTerms_eq, List.map_congr_left fun t _ => hterm t, List.sum_map_mul_left]
  ring

/-- A right-hand side less all of its products. -/
def Pending.amount (p : Pending α) : α := subtractTerms p.value p.terms

@[simp] theorem Pending.amount_of (b : α) : (Pending.of b).amount = b := rfl

@[simp] theorem Pending.amount_settled (p : Pending α) : p.settled.amount = p.amount := rfl

@[simp] theorem Pending.amount_add (p : Pending α) (c y : α) :
    (p.add c y).amount = p.amount - c * y := by
  simp [Pending.amount, Pending.add, subtractTerms]

/-- A sum of products does not change when a multiple of one factor is taken off the other. -/
theorem inner_subtractScaled {r row : List α} (h : r.length = row.length) (c : α) (x : List α) :
    inner (subtractScaled r c row) x = inner r x - c * inner row x := by
  induction r generalizing row x with
  | nil =>
    obtain rfl := List.length_eq_zero_iff.1 h.symm
    simp [subtractScaled, inner]
  | cons a r ih =>
    cases row with
    | nil => simp at h
    | cons b row =>
      cases x with
      | nil => simp [inner]
      | cons v x =>
        have htail := ih (by simpa using h) x
        simp only [subtractScaled, List.zipWith_cons_cons, inner_cons] at htail ⊢
        rw [htail]
        ring

theorem inner_map_mul (c : α) (r x : List α) : inner (r.map (· * c)) x = c * inner r x := by
  rw [inner, List.zip_map_left, List.map_map, inner, ← List.sum_map_mul_left]
  refine congrArg List.sum (List.map_congr_left fun e _ => ?_)
  simp only [Function.comp_apply, Prod.map_fst, Prod.map_snd, id_eq]
  ring

/-- The product of a column of a matrix, given by its rows, with a vector. -/
def against (rows : List (List α)) (x : List α) (j : Nat) : α :=
  ((rows.zip x).map fun e => e.1.getD j 0 * e.2).sum

theorem against_exchange (i j : Nat) {rows : List (List α)} {x : List α}
    (h : rows.length = x.length) :
    against (exchange i rows) (exchange i x) j = against rows x j := by
  rw [against, exchange_zip i h]
  exact ((perm_exchange i _).map _).sum_eq

/-! ### One stage -/

/-- A list of rows of a square matrix. -/
structure Square (n : Nat) (rows : List (List α)) : Prop where
  length : rows.length = n
  row : ∀ r ∈ rows, r.length = n

/-- What is left of the rows below the pivot, each given by its first entry and the others. -/
def reduced (row : List α) (below : List (α × List α)) : List (List α) :=
  below.map fun b => subtractScaled b.2 b.1 row

/-- **One stage of an elimination** takes the first column and a row with the pivot away. -/
theorem eliminate_succ {n : Nat} {rows : List (List α)} (h : Square (n + 1) rows) :
    ∃ (i : Nat) (a : α) (t : List α) (below : List (α × List α)),
      exchange i rows = (a :: t) :: below.map (fun b => b.1 :: b.2) ∧
      t.length = n ∧ below.length = n ∧ (∀ b ∈ below, b.2.length = n) ∧
      Square n (reduced (t.map (· * (1 / a))) below) ∧
      eliminate (n + 1) rows = ⟨i, a, t.map (· * (1 / a)), below.map Prod.fst⟩ ::
        eliminate n (reduced (t.map (· * (1 / a))) below) := by
  let i := pivotIndex (rows.map fun r => r.headD 0)
  have hlength : (exchange i rows).length = n + 1 := (length_exchange i rows).trans h.length
  have hrow : ∀ r ∈ exchange i rows, r.length = n + 1 := fun r hr =>
    h.row r ((perm_exchange i rows).mem_iff.1 hr)
  obtain ⟨top, others, hexchange⟩ := List.exists_cons_of_length_eq_add_one hlength
  rw [hexchange] at hlength hrow
  obtain ⟨a, t, rfl⟩ := List.exists_cons_of_length_eq_add_one (hrow top List.mem_cons_self)
  have hbelow : others = (others.map fun r => (r.headD 0, r.tail)).map fun b => b.1 :: b.2 := by
    rw [List.map_map]
    refine (List.map_id' others).symm.trans (List.map_congr_left fun r hr => ?_)
    obtain ⟨b, s, rfl⟩ := List.exists_cons_of_length_eq_add_one (hrow r (List.mem_cons_of_mem _ hr))
    rfl
  have ht : t.length = n := by simpa using hrow _ List.mem_cons_self
  have htails : ∀ b ∈ others.map fun r => (r.headD 0, r.tail), b.2.length = n := by
    intro b hb
    obtain ⟨r, hr, rfl⟩ := List.mem_map.1 hb
    simp [hrow r (List.mem_cons_of_mem _ hr)]
  have hcount : others.length = n := by simpa using hlength
  refine ⟨i, a, t, others.map fun r => (r.headD 0, r.tail), by rw [hexchange, ← hbelow], ht,
    by simpa using hcount, htails, ⟨by simpa [reduced] using hcount, fun r hr => ?_⟩, ?_⟩
  · obtain ⟨b, hb, rfl⟩ := List.mem_map.1 hr
    simp [subtractScaled, htails b hb, ht]
  · rw [eliminate]
    simp only [show pivotIndex (rows.map fun r => r.headD 0) = i from rfl, hexchange]
    simp [reduced, List.map_map, Function.comp_def]

/-! ### Solving with the matrix -/

/-- Corresponding entries of a mapped list and of one that is combined with it. -/
theorem forall₂_of_map_zipWith {β γ δ ε ζ : Type} {P : β → Prop} {S : ε → ζ → Prop} {f : β → ε}
    {g : γ → δ → ζ} {k : β → δ} {bs : List β} {cs : List γ} (hlength : bs.length = cs.length)
    (hP : ∀ b ∈ bs, P b) (h : List.Forall₂ S (bs.map f) (List.zipWith g cs (bs.map k))) :
    List.Forall₂ (fun b c => P b ∧ S (f b) (g c (k b))) bs cs := by
  induction bs generalizing cs with
  | nil =>
    obtain rfl := List.length_eq_zero_iff.1 hlength.symm
    exact .nil
  | cons b bs ih =>
    cases cs with
    | nil => simp at hlength
    | cons c cs =>
      simp only [List.map_cons, List.zipWith_cons_cons, List.forall₂_cons] at h
      exact .cons ⟨hP b List.mem_cons_self, h.1⟩
        (ih (by simpa using hlength) (fun b hb => hP b (List.mem_cons_of_mem _ hb)) h.2)

/-- Corresponding entries stay so when both lists are exchanged. -/
theorem forall₂_exchange {β γ : Type} {R : β → γ → Prop} (i : Nat) {a : List β} {b : List γ}
    (h : List.Forall₂ R a b) : List.Forall₂ R (exchange i a) (exchange i b) := by
  obtain ⟨hlength, hzip⟩ := List.forall₂_iff_zip.1 h
  refine List.forall₂_iff_zip.2 ⟨by simpa using hlength, fun hmem => ?_⟩
  rw [exchange_zip i hlength] at hmem
  exact hzip ((perm_exchange i _).mem_iff.1 hmem)

/-- It is enough to look at rows and right-hand sides after an exchange, and it does not matter
whether a group starts there, which only tells which products are subtracted first. -/
theorem forall₂_of_exchanged {β : Type} {R : β → α → Prop} (i : Nat) (starts : Bool) {rows : List β}
    {b : List (Pending α)} (h : List.Forall₂ (fun r p => R r (Pending.amount p)) (exchange i rows)
      (exchange i (if starts then b.map Pending.settled else b))) :
    List.Forall₂ (fun r p => R r (Pending.amount p)) rows b := by
  have hamount : (if starts then b.map Pending.settled else b).map Pending.amount =
      b.map Pending.amount := by
    cases starts
    · rfl
    · exact List.map_map.trans (List.map_congr_left fun p _ => p.amount_settled)
  have hsame := forall₂_exchange i h
  rw [exchange_exchange, exchange_exchange] at hsame
  refine List.forall₂_map_right_iff.1 ?_
  rw [← hamount]
  exact List.forall₂_map_right_iff.2 hsame

/-- The unknown of a pivot takes what all products leave. -/
theorem mul_quotient_pending {a : α} (ha : a ≠ 0) (p : Pending α) :
    a * quotient a p.value p.terms = p.amount := by
  rw [quotient_eq, Pending.amount]
  field_simp

/-- **The stages solve with the matrix**: the product of each row with the unknowns is its
right-hand side. -/
theorem inner_solveStages {n : Nat} {rows : List (List α)} (h : Square n rows)
    (hpivot : ∀ s ∈ eliminate n rows, s.pivot ≠ 0) {starts : List Bool} (hstarts : starts.length = n)
    {b : List (Pending α)} (hb : b.length = n) :
    (solveStages (starts.zip (eliminate n rows)) b).length = n ∧
      List.Forall₂ (fun r p => inner r (solveStages (starts.zip (eliminate n rows)) b) = p.amount)
        rows b := by
  induction n generalizing rows starts b with
  | zero =>
    obtain rfl := List.length_eq_zero_iff.1 h.length
    obtain rfl := List.length_eq_zero_iff.1 hb
    exact ⟨by simp [eliminate, solveStages], .nil⟩
  | succ n ih =>
    obtain ⟨i, a, t, below, hexchange, ht, hbelow, htails, hsquare, heliminate⟩ := eliminate_succ h
    rw [heliminate] at hpivot ⊢
    obtain ⟨s, starts, rfl⟩ := List.exists_cons_of_length_eq_add_one hstarts
    have ha : a ≠ 0 := hpivot _ List.mem_cons_self
    let b' := if s then b.map Pending.settled else b
    have hb' : (exchange i b').length = n + 1 := by
      rw [length_exchange, ← hb]
      cases s <;> simp [b']
    obtain ⟨top, others, hothers⟩ := List.exists_cons_of_length_eq_add_one hb'
    have hcount : others.length = n := by
      rw [hothers] at hb'
      simpa using hb'
    let row := t.map (· * (1 / a))
    let y := quotient a top.value top.terms
    let x := solveStages (starts.zip (eliminate n (reduced row below)))
      (List.zipWith (fun p c => p.add c y) others (below.map Prod.fst))
    have hsolve : solveStages ((s :: starts).zip (⟨i, a, row, below.map Prod.fst⟩ ::
        eliminate n (reduced row below))) b = subtractProducts y row x :: x := by
      simp only [List.zip_cons_cons, solveStages]
      rw [show (if s = true then b.map Pending.settled else b) = b' from rfl, hothers]
    obtain ⟨hx, hrest⟩ := ih hsquare (fun s hs => hpivot s (List.mem_cons_of_mem _ hs))
      (by simpa using hstarts)
      (show (List.zipWith (fun p c => Pending.add p c y) others (below.map Prod.fst)).length = n by
        simp [hcount, hbelow])
    rw [hsolve]
    refine ⟨congrArg (· + 1) hx, ?_⟩
    have hrow : inner row x = 1 / a * inner t x := inner_map_mul _ _ _
    have hy : a * y = top.amount := mul_quotient_pending ha top
    refine forall₂_of_exchanged i s ?_
    rw [hexchange, show exchange i (if s then b.map Pending.settled else b) = _ from hothers]
    refine .cons ?_ (List.forall₂_map_left_iff.2 (List.Forall₂.imp ?_
      (forall₂_of_map_zipWith (hbelow.trans hcount.symm) htails hrest)))
    · rw [inner_cons, subtractProducts_eq, hrow, mul_sub, hy]
      field_simp
      ring
    · rintro c p ⟨hc, hinner⟩
      rw [inner_subtractScaled (by simp [hc, ht]), Pending.amount_add] at hinner
      rw [inner_cons, subtractProducts_eq]
      linear_combination hinner

/-! ### Solving with the transposed matrix -/

theorem sum_filter_flags (l : List (α × Solved α)) (c : Bool) :
    (((l.filter fun t => t.2.1 == c).map fun t => (t.1, t.2.2)).map fun t => t.1 * t.2).sum =
      (l.map fun t => if t.2.1 == c then t.1 * t.2.2 else 0).sum := by
  induction l with
  | nil => rfl
  | cons t l ih =>
    rw [List.filter_cons]
    split_ifs with h
    · simp only [List.map_cons, List.sum_cons, h, if_true] at ih ⊢
      rw [ih]
    · simp only [List.map_cons, List.sum_cons, h, Bool.false_eq_true, if_false, zero_add] at ih ⊢
      exact ih

/-- It does not matter which products belong to the group. -/
theorem sum_flags (l : List (α × Solved α)) :
    (((l.filter fun t => t.2.1 == false).map fun t => (t.1, t.2.2)).map fun t => t.1 * t.2).sum +
      (((l.filter fun t => t.2.1 == true).map fun t => (t.1, t.2.2)).map fun t => t.1 * t.2).sum =
      (l.map fun t => t.1 * t.2.2).sum := by
  rw [sum_filter_flags, sum_filter_flags, ← List.sum_map_add]
  refine congrArg List.sum (List.map_congr_left fun t _ => ?_)
  cases t.2.1 <;> simp

/-- The unknown of a pivot takes what the products with the other unknowns leave. -/
theorem mul_quotient {a : α} (ha : a ≠ 0) (top : α) (l : List (α × Solved α)) :
    a * quotient a
      (subtractTerms top ((l.filter fun t => t.2.1 == false).map fun t => (t.1, t.2.2)))
      ((l.filter fun t => t.2.1 == true).map fun t => (t.1, t.2.2)) =
      top - (l.map fun t => t.1 * t.2.2).sum := by
  rw [quotient_eq, subtractTerms_eq, subtractTerms_eq, sub_sub, sum_flags]
  field_simp

/-- The product of the first column below the pivot with the unknowns. -/
def headSum (below : List (α × List α)) (x : List α) : α :=
  ((below.zip x).map fun e => e.1.1 * e.2).sum

/-- The product of another column below the pivot with the unknowns. -/
def tailSum (below : List (α × List α)) (x : List α) (j : Nat) : α :=
  ((below.zip x).map fun e => e.1.2.getD j 0 * e.2).sum

/-- The products of the first column with unknowns that are flagged. -/
theorem sum_products (below : List (α × List α)) (solved : List (Solved α)) :
    (((below.map Prod.fst).zip solved).map fun t => t.1 * t.2.2).sum =
      headSum below (solved.map Prod.snd) := by
  rw [headSum, List.zip_map_right, List.zip_map_left, List.map_map, List.map_map]
  rfl

theorem against_cons (a y : α) (t x : List α) (below : List (α × List α)) (j : Nat) :
    against ((a :: t) :: below.map fun b => b.1 :: b.2) (y :: x) j =
      match j with
      | 0 => a * y + headSum below x
      | k + 1 => t.getD k 0 * y + tailSum below x k := by
  rw [against, List.zip_cons_cons, List.map_cons, List.sum_cons, List.zip_map_left, List.map_map]
  cases j <;> rfl

theorem getD_zipWith (g : α → α → α) {x y : List α} {n j : Nat} (hx : x.length = n)
    (hy : y.length = n) (hj : j < n) :
    (List.zipWith g x y).getD j 0 = g (x.getD j 0) (y.getD j 0) := by
  have hlt : j < (List.zipWith g x y).length := by
    simpa [hx, hy] using hj
  rw [List.getD_eq_getElem _ _ hlt, List.getD_eq_getElem _ _ (hx.symm ▸ hj),
    List.getD_eq_getElem _ _ (hy.symm ▸ hj), List.getElem_zipWith]

theorem against_reduced {row : List α} {below : List (α × List α)} {n j : Nat}
    (hrow : row.length = n) (hbelow : ∀ b ∈ below, b.2.length = n) (hj : j < n) (x : List α) :
    against (reduced row below) x j + row.getD j 0 * headSum below x = tailSum below x j := by
  rw [against, reduced, List.zip_map_left, List.map_map, headSum, ← List.sum_map_mul_left,
    ← List.sum_map_add]
  refine congrArg List.sum (List.map_congr_left fun e he => ?_)
  simp only [Function.comp_apply, Prod.map_fst, Prod.map_snd, id_eq,
    subtractScaled, getD_zipWith _ (hbelow _ (List.of_mem_zip he).1) hrow hj]
  ring

/-- **The stages solve with the transposed matrix**: the product of each column with the unknowns is
its right-hand side. -/
theorem against_solveStagesTransposed {n : Nat} {rows : List (List α)} (h : Square n rows)
    (hpivot : ∀ s ∈ eliminate n rows, s.pivot ≠ 0) {starts : List Bool} (hstarts : starts.length = n)
    {b : List α} (hb : b.length = n) :
    (solveStagesTransposed (starts.zip (eliminate n rows)) b).length = n ∧ ∀ j < n,
      against rows ((solveStagesTransposed (starts.zip (eliminate n rows)) b).map Prod.snd) j =
        b.getD j 0 := by
  induction n generalizing rows starts b with
  | zero => exact ⟨by simp [eliminate, solveStagesTransposed], nofun⟩
  | succ n ih =>
    obtain ⟨i, a, t, below, hexchange, ht, hbelow, htails, hsquare, heliminate⟩ := eliminate_succ h
    rw [heliminate] at hpivot ⊢
    obtain ⟨s, starts, rfl⟩ := List.exists_cons_of_length_eq_add_one hstarts
    obtain ⟨top, others, rfl⟩ := List.exists_cons_of_length_eq_add_one hb
    have ha : a ≠ 0 := hpivot _ List.mem_cons_self
    have hothers : others.length = n := by simpa using hb
    let row := t.map (· * (1 / a))
    have hrow : row.length = n := by simp [row, ht]
    let found := solveStagesTransposed (starts.zip (eliminate n (reduced row below)))
      (List.zipWith (fun v r => v - r * top) others row)
    let flagged := if s then found.map fun e => (false, e.2) else found
    let x := found.map Prod.snd
    have hflagged : flagged.map Prod.snd = x := by
      cases s
      · rfl
      · exact List.map_map
    obtain ⟨hfound, hrest⟩ := ih hsquare (fun s hs => hpivot s (List.mem_cons_of_mem _ hs))
      (by simpa using hstarts)
      (show (List.zipWith (fun v r => v - r * top) others row).length = n by
        simp [hothers, hrow])
    have hx : x.length = n := (List.length_map _).trans hfound
    let products := (below.map Prod.fst).zip flagged
    let y := quotient a
      (subtractTerms top ((products.filter fun t => t.2.1 == false).map fun t => (t.1, t.2.2)))
      ((products.filter fun t => t.2.1 == true).map fun t => (t.1, t.2.2))
    have hsolve : (solveStagesTransposed ((s :: starts).zip (⟨i, a, row, below.map Prod.fst⟩ ::
        eliminate n (reduced row below))) (top :: others)).map Prod.snd =
        exchange i (y :: x) := by
      rw [← hflagged, ← List.map_cons (f := Prod.snd) (a := (true, y)), exchange_map]
      rfl
    have hy : a * y = top - headSum below x := by
      rw [← hflagged, ← sum_products]
      exact mul_quotient ha top products
    refine ⟨by rw [← List.length_map (f := Prod.snd), hsolve]; simpa using hx, fun j hj => ?_⟩
    have hrows : rows = exchange i ((a :: t) :: below.map fun b => b.1 :: b.2) := by
      rw [← hexchange, exchange_exchange]
    rw [hsolve, hrows, against_exchange i j (by simp [hbelow, hx]), against_cons]
    cases j with
    | zero =>
      show a * y + headSum below x = top
      rw [hy, sub_add_cancel]
    | succ j =>
      have hj' : j < n := Nat.lt_of_succ_lt_succ hj
      have hcolumn : against (reduced row below) x j = others.getD j 0 - row.getD j 0 * top :=
        (hrest j hj').trans (getD_zipWith _ hothers hrow hj')
      have hentry : t.getD j 0 = row.getD j 0 * a := by
        rw [List.getD_eq_getElem _ _ (ht.symm ▸ hj'), List.getD_eq_getElem _ _ (hrow.symm ▸ hj')]
        simp only [row, List.getElem_map]
        field_simp
      show t.getD j 0 * y + tailSum below x j = others.getD j 0
      rw [hentry, ← against_reduced hrow htails hj' x]
      linear_combination row.getD j 0 * hy + hcolumn

/-! ### Factors of a matrix -/

@[simp] theorem length_groupStarts (n : Nat) : (groupStarts n).length = n := by
  induction n using groupStarts.induct with
  | case1 n h => simp [groupStarts, h]
  | case2 n h ih1 ih2 =>
    rw [groupStarts, if_neg h, List.length_append, ih1, ih2]
    have : firstHalf n ≤ n := Nat.sub_le _ _
    omega

/-- The rows of a matrix. -/
def rowsOf {n : Nat} (M : Matrix (Fin n) (Fin n) α) : List (List α) :=
  List.ofFn fun i => List.ofFn (M i)

variable {n : Nat} {M : Matrix (Fin n) (Fin n) α}

omit [ExactScalar α] in
theorem square_rowsOf (M : Matrix (Fin n) (Fin n) α) : Square n (rowsOf M) := by
  refine ⟨List.length_ofFn, fun r hr => ?_⟩
  obtain ⟨i, rfl⟩ := List.mem_ofFn.1 hr
  exact List.length_ofFn

/-- A sum over the entries of a vector, each with something else. -/
theorem sum_zip_ofFn {β : Type} (f : Fin n → β) {x : List α} (hx : x.length = n)
    (g : β → α → α) : (((List.ofFn f).zip x).map fun e => g e.1 e.2).sum =
      ∑ k, g (f k) (toFun n x.toArray k) := by
  have hlist : ((List.ofFn f).zip x).map (fun e => g e.1 e.2) =
      List.ofFn fun k => g (f k) (toFun n x.toArray k) := by
    refine List.ext_getElem (by simp [hx]) fun k h1 h2 => ?_
    have hk : k < x.length := by
      rw [List.length_ofFn] at h2
      omega
    simp [toFun, entry_toArray, hk]
  rw [hlist, List.sum_ofFn]

theorem inner_ofFn (i : Fin n) {x : List α} (hx : x.length = n) :
    inner (List.ofFn (M i)) x = (M *ᵥ toFun n x.toArray) i :=
  sum_zip_ofFn (M i) hx (· * ·)

theorem against_rowsOf (j : Fin n) {x : List α} (hx : x.length = n) :
    against (rowsOf M) x j = (Mᵀ *ᵥ toFun n x.toArray) j := by
  rw [against, rowsOf, sum_zip_ofFn (fun i => List.ofFn (M i)) hx fun r v => r.getD j 0 * v]
  refine Finset.sum_congr rfl fun i _ => ?_
  simp

/-- **Factors that do not count as singular solve every system with the matrix**, and in reverse
with its transpose. -/
theorem solve_ofRows (hregular : (ofRows n (rowsOf M)).isSingular = false) (mode : Mode)
    {rhs : Array α} (hrhs : rhs.size = n) :
    ∃ x, (ofRows n (rowsOf M)).solve rhs mode = .ok x ∧ x.size = n ∧
      mode.along M *ᵥ toFun n x = toFun n rhs := by
  have hpivot : ∀ s ∈ eliminate n (rowsOf M), s.pivot ≠ 0 := by
    intro s hs hzero
    have hany := (Bool.or_eq_false_iff.1 hregular).2
    exact List.any_eq_false.1 hany s hs (beq_iff_eq.2 hzero)
  have hlist : rhs.toList.length = n := hrhs
  have hfinite : ∀ x : List α, x.all Scalar.isFinite = true := fun x =>
    List.all_eq_true.2 fun v _ => ExactScalar.isFinite_eq v
  have hsize : ¬ rhs.size ≠ (ofRows n (rowsOf M)).dim := fun h => h hrhs
  have hdim : (ofRows n (rowsOf M)).dim = n := rfl
  rw [solve, if_neg hsize, hregular, if_neg Bool.false_ne_true, hdim]
  cases mode with
  | fwd =>
    obtain ⟨hlength, hrows⟩ := inner_solveStages (square_rowsOf M) hpivot (length_groupStarts n)
      (b := rhs.toList.map Pending.of) (by simpa using hlist)
    refine ⟨_, if_pos (hfinite _), hlength, funext fun i => ?_⟩
    rw [List.forall₂_map_right_iff] at hrows
    have hi := List.Forall₂.get hrows (i := i) (by simp [rowsOf]) (by simp [hrhs])
    simp only [rowsOf, List.get_eq_getElem, List.getElem_ofFn, Fin.eta, Pending.amount_of] at hi
    refine (inner_ofFn i hlength).symm.trans (hi.trans ?_)
    rw [toFun, entry_eq_getElem (by rw [hrhs]; exact i.2)]
    rfl
  | rev =>
    have hstarts : (groupStarts n).reverse.length = n := by simp
    obtain ⟨hlength, hcolumns⟩ :=
      against_solveStagesTransposed (square_rowsOf M) hpivot hstarts hlist
    have hvalues : ((solveStagesTransposed ((groupStarts n).reverse.zip (eliminate n (rowsOf M)))
        rhs.toList).map Prod.snd).length = n := (List.length_map _).trans hlength
    refine ⟨_, if_pos (hfinite _), hvalues, funext fun j => ?_⟩
    refine (against_rowsOf j hvalues).symm.trans ((hcolumns j j.2).trans ?_)
    rw [toFun, ← entry_toArray, Array.toArray_toList]

/-- **A matrix whose factors do not count as singular is nonsingular.** -/
theorem det_ne_zero_of_regular (hregular : (ofRows n (rowsOf M)).isSingular = false) :
    M.det ≠ 0 := by
  have hsurjective : Function.Surjective M.mulVec := by
    intro b
    obtain ⟨x, -, -, hx⟩ := solve_ofRows hregular .fwd (size_ofFun b)
    exact ⟨toFun n x, by rw [← toFun_ofFun b]; exact hx⟩
  exact isUnit_iff_ne_zero.1 ((Matrix.isUnit_iff_isUnit_det M).1
    (Matrix.mulVec_surjective_iff_isUnit.1 hsurjective))

end Factors

/-! ### Direct solves -/

variable {α : Type} [ExactScalar α] {n : Nat} {J : Matrix (Fin n) (Fin n) α}

/-- The whole of a sparse matrix, as a diagonal block. -/
theorem Operator.blockOfMatrix_upTo (m : SparseMatrix α) (n : Nat) :
    blockOfMatrix m (.upTo n) = Factors.rowsOf (m.toMatrix n) := by
  rw [Jacobian.blockOfMatrix_eq]
  refine List.ext_getElem (by simp [Factors.rowsOf, Span.upTo, Span.size]) fun i h1 h2 =>
    List.ext_getElem (by simp [Factors.rowsOf, Span.upTo, Span.size]) fun j h3 h4 => ?_
  simp [Factors.rowsOf, Span.upTo, SparseMatrix.toMatrix]

namespace Direct

variable {op : Operator α}

/-- An operator that gives the rows of a matrix is factorized like this matrix. -/
theorem factorize_eq (hdim : op.dim = n)
    (hblock : op.diagonalBlock (.upTo op.dim) = .ok (Factors.rowsOf J)) :
    factorize op = .ok (.ofRows n (Factors.rowsOf J)) := by
  rw [factorize, hblock, hdim]

/-- Factors of a matrix that do not count as singular solve exactly. -/
theorem exists_solution_of_regular (hop : op.IsMatrix J)
    (hregular : (Factors.ofRows n (Factors.rowsOf J)).isSingular = false) (mode : Mode)
    (rhs : Array α) (hrhs : rhs.size = op.dim) :
    ∃ x, (Factors.ofRows n (Factors.rowsOf J)).solve rhs mode = .ok x ∧ x.size = op.dim ∧
      op.apply mode x = .ok rhs := by
  have hsize : rhs.size = n := hrhs.trans hop.dim
  obtain ⟨x, hx, hxsize, hproduct⟩ := Factors.solve_ofRows hregular mode hsize
  obtain ⟨y, hy, hysize, happly⟩ := hop.apply mode x
  refine ⟨x, hx, hxsize.trans hop.dim.symm, hy.trans (congrArg Except.ok ?_)⟩
  exact (eq_ofFun hysize (happly.trans hproduct)).trans (eq_ofFun hsize rfl).symm

/-- **Direct solves are exact unless the factors count as singular.** -/
theorem solvesExactly_of_regular (hop : op.IsMatrix J)
    (hblock : op.diagonalBlock (.upTo op.dim) = .ok (Factors.rowsOf J))
    (hregular : (Factors.ofRows n (Factors.rowsOf J)).isSingular = false) :
    LinearConfig.direct.SolvesExactly op :=
  solvesExactly (factorize_eq hop.dim hblock) hop.dim.symm (exists_solution_of_regular hop hregular)

/-- Factors that count as singular solve nothing. -/
theorem solve_of_singular {f : Factors α} (hdim : f.dim = op.dim) (hsingular : f.isSingular = true)
    {m : LinearMemory α} (hm : (LinearMemory.own m).factors = some f) (mode : Mode)
    {rhs : Array α} (hrhs : rhs.size = op.dim) :
    ∃ m', LinearConfig.direct.solve op mode rhs m = .error .singularJacobian m' := by
  have hfactors : f.solve rhs mode = .error .singularJacobian := by
    rw [Factors.solve, if_neg fun h => h (hrhs.trans hdim.symm), if_pos hsingular]
  have hsolve : Direct.solve op rhs mode (some f) = .error .singularJacobian (some f) := by
    have hwith : solveWith f op rhs mode = .error .singularJacobian := by
      rw [solveWith, hfactors]
      rfl
    simp only [Direct.solve, checkDim, hrhs, if_true, factorsFor, hdim, hwith]
  refine ⟨{ LinearMemory.own m with factors := some f } :: LinearMemory.preconditioner m, ?_⟩
  simp only [LinearConfig.solve, hm, hsolve]

/-- Where the factors count as singular, each solve finds them so. -/
theorem setup_of_singular (hop : op.IsMatrix J)
    (hblock : op.diagonalBlock (.upTo op.dim) = .ok (Factors.rowsOf J))
    (hsingular : (Factors.ofRows n (Factors.rowsOf J)).isSingular = true) :
    ∃ m, LinearConfig.direct.setup op .blank = .ok () m ∧ ∀ mode rhs, rhs.size = op.dim →
      ∃ m', LinearConfig.direct.solve op mode rhs m = .error .singularJacobian m' := by
  refine ⟨[{ LinearMemory.Cell.blank with factors := some (.ofRows n (Factors.rowsOf J)) }],
    ?_, fun mode rhs hrhs => solve_of_singular hop.dim.symm hsingular rfl mode hrhs⟩
  simp only [LinearConfig.setup, factorize_eq hop.dim hblock]
  rfl

end Direct

end Mdao
