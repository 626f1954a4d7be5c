import Mdao.Proofs.Linear.Triangular

/-!
# Fixed points of sweeps

A pass over blocks that starts from a solution finds in every block what is there, so it changes
nothing. Conversely the blocks are apart, so what a step writes stays to the end of the pass. When
the pass changes nothing, no step of it has changed anything, each block has been solved in view of
the same vector, and the equations of all blocks hold of it (`visit_eq_self_iff`).

So the fixed points of a sweep over all blocks of an operator are its solutions
(`sweep_eq_self_iff`), forward and in reverse, with the latest values of other blocks or with those
at the start.
-/

namespace Mdao

open Vec Matrix

variable {α : Type} [ExactScalar α] {n : Nat} {J : Matrix (Fin n) (Fin n) α} {op : Operator α}

namespace Diagonal

variable {kind : SweepKind} {rhs x : Array α} {mode : Mode} {d : Diagonal α}

omit [ExactScalar α] in
/-- At the start of a sweep both kinds see the same. -/
theorem seen_self (kind : SweepKind) (x : Array α) : kind.seen x x = x := by
  cases kind <;> rfl

/-- **A pass over blocks leaves a vector unchanged exactly when the equations of the blocks hold of
it.** -/
theorem visit_eq_self_iff (hop : op.IsMatrix J) {bs : List (Span × Nat)}
    (hbs : ∀ b ∈ bs, op.Solves b) (hapart : bs.Pairwise fun b c => ∀ k ∈ b.1, k ∉ c.1)
    (hx : x.size = n) (hd : d.Of op) :
    ∃ x' d', visit kind op rhs x mode bs x d = .ok x' d' ∧ d'.Of op ∧
      (x' = x ↔ ∀ b ∈ bs, ∀ i ∈ b.1, Holds (mode.along J) rhs x i) := by
  induction bs generalizing d with
  | nil => exact ⟨x, d, rfl, hd, by simp⟩
  | cons block bs ih =>
    have hblock := hbs block List.mem_cons_self
    have hrest : ∀ c ∈ bs, op.Solves c := fun c hc => hbs c (List.mem_cons_of_mem _ hc)
    have hinside : block.1.stop ≤ n := hop.dim ▸ hblock.inside
    obtain ⟨hlater, hapart⟩ := List.pairwise_cons.1 hapart
    obtain ⟨b, y, d1, hb, hsolve, hd1, hy⟩ := exists_blockSolution hop hblock rhs mode hx hd
    have hstep : visit kind op rhs x mode (block :: bs) x d =
        visit kind op rhs x mode bs (splice x block.1 y) d1 :=
      visit_step (by rwa [seen_self]) hsolve
    rw [hstep]
    by_cases hsame : splice x block.1 y = x
    · -- the first block has what it needs, and the rest of the pass starts from the same vector
      have hholds : ∀ i ∈ block.1, Holds (mode.along J) rhs x i := fun i hi => by
        simpa only [hsame] using hy.holds hinside hx hi
      rw [hsame, List.forall_mem_cons]
      simpa only [iff_true_intro hholds, true_and] using ih hrest hapart hd1
    · -- what the first step has changed stays changed
      obtain ⟨x', d', hvisit, hd', -, hkeep⟩ : ∃ x' d',
          visit kind op rhs x mode bs (splice x block.1 y) d1 = .ok x' d' ∧ d'.Of op ∧ x'.size = n ∧
            ∀ k, (∀ c ∈ bs, k ∉ c.1) → entry x' k = entry (splice x block.1 y) k :=
        visit_frame hop rhs hx mode hrest ((size_splice x block.1 y).trans hx) hd1
      refine ⟨x', d', hvisit, hd', iff_of_false ?_ fun hall => hsame ?_⟩
      · rintro rfl
        refine hsame (ext_entry (size_splice _ _ _) fun k _ => ?_)
        by_cases hk : k ∈ block.1
        · exact (hkeep k fun c hc => hlater c hc k hk).symm
        · exact entry_splice_of_notMem hk
      · exact hy.splice_eq hinside (hblock.isUnit hop mode) (hall block List.mem_cons_self)

omit [ExactScalar α] in
/-- Blocks that do not fit the operator are taken from it anew. -/
theorem sweep_of_size_ne [Scalar α] (kind : SweepKind) (op : Operator α) (rhs x : Array α)
    (mode : Mode) {d : Diagonal α} (hd : d.size ≠ op.dim) :
    sweep kind op rhs x mode d = sweep kind op rhs x mode (ofOperator op) := by
  simp only [sweep, if_neg hd, ite_self]

/-- **The fixed points of a sweep are the solutions.** Where the blocks of an operator follow one
another over all indices and every diagonal block is solved exactly, which it can only be when it is
nonsingular, a sweep of either kind ends, and it leaves a vector unchanged exactly when the vector
has the right-hand side as its product, in both modes. -/
theorem sweep_eq_self_iff (hop : op.IsMatrix J) (htile : Span.Tile 0 op.blocks n)
    (hsolves : ∀ block ∈ op.blocks.zipIdx, op.SolvesBlock block.2 block.1) (kind : SweepKind)
    (mode : Mode) (rhs x : Array α) (hrhs : rhs.size = n) (hx : x.size = n)
    (hd : d.size = op.dim → d.Of op) :
    ∃ x' d', sweep kind op rhs x mode d = .ok x' d' ∧ d'.Of op ∧
      (x' = x ↔ op.apply mode x = .ok rhs) := by
  -- the blocks in the order of either mode are solved and apart
  have hmem : ∀ b, b ∈ (ofOperator op).visitOrder mode ↔ b ∈ op.blocks.zipIdx := fun b => by
    cases mode
    exacts [Iff.rfl, List.mem_reverse]
  have hblocks : ∀ b ∈ (ofOperator op).visitOrder mode, op.Solves b := fun b hb => by
    have hlisted := (hmem b).1 hb
    exact ⟨List.mem_zipIdx_iff_getElem?.1 hlisted,
      hop.dim ▸ (htile.bounds (List.fst_mem_of_mem_zipIdx hlisted)).2.2, hsolves b hlisted⟩
  have hordered : (op.blocks.zipIdx).Pairwise fun b c => b.1.stop ≤ c.1.start :=
    Span.pairwise_zipIdx htile.pairwise 0
  have hapart : ((ofOperator op).visitOrder mode).Pairwise fun b c => ∀ k ∈ b.1, k ∉ c.1 := by
    cases mode with
    | fwd => exact hordered.imp fun hbc k hb hc => absurd hc.1 (not_le.2 (hb.2.trans_le hbc))
    | rev =>
      refine List.pairwise_reverse.2 (hordered.imp fun hbc k hc hb => ?_)
      exact absurd hc.1 (not_le.2 (hb.2.trans_le hbc))
  -- the equations of all blocks are those of all rows
  have hall : (∀ b ∈ (ofOperator op).visitOrder mode, ∀ i ∈ b.1, Holds (mode.along J) rhs x i) ↔
      op.apply mode x = .ok rhs := by
    rw [← forall_holds_iff hop hrhs]
    refine ⟨fun h i hi => ?_, fun h b hb i hi =>
      h i (hi.2.trans_le (hop.dim ▸ (hblocks b hb).inside))⟩
    obtain ⟨b, hb, hib⟩ := exists_mem_zipIdx (i := 0) (htile.cover (Nat.zero_le i) hi)
    exact h b ((hmem b).2 hb) i hib
  have hsweep : ∀ d : Diagonal α, d.Of op → ∃ x' d', sweep kind op rhs x mode d = .ok x' d' ∧
      d'.Of op ∧ (x' = x ↔ op.apply mode x = .ok rhs) := fun d hd =>
    sweep_of_visit (P := fun x' => x' = x ↔ op.apply mode x = .ok rhs) hd fun d hd => by
      rw [← hall]
      exact visit_eq_self_iff hop hblocks hapart hx hd
  by_cases hfit : d.size = op.dim
  · exact hsweep d (hd hfit)
  · rw [sweep_of_size_ne kind op rhs x mode hfit]
    exact hsweep _ (of_ofOperator op)

end Diagonal

/-! ### Two blocks, one with a solver of its own -/

namespace Staircase

open Diagonal

/-- Sweeps of both kinds stay where they are at a solution, and move elsewhere. -/
theorem sweep_staircase : operator.IsMatrix (matrix.toMatrix 3) ∧
    Span.Tile 0 operator.blocks 3 ∧
    (∀ block ∈ operator.blocks.zipIdx, operator.SolvesBlock block.2 block.1) ∧
    (Diagonal.empty : Diagonal ℚ).size ≠ operator.dim ∧ ∀ kind,
      (∃ d, sweep kind operator #[2, 4, 5] #[1, 1, 1] .fwd .empty = .ok #[1, 1, 1] d) ∧
      ∃ x d, sweep kind operator #[2, 4, 5] #[1, 0, 1] .rev .empty = .ok x d ∧ x ≠ #[1, 0, 1] := by
  have hop := isBlockTriangular.matrix
  have htile := isBlockTriangular.tile
  have hsolves := isBlockTriangular.solves
  have hsize : (Diagonal.empty : Diagonal ℚ).size ≠ operator.dim := by decide
  refine ⟨hop, htile, hsolves, hsize, fun kind => ⟨?_, ?_⟩⟩
  · obtain ⟨x, d, hsweep, -, hiff⟩ := sweep_eq_self_iff hop htile hsolves kind .fwd
      #[2, 4, 5] #[1, 1, 1] rfl rfl fun hfit => absurd hfit hsize
    obtain rfl := hiff.2 (by decide +kernel)
    exact ⟨d, hsweep⟩
  · obtain ⟨x, d, hsweep, -, hiff⟩ := sweep_eq_self_iff hop htile hsolves kind .rev
      #[2, 4, 5] #[1, 0, 1] rfl rfl fun hfit => absurd hfit hsize
    exact ⟨x, d, hsweep, hiff.not.2 (by decide +kernel)⟩

end Staircase

end Mdao
