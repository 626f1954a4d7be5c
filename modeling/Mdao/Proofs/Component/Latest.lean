import Mdao.Proofs.Component.ByName
import Mdao.Proofs.Component.Places
import Mdao.Proofs.Exact

/-!
# The last declaration of a pair

A component stores partial derivatives by pairs of an output and a variable of differentiation,
which is an input or, for an implicit component, an output. After all declarations there is one block
for each pair that some declaration covers, and it is the block that the last of these asks for
(`Component.mem_blocks_iff`): a later block replaces the earlier one of its pair and no other
(`Component.Tidy.insert`).

However values are written afterwards (`Component.useAll`), no place moves and none is lost, so that
the entries stay inside the buffers (`Component.blocks_of_declare`).
-/

namespace Mdao

variable {α : Type}

/-- The places that a declaration lists in a block of `n` rows and `m` columns. -/
def Sparsity.Lists (n m : Nat) (s : Sparsity) (places : Array (Nat × Nat)) : Prop :=
  match s with
  | .dense => places.toList = List.range n ×ˢ List.range m
  | .sparse rows cols => places.toList.map Prod.fst = rows ∧ places.toList.map Prod.snd = cols

/-- Places are listed in one way only. -/
theorem Sparsity.Lists.unique {n m : Nat} {s : Sparsity} {places places' : Array (Nat × Nat)}
    (h : s.Lists n m places) (h' : s.Lists n m places') : places = places' := by
  rw [← Array.toList_inj]
  cases s with
  | dense => exact h.trans h'.symm
  | sparse rows cols =>
    exact (List.zip_of_prod h.1 h.2).trans (List.zip_of_prod h'.1 h'.2).symm

/-- The values that a declaration fixes for `n` entries: one for each, the same for all, or zeros
where it fixes none. -/
inductive PartialDeclaration.Fixes [Zero α] (n : Nat) : Option (Array α) → Array α → Prop where
  | zeros : Fixes n none (Vec.zeros n)
  | each (v : Array α) (hsize : v.size = n) : Fixes n (some v) v
  | single (x : α) : Fixes n (some #[x]) (Array.replicate n x)

/-- Values are fixed in one way only. -/
theorem PartialDeclaration.Fixes.unique [Zero α] {n : Nat} {constant : Option (Array α)}
    {values values' : Array α} (h : Fixes n constant values) (h' : Fixes n constant values') :
    values = values' := by
  cases h with
  | zeros =>
    cases h'
    rfl
  | each v hsize =>
    cases h' with
    | each _ _ => rfl
    | single x =>
      rw [← hsize]
      rfl
  | single x =>
    cases h' with
    | each _ hsize =>
      rw [← hsize]
      rfl
    | single _ => rfl

/-- There is a value for each entry. -/
theorem PartialDeclaration.Fixes.size [Zero α] {n : Nat} {constant : Option (Array α)}
    {values : Array α} (h : Fixes n constant values) : values.size = n := by
  cases h with
  | zeros => exact Array.size_replicate
  | each v hsize => exact hsize
  | single x => exact Array.size_replicate

namespace Component

variable [Scalar α]

/-- **The block that a declaration asks for at a pair**, before any value is written. -/
structure IsBlockOf (c : Component α) (d : PartialDeclaration α) (p : Nat × Wrt)
    (b : PartialBlock α) : Prop where
  pair : b.pair = p
  key : b.key = c.keyOf p
  shape : b.shape = ((c.outputs.spanAt p.1).size, (c.wrtField p.2).2)
  places : d.sparsity.Lists b.shape.1 b.shape.2 b.places
  inside : ∀ q ∈ b.places, q.1 < b.shape.1 ∧ q.2 < b.shape.2
  values : PartialDeclaration.Fixes b.places.size d.constant b.values
  method : b.method = d.method
  constant : b.constant = d.constant.isSome
  dense : b.dense = (d.sparsity == .dense)

section Blocks

variable {c c' : Component α} {d : PartialDeclaration α} {p : Nat × Wrt} {b b' : PartialBlock α}

theorem SameVariables.isBlockOf (h : c.SameVariables c') (hb : c.IsBlockOf d p b) :
    c'.IsBlockOf d p b where
  pair := hb.pair
  key := (h.keyOf p).symm ▸ hb.key
  shape := by
    rw [h.outputs, h.wrtField]
    exact hb.shape
  places := hb.places
  inside := hb.inside
  values := hb.values
  method := hb.method
  constant := hb.constant
  dense := hb.dense

theorem SameVariables.isBlockOf_iff (h : c.SameVariables c') :
    c'.IsBlockOf d p b ↔ c.IsBlockOf d p b :=
  ⟨h.symm.isBlockOf, h.isBlockOf⟩

theorem lists_of_placesOf {n m : Nat} {s : Sparsity} {places : Array (Nat × Nat)}
    (h : placesOf n m s = .ok places) : s.Lists n m places := by
  cases s with
  | dense =>
    cases h
    rfl
  | sparse rows cols =>
    simp only [placesOf] at h
    split_ifs at h with hlength hbounds
    cases h
    have hlength' : rows.length = cols.length := not_not.1 hlength
    exact ⟨List.map_fst_zip hlength'.le, List.map_snd_zip hlength'.ge⟩

theorem fixes_of_valuesOf {n : Nat} {constant : Option (Array α)} {values : Array α}
    (h : valuesOf n constant = .ok values) : PartialDeclaration.Fixes n constant values := by
  cases constant with
  | none =>
    cases h
    exact .zeros
  | some v =>
    simp only [valuesOf] at h
    split at h
    · rename_i x hx
      cases h
      obtain rfl : v = #[x] := Array.toList_inj.1 hx
      exact .single x
    · split_ifs at h with hsize
      cases h
      exact .each _ hsize

/-- There is one such block. -/
theorem IsBlockOf.unique (h : c.IsBlockOf d p b) (h' : c.IsBlockOf d p b') : b = b' := by
  have hpair := h.pair.trans h'.pair.symm
  have hkey := h.key.trans h'.key.symm
  have hshape := h.shape.trans h'.shape.symm
  have hplaces : b.places = b'.places := by
    refine h.places.unique ?_
    rw [hshape]
    exact h'.places
  have hvalues : b.values = b'.values := by
    refine h.values.unique ?_
    rw [hplaces]
    exact h'.values
  have hmethod := h.method.trans h'.method.symm
  have hconstant := h.constant.trans h'.constant.symm
  have hdense := h.dense.trans h'.dense.symm
  cases b
  cases b'
  simp only [PartialBlock.pair, PartialBlock.key, Prod.mk.injEq] at *
  simp only [hpair, hkey, hshape, hplaces, hvalues, hmethod, hconstant, hdense]

/-- A block contains the entries that it lists, which are all of them if it is dense. -/
theorem IsBlockOf.contains_iff (h : c.IsBlockOf d p b) {i j : Nat} (hi : i < b.shape.1)
    (hj : j < b.shape.2) : b.contains i j = true ↔ (i, j) ∈ b.places := by
  rw [PartialBlock.contains, Bool.or_eq_true, Array.contains_iff_mem, or_iff_right_iff_imp]
  intro hdense
  rw [h.dense, beq_iff_eq] at hdense
  have hplaces := h.places
  rw [hdense] at hplaces
  rw [← Array.mem_toList_iff, show b.places.toList = _ from hplaces, List.mem_product]
  exact ⟨List.mem_range.2 hi, List.mem_range.2 hj⟩

/-- **A declaration stores one block for a pair.** -/
theorem exists_of_declareBlock {o : Nat} {w : Wrt} (h : c.declareBlock d o w = .ok c') :
    ∃ b, c.IsBlockOf d (o, w) b ∧ c' = { c with partials := c.partials.insert b } := by
  obtain ⟨places, hplaces, h⟩ := bind_eq_ok.1 h
  obtain ⟨values, hvalues, h⟩ := bind_eq_ok.1 h
  cases h
  exact ⟨_, ⟨rfl, rfl, rfl, lists_of_placesOf hplaces, placesOf_lt hplaces,
    fixes_of_valuesOf hvalues, rfl, rfl, rfl⟩, rfl⟩

end Blocks

/-! ### Declarations one after the other -/

/-- Blocks for different pairs of the component, each under the names of its pair. -/
structure Tidy (c : Component α) : Prop where
  keyed : c.partials.Keyed
  pairs : ∀ b ∈ c.partials.blocks, c.HasPair b.pair
  keys : ∀ b ∈ c.partials.blocks, b.key = c.keyOf b.pair

/-- **The last declaration for a pair** among some in order. -/
def IsLast (c : Component α) (ds : List (PartialDeclaration α)) (p : Nat × Wrt)
    (d : PartialDeclaration α) : Prop :=
  ∃ before after, ds = before ++ d :: after ∧ c.Covers d p ∧ ∀ d' ∈ after, ¬c.Covers d' p

section Declaring

variable {c c' : Component α} {d : PartialDeclaration α} {p : Nat × Wrt} {b b' : PartialBlock α}

omit [Scalar α] in
/-- There is at most one block for a pair. -/
theorem Tidy.nodup_pairs (hc : c.Tidy) :
    (c.partials.blocks.toList.map PartialBlock.pair).Nodup := by
  refine List.Nodup.of_map c.keyOf ?_
  have hkeys : (c.partials.blocks.toList.map PartialBlock.pair).map c.keyOf =
      c.partials.blocks.toList.map PartialBlock.key := by
    rw [List.map_map]
    exact List.map_congr_left fun b hb => (hc.keys b (Array.mem_toList_iff.1 hb)).symm
  rw [hkeys]
  exact hc.keyed

omit [Scalar α] in
/-- Blocks are those of the same pair when they have the same names. -/
theorem Tidy.key_eq_iff (hn : c.Named) (hc : c.Tidy) (hb : b ∈ c.partials.blocks)
    (hp : c.HasPair p) : b.key = c.keyOf p ↔ b.pair = p := by
  rw [hc.keys b hb]
  refine ⟨hn.eq_of_keyOf (hc.pairs b hb) hp, ?_⟩
  rintro rfl
  rfl

/-- **One more block**: it is put in the place of the block of its pair. -/
theorem Tidy.insert (hn : c.Named) (hc : c.Tidy) (hp : c.HasPair p) (hb : c.IsBlockOf d p b) :
    Tidy { c with partials := c.partials.insert b } ∧
      ∀ b', b' ∈ (c.partials.insert b).blocks ↔ b' = b ∨ b' ∈ c.partials.blocks ∧ b'.pair ≠ p := by
  have hmem : ∀ b', b' ∈ (c.partials.insert b).blocks ↔
      b' = b ∨ b' ∈ c.partials.blocks ∧ b'.pair ≠ p := by
    intro b'
    rw [hc.keyed.mem_insert_iff, hb.key]
    exact or_congr_right (and_congr_right fun hb' => (hc.key_eq_iff hn hb' hp).not)
  refine ⟨⟨hc.keyed.insert b, fun b' hb' => ?_, fun b' hb' => ?_⟩, hmem⟩
  · rcases (hmem b').1 hb' with rfl | ⟨hb', -⟩
    · rw [hb.pair]
      exact hp
    · exact hc.pairs b' hb'
  · rcases (hmem b').1 hb' with rfl | ⟨hb', -⟩
    · rw [hb.pair]
      exact hb.key
    · exact hc.keys b' hb'

/-- **Blocks after one declaration**: those it asks for at its pairs, and the old ones elsewhere. -/
theorem Tidy.declareBlocks {pairs : List (Nat × Wrt)} (hn : c.Named) (hc : c.Tidy)
    (hpairs : ∀ p ∈ pairs, c.HasPair p) (h : c.declareBlocks d pairs = .ok c') :
    c'.Tidy ∧ ∀ b, b ∈ c'.partials.blocks ↔
      b.pair ∈ pairs ∧ c.IsBlockOf d b.pair b ∨ b.pair ∉ pairs ∧ b ∈ c.partials.blocks := by
  induction pairs generalizing c with
  | nil =>
    cases h
    exact ⟨hc, fun b => by simp⟩
  | cons pair pairs ih =>
    obtain ⟨o, w⟩ := pair
    unfold Component.declareBlocks at h
    cases hblock : c.declareBlock d o w with
    | error e => simp [hblock] at h
    | ok c1 =>
      rw [hblock] at h
      have hsame := (declares_block hblock).sameVariables
      obtain ⟨b₀, hb₀, rfl⟩ := exists_of_declareBlock hblock
      obtain ⟨hc1, hmem⟩ := hc.insert hn (hpairs _ List.mem_cons_self) hb₀
      obtain ⟨hc', hrest⟩ := ih (hsame.named hn) hc1
        (fun p hp => (hsame.hasPair p).2 (hpairs p (List.mem_cons_of_mem _ hp))) h
      refine ⟨hc', fun b => ?_⟩
      rw [hrest b, hsame.isBlockOf_iff, hmem b, List.mem_cons]
      by_cases hlater : b.pair ∈ pairs
      · simp only [hlater, true_and, or_true, not_true_eq_false, false_and, or_false]
      · simp only [hlater, false_and, false_or, or_false, not_false_eq_true, true_and]
        constructor
        · rintro (rfl | ⟨hb, hne⟩)
          · exact .inl ⟨hb₀.pair, by rw [hb₀.pair]; exact hb₀⟩
          · exact .inr ⟨hne, hb⟩
        · rintro (⟨hpair, hb⟩ | ⟨hne, hb⟩)
          · rw [hpair] at hb
            exact .inl (hb.unique hb₀)
          · exact .inr ⟨hb, hne⟩

omit [Scalar α] in
/-- The pairs that a declaration is carried out for. -/
theorem Named.mem_pairs (hn : c.Named) {os : List Nat} {ws : List Wrt}
    (hos : c.outputsNamed d.output = .ok os) (hws : c.wrtsNamed d.wrt = .ok ws) :
    p ∈ (os.flatMap fun o => ws.map fun w => (o, w)) ↔ c.Covers d p := by
  obtain ⟨o, w⟩ := p
  simp only [List.mem_flatMap, List.mem_map, Prod.mk.injEq]
  constructor
  · rintro ⟨o, ho, w, hw, rfl, rfl⟩
    obtain ⟨hlt, hout⟩ := (hn.mem_outputsNamed hos).1 ho
    obtain ⟨hhas, hwrt⟩ := (hn.mem_wrtsNamed hws).1 hw
    exact ⟨⟨hlt, hhas⟩, hout, hwrt⟩
  · rintro ⟨⟨hlt, hhas⟩, hout, hwrt⟩
    exact ⟨o, (hn.mem_outputsNamed hos).2 ⟨hlt, hout⟩, w, (hn.mem_wrtsNamed hws).2 ⟨hhas, hwrt⟩,
      rfl, rfl⟩

/-- The blocks that a declaration asks for exist, once it has been carried out. -/
theorem exists_of_declareBlocks {pairs : List (Nat × Wrt)} (h : c.declareBlocks d pairs = .ok c')
    (hp : p ∈ pairs) : ∃ b, c.IsBlockOf d p b := by
  induction pairs generalizing c with
  | nil => cases hp
  | cons pair pairs ih =>
    obtain ⟨o, w⟩ := pair
    unfold Component.declareBlocks at h
    cases hblock : c.declareBlock d o w with
    | error e => simp [hblock] at h
    | ok c1 =>
      rw [hblock] at h
      rcases List.mem_cons.1 hp with rfl | hp
      · obtain ⟨b, hb, -⟩ := exists_of_declareBlock hblock
        exact ⟨b, hb⟩
      · obtain ⟨b, hb⟩ := ih h hp
        exact ⟨b, (declares_block hblock).sameVariables.isBlockOf_iff.1 hb⟩

theorem Named.exists_of_declarePartial (hn : c.Named) (h : c.declarePartial d = .ok c')
    (hp : c.Covers d p) : ∃ b, c.IsBlockOf d p b := by
  unfold Component.declarePartial at h
  split_ifs at h
  simp only at h
  split at h
  · rename_i c1 hstored
    obtain ⟨os, hos, hstored⟩ := bind_eq_ok.1 hstored
    obtain ⟨ws, hws, hstored⟩ := bind_eq_ok.1 hstored
    exact exists_of_declareBlocks hstored ((hn.mem_pairs hos hws).2 hp)
  · cases h

theorem Named.exists_of_declarePartials {ds : List (PartialDeclaration α)} (hn : c.Named)
    (h : c.declarePartials ds = .ok c') (hd : d ∈ ds) (hp : c.Covers d p) :
    ∃ b, c.IsBlockOf d p b := by
  induction ds generalizing c with
  | nil => cases hd
  | cons d' ds ih =>
    unfold Component.declarePartials at h
    cases hd' : c.declarePartial d' with
    | error e => simp [hd'] at h
    | ok c1 =>
      rw [hd'] at h
      have hsame := (declares_partial hd').sameVariables
      rcases List.mem_cons.1 hd with rfl | hd
      · exact hn.exists_of_declarePartial hd' hp
      · obtain ⟨b, hb⟩ := ih (hsame.named hn) h hd ((hsame.covers p).2 hp)
        exact ⟨b, hsame.isBlockOf_iff.1 hb⟩

theorem Tidy.declarePartial (hn : c.Named) (hc : c.Tidy) (h : c.declarePartial d = .ok c') :
    c'.Tidy ∧ ∀ b, b ∈ c'.partials.blocks ↔
      c.Covers d b.pair ∧ c.IsBlockOf d b.pair b ∨ ¬c.Covers d b.pair ∧ b ∈ c.partials.blocks := by
  unfold Component.declarePartial at h
  split_ifs at h
  simp only at h
  split at h
  · rename_i c1 hstored
    cases h
    obtain ⟨os, hos, hstored⟩ := bind_eq_ok.1 hstored
    obtain ⟨ws, hws, hstored⟩ := bind_eq_ok.1 hstored
    have hpairs : ∀ p, p ∈ (os.flatMap fun o => ws.map fun w => (o, w)) ↔ c.Covers d p :=
      fun p => hn.mem_pairs hos hws
    obtain ⟨hc', hmem⟩ := hc.declareBlocks hn (fun p hp => ((hpairs p).1 hp).1) hstored
    refine ⟨hc', fun b => ?_⟩
    rw [hmem b, hpairs]
  · cases h

omit [Scalar α] in
theorem SameVariables.isLast (h : c.SameVariables c') (ds : List (PartialDeclaration α))
    (p : Nat × Wrt) (d : PartialDeclaration α) : c'.IsLast ds p d ↔ c.IsLast ds p d := by
  simp only [IsLast, h.covers]

omit [Scalar α] in
theorem isLast_nil : ¬c.IsLast [] p d := by
  rintro ⟨before, after, h, -⟩
  simp at h

omit [Scalar α] in
/-- The last of several declarations is among the later ones or the first. -/
theorem isLast_cons {ds : List (PartialDeclaration α)} {d' : PartialDeclaration α} :
    c.IsLast (d' :: ds) p d ↔
      c.IsLast ds p d ∨ d = d' ∧ c.Covers d' p ∧ ∀ e ∈ ds, ¬c.Covers e p := by
  constructor
  · rintro ⟨before, after, h, hcovers, hlater⟩
    cases before with
    | nil =>
      obtain ⟨rfl, rfl⟩ := List.cons.inj h
      exact .inr ⟨rfl, hcovers, hlater⟩
    | cons e before =>
      obtain ⟨-, rfl⟩ := List.cons.inj h
      exact .inl ⟨before, after, rfl, hcovers, hlater⟩
  · rintro (⟨before, after, rfl, hcovers, hlater⟩ | ⟨rfl, hcovers, hlater⟩)
    · exact ⟨d' :: before, after, rfl, hcovers, hlater⟩
    · exact ⟨[], ds, rfl, hcovers, hlater⟩

omit [Scalar α] in
/-- There is a last declaration for a pair that some declaration covers. -/
theorem exists_isLast {ds : List (PartialDeclaration α)} :
    (∃ d, c.IsLast ds p d) ↔ ∃ d ∈ ds, c.Covers d p := by
  induction ds with
  | nil => simp [isLast_nil]
  | cons d' ds ih =>
    by_cases hlater : ∃ d ∈ ds, c.Covers d p
    · obtain ⟨d, hd⟩ := ih.2 hlater
      obtain ⟨e, he, hcovers⟩ := hlater
      exact ⟨fun _ => ⟨e, List.mem_cons_of_mem _ he, hcovers⟩,
        fun _ => ⟨d, isLast_cons.2 (.inl hd)⟩⟩
    · simp only [not_exists, not_and] at hlater
      have hnone : ∀ d, ¬c.IsLast ds p d := by
        rintro d ⟨before, after, rfl, hcovers, -⟩
        exact hlater d (by simp) hcovers
      constructor
      · rintro ⟨d, hd⟩
        rcases isLast_cons.1 hd with hd | ⟨rfl, hcovers, -⟩
        · exact absurd hd (hnone d)
        · exact ⟨d, List.mem_cons_self, hcovers⟩
      · rintro ⟨d, hd, hcovers⟩
        rcases List.mem_cons.1 hd with rfl | hd
        · exact ⟨d, isLast_cons.2 (.inr ⟨rfl, hcovers, hlater⟩)⟩
        · exact absurd hcovers (hlater d hd)

/-- **Blocks after several declarations**: for each pair the one that the last declaration asks for,
and the old ones for pairs that none of them covers. -/
theorem Tidy.declarePartials {ds : List (PartialDeclaration α)} (hn : c.Named) (hc : c.Tidy)
    (h : c.declarePartials ds = .ok c') :
    c'.Tidy ∧ ∀ b, b ∈ c'.partials.blocks ↔
      (∃ d, c.IsLast ds b.pair d ∧ c.IsBlockOf d b.pair b) ∨
        (∀ d ∈ ds, ¬c.Covers d b.pair) ∧ b ∈ c.partials.blocks := by
  induction ds generalizing c with
  | nil =>
    cases h
    exact ⟨hc, fun b => by simp [isLast_nil]⟩
  | cons d ds ih =>
    unfold Component.declarePartials at h
    cases hd : c.declarePartial d with
    | error e => simp [hd] at h
    | ok c1 =>
      rw [hd] at h
      have hsame := (declares_partial hd).sameVariables
      obtain ⟨hc1, hmem⟩ := hc.declarePartial hn hd
      obtain ⟨hc', hrest⟩ := ih (hsame.named hn) hc1 h
      refine ⟨hc', fun b => ?_⟩
      rw [hrest b, hmem b, List.forall_mem_cons]
      simp only [hsame.isLast, hsame.covers, hsame.isBlockOf_iff]
      constructor
      · rintro (⟨e, he, hb⟩ | ⟨hnone, ⟨hcovers, hb⟩ | ⟨hnot, hb⟩⟩)
        · exact .inl ⟨e, isLast_cons.2 (.inl he), hb⟩
        · exact .inl ⟨d, isLast_cons.2 (.inr ⟨rfl, hcovers, hnone⟩), hb⟩
        · exact .inr ⟨⟨hnot, hnone⟩, hb⟩
      · rintro (⟨e, he, hb⟩ | ⟨⟨hnot, hnone⟩, hb⟩)
        · rcases isLast_cons.1 he with he | ⟨rfl, hcovers, hnone⟩
          · exact .inl ⟨e, he, hb⟩
          · exact .inr ⟨hnone, .inl ⟨hcovers, hb⟩⟩
        · exact .inr ⟨hnone, .inr ⟨hnot, hb⟩⟩

/-! ### Declared components -/

/-- **The blocks of a declared component** are those that the last declarations of their pairs ask
for. -/
theorem mem_blocks_iff {name : String} {d : Discipline α} (h : declare name d = .ok c) :
    c.Tidy ∧ ∀ b, b ∈ c.partials.blocks ↔
      ∃ q, c.IsLast d.partials b.pair q ∧ c.IsBlockOf q b.pair b := by
  have hnamed := named_of_declare h
  obtain ⟨inputs, hinputs, h⟩ := bind_eq_ok.1 h
  obtain ⟨outputs, houtputs, h⟩ := bind_eq_ok.1 h
  have hsame := (declares_partials h).sameVariables
  have hempty : Tidy (⟨name, d, inputs, outputs, .empty, none, #[]⟩ : Component α) :=
    ⟨Partials.keyed_empty, by simp [Partials.empty], by simp [Partials.empty]⟩
  obtain ⟨hc, hmem⟩ := hempty.declarePartials (hsame.symm.named hnamed) h
  refine ⟨hc, fun b => (hmem b).trans ?_⟩
  simp only [hsame.isLast, hsame.isBlockOf_iff, Partials.empty, Array.not_mem_empty, and_false,
    or_false]

/-- Each pair with a last declaration has a block, the one it asks for. -/
theorem exists_block_of_isLast {name : String} {d : Discipline α} {q : PartialDeclaration α}
    (h : declare name d = .ok c) (hq : c.IsLast d.partials p q) :
    ∃ b ∈ c.partials.blocks, c.IsBlockOf q p b := by
  have hnamed := named_of_declare h
  have hmem := (mem_blocks_iff h).2
  obtain ⟨inputs, hinputs, h⟩ := bind_eq_ok.1 h
  obtain ⟨outputs, houtputs, h⟩ := bind_eq_ok.1 h
  have hsame := (declares_partials h).sameVariables
  have hcovers : c.Covers q p ∧ q ∈ d.partials := by
    obtain ⟨before, after, heq, hcovers, -⟩ := hq
    rw [heq]
    exact ⟨hcovers, by simp⟩
  obtain ⟨b, hb⟩ := (hsame.symm.named hnamed).exists_of_declarePartials h hcovers.2
    ((hsame.covers p).1 hcovers.1)
  have hblock : c.IsBlockOf q p b := hsame.isBlockOf hb
  refine ⟨b, (hmem b).2 ⟨q, ?_⟩, hblock⟩
  rw [hblock.pair]
  exact ⟨hq, hblock⟩

end Declaring

/-! ### What happens to derivatives afterwards -/

/-- What is done with the derivatives of a component: a write, or a linearization at a point. -/
inductive PartialUse (α : Type) where
  | write (w : PartialWrite α)
  | linearize (inputs outputs : Array α) (strict : Option α)

/-- The component afterwards, also if it went wrong. -/
def use (c : Component α) : PartialUse α → Component α
  | .write w => { c with partials := stateAfter (c.partials.writeAll [w]) }
  | .linearize inputs outputs strict => stateAfter (c.linearize inputs outputs strict)

/-- The component after several uses. -/
def useAll (c : Component α) (us : List (PartialUse α)) : Component α := us.foldl use c

section Uses

variable {c c' : Component α} {d : Discipline α} {name : String}

theorem alike_use (c : Component α) (u : PartialUse α) : c.Alike (c.use u) := by
  cases u with
  | write w => exact ⟨rfl, rfl, rfl, rfl, Partials.alike_writeAll c.partials [w]⟩
  | linearize inputs outputs strict => exact alike_linearize c inputs outputs strict

/-- No use moves an entry. -/
theorem alike_useAll (c : Component α) (us : List (PartialUse α)) : c.Alike (c.useAll us) := by
  induction us generalizing c with
  | nil => exact .refl c
  | cons u us ih => exact (alike_use c u).trans (ih (c.use u))

/-- Nor does a linearization after them. -/
theorem alike_of_linearize {us : List (PartialUse α)} {x y : Array α} {strict : Option α}
    (h : (c.useAll us).linearize x y strict = .ok ⟨⟩ c') : c.Alike c' := by
  have hlinearize := alike_linearize (c.useAll us) x y strict
  rw [h, stateAfter_ok] at hlinearize
  exact (alike_useAll c us).trans hlinearize

/-- A write that fails changes nothing. -/
theorem use_of_write_eq_error {w : PartialWrite α} {e : PartialsError}
    (h : c.partials.write w = .error e) : c.use (.write w) = c := by
  simp only [use, Partials.writeAll, h, stateAfter_error]

/-- **Entries are inside their blocks, each with a value**, whatever is written. -/
theorem places_of_declare (h : declare name d = .ok c) (halike : c.Alike c')
    {b : PartialBlock α} (hb : b ∈ c'.partials.blocks) :
    b.values.size = b.places.size ∧
      ∀ q ∈ b.places, q.1 < (c.outputs.spanAt b.output).size ∧ q.2 < (c.wrtField b.wrt).2 := by
  obtain ⟨b', hb', heq⟩ := halike.exists_outline hb
  obtain ⟨q, -, hblock⟩ := ((mem_blocks_iff h).2 b').1 hb'
  have hsize := hblock.values.size
  have hinside := hblock.inside
  rw [hblock.shape] at hinside
  rw [← PartialBlock.size_of_outline heq, ← PartialBlock.places_of_outline heq,
    ← PartialBlock.output_of_outline heq, ← PartialBlock.wrt_of_outline heq]
  exact ⟨hsize, hinside⟩

end Uses

section Main

variable {c : Component α} {d : Discipline α} {name : String}

/-- **The blocks of a declared component.** They are for pairs of the component, at most one for
each, and there is one exactly where a declaration covers the pair: that of the last such
declaration. Whatever is written afterwards, the blocks stay up to their values, entries stay inside
them, and so inside the buffers, and a write that fails changes nothing, nor do those after it. -/
theorem blocks_of_declare (h : declare name d = .ok c) :
    ((∀ b ∈ c.partials.blocks, c.HasPair b.pair) ∧
      (c.partials.blocks.toList.map PartialBlock.pair).Nodup) ∧
    (∀ p, c.HasPair p →
      ((∃ b ∈ c.partials.blocks, b.pair = p) ↔ ∃ q ∈ d.partials, c.Covers q p)) ∧
    (∀ p q, c.IsLast d.partials p q → ∃ b ∈ c.partials.blocks, c.IsBlockOf q p b) ∧
    ∀ us : List (PartialUse α),
      c.partials.Alike (c.useAll us).partials ∧
      (∀ b ∈ (c.useAll us).partials.blocks, b.values.size = b.places.size ∧
        ∀ q ∈ b.places, q.1 < (c.outputs.spanAt b.output).size ∧ q.2 < (c.wrtField b.wrt).2) ∧
      (d.Addressable → ∀ e ∈ (c.useAll us).entries, e.row < c.outputs.size ∧
        c.HasColumn e.column) ∧
      (∀ w e, (c.useAll us).partials.write w = .error e →
        c.useAll (us ++ [.write w]) = c.useAll us) ∧
      ∀ ws e p, (c.useAll us).partials.writeAll ws = .error e p →
        ∃ done w rest cause, ws = done ++ w :: rest ∧
          (c.useAll us).partials.writeAll done = .ok () p ∧ p.write w = .error cause ∧
          e = .partials cause := by
  obtain ⟨htidy, hmem⟩ := mem_blocks_iff h
  refine ⟨⟨htidy.pairs, htidy.nodup_pairs⟩, fun p _ => ?_, fun p q => exists_block_of_isLast h,
    fun us => ⟨(alike_useAll c us).partials, fun b => places_of_declare h (alike_useAll c us),
      fun hd e he => ?_, fun w e he => ?_, fun ws e p => Partials.writeAll_eq_error⟩⟩
  · rw [← exists_isLast]
    constructor
    · rintro ⟨b, hb, rfl⟩
      obtain ⟨q, hq, -⟩ := (hmem b).1 hb
      exact ⟨q, hq⟩
    · rintro ⟨q, hq⟩
      obtain ⟨b, hb, hblock⟩ := exists_block_of_isLast h hq
      exact ⟨b, hb, hblock.pair⟩
  · have hsound := (isDeclared_of_declare h hd).sound
    have halike := alike_useAll c us
    have hplace := ((hsound.alike halike).mem_places (k := e.column)).1
      (List.mem_map.2 ⟨e, he, rfl⟩)
    exact hsound.hasPlace_inside ((hsound.hasPlace_alike halike).1 hplace)
  · rw [useAll, List.foldl_append]
    exact use_of_write_eq_error he

end Main

end Component

/-! ### An overridden declaration -/

namespace Overriding

/-- Every derivative is declared, and then one of `y` with respect to `x` once more. -/
def declarations : List (PartialDeclaration ℚ) :=
  [.dense "*" "*", ⟨"y", "x", .sparse [0] [1], some #[3], .exact⟩]

/-- An implicit discipline of one output and an input of two entries. -/
def discipline : Discipline ℚ :=
  .implicit { (ImplicitDiscipline.blank : ImplicitDiscipline ℚ) with
    inputs := [(Variable.named "x").withShape [2]]
    outputs := [Variable.named "y"]
    partials := declarations }

/-- Its component. -/
def component : Component ℚ :=
  (Component.declare "over" discipline).toOption.getD
    ⟨"", discipline, .empty, .empty, .empty, none, #[]⟩

theorem declare_eq : Component.declare "over" discipline = .ok component :=
  eq_ok_getD _ (by with_unfolding_all decide)

theorem hasPair_input : component.HasPair (0, .input 0) :=
  ⟨by with_unfolding_all decide,
    show 0 < component.inputs.length by with_unfolding_all decide⟩

theorem hasPair_output : component.HasPair (0, .output 0) :=
  ⟨by with_unfolding_all decide, by with_unfolding_all decide,
    by with_unfolding_all decide⟩

theorem keyOf_output : component.keyOf (0, .output 0) = ("y", "y") := by with_unfolding_all decide

/-- The block of `y` and `x` is that of the later declaration, and the block of `y` and itself that
of the earlier one. -/
theorem blocks_of_component :
    Component.declare "over" discipline = .ok component ∧
      (∃ b ∈ component.partials.blocks, component.IsBlockOf
        ⟨"y", "x", .sparse [0] [1], some #[3], .exact⟩ (0, .input 0) b) ∧
      ∃ b ∈ component.partials.blocks,
        component.IsBlockOf (.dense "*" "*") (0, .output 0) b := by
  have hblock := (Component.blocks_of_declare declare_eq).2.2.1
  refine ⟨declare_eq, hblock _ _ ⟨[_], [], rfl, ⟨hasPair_input, ?_, ?_⟩, by simp⟩,
    hblock _ _ ⟨[], [_], rfl, ⟨hasPair_output, .inl rfl, .inl rfl⟩, ?_⟩⟩
  · exact .inr (by with_unfolding_all decide)
  · exact .inr (by with_unfolding_all decide)
  · -- the later declaration is for another variable
    rintro q hq ⟨-, -, hwrt⟩
    obtain rfl := List.mem_singleton.1 hq
    rw [keyOf_output] at hwrt
    revert hwrt
    decide

end Overriding

end Mdao
