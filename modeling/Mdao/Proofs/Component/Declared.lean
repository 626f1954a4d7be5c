import Mdao.Proofs.Layout
import Mdao.Proofs.Span
import Mdao.Proofs.Step

/-!
# Declared components

`Component.declare` checks what a discipline declares, and `Component.Sound` is what the check
ensures: each declared entry lies inside the block of its two variables, and so inside the buffers
of the component. A discipline may write any values afterwards, but no linearization moves an entry
(`alike_linearize`), so a sound component stays sound.
-/

namespace Mdao

variable {α : Type}

/-- A discipline whose inputs can be counted, and whose outputs can. -/
structure Discipline.Addressable [Scalar α] (d : Discipline α) : Prop where
  inputs : (d.inputs.map Variable.size).sum < Count.modulus
  outputs : (d.outputs.map Variable.size).sum < Count.modulus

/-- A block without its values, of which only the number is left. -/
def PartialBlock.outline [Zero α] (b : PartialBlock α) : PartialBlock α :=
  { b with values := Vec.zeros b.values.size }

namespace PartialBlock

variable [Zero α] {b b' : PartialBlock α}

/-- An outline has the places. -/
theorem places_of_outline (h : b'.outline = b.outline) : b'.places = b.places :=
  (congrArg places h : b'.outline.places = b.outline.places)

/-- An outline has the output. -/
theorem output_of_outline (h : b'.outline = b.outline) : b'.output = b.output :=
  (congrArg output h : b'.outline.output = b.outline.output)

/-- An outline has the variable of differentiation. -/
theorem wrt_of_outline (h : b'.outline = b.outline) : b'.wrt = b.wrt :=
  (congrArg wrt h : b'.outline.wrt = b.outline.wrt)

/-- An outline has the method. -/
theorem method_of_outline (h : b'.outline = b.outline) : b'.method = b.method :=
  (congrArg method h : b'.outline.method = b.outline.method)

/-- An outline tells whether values are fixed. -/
theorem constant_of_outline (h : b'.outline = b.outline) : b'.constant = b.constant :=
  (congrArg constant h : b'.outline.constant = b.outline.constant)

/-- An outline tells whether all entries are declared. -/
theorem dense_of_outline (h : b'.outline = b.outline) : b'.dense = b.dense :=
  (congrArg dense h : b'.outline.dense = b.outline.dense)

/-- An outline has the number of values. -/
theorem size_of_outline (h : b'.outline = b.outline) : b'.values.size = b.values.size := by
  simpa [outline] using congrArg (fun c => c.values.size) h

end PartialBlock

/-- Derivatives with the same blocks up to values. -/
def Partials.Alike [Zero α] (p q : Partials α) : Prop :=
  q.blocks.map PartialBlock.outline = p.blocks.map PartialBlock.outline

namespace Partials

variable [Scalar α] {p q : Partials α}

/-- Changing one block within its outline. -/
theorem alike_modify (p : Partials α) (i : Nat) (f : PartialBlock α → PartialBlock α)
    (h : ∀ b, p.blocks[i]? = some b → (f b).outline = b.outline) :
    p.Alike ⟨p.blocks.modify i f⟩ := by
  refine Array.ext (by simp) fun k h1 h2 => ?_
  have hk : k < p.blocks.size := by simpa using h2
  simp only [Array.getElem_map, Array.getElem_modify]
  split_ifs with hik
  · subst hik
    exact h _ (Array.getElem?_eq_getElem hk)
  · rfl

/-- A write that succeeds moves no entry. -/
theorem alike_write {w : PartialWrite α} (h : p.write w = .ok q) : p.Alike q := by
  cases w with
  | block output wrt values =>
    simp only [write, set] at h
    cases hi : p.position? output wrt with
    | none => simp [hi] at h
    | some i =>
      simp only [hi] at h
      split_ifs at h with hsize
      cases h
      refine alike_modify p i _ fun b hb => ?_
      rw [hb] at hsize
      simp only [PartialBlock.outline, not_not.1 hsize]
  | entry output wrt index value =>
    simp only [write, setEntry] at h
    cases hi : p.position? output wrt with
    | none => simp [hi] at h
    | some i =>
      simp only [hi] at h
      cases h
      refine alike_modify p i _ fun b _ => ?_
      simp [PartialBlock.outline]

/-- A sequence of writes moves no entry, also when it fails on the way. -/
theorem alike_writeAll (p : Partials α) (ws : List (PartialWrite α)) :
    p.Alike (stateAfter (p.writeAll ws)) := by
  induction ws generalizing p with
  | nil => exact rfl
  | cons w ws ih =>
    unfold writeAll
    cases hw : p.write w with
    | error e => exact rfl
    | ok q => exact (ih q).trans (alike_write hw)

end Partials

namespace Component

variable [Scalar α]

/-! ### Components that differ in values -/

/-- The same declared component, with other derivatives. -/
structure Alike (c c' : Component α) : Prop where
  name : c'.name = c.name
  discipline : c'.discipline = c.discipline
  inputs : c'.inputs = c.inputs
  outputs : c'.outputs = c.outputs
  partials : c.partials.Alike c'.partials

theorem Alike.refl (c : Component α) : c.Alike c := ⟨rfl, rfl, rfl, rfl, rfl⟩

theorem Alike.trans {c c' c'' : Component α} (h : c.Alike c') (h' : c'.Alike c'') : c.Alike c'' :=
  ⟨h'.name.trans h.name, h'.discipline.trans h.discipline, h'.inputs.trans h.inputs,
    h'.outputs.trans h.outputs, Eq.trans h'.partials h.partials⟩

theorem Alike.symm {c c' : Component α} (h : c.Alike c') : c'.Alike c :=
  ⟨h.name.symm, h.discipline.symm, h.inputs.symm, h.outputs.symm, Eq.symm h.partials⟩

/-- Each block has come from one with the same outline. -/
theorem Alike.exists_outline {c c' : Component α} (h : c.Alike c') {b : PartialBlock α}
    (hb : b ∈ c'.partials.blocks) : ∃ b' ∈ c.partials.blocks, b'.outline = b.outline := by
  have hmem : b.outline ∈ c.partials.blocks.map PartialBlock.outline := by
    rw [← h.partials]
    exact Array.mem_map.2 ⟨b, hb, rfl⟩
  exact Array.mem_map.1 hmem

/-- Components that are alike one by one. -/
structure AllAlike (cs cs' : Array (Component α)) : Prop where
  size : cs'.size = cs.size
  alike : ∀ (u : Nat) (c c' : Component α), cs[u]? = some c → cs'[u]? = some c' → c.Alike c'

namespace AllAlike

theorem refl (cs : Array (Component α)) : AllAlike cs cs := by
  refine ⟨rfl, fun u c c' hc hc' => ?_⟩
  obtain rfl := Option.some.inj (hc.symm.trans hc')
  exact .refl c

theorem symm {cs cs' : Array (Component α)} (h : AllAlike cs cs') : AllAlike cs' cs :=
  ⟨h.size.symm, fun u c c' hc hc' => (h.alike u c' c hc' hc).symm⟩

theorem trans {cs cs' cs'' : Array (Component α)} (h : AllAlike cs cs') (h' : AllAlike cs' cs'') :
    AllAlike cs cs'' := by
  refine ⟨h'.size.trans h.size, fun u c c'' hc hc'' => ?_⟩
  have hu : u < cs'.size := by
    rw [h.size]
    exact (Array.getElem?_eq_some_iff.1 hc).1
  have hc' := Array.getElem?_eq_getElem hu
  exact (h.alike u c _ hc hc').trans (h'.alike u _ c'' hc' hc'')

/-- Each component has come from one that is alike. -/
theorem exists_alike {cs cs' : Array (Component α)} (h : AllAlike cs cs') {u : Nat}
    {c' : Component α} (hc' : cs'[u]? = some c') : ∃ c, cs[u]? = some c ∧ c.Alike c' := by
  have hu : u < cs.size := h.size ▸ (Array.getElem?_eq_some_iff.1 hc').1
  have hc := Array.getElem?_eq_getElem hu
  exact ⟨_, hc, h.alike u _ c' hc hc'⟩

/-- One component replaced by one that is alike. -/
theorem set {cs : Array (Component α)} {u : Nat} {c c' : Component α} (hc : cs[u]? = some c)
    (h : c.Alike c') : AllAlike cs (cs.setIfInBounds u c') := by
  refine ⟨by simp, fun v x y hx hy => ?_⟩
  rw [Array.getElem?_setIfInBounds] at hy
  split_ifs at hy with huv hlt
  · obtain rfl := huv
    cases hy
    obtain rfl := Option.some.inj (hc.symm.trans hx)
    exact h
  · exact (refl cs).alike v x y hx hy

end AllAlike

/-- What the discipline of a component writes at a point. -/
def ownLinearization (c : Component α) (inputs outputs : Array α) : Linearization α :=
  match c.discipline with
  | .explicit d => d.linearize ⟨c.inputs, inputs⟩
  | .implicit d => d.linearize ⟨c.inputs, inputs⟩ ⟨c.outputs, outputs⟩

/-- The component after what a linearization writes and keeps. -/
def afterWrites (c : Component α) (l : Linearization α) :
    EStateM.Result EvalError (Component α) PUnit :=
  match c.partials.writeAll l.writes with
  | .error e p => .error (e.ownedBy c.name) { c with partials := p }
  | .ok _ p =>
    match l.failure with
    | some e => .error (e.ownedBy c.name) { c with partials := p }
    | none => .ok ⟨⟩ { c with partials := p, memo := l.memo.getD c.memo }

omit [Scalar α] in
theorem linearizeOwn_eq (c : Component α) (inputs outputs : Array α) :
    c.linearizeOwn inputs outputs = c.afterWrites (c.ownLinearization inputs outputs) := rfl

/-- The component after its own linearization has other derivatives, and maybe keeps something. -/
theorem linearizeOwn_spec (c : Component α) (inputs outputs : Array α) :
    ∃ p memo, stateAfter (c.linearizeOwn inputs outputs) = { c with partials := p, memo := memo } ∧
      c.partials.Alike p := by
  rw [linearizeOwn_eq]
  generalize c.ownLinearization inputs outputs = l
  have hwrites := Partials.alike_writeAll c.partials l.writes
  unfold afterWrites
  cases hw : c.partials.writeAll l.writes with
  | error e p =>
    rw [hw] at hwrites
    exact ⟨p, c.memo, rfl, hwrites⟩
  | ok b p =>
    rw [hw] at hwrites
    cases l.failure with
    | some e => exact ⟨p, c.memo, rfl, hwrites⟩
    | none => exact ⟨p, _, rfl, hwrites⟩

theorem alike_linearizeOwn (c : Component α) (inputs outputs : Array α) :
    c.Alike (stateAfter (c.linearizeOwn inputs outputs)) := by
  obtain ⟨p, memo, heq, hp⟩ := linearizeOwn_spec c inputs outputs
  rw [heq]
  exact ⟨rfl, rfl, rfl, rfl, hp⟩

theorem alike_linearizeProbed (c : Component α) (inputs outputs : Array α) :
    c.Alike (stateAfter (c.linearizeProbed inputs outputs)) := by
  unfold linearizeProbed
  split_ifs
  · cases c.probe inputs outputs with
    | ok dense => exact ⟨rfl, rfl, rfl, rfl, rfl⟩
    | error e => exact .refl c
  · exact .refl c

theorem alike_fillColumn (c : Component α) (wrt : Wrt) (method : Method α) (k : Nat)
    (values : Array α) : c.Alike (c.fillColumn wrt method k values) := by
  refine ⟨rfl, rfl, rfl, rfl, Array.ext (by simp [fillColumn]) fun i h1 h2 => ?_⟩
  simp only [fillColumn, Array.getElem_map]
  split_ifs
  · simp [PartialBlock.outline]
  · rfl

theorem alike_approximateColumns (inputs outputs base : Array α) (c : Component α)
    (cols : List (Wrt × Method α × Nat × Column)) :
    c.Alike (stateAfter (approximateColumns inputs outputs base c cols)) := by
  induction cols generalizing c with
  | nil => exact .refl c
  | cons col cols ih =>
    obtain ⟨wrt, method, k, place⟩ := col
    unfold approximateColumns
    simp only
    split
    · exact (alike_fillColumn c wrt method k _).trans (ih _)
    · exact .refl c

theorem alike_approximate (c : Component α) (inputs outputs : Array α) :
    c.Alike (stateAfter (c.approximate inputs outputs)) := by
  unfold approximate
  simp only
  split_ifs
  · exact .refl c
  · cases c.raw inputs outputs with
    | error e => exact .refl c
    | ok base => exact alike_approximateColumns inputs outputs base c _

/-- **A linearization moves no entry**, also when it fails. -/
theorem alike_linearize (c : Component α) (inputs outputs : Array α) (strict : Option α) :
    c.Alike (stateAfter (c.linearize inputs outputs strict)) := by
  unfold linearize
  have h1 := alike_linearizeOwn c inputs outputs
  cases hc1 : c.linearizeOwn inputs outputs with
  | error e c1 =>
    rw [hc1] at h1
    exact h1
  | ok b c1 =>
    rw [hc1] at h1
    have h2 := h1.trans (alike_linearizeProbed c1 inputs outputs)
    simp only
    cases hc2 : c1.linearizeProbed inputs outputs with
    | error e c2 =>
      rw [hc2] at h2
      exact h2
    | ok b c2 =>
      rw [hc2] at h2
      have h3 := h2.trans (alike_approximate c2 inputs outputs)
      simp only
      cases hc3 : c2.approximate inputs outputs with
      | error e c3 =>
        rw [hc3] at h3
        exact h3
      | ok b c3 =>
        rw [hc3] at h3
        cases strict with
        | none => exact h3
        | some tol =>
          simp only
          cases c3.verify inputs outputs tol with
          | ok b => exact h3
          | error e => exact h3

/-- **A linearization that succeeds**: the discipline's own, what is probed and what is approximated
succeed one after the other, and nothing is found by the check that comes last. -/
theorem linearize_eq_ok {c c' : Component α} {x y : Array α} {strict : Option α} :
    c.linearize x y strict = .ok ⟨⟩ c' ↔ ∃ own probed, c.linearizeOwn x y = .ok ⟨⟩ own ∧
      own.linearizeProbed x y = .ok ⟨⟩ probed ∧ probed.approximate x y = .ok ⟨⟩ c' ∧
      ∀ tol, strict = some tol → c'.verify x y tol = .ok ⟨⟩ := by
  unfold linearize
  constructor
  · intro h
    cases hown : c.linearizeOwn x y with
    | error e own => simp [hown] at h
    | ok b own =>
      simp only [hown] at h
      cases hprobed : own.linearizeProbed x y with
      | error e probed => simp [hprobed] at h
      | ok b probed =>
        simp only [hprobed] at h
        cases happrox : probed.approximate x y with
        | error e c1 => simp [happrox] at h
        | ok b c1 =>
          simp only [happrox] at h
          cases strict with
          | none =>
            cases h
            exact ⟨own, probed, rfl, hprobed, happrox, fun _ h => nomatch h⟩
          | some tol =>
            simp only at h
            cases hverify : c1.verify x y tol with
            | error e => simp [hverify] at h
            | ok b =>
              rw [hverify] at h
              cases h
              refine ⟨own, probed, rfl, hprobed, happrox, fun _ h => ?_⟩
              cases h
              exact hverify
  · rintro ⟨own, probed, hown, hprobed, happrox, hverify⟩
    simp only [hown, hprobed, happrox]
    cases strict with
    | none => rfl
    | some tol => simp only [hverify tol rfl]

/-- The check at the end of a linearization changes no derivatives. -/
theorem linearize_strict {c after : Component α} {x y : Array α}
    (h : c.linearize x y none = .ok ⟨⟩ after) (tol : α) : c.linearize x y (some tol) =
      match after.verify x y tol with
      | .ok _ => .ok ⟨⟩ after
      | .error e => .error e after := by
  obtain ⟨own, probed, hown, hprobed, happrox, -⟩ := linearize_eq_ok.1 h
  cases hverify : after.verify x y tol with
  | ok b => simp only [linearize, hown, hprobed, happrox, hverify]
  | error e => simp only [linearize, hown, hprobed, happrox, hverify]

/-! ### What does not depend on derivatives -/

/-- Components that are alike differ in what linearizations write. -/
theorem Alike.eq_with {c c' : Component α} (h : c.Alike c') :
    c' = { c with partials := c'.partials, probed := c'.probed, memo := c'.memo } := by
  obtain ⟨hname, hdiscipline, hinputs, houtputs, -⟩ := h
  rw [← hname, ← hdiscipline, ← hinputs, ← houtputs]

/-- Probing does not depend on derivatives. -/
theorem Alike.probe {c c' : Component α} (h : c.Alike c') (inputs outputs : Array α) :
    c'.probe inputs outputs = c.probe inputs outputs := by
  have hcolumns : ∀ ks, c'.probeColumns inputs outputs ks = c.probeColumns inputs outputs ks := by
    intro ks
    induction ks with
    | nil => rfl
    | cons k ks ih => simp only [probeColumns, ih, h.name, h.discipline, h.inputs, h.outputs]
  simp only [Component.probe, hcolumns, h.inputs, h.outputs]

/-- An approximation changes derivatives only. -/
theorem rest_approximateColumns (x y base : Array α) (c : Component α)
    (cols : List (Wrt × Method α × Nat × Column)) :
    stateAfter (approximateColumns x y base c cols) =
      { c with partials := (stateAfter (approximateColumns x y base c cols)).partials } := by
  induction cols generalizing c with
  | nil => rfl
  | cons col cols ih =>
    obtain ⟨wrt, method, k, place⟩ := col
    unfold approximateColumns
    dsimp only
    split
    · exact ih _
    · rfl

theorem rest_approximate (c : Component α) (x y : Array α) :
    stateAfter (c.approximate x y) =
      { c with partials := (stateAfter (c.approximate x y)).partials } := by
  unfold approximate
  dsimp only
  split_ifs
  · rfl
  · cases c.raw x y with
    | error e => rfl
    | ok base => exact rest_approximateColumns x y base c _

/-! ### The places of entries -/

/-- Where an entry is. -/
def Entry.place (e : Entry α) : Nat × Column := (e.row, e.column)

omit [Scalar α] in
theorem zipWith_left {β γ δ : Type} (g : β → δ) (bs : List β) (cs : List γ) :
    List.zipWith (fun b _ => g b) bs cs = (bs.take cs.length).map g := by
  induction bs generalizing cs with
  | nil => simp
  | cons b bs ih =>
    cases cs with
    | nil => rfl
    | cons c cs => simp [ih]

/-- The places of the entries of a block, which its outline has as well. -/
theorem map_place_blockEntries (c : Component α) (sign : α) (b : PartialBlock α) :
    (c.blockEntries sign b).map Entry.place =
      (b.places.toList.take b.values.size).map fun q =>
        ((c.outputs.spanAt b.output).start + q.1, c.columnAt b.wrt q.2) := by
  have hlength : b.values.size = b.values.toList.length := Array.length_toList.symm
  rw [hlength, ← zipWith_left, blockEntries, PartialBlock.entries,
    List.map_map, List.map_zipWith]
  rfl

theorem Alike.capabilities {c c' : Component α} (h : c.Alike c') :
    c'.capabilities = c.capabilities := by
  rw [Component.capabilities, h.discipline, Component.capabilities]

/-- **Components that are alike have entries at the same places.** -/
theorem Alike.places {c c' : Component α} (h : c.Alike c') :
    c'.entries.map Entry.place = c.entries.map Entry.place := by
  have himplicit : c'.isImplicit = c.isImplicit := by rw [isImplicit, h.discipline, isImplicit]
  unfold entries
  rw [h.capabilities, himplicit, h.inputs, h.outputs]
  dsimp only
  split_ifs
  · simp only [List.map_flatMap, List.map_append, List.map_map]
    rfl
  all_goals
    rw [List.map_append, List.map_append, List.map_flatMap, List.map_flatMap]
    refine congrArg (_ ++ ·) ?_
    -- the blocks differ in values only
    have hsplit : ∀ (x : Component α) (sign : α),
        x.partials.blocks.toList.flatMap (fun b => (x.blockEntries sign b).map Entry.place) =
          ((x.partials.blocks.map PartialBlock.outline).toList).flatMap fun b =>
            (x.blockEntries sign b).map Entry.place := by
      intro x sign
      rw [Array.toList_map, List.flatMap_map]
      refine List.flatMap_congr fun b _ => ?_
      rw [map_place_blockEntries, map_place_blockEntries]
      simp [PartialBlock.outline]
    rw [hsplit c', hsplit c, h.partials]
    refine List.flatMap_congr fun b _ => ?_
    rw [map_place_blockEntries, map_place_blockEntries, h.outputs]
    simp only [columnAt, h.inputs, h.outputs]

/-! ### Sound components -/

/-- **Each declared entry lies inside the block of its variables**, and each variable inside its
buffer. -/
structure Sound (c : Component α) : Prop where
  inputs_bounded : c.inputs.Bounded
  outputs_bounded : c.outputs.Bounded
  places : ∀ b ∈ c.partials.blocks, ∀ q ∈ b.places,
    q.1 < (c.outputs.spanAt b.output).size ∧ q.2 < (c.wrtField b.wrt).2
  /-- Each declared entry has a value. -/
  values : ∀ b ∈ c.partials.blocks, b.values.size = b.places.size

/-- Soundness does not depend on values. -/
theorem Sound.alike {c c' : Component α} (hc : c.Sound) (h : c.Alike c') : c'.Sound := by
  refine ⟨h.inputs ▸ hc.inputs_bounded, h.outputs ▸ hc.outputs_bounded, fun b hb q hq => ?_,
    fun b hb => ?_⟩
  · obtain ⟨b', hb', heq⟩ := h.exists_outline hb
    have hplace := hc.places b' hb' q (PartialBlock.places_of_outline heq ▸ hq)
    rw [PartialBlock.output_of_outline heq, PartialBlock.wrt_of_outline heq] at hplace
    have hfield : c'.wrtField b.wrt = c.wrtField b.wrt := by
      cases b.wrt <;> simp only [wrtField, h.inputs, h.outputs]
    rw [h.outputs, hfield]
    exact hplace
  · obtain ⟨b', hb', heq⟩ := h.exists_outline hb
    rw [← PartialBlock.size_of_outline heq, ← PartialBlock.places_of_outline heq]
    exact hc.values b' hb'

/-- A block has as many values as it is declared for. -/
theorem size_of_valuesOf {n : Nat} {constant : Option (Array α)} {values : Array α}
    (h : valuesOf n constant = .ok values) : values.size = n := by
  cases constant with
  | none =>
    cases h
    simp
  | some v =>
    simp only [valuesOf] at h
    split at h
    · cases h
      simp
    · split_ifs at h with hsize
      cases h
      exact hsize

theorem placesOf_lt {n m : Nat} {s : Sparsity} {places : Array (Nat × Nat)}
    (h : placesOf n m s = .ok places) : ∀ q ∈ places, q.1 < n ∧ q.2 < m := by
  intro q hq
  cases s with
  | dense =>
    cases h
    simp only [List.mem_toArray, List.mem_flatMap, List.mem_range, List.mem_map] at hq
    obtain ⟨r, hr, k, hk, rfl⟩ := hq
    exact ⟨hr, hk⟩
  | sparse rows cols =>
    simp only [placesOf] at h
    split_ifs at h with h1 h2
    cases h
    have hz : (q.1, q.2) ∈ List.zip rows cols := by simpa using hq
    obtain ⟨hr, hk⟩ := List.of_mem_zip hz
    simp only [Bool.or_eq_true, List.any_eq_true, decide_eq_true_eq, not_or, not_exists,
      not_and, not_le] at h2
    exact ⟨h2.1 q.1 hr, h2.2 q.2 hk⟩

omit [Scalar α] in
/-- A block put among others is one of them, and any other was there before. -/
theorem mem_insert {p : Partials α} {b b' : PartialBlock α} (h : b' ∈ (p.insert b).blocks) :
    b' = b ∨ b' ∈ p.blocks := by
  unfold Partials.insert at h
  split at h
  · rcases Array.mem_or_eq_of_mem_setIfInBounds h with h | h
    · exact .inr h
    · exact .inl h
  · rcases Array.mem_push.1 h with h | h
    · exact .inr h
    · exact .inl h

/-- What a step of the declaration leaves alone. -/
structure Declares (c c' : Component α) : Prop where
  name : c'.name = c.name
  discipline : c'.discipline = c.discipline
  inputs : c'.inputs = c.inputs
  outputs : c'.outputs = c.outputs
  sound : c.Sound → c'.Sound

omit [Scalar α] in
theorem Declares.refl (c : Component α) : c.Declares c := ⟨rfl, rfl, rfl, rfl, id⟩

omit [Scalar α] in
theorem Declares.trans {c c' c'' : Component α} (h : c.Declares c') (h' : c'.Declares c'') :
    c.Declares c'' :=
  ⟨h'.name.trans h.name, h'.discipline.trans h.discipline, h'.inputs.trans h.inputs,
    h'.outputs.trans h.outputs, h'.sound ∘ h.sound⟩

theorem declares_block {c c' : Component α} {d : PartialDeclaration α} {output : Nat} {wrt : Wrt}
    (h : c.declareBlock d output wrt = .ok c') : c.Declares c' := by
  obtain ⟨places, hplaces, h⟩ := bind_eq_ok.1 h
  obtain ⟨values, hvalues, h⟩ := bind_eq_ok.1 h
  cases h
  refine ⟨rfl, rfl, rfl, rfl, fun hc => ⟨hc.inputs_bounded, hc.outputs_bounded, fun b hb q hq => ?_,
    fun b hb => ?_⟩⟩
  · rcases mem_insert hb with rfl | hb
    · exact placesOf_lt hplaces q hq
    · exact hc.places b hb q hq
  · rcases mem_insert hb with rfl | hb
    · exact size_of_valuesOf hvalues
    · exact hc.values b hb

theorem declares_blocks {c c' : Component α} {d : PartialDeclaration α} {pairs : List (Nat × Wrt)}
    (h : c.declareBlocks d pairs = .ok c') : c.Declares c' := by
  induction pairs generalizing c with
  | nil =>
    cases h
    exact .refl _
  | cons pair pairs ih =>
    obtain ⟨output, wrt⟩ := pair
    unfold declareBlocks at h
    cases hb : c.declareBlock d output wrt with
    | error e => simp [hb] at h
    | ok c1 =>
      rw [hb] at h
      exact (declares_block hb).trans (ih h)

theorem declares_partial {c c' : Component α} {d : PartialDeclaration α}
    (h : c.declarePartial d = .ok c') : c.Declares c' := by
  unfold declarePartial at h
  split_ifs at h
  simp only at h
  split at h
  · rename_i c1 hstored
    cases h
    obtain ⟨outputs, -, hstored⟩ := bind_eq_ok.1 hstored
    obtain ⟨wrts, -, hstored⟩ := bind_eq_ok.1 hstored
    exact declares_blocks hstored
  · cases h

theorem declares_partials {c c' : Component α} {ds : List (PartialDeclaration α)}
    (h : c.declarePartials ds = .ok c') : c.Declares c' := by
  induction ds generalizing c with
  | nil =>
    cases h
    exact .refl _
  | cons d ds ih =>
    unfold declarePartials at h
    cases hd : c.declarePartial d with
    | error e => simp [hd] at h
    | ok c1 =>
      rw [hd] at h
      exact (declares_partial hd).trans (ih h)

/-- The field of a variable that has a run of a buffer. -/
def fieldOf (p : Variable α × Span) : Layout.Field := ⟨p.1.name, p.2⟩

/-- What laying variables out behind a layout gives. -/
structure LaysOut (other l l' : Layout) (vs : List (Variable α)) : Prop where
  names : l'.names = l.names ++ vs.map Variable.name
  nodup : l.names.Nodup → l'.names.Nodup
  value_size : ∀ v ∈ vs, v.value.size = v.size
  fresh : ∀ v ∈ vs, v.name ∉ other.names
  bounded : l.Bounded → l.size + (vs.map Variable.size).sum < Count.modulus →
    l'.Bounded ∧ l'.size = l.size + (vs.map Variable.size).sum
  fields : l.size + (vs.map Variable.size).sum < Count.modulus →
    l'.fields.toList = l.fields.toList ++ (Variable.placed l.size vs).map fieldOf

omit [Scalar α] in
theorem laysOut {owner : String} {other l l' : Layout} {vs : List (Variable α)}
    (h : layOut owner other l vs = .ok l') : LaysOut other l l' vs := by
  induction vs generalizing l with
  | nil =>
    cases h
    exact ⟨by simp, id, by simp, by simp, fun hl _ => ⟨hl, rfl⟩, fun _ => by simp [Variable.placed]⟩
  | cons v vs ih =>
    simp only [layOut] at h
    split_ifs at h with hvalue hother
    cases hpush : l.push? v.name v.size with
    | none => simp [hpush] at h
    | some l1 =>
      rw [hpush] at h
      have hrest := ih h
      have hnames := Layout.push?_names hpush
      refine ⟨?_, fun hnodup => hrest.nodup ?_, ?_, fun w hw => ?_, fun hl hfit => ?_,
        fun hfit => ?_⟩
      · rw [hrest.names, hnames, List.map_cons, List.append_assoc, List.singleton_append]
      · rw [hnames]
        rw [← List.concat_eq_append]
        exact hnodup.concat (Layout.push?_eq_some hpush).1
      · intro w hw
        rcases List.mem_cons.1 hw with rfl | hw
        · exact not_not.1 hvalue
        · exact hrest.value_size w hw
      · rcases List.mem_cons.1 hw with rfl | hw
        · exact fun hmem => hother (Layout.position?_isSome.2 hmem)
        · exact hrest.fresh w hw
      · rw [List.map_cons, List.sum_cons] at hfit ⊢
        obtain ⟨hl1, hsize⟩ := Layout.push?_bounded hl hpush (by omega)
        obtain ⟨hl', hsize'⟩ := hrest.bounded hl1 (by omega)
        exact ⟨hl', by omega⟩
      · rw [List.map_cons, List.sum_cons] at hfit
        obtain ⟨-, rfl⟩ := Layout.push?_eq_some hpush
        have hsize : Count.add l.size v.size = l.size + v.size := Count.add_of_lt (by omega)
        rw [hrest.fields (by simp only [hsize]; omega)]
        simp only [hsize, Array.toList_push, List.append_assoc, List.singleton_append,
          Variable.placed, List.map_cons, fieldOf]

/-- **What `Component.declare` ensures** of the component of a discipline that can be counted. -/
structure IsDeclared (name : String) (d : Discipline α) (c : Component α) : Prop where
  name : c.name = name
  discipline : c.discipline = d
  sound : c.Sound
  size_inputs : c.inputs.size = (d.inputs.map Variable.size).sum
  size_outputs : c.outputs.size = (d.outputs.map Variable.size).sum
  names_inputs : c.inputs.names = d.inputs.map Variable.name
  names_outputs : c.outputs.names = d.outputs.map Variable.name
  nodup_inputs : (d.inputs.map Variable.name).Nodup
  nodup_outputs : (d.outputs.map Variable.name).Nodup
  disjoint : ∀ v ∈ d.outputs, v.name ∉ d.inputs.map Variable.name
  value_inputs : ∀ v ∈ d.inputs, v.value.size = v.size
  value_outputs : ∀ v ∈ d.outputs, v.value.size = v.size
  fields_inputs : c.inputs.fields.toList = (Variable.placed 0 d.inputs).map fieldOf
  fields_outputs : c.outputs.fields.toList = (Variable.placed 0 d.outputs).map fieldOf

omit [Scalar α] in
/-- An input of a declared component is found in its place. -/
theorem IsDeclared.span?_input {name : String} {d : Discipline α} {c : Component α}
    (h : IsDeclared name d c) {v : Variable α} {r : Span}
    (hv : (v, r) ∈ Variable.placed 0 d.inputs) : c.inputs.span? v.name = some r := by
  refine Layout.span?_of_mem (f := fieldOf (v, r)) (h.names_inputs ▸ h.nodup_inputs) ?_
  rw [← Array.mem_toList_iff, h.fields_inputs]
  exact List.mem_map.2 ⟨_, hv, rfl⟩

omit [Scalar α] in
/-- An output of a declared component is found in its place. -/
theorem IsDeclared.span?_output {name : String} {d : Discipline α} {c : Component α}
    (h : IsDeclared name d c) {v : Variable α} {r : Span}
    (hv : (v, r) ∈ Variable.placed 0 d.outputs) : c.outputs.span? v.name = some r := by
  refine Layout.span?_of_mem (f := fieldOf (v, r)) (h.names_outputs ▸ h.nodup_outputs) ?_
  rw [← Array.mem_toList_iff, h.fields_outputs]
  exact List.mem_map.2 ⟨_, hv, rfl⟩

omit [Scalar α] in
theorem IsDeclared.self {name : String} {d : Discipline α} {c : Component α}
    (h : IsDeclared name d c) : IsDeclared c.name c.discipline c := by
  rw [h.name, h.discipline]
  exact h

/-- A component stays declared while it is linearized. -/
theorem IsDeclared.alike {name : String} {d : Discipline α} {c c' : Component α}
    (h : IsDeclared name d c) (halike : c.Alike c') : IsDeclared name d c' where
  name := halike.name.trans h.name
  discipline := halike.discipline.trans h.discipline
  sound := h.sound.alike halike
  size_inputs := halike.inputs ▸ h.size_inputs
  size_outputs := halike.outputs ▸ h.size_outputs
  names_inputs := halike.inputs ▸ h.names_inputs
  names_outputs := halike.outputs ▸ h.names_outputs
  nodup_inputs := h.nodup_inputs
  nodup_outputs := h.nodup_outputs
  disjoint := h.disjoint
  value_inputs := h.value_inputs
  value_outputs := h.value_outputs
  fields_inputs := halike.inputs ▸ h.fields_inputs
  fields_outputs := halike.outputs ▸ h.fields_outputs

theorem isDeclared_of_declare {name : String} {d : Discipline α} {c : Component α}
    (h : declare name d = .ok c) (hd : d.Addressable) : IsDeclared name d c := by
  obtain ⟨inputs, hinputs, h⟩ := bind_eq_ok.1 h
  obtain ⟨outputs, houtputs, h⟩ := bind_eq_ok.1 h
  have hi := laysOut hinputs
  have ho := laysOut houtputs
  have hc := declares_partials h
  obtain ⟨hibounded, hisize⟩ := hi.bounded Layout.bounded_empty
    (by simpa [Layout.empty] using hd.inputs)
  obtain ⟨hobounded, hosize⟩ := ho.bounded Layout.bounded_empty
    (by simpa [Layout.empty] using hd.outputs)
  have hinames : inputs.names = d.inputs.map Variable.name := by
    simpa [Layout.names, Layout.empty] using hi.names
  have honames : outputs.names = d.outputs.map Variable.name := by
    simpa [Layout.names, Layout.empty] using ho.names
  refine ⟨hc.name, hc.discipline, hc.sound ⟨hibounded, hobounded, by simp [Partials.empty],
    by simp [Partials.empty]⟩, ?_, ?_, ?_, ?_, ?_, ?_, fun v hv => ?_, hi.value_size,
    ho.value_size, ?_, ?_⟩
  · rw [hc.inputs, hisize]
    simp [Layout.empty]
  · rw [hc.outputs, hosize]
    simp [Layout.empty]
  · rw [hc.inputs, hinames]
  · rw [hc.outputs, honames]
  · rw [← hinames]
    exact hi.nodup (by simp [Layout.names, Layout.empty])
  · rw [← honames]
    exact ho.nodup (by simp [Layout.names, Layout.empty])
  · rw [← hinames]
    exact ho.fresh v hv
  · rw [hc.inputs, hi.fields (by simpa [Layout.empty] using hd.inputs)]
    simp [Layout.empty]
  · rw [hc.outputs, ho.fields (by simpa [Layout.empty] using hd.outputs)]
    simp [Layout.empty]

/-! ### Variables of differentiation -/

/-- The derivatives of an explicit component are with respect to its inputs. -/
def ReadsInputs (c : Component α) : Prop :=
  c.isImplicit = false → ∀ b ∈ c.partials.blocks, ∃ p, b.wrt = .input p

theorem ReadsInputs.alike {c c' : Component α} (h : c.ReadsInputs) (halike : c.Alike c') :
    c'.ReadsInputs := by
  intro hexplicit b hb
  rw [isImplicit, halike.discipline] at hexplicit
  obtain ⟨b', hb', heq⟩ := halike.exists_outline hb
  obtain ⟨p, hp⟩ := h hexplicit b' hb'
  exact ⟨p, (PartialBlock.wrt_of_outline heq).symm.trans hp⟩

omit [Scalar α] in
/-- An explicit component is asked for derivatives with respect to inputs only. -/
theorem isInput_of_wrtsNamed {c : Component α} {name : String} {wrts : List Wrt}
    (hexplicit : c.isImplicit = false) (h : c.wrtsNamed name = .ok wrts) {w : Wrt}
    (hw : w ∈ wrts) : ∃ p, w = .input p := by
  simp only [wrtsNamed, hexplicit] at h
  split at h
  · cases h
    rw [if_neg Bool.false_ne_true, List.append_nil] at hw
    obtain ⟨p, -, rfl⟩ := List.mem_map.1 hw
    exact ⟨p, rfl⟩
  · split at h
    · cases h
      exact ⟨_, List.mem_singleton.1 hw⟩
    · cases h
    · cases h

/-- A block after a declaration was there before or is one of those declared. -/
theorem wrt_of_declareBlocks {c c' : Component α} {d : PartialDeclaration α}
    {pairs : List (Nat × Wrt)} (h : c.declareBlocks d pairs = .ok c') {b : PartialBlock α}
    (hb : b ∈ c'.partials.blocks) :
    b ∈ c.partials.blocks ∨ ∃ pair ∈ pairs, b.wrt = pair.2 := by
  induction pairs generalizing c with
  | nil =>
    cases h
    exact .inl hb
  | cons pair pairs ih =>
    obtain ⟨output, wrt⟩ := pair
    unfold declareBlocks at h
    cases hblock : c.declareBlock d output wrt with
    | error e => simp [hblock] at h
    | ok c1 =>
      rw [hblock] at h
      rcases ih h with hb | ⟨pair, hpair, hwrt⟩
      · obtain ⟨places, -, hblock⟩ := bind_eq_ok.1 hblock
        obtain ⟨values, -, hblock⟩ := bind_eq_ok.1 hblock
        cases hblock
        rcases mem_insert hb with rfl | hb
        · exact .inr ⟨_, List.mem_cons_self, rfl⟩
        · exact .inl hb
      · exact .inr ⟨pair, List.mem_cons_of_mem _ hpair, hwrt⟩

theorem ReadsInputs.declarePartials {c c' : Component α} {ds : List (PartialDeclaration α)}
    (hc : c.ReadsInputs) (h : c.declarePartials ds = .ok c') : c'.ReadsInputs := by
  induction ds generalizing c with
  | nil =>
    cases h
    exact hc
  | cons d ds ih =>
    unfold Component.declarePartials at h
    cases hd : c.declarePartial d with
    | error e => simp [hd] at h
    | ok c1 =>
      rw [hd] at h
      refine ih (fun hexplicit b hb => ?_) h
      rw [isImplicit, (declares_partial hd).discipline] at hexplicit
      unfold declarePartial at hd
      split_ifs at hd
      simp only at hd
      split at hd
      · rename_i c2 hstored
        cases hd
        obtain ⟨outputs, -, hstored⟩ := bind_eq_ok.1 hstored
        obtain ⟨wrts, hwrts, hstored⟩ := bind_eq_ok.1 hstored
        rcases wrt_of_declareBlocks hstored hb with hb | ⟨pair, hpair, hwrt⟩
        · exact hc hexplicit b hb
        · obtain ⟨o, -, hpair⟩ := List.mem_flatMap.1 hpair
          obtain ⟨w, hw, rfl⟩ := List.mem_map.1 hpair
          obtain ⟨p, rfl⟩ := isInput_of_wrtsNamed hexplicit hwrts hw
          exact ⟨p, hwrt⟩
      · cases hd

/-- **An explicit component has partial derivatives with respect to its inputs only.** -/
theorem readsInputs_of_declare {name : String} {d : Discipline α} {c : Component α}
    (h : declare name d = .ok c) : c.ReadsInputs := by
  obtain ⟨inputs, -, h⟩ := bind_eq_ok.1 h
  obtain ⟨outputs, -, h⟩ := bind_eq_ok.1 h
  refine ReadsInputs.declarePartials (fun _ b hb => ?_) h
  simp [Partials.empty] at hb

end Component

end Mdao
