import Mathlib
import Mdao.Proofs.Agree
import Mdao.Proofs.Component.Declared

/-!
# Derivatives that are written afresh

A component keeps its derivatives from one linearization to the next, and a linearization that fails
leaves them half written. This cannot be seen when every linearization writes the same entries
(`Component.LinearizesAfresh`): a component that has been linearized any number of times
(`Component.Aged`) gives, at any point, the same outcome as a new one, and after a result it is the
same component (`LinearizesAfresh.agrees`).

An entry is given by the position of its block and its number in the block.
-/

namespace Mdao

variable {α : Type}

/-! ### Entries of derivatives -/

namespace PartialBlock

variable [Zero α] {b b' : PartialBlock α}

/-- A block is its outline with its values. -/
theorem eq_of_outline (h : b'.outline = b.outline) (hvalues : b'.values = b.values) : b' = b := by
  cases b
  cases b'
  simp only [outline, mk.injEq] at h hvalues ⊢
  grind

end PartialBlock

namespace Partials

open PartialBlock (size_of_outline)

/-- The value of an entry. -/
def value? (p : Partials α) (j i : Nat) : Option α := p.blocks[j]?.bind fun b => b.values[i]?

/-- The value that a write gives an entry, if it writes the entry. -/
def written (p : Partials α) (w : PartialWrite α) (j i : Nat) : Option α :=
  match w with
  | .block output wrt values => if p.position? output wrt = some j then values[i]? else none
  | .entry output wrt index value =>
    if p.position? output wrt = some j ∧ index = i ∧ (p.value? j i).isSome then some value else none

variable [Scalar α] {p p' q : Partials α} {S S' : Nat → Nat → Prop}

theorem Alike.size (h : p.Alike q) : q.blocks.size = p.blocks.size := by
  simpa using congrArg Array.size h

/-- Derivatives that are alike have the same blocks up to values. -/
theorem Alike.getElem? (h : p.Alike q) (j : Nat) :
    (p.blocks[j]? = none ∧ q.blocks[j]? = none) ∨
      ∃ b b', p.blocks[j]? = some b ∧ q.blocks[j]? = some b' ∧ b'.outline = b.outline := by
  have hj : q.blocks[j]?.map PartialBlock.outline = p.blocks[j]?.map PartialBlock.outline := by
    simpa using congrArg (fun bs => bs[j]?) h
  cases hp : p.blocks[j]? with
  | none =>
    rw [hp, Option.map_none, Option.map_eq_none_iff] at hj
    exact .inl ⟨rfl, hj⟩
  | some b =>
    rw [hp, Option.map_some] at hj
    obtain ⟨b', hq, hb⟩ := Option.map_eq_some_iff.1 hj
    exact .inr ⟨b, b', rfl, hq, hb⟩

/-- A pair of variables has its block in the same place. -/
theorem Alike.position? (h : p.Alike q) (output wrt : String) :
    q.position? output wrt = p.position? output wrt := by
  have hfind := congrArg
    (Array.findIdx? fun b => b.outputName == output && b.wrtName == wrt) h
  rw [Array.findIdx?_map, Array.findIdx?_map] at hfind
  exact hfind

/-- A pair of variables has a block in both or in neither. -/
theorem Alike.find? (h : p.Alike q) (output wrt : String) :
    (p.find? output wrt = none ∧ q.find? output wrt = none) ∨
      ∃ b b', p.find? output wrt = some b ∧ q.find? output wrt = some b' ∧
        b'.outline = b.outline := by
  unfold Partials.find?
  rw [h.position?]
  cases p.position? output wrt with
  | none => exact .inl ⟨rfl, rfl⟩
  | some j => exact h.getElem? j

/-- Entries are there in both or in neither. -/
theorem Alike.isSome_value? (h : p.Alike q) (j i : Nat) :
    (q.value? j i).isSome = (p.value? j i).isSome := by
  unfold value?
  rcases h.getElem? j with ⟨hp, hq⟩ | ⟨b, b', hp, hq, hb⟩
  · rw [hp, hq]
  · rw [hp, hq, Option.bind_some, Option.bind_some, Bool.eq_iff_iff, isSome_getElem?,
      isSome_getElem?, size_of_outline hb]

theorem Alike.written (h : p.Alike q) (w : PartialWrite α) (j i : Nat) :
    q.written w j i = p.written w j i := by
  cases w with
  | block output wrt values => simp only [Partials.written, h.position?]
  | entry output wrt index value =>
    simp only [Partials.written, h.position?, h.isSome_value?]

omit [Scalar α] in
theorem value?_modify (p : Partials α) (k : Nat) (f : PartialBlock α → PartialBlock α) (j i : Nat) :
    value? ⟨p.blocks.modify k f⟩ j i =
      if k = j then p.blocks[j]?.bind fun b => (f b).values[i]? else p.value? j i := by
  unfold value?
  rw [Array.getElem?_modify]
  split_ifs with hkj
  · rw [Option.bind_map]
    rfl
  · rfl

omit [Scalar α] in
/-- The entries after a block is written: its values are as many as the block has. -/
theorem value?_set {output wrt : String} {values : Array α} (h : p.set output wrt values = .ok q)
    (j i : Nat) : q.value? j i = (p.written (.block output wrt values) j i).or (p.value? j i) := by
  unfold set at h
  cases hk : p.position? output wrt with
  | none => simp [hk] at h
  | some k =>
    simp only [hk] at h
    split_ifs at h with hsize
    cases h
    simp only [value?_modify, Partials.written, hk, Option.some.injEq]
    split_ifs with hkj
    · subst hkj
      unfold value?
      cases hb : p.blocks[k]? with
      | none =>
        rw [hb] at hsize
        rw [Array.eq_empty_of_size_eq_zero (not_not.1 hsize)]
        rfl
      | some b =>
        rw [hb] at hsize
        have hlength : values.size = b.values.size := not_not.1 hsize
        simp only [Option.bind_some]
        by_cases hi : i < values.size
        · rw [Array.getElem?_eq_getElem hi, Option.some_or]
        · rw [Array.getElem?_eq_none (not_lt.1 hi),
            Array.getElem?_eq_none (hlength ▸ not_lt.1 hi), Option.or_none]
    · rfl

omit [Scalar α] in
/-- The entries after one is written: outside its block nothing is. -/
theorem value?_setEntry {output wrt : String} {index : Nat} {value : α}
    (h : p.setEntry output wrt index value = .ok q) (j i : Nat) :
    q.value? j i = (p.written (.entry output wrt index value) j i).or (p.value? j i) := by
  unfold setEntry at h
  cases hk : p.position? output wrt with
  | none => simp [hk] at h
  | some k =>
    simp only [hk] at h
    cases h
    simp only [value?_modify, Partials.written, hk, Option.some.injEq]
    by_cases hkj : k = j
    · subst hkj
      unfold value?
      cases hb : p.blocks[k]? with
      | none => simp
      | some b =>
        by_cases hindex : index = i
        · subst hindex
          by_cases hi : index < b.values.size
          · simp [Array.getElem?_setIfInBounds, hi]
          · simp [Array.getElem?_setIfInBounds, hi]
        · simp [hindex]
    · simp [hkj]

omit [Scalar α] in
/-- The entries after a write. -/
theorem value?_write {w : PartialWrite α} (h : p.write w = .ok q) (j i : Nat) :
    q.value? j i = (p.written w j i).or (p.value? j i) := by
  cases w with
  | block output wrt values => exact value?_set h j i
  | entry output wrt index value => exact value?_setEntry h j i

/-- Whether a write fails, and how, depends on the declarations alone. -/
theorem Alike.write_eq_error (h : p.Alike q) {w : PartialWrite α} {e : PartialsError}
    (hp : p.write w = .error e) : q.write w = .error e := by
  cases w with
  | block output wrt values =>
    simp only [write, set] at hp ⊢
    rw [h.position?]
    cases hk : p.position? output wrt with
    | none =>
      rw [hk] at hp
      exact hp
    | some k =>
      simp only [hk] at hp ⊢
      rcases h.getElem? k with ⟨hnone, hnone'⟩ | ⟨b, b', hb, hb', houtline⟩
      · rw [hnone] at hp
        rw [hnone']
        dsimp only at hp ⊢
        split_ifs at hp ⊢
        exact hp
      · rw [hb] at hp
        rw [hb']
        dsimp only at hp ⊢
        simp only [size_of_outline houtline]
        split_ifs at hp ⊢
        exact hp
  | entry output wrt index value =>
    simp only [write, setEntry] at hp ⊢
    rw [h.position?]
    cases hk : p.position? output wrt with
    | none =>
      rw [hk] at hp
      exact hp
    | some k => simp [hk] at hp

/-! ### Derivatives that differ in some entries -/

/-- Derivatives with the same declarations and, outside of `S`, the same values. -/
structure EqOff (S : Nat → Nat → Prop) (p q : Partials α) : Prop where
  alike : p.Alike q
  value : ∀ j i, ¬S j i → q.value? j i = p.value? j i

namespace EqOff

theorem refl (S : Nat → Nat → Prop) (p : Partials α) : EqOff S p p := ⟨rfl, fun _ _ _ => rfl⟩

theorem symm (h : EqOff S p q) : EqOff S q p :=
  ⟨Eq.symm h.alike, fun j i hS => (h.value j i hS).symm⟩

theorem trans {r : Partials α} (h : EqOff S p q) (h' : EqOff S q r) : EqOff S p r :=
  ⟨Eq.trans h'.alike h.alike, fun j i hS => (h'.value j i hS).trans (h.value j i hS)⟩

theorem mono (h : EqOff S p q) (hS : ∀ j i, S j i → S' j i) : EqOff S' p q :=
  ⟨h.alike, fun j i hji => h.value j i fun hSji => hji (hS j i hSji)⟩

/-- Derivatives that differ nowhere are equal. -/
theorem eq (h : EqOff (fun _ _ => False) p q) : p = q := by
  have hblocks : p.blocks = q.blocks := by
    refine Array.ext h.alike.size.symm fun j hj hj' => ?_
    rcases h.alike.getElem? j with ⟨hnone, -⟩ | ⟨b, b', hb, hb', houtline⟩
    · rw [Array.getElem?_eq_getElem hj] at hnone
      cases hnone
    · have hvalues : b'.values = b.values := by
        refine Array.ext_getElem? fun i => ?_
        have hvalue := h.value j i id
        rw [value?, value?, hb, hb'] at hvalue
        exact hvalue
      rw [(Array.getElem?_eq_some_iff.1 hb).2, (Array.getElem?_eq_some_iff.1 hb').2]
      exact (PartialBlock.eq_of_outline houtline hvalues).symm
  cases p
  cases q
  exact congrArg _ hblocks

/-- A write leaves all other entries alone. -/
theorem of_write {w : PartialWrite α} (h : p.write w = .ok q) :
    EqOff (fun j i => (p.written w j i).isSome) p q := by
  refine ⟨alike_write h, fun j i hji => ?_⟩
  rw [value?_write h, Option.not_isSome_iff_eq_none.1 hji, Option.none_or]

/-- Writes leave all other entries alone, also where one of them fails. -/
theorem of_writeAll (p : Partials α) (ws : List (PartialWrite α)) :
    EqOff (fun j i => ∃ w ∈ ws, (p.written w j i).isSome) p (stateAfter (p.writeAll ws)) := by
  induction ws generalizing p with
  | nil => exact .refl _ p
  | cons w ws ih =>
    unfold writeAll
    cases hw : p.write w with
    | error e => exact .refl _ p
    | ok q =>
      refine ((of_write hw).mono fun j i hji => ⟨w, List.mem_cons_self, hji⟩).trans
        ((ih q).mono fun j i hji => ?_)
      obtain ⟨v, hv, hji⟩ := hji
      exact ⟨v, List.mem_cons_of_mem w hv, (alike_write hw).written v j i ▸ hji⟩

/-- **Entries that are written are equal afterwards**, whatever they were before. -/
theorem writeAll (h : EqOff S p q) (ws : List (PartialWrite α)) :
    Agree (EqOff fun j i => S j i ∧ ∀ w ∈ ws, p.written w j i = none) (fun _ _ => True)
      (p.writeAll ws) (q.writeAll ws) := by
  induction ws generalizing S p q with
  | nil => exact .ok () (h.mono fun j i hji => ⟨hji, fun _ hw => nomatch hw⟩)
  | cons w ws ih =>
    unfold Partials.writeAll
    cases hp : p.write w with
    | error e =>
      rw [h.alike.write_eq_error hp]
      exact .error _ trivial
    | ok p' =>
      cases hq : q.write w with
      | error e =>
        rw [Alike.write_eq_error (Eq.symm h.alike) hq] at hp
        cases hp
      | ok q' =>
        have hnext : EqOff (fun j i => S j i ∧ p.written w j i = none) p' q' := by
          refine ⟨((alike_write hq).trans h.alike).trans (Eq.symm (alike_write hp)), fun j i hji => ?_⟩
          rw [value?_write hp, value?_write hq, h.alike.written]
          cases hwritten : p.written w j i with
          | some v => rfl
          | none =>
            rw [Option.none_or, Option.none_or]
            exact h.value j i fun hSji => hji ⟨hSji, hwritten⟩
        refine (ih hnext).mono (fun _ _ h => h.mono fun j i hji => ?_) fun _ _ _ => trivial
        refine ⟨hji.1.1, fun v hv => ?_⟩
        rcases List.mem_cons.1 hv with rfl | hv
        · exact hji.1.2
        · exact (alike_write hp).written v j i ▸ hji.2 v hv

end EqOff

end Partials

namespace Component

variable [Scalar α] {c c' c₀ : Component α} {S : Nat → Nat → Prop}

/-! ### What does not depend on derivatives -/

theorem Alike.ownLinearization (h : c.Alike c') (x y : Array α) :
    c'.ownLinearization x y = c.ownLinearization x y := by
  rw [h.eq_with]
  rfl

theorem Alike.raw (h : c.Alike c') (x y : Array α) : c'.raw x y = c.raw x y := by
  rw [h.eq_with]
  rfl

theorem Alike.fdColumn (h : c.Alike c') (x y : Array α) (o : FdOptions α) (base : Array α)
    (k : Column) : c'.fdColumn x y o base k = c.fdColumn x y o base k := by
  rw [h.eq_with]
  rfl

theorem Alike.csColumn (h : c.Alike c') (x y : Array α) (step : α) (k : Column) :
    c'.csColumn x y step k = c.csColumn x y step k := by
  rw [h.eq_with]
  rfl

theorem Alike.columnsOf (h : c.Alike c') (wrt : Wrt) : c'.columnsOf wrt = c.columnsOf wrt := by
  rw [h.eq_with]
  rfl

theorem Alike.approximationGroups (h : c.Alike c') :
    c'.approximationGroups = c.approximationGroups := by
  -- the blocks differ in values only, and the groups do not depend on values
  have houtline : ∀ d : Component α, d.approximationGroups =
      Component.approximationGroups { d with partials := ⟨d.partials.blocks.map PartialBlock.outline⟩ } := by
    intro d
    unfold Component.approximationGroups
    rw [Array.foldl_map]
    rfl
  rw [houtline c', houtline c, h.partials]
  rfl

/-! ### Approximated entries -/

/-- The value that a column gives an entry, if it fills the entry. -/
def filled (c : Component α) (wrt : Wrt) (method : Method α) (k : Nat) (values : Array α)
    (j i : Nat) : Option α :=
  c.partials.blocks[j]?.bind fun b =>
    if b.wrt == wrt && b.method == method && !b.constant then
      b.places[i]?.bind fun place =>
        if place.2 = k ∧ i < b.values.size then
          some (Vec.entry values ((c.outputs.spanAt b.output).start + place.1))
        else none
    else none

/-- The entries after a column has been filled in. -/
theorem value?_fillColumn (c : Component α) (wrt : Wrt) (method : Method α) (k : Nat)
    (values : Array α) (j i : Nat) : (c.fillColumn wrt method k values).partials.value? j i =
      (c.filled wrt method k values j i).or (c.partials.value? j i) := by
  unfold fillColumn filled Partials.value?
  simp only [Array.getElem?_map]
  cases c.partials.blocks[j]? with
  | none => rfl
  | some b =>
    simp only [Option.map_some, Option.bind_some]
    split_ifs
    · rw [Array.getElem?_mapIdx]
      by_cases hi : i < b.values.size
      · rw [Array.getElem?_eq_getElem hi]
        cases b.places[i]? with
        | none => rfl
        | some place =>
          by_cases hplace : place.2 = k
          · simp [hplace, hi]
          · simp [hplace]
      · rw [Array.getElem?_eq_none (not_lt.1 hi)]
        cases b.places[i]? with
        | none => rfl
        | some place => simp [hi]
    · rfl

/-- Which entries are filled depends on the declarations alone. -/
theorem Alike.filled (h : c.Alike c') (wrt : Wrt) (method : Method α) (k : Nat)
    (values : Array α) (j i : Nat) :
    c'.filled wrt method k values j i = c.filled wrt method k values j i := by
  unfold Component.filled
  rcases h.partials.getElem? j with ⟨hb, hb'⟩ | ⟨b, b', hb, hb', houtline⟩
  · rw [hb, hb']
    rfl
  · have hsize := PartialBlock.size_of_outline houtline
    simp only [PartialBlock.outline, PartialBlock.mk.injEq] at houtline
    obtain ⟨houtput, hwrt, -, -, -, hplaces, -, hmethod, hconstant, -⟩ := houtline
    simp only [hb, hb', Option.bind_some, houtput, hwrt, hplaces, hmethod, hconstant, hsize,
      h.outputs]

/-- Which entries are filled does not depend on the values of the column. -/
theorem isSome_filled (c : Component α) (wrt : Wrt) (method : Method α) (k : Nat)
    (values values' : Array α) (j i : Nat) :
    (c.filled wrt method k values j i).isSome = (c.filled wrt method k values' j i).isSome := by
  unfold filled
  cases c.partials.blocks[j]? with
  | none => rfl
  | some b =>
    simp only [Option.bind_some]
    split_ifs
    · cases b.places[i]? with
      | none => rfl
      | some place =>
        simp only [Option.bind_some]
        split_ifs
        · rfl
        · rfl
    · rfl

/-- The columns that are approximated, in turn. -/
def approximatedColumns (c : Component α) : List (Wrt × Method α × Nat × Column) :=
  c.approximationGroups.flatMap fun g => (c.columnsOf g.1).map fun k => (g.1, g.2, k.1, k.2)

/-- An entry is filled whenever the component is approximated. -/
def Approximates (c : Component α) (j i : Nat) : Prop :=
  ∃ col ∈ c.approximatedColumns, (c.filled col.1 col.2.1 col.2.2.1 #[] j i).isSome

theorem Alike.approximates (h : c.Alike c') (j i : Nat) :
    c'.Approximates j i ↔ c.Approximates j i := by
  unfold Approximates approximatedColumns
  simp only [h.approximationGroups, h.columnsOf, h.filled]

/-! ### Approximating -/

/-- Components that are equal but for some entries of their derivatives. -/
structure EqOff (S : Nat → Nat → Prop) (c c' : Component α) : Prop where
  rest : c' = { c with partials := c'.partials }
  partials : c.partials.EqOff S c'.partials

namespace EqOff

theorem alike (h : c.EqOff S c') : c.Alike c' := by
  rw [h.rest]
  exact ⟨rfl, rfl, rfl, rfl, h.partials.alike⟩

theorem mono {S' : Nat → Nat → Prop} (h : c.EqOff S c') (hS : ∀ j i, S j i → S' j i) :
    c.EqOff S' c' := ⟨h.rest, h.partials.mono hS⟩

theorem eq (h : c.EqOff (fun _ _ => False) c') : c = c' := by
  rw [h.rest, ← h.partials.eq]

/-- A column leaves all other entries alone. -/
theorem of_fillColumn (c : Component α) (wrt : Wrt) (method : Method α) (k : Nat)
    (values : Array α) :
    c.partials.EqOff (fun j i => (c.filled wrt method k #[] j i).isSome)
      (c.fillColumn wrt method k values).partials := by
  refine ⟨(alike_fillColumn c wrt method k values).partials, fun j i hji => ?_⟩
  rw [isSome_filled c wrt method k #[] values] at hji
  rw [value?_fillColumn, Option.not_isSome_iff_eq_none.1 hji, Option.none_or]

/-- Entries of a column that is filled in are equal afterwards. -/
theorem fillColumn (h : c.EqOff S c') (wrt : Wrt) (method : Method α) (k : Nat)
    (values : Array α) :
    EqOff (fun j i => S j i ∧ c.filled wrt method k #[] j i = none)
      (c.fillColumn wrt method k values) (c'.fillColumn wrt method k values) := by
  have hrest : c'.fillColumn wrt method k values =
      { c.fillColumn wrt method k values with
        partials := (c'.fillColumn wrt method k values).partials } := by
    rw [h.rest]
    rfl
  have halike := (h.alike.trans (alike_fillColumn c' wrt method k values)).partials.trans
    (Eq.symm (alike_fillColumn c wrt method k values).partials)
  refine ⟨hrest, halike, fun j i hji => ?_⟩
  rw [value?_fillColumn, value?_fillColumn, h.alike.filled]
  cases hfilled : c.filled wrt method k values j i with
  | some v => rfl
  | none =>
    rw [Option.none_or, Option.none_or]
    refine h.partials.value j i fun hS => hji ⟨hS, ?_⟩
    have hnone := isSome_filled c wrt method k #[] values j i
    rw [hfilled] at hnone
    exact Option.not_isSome_iff_eq_none.1 (hnone ▸ Bool.false_ne_true)

/-- Columns leave all other entries alone, also where one of them fails. -/
theorem of_approximateColumns (x y base : Array α) (c : Component α)
    (cols : List (Wrt × Method α × Nat × Column)) :
    c.partials.EqOff (fun j i => ∃ col ∈ cols, (c.filled col.1 col.2.1 col.2.2.1 #[] j i).isSome)
      (stateAfter (approximateColumns x y base c cols)).partials := by
  induction cols generalizing c with
  | nil => exact .refl _ _
  | cons col cols ih =>
    obtain ⟨wrt, method, k, place⟩ := col
    unfold Component.approximateColumns
    dsimp only
    split
    · rename_i v _
      refine ((of_fillColumn c wrt method k v).mono fun j i hji =>
        ⟨_, List.mem_cons_self, hji⟩).trans ((ih _).mono fun j i hji => ?_)
      obtain ⟨col, hcol, hji⟩ := hji
      rw [(alike_fillColumn c wrt method k v).filled] at hji
      exact ⟨col, List.mem_cons_of_mem _ hcol, hji⟩
    · exact .refl _ _

/-- **Entries that are approximated are equal afterwards**, whatever they were before. -/
theorem approximateColumns (h : c.EqOff S c') (x y base : Array α)
    (cols : List (Wrt × Method α × Nat × Column)) :
    Agree (EqOff fun j i => S j i ∧
        ∀ col ∈ cols, c.filled col.1 col.2.1 col.2.2.1 #[] j i = none) (fun _ _ => True)
      (approximateColumns x y base c cols) (approximateColumns x y base c' cols) := by
  induction cols generalizing S c c' with
  | nil => exact .ok _ (h.mono fun j i hji => ⟨hji, fun _ hcol => nomatch hcol⟩)
  | cons col cols ih =>
    obtain ⟨wrt, method, k, place⟩ := col
    have hnext : ∀ v, Agree (EqOff fun j i => S j i ∧ ∀ col ∈ (wrt, method, k, place) :: cols,
          c.filled col.1 col.2.1 col.2.2.1 #[] j i = none) (fun _ _ => True)
        (Component.approximateColumns x y base (c.fillColumn wrt method k v) cols)
        (Component.approximateColumns x y base (c'.fillColumn wrt method k v) cols) := by
      intro v
      refine (ih (h.fillColumn wrt method k v)).mono (fun _ _ h => h.mono fun j i hji => ?_)
        fun _ _ _ => trivial
      refine ⟨hji.1.1, fun col hcol => ?_⟩
      rcases List.mem_cons.1 hcol with rfl | hcol
      · exact hji.1.2
      · exact (alike_fillColumn c wrt method k v).filled _ _ _ _ j i ▸ hji.2 col hcol
    unfold Component.approximateColumns
    cases method with
    | exact => exact hnext #[]
    | fd o =>
      dsimp only
      rw [h.alike.fdColumn]
      cases c.fdColumn x y o base place with
      | ok v => exact hnext v
      | error e => exact .error e trivial
    | cs step =>
      dsimp only
      rw [h.alike.csColumn]
      cases c.csColumn x y step place with
      | ok v => exact hnext v
      | error e => exact .error e trivial

end EqOff

/-- An approximation leaves the other entries alone, also where it fails. -/
theorem eqOff_approximate (c : Component α) (x y : Array α) :
    c.partials.EqOff c.Approximates (stateAfter (c.approximate x y)).partials := by
  unfold approximate
  dsimp only
  split_ifs
  · exact .refl _ _
  · cases c.raw x y with
    | error e => exact .refl _ _
    | ok base => exact EqOff.of_approximateColumns x y base c c.approximatedColumns

/-- **Components that differ in approximated entries alone** are equal once they are approximated. -/
theorem EqOff.approximate (h : c.EqOff c.Approximates c') (x y : Array α) :
    Agree Eq (fun _ _ => True) (c.approximate x y) (c'.approximate x y) := by
  unfold Component.approximate
  dsimp only
  rw [h.alike.approximationGroups, h.alike.raw]
  simp only [h.alike.columnsOf]
  split_ifs with hgroups
  · refine .ok _ (h.mono fun j i hji => ?_).eq
    obtain ⟨col, hcol, -⟩ := hji
    rw [approximatedColumns, List.isEmpty_iff.1 hgroups] at hcol
    cases hcol
  · cases c.raw x y with
    | error e => exact .error e trivial
    | ok base =>
      refine (h.approximateColumns x y base c.approximatedColumns).mono (fun _ _ h => ?_)
        fun _ _ h => h
      refine (h.mono fun j i hji => ?_).eq
      obtain ⟨col, hcol, hfilled⟩ := hji.1
      rw [hji.2 col hcol] at hfilled
      cases hfilled

/-! ### Linearizing again and again -/

/-- Some linearization of the component writes the entry. -/
def Writes (c : Component α) (j i : Nat) : Prop :=
  ∃ x y : Array α, x.size = c.inputs.size ∧ y.size = c.outputs.size ∧
    ∃ w ∈ (c.ownLinearization x y).writes, (c.partials.written w j i).isSome

/-- Some linearization of the component keeps numbers for later linear solves. -/
def Keeps (c : Component α) : Prop :=
  ∃ x y : Array α, x.size = c.inputs.size ∧ y.size = c.outputs.size ∧
    isResult (c.linearizeOwn x y) = true ∧ (c.ownLinearization x y).memo.isSome

/-- **Linearizations leave nothing of earlier ones**: one that succeeds writes every entry that
another one may have written, unless the entry is approximated anyway, and keeps numbers where
another one may have. So it is when every linearization writes all exact derivatives that are not
constant, and no others (`linearizesAfresh_of_exact`). -/
structure LinearizesAfresh (c : Component α) : Prop where
  partials : ∀ j i, c.Writes j i → ¬c.Approximates j i → ∀ x y : Array α,
    x.size = c.inputs.size → y.size = c.outputs.size → isResult (c.linearizeOwn x y) = true →
    ∃ w ∈ (c.ownLinearization x y).writes, (c.partials.written w j i).isSome
  memo : c.Keeps → ∀ x y : Array α, x.size = c.inputs.size → y.size = c.outputs.size →
    isResult (c.linearizeOwn x y) = true → (c.ownLinearization x y).memo.isSome

/-- A component that has been linearized, maybe in part: it is the same but for entries that are
written or approximated, and for what is kept where something is kept. -/
structure Aged (c c' : Component α) : Prop where
  alike : c.Alike c'
  partials : c.partials.EqOff (fun j i => c.Writes j i ∨ c.Approximates j i) c'.partials
  probed : c.capabilities.applyLinear = false → c'.probed = c.probed
  memo : ¬c.Keeps → c'.memo = c.memo

variable {x y : Array α}

/-- What the own linearizations of two components leave behind. -/
theorem Alike.linearizeOwn_agrees (h : c.Alike c') (hS : c.partials.EqOff S c'.partials)
    (x y : Array α) : Agree
      (fun d d' => d.partials.EqOff (fun j i => S j i ∧
          ∀ w ∈ (c.ownLinearization x y).writes, c.partials.written w j i = none) d'.partials ∧
        d = { c with
          partials := d.partials, memo := (c.ownLinearization x y).memo.getD c.memo } ∧
        d' = { c' with
          partials := d'.partials, memo := (c.ownLinearization x y).memo.getD c'.memo })
      (fun _ _ => True) (c.linearizeOwn x y) (c'.linearizeOwn x y) := by
  rw [linearizeOwn_eq, linearizeOwn_eq, h.ownLinearization]
  generalize c.ownLinearization x y = l
  have hwrites := hS.writeAll l.writes
  unfold afterWrites
  revert hwrites
  generalize c.partials.writeAll l.writes = r
  generalize c'.partials.writeAll l.writes = r'
  rintro (⟨_, hp⟩ | ⟨e, -⟩)
  · dsimp only
    cases l.failure with
    | some e =>
      rw [h.name]
      exact .error _ trivial
    | none => exact .ok _ ⟨hp, rfl, rfl⟩
  · dsimp only
    rw [h.name]
    exact .error _ trivial

/-- Whether a component's own linearization succeeds depends on the declarations alone. -/
theorem Alike.isResult_linearizeOwn (h : c.Alike c') (x y : Array α) :
    isResult (c'.linearizeOwn x y) = isResult (c.linearizeOwn x y) :=
  (h.linearizeOwn_agrees (S := fun _ _ => True) ⟨h.partials, fun _ _ hji => (hji trivial).elim⟩
    x y).isResult_eq

namespace Aged

theorem refl (c : Component α) : c.Aged c := ⟨.refl c, .refl _ _, fun _ => rfl, fun _ => rfl⟩

/-- Other derivatives, which differ in entries that are written or approximated. -/
theorem withPartials (h : c₀.Aged c) {p : Partials α}
    (hp : c.partials.EqOff (fun j i => c₀.Writes j i ∨ c₀.Approximates j i) p) :
    c₀.Aged { c with partials := p } :=
  ⟨h.alike.trans ⟨rfl, rfl, rfl, rfl, hp.alike⟩, h.partials.trans hp, h.probed, h.memo⟩

theorem linearizeOwn (h : c₀.Aged c) (hx : x.size = c₀.inputs.size)
    (hy : y.size = c₀.outputs.size) : c₀.Aged (stateAfter (c.linearizeOwn x y)) := by
  have hresult := h.alike.isResult_linearizeOwn x y
  have hoff : Partials.EqOff (fun j i => c₀.Writes j i ∨ c₀.Approximates j i) c.partials
      (stateAfter (c.partials.writeAll (c.ownLinearization x y).writes)) := by
    refine (Partials.EqOff.of_writeAll c.partials (c.ownLinearization x y).writes).mono ?_
    rintro j i ⟨w, hw, hji⟩
    rw [h.alike.ownLinearization] at hw
    rw [h.alike.partials.written] at hji
    exact .inl ⟨x, y, hx, hy, w, hw, hji⟩
  revert hresult
  rw [linearizeOwn_eq]
  unfold afterWrites
  cases hwrites : c.partials.writeAll (c.ownLinearization x y).writes with
  | error e p =>
    rw [hwrites] at hoff
    exact fun _ => h.withPartials hoff
  | ok _ p =>
    rw [hwrites] at hoff
    dsimp only
    cases (c.ownLinearization x y).failure with
    | some e => exact fun _ => h.withPartials hoff
    | none =>
      intro hresult
      have hp := h.withPartials hoff
      refine ⟨hp.alike.trans ⟨rfl, rfl, rfl, rfl, rfl⟩, hp.partials, hp.probed, fun hkeeps => ?_⟩
      -- a linearization that keeps nothing leaves what was kept before
      have hnone : (c.ownLinearization x y).memo = none := by
        refine Option.not_isSome_iff_eq_none.1 fun hsome => hkeeps ?_
        rw [h.alike.ownLinearization] at hsome
        exact ⟨x, y, hx, hy, hresult.symm, hsome⟩
      dsimp only
      rw [hnone]
      exact h.memo hkeeps

theorem linearizeProbed (h : c₀.Aged c) (x y : Array α) :
    c₀.Aged (stateAfter (c.linearizeProbed x y)) := by
  unfold Component.linearizeProbed
  split_ifs with happly
  · cases c.probe x y with
    | error e => exact h
    | ok dense =>
      refine ⟨h.alike.trans ⟨rfl, rfl, rfl, rfl, rfl⟩, h.partials, fun hno => ?_, h.memo⟩
      rw [h.alike.capabilities, hno] at happly
      cases happly
  · exact h

theorem approximate (h : c₀.Aged c) (x y : Array α) :
    c₀.Aged (stateAfter (c.approximate x y)) := by
  rw [rest_approximate]
  exact h.withPartials ((eqOff_approximate c x y).mono fun j i hji =>
    .inr ((h.alike.approximates j i).1 hji))

/-- **A linearization ages a component**, also one that fails. -/
theorem linearize (h : c₀.Aged c) (hx : x.size = c₀.inputs.size) (hy : y.size = c₀.outputs.size)
    (strict : Option α) : c₀.Aged (stateAfter (c.linearize x y strict)) := by
  have h1 := h.linearizeOwn hx hy
  unfold Component.linearize
  cases hd : c.linearizeOwn x y with
  | error e d =>
    rw [hd] at h1
    exact h1
  | ok _ d =>
    rw [hd] at h1
    have h2 := h1.linearizeProbed x y
    dsimp only
    cases hd' : d.linearizeProbed x y with
    | error e d' =>
      rw [stateAfter_ok, hd'] at h2
      exact h2
    | ok _ d' =>
      rw [stateAfter_ok, hd'] at h2
      have h3 := h2.approximate x y
      dsimp only
      cases hd'' : d'.approximate x y with
      | error e d'' =>
        rw [stateAfter_ok, hd''] at h3
        exact h3
      | ok _ d'' =>
        rw [stateAfter_ok, hd''] at h3
        cases strict with
        | none => exact h3
        | some tol =>
          dsimp only
          cases d''.verify x y tol with
          | ok _ => exact h3
          | error e => exact h3

end Aged

/-- Probing makes what is probed equal. -/
theorem Alike.linearizeProbed_agrees (h : c.Alike c') (hS : c.partials.EqOff S c'.partials)
    (hprobed : c.capabilities.applyLinear = false → c'.probed = c.probed) (hmemo : c'.memo = c.memo)
    (x y : Array α) :
    Agree (EqOff S) (fun _ _ => True) (c.linearizeProbed x y) (c'.linearizeProbed x y) := by
  have hrest : ∀ probed, { c' with probed := probed } =
      { c with partials := c'.partials, probed := probed } := by
    intro probed
    obtain ⟨hname, hdiscipline, hinputs, houtputs, -⟩ := h
    rw [← hname, ← hdiscipline, ← hinputs, ← houtputs, ← hmemo]
  unfold Component.linearizeProbed
  rw [h.probe, h.capabilities]
  split_ifs with happly
  · cases c.probe x y with
    | error e => exact .error e trivial
    | ok dense => exact .ok _ ⟨hrest (some dense), hS⟩
  · have hsame := hrest c'.probed
    rw [hprobed (Bool.eq_false_iff.2 happly)] at hsame
    exact .ok _ ⟨by rw [← hsame, ← hprobed (Bool.eq_false_iff.2 happly)], hS⟩

namespace LinearizesAfresh

variable (hc : c₀.LinearizesAfresh) (h : c₀.Aged c) (h' : c₀.Aged c') (hx : x.size = c₀.inputs.size)
  (hy : y.size = c₀.outputs.size)

include hc h h' hx hy

/-- After own linearizations at a point, only approximated and probed derivatives still differ. -/
theorem own_agrees : Agree
    (fun d d' => (c₀.Aged d ∧ c₀.Aged d') ∧ d.partials.EqOff c₀.Approximates d'.partials ∧
      d'.memo = d.memo) (fun _ _ => True) (c.linearizeOwn x y) (c'.linearizeOwn x y) := by
  have halike := h.alike.symm.trans h'.alike
  have hown := halike.linearizeOwn_agrees (h.partials.symm.trans h'.partials) x y
  have hresult := h.alike.isResult_linearizeOwn x y
  have haged := h.linearizeOwn hx hy
  have haged' := h'.linearizeOwn hx hy
  revert hown hresult haged haged'
  generalize c.linearizeOwn x y = r
  generalize c'.linearizeOwn x y = r'
  rintro (⟨_, hd⟩ | ⟨e, -⟩) hresult haged haged'
  · rename_i d d'
    obtain ⟨hpartials, heq, heq'⟩ := hd
    refine .ok _ ⟨⟨haged, haged'⟩, hpartials.mono fun j i hji => ?_, ?_⟩
    · rcases hji.1 with hwrites | happroximates
      · by_contra hnot
        obtain ⟨w, hw, hji'⟩ := hc.partials j i hwrites hnot x y hx hy hresult.symm
        rw [← h.alike.ownLinearization] at hw
        rw [← h.alike.partials.written, hji.2 w hw] at hji'
        cases hji'
      · exact happroximates
    · rw [heq, heq']
      dsimp only
      cases hkept : (c.ownLinearization x y).memo with
      | some memo => rfl
      | none =>
        have hkeeps : ¬c₀.Keeps := fun hkeeps => by
          have hsome := hc.memo hkeeps x y hx hy hresult.symm
          rw [← h.alike.ownLinearization, hkept] at hsome
          cases hsome
        exact (h'.memo hkeeps).trans (h.memo hkeeps).symm
  · exact .error e trivial

/-- **It does not show how often a component has been linearized before**, also with failures: at a
point, linearizations have the same outcome, and leave the same component if they succeed. -/
theorem agrees (strict : Option α) :
    Agree Eq (fun _ _ => True) (c.linearize x y strict) (c'.linearize x y strict) := by
  have hown := hc.own_agrees h h' hx hy
  unfold Component.linearize
  revert hown
  generalize c.linearizeOwn x y = r
  generalize c'.linearizeOwn x y = r'
  rintro (⟨_, ⟨⟨haged, haged'⟩, hS, hmemo⟩⟩ | ⟨e, -⟩)
  · rename_i d d'
    have hprobed : d.capabilities.applyLinear = false → d'.probed = d.probed := by
      intro hno
      rw [haged.alike.capabilities] at hno
      exact (haged'.probed hno).trans (haged.probed hno).symm
    have hprobe := (haged.alike.symm.trans haged'.alike).linearizeProbed_agrees hS hprobed hmemo x y
    have halike := haged.linearizeProbed x y
    dsimp only
    revert hprobe halike
    generalize d.linearizeProbed x y = s
    generalize d'.linearizeProbed x y = s'
    rintro (⟨_, hd⟩ | ⟨e, -⟩) haged
    · rename_i d d'
      change c₀.Aged d at haged
      have happroximate := (hd.mono fun j i => (haged.alike.approximates j i).2).approximate x y
      dsimp only
      revert happroximate
      generalize d.approximate x y = t
      generalize d'.approximate x y = t'
      rintro (⟨_, rfl⟩ | ⟨e, -⟩)
      · rename_i d
        cases strict with
        | none => exact .ok _ rfl
        | some tol =>
          dsimp only
          cases d.verify x y tol with
          | ok _ => exact .ok _ rfl
          | error e => exact .error e trivial
      · exact .error e trivial
    · exact .error e trivial
  · exact .error e trivial

end LinearizesAfresh

/-! ### Linearizations that write the exact derivatives -/

/-- An entry of an exact derivative that is not constant. -/
def IsExact (c : Component α) (j i : Nat) : Prop :=
  ∃ b, c.partials.blocks[j]? = some b ∧ b.constant = false ∧ b.method.isApproximated = false ∧
    i < b.values.size

/-- **Linearizations that write every exact derivative that is not constant**, and no others, leave
nothing of earlier ones. -/
theorem linearizesAfresh_of_exact
    (hall : ∀ x y : Array α, x.size = c.inputs.size → y.size = c.outputs.size →
      isResult (c.linearizeOwn x y) = true → ∀ j i, c.IsExact j i →
        ∃ w ∈ (c.ownLinearization x y).writes, (c.partials.written w j i).isSome)
    (honly : ∀ x y : Array α, x.size = c.inputs.size → y.size = c.outputs.size →
      ∀ w ∈ (c.ownLinearization x y).writes, ∀ j i, (c.partials.written w j i).isSome →
        c.IsExact j i)
    (hmemo : ∀ x y : Array α, x.size = c.inputs.size → y.size = c.outputs.size →
      (c.ownLinearization x y).memo = none) : c.LinearizesAfresh := by
  refine ⟨?_, ?_⟩
  · rintro j i ⟨x, y, hx, hy, w, hw, hwritten⟩ - x' y' hx' hy' hresult
    exact hall x' y' hx' hy' hresult j i (honly x y hx hy w hw j i hwritten)
  · rintro ⟨x, y, hx, hy, -, hsome⟩
    rw [hmemo x y hx hy] at hsome
    cases hsome

end Component

end Mdao
