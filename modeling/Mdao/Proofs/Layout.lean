import Mathlib
import Mdao.Layout
import Mdao.Proofs.Span

/-!
# Variables in a layout

Appending a variable puts its name last and its span behind all others (`push?_eq_some`). As long
as the buffer can be counted, every span of a layout lies inside the buffer (`Layout.Bounded`), and
the size of the layout is the sum of the sizes of its variables. Where names differ, a look-up by
name finds the one element of the name (`findIdx?_of_nodup`).

Variables that follow one another from one end of the buffer to the other (`Layout.Tiled`) part the
buffer among them (`Layout.Partitioned`), and it is just then that each index of the buffer is located
in the one variable that holds it, and no other index anywhere (`Layout.locates_iff_partitioned`).
-/

namespace Mdao

/-! ### Look-ups by name -/

section Lookup

variable {β : Type} {key : β → String} {xs : Array β}

/-- Where names differ, the first element of a name is the only one. -/
theorem findIdx?_of_nodup (h : (xs.toList.map key).Nodup) {i : Nat} {x : β}
    (hi : xs[i]? = some x) : xs.findIdx? (fun y => key y == key x) = some i := by
  obtain ⟨hlt, rfl⟩ := Array.getElem?_eq_some_iff.1 hi
  rw [Array.findIdx?_eq_some_iff_getElem]
  refine ⟨hlt, by simp, fun j hj hkey => ?_⟩
  have hjlt : j < (xs.toList.map key).length := by simpa using hj.trans hlt
  have hilt : i < (xs.toList.map key).length := by simpa using hlt
  have heq : (xs.toList.map key)[j] = (xs.toList.map key)[i] := by simpa using hkey
  have := (List.Nodup.getElem_inj_iff h).1 heq
  omega

theorem getElem?_of_findIdx? {q : β → Bool} {i : Nat} (h : xs.findIdx? q = some i) :
    ∃ x, xs[i]? = some x ∧ q x = true := by
  obtain ⟨hlt, hq, -⟩ := Array.findIdx?_eq_some_iff_getElem.1 h
  exact ⟨xs[i], Array.getElem?_eq_getElem hlt, hq⟩

/-- Elements of one name are equal where names differ. -/
theorem eq_of_key_eq (h : (xs.toList.map key).Nodup) {x y : β} (hx : x ∈ xs) (hy : y ∈ xs)
    (hkey : key x = key y) : x = y :=
  List.inj_on_of_nodup_map h (by simpa using hx) (by simpa using hy) hkey

/-- An element with a new key is found under this key, and all others as before. -/
theorem findIdx?_push_of_fresh (key : β → String) {x : β}
    (h : xs.findIdx? (fun y => key y == key x) = none) :
    (fun name => (xs.push x).findIdx? fun y => key y == name) =
      Function.update (fun name => xs.findIdx? fun y => key y == name) (key x) (some xs.size) := by
  funext name
  rw [Array.findIdx?_push, Function.update_apply]
  split_ifs with hkey hname hname
  · rw [hname, h]
    rfl
  · exact absurd (eq_of_beq hkey).symm hname
  · exact absurd (beq_iff_eq.2 hname.symm) hkey
  · exact Option.or_none

end Lookup

/-! ### Layouts -/

namespace Layout

/-- Every variable lies inside the buffer. -/
def Bounded (l : Layout) : Prop :=
  ∀ f ∈ l.fields, f.span.start ≤ f.span.stop ∧ f.span.stop ≤ l.size

theorem bounded_empty : Layout.empty.Bounded := by
  intro f hf
  simp [Layout.empty] at hf

theorem position?_isSome {l : Layout} {name : String} :
    (l.position? name).isSome ↔ name ∈ l.names := by
  rw [position?, Array.findIdx?_isSome, Array.any_eq_true', names, List.mem_map]
  simp only [beq_iff_eq, Array.mem_toList_iff]

/-- Appending a variable of a new name. -/
theorem push?_eq_some {l l' : Layout} {name : String} {size : Nat} (h : l.push? name size = some l') :
    name ∉ l.names ∧ l' = ⟨l.fields.push ⟨name, ⟨l.size, Count.add l.size size⟩⟩,
      Count.add l.size size⟩ := by
  unfold push? at h
  split_ifs at h with hname
  exact ⟨fun hmem => hname (position?_isSome.2 hmem), (Option.some.inj h).symm⟩

theorem push?_names {l l' : Layout} {name : String} {size : Nat} (h : l.push? name size = some l') :
    l'.names = l.names ++ [name] := by
  obtain ⟨-, rfl⟩ := push?_eq_some h
  simp [names]

theorem push?_bounded {l l' : Layout} {name : String} {size : Nat} (hl : l.Bounded)
    (h : l.push? name size = some l') (hfit : l.size + size < Count.modulus) :
    l'.Bounded ∧ l'.size = l.size + size := by
  obtain ⟨-, rfl⟩ := push?_eq_some h
  rw [Count.add_of_lt hfit]
  refine ⟨fun f hf => ?_, rfl⟩
  rcases Array.mem_push.1 hf with hf | rfl
  · have := hl f hf
    exact ⟨this.1, this.2.trans (Nat.le_add_right _ _)⟩
  · exact ⟨Nat.le_add_right _ _, le_rfl⟩

/-- A variable of a new name is appended. -/
theorem push?_of_notMem {l : Layout} {name : String} (h : name ∉ l.names) (size : Nat) :
    l.push? name size = some ⟨l.fields.push ⟨name, ⟨l.size, Count.add l.size size⟩⟩,
      Count.add l.size size⟩ :=
  if_neg (mt position?_isSome.1 h)

/-- A name that is taken is refused. -/
theorem push?_of_mem {l : Layout} {name : String} (h : name ∈ l.names) (size : Nat) :
    l.push? name size = none :=
  if_pos (position?_isSome.2 h)

/-- A variable is found by its name. -/
theorem span?_of_mem {l : Layout} (h : l.names.Nodup) {f : Field} (hf : f ∈ l.fields) :
    l.span? f.name = some f.span := by
  obtain ⟨i, hi⟩ := Array.getElem?_of_mem hf
  have hposition : l.position? f.name = some i := findIdx?_of_nodup h hi
  have hfield : l.fieldAt i = f := by simp [fieldAt, hi]
  rw [span?, hposition, Option.map_some, Layout.spanAt, hfield]

theorem Bounded.spanAt {l : Layout} (hl : l.Bounded) (p : Nat) :
    (l.spanAt p).start ≤ (l.spanAt p).stop ∧ (l.spanAt p).stop ≤ l.size := by
  unfold Layout.spanAt fieldAt
  by_cases hp : p < l.fields.size
  · have hget : l.fields.getD p ⟨"", ⟨0, 0⟩⟩ = l.fields[p] := by simp [hp]
    rw [hget]
    exact hl _ (Array.getElem_mem hp)
  · simp [hp]

/-- An index of a variable, moved to the variable's place, is an index of the buffer. -/
theorem Bounded.start_add_lt {l : Layout} (hl : l.Bounded) {p i : Nat} (hi : i < (l.spanAt p).size) :
    (l.spanAt p).start + i < l.size := by
  have := hl.spanAt p
  simp only [Span.size] at hi
  omega

/-! ### Positions by names -/

section Names

variable {l : Layout} {name : String} {i j : Nat}

theorem length_names (l : Layout) : l.names.length = l.length := by simp [names, length]

theorem getElem_names (hi : i < l.names.length) : l.names[i] = l.nameAt i := by
  have hlt : i < l.fields.size := by simpa [names] using hi
  simp [names, nameAt, fieldAt, hlt]

theorem nameAt_mem (hi : i < l.length) : l.nameAt i ∈ l.names := by
  have hlt : i < l.names.length := by rwa [length_names]
  rw [← getElem_names hlt]
  exact List.getElem_mem hlt

/-- Where names differ, so do those at different positions. -/
theorem eq_of_nameAt (hnodup : l.names.Nodup) (hi : i < l.length) (hj : j < l.length)
    (h : l.nameAt i = l.nameAt j) : i = j := by
  rw [← length_names] at hi hj
  rw [← getElem_names hi, ← getElem_names hj] at h
  exact (List.Nodup.getElem_inj_iff hnodup).1 h

theorem position?_eq_none : l.position? name = none ↔ name ∉ l.names := by
  rw [← position?_isSome, Bool.not_eq_true, Option.isSome_eq_false_iff, Option.isNone_iff_eq_none]

/-- Where names differ, a name is found at its only position. -/
theorem position?_eq_some (hnodup : l.names.Nodup) :
    l.position? name = some i ↔ i < l.length ∧ l.nameAt i = name := by
  have hfound : ∀ k, l.position? name = some k → k < l.length ∧ l.nameAt k = name := by
    intro k hk
    obtain ⟨f, hf, hname⟩ := getElem?_of_findIdx? hk
    obtain ⟨hlt, rfl⟩ := Array.getElem?_eq_some_iff.1 hf
    refine ⟨hlt, ?_⟩
    simpa [nameAt, fieldAt, hlt] using hname
  constructor
  · exact hfound i
  · rintro ⟨hi, hname⟩
    cases hposition : l.position? name with
    | none =>
      rw [position?_eq_none, ← hname] at hposition
      exact absurd (nameAt_mem hi) hposition
    | some k =>
      obtain ⟨hk, hname'⟩ := hfound k hposition
      rw [eq_of_nameAt hnodup hk hi (hname'.trans hname.symm)]

/-- A name is found where it stands. -/
theorem position?_of_names (hnodup : l.names.Nodup) (h : l.names[i]? = some name) :
    l.position? name = some i := by
  obtain ⟨hi, hname⟩ := List.getElem?_eq_some_iff.1 h
  rw [getElem_names hi] at hname
  exact (position?_eq_some hnodup).2 ⟨length_names l ▸ hi, hname⟩

end Names

/-! ### Indices of the buffer -/

/-- The spans of the variables in order. -/
def spans (l : Layout) : List Span := l.fields.toList.map Field.span

/-- The variables follow one another from one end of the buffer to the other. -/
def Tiled (l : Layout) : Prop := Span.Tile 0 (l.fields.toList.map Field.span) l.size

/-- The variable at a position holds an index of the buffer at an offset. -/
structure Holds (l : Layout) (p i k : Nat) : Prop where
  position : p < l.length
  offset : i < (l.spanAt p).size
  index : (l.spanAt p).start + i = k

/-- **No index is in two variables**, and those below the size are in one. -/
structure Partitioned (l : Layout) : Prop where
  disjoint : ∀ p q, p < l.length → q < l.length → p ≠ q → ∀ k ∈ l.spanAt p, k ∉ l.spanAt q
  cover : ∀ k, k < l.size ↔ ∃ p < l.length, k ∈ l.spanAt p

/-- **Locating an index undoes the move of an offset** to the place of its variable: an index of the
buffer is located where the one variable that holds it has it, and no other index is. -/
structure Locates (l : Layout) : Prop where
  inside : ∀ k < l.size, ∃ p i, l.locate k = some (p, i) ∧ l.Holds p i k ∧
    ∀ p' i', l.Holds p' i' k → p' = p ∧ i' = i
  outside : ∀ k, l.size ≤ k → l.locate k = none

section Indices

variable {l : Layout} {p p' i i' k : Nat}

theorem getElem?_fields (hp : p < l.length) : l.fields[p]? = some (l.fieldAt p) := by
  have hlt : p < l.fields.size := hp
  simp [fieldAt, hlt]

theorem getElem?_spans (hp : p < l.length) : l.spans[p]? = some (l.spanAt p) := by
  rw [spans, List.getElem?_map, Array.getElem?_toList, getElem?_fields hp]
  rfl

@[simp] theorem length_spans (l : Layout) : l.spans.length = l.length := by
  simp [spans, length]

/-- A position with a variable of at least one entry. -/
theorem lt_length_of_lt_size (hi : i < (l.spanAt p).size) : p < l.length := by
  by_contra hp
  have hempty : l.spanAt p = ⟨0, 0⟩ := by
    have hge : l.fields.size ≤ p := Nat.le_of_not_lt hp
    simp [spanAt, fieldAt, hge]
  rw [hempty] at hi
  exact Nat.not_lt_zero i hi

theorem holds_start_add (hi : i < (l.spanAt p).size) : l.Holds p i ((l.spanAt p).start + i) :=
  ⟨lt_length_of_lt_size hi, hi, rfl⟩

theorem Holds.mem (h : l.Holds p i k) : k ∈ l.spanAt p := by
  rw [← h.index]
  exact Span.start_add_mem h.offset

theorem holds_of_mem (hp : p < l.length) (hk : k ∈ l.spanAt p) :
    l.Holds p (k - (l.spanAt p).start) k :=
  ⟨hp, Span.sub_start_lt hk, Span.start_add_sub hk⟩

theorem mem_spans {s : Span} : s ∈ l.spans ↔ ∃ p < l.length, l.spanAt p = s := by
  rw [List.mem_iff_getElem?]
  constructor
  · rintro ⟨p, hs⟩
    have hp : p < l.length := by
      obtain ⟨hp, -⟩ := List.getElem?_eq_some_iff.1 hs
      rwa [length_spans] at hp
    exact ⟨p, hp, Option.some.inj ((getElem?_spans hp).symm.trans hs)⟩
  · rintro ⟨p, hp, rfl⟩
    exact ⟨p, getElem?_spans hp⟩

/-- What is located is held there. -/
theorem holds_of_locate (h : l.locate k = some (p, i)) : l.Holds p i k := by
  obtain ⟨q, hq, heq⟩ := Option.map_eq_some_iff.1 h
  cases heq
  obtain ⟨f, hf, hcontains⟩ := getElem?_of_findIdx? hq
  have hp : p < l.length := (Array.getElem?_eq_some_iff.1 hf).1
  obtain rfl : f = l.fieldAt p := Option.some.inj (hf.symm.trans (getElem?_fields hp))
  exact holds_of_mem hp (Span.contains_iff.1 hcontains)

/-- What is not located is held nowhere. -/
theorem locate_eq_none_iff : l.locate k = none ↔ ∀ p < l.length, k ∉ l.spanAt p := by
  rw [locate, Option.map_eq_none_iff, Array.findIdx?_eq_none_iff]
  constructor
  · intro h p hp hk
    have hnot : (l.spanAt p).contains k = false := h _ (Array.mem_of_getElem? (getElem?_fields hp))
    rw [Span.contains_iff.2 hk] at hnot
    cases hnot
  · intro h f hf
    obtain ⟨p, hp⟩ := Array.getElem?_of_mem hf
    have hlt : p < l.length := (Array.getElem?_eq_some_iff.1 hp).1
    obtain rfl : f = l.fieldAt p := Option.some.inj (hp.symm.trans (getElem?_fields hlt))
    exact Bool.eq_false_iff.2 fun hk => h p hlt (Span.contains_iff.1 hk)

/-- An index is located where it is held, as far as this is one place. -/
theorem Locates.locate_eq (h : l.Locates) (hk : l.Holds p i k) : l.locate k = some (p, i) := by
  by_cases hlt : k < l.size
  · obtain ⟨q, j, hlocate, -, hunique⟩ := h.inside k hlt
    obtain ⟨rfl, rfl⟩ := hunique p i hk
    exact hlocate
  · have hnone := h.outside k (Nat.le_of_not_lt hlt)
    exact absurd hk.mem (locate_eq_none_iff.1 hnone p hk.position)

/-- **Locating works just where the variables part the buffer among them.** -/
theorem locates_iff_partitioned : l.Locates ↔ l.Partitioned := by
  constructor
  · intro h
    refine ⟨fun p q hp hq hne k hk hk' => hne ?_, fun k => ⟨fun hlt => ?_, fun ⟨p, hp, hk⟩ => ?_⟩⟩
    · have heq := (h.locate_eq (holds_of_mem hp hk)).symm.trans (h.locate_eq (holds_of_mem hq hk'))
      exact congrArg Prod.fst (Option.some.inj heq)
    · obtain ⟨p, i, -, hholds, -⟩ := h.inside k hlt
      exact ⟨p, hholds.position, hholds.mem⟩
    · by_contra hge
      exact locate_eq_none_iff.1 (h.outside k (Nat.le_of_not_lt hge)) p hp hk
  · intro h
    refine ⟨fun k hlt => ?_, fun k hge => locate_eq_none_iff.2 fun p hp hk => ?_⟩
    · cases hlocate : l.locate k with
      | none =>
        obtain ⟨p, hp, hk⟩ := (h.cover k).1 hlt
        exact absurd hk (locate_eq_none_iff.1 hlocate p hp)
      | some r =>
        obtain ⟨p, i⟩ := r
        have hholds := holds_of_locate hlocate
        refine ⟨p, i, rfl, hholds, fun p' i' hholds' => ?_⟩
        obtain rfl : p' = p := by
          by_contra hne
          exact h.disjoint p' p hholds'.position hholds.position hne k hholds'.mem hholds.mem
        exact ⟨rfl, Nat.add_left_cancel (hholds'.index.trans hholds.index.symm)⟩
    · exact absurd ((h.cover k).2 ⟨p, hp, hk⟩) (Nat.not_lt.2 hge)

/-- Variables that part the buffer have as many entries together as it is long. -/
theorem Partitioned.sum_sizes (h : l.Partitioned) : (l.spans.map Span.size).sum = l.size := by
  have hdistinct : (l.spans.flatMap Span.indices).Nodup := by
    refine List.nodup_flatMap.2 ⟨fun s _ => List.nodup_range', List.pairwise_iff_getElem.2 ?_⟩
    intro p q hp hq hpq k hk hk'
    rw [length_spans] at hp hq
    have hspan : ∀ (j : Nat) (hj : j < l.spans.length), l.spans[j] = l.spanAt j := fun j hj =>
      (List.getElem?_eq_some_iff.1 (getElem?_spans (length_spans l ▸ hj))).2
    rw [hspan, Span.mem_indices] at hk hk'
    exact h.disjoint p q hp hq (Nat.ne_of_lt hpq) k hk hk'
  have hperm : (l.spans.flatMap Span.indices).Perm (List.range l.size) := by
    refine (List.perm_ext_iff_of_nodup hdistinct List.nodup_range).2 fun k => ?_
    rw [List.mem_range, h.cover k, List.mem_flatMap]
    constructor
    · rintro ⟨s, hs, hk⟩
      obtain ⟨p, hp, rfl⟩ := mem_spans.1 hs
      exact ⟨p, hp, Span.mem_indices.1 hk⟩
    · rintro ⟨p, hp, hk⟩
      exact ⟨l.spanAt p, mem_spans.2 ⟨p, hp, rfl⟩, Span.mem_indices.2 hk⟩
  have hlength := hperm.length_eq
  rw [List.length_range, List.length_flatMap] at hlength
  rw [← hlength]
  exact congrArg List.sum (List.map_congr_left fun s _ => (Span.length_indices s).symm)

namespace Tiled

variable (h : l.Tiled)

include h

theorem partitioned : l.Partitioned := by
  have htile : Span.Tile 0 l.spans l.size := h
  refine ⟨fun p q hp hq hne k hk hk' => ?_, fun k => ⟨fun hlt => ?_, fun ⟨p, hp, hk⟩ => ?_⟩⟩
  · -- of two variables one comes first, and ends before the other starts
    have hlater : ∀ p q, p < q → q < l.length → k ∈ l.spanAt p → k ∉ l.spanAt q := by
      intro p q hpq hq hk hk'
      have hp := hpq.trans hq
      obtain ⟨hp', hpget⟩ := List.getElem?_eq_some_iff.1 (getElem?_spans hp)
      obtain ⟨hq', hqget⟩ := List.getElem?_eq_some_iff.1 (getElem?_spans hq)
      have horder := List.pairwise_iff_getElem.1 htile.pairwise p q hp' hq' hpq
      rw [hpget, hqget] at horder
      exact absurd (hk.2.trans_le horder) (Nat.not_lt.2 hk'.1)
    rcases Nat.lt_or_gt_of_ne hne with hlt | hlt
    · exact hlater p q hlt hq hk hk'
    · exact hlater q p hlt hp hk' hk
  · obtain ⟨s, hs, hk⟩ := htile.cover (Nat.zero_le k) hlt
    obtain ⟨p, hp, rfl⟩ := mem_spans.1 hs
    exact ⟨p, hp, hk⟩
  · exact hk.2.trans_le (htile.bounds (mem_spans.2 ⟨p, hp, rfl⟩)).2.2

theorem locates : l.Locates := locates_iff_partitioned.2 h.partitioned

theorem locate_start_add (hi : i < (l.spanAt p).size) :
    l.locate ((l.spanAt p).start + i) = some (p, i) :=
  h.locates.locate_eq (holds_start_add hi)

/-- Offsets that are moved to the same index are the same, of the same variable. -/
theorem start_add_inj (hi : i < (l.spanAt p).size) (hi' : i' < (l.spanAt p').size)
    (heq : (l.spanAt p).start + i = (l.spanAt p').start + i') : p = p' ∧ i = i' := by
  have hlocate := h.locate_start_add hi
  rw [heq, h.locate_start_add hi'] at hlocate
  obtain ⟨rfl, rfl⟩ := Prod.mk.inj (Option.some.inj hlocate)
  exact ⟨rfl, rfl⟩

/-- Each index is that of an offset in a variable. -/
theorem exists_start_add (hk : k < l.size) :
    ∃ p i, i < (l.spanAt p).size ∧ k = (l.spanAt p).start + i := by
  obtain ⟨p, i, -, hholds, -⟩ := h.locates.inside k hk
  exact ⟨p, i, hholds.offset, hholds.index.symm⟩

end Tiled

end Indices

end Layout

end Mdao
