import Mathlib
import Mdao.Coloring.Conflicts
import Mdao.Proofs.Coloring.Pattern

/-!
# Greedy colorings are proper

`neighbors_addCliques` says which vertices a sequence of cliques makes adjacent. `Progress.Proper`
is the invariant of the greedy coloring: no two neighbors have one color, each colored vertex has a
neighbor of every smaller color, and the groups list the colored vertices by color. Coloring one
more vertex keeps it (`Proper.colorVertex`), whatever the order of the visits, so the groups of
`Conflicts.color` are a proper coloring of the active vertices (`properGroups_color`).

A vertex has a neighbor in every group before its own, and these groups are no more than its
neighbors. So there is at most one group more than the largest degree of an active vertex
(`ProperGroups.length_le_degree`). The first free color is always that of a group or the next one,
for which a group is opened before the vertex is put into it (`Progress.Proper.freeColor_lt`).
-/

namespace Mdao.Conflicts

/-! ### Edges -/

@[simp] theorem size_addEdge (g : Conflicts) (a b : Nat) :
    (g.addEdge a b).adjacency.size = g.adjacency.size := by
  unfold addEdge
  split_ifs <;> simp

/-- One vertex more is a neighbor of the vertex whose list it is put into. -/
theorem mem_neighbors_modify {adjacency : Array (List Nat)} {a : Nat} (ha : a < adjacency.size)
    (b u v : Nat) :
    u ∈ neighbors ⟨adjacency.modify a (insertSorted b)⟩ v ↔
      u ∈ neighbors ⟨adjacency⟩ v ∨ u = b ∧ v = a := by
  simp only [neighbors, Array.getD_eq_getD_getElem?, Array.getElem?_modify]
  by_cases hva : a = v
  · subst hva
    rw [if_pos rfl, Array.getElem?_eq_getElem ha, Option.map_some, Option.getD_some,
      Option.getD_some, mem_insertSorted, or_comm]
    simp
  · simp [hva, Ne.symm hva]

theorem mem_neighbors_addEdge {g : Conflicts} {a b : Nat} (ha : a < g.adjacency.size)
    (hb : b < g.adjacency.size) (u v : Nat) :
    u ∈ (g.addEdge a b).neighbors v ↔
      u ∈ g.neighbors v ∨ (u ≠ v ∧ (u = a ∧ v = b ∨ u = b ∧ v = a)) := by
  unfold addEdge
  split_ifs with hab
  · subst hab
    refine ⟨.inl, ?_⟩
    rintro (h | ⟨hne, ⟨rfl, rfl⟩ | ⟨rfl, rfl⟩⟩)
    · exact h
    · exact absurd rfl hne
    · exact absurd rfl hne
  · rw [mem_neighbors_modify (by simpa using hb), mem_neighbors_modify ha, or_assoc]
    refine or_congr_right ⟨?_, fun ⟨_, h⟩ => h.symm⟩
    rintro (⟨rfl, rfl⟩ | ⟨rfl, rfl⟩)
    · exact ⟨Ne.symm hab, .inr ⟨rfl, rfl⟩⟩
    · exact ⟨hab, .inl ⟨rfl, rfl⟩⟩

private theorem mem_neighbors_star {g : Conflicts} {a : Nat} {l : List Nat}
    (ha : a < g.adjacency.size) (hl : ∀ b ∈ l, b < g.adjacency.size) :
    (l.foldl (fun g b => g.addEdge a b) g).adjacency.size = g.adjacency.size ∧
      ∀ u v, u ∈ (l.foldl (fun g b => g.addEdge a b) g).neighbors v ↔
        u ∈ g.neighbors v ∨ (u ≠ v ∧ (u = a ∧ v ∈ l ∨ u ∈ l ∧ v = a)) := by
  induction l generalizing g with
  | nil => simp
  | cons b l ih =>
    have hb := hl b (by simp)
    obtain ⟨hsize, hmem⟩ := ih (g := g.addEdge a b) (by simpa using ha)
      fun c hc => by simpa using hl c (by simp [hc])
    refine ⟨by simpa using hsize, fun u v => ?_⟩
    rw [List.foldl_cons, hmem, mem_neighbors_addEdge ha hb, List.mem_cons, List.mem_cons]
    tauto

/-- A clique makes any two different vertices of it adjacent. -/
theorem mem_neighbors_addClique {g : Conflicts} {l : List Nat}
    (hl : ∀ b ∈ l, b < g.adjacency.size) :
    (g.addClique l).adjacency.size = g.adjacency.size ∧
      ∀ u v, u ∈ (g.addClique l).neighbors v ↔ u ∈ g.neighbors v ∨ (u ≠ v ∧ u ∈ l ∧ v ∈ l) := by
  induction l generalizing g with
  | nil => simp [addClique]
  | cons a l ih =>
    obtain ⟨hsize, hmem⟩ := mem_neighbors_star (l := l) (hl a (by simp))
      fun b hb => hl b (by simp [hb])
    obtain ⟨hsize', hmem'⟩ := ih (g := l.foldl (fun g b => g.addEdge a b) g)
      fun b hb => by rw [hsize]; exact hl b (by simp [hb])
    refine ⟨by rw [addClique, hsize', hsize], fun u v => ?_⟩
    rw [addClique, hmem', hmem, List.mem_cons, List.mem_cons]
    constructor
    · tauto
    · rintro (h | ⟨hne, hu | hu, hv | hv⟩)
      · exact .inl (.inl h)
      · exact absurd (hu.trans hv.symm) hne
      · exact .inl (.inr ⟨hne, .inl ⟨hu, hv⟩⟩)
      · exact .inl (.inr ⟨hne, .inr ⟨hu, hv⟩⟩)
      · exact .inr ⟨hne, hu, hv⟩

private theorem mem_neighbors_foldl {g : Conflicts} {ls : List (List Nat)}
    (hls : ∀ l ∈ ls, ∀ b ∈ l, b < g.adjacency.size) :
    (ls.foldl addClique g).adjacency.size = g.adjacency.size ∧
      ∀ u v, u ∈ (ls.foldl addClique g).neighbors v ↔
        u ∈ g.neighbors v ∨ (u ≠ v ∧ ∃ l ∈ ls, u ∈ l ∧ v ∈ l) := by
  induction ls generalizing g with
  | nil => simp
  | cons l ls ih =>
    obtain ⟨hsize, hmem⟩ := mem_neighbors_addClique (hls l (by simp))
    obtain ⟨hsize', hmem'⟩ := ih (g := g.addClique l)
      fun m hm b hb => by simpa [hsize] using hls m (by simp [hm]) b hb
    refine ⟨by rw [List.foldl_cons, hsize', hsize], fun u v => ?_⟩
    rw [List.foldl_cons, hmem', hmem]
    simp only [List.mem_cons, exists_eq_or_imp]
    tauto

@[simp] theorem neighbors_empty (n v : Nat) : (empty n).neighbors v = [] := by
  by_cases hv : v < n <;> simp [neighbors, empty, hv]

/-- The graph of some cliques: different vertices are adjacent when they share a clique. -/
theorem neighbors_addCliques {n : Nat} {ls : List (List Nat)} (hls : ∀ l ∈ ls, ∀ b ∈ l, b < n) :
    (ls.foldl addClique (empty n)).adjacency.size = n ∧
      ∀ u v, u ∈ (ls.foldl addClique (empty n)).neighbors v ↔
        u ≠ v ∧ ∃ l ∈ ls, u ∈ l ∧ v ∈ l := by
  have hn : (empty n).adjacency.size = n := by simp [empty]
  obtain ⟨hsize, hmem⟩ := mem_neighbors_foldl (g := empty n) (by simpa [hn] using hls)
  exact ⟨hsize.trans hn, fun u v => by rw [hmem]; simp⟩

/-! ### The least free color -/

/-- The least free color is free and all smaller ones are used. -/
theorem leastFree_spec (used : List Nat) :
    leastFree used ∉ used ∧ ∀ j < leastFree used, j ∈ used := by
  have hsome : ((List.range (used.length + 1)).find? fun c => !used.contains c).isSome := by
    rw [List.find?_isSome]
    by_contra hall
    have hsub : List.range (used.length + 1) ⊆ used := fun c hc => by
      by_contra hu
      exact hall ⟨c, hc, by simpa using hu⟩
    have hlen := (List.nodup_range.subperm hsub).length_le
    rw [List.length_range] at hlen
    omega
  obtain ⟨c, hc⟩ := Option.isSome_iff_exists.1 hsome
  have heq : leastFree used = c := by rw [leastFree, hc, Option.getD_some]
  rw [heq]
  obtain ⟨hfree, k, hk, hget, hbefore⟩ := List.find?_eq_some_iff_getElem.1 hc
  rw [List.getElem_range] at hget
  subst hget
  refine ⟨by simpa using hfree, fun j hj => ?_⟩
  simpa using hbefore j hj

/-- No color up to a number that is free exceeds it. -/
theorem leastFree_le {used : List Nat} {n : Nat} (h : n ∉ used) : leastFree used ≤ n := by
  by_contra hlt
  exact h ((leastFree_spec used).2 n (by omega))

/-! ### The invariant -/

/-- A graph without loops in which adjacency goes both ways. -/
structure Simple (g : Conflicts) : Prop where
  symm : ∀ {u v}, u ∈ g.neighbors v → v ∈ g.neighbors u
  irrefl : ∀ v, v ∉ g.neighbors v

/-- The graph of some cliques is simple. -/
theorem simple_addCliques {n : Nat} {ls : List (List Nat)} (hls : ∀ l ∈ ls, ∀ b ∈ l, b < n) :
    (ls.foldl addClique (empty n)).Simple := by
  obtain ⟨-, hmem⟩ := neighbors_addCliques hls
  refine ⟨fun {u v} h => ?_, fun v h => ((hmem v v).1 h).1 rfl⟩
  obtain ⟨hne, l, hl, hu, hv⟩ := (hmem u v).1 h
  exact (hmem v u).2 ⟨hne.symm, l, hl, hv, hu⟩

/-- **The invariant of a greedy coloring.** -/
structure Progress.Proper (g : Conflicts) (p : Progress) : Prop where
  /-- Every vertex has a place for its color. -/
  size_colors : p.colors.size = g.adjacency.size
  /-- A group holds the vertices of its color. -/
  mem_group : ∀ k v, v ∈ p.groups.getD k [] ↔ p.colorOf v = some k
  /-- Groups increase. -/
  increasing : ∀ k, (p.groups.getD k []).Pairwise (· < ·)
  /-- No group is empty. -/
  nonempty : ∀ k < p.groups.size, p.groups.getD k [] ≠ []
  /-- Colored neighbors differ in color. -/
  proper : ∀ {u v k}, u ∈ g.neighbors v → p.colorOf u = some k → p.colorOf v ≠ some k
  /-- Every smaller color was taken by a neighbor. -/
  firstFit : ∀ {v k}, p.colorOf v = some k → ∀ j < k, ∃ u ∈ g.neighbors v, p.colorOf u = some j

variable {g : Conflicts} {p : Progress}

/-- A color that is in use has a group. -/
theorem Progress.Proper.lt_size (hp : p.Proper g) {v k : Nat} (h : p.colorOf v = some k) :
    k < p.groups.size := by
  by_contra hk
  have hmem := (hp.mem_group k v).2 h
  simp [hk] at hmem

/-- The color that a vertex gets. -/
def freeColor (g : Conflicts) (p : Progress) (v : Nat) : Nat :=
  leastFree ((g.neighbors v).filterMap p.colorOf)

theorem freeColor_le (hp : p.Proper g) (v : Nat) : g.freeColor p v ≤ p.groups.size := by
  refine leastFree_le fun hmem => ?_
  obtain ⟨u, -, hu⟩ := List.mem_filterMap.1 hmem
  exact absurd (hp.lt_size hu) (lt_irrefl _)

theorem colorOf_colorVertex {v : Nat} (hv : v < p.colors.size) (u : Nat) :
    (g.colorVertex p v).colorOf u = if u = v then some (g.freeColor p v) else p.colorOf u := by
  simp only [colorVertex, Progress.colorOf, freeColor, Array.getD_eq_getD_getElem?,
    Array.getElem?_setIfInBounds]
  by_cases huv : v = u
  · subst huv
    simp [hv]
  · rw [if_neg huv, if_neg (Ne.symm huv)]

/-- The groups among which a vertex of a color is put, one more where the color is new. -/
def Progress.groupsFor (p : Progress) (color : Nat) : Array (List Nat) :=
  if color = p.groups.size then p.groups.push [] else p.groups

/-- A vertex is put into the group of its color. -/
theorem groups_colorVertex (v : Nat) : (g.colorVertex p v).groups =
    (p.groupsFor (g.freeColor p v)).modify (g.freeColor p v) (insertSorted v) := rfl

/-- **The group of a vertex is there when the vertex is put into it.** -/
theorem Progress.Proper.freeColor_lt (hp : p.Proper g) (v : Nat) :
    g.freeColor p v < (p.groupsFor (g.freeColor p v)).size := by
  have hle := freeColor_le hp v
  unfold Progress.groupsFor
  split_ifs with hnew
  · rw [Array.size_push]
    omega
  · omega

theorem getD_groups_colorVertex (hp : p.Proper g) (v k : Nat) :
    (g.colorVertex p v).groups.getD k [] =
      if k = g.freeColor p v then insertSorted v (p.groups.getD k []) else p.groups.getD k [] := by
  have hle := freeColor_le hp v
  rw [groups_colorVertex, Progress.groupsFor]
  generalize g.freeColor p v = c at hle
  simp only [Array.getD_eq_getD_getElem?, Array.getElem?_modify]
  by_cases hc : c = p.groups.size
  · rw [if_pos hc, Array.getElem?_push, ← hc]
    by_cases hk : c = k
    · simp [hk, hc ▸ hk]
    · simp [hk, Ne.symm hk]
  · rw [if_neg hc]
    by_cases hk : c = k
    · have hlt : k < p.groups.size := by omega
      simp [hk, hlt]
    · simp [hk, Ne.symm hk]

theorem size_groups_colorVertex (v : Nat) :
    (g.colorVertex p v).groups.size =
      if g.freeColor p v = p.groups.size then p.groups.size + 1 else p.groups.size := by
  rw [groups_colorVertex, Progress.groupsFor, Array.size_modify]
  split_ifs <;> simp

/-- **Coloring one more vertex keeps the invariant.** -/
theorem Progress.Proper.colorVertex (hg : g.Simple) (hp : p.Proper g) {v : Nat}
    (hv : v < g.adjacency.size) (hfresh : p.colorOf v = none) :
    (g.colorVertex p v).Proper g := by
  have hcolor := colorOf_colorVertex (g := g) (p := p) (v := v) (by rw [hp.size_colors]; exact hv)
  have hgroup := getD_groups_colorVertex hp v
  obtain ⟨hfree, hused⟩ := leastFree_spec ((g.neighbors v).filterMap p.colorOf)
  -- a neighbor of the new vertex does not have its color
  have hnew : ∀ u ∈ g.neighbors v, p.colorOf u ≠ some (g.freeColor p v) := fun u hu h =>
    hfree (List.mem_filterMap.2 ⟨u, hu, h⟩)
  refine ⟨by simpa [Conflicts.colorVertex] using hp.size_colors, fun k u => ?_, fun k => ?_,
    fun k hk => ?_, fun {u w k} hadj hu hw => ?_, fun {w k} hw j hj => ?_⟩
  · rw [hgroup, hcolor]
    by_cases hk : k = g.freeColor p v
    · rw [if_pos hk, mem_insertSorted, hp.mem_group]
      split_ifs with huv
      · simp [huv, hk]
      · simp [huv]
    · rw [if_neg hk, hp.mem_group]
      split_ifs with huv
      · simp [huv, hfresh, Ne.symm hk]
      · rfl
  · rw [hgroup]
    split_ifs
    · exact pairwise_insertSorted (hp.increasing k)
    · exact hp.increasing k
  · rw [hgroup]
    split_ifs with hkc
    · intro hnil
      have : v ∈ insertSorted v (p.groups.getD k []) := mem_insertSorted.2 (.inl rfl)
      rw [hnil] at this
      cases this
    · rw [size_groups_colorVertex] at hk
      refine hp.nonempty k ?_
      split_ifs at hk <;> omega
  · rw [hcolor] at hu hw
    split_ifs at hu hw with h1 h2 h2
    · exact hg.irrefl v (by rw [h1, h2] at hadj; exact hadj)
    · subst h1
      exact hnew w (hg.symm hadj) (hw.trans hu.symm)
    · subst h2
      exact hnew u hadj (hu.trans hw.symm)
    · exact hp.proper hadj hu hw
  · rw [hcolor] at hw
    split_ifs at hw with h1
    · cases hw
      obtain ⟨u, hu, huj⟩ := List.mem_filterMap.1 (hused j hj)
      refine ⟨u, h1 ▸ hu, ?_⟩
      rw [hcolor, if_neg fun h => by simp [h, hfresh] at huj, huj]
    · obtain ⟨u, hu, huj⟩ := hp.firstFit hw j hj
      exact ⟨u, hu, by rw [hcolor, if_neg fun h => by simp [h, hfresh] at huj, huj]⟩

/-! ### The whole coloring -/

theorem next_mem (v : Nat) (rest : List Nat) : g.next p v rest ∈ v :: rest := by
  unfold next
  induction rest generalizing v with
  | nil => simp
  | cons u rest ih =>
    rw [List.foldl_cons]
    rcases List.mem_cons.1 (ih (if g.precedes p u v then u else v)) with h | h
    · rw [h]
      split_ifs <;> simp
    · simp [h]

/-- **The invariant of the loop**: the colors are proper, and the pending vertices have none yet. -/
structure Progress.Open (g : Conflicts) (p : Progress) (pending : List Nat) : Prop where
  proper : p.Proper g
  nodup : pending.Nodup
  lt : ∀ v ∈ pending, v < g.adjacency.size
  fresh : ∀ v ∈ pending, p.colorOf v = none

/-- A pending vertex gets a color, and no other vertex gets or loses one. -/
theorem Progress.Open.colorOf_colorVertex {pending : List Nat} (h : p.Open g pending) {u : Nat}
    (hu : u ∈ pending) (v : Nat) : (g.colorVertex p u).colorOf v =
      if v = u then some (g.freeColor p u) else p.colorOf v :=
  Conflicts.colorOf_colorVertex (by rw [h.proper.size_colors]; exact h.lt u hu) v

/-- **Coloring any pending vertex keeps the invariant of the loop.** -/
theorem Progress.Open.colorVertex (hg : g.Simple) {pending : List Nat} (h : p.Open g pending)
    {u : Nat} (hu : u ∈ pending) : (g.colorVertex p u).Open g (pending.erase u) where
  proper := h.proper.colorVertex hg (h.lt u hu) (h.fresh u hu)
  nodup := h.nodup.erase u
  lt v hv := h.lt v (List.mem_of_mem_erase hv)
  fresh v hv := by
    rw [h.colorOf_colorVertex hu, if_neg (h.nodup.mem_erase_iff.1 hv).1]
    exact h.fresh v (List.mem_of_mem_erase hv)

/-- **However many pending vertices are colored, the colors are proper.** -/
theorem Progress.Open.proper_colorPending (hg : g.Simple) {pending : List Nat}
    (h : p.Open g pending) (count : Nat) : (g.colorPending count p pending).Proper g := by
  induction count generalizing p pending with
  | zero => exact h.proper
  | succ count ih =>
    cases pending with
    | nil => exact h.proper
    | cons a rest => exact ih (h.colorVertex hg (next_mem a rest))

/-- Afterwards the pending vertices and those that had a color before have one. -/
theorem Progress.Open.colored_colorPending (hg : g.Simple) {count : Nat} {pending : List Nat}
    (h : p.Open g pending) (hlen : pending.length = count) (v : Nat) :
    (∃ k, (g.colorPending count p pending).colorOf v = some k) ↔
      v ∈ pending ∨ ∃ k, p.colorOf v = some k := by
  induction count generalizing p pending with
  | zero =>
    obtain rfl := List.length_eq_zero_iff.1 hlen
    simp [Conflicts.colorPending]
  | succ count ih =>
    cases pending with
    | nil => simp at hlen
    | cons a rest =>
      have hu := next_mem (g := g) (p := p) a rest
      have hstep : g.colorPending (count + 1) p (a :: rest) = g.colorPending count
          (g.colorVertex p (g.next p a rest)) ((a :: rest).erase (g.next p a rest)) := rfl
      rw [hstep]
      generalize g.next p a rest = u at hu
      have hlen' : ((a :: rest).erase u).length = count := by
        rw [List.length_erase_of_mem hu, hlen]
        rfl
      rw [ih (h.colorVertex hg hu) hlen', h.nodup.mem_erase_iff, h.colorOf_colorVertex hu]
      by_cases hvu : v = u
      · subst hvu
        simp [hu]
      · simp [hvu]

/-- Before the first vertex is colored. -/
def Progress.blank (n : Nat) : Progress := ⟨Array.replicate n none, Array.replicate n 0, #[]⟩

@[simp] theorem Progress.colorOf_blank (n v : Nat) : (Progress.blank n).colorOf v = none := by
  by_cases hv : v < n <;> simp [Progress.blank, Progress.colorOf, hv]

/-- The loop starts with its invariant. -/
theorem Progress.open_blank {active : List Nat} (hnodup : active.Nodup)
    (hlt : ∀ v ∈ active, v < g.adjacency.size) : (Progress.blank g.adjacency.size).Open g active where
  proper := ⟨by simp [Progress.blank],
    fun k v => by rw [Progress.colorOf_blank]; simp [Progress.blank],
    fun k => by simp [Progress.blank], fun k hk => by simp [Progress.blank] at hk,
    fun _ hu => by simp at hu, fun hv => by simp at hv⟩
  nodup := hnodup
  lt := hlt
  fresh v _ := Progress.colorOf_blank _ v

/-- A proper coloring of the active vertices of a graph, as a list of groups. -/
structure ProperGroups (g : Conflicts) (active : List Nat) (groups : List (List Nat)) : Prop where
  /-- Groups increase. -/
  increasing : ∀ k, (groups.getD k []).Pairwise (· < ·)
  /-- No group is empty. -/
  nonempty : ∀ k < groups.length, groups.getD k [] ≠ []
  /-- Exactly the active vertices are in some group. -/
  mem_iff : ∀ v, (∃ k, v ∈ groups.getD k []) ↔ v ∈ active
  /-- No vertex is in two groups. -/
  unique : ∀ {v j k}, v ∈ groups.getD j [] → v ∈ groups.getD k [] → j = k
  /-- Vertices of a group are not adjacent. -/
  independent : ∀ {u v k}, u ∈ groups.getD k [] → v ∈ groups.getD k [] → u ∉ g.neighbors v
  /-- A vertex has a neighbor in every earlier group. -/
  firstFit : ∀ {v k}, v ∈ groups.getD k [] → ∀ j < k, ∃ u ∈ g.neighbors v, u ∈ groups.getD j []

/-- **The greedy coloring is proper.** -/
theorem properGroups_color (hg : g.Simple) {active : List Nat} (hnodup : active.Nodup)
    (hlt : ∀ v ∈ active, v < g.adjacency.size) : g.ProperGroups active (g.color active) := by
  have hopen := Progress.open_blank hnodup hlt
  have hq := hopen.proper_colorPending hg active.length
  have hget : ∀ k, (g.color active).getD k [] = Array.getD (g.colorPending active.length
      (Progress.blank g.adjacency.size) active).groups k [] := by
    intro k
    simp only [color, Progress.blank, Array.getD_eq_getD_getElem?, List.getD_eq_getElem?_getD,
      Array.getElem?_toList]
  refine ⟨fun k => ?_, fun k hk => ?_, fun v => ?_, fun hj hk => ?_, fun hu hv hadj => ?_,
    fun hv j hj => ?_⟩
  · rw [hget]
    exact hq.increasing k
  · rw [hget]
    exact hq.nonempty k (by simpa [color, Progress.blank] using hk)
  · simp only [hget, hq.mem_group, hopen.colored_colorPending hg rfl v, Progress.colorOf_blank]
    simp
  · rw [hget, hq.mem_group] at hj hk
    exact Option.some.inj (hj.symm.trans hk)
  · rw [hget, hq.mem_group] at hu hv
    exact hq.proper hadj hu hv
  · rw [hget, hq.mem_group] at hv
    obtain ⟨u, hu, huj⟩ := hq.firstFit hv j hj
    exact ⟨u, hu, by rw [hget, hq.mem_group]; exact huj⟩

/-! ### How many groups there are -/

variable {active : List Nat} {groups : List (List Nat)}

/-- The number of neighbors of a vertex. -/
def degree (g : Conflicts) (v : Nat) : Nat := (g.neighbors v).toFinset.card

/-- Before the group of a vertex there are no more groups than it has neighbors. -/
theorem ProperGroups.le_degree (h : g.ProperGroups active groups) {v k : Nat}
    (hv : v ∈ groups.getD k []) : k ≤ g.degree v := by
  have hneighbor : ∀ j : Fin k, ∃ u ∈ g.neighbors v, u ∈ groups.getD j [] := fun j =>
    h.firstFit hv j j.2
  choose u hu huj using hneighbor
  have hinj : Function.Injective u := fun i j hij => Fin.ext (h.unique (huj i) (hij ▸ huj j))
  have hcard := Finset.card_le_card_of_injOn (s := Finset.univ) (t := (g.neighbors v).toFinset) u
    (fun j _ => List.mem_toFinset.2 (hu j)) hinj.injOn
  rwa [Finset.card_univ, Fintype.card_fin] at hcard

/-- **There is at most one group more than the largest degree of an active vertex.** -/
theorem ProperGroups.length_le_degree (h : g.ProperGroups active groups) :
    groups.length ≤ active.toFinset.sup g.degree + 1 := by
  rcases Nat.eq_zero_or_pos groups.length with hzero | hpos
  · omega
  · have hlast : groups.length - 1 < groups.length := Nat.sub_lt hpos one_pos
    obtain ⟨v, hv⟩ := List.exists_mem_of_ne_nil _ (h.nonempty _ hlast)
    have hactive : v ∈ active.toFinset := List.mem_toFinset.2 ((h.mem_iff v).1 ⟨_, hv⟩)
    have hdegree := (h.le_degree hv).trans (Finset.le_sup (f := g.degree) hactive)
    omega

/-! ### Greedy colorings of cliques -/

/-- **What a greedy coloring gives**, for the graph in which two vertices are adjacent if they share
one of some cliques. Its groups increase, are not empty, have no vertex in common and hold the active
vertices; no two vertices of a group are adjacent; every vertex has a neighbor in each earlier group;
there is at most one group more than the largest degree of an active vertex. The groups are those of
the loop that colors one pending vertex after the other, and after any number of vertices the next one
is put into a group that is there. -/
theorem color_firstFit {n : Nat} {cliques : List (List Nat)}
    (hcliques : ∀ l ∈ cliques, ∀ v ∈ l, v < n) (hg : cliques.foldl addClique (empty n) = g)
    (hnodup : active.Nodup) (hactive : ∀ v ∈ active, v < n) :
    (∀ u v, u ∈ g.neighbors v ↔ u ≠ v ∧ ∃ l ∈ cliques, u ∈ l ∧ v ∈ l) ∧
    g.ProperGroups active (g.color active) ∧
    (g.color active).length ≤ active.toFinset.sup g.degree + 1 ∧
    g.color active = (g.colorPending active.length (Progress.blank n) active).groups.toList ∧
    ∀ count v p, g.colorPending count (Progress.blank n) active = p →
      (g.colorVertex p v).groups =
        (p.groupsFor (g.freeColor p v)).modify (g.freeColor p v) (insertSorted v) ∧
      g.freeColor p v < (p.groupsFor (g.freeColor p v)).size := by
  obtain ⟨hsize, hadj⟩ := neighbors_addCliques hcliques
  have hsimple := simple_addCliques hcliques
  rw [hg] at hsize hadj hsimple
  subst hsize
  have hgroups := properGroups_color hsimple hnodup hactive
  refine ⟨hadj, hgroups, hgroups.length_le_degree, rfl, ?_⟩
  rintro count v p rfl
  have hproper := (Progress.open_blank hnodup hactive).proper_colorPending hsimple count
  exact ⟨groups_colorVertex v, hproper.freeColor_lt v⟩

/-- Two triangles with a common vertex take three groups. -/
theorem color_two_triangles :
    (∀ l ∈ [[0, 1, 2], [2, 3, 4]], ∀ v ∈ l, v < 5) ∧ [0, 1, 2, 3, 4].Nodup ∧
      (∀ v ∈ [0, 1, 2, 3, 4], v < 5) ∧ ∃ g, [[0, 1, 2], [2, 3, 4]].foldl addClique (empty 5) = g ∧
        g.color [0, 1, 2, 3, 4] = [[2], [0, 3], [1, 4]] ∧
        g.ProperGroups [0, 1, 2, 3, 4] (g.color [0, 1, 2, 3, 4]) := by
  have hcliques : ∀ l ∈ [[0, 1, 2], [2, 3, 4]], ∀ v ∈ l, v < 5 := by decide
  have hactive : ∀ v ∈ [0, 1, 2, 3, 4], v < 5 := by decide
  obtain ⟨-, hgroups, -⟩ := color_firstFit hcliques rfl (by decide : [0, 1, 2, 3, 4].Nodup) hactive
  exact ⟨hcliques, by decide, hactive, _, rfl, by decide, hgroups⟩

end Mdao.Conflicts
