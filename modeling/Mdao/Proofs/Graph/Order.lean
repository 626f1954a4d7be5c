import Mathlib
import Mdao.Graph

/-!
# The execution order is complete and respects connections

Reachability over `n` positions is computed by closing a set under the edges; `mem_reachable` and
`reaches_iff` say that this finds exactly the paths. Positions that reach each other form a
component, every position is in exactly one of them, and among components that wait one with the
fewest ancestors is ready, so `arrange` places all of them (`isExecutionOrder`): each position is
placed once, and after everything that leads to it from outside its component.
-/

namespace Mdao.Graph

variable {n : Nat} {edges : List (Nat × Nat)}

/-! ### Paths -/

/-- There are paths along the edges from `a` to `b`. -/
def Path (edges : List (Nat × Nat)) : Nat → Nat → Prop :=
  Relation.ReflTransGen fun a b => (a, b) ∈ edges

/-- Every edge leads from one of `n` positions to another. -/
def Bounded (n : Nat) (edges : List (Nat × Nat)) : Prop := ∀ e ∈ edges, e.1 < n ∧ e.2 < n

theorem Path.lt (hedges : Bounded n edges) {a b : Nat} (h : Path edges a b) (ha : a < n) : b < n := by
  induction h with
  | refl => exact ha
  | tail _ hstep _ => exact (hedges _ hstep).2

/-! ### Reachability -/

theorem mem_spread {seen : List Nat} {v : Nat} :
    v ∈ spread n edges seen ↔ v < n ∧ (v ∈ seen ∨ ∃ a ∈ seen, (a, v) ∈ edges) := by
  simp only [spread, List.mem_filter, List.mem_range, Bool.or_eq_true, List.contains_iff_mem,
    List.any_eq_true, Bool.and_eq_true, beq_iff_eq, Prod.exists]
  refine and_congr_right fun _ => or_congr_right ⟨?_, ?_⟩
  · rintro ⟨a, b, hab, rfl, ha⟩
    exact ⟨a, ha, hab⟩
  · rintro ⟨a, ha, hav⟩
    exact ⟨a, v, hav, rfl, ha⟩

theorem nodup_spread (seen : List Nat) : (spread n edges seen).Nodup :=
  List.nodup_range.filter _

theorem subset_spread {seen : List Nat} (hseen : ∀ v ∈ seen, v < n) :
    seen ⊆ spread n edges seen :=
  fun v hv => mem_spread.2 ⟨hseen v hv, .inl hv⟩

/-- With enough steps, what is reached contains the start, is closed under edges, and is reached by
paths. -/
theorem reachable_spec {seen : List Nat} (hnodup : seen.Nodup) (hseen : ∀ v ∈ seen, v < n)
    {steps : Nat} (hsteps : n < seen.length + steps) :
    seen ⊆ reachable n edges seen steps ∧
      (∀ a ∈ reachable n edges seen steps, ∀ b < n, (a, b) ∈ edges →
        b ∈ reachable n edges seen steps) ∧
      ∀ b ∈ reachable n edges seen steps, ∃ a ∈ seen, Path edges a b := by
  induction steps generalizing seen with
  | zero =>
    have hsub : seen ⊆ List.range n := fun v hv => List.mem_range.2 (hseen v hv)
    have := (hnodup.subperm hsub).length_le
    rw [List.length_range] at this
    omega
  | succ steps ih =>
    have hsub : seen ⊆ spread n edges seen := subset_spread hseen
    have hpath : ∀ b ∈ spread n edges seen, ∃ a ∈ seen, Path edges a b := by
      intro b hb
      rcases (mem_spread.1 hb).2 with hb | ⟨a, ha, hab⟩
      · exact ⟨b, hb, .refl⟩
      · exact ⟨a, ha, .single hab⟩
    unfold reachable
    simp only
    split_ifs with hlen
    · -- nothing was added, so the spread is the set itself
      have hback : spread n edges seen ⊆ seen :=
        (((hnodup.subperm hsub).perm_of_length_le hlen.le).symm).subset
      refine ⟨hsub, fun a ha b hb hab => ?_, hpath⟩
      exact mem_spread.2 ⟨hb, .inr ⟨a, hback ha, hab⟩⟩
    · have hlt : seen.length < (spread n edges seen).length :=
        lt_of_le_of_ne (hnodup.subperm hsub).length_le (Ne.symm hlen)
      have hsteps' : n < (spread n edges seen).length + steps := by omega
      obtain ⟨h1, h2, h3⟩ := ih (nodup_spread seen) (fun v hv => (mem_spread.1 hv).1) hsteps'
      refine ⟨fun v hv => h1 (hsub hv), h2, fun b hb => ?_⟩
      obtain ⟨a, ha, hab⟩ := h3 b hb
      obtain ⟨a', ha', haa⟩ := hpath a ha
      exact ⟨a', ha', haa.trans hab⟩

/-- **Exactly what paths lead to is reached.** -/
theorem mem_reachable (hedges : Bounded n edges) {a : Nat} (ha : a < n) (b : Nat) :
    b ∈ reachable n edges [a] n ↔ Path edges a b := by
  have hsteps : n < [a].length + n := by simp
  obtain ⟨hstart, hclosed, hpath⟩ : _ ∧ (∀ u ∈ reachable n edges [a] n, ∀ v < n,
      (u, v) ∈ edges → v ∈ reachable n edges [a] n) ∧ _ :=
    reachable_spec (List.nodup_singleton a) (by simpa using ha) hsteps
  constructor
  · intro hb
    obtain ⟨a', ha', hab⟩ := hpath b hb
    rw [List.mem_singleton] at ha'
    exact ha' ▸ hab
  · intro h
    induction h with
    | refl => exact hstart (List.mem_singleton.2 rfl)
    | tail _ hstep ih => exact hclosed _ ih _ (hedges _ hstep).2 hstep

theorem reaches_iff (hedges : Bounded n edges) {a : Nat} (ha : a < n) (b : Nat) :
    reaches (reachTable n edges) a b = true ↔ Path edges a b := by
  rw [← mem_reachable hedges ha]
  simp [reaches, reachTable, ha]

/-! ### Components -/

/-- Paths lead both ways. -/
def Joined (edges : List (Nat × Nat)) (a b : Nat) : Prop := Path edges a b ∧ Path edges b a

theorem Joined.symm {a b : Nat} (h : Joined edges a b) : Joined edges b a := ⟨h.2, h.1⟩

theorem Joined.trans {a b c : Nat} (h : Joined edges a b) (h' : Joined edges b c) :
    Joined edges a c := ⟨h.1.trans h'.1, h'.2.trans h.2⟩

theorem mem_component (hedges : Bounded n edges) {v : Nat} (hv : v < n) (u : Nat) :
    u ∈ component n (reachTable n edges) v ↔ Joined edges v u := by
  simp only [component, List.mem_filter, List.mem_range, Bool.and_eq_true]
  constructor
  · rintro ⟨hu, h1, h2⟩
    exact ⟨(reaches_iff hedges hv u).1 h1, (reaches_iff hedges hu v).1 h2⟩
  · intro h
    have hu := h.1.lt hedges hv
    exact ⟨hu, (reaches_iff hedges hv u).2 h.1, (reaches_iff hedges hu v).2 h.2⟩

theorem component_eq (hedges : Bounded n edges) {u v : Nat} (hv : v < n)
    (h : Joined edges v u) : component n (reachTable n edges) u =
      component n (reachTable n edges) v := by
  have hu := h.1.lt hedges hv
  unfold component
  refine List.filter_congr fun w hw => ?_
  have hw' := List.mem_range.1 hw
  rw [Bool.eq_iff_iff, Bool.and_eq_true, Bool.and_eq_true, reaches_iff hedges hu,
    reaches_iff hedges hw', reaches_iff hedges hv, reaches_iff hedges hw']
  exact ⟨fun hw => h.trans hw, fun hw => h.symm.trans hw⟩

/-- The components are those of the positions that come first in their own. -/
theorem mem_components {c : List Nat} : c ∈ components n (reachTable n edges) ↔
    ∃ v < n, c = component n (reachTable n edges) v ∧ c.head? = some v := by
  simp only [components, List.mem_filterMap, Prod.exists]
  constructor
  · rintro ⟨c', v, hmem, h⟩
    split_ifs at h with hhead
    cases h
    obtain ⟨-, hlt, hget⟩ := List.mem_zipIdx hmem
    have hv : v < n := by simpa using hlt
    exact ⟨v, hv, by simpa using hget, hhead⟩
  · rintro ⟨v, hv, rfl, hhead⟩
    refine ⟨_, v, ?_, if_pos hhead⟩
    rw [List.mk_mem_zipIdx_iff_getElem?]
    simp [hv]

/-- A component is the class of any of its members. -/
theorem component_of_mem (hedges : Bounded n edges) {c : List Nat}
    (hc : c ∈ components n (reachTable n edges)) {u : Nat} (hu : u ∈ c) :
    u < n ∧ c = component n (reachTable n edges) u := by
  obtain ⟨v, hv, rfl, -⟩ := mem_components.1 hc
  have h := (mem_component hedges hv u).1 hu
  exact ⟨h.1.lt hedges hv, (component_eq hedges hv h).symm⟩

theorem self_mem_component (hedges : Bounded n edges) {v : Nat} (hv : v < n) :
    v ∈ component n (reachTable n edges) v :=
  (mem_component hedges hv v).2 ⟨.refl, .refl⟩

/-- Every position is in a component. -/
theorem component_mem (hedges : Bounded n edges) {v : Nat} (hv : v < n) :
    component n (reachTable n edges) v ∈ components n (reachTable n edges) := by
  have hself := self_mem_component hedges hv
  cases hhead : (component n (reachTable n edges) v).head? with
  | none =>
    rw [List.head?_eq_none_iff] at hhead
    rw [hhead] at hself
    cases hself
  | some u =>
    have hu := (mem_component hedges hv u).1 (List.mem_of_mem_head? hhead)
    refine mem_components.2 ⟨u, hu.1.lt hedges hv, (component_eq hedges hv hu).symm, hhead⟩

theorem nodup_components (n : Nat) (edges : List (Nat × Nat)) :
    (components n (reachTable n edges)).Nodup := by
  have hzip : (((List.range n).map (component n (reachTable n edges))).zipIdx).Nodup := by
    refine List.Nodup.of_map Prod.snd ?_
    rw [List.zipIdx_map_snd]
    exact List.nodup_range'
  refine hzip.filterMap fun a a' c h h' => ?_
  obtain ⟨c1, v⟩ := a
  obtain ⟨c2, v'⟩ := a'
  simp only [Option.mem_def, Option.ite_none_right_eq_some, Option.some.injEq] at h h'
  obtain ⟨hv, rfl⟩ := h
  obtain ⟨hv', rfl⟩ := h'
  rw [hv] at hv'
  rw [Option.some.inj hv']

/-! ### Placing components -/

theorem isReady_iff {placed c : List Nat} : isReady edges placed c = true ↔
    ∀ a b, (a, b) ∈ edges → b ∈ c → a ∈ c ∨ a ∈ placed := by
  simp only [isReady, List.all_eq_true, Bool.or_eq_true, Bool.not_eq_true', List.contains_iff_mem,
    Prod.forall, or_assoc]
  refine forall_congr' fun a => forall_congr' fun b => imp_congr_right fun _ => ?_
  by_cases hb : b ∈ c <;> simp [hb]

/-- The positions from which paths lead to a component. -/
def ancestors (n : Nat) (edges : List (Nat × Nat)) (c : List Nat) : List Nat :=
  (List.range n).filter fun a => c.any fun b => reaches (reachTable n edges) a b

theorem mem_ancestors (hedges : Bounded n edges) {c : List Nat} {a : Nat} :
    a ∈ ancestors n edges c ↔ a < n ∧ ∃ b ∈ c, Path edges a b := by
  simp only [ancestors, List.mem_filter, List.mem_range, List.any_eq_true]
  exact and_congr_right fun ha => exists_congr fun b =>
    and_congr_right fun _ => reaches_iff hedges ha b

/-- **While components wait, one of them is ready**: one with the fewest ancestors. -/
theorem exists_ready (hedges : Bounded n edges) {placed : List Nat} {waiting : List (List Nat)}
    (hwaiting : ∀ c ∈ waiting, c ∈ components n (reachTable n edges))
    (hplaced : ∀ c ∈ components n (reachTable n edges), c ∈ waiting ∨ ∀ v ∈ c, v ∈ placed)
    (hne : waiting ≠ []) : ∃ c ∈ waiting, isReady edges placed c = true := by
  obtain ⟨c, hc, hmin⟩ := waiting.toFinset.exists_min_image
    (fun c => (ancestors n edges c).length) (List.toFinset_nonempty_iff _ |>.2 hne)
  rw [List.mem_toFinset] at hc
  refine ⟨c, hc, isReady_iff.2 fun a b hab hb => ?_⟩
  by_cases ha : a ∈ c
  · exact .inl ha
  refine .inr ?_
  have han : a < n := (hedges _ hab).1
  have hself := self_mem_component hedges han
  rcases hplaced _ (component_mem hedges han) with hwait | hdone
  · -- the component of `a` would have fewer ancestors
    exfalso
    obtain ⟨hbn, hcb⟩ := component_of_mem hedges (hwaiting c hc) hb
    have hsub : ancestors n edges (component n (reachTable n edges) a) ⊆ ancestors n edges c := by
      intro v hv
      obtain ⟨hvn, u, hu, hvu⟩ := (mem_ancestors hedges).1 hv
      have hua := ((mem_component hedges han u).1 hu).2
      exact (mem_ancestors hedges).2 ⟨hvn, b, hb, (hvu.trans hua).tail hab⟩
    have hbmem : b ∈ ancestors n edges c := (mem_ancestors hedges).2 ⟨hbn, b, hb, .refl⟩
    have hbnot : b ∉ ancestors n edges (component n (reachTable n edges) a) := by
      intro hmem
      obtain ⟨-, u, hu, hbu⟩ := (mem_ancestors hedges).1 hmem
      have hba : Path edges b a := hbu.trans ((mem_component hedges han u).1 hu).2
      refine ha ?_
      rw [hcb]
      exact (mem_component hedges hbn a).2 ⟨hba, .single hab⟩
    have hlt : (ancestors n edges (component n (reachTable n edges) a)).length <
        (ancestors n edges c).length := by
      have hnodup : (b :: ancestors n edges (component n (reachTable n edges) a)).Nodup :=
        List.nodup_cons.2 ⟨hbnot, List.nodup_range.filter _⟩
      exact (hnodup.subperm (List.cons_subset.2 ⟨hbmem, hsub⟩)).length_le
    have := hmin _ (List.mem_toFinset.2 hwait)
    omega
  · exact hdone a hself

/-- Every component comes after what leads to it. -/
def Respects (edges : List (Nat × Nat)) (placed : List Nat) (cs : List (List Nat)) : Prop :=
  ∀ pre c post, cs = pre ++ c :: post → ∀ a b, (a, b) ∈ edges → b ∈ c →
    a ∈ c ∨ a ∈ placed ++ pre.flatten

/-- A component that is ready is placed in front. -/
theorem Respects.cons {placed c : List Nat} {cs : List (List Nat)}
    (hready : isReady edges placed c = true) (h : Respects edges (placed ++ c) cs) :
    Respects edges placed (c :: cs) := by
  intro pre d post hsplit a b hab hb
  cases pre with
  | nil =>
    obtain ⟨rfl, -⟩ := List.cons.inj hsplit
    rw [List.flatten_nil, List.append_nil]
    exact isReady_iff.1 hready a b hab hb
  | cons e pre =>
    obtain ⟨rfl, hpost⟩ := List.cons.inj hsplit
    have := h pre d post hpost a b hab hb
    rwa [List.flatten_cons, ← List.append_assoc]

/-- **All waiting components are placed, each after what leads to it.** -/
theorem arrange_spec (hedges : Bounded n edges) {placed : List Nat} {waiting : List (List Nat)}
    (hwaiting : ∀ c ∈ waiting, c ∈ components n (reachTable n edges))
    (hplaced : ∀ c ∈ components n (reachTable n edges), c ∈ waiting ∨ ∀ v ∈ c, v ∈ placed)
    {count : Nat} (hcount : waiting.length = count) :
    (arrange edges placed waiting count).Perm waiting ∧
      Respects edges placed (arrange edges placed waiting count) := by
  induction count generalizing placed waiting with
  | zero =>
    obtain rfl := List.length_eq_zero_iff.1 hcount
    refine ⟨.refl _, fun pre c post h => ?_⟩
    simp [arrange] at h
  | succ count ih =>
    have hne : waiting ≠ [] := by
      rintro rfl
      simp at hcount
    obtain ⟨c', hc', hready'⟩ := exists_ready hedges hwaiting hplaced hne
    unfold arrange
    cases hfind : waiting.find? (isReady edges placed) with
    | none => exact absurd hready' (by simpa using List.find?_eq_none.1 hfind c' hc')
    | some c =>
      have hc := List.mem_of_find?_eq_some hfind
      have hplaced' : ∀ d ∈ components n (reachTable n edges),
          d ∈ waiting.erase c ∨ ∀ v ∈ d, v ∈ placed ++ c := by
        intro d hd
        by_cases hdc : d = c
        · subst hdc
          exact .inr fun v hv => List.mem_append_right _ hv
        · rcases hplaced d hd with h | h
          · exact .inl ((List.mem_erase_of_ne hdc).2 h)
          · exact .inr fun v hv => List.mem_append_left _ (h v hv)
      have hcount' : (waiting.erase c).length = count := by
        rw [List.length_erase_of_mem hc, hcount]
        rfl
      obtain ⟨hperm, hrespects⟩ := ih (fun d hd => hwaiting d (List.mem_of_mem_erase hd))
        hplaced' hcount'
      exact ⟨(hperm.cons c).trans (List.perm_cons_erase hc).symm,
        .cons (List.find?_some hfind) hrespects⟩

/-- **What the order of components is.** -/
structure IsExecutionOrder (n : Nat) (edges : List (Nat × Nat)) (cs : List (List Nat)) : Prop where
  /-- Every position is placed once. -/
  perm : cs.flatten.Perm (List.range n)
  /-- No component is empty. -/
  nonempty : ∀ c ∈ cs, c ≠ []
  /-- A component comes after what leads to it. -/
  respects : Respects edges [] cs

/-- The components of `n` positions, in the order in which they are placed. -/
def placedComponents (n : Nat) (edges : List (Nat × Nat)) : List (List Nat) :=
  arrange edges [] (components n (reachTable n edges)) (components n (reachTable n edges)).length

/-- Components that are placed later share no position with earlier ones, and nothing in them leads
to an earlier one. -/
theorem IsExecutionOrder.pairwise {cs : List (List Nat)} (h : IsExecutionOrder n edges cs) :
    cs.Pairwise fun c d => ∀ v ∈ c, v ∉ d ∧ ∀ a, (a, v) ∈ edges → a ∉ d := by
  have hdisjoint := (List.nodup_flatten.1 (h.perm.nodup_iff.2 List.nodup_range)).2
  rw [List.pairwise_iff_getElem] at hdisjoint ⊢
  intro i j hi hj hij v hv
  refine ⟨hdisjoint i j hi hj hij hv, fun a ha had => ?_⟩
  have hsplit : cs = cs.take i ++ cs[i] :: cs.drop (i + 1) := by simp
  rcases h.respects _ _ _ hsplit a v ha hv with hc | hpre
  · exact hdisjoint i j hi hj hij hc had
  · obtain ⟨e, he, hae⟩ := List.mem_flatten.1 (by simpa using hpre)
    obtain ⟨k, hk, rfl⟩ := List.mem_take_iff_getElem.1 he
    exact hdisjoint k j (by omega) hj (by omega) hae had

/-- **The execution order is complete and respects the edges.** -/
theorem isExecutionOrder (hedges : Bounded n edges) :
    IsExecutionOrder n edges (placedComponents n edges) := by
  have hplaced : ∀ c ∈ components n (reachTable n edges),
      c ∈ components n (reachTable n edges) ∨ ∀ v ∈ c, v ∈ [] := fun c hc => .inl hc
  obtain ⟨hperm, hrespects⟩ := arrange_spec hedges (fun _ h => h) hplaced rfl
  refine ⟨?_, fun c hc => ?_, hrespects⟩
  · refine (hperm.flatten).trans ((List.perm_ext_iff_of_nodup ?_ List.nodup_range).2 fun v => ?_)
    · refine List.nodup_flatten.2 ⟨fun c hc => ?_, ?_⟩
      · obtain ⟨v, -, rfl, -⟩ := mem_components.1 hc
        exact List.nodup_range.filter _
      · refine (nodup_components n edges).pairwise_of_forall_ne fun c hc d hd hne v hvc hvd => ?_
        exact hne ((component_of_mem hedges hc hvc).2.trans (component_of_mem hedges hd hvd).2.symm)
    · rw [List.mem_flatten, List.mem_range]
      constructor
      · rintro ⟨c, hc, hv⟩
        exact (component_of_mem hedges hc hv).1
      · exact fun hv => ⟨_, component_mem hedges hv, self_mem_component hedges hv⟩
  · obtain ⟨v, hv, rfl, -⟩ := mem_components.1 (hperm.mem_iff.1 hc)
    exact List.ne_nil_of_mem (self_mem_component hedges hv)

end Mdao.Graph
