import Mdao.Proofs.Component.Products
import Mdao.Proofs.Jacobian.Replay
import Mdao.Proofs.Linear.Sweep
import Mdao.Proofs.Model.Parts
import Mdao.Proofs.Model.Setup

/-!
# The blocks of the Jacobian over all slots

The slots of a model are the outputs of its units, in execution order, and then the independent
inputs. In the rows of a unit the Jacobian has entries in the columns of the unit itself, of units
that feed it, and of independent inputs (`column_of_unit`, `source_of_route`); the rows of
independent inputs are those of the identity (`isIdentityRow`).

So in a model without coupled blocks the Jacobian is block triangular up to the order of the
independent inputs, and nonsingular when the diagonal blocks of the units are
(`Placed.det_ne_zero`).
-/

namespace Mdao

open Vec Matrix

variable {α : Type} [ExactScalar α]

namespace Jacobian

/-- An entry of a built Jacobian is the sum of the contributions at its place. -/
theorem coeff_build {l : Arrangement α} {units : Array (Component α)} {unitIds : List Nat}
    {range : Span} {i k : Nat} (hi : i < range.size) (hk : k < range.size) :
    coeff ((build l units unitIds range).matrix.toMatrix range.size) i k =
      ((contributions l units unitIds range).map fun c => if c.1 = (i, k) then c.2 else 0).sum := by
  have hsum := sum_entries l units unitIds range fun place => if place = (i, k) then 1 else 0
  simp only [mul_ite, mul_one, mul_zero] at hsum
  rw [← hsum, coeff, dif_pos ⟨hi, hk⟩, SparseMatrix.toMatrix]
  simp only [Prod.mk.injEq]

/-- Where an entry is not zero, something contributes. -/
theorem exists_contribution {l : Arrangement α} {units : Array (Component α)} {unitIds : List Nat}
    {range : Span} {i k : Nat} (hi : i < range.size) (hk : k < range.size)
    (h : coeff ((build l units unitIds range).matrix.toMatrix range.size) i k ≠ 0) :
    ∃ c ∈ contributions l units unitIds range, c.1 = (i, k) := by
  by_contra hnone
  push Not at hnone
  refine h ?_
  rw [coeff_build hi hk]
  refine List.sum_eq_zero fun v hv => ?_
  obtain ⟨c, hc, rfl⟩ := List.mem_map.1 hv
  exact if_neg (hnone c hc)

end Jacobian

namespace Model

variable {m : Model α} {order : List Nat} {s : Store α} {l : Arrangement α}
  {units : Array (Component α)}

/-- What is known of the units and slots of a problem, whatever has been done with it. -/
structure Placed (m : Model α) (order : List Nat) (s : Store α) (l : Arrangement α)
    (units : Array (Component α)) : Prop where
  sound : m.Sound
  laid : Laid m order s l
  order : order = m.placedUnits.flatten
  units : Component.AllAlike m.units units

/-- The matrix of the Jacobian over all slots. -/
def wholeMatrix (order : List Nat) (l : Arrangement α) (units : Array (Component α)) :
    Matrix (Fin l.size) (Fin l.size) α :=
  (Jacobian.build l units order (.upTo l.size)).matrix.toMatrix l.size

/-! ### Where units contribute -/

/-- A unit contributes to its own rows, in its own columns and those of its routes. -/
theorem Placed.column_of_unit (h : Placed m order s l units) {u : Nat} {c : (Nat × Nat) × α}
    (hc : c ∈ Jacobian.unitContributions l (.upTo l.size) units u) :
    c.1.1 ∈ (l.unit u).outputs ∧
      (c.1.2 ∈ (l.unit u).outputs ∨ ∃ route ∈ (l.unit u).routes, c.1.2 = route.slot) := by
  rw [Jacobian.unitContributions_eq] at hc
  cases hu : units[u]? with
  | none => simp [hu] at hc
  | some comp =>
    simp only [hu, Option.elim_some, List.mem_filterMap, Option.map_eq_some_iff] at hc
    obtain ⟨e, he, place, hplace, rfl⟩ := hc
    have hlt : u < m.units.size := by
      rw [← h.units.size]
      exact (Array.getElem?_eq_some_iff.1 hu).1
    have hdeclared := Array.getElem?_eq_getElem hlt
    have halike := h.units.alike u _ _ hdeclared hu
    have hsound := (h.sound.declared _ (Array.getElem_mem hlt)).sound.alike halike
    have hinside := hsound.entry_inside he
    have houtputs : comp.outputs.size = (l.unit u).outputs.size := by
      rw [halike.outputs]
      exact (h.laid.fits h.sound hdeclared).size_outputs.symm
    have hrow : (l.unit u).outputs.start + e.row ∈ (l.unit u).outputs :=
      Span.start_add_mem (houtputs ▸ hinside.1)
    unfold Jacobian.placeOf at hplace
    simp only at hplace
    split_ifs at hplace
    cases hplace
    refine ⟨hrow, ?_⟩
    show (Jacobian.slotOf (l.unit u) e.column).1 ∈ _ ∨
      ∃ route ∈ (l.unit u).routes, (Jacobian.slotOf (l.unit u) e.column).1 = route.slot
    cases hcol : e.column with
    | output i => exact .inl (Span.start_add_mem (houtputs ▸ hinside.2 i hcol))
    | input i =>
      by_cases hi : i < (l.unit u).routes.size
      · rw [Jacobian.slotOf_input hi]
        exact .inr ⟨_, Array.getElem_mem hi, rfl⟩
      · rw [Jacobian.slotOf_input_of_le (by omega)]
        exact .inl ⟨le_rfl, hrow.1.trans_lt hrow.2 |>.trans_le le_rfl⟩

omit [ExactScalar α] in
/-- A route of a unit leads to the outputs of a unit that feeds it, or to an independent input. -/
theorem source_of_route [Scalar α] (hm : m.Sound) (hlaid : Laid m order s l) {u : Nat}
    {c : Component α} (hu : m.units[u]? = some c) {route : Route α}
    (hroute : route ∈ (l.unit u).routes) :
    (∃ a, (a, u) ∈ m.graph.edges ∧ route.slot ∈ (l.unit a).outputs) ∨
      ∃ r ∈ l.independents, route.slot ∈ r := by
  rcases hlaid.routed hu hroute with ⟨t, link, hl, ht, i, e, r, he, hname, hr, hmem⟩ | h
  · obtain ⟨giver, given, taker, taken, hconn⟩ := hm.links t link hl
    obtain ⟨a, ha⟩ := Array.getElem?_of_mem hconn.giver_mem
    obtain ⟨i', e', r', he', hholds, hstart, hstop⟩ := hlaid.exists_output hm ha hconn.given_mem
    have hsame : e'.name = e.name := by
      rw [hname, hholds.name, hconn.source]
      rfl
    have hi : i' = i := by
      have h1 := hlaid.id_eq he
      rw [← hsame, hlaid.id_eq he'] at h1
      exact Except.ok.inj h1
    subst hi
    obtain rfl : e' = e := Option.some.inj (he'.symm.trans he)
    obtain rfl : r' = r := Option.some.inj (hholds.slots.symm.trans hr)
    refine .inl ⟨a, hm.edge_of_link hl ha hu ?_ ht, hstart.trans hmem.1, hmem.2.trans_le hstop⟩
    rw [hconn.source]
  · exact .inr h

/-! ### Independent inputs -/

omit [ExactScalar α] in
/-- The slots are divided between the outputs of units and the independent inputs. -/
theorem slot_cases [Scalar α] (hlaid : Laid m order s l) :
    (∀ r ∈ l.independents, ∀ k ∈ r, k < l.size ∧ ∀ u ∈ order, k ∉ (l.unit u).outputs) ∧
      (∀ u ∈ order, ∀ k ∈ (l.unit u).outputs, k < l.size) ∧
      ∀ k < l.size, (∃ u ∈ order, k ∈ (l.unit u).outputs) ∨ ∃ r ∈ l.independents, k ∈ r := by
  obtain ⟨mid, hunits, hindependents⟩ := hlaid.tiles
  have hbounds : ∀ u ∈ order, (l.unit u).outputs.stop ≤ mid := fun u hu =>
    (hunits.bounds (List.mem_map.2 ⟨u, hu, rfl⟩)).2.2
  refine ⟨fun r hr k hk => ?_, fun u hu k hk => ?_, fun k hk => ?_⟩
  · obtain ⟨h1, -, h2⟩ := hindependents.bounds hr
    refine ⟨hk.2.trans_le h2, fun u hu hku => ?_⟩
    exact absurd (hku.2.trans_le (hbounds u hu)) (not_lt.2 (h1.trans hk.1))
  · exact (hk.2.trans_le (hbounds u hu)).trans_le hindependents.le
  · by_cases hmid : k < mid
    · obtain ⟨t, ht, hkt⟩ := hunits.cover (Nat.zero_le k) hmid
      obtain ⟨u, hu, rfl⟩ := List.mem_map.1 ht
      exact .inl ⟨u, hu, hkt⟩
    · exact .inr (hindependents.cover (not_lt.1 hmid) hk)

omit [ExactScalar α] in
/-- The independent slots are listed once each. -/
theorem independentsIn_eq [Scalar α] (hlaid : Laid m order s l) :
    (l.independentsIn (.upTo l.size)).Nodup ∧
      ∀ k, k ∈ l.independentsIn (.upTo l.size) ↔ ∃ r ∈ l.independents, k ∈ r := by
  refine ⟨hlaid.nodup_independents.filter _, fun k => ?_⟩
  rw [Arrangement.independentsIn, List.mem_filter, List.mem_flatMap, Span.contains_iff]
  simp only [Span.mem_indices]
  refine ⟨fun h => h.1, fun h => ⟨h, Nat.zero_le k, ?_⟩⟩
  obtain ⟨r, hr, hk⟩ := h
  exact ((slot_cases hlaid).1 r hr k hk).1

/-- **The rows of independent inputs are those of the identity.** -/
theorem Placed.isIdentityRow (h : Placed m order s l units) {k : Nat}
    (hk : ∃ r ∈ l.independents, k ∈ r) :
    Diagonal.IsIdentityRow (wholeMatrix order l units) k := by
  intro t ht
  obtain ⟨r, hr, hkr⟩ := hk
  obtain ⟨hkn, happart⟩ := (slot_cases h.laid).1 r hr k hkr
  have hunits : ((order.flatMap (Jacobian.unitContributions l (.upTo l.size) units)).map
      fun c => if c.1 = (k, t) then c.2 else 0).sum = 0 := by
    refine List.sum_eq_zero fun v hv => ?_
    obtain ⟨c, hc, rfl⟩ := List.mem_map.1 hv
    obtain ⟨u, hu, hcu⟩ := List.mem_flatMap.1 hc
    refine if_neg fun heq => happart u hu ?_
    have hrow := (h.column_of_unit hcu).1
    rwa [heq] at hrow
  have hown : ((Jacobian.identityContributions l (.upTo l.size)).map
      fun c => if c.1 = (k, t) then c.2 else (0 : α)).sum = if k = t then 1 else 0 := by
    have hones := Jacobian.sum_identityContributions_at (α := α) h.laid.nodup_independents (k := t)
      (show k < (Span.upTo l.size).size from hkn)
    have hindependent : l.isIndependent k = true :=
      List.any_eq_true.2 ⟨r, hr, Span.contains_iff.2 hkr⟩
    simpa only [Span.upTo, Nat.zero_add, hindependent, and_true] using hones
  refine (Jacobian.coeff_build hkn ht).trans ?_
  rw [Jacobian.contributions, List.map_append, List.sum_append, hunits, add_zero]
  exact hown

/-! ### The blocks of the operator -/

omit [ExactScalar α] in
/-- The parts of the range of all slots are the runs of slots that are not empty. -/
theorem map_range_partition (l : Arrangement α) (order : List Nat) :
    (Part.partition l order (.upTo l.size)).map Part.range =
      (order.map fun u => (l.unit u).outputs).filter (Part.covers (.upTo l.size)) ++
        l.independents.filter (Part.covers (.upTo l.size)) :=
  (Part.map_range_partition l order _).trans (List.map_id _)

/-- **A sweep over all blocks ends with the independent inputs**, whose rows are those of the
identity. -/
theorem Placed.endsInIdentity (h : Placed m order s l units) {op : Operator α}
    (hdim : op.dim = l.size)
    (hblocks : op.blocks = (Part.partition l order (.upTo l.size)).map Part.range)
    (hsolves : ∀ block ∈ op.blocks.zipIdx, op.SolvesBlock block.2 block.1) :
    Diagonal.EndsInIdentity op (wholeMatrix order l units)
      ((order.map fun u => (l.unit u).outputs).filter (Part.covers (.upTo l.size)))
      (l.independents.filter (Part.covers (.upTo l.size))) := by
  obtain ⟨hind, hout, -⟩ := slot_cases h.laid
  rw [map_range_partition] at hblocks
  refine ⟨hblocks, fun block hblock => ⟨?_, ?_, hsolves block hblock⟩, fun r hr k hk => ?_,
    fun r hr k hk t ht hkt => ?_⟩
  · exact List.mem_zipIdx_iff_getElem?.1 hblock
  · have hmem := List.fst_mem_of_mem_zipIdx hblock
    obtain ⟨mid, hunits, hindependents⟩ := h.laid.tiles
    rw [hblocks] at hmem
    rw [hdim]
    rcases List.mem_append.1 hmem with hmem | hmem
    · exact (hunits.bounds (List.mem_filter.1 hmem).1).2.2.trans hindependents.le
    · exact (hindependents.bounds (List.mem_filter.1 hmem).1).2.2
  · exact h.isIdentityRow ⟨r, (List.mem_filter.1 hr).1, hk⟩
  · obtain ⟨u, hu, rfl⟩ := List.mem_map.1 (List.mem_filter.1 ht).1
    exact (hind r (List.mem_filter.1 hr).1 k hk).2 u hu hkt

/-! ### Models without coupled blocks -/

/-- No block of the connection graph is coupled. -/
def FeedForward (m : Model α) : Prop := ∀ b ∈ m.graph.order, b.isCoupled = false

theorem eq_map_flatten {β : Type} {cs : List (List β)} (h : ∀ c ∈ cs, ∃ v, c = [v]) :
    cs = cs.flatten.map fun v => [v] := by
  induction cs with
  | nil => rfl
  | cons c cs ih =>
    obtain ⟨v, rfl⟩ := h c List.mem_cons_self
    rw [List.flatten_cons, List.singleton_append, List.map_cons,
      ← ih fun d hd => h d (List.mem_cons_of_mem _ hd)]

omit [ExactScalar α] in
/-- In execution order, units are fed by earlier ones only. -/
theorem Sound.fed_before [Scalar α] (hm : m.Sound) (hff : m.FeedForward) {pre post : List Nat}
    {u a : Nat} (h : m.placedUnits.flatten = pre ++ u :: post) (ha : (a, u) ∈ m.graph.edges) :
    a ∈ pre := by
  have hsingle : ∀ c ∈ m.placedUnits, ∃ v, c = [v] ∧ (v, v) ∉ m.graph.edges := fun c hc =>
    Graph.eq_singleton_of_not_coupled
      (hff _ (hm.graph_order ▸ List.mem_map.2 ⟨c, hc, rfl⟩))
  have hplaced := eq_map_flatten fun c hc => (hsingle c hc).imp fun _ h => h.1
  rw [h, List.map_append, List.map_cons] at hplaced
  rcases hm.isExecutionOrder.respects _ _ _ hplaced a u ha (List.mem_singleton.2 rfl) with h' | h'
  · obtain rfl := List.mem_singleton.1 h'
    obtain ⟨v, hv, hself⟩ := hsingle [a] (by rw [hplaced]; simp)
    obtain rfl := List.singleton_inj.1 hv
    exact absurd ha hself
  · simpa using h'

/-- In the rows of a unit there are entries in its own columns, in those of units that feed it, and
in those of independent inputs. -/
theorem Placed.column_cases (h : Placed m order s l units) {u : Nat} (hu : u ∈ order) {i k : Nat}
    (hi : i ∈ (l.unit u).outputs) (hk : k < l.size) (hne : coeff (wholeMatrix order l units) i k ≠ 0) :
    k ∈ (l.unit u).outputs ∨ (∃ a, (a, u) ∈ m.graph.edges ∧ k ∈ (l.unit a).outputs) ∨
      ∃ r ∈ l.independents, k ∈ r := by
  obtain ⟨hind, hout, -⟩ := slot_cases h.laid
  have hin : i < l.size := hout u hu i hi
  obtain ⟨c, hc, heq⟩ := Jacobian.exists_contribution hin hk hne
  rcases List.mem_append.1 hc with hc | hc
  · obtain ⟨j, hj, rfl⟩ := List.mem_map.1 hc
    obtain ⟨rfl, -⟩ := Prod.mk.inj heq
    obtain ⟨r, hr, hjr⟩ := ((independentsIn_eq h.laid).2 j).1 hj
    exact absurd hi ((hind r hr j hjr).2 u hu)
  · obtain ⟨w, hw, hcw⟩ := List.mem_flatMap.1 hc
    obtain ⟨hrow, hcol⟩ := h.column_of_unit hcw
    rw [heq] at hrow hcol
    obtain ⟨mid, hunits, -⟩ := h.laid.tiles
    obtain rfl : w = u := hunits.eq_of_mem hw hu hrow hi
    rcases hcol with hcol | ⟨route, hroute, hslot⟩
    · exact .inl hcol
    · have hlt : w < m.units.size := by
        rw [h.order] at hu
        exact List.mem_range.1 (h.sound.isExecutionOrder.perm.mem_iff.1 hu)
      have hsource := source_of_route h.sound h.laid (Array.getElem?_eq_getElem hlt) hroute
      rw [← hslot] at hsource
      exact .inr hsource

/-- A vector has product zero with the Jacobian over all slots. -/
def Annihilates (order : List Nat) (l : Arrangement α) (units : Array (Component α))
    (x : Array α) : Prop :=
  ∀ i < l.size,
    ∑ k ∈ Finset.range l.size, coeff (wholeMatrix order l units) i k * entry x k = 0

/-- A vector with product zero is zero at the independent inputs. -/
theorem Placed.zero_of_independent (h : Placed m order s l units) {x : Array α}
    (hx : Annihilates order l units x) {k : Nat} (hk : ∃ r ∈ l.independents, k ∈ r) :
    entry x k = 0 := by
  have hrows := h.isIdentityRow hk
  obtain ⟨r, hr, hkr⟩ := hk
  have hkn := ((slot_cases h.laid).1 r hr k hkr).1
  rw [← hx k hkn, Finset.sum_eq_single_of_mem k (Finset.mem_range.2 hkn), hrows k hkn,
    if_pos rfl, one_mul]
  intro t ht hne
  rw [hrows t (Finset.mem_range.1 ht), if_neg hne.symm, zero_mul]

/-- A vector with product zero that is zero at the units before one is zero at its outputs, when
the diagonal block of the unit is regular. -/
theorem Placed.zero_of_unit (h : Placed m order s l units) (hff : m.FeedForward) {x : Array α}
    (hx : Annihilates order l units x) {pre post : List Nat} {u : Nat}
    (hsplit : order = pre ++ u :: post)
    (hbefore : ∀ a ∈ pre, ∀ k ∈ (l.unit a).outputs, entry x k = 0)
    (hregular : IsUnit (blockAt (wholeMatrix order l units) (l.unit u).outputs)) {k : Nat}
    (hk : k ∈ (l.unit u).outputs) : entry x k = 0 := by
  have hu : u ∈ order := by
    rw [hsplit]
    exact List.mem_append_right _ List.mem_cons_self
  have hinside : (l.unit u).outputs.stop ≤ l.size := by
    obtain ⟨mid, htile, hindependents⟩ := h.laid.tiles
    exact (htile.bounds (List.mem_map.2 ⟨u, hu, rfl⟩)).2.2.trans hindependents.le
  -- outside the block, either the entry of the matrix or that of the vector is zero
  have hblock : blockAt (wholeMatrix order l units) (l.unit u).outputs *ᵥ
      toFun (l.unit u).outputs.size (slice x (l.unit u).outputs) = 0 := by
    refine funext fun i => (blockAt_mulVec_slice hinside x i).trans ?_
    have hi := Span.start_add_mem i.2
    refine (Finset.sum_congr rfl fun t ht => ?_).trans (hx _ (hi.2.trans_le hinside))
    split_ifs with hin
    · rfl
    · by_contra hne
      rcases h.column_cases hu hi (Finset.mem_range.1 ht)
        (fun h0 => hne (by rw [h0, zero_mul])) with hown | ⟨a, ha, hta⟩ | hta
      · exact hin hown
      · have hpre := h.sound.fed_before hff (h.order.symm.trans hsplit) ha
        exact hne (by rw [hbefore a hpre t hta, mul_zero])
      · exact hne (by rw [h.zero_of_independent hx hta, mul_zero])
  have hzero : toFun (l.unit u).outputs.size (slice x (l.unit u).outputs) = 0 := by
    refine Matrix.mulVec_injective_iff_isUnit.2 hregular ?_
    rw [hblock, Matrix.mulVec_zero]
  have hentry : entry (slice x (l.unit u).outputs) (k - (l.unit u).outputs.start) = 0 :=
    congrFun hzero ⟨_, Span.sub_start_lt hk⟩
  rwa [entry_slice, if_pos (Span.sub_start_lt hk), Span.start_add_sub hk] at hentry

/-- **Without coupled blocks the Jacobian is nonsingular** when the diagonal blocks of the units
are: a vector with product zero is zero at the independent inputs, and then at the outputs of one
unit after the other. -/
theorem Placed.det_ne_zero (h : Placed m order s l units) (hff : m.FeedForward)
    (hregular : ∀ u ∈ order, ∀ k ∈ (l.unit u).outputs,
      IsUnit (blockAt (wholeMatrix order l units) (l.unit u).outputs)) :
    (wholeMatrix order l units).det ≠ 0 := by
  intro hdet
  obtain ⟨v, hv, hproduct⟩ := Matrix.exists_mulVec_eq_zero_iff.2 hdet
  have hx : toFun l.size (ofFun v) = v := toFun_ofFun v
  generalize ofFun v = x at hx
  subst hx
  have hrow : Annihilates order l units x :=
    fun i hi => (mulVec_toFun _ x ⟨i, hi⟩).symm.trans (congrFun hproduct ⟨i, hi⟩)
  have hunits : ∀ pre post, order = pre ++ post →
      ∀ u ∈ pre, ∀ k ∈ (l.unit u).outputs, entry x k = 0 := by
    intro pre
    induction pre using List.reverseRecOn with
    | nil => intro post _ u hu; cases hu
    | append_singleton pre u ih =>
      intro post hsplit w hw k hk
      rw [List.append_assoc, List.singleton_append] at hsplit
      have hbefore := ih (u :: post) hsplit
      rcases List.mem_append.1 hw with hw | hw
      · exact hbefore w hw k hk
      · obtain rfl := List.mem_singleton.1 hw
        have hw : w ∈ order := by
          rw [hsplit]
          exact List.mem_append_right _ List.mem_cons_self
        exact h.zero_of_unit hff hrow hsplit hbefore (hregular w hw k hk) hk
  refine hv (funext fun i => ?_)
  rcases (slot_cases h.laid).2.2 i i.2 with ⟨u, hu, hk⟩ | hk
  · exact hunits order [] (List.append_nil _).symm u hu i hk
  · exact h.zero_of_independent hrow hk

end Model

end Mdao
