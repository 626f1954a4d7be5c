import Mdao.Proofs.Model.Setup
import Mdao.Proofs.Model.Steps

/-!
# Transferring and evaluating units

Before a unit is looked at, its inputs are transferred along their routes, so it sees the latest
slots (`Assembly.received`). Each unit has places of its own for inputs, slots and residuals
(`Assembly.Hosts`, `IsSetUp.apart`), so what is done with one unit leaves the values of the others
alone, and evaluating many units evaluates each of them (`evaluateAll_spec`). Afterwards variables
have, by their names, the values that the routes say (`get_input`, `get_output`).
-/

namespace Mdao

open Vec

variable {α : Type}

/-! ### Places of units -/

namespace Assembly

/-- The places of a unit lie inside the buffers and are as many as it has inputs and outputs. -/
structure Hosts (a : Assembly α) (p : Placement α) (c : Component α) : Prop where
  fits : p.Fits c
  inputs : p.inputs.size = c.inputs.size
  inputs_le : p.inputs.stop ≤ a.store.inputs.size
  outputs_le : p.outputs.stop ≤ a.store.slots.size
  residuals_le : p.outputs.stop ≤ a.store.residuals.size

variable [Scalar α] {l : Arrangement α} {u : Nat} {a b : Assembly α} {c : Component α}
  {p : Placement α}

/-- What the inputs of a unit are once they have been transferred. -/
def received (l : Arrangement α) (u : Nat) (slots : Array α) : Array α :=
  (l.unit u).routes.map (carried slots)

theorem Hosts.follows (h : a.Hosts p c) (hab : a.Follows b) : b.Hosts p c :=
  ⟨h.fits, h.inputs, hab.store.inputs ▸ h.inputs_le, hab.store.slots ▸ h.outputs_le,
    hab.store.residuals ▸ h.residuals_le⟩

theorem Hosts.size_received (h : a.Hosts (l.unit u) c) (slots : Array α) :
    (received l u slots).size = c.inputs.size := by
  rw [received, Array.size_map]
  exact h.fits.size_routes

/-- Routes carry the entries of slots. -/
theorem entry_received {slots : Array α} {k : Nat} {route : Route α}
    (h : (l.unit u).routes[k]? = some route) : entry (received l u slots) k = carried slots route := by
  obtain ⟨hlt, rfl⟩ := Array.getElem?_eq_some_iff.1 h
  rw [entry_eq_getElem (by simpa [received] using hlt)]
  simp [received]

/-- What a unit receives depends on the slots of its routes alone. -/
theorem received_congr {slots slots' : Array α}
    (h : ∀ route ∈ (l.unit u).routes, entry slots' route.slot = entry slots route.slot) :
    received l u slots' = received l u slots := by
  unfold received
  refine Array.map_congr_left fun route hroute => ?_
  rw [carried, carried, h route hroute]

theorem inputsOf_transfer (h : a.Hosts (l.unit u) c) :
    (a.transfer (l.unit u)).inputsOf (l.unit u) = received l u a.store.slots := by
  refine slice_splice_self ?_ h.inputs_le
  rw [h.inputs]
  exact h.size_received _

theorem onUnit_eq {step : Component α → Placement α → EStateM EvalError (Assembly α) Unit}
    (hc : a.units[u]? = some c) :
    onUnit l u step a = step c (l.unit u) (a.transfer (l.unit u)) := by
  simp only [onUnit, hc]

/-! ### Evaluating one unit after the other -/

/-- Evaluating a unit: its residuals at what it receives and at its slots. -/
theorem evaluate_eq (hc : a.units[u]? = some c) (h : a.Hosts (l.unit u) c) :
    evaluate l u a =
      match c.residuals (received l u a.store.slots) (a.outputsOf (l.unit u))
        (a.residualsOf (l.unit u)) with
      | .ok _ r => .ok () ((a.transfer (l.unit u)).withResiduals (l.unit u) r)
      | .error e r => .error e ((a.transfer (l.unit u)).withResiduals (l.unit u) r) := by
  refine (onUnit_eq hc).trans ?_
  rw [inputsOf_transfer h]
  rfl

/-- Residuals keep the length of the buffer that they are written to. -/
theorem size_residuals {x y r r' : Array α} (h : c.residuals x y r = .ok ⟨⟩ r') :
    r'.size = r.size := by
  unfold Component.residuals at h
  split at h
  · split at h
    · cases h
      exact size_overlay _ _
    · cases h
  · unfold Component.settle at h
    split at h
    · cases h
      exact size_overlay _ _
    · cases h

/-- What evaluating some units does, given that each has places of its own. -/
structure Evaluated (l : Arrangement α) (us : List Nat) (a b : Assembly α) : Prop where
  follows : a.Follows b
  units : b.units = a.units
  slots : b.store.slots = a.store.slots
  /-- Each unit has received its inputs. -/
  inputs : ∀ u ∈ us, u < a.units.size → b.inputsOf (l.unit u) = received l u a.store.slots
  /-- Each unit has been evaluated at them. -/
  residuals : ∀ u ∈ us, ∀ c, a.units[u]? = some c → ∃ r, r.size = c.outputs.size ∧
    c.residuals (received l u a.store.slots) (a.outputsOf (l.unit u)) r =
      .ok ⟨⟩ (b.residualsOf (l.unit u))
  otherInputs : ∀ k, (∀ u ∈ us, k ∉ (l.unit u).inputs) →
    entry b.store.inputs k = entry a.store.inputs k
  otherResiduals : ∀ k, (∀ u ∈ us, k ∉ (l.unit u).outputs) →
    entry b.store.residuals k = entry a.store.residuals k

theorem Evaluated.nil : Evaluated l [] a a :=
  ⟨.refl a, rfl, rfl, by simp, by simp, fun _ _ => rfl, fun _ _ => rfl⟩

/-- Two units have no place in common. -/
structure Apart (l : Arrangement α) (u w : Nat) : Prop where
  inputs : ∀ k ∈ (l.unit u).inputs, k ∉ (l.unit w).inputs
  outputs : ∀ k ∈ (l.unit u).outputs, k ∉ (l.unit w).outputs

/-- Evaluating one unit. -/
theorem evaluated_of_evaluate (hc : a.units[u]? = some c) (h : a.Hosts (l.unit u) c)
    (hev : evaluate l u a = .ok () b) : Evaluated l [u] a b := by
  have hfollows := follows_evaluate l u a
  rw [hev] at hfollows
  rw [evaluate_eq hc h] at hev
  split at hev
  · rename_i r hr
    cases hev
    have hsize := size_residuals hr
    have hslice : (a.residualsOf (l.unit u)).size = c.outputs.size := by
      rw [residualsOf, size_slice, h.fits.size_outputs]
    have hown : ((a.transfer (l.unit u)).withResiduals (l.unit u) r).residualsOf (l.unit u) = r :=
      slice_splice_self (by rw [hsize, residualsOf, size_slice]) h.residuals_le
    refine ⟨hfollows, rfl, rfl, fun w hw _ => ?_, fun w hw c' hc' => ?_, fun k hk => ?_,
      fun k hk => ?_⟩
    · obtain rfl := List.mem_singleton.1 hw
      exact inputsOf_transfer h
    · obtain rfl := List.mem_singleton.1 hw
      obtain rfl : c = c' := Option.some.inj (hc.symm.trans hc')
      exact ⟨_, hslice, by rw [hown]; exact hr⟩
    · exact entry_splice_of_notMem (hk u List.mem_cons_self)
    · exact entry_splice_of_notMem (hk u List.mem_cons_self)
  · cases hev

/-- Evaluating a unit and then others that are apart from it. -/
theorem Evaluated.cons {us : List Nat} {a' : Assembly α} (h : Evaluated l [u] a a')
    (h' : Evaluated l us a' b) (hapart : ∀ w ∈ us, Apart l u w) : Evaluated l (u :: us) a b := by
  have hslots : b.store.slots = a.store.slots := h'.slots.trans h.slots
  have hinputs : b.inputsOf (l.unit u) = a'.inputsOf (l.unit u) := slice_congr fun k hk =>
    h'.otherInputs k fun w hw => (hapart w hw).inputs k hk
  have hresiduals : b.residualsOf (l.unit u) = a'.residualsOf (l.unit u) := slice_congr fun k hk =>
    h'.otherResiduals k fun w hw => (hapart w hw).outputs k hk
  have houtputs : ∀ w, a'.outputsOf (l.unit w) = a.outputsOf (l.unit w) := fun w => by
    rw [outputsOf, h.slots, outputsOf]
  refine ⟨.trans _ _ _ h.follows h'.follows, h'.units.trans h.units, hslots, fun w hw hlt => ?_,
    fun w hw c hc => ?_, fun k hk => ?_, fun k hk => ?_⟩
  · rcases List.mem_cons.1 hw with rfl | hw
    · rw [hinputs, h.inputs w List.mem_cons_self hlt]
    · rw [h'.inputs w hw (h.units ▸ hlt), h.slots]
  · rcases List.mem_cons.1 hw with rfl | hw
    · rw [hresiduals]
      exact h.residuals w List.mem_cons_self c hc
    · have := h'.residuals w hw c (h.units ▸ hc)
      rwa [h.slots, houtputs] at this
  · rw [h'.otherInputs k fun w hw => hk w (List.mem_cons_of_mem _ hw)]
    exact h.otherInputs k fun w hw => hk w (List.mem_singleton.1 hw ▸ List.mem_cons_self)
  · rw [h'.otherResiduals k fun w hw => hk w (List.mem_cons_of_mem _ hw)]
    exact h.otherResiduals k fun w hw => hk w (List.mem_singleton.1 hw ▸ List.mem_cons_self)

/-- **Evaluating units one after the other evaluates each of them.** -/
theorem evaluateAll_spec {us : List Nat}
    (hhosts : ∀ u ∈ us, ∃ c, a.units[u]? = some c ∧ a.Hosts (l.unit u) c)
    (hapart : us.Pairwise (Apart l)) (h : evaluateAll l us a = .ok () b) :
    Evaluated l us a b := by
  induction us generalizing a with
  | nil =>
    cases h
    exact .nil
  | cons u us ih =>
    obtain ⟨c, hc, hhost⟩ := hhosts u List.mem_cons_self
    rw [List.pairwise_cons] at hapart
    cases hstep : evaluate l u a with
    | error e a' =>
      simp only [evaluateAll, forEach, bind, EStateM.bind, hstep] at h
      cases h
    | ok _ a' =>
      have hfirst := evaluated_of_evaluate hc hhost hstep
      have hrest : evaluateAll l us a' = .ok () b := (bind_of_ok _ hstep).symm.trans h
      refine hfirst.cons (ih (fun w hw => ?_) hapart.2 hrest) hapart.1
      obtain ⟨c', hc', hhost'⟩ := hhosts w (List.mem_cons_of_mem _ hw)
      exact ⟨c', hfirst.units ▸ hc', hhost'.follows hfirst.follows⟩

/-- Where no unit fails, none of the evaluations fails. -/
theorem evaluateAll_ok {us : List Nat}
    (hhosts : ∀ u ∈ us, ∃ c, a.units[u]? = some c ∧ a.Hosts (l.unit u) c ∧
      ∀ x y r, x.size = c.inputs.size → y.size = c.outputs.size → r.size = c.outputs.size →
        ∃ r', c.residuals x y r = .ok ⟨⟩ r') : ∃ b, evaluateAll l us a = .ok () b := by
  obtain ⟨b, hb, -⟩ := forEach_ok_of_mem (evaluate l)
    (fun b => a.Follows b ∧ b.units = a.units)
    (fun u hu b ⟨hfollows, hunits⟩ => by
      obtain ⟨c, hc, hhost, hok⟩ := hhosts u hu
      have hhostb := hhost.follows hfollows
      obtain ⟨r, hr⟩ := hok (received l u b.store.slots) (b.outputsOf (l.unit u))
        (b.residualsOf (l.unit u)) (hhostb.size_received _)
        (by rw [outputsOf, size_slice, hhostb.fits.size_outputs])
        (by rw [residualsOf, size_slice, hhostb.fits.size_outputs])
      have hstep : evaluate l u b =
          .ok () ((b.transfer (l.unit u)).withResiduals (l.unit u) r) := by
        rw [evaluate_eq (hunits ▸ hc) hhostb, hr]
      exact ⟨_, hstep, .trans _ _ _ hfollows (.trans _ _ _ (b.follows_transfer _)
        ((b.transfer _).follows_withResiduals _ _)), hunits⟩)
    (s := a) ⟨.refl a, rfl⟩
  exact ⟨b, hb⟩

end Assembly

/-! ### Problems that are set up -/

namespace Model

open Assembly

variable [Scalar α] {m : Model α} {start : Problem α} {a : Assembly α}

/-- A unit of a problem, wherever it has been brought, has its places. -/
theorem IsSetUp.hosts (hm : m.Sound) (h : IsSetUp m start) (ha : start.assembly.Follows a)
    {u : Nat} {c : Component α} (hu : m.units[u]? = some c) :
    ∃ c', a.units[u]? = some c' ∧ c.Alike c' ∧ a.Hosts (start.arrangement.unit u) c' := by
  have hunits : Component.AllAlike m.units a.units := h.units ▸ ha.units
  have hlt : u < a.units.size := hunits.size ▸ (Array.getElem?_eq_some_iff.1 hu).1
  have hget := Array.getElem?_eq_getElem hlt
  have halike := hunits.alike u _ _ hu hget
  obtain ⟨mid, houts, hindependents⟩ := h.laid.tiles
  have hmem : u ∈ start.order :=
    (h.perm hm).mem_iff.2 (List.mem_range.2 (Array.getElem?_eq_some_iff.1 hu).1)
  have houtputs : (start.arrangement.unit u).outputs.stop ≤ start.store.slots.size := by
    rw [← h.laid.size]
    exact (houts.bounds (List.mem_map.2 ⟨u, hmem, rfl⟩)).2.2.trans hindependents.le
  have hinputs := h.laid.inputTiles.bounds
    (List.mem_map.2 ⟨u, List.mem_range.2 (Array.getElem?_eq_some_iff.1 hu).1, rfl⟩)
  have hfits := h.laid.fits hm hu
  refine ⟨_, hget, halike, ⟨?_, ?_⟩, ?_, ?_, ?_, ?_⟩
  · rw [halike.outputs]
    exact hfits.size_outputs
  · rw [halike.inputs]
    exact hfits.size_routes
  · rw [halike.inputs, Span.size, (h.laid.places u c hu).2, Nat.add_sub_cancel_left]
  · rw [ha.store.inputs]
    exact hinputs.2.2
  · rw [ha.store.slots]
    exact houtputs
  · rw [ha.store.residuals]
    exact h.laid.sound.residuals ▸ houtputs

/-- Different units have no place in common. -/
theorem IsSetUp.apart (hm : m.Sound) (h : IsSetUp m start) {u w : Nat} (hu : u < m.units.size)
    (hw : w < m.units.size) (hne : u ≠ w) : Apart start.arrangement u w := by
  obtain ⟨mid, houts, -⟩ := h.laid.tiles
  have hmem : ∀ v < m.units.size, v ∈ start.order := fun v hv =>
    (h.perm hm).mem_iff.2 (List.mem_range.2 hv)
  exact ⟨fun k hk hk' => hne (h.laid.inputTiles.eq_of_mem (List.mem_range.2 hu)
      (List.mem_range.2 hw) hk hk'),
    fun k hk hk' => hne (houts.eq_of_mem (hmem u hu) (hmem w hw) hk hk')⟩

/-- Units that are listed once each have no place in common. -/
theorem IsSetUp.pairwise_apart_of_nodup (hm : m.Sound) (h : IsSetUp m start) {us : List Nat}
    (hnodup : us.Nodup) (hus : ∀ u ∈ us, u < m.units.size) :
    us.Pairwise (Apart start.arrangement) :=
  hnodup.imp_of_mem fun hu hw hne => h.apart hm (hus _ hu) (hus _ hw) hne

/-- Each unit is in the execution order, once, and no two of them share a place. -/
theorem IsSetUp.pairwise_apart (hm : m.Sound) (h : IsSetUp m start) :
    start.order.Pairwise (Apart start.arrangement) :=
  h.pairwise_apart_of_nodup hm ((h.perm hm).nodup_iff.2 List.nodup_range)
    fun _ hu => List.mem_range.1 ((h.perm hm).mem_iff.1 hu)

/-- **Evaluating some units of a problem evaluates each of them.** -/
theorem IsSetUp.evaluated_of_nodup (hm : m.Sound) (h : IsSetUp m start)
    (ha : start.assembly.Follows a) {us : List Nat} (hnodup : us.Nodup)
    (hus : ∀ u ∈ us, u < m.units.size) {b : Assembly α}
    (hev : evaluateAll start.arrangement us a = .ok () b) :
    Evaluated start.arrangement us a b := by
  refine evaluateAll_spec (fun u hu => ?_) (h.pairwise_apart_of_nodup hm hnodup hus) hev
  obtain ⟨c, hc, -, hhosts⟩ := h.hosts hm ha (Array.getElem?_eq_getElem (hus u hu))
  exact ⟨c, hc, hhosts⟩

/-- **Evaluating all units of a problem evaluates each of them.** -/
theorem IsSetUp.evaluated (hm : m.Sound) (h : IsSetUp m start) (ha : start.assembly.Follows a)
    {b : Assembly α} (hev : evaluateAll start.arrangement start.order a = .ok () b) :
    Evaluated start.arrangement start.order a b :=
  h.evaluated_of_nodup hm ha ((h.perm hm).nodup_iff.2 List.nodup_range)
    (fun _ hu => List.mem_range.1 ((h.perm hm).mem_iff.1 hu)) hev

/-- **The value of an output** is that of its entries among the outputs of its unit. -/
theorem IsSetUp.get_output (hm : m.Sound) (h : IsSetUp m start) (ha : start.assembly.Follows a)
    {u : Nat} {c : Component α} {v : Variable α} {place : Span} (hu : m.units[u]? = some c)
    (hv : (v, place) ∈ Variable.placed 0 c.discipline.outputs) :
    a.store.get (pathOf c v) = .ok (slice (a.outputsOf (start.arrangement.unit u)) place) := by
  have hc := hm.declared c (Array.mem_of_getElem? hu)
  have hstop : place.stop ≤ (start.arrangement.unit u).outputs.size := by
    rw [(h.laid.fits hm hu).size_outputs, hc.size_outputs, ← Nat.zero_add (List.sum _)]
    exact (Variable.bounds_placed hv).2.2
  have hplace : a.store.placeOf (pathOf c v) = none := by
    rw [Store.placeOf_congr ha.entries]
    exact h.laid.placeOf_output hm hu (Variable.mem_of_placed hv)
  have hslots := h.laid.slotsOf_output hu hv
  change start.assembly.store.slotsOf _ = _ at hslots
  rw [← Store.slotsOf_congr ha.entries] at hslots
  rw [Store.get_of_slotsOf hplace hslots, outputsOf, slice_slice hstop]

/-- **The residuals of an output** are those of its entries among the residuals of its unit. -/
theorem IsSetUp.residual_output (hm : m.Sound) (h : IsSetUp m start)
    (ha : start.assembly.Follows a) {u : Nat} {c : Component α} {v : Variable α} {place : Span}
    (hu : m.units[u]? = some c) (hv : (v, place) ∈ Variable.placed 0 c.discipline.outputs) :
    a.store.residual (pathOf c v) =
      .ok (slice (a.residualsOf (start.arrangement.unit u)) place) := by
  have hstop : place.stop ≤ (start.arrangement.unit u).outputs.size := by
    rw [(h.laid.fits hm hu).size_outputs,
      (hm.declared c (Array.mem_of_getElem? hu)).size_outputs, ← Nat.zero_add (List.sum _)]
    exact (Variable.bounds_placed hv).2.2
  have hslots := h.laid.slotsOf_output hu hv
  change start.assembly.store.slotsOf _ = _ at hslots
  rw [← Store.slotsOf_congr ha.entries] at hslots
  rw [Store.residual_of_slotsOf hslots, residualsOf, slice_slice hstop]

/-- **The value of an input** is that of its entries among the inputs of its unit. -/
theorem IsSetUp.get_input (hm : m.Sound) (h : IsSetUp m start) (ha : start.assembly.Follows a)
    {u : Nat} {c : Component α} {v : Variable α} {place : Span} (hu : m.units[u]? = some c)
    (hv : (v, place) ∈ Variable.placed 0 c.discipline.inputs) :
    a.store.get (pathOf c v) = .ok (slice (a.inputsOf (start.arrangement.unit u)) place) := by
  have hc := hm.declared c (Array.mem_of_getElem? hu)
  have hstop : place.stop ≤ (start.arrangement.unit u).inputs.size := by
    rw [Span.size, (h.laid.places u c hu).2, Nat.add_sub_cancel_left, hc.size_inputs,
      ← Nat.zero_add (List.sum _)]
    exact (Variable.bounds_placed hv).2.2
  have hplace := h.laid.placeOf_input hu hv
  change start.assembly.store.placeOf _ = _ at hplace
  rw [← Store.placeOf_congr ha.entries] at hplace
  rw [Store.get_of_placeOf hplace, inputsOf, slice_slice hstop]

/-- What an input receives is what it is fed from, converted entry by entry. -/
theorem IsSetUp.slice_received (h : IsSetUp m start) {u : Nat} {c : Component α}
    {v : Variable α} {place source : Span} (hu : m.units[u]? = some c)
    (hv : (v, place) ∈ Variable.placed 0 c.discipline.inputs)
    (hsource : start.store.slotsOf (m.feedOf c v).1 = some source) (slots : Array α) :
    slice (received start.arrangement u slots) place =
      (slice slots source).map fun y => (m.feedOf c v).2.1 * y + (m.feedOf c v).2.2 := by
  obtain ⟨r, hr, hsize⟩ := h.laid.fed c (Array.mem_of_getElem? hu) v (Variable.mem_of_placed hv)
  obtain rfl : source = r := Option.some.inj (hsource.symm.trans hr)
  have hplace : place.size = v.size := Variable.size_placed hv
  refine ext_entry (by simp [hplace, hsize]) fun k hk => ?_
  have hlt : k < v.size := by simpa [hplace] using hk
  rw [entry_slice, if_pos (hplace ▸ hlt), entry_received (h.laid.getElem?_routes hu hv hsource hlt),
    entry_eq_getElem (by simpa [hsize] using hlt), Array.getElem_map,
    ← entry_eq_getElem (by simpa [hsize] using hlt), entry_slice, if_pos (hsize ▸ hlt)]
  rfl

/-- The source of a connected input is an output with slots. -/
theorem IsSetUp.get_source (hm : m.Sound) (h : IsSetUp m start) (ha : start.assembly.Follows a)
    {t : Target} {link : Link α} (hlink : m.links.lookup t = some link) :
    ∃ source, start.store.slotsOf link.source.path = some source ∧
      a.store.get link.source.path = .ok (slice a.store.slots source) := by
  obtain ⟨giver, given, taker, taken, hconn⟩ := hm.links _ _ (mem_of_lookup hlink)
  obtain ⟨w, hw⟩ := Array.getElem?_of_mem hconn.giver_mem
  obtain ⟨place, hplaced⟩ := Variable.exists_placed 0 hconn.given_mem
  have hpath : link.source.path = pathOf giver given := by
    rw [hconn.source]
    rfl
  have hslots := h.laid.slotsOf_output hw hplaced
  have hplace := h.laid.placeOf_output hm hw hconn.given_mem
  rw [hpath]
  refine ⟨_, hslots, Store.get_of_slotsOf ?_ ?_⟩
  · rw [Store.placeOf_congr ha.entries]
    exact hplace
  · rw [Store.slotsOf_congr ha.entries]
    exact hslots

/-- **A connected input** that has been transferred is its source, converted. -/
theorem IsSetUp.get_connected (hm : m.Sound) (h : IsSetUp m start)
    (ha : start.assembly.Follows a) {u : Nat} {c : Component α} {v : Variable α}
    (hu : m.units[u]? = some c) (hv : v ∈ c.discipline.inputs) {link : Link α}
    (hlink : m.links.lookup ⟨c.name, v.name⟩ = some link)
    (hreceived : a.inputsOf (start.arrangement.unit u) = received start.arrangement u a.store.slots) :
    ∃ y, a.store.get link.source.path = .ok y ∧
      a.store.get (pathOf c v) = .ok (y.map fun y => link.scale * y + link.offset) := by
  obtain ⟨place, hplaced⟩ := Variable.exists_placed 0 hv
  obtain ⟨source, hsource, hget⟩ := h.get_source hm ha hlink
  have hfeed : m.feedOf c v = (link.source.path, link.scale, link.offset) := by
    simp only [feedOf, hlink]
  have hslice := h.slice_received hu hplaced (by rw [hfeed]; exact hsource) a.store.slots
  rw [hfeed] at hslice
  exact ⟨_, hget, by rw [h.get_input hm ha hu hplaced, hreceived, hslice]⟩

end Model

namespace Model

open Assembly

variable [ExactScalar α] {m : Model α} {start : Problem α} {a : Assembly α}

/-- **An independent input** that has been transferred is what its slots hold. -/
theorem IsSetUp.get_independent (hm : m.Sound) (h : IsSetUp m start)
    (ha : start.assembly.Follows a) {u : Nat} {c : Component α} {v : Variable α}
    (hu : m.units[u]? = some c) (hv : v ∈ c.discipline.inputs)
    (hlink : m.links.lookup ⟨c.name, v.name⟩ = none)
    (hreceived : a.inputsOf (start.arrangement.unit u) = received start.arrangement u a.store.slots) :
    ∃ y, a.store.held (pathOf c v) = some y ∧ a.store.get (pathOf c v) = .ok y := by
  obtain ⟨place, hplaced⟩ := Variable.exists_placed 0 hv
  obtain ⟨i, e, he, hholds⟩ := h.laid.inputs c (Array.mem_of_getElem? hu) v hv
  obtain ⟨own, -, hown⟩ := hholds.independent hlink
  have hfeed : m.feedOf c v = (pathOf c v, 1, 0) := by simp only [feedOf, hlink]
  have hslots : start.store.slotsOf (pathOf c v) = some own := by
    rw [← hholds.name, Store.slotsOf_name h.laid.sound.names he, hown]
  have hslice := h.slice_received hu hplaced (by rw [hfeed]; exact hslots) a.store.slots
  have hidentity : (fun y : α => (1 : α) * y + 0) = id := by
    funext y
    rw [one_mul, add_zero, id]
  rw [hfeed, hidentity, Array.map_id] at hslice
  refine ⟨slice a.store.slots own, ?_, by rw [h.get_input hm ha hu hplaced, hreceived, hslice]⟩
  rw [Store.held, Store.slotsOf_congr ha.entries]
  change (start.store.slotsOf _).map _ = _
  rw [hslots, Option.map_some]

end Model

end Mdao
