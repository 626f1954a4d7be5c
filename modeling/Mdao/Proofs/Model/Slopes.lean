import Mathlib
import Mdao.Proofs.Component.Columns
import Mdao.Proofs.Model.Aged
import Mdao.Proofs.Model.Linearized
import Mdao.Proofs.Model.RunOnce
import Mdao.Proofs.Model.Structure
import Mdao.Proofs.Model.Triangular

/-!
# Models of affine units

Units that are affine with given slopes can be linearized however a problem has been used
(`Problem.exists_differentiated`), and have these slopes as their derivatives then. So the product of
the Jacobian over all slots with a vector is told by the slopes and the routes alone
(`Differentiated.sum_contributions`): in the row of an output, the entry of the vector less what the
slopes make of the entries that the unit is routed from (`Jacobian.unitRow`). In a model without
coupled blocks the Jacobian is nonsingular (`Differentiated.det_ne_zero`).
-/

namespace Mdao

open Vec Matrix

variable {α : Type}

/-! ### Linearizing all units -/

namespace Assembly

variable [Scalar α] {l : Arrangement α} {strict : Option α} {a : Assembly α}

/-- Where no unit fails in any state that linearizing leads to, none of the linearizations fails. -/
theorem linearizeAll_ok {us vs : List Nat} (hvs : ∀ u ∈ us, u ∈ vs)
    (h : ∀ u ∈ us, ∀ b, Changed l vs [] a b → ∃ c, b.units[u]? = some c ∧ b.Hosts (l.unit u) c ∧
      ∀ x y, x.size = c.inputs.size → y.size = c.outputs.size →
        ∃ after, c.linearize x y strict = .ok ⟨⟩ after) :
    ∃ b, linearizeAll l strict us a = .ok () b := by
  obtain ⟨b, hb, -⟩ := forEach_ok_of_mem (linearize l strict) (Changed l vs [] a)
    (fun u hu b hchanged => by
      obtain ⟨c, hc, hhost, hok⟩ := h u hu b hchanged
      obtain ⟨after, hstep⟩ := linearize_ok hc hhost hok
      have hnext : Changed l vs [] b (stateAfter (linearize l strict u b)) :=
        changed_linearize strict (hvs u hu) b
      rw [hstep] at hnext
      exact ⟨_, hstep, .trans hchanged hnext⟩)
    (s := a) (.refl a)
  exact ⟨b, hb⟩

end Assembly

namespace Problem

open Assembly Model

/-- Refreshing the derivatives of a problem succeeds where linearizing its units does. -/
theorem linearizeAll_of_assembly [Scalar α] {p : Problem α} {a : Assembly α}
    (h : Assembly.linearizeAll p.arrangement p.options.strictPartials p.order p.assembly =
      .ok () a) : ∃ q, linearizeAll p = .ok () q := by
  unfold linearizeAll onAssembly
  simp only [h]
  exact ⟨_, rfl⟩

variable [ExactScalar α]

/-- **A problem of affine units whose derivatives have been refreshed.** -/
structure Differentiated (m : Model α) (start : Problem α) (f : String → Array α → Array α)
    (A : String → Nat → Nat → α) (q : Problem α) : Prop where
  built : m.Built
  setUp : IsSetUp m start
  refreshed : ∃ p, start.Follows p ∧ linearizeAll p = .ok () q
  affine : ∀ c ∈ m.units, c.AffineWith (f c.name) (A c.name)
  slopes : ∀ (u : Nat) (c : Component α), q.assembly.units[u]? = some c → c.HasSlopes (A c.name)

variable {m : Model α} {start p q : Problem α} {f : String → Array α → Array α}
  {A : String → Nat → Nat → α}

/-- Linearizing a unit of a problem that has been used, also after linearizations of other units. -/
theorem Aged.linearizes (hm : m.Sound) (h : IsSetUp m start)
    (hcovers : ∀ c ∈ m.units, c.LinearizesTo (A c.name)) (hp : start.Aged p) {u : Nat}
    {c₀ : Component α} (hu : m.units[u]? = some c₀) {b : Assembly α}
    (hb : Changed start.arrangement start.order [] p.assembly b) :
    ∃ c, b.units[u]? = some c ∧ b.Hosts (start.arrangement.unit u) c ∧
      ∀ x y, x.size = c.inputs.size → y.size = c.outputs.size →
        ∃ after, c.linearize x y none = .ok ⟨⟩ after ∧ after.HasSlopes (A c₀.name) := by
  have haged := hp.assembly.changed hb (hosts_start hm h) fun _ => id
  obtain ⟨c, hc, halike, hhosts⟩ := h.hosts hm haged.follows hu
  refine ⟨c, hc, hhosts, ?_⟩
  rw [halike.inputs, halike.outputs]
  exact hcovers c₀ (Array.mem_of_getElem? hu) c
    (haged.units u c₀ c ((congrArg (·[u]?) h.units).trans hu) hc)

/-- Refreshing the derivatives of such a problem succeeds. -/
theorem Aged.exists_linearizeAll (hm : m.Sound) (h : IsSetUp m start)
    (hstrict : p.options.strictPartials = none)
    (hcovers : ∀ c ∈ m.units, c.LinearizesTo (A c.name)) (hp : start.Aged p) :
    ∃ q, linearizeAll p = .ok () q := by
  obtain ⟨a, ha⟩ : ∃ a, Assembly.linearizeAll p.arrangement p.options.strictPartials p.order
      p.assembly = .ok () a := by
    rw [hp.follows.arrangement, hp.follows.order, hstrict]
    refine linearizeAll_ok (fun _ => id) fun u hu b hb => ?_
    have hlt : u < m.units.size := List.mem_range.1 ((h.perm hm).mem_iff.1 hu)
    obtain ⟨c, hc, hhosts, hall⟩ :=
      hp.linearizes hm h hcovers (Array.getElem?_eq_getElem hlt) hb
    refine ⟨c, hc, hhosts, fun x y hx hy => ?_⟩
    obtain ⟨after, hafter, -⟩ := hall x y hx hy
    exact ⟨after, hafter⟩
  exact linearizeAll_of_assembly ha

/-- And each unit has its slopes as its derivatives then. -/
theorem Aged.hasSlopes (hm : m.Sound) (h : IsSetUp m start)
    (hstrict : p.options.strictPartials = none)
    (hcovers : ∀ c ∈ m.units, c.LinearizesTo (A c.name)) (hp : start.Aged p)
    (hlinearize : linearizeAll p = .ok () q) {u : Nat} {c : Component α}
    (hc : q.assembly.units[u]? = some c) : c.HasSlopes (A c.name) := by
  have hfollows : start.Follows q := .trans _ _ _ hp.follows (.of_linearizeAll hlinearize)
  have hunits : Component.AllAlike m.units q.assembly.units := h.units ▸ hfollows.assembly.units
  obtain ⟨c₀, hc₀, halike⟩ := hunits.exists_alike hc
  have hu : u ∈ start.order :=
    (h.perm hm).mem_iff.2 (List.mem_range.2 (Array.getElem?_eq_some_iff.1 hc₀).1)
  obtain ⟨-, before, c', hbefore, hc', hlinearized⟩ :=
    (h.refreshed hm hp.follows hlinearize).2 u hu
  obtain rfl : c' = c := Option.some.inj (hc'.symm.trans hc)
  obtain ⟨d, hd, hhosts, hall⟩ := hp.linearizes hm h hcovers hc₀ (.refl _)
  obtain rfl : d = before := Option.some.inj (hd.symm.trans hbefore)
  obtain ⟨after, hafter, hslopes⟩ := hall (received start.arrangement u p.assembly.store.slots)
    (p.assembly.outputsOf (start.arrangement.unit u)) (hhosts.size_received _)
    (by rw [outputsOf, size_slice, hhosts.fits.size_outputs])
  rw [hstrict, hafter] at hlinearized
  cases hlinearized
  rw [halike.name]
  exact hslopes

/-- **However a problem of affine units has been used, its derivatives can be refreshed.** -/
theorem exists_differentiated (hm : m.Built) (h : IsSetUp m start)
    (hstrict : start.options.strictPartials = none)
    (haffine : ∀ c ∈ m.units, c.AffineWith (f c.name) (A c.name))
    (hcovers : ∀ c ∈ m.units, c.LinearizesTo (A c.name)) (hp : start.Aged p) :
    ∃ q, linearizeAll p = .ok () q ∧ Differentiated m start f A q := by
  have hstrictp : p.options.strictPartials = none := by rw [hp.follows.options, hstrict]
  obtain ⟨q, hq⟩ := hp.exists_linearizeAll hm.sound h hstrictp hcovers
  exact ⟨q, hq, hm, h, ⟨p, hp.follows, hq⟩, haffine, fun u c hc =>
    hp.hasSlopes hm.sound h hstrictp hcovers hq hc⟩

namespace Differentiated

theorem follows (h : Differentiated m start f A q) : start.Follows q := by
  obtain ⟨p, hp, hq⟩ := h.refreshed
  exact .trans _ _ _ hp (.of_linearizeAll hq)

theorem jacobian (h : Differentiated m start f A q) : q.totalJacobian = some q.builtJacobian := by
  obtain ⟨p, hp, hq⟩ := h.refreshed
  exact (linearizeAll_spec p).2 () q hq (hp.jacobian (start_invariant h.setUp).1)

/-- A unit is one of the model, up to its derivatives, and has its places. -/
theorem unit (h : Differentiated m start f A q) {u : Nat} {c : Component α}
    (hc : q.assembly.units[u]? = some c) : u ∈ q.order ∧
      c.AffineWith (f c.name) (A c.name) ∧ q.assembly.Hosts (q.arrangement.unit u) c ∧
      c.Sound ∧ c.ReadsInputs := by
  have hunits : Component.AllAlike m.units q.assembly.units := h.setUp.units ▸ h.follows.assembly.units
  have hu : u < m.units.size := hunits.size ▸ (Array.getElem?_eq_some_iff.1 hc).1
  have hdeclared := Array.getElem?_eq_getElem hu
  obtain ⟨c', hc', halike, hhosts⟩ := h.setUp.hosts h.built.sound h.follows.assembly hdeclared
  obtain rfl : c' = c := Option.some.inj (hc'.symm.trans hc)
  have hmem := Array.getElem_mem hu
  refine ⟨?_, ?_, ?_, ((h.built.sound.declared _ hmem).sound).alike halike,
    (h.built.readsInputs _ hmem).alike halike⟩
  · rw [h.follows.order]
    exact (h.setUp.perm h.built.sound).mem_iff.2 (List.mem_range.2 hu)
  · rw [halike.name]
    exact (h.affine _ hmem).alike halike
  · rw [h.follows.arrangement]
    exact hhosts

theorem size_slots (h : Differentiated m start f A q) (hp : start.Follows p) :
    p.store.slots.size = q.arrangement.size := by
  rw [h.follows.arrangement, h.setUp.laid.size]
  exact hp.assembly.store.slots

theorem placed (h : Differentiated m start f A q) :
    Placed m q.order start.store q.arrangement q.assembly.units :=
  placed_of_follows h.built.sound h.setUp h.follows

end Differentiated

end Problem

/-! ### The Jacobian over all slots -/

namespace Jacobian

open Component MatrixFree

variable [ExactScalar α]

/-- What a unit with given slopes adds to a row of the product of the Jacobian with a vector. -/
def unitRow (p : Placement α) (A : Nat → Nat → α) (x : Array α) (i : Nat) : α :=
  if i ∈ p.outputs then
    entry x i - ∑ k ∈ Finset.range p.routes.size, A (i - p.outputs.start) k *
      ((slotOf p (.input k)).2 * entry x (slotOf p (.input k)).1)
  else 0

/-- **The contributions of a unit are told by its slopes.** -/
theorem sum_unitContributions_of_slopes {op : MatrixFree α} {u n : Nat} {c : Component α}
    (hrange : op.range = .upTo n) (hc : op.units[u]? = some c) (hacts : op.Acts u c)
    (hexplicit : c.isImplicit = false) (hreads : c.ReadsInputs) {A : Nat → Nat → α}
    (hslopes : c.HasSlopes A) (hslots : ∀ route ∈ (op.arrangement.unit u).routes, route.slot < n)
    (x : Array α) (i : Nat) :
    ((unitContributions op.arrangement op.range op.units u).map fun q =>
      q.2 * if q.1.1 = i then entry x q.1.2 else 0).sum =
      unitRow (op.arrangement.unit u) A x i := by
  have hfits := hacts.fits
  rw [sum_unitContributions_explicit hrange hc hacts hexplicit hreads, unitRow]
  generalize op.arrangement.unit u = p at hfits hslots
  split_ifs with hi
  · have hr : i - p.outputs.start < c.outputs.size := by
      rw [← hfits.size_outputs]
      exact Span.sub_start_lt hi
    rw [hslopes _ (by rw [Array.size_map, hfits.size_routes]) _ hr, hfits.size_routes]
    refine congrArg (entry x i - ·) (Finset.sum_congr rfl fun k hk => ?_)
    have hk' : k < p.routes.size := by
      rw [hfits.size_routes]
      exact Finset.mem_range.1 hk
    have hcontains : (Span.upTo n).contains p.routes[k].slot = true :=
      Span.contains_iff.2 ⟨Nat.zero_le _, hslots _ (Array.getElem_mem hk')⟩
    rw [entry_eq_getElem (by simpa using hk'), Array.getElem_map, slotOf_input hk']
    unfold seedOf
    rw [if_pos hcontains]
    rfl
  · rfl

end Jacobian

/-! ### Problems -/

namespace Model

variable [ExactScalar α] {m : Model α} {order : List Nat} {s : Store α} {l : Arrangement α}
  {units : Array (Component α)}

/-- Routes read slots that there are. -/
theorem Placed.route_lt (h : Placed m order s l units) {u : Nat} (hu : u < m.units.size)
    {route : Route α} (hroute : route ∈ (l.unit u).routes) : route.slot < l.size := by
  obtain ⟨hindependents, houtputs, -⟩ := slot_cases h.laid
  rcases source_of_route h.sound h.laid (Array.getElem?_eq_getElem hu) hroute with
    ⟨a, hedge, hslot⟩ | ⟨r, hr, hslot⟩
  · have hsize : m.graph.units.size = m.units.size := by rw [h.sound.graph, Array.size_map]
    exact houtputs a (h.mem_order_iff.2 (hsize ▸ (Graph.bounded_edges m.graph _ hedge).1)) _ hslot
  · exact (hindependents r hr _ hslot).1

end Model

namespace Problem

open Jacobian Model Assembly

variable [ExactScalar α] {m : Model α} {start q : Problem α} {f : String → Array α → Array α}
  {A : String → Nat → Nat → α}

/-- What the units of a problem with given slopes make of a vector, in the row of a slot. -/
def unitRows (q : Problem α) (A : String → Nat → Nat → α) (x : Array α) (i : Nat) : α :=
  (q.order.map fun u => (q.assembly.units[u]?).elim 0 fun c =>
    unitRow (q.arrangement.unit u) (A c.name) x i).sum

namespace Differentiated

theorem mem_order (h : Differentiated m start f A q) {u : Nat} : u ∈ q.order ↔ u < m.units.size := by
  rw [h.follows.order, (h.setUp.perm h.built.sound).mem_iff, List.mem_range]

theorem size_units (h : Differentiated m start f A q) : q.assembly.units.size = m.units.size := by
  rw [h.follows.assembly.units.size, h.setUp.units]

/-- The contributions of all units are told by their slopes. -/
theorem sum_contributions (h : Differentiated m start f A q) (x : Array α) (i : Nat) :
    ((q.order.flatMap (unitContributions q.arrangement (.upTo q.arrangement.size)
      q.assembly.units)).map fun c => c.2 * if c.1.1 = i then entry x c.1.2 else 0).sum =
      q.unitRows A x i := by
  rw [sum_map_flatMap, unitRows]
  refine congrArg List.sum (List.map_congr_left fun u hu => ?_)
  have hlt : u < q.assembly.units.size := h.size_units ▸ h.mem_order.1 hu
  have hc := Array.getElem?_eq_getElem hlt
  obtain ⟨-, haffine, -, -, hreads⟩ := h.unit hc
  rw [hc, Option.elim_some]
  have hexplicit := haffine.computes.isImplicit
  exact sum_unitContributions_of_slopes rfl hc
    (h.placed.acts hc hexplicit q.assembly.store.slots q.assembly.store.inputs) hexplicit hreads
    (h.slopes u _ hc) (fun route hroute => h.placed.route_lt (h.mem_order.1 hu) hroute) x i

/-- **An entry of the Jacobian** is what the rows of its slot make of a unit vector. -/
theorem totalMatrix_apply (h : Differentiated m start f A q) (i k : Fin q.arrangement.size) :
    q.totalMatrix i k =
      ((identityContributions q.arrangement (.upTo q.arrangement.size)).map fun c =>
        c.2 * if c.1.1 = (i : Nat) then entry (Vec.unit q.arrangement.size k) c.1.2 else 0).sum +
      q.unitRows A (Vec.unit q.arrangement.size k) i := by
  refine (toMatrix_build q.arrangement q.assembly.units q.order (.upTo q.arrangement.size) i k).trans
    ?_
  rw [contributions, List.map_append, List.sum_append]
  exact congrArg (_ + ·) (h.sum_contributions _ i)

/-- **Without coupled blocks the Jacobian is nonsingular.** -/
theorem det_ne_zero (h : Differentiated m start f A q) (hff : m.FeedForward) :
    q.totalMatrix.det ≠ 0 := by
  have htriangular := h.placed.isUnitTriangular hff
    (fun c hc => (h.affine c hc).computes.isImplicit) h.built.readsInputs
  exact htriangular.det_eq_one.trans_ne one_ne_zero

end Differentiated

end Problem

end Mdao
