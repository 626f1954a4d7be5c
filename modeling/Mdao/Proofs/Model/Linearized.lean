import Mdao.Proofs.Model.Jacobian
import Mdao.Proofs.Model.Reached
import Mdao.Proofs.Model.Transfer

/-!
# Refreshing the derivatives of all units

Refreshing derivatives goes from unit to unit: the inputs of a unit are transferred, and the unit is
linearized there. A step on a unit leaves alone what the others need and what they have got
(`Assembly.Refreshed.step`), so in the end every unit has been linearized at its present inputs and
outputs (`IsSetUp.linearized`).
-/

namespace Mdao

open Vec

variable {α : Type}

/-! ### Steps that do not disturb each other -/

namespace Assembly

/-- **A step for each item gets each item done**, when it keeps an invariant and disturbs no other
item, neither before the turn of that item nor after. -/
theorem forEach_gets_done {ε σ β : Type} {step : β → EStateM ε σ Unit} (Inv : σ → Prop)
    (Ready Done : β → σ → Prop) {items : List β} (hnodup : items.Nodup)
    (hstep : ∀ b ∈ items, ∀ s s', Inv s → Ready b s → step b s = .ok () s' →
      Inv s' ∧ Done b s' ∧
        ∀ d ∈ items, d ≠ b → (Ready d s → Ready d s') ∧ (Done d s → Done d s'))
    {s s' : σ} (hinv : Inv s) (hready : ∀ b ∈ items, Ready b s)
    (h : forEach step items s = .ok () s') : Inv s' ∧ ∀ b ∈ items, Done b s' := by
  -- the items before the present one are done, the others are ready
  have hrest : ∀ rest done, items = done ++ rest → ∀ s, Inv s → (∀ b ∈ done, Done b s) →
      (∀ b ∈ rest, Ready b s) → forEach step rest s = .ok () s' →
      Inv s' ∧ ∀ b ∈ items, Done b s' := by
    intro rest
    induction rest with
    | nil =>
      intro done hitems s hinv hdone _ h
      cases h
      rw [hitems, List.append_nil]
      exact ⟨hinv, hdone⟩
    | cons b rest ih =>
      intro done hitems s hinv hdone hready h
      have hmem : b ∈ items := by simp [hitems]
      cases hb : step b s with
      | error e s1 =>
        simp only [forEach, bind, EStateM.bind, hb] at h
        cases h
      | ok _ s1 =>
        obtain ⟨hinv1, hb1, hothers⟩ := hstep b hmem s s1 hinv (hready b List.mem_cons_self) hb
        have hdisjoint : done.Nodup ∧ (b :: rest).Nodup ∧ ∀ d ∈ done, ∀ d' ∈ b :: rest, d ≠ d' :=
          List.nodup_append.1 (hitems ▸ hnodup)
        have hbrest : b ∉ rest := (List.nodup_cons.1 hdisjoint.2.1).1
        refine ih (done ++ [b]) (by simp [hitems]) s1 hinv1 (fun d hd => ?_) (fun d hd => ?_)
          ((bind_of_ok _ hb).symm.trans h)
        · rcases List.mem_append.1 hd with hd | hd
          · have hne := hdisjoint.2.2 d hd b List.mem_cons_self
            exact (hothers d (by simp [hitems, hd]) hne).2 (hdone d hd)
          · rw [List.mem_singleton.1 hd]
            exact hb1
        · have hne : d ≠ b := fun heq => hbrest (heq ▸ hd)
          exact (hothers d (by simp [hitems, hd]) hne).1 (hready d (List.mem_cons_of_mem _ hd))
  exact hrest items [] rfl s hinv (by simp) hready h

/-! ### Linearizing one unit after the other -/

variable [Scalar α] {l : Arrangement α} {strict : Option α} {u w : Nat} {a b b' : Assembly α}
  {c : Component α}

/-- Linearizing a unit, at what it receives and at its slots. -/
theorem linearize_eq (hc : b.units[u]? = some c) (h : b.Hosts (l.unit u) c) :
    linearize l strict u b =
      match c.linearize (received l u b.store.slots) (b.outputsOf (l.unit u)) strict with
      | .ok _ c => .ok () ((b.transfer (l.unit u)).withUnit u c)
      | .error e c => .error e ((b.transfer (l.unit u)).withUnit u c) := by
  refine (onUnit_eq hc).trans ?_
  rw [inputsOf_transfer h]
  rfl

/-- A unit with a place that can be linearized at what it receives and at its slots, is. -/
theorem linearize_ok (hc : b.units[u]? = some c) (h : b.Hosts (l.unit u) c)
    (hok : ∀ x y, x.size = c.inputs.size → y.size = c.outputs.size →
      ∃ after, c.linearize x y strict = .ok ⟨⟩ after) :
    ∃ after, linearize l strict u b = .ok () ((b.transfer (l.unit u)).withUnit u after) := by
  obtain ⟨after, hafter⟩ := hok (received l u b.store.slots) (b.outputsOf (l.unit u))
    (h.size_received _) (by rw [outputsOf, size_slice, h.fits.size_outputs])
  exact ⟨after, by rw [linearize_eq hc h, hafter]⟩

/-- A unit whose derivatives have been refreshed since a state of the model: it has its inputs, and
has been linearized at them and at its outputs. -/
structure Refreshed (l : Arrangement α) (strict : Option α) (a : Assembly α) (u : Nat)
    (b : Assembly α) : Prop where
  inputs : b.inputsOf (l.unit u) = received l u a.store.slots
  linearized : ∃ c c', a.units[u]? = some c ∧ b.units[u]? = some c' ∧
    c.linearize (received l u a.store.slots) (a.outputsOf (l.unit u)) strict = .ok ⟨⟩ c'

/-- Linearizing a unit refreshes its derivatives, and leaves the other units alone. -/
theorem Refreshed.step (hc : a.units[u]? = some c) (hhosts : a.Hosts (l.unit u) c)
    (hfollows : a.Follows b) (hslots : b.store.slots = a.store.slots)
    (hunit : b.units[u]? = a.units[u]?) (h : linearize l strict u b = .ok () b') :
    b'.store.slots = a.store.slots ∧ Refreshed l strict a u b' ∧
      ∀ w, w ≠ u → Apart l w u → b'.units[w]? = b.units[w]? ∧
        (Refreshed l strict a w b → Refreshed l strict a w b') := by
  have hcb : b.units[u]? = some c := hunit.trans hc
  have hhostsb := hhosts.follows hfollows
  have houtputs : b.outputsOf (l.unit u) = a.outputsOf (l.unit u) := by
    rw [outputsOf, hslots, outputsOf]
  rw [linearize_eq hcb hhostsb, hslots, houtputs] at h
  split at h
  · rename_i c' hc'
    cases h
    have hlt : u < b.units.size := (Array.getElem?_eq_some_iff.1 hcb).1
    refine ⟨hslots, ⟨?_, c, c', hc, ?_, hc'⟩, fun w hne hapart => ?_⟩
    · exact (inputsOf_transfer hhostsb).trans (by rw [hslots])
    · exact Array.getElem?_setIfInBounds_self_of_lt hlt
    · have hother : ((b.transfer (l.unit u)).withUnit u c').units[w]? = b.units[w]? :=
        Array.getElem?_setIfInBounds_ne hne.symm
      refine ⟨hother, fun hw => ⟨?_, ?_⟩⟩
      · rw [← hw.inputs]
        exact slice_congr fun k hk => entry_splice_of_notMem (hapart.inputs k hk)
      · rw [hother]
        exact hw.linearized
  · cases h

/-- **Linearizing units one after the other** refreshes the derivatives of each of them. -/
theorem linearizeAll_refreshes {us : List Nat} (hnodup : us.Nodup)
    (hhosts : ∀ u ∈ us, ∃ c, a.units[u]? = some c ∧ a.Hosts (l.unit u) c)
    (hapart : ∀ u ∈ us, ∀ w ∈ us, w ≠ u → Apart l w u)
    (h : linearizeAll l strict us a = .ok () b) :
    b.store.slots = a.store.slots ∧ ∀ u ∈ us, Refreshed l strict a u b := by
  have hall := forEach_gets_done (fun b => a.Follows b ∧ b.store.slots = a.store.slots)
    (fun u b => b.units[u]? = a.units[u]?) (Refreshed l strict a) hnodup
    (fun u hu s s' hinv hready hstep => by
      obtain ⟨c, hc, hhost⟩ := hhosts u hu
      have hfollows := follows_linearize l strict u s
      rw [hstep] at hfollows
      obtain ⟨hslots, hdone, hothers⟩ := Refreshed.step hc hhost hinv.1 hinv.2 hready hstep
      refine ⟨⟨.trans _ _ _ hinv.1 hfollows, hslots⟩, hdone, fun w hw hne => ?_⟩
      obtain ⟨hunit, hkept⟩ := hothers w hne (hapart u hu w hw hne)
      exact ⟨fun hready => hunit.trans hready, hkept⟩)
    (s := a) ⟨.refl a, rfl⟩ (fun _ _ => rfl) h
  exact ⟨hall.1.2, hall.2⟩

end Assembly

/-! ### Problems that are set up -/

namespace Problem

variable [Scalar α] {p q : Problem α}

omit [Scalar α] in
/-- A step on units and values has its result as their new state. -/
theorem assembly_of_onAssembly {step : EStateM EvalError (Assembly α) Unit}
    (h : onAssembly step p = .ok () q) : step p.assembly = .ok () q.assembly := by
  unfold onAssembly at h
  cases hstep : step p.assembly with
  | error e a =>
    rw [hstep] at h
    cases h
  | ok _ a =>
    rw [hstep] at h
    cases h
    rfl

/-- Refreshing the derivatives of a problem linearizes its units. -/
theorem linearizeAll_assembly (h : linearizeAll p = .ok () q) :
    Assembly.linearizeAll p.arrangement p.options.strictPartials p.order p.assembly =
      .ok () q.assembly := by
  unfold linearizeAll at h
  dsimp only at h
  cases hstep : onAssembly
      (Assembly.linearizeAll p.arrangement p.options.strictPartials p.order) p with
  | error e r =>
    rw [hstep] at h
    cases h
  | ok _ r =>
    rw [hstep] at h
    cases h
    exact assembly_of_onAssembly (q := r) hstep

end Problem

namespace Model

open Assembly

variable [ExactScalar α] {m : Model α} {start p q : Problem α}

/-- Refreshing the derivatives of a problem leaves its slots alone and refreshes those of each unit. -/
theorem IsSetUp.refreshed (hm : m.Sound) (h : IsSetUp m start) (hp : start.Follows p)
    (hlinearize : Problem.linearizeAll p = .ok () q) :
    q.assembly.store.slots = p.assembly.store.slots ∧ ∀ u ∈ start.order,
      Refreshed start.arrangement p.options.strictPartials p.assembly u q.assembly := by
  have hstep := Problem.linearizeAll_assembly hlinearize
  rw [hp.arrangement, hp.order] at hstep
  have hlt : ∀ u ∈ start.order, u < m.units.size := fun u hu =>
    List.mem_range.1 ((h.perm hm).mem_iff.1 hu)
  exact linearizeAll_refreshes ((h.perm hm).nodup_iff.2 List.nodup_range)
    (fun u hu => by
      obtain ⟨c, hc, -, hhosts⟩ := h.hosts hm hp.assembly (Array.getElem?_eq_getElem (hlt u hu))
      exact ⟨c, hc, hhosts⟩)
    (fun u hu w hw hne => h.apart hm (hlt w hw) (hlt u hu) hne) hstep

/-- **Once the derivatives of a problem are refreshed**, each unit has its inputs, and has been
linearized at them and at its outputs. -/
theorem IsSetUp.linearized (hm : m.Sound) (h : IsSetUp m start) (hp : start.Follows p)
    (hlinearize : Problem.linearizeAll p = .ok () q)
    (hproducts : ∀ u (c : Component α), q.assembly.units[u]? = some c → c.ProductsAreLinear
      (q.assembly.inputsOf (start.arrangement.unit u))
      (q.assembly.outputsOf (start.arrangement.unit u))) :
    start.Linearized q.assembly start.order := by
  have hlt : ∀ u ∈ start.order, u < m.units.size := fun u hu =>
    List.mem_range.1 ((h.perm hm).mem_iff.1 hu)
  obtain ⟨hslots, hrefreshed⟩ := h.refreshed hm hp hlinearize
  refine ⟨fun u hu c hc => ?_, fun u _ c hc => hproducts u c hc⟩
  obtain ⟨hinputs, before, c', hbefore, hc', hlinearized⟩ := hrefreshed u hu
  obtain rfl : c' = c := Option.some.inj (hc'.symm.trans hc)
  have hunits : Component.AllAlike m.units p.assembly.units := h.units ▸ hp.assembly.units
  have hdeclared := Array.getElem?_eq_getElem (hlt u hu)
  have hbound := hlt u hu
  refine ⟨m.units[u], (congrArg (·[u]?) h.units).trans hdeclared, before,
    p.options.strictPartials, hunits.alike u _ _ hdeclared hbefore, ?_⟩
  have houtputs : q.assembly.outputsOf (start.arrangement.unit u) =
      p.assembly.outputsOf (start.arrangement.unit u) := by
    rw [outputsOf, hslots, outputsOf]
  rw [hinputs, houtputs]
  exact hlinearized

end Model

end Mdao
