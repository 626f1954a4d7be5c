import Mdao.Proofs.Model.Setup
import Mdao.Proofs.Model.Solves

/-!
# The names of quantities

A quantity of interest is any variable of the model: an output or an independent input, which has
slots of its own, or a connected input, which is read from the slots of its source. In a problem that
is set up each of them is found, in slots that exist (`quantity_spec`), and so is every independent
input (`independent_spec`).
-/

namespace Mdao

variable {α : Type} [Scalar α]

namespace Model

variable {m : Model α}

/-- The path of an output or of an input. -/
def IsQuantity (m : Model α) (name : String) : Prop :=
  ∃ c ∈ m.units, ∃ v, (v ∈ c.discipline.outputs ∨ v ∈ c.discipline.inputs) ∧ name = pathOf c v

/-- The path of an input that nothing is connected to. -/
def IsIndependent (m : Model α) (name : String) : Prop :=
  ∃ c ∈ m.units, ∃ v ∈ c.discipline.inputs,
    m.links.lookup ⟨c.name, v.name⟩ = none ∧ name = pathOf c v

end Model

namespace Problem

open Model

variable {m : Model α} {p : Problem α}

/-- A variable with slots is a quantity by itself. -/
theorem quantity_of_slotsOf {r : Span} {name : String} (hr : p.store.slotsOf name = some r) :
    p.quantity name = .ok (r, 1) := by
  obtain ⟨i, hi, hr⟩ := Option.bind_eq_some_iff.1 hr
  have hslots : p.store.slots? i = some r := hr
  unfold quantity
  refine bind_eq_ok.2 ⟨i, Store.id_eq_ok.2 hi, ?_⟩
  simp only [hslots]
  rfl

/-- **An input is read from what it is fed from**: a connected one from its source, scaled by the
conversion on the way. -/
theorem quantity_of_feed (hm : m.Sound) (hlaid : Laid m p.order p.store p.arrangement)
    (hlinks : p.links = m.links) {c : Component α} {v : Variable α} (hc : c ∈ m.units)
    (hv : v ∈ c.discipline.inputs) {r : Span}
    (hr : p.store.slotsOf (m.feedOf c v).1 = some r) :
    p.quantity (pathOf c v) = .ok (r, (m.feedOf c v).2.1) := by
  cases hlink : m.links.lookup ⟨c.name, v.name⟩ with
  | none =>
    simp only [feedOf, hlink] at hr ⊢
    exact quantity_of_slotsOf hr
  | some link =>
    simp only [feedOf, hlink] at hr ⊢
    obtain ⟨i, e, he, hholds⟩ := hlaid.inputs c hc v hv
    have hnone : p.store.slots? i = none := by
      rw [Store.slots?, he]
      exact hholds.connected link hlink
    obtain ⟨k, hk, hr⟩ := Option.bind_eq_some_iff.1 hr
    have hslots : p.store.slots? k = some r := hr
    obtain ⟨_, _, _, _, hconn⟩ := hm.links _ _ (mem_of_lookup hlink)
    have hsplit : splitPath (pathOf c v) = .ok (c.name, v.name) := hconn.split
    unfold quantity
    refine bind_eq_ok.2 ⟨i, hholds.name ▸ hlaid.id_eq he, ?_⟩
    simp only [hnone]
    refine bind_eq_ok.2 ⟨_, hsplit, ?_⟩
    simp only [hlinks, hlink]
    refine bind_eq_ok.2 ⟨k, Store.id_eq_ok.2 hk, ?_⟩
    simp only [hslots]
    rfl

/-- **Every variable of the model is a quantity of interest.** -/
theorem quantity_spec (hm : m.Sound) (hlaid : Laid m p.order p.store p.arrangement)
    (hlinks : p.links = m.links) {name : String} (h : m.IsQuantity name) :
    ∃ r scale, p.quantity name = .ok (r, scale) ∧ r.stop ≤ p.arrangement.size := by
  have hstop : ∀ {name r}, p.store.slotsOf name = some r → r.stop ≤ p.arrangement.size :=
    fun hr => by
      obtain ⟨i, e, he, -, hslots⟩ := Store.entry_of_slotsOf hr
      exact hlaid.stop_le he hslots
  obtain ⟨c, hc, v, hv, rfl⟩ := h
  rcases hv with hv | hv
  · obtain ⟨u, hu⟩ := Array.getElem?_of_mem hc
    obtain ⟨place, hplace⟩ := Variable.exists_placed 0 hv
    have hr := hlaid.slotsOf_output hu hplace
    exact ⟨_, 1, quantity_of_slotsOf hr, hstop hr⟩
  · obtain ⟨r, hr, -⟩ := hlaid.fed c hc v hv
    exact ⟨r, _, quantity_of_feed hm hlaid hlinks hc hv hr, hstop hr⟩

/-- **Every input without a source is independent.** -/
theorem independent_spec (hlaid : Laid m p.order p.store p.arrangement) {name : String}
    (h : m.IsIndependent name) :
    ∃ r ∈ p.arrangement.independents, p.independent name = .ok (r, 1) ∧
      r.stop ≤ p.arrangement.size := by
  obtain ⟨c, hc, v, hv, hlink, rfl⟩ := h
  obtain ⟨i, e, he, hholds⟩ := hlaid.inputs c hc v hv
  obtain ⟨r, hmem, hr⟩ := hholds.independent hlink
  have hinput : p.store.isInput i = true := by
    simp [Store.isInput, he, hholds.kind]
  have hslots : p.store.slots? i = some r := by
    rw [Store.slots?, he]
    exact hr
  refine ⟨r, hmem, ?_, hlaid.stop_le he hr⟩
  unfold independent
  refine bind_eq_ok.2 ⟨i, hholds.name ▸ hlaid.id_eq he, ?_⟩
  simp only [hinput, hslots]
  rfl

/-- What is found for a quantity are slots of a variable. -/
theorem slots_of_quantity {name : String} {r : Span} {scale : α}
    (h : p.quantity name = .ok (r, scale)) : ∃ i, p.store.slots? i = some r := by
  unfold quantity at h
  obtain ⟨i, -, h⟩ := bind_eq_ok.1 h
  cases hslots : p.store.slots? i with
  | some slots =>
    rw [hslots] at h
    cases h
    exact ⟨i, hslots⟩
  | none =>
    rw [hslots] at h
    obtain ⟨⟨owner, input⟩, -, h⟩ := bind_eq_ok.1 h
    dsimp only at h
    split at h
    · cases h
    · obtain ⟨source, -, h⟩ := bind_eq_ok.1 h
      split at h
      · rename_i slots hsource
        cases h
        exact ⟨source, hsource⟩
      · cases h

/-- And so are those of an independent input. -/
theorem slots_of_independent {name : String} {r : Span} {scale : α}
    (h : p.independent name = .ok (r, scale)) : ∃ i, p.store.slots? i = some r := by
  unfold independent at h
  obtain ⟨i, -, h⟩ := bind_eq_ok.1 h
  split at h
  · rename_i slots hinput hslots
    cases h
    exact ⟨i, hslots⟩
  · cases h

omit [Scalar α] in
/-- What holds of the slots that may be found holds of all that are. -/
theorem forall_of_resolve {lookup : String → Except StructureError (Span × α)} {P : Nat → Prop}
    (h : ∀ name r scale, lookup name = .ok (r, scale) → ∀ k ∈ r, P k) {names : List String}
    {q q' : Quantities α} (hq : ∀ e ∈ q.entries, P e.1) (hresolve : resolve lookup q names = .ok q') :
    ∀ e ∈ q'.entries, P e.1 := by
  induction names generalizing q with
  | nil =>
    cases hresolve
    exact hq
  | cons name names ih =>
    unfold resolve at hresolve
    split at hresolve
    · rename_i r scale hlookup
      refine ih (fun e he => ?_) hresolve
      rcases List.mem_append.1 he with he | he
      · exact hq e he
      · obtain ⟨k, hk, rfl⟩ := List.mem_map.1 he
        exact h name r scale hlookup k (Span.mem_indices.1 hk)
    · cases hresolve

omit [Scalar α] in
/-- Names that are found one by one are resolved; what holds of the slots of each holds of all. -/
theorem resolve_spec {lookup : String → Except StructureError (Span × α)} {P : Nat → Prop}
    {names : List String}
    (h : ∀ name ∈ names, ∃ r scale, lookup name = .ok (r, scale) ∧ ∀ k ∈ r, P k)
    {q : Quantities α} (hq : ∀ e ∈ q.entries, P e.1) :
    ∃ q', resolve lookup q names = .ok q' ∧ ∀ e ∈ q'.entries, P e.1 := by
  induction names generalizing q with
  | nil => exact ⟨q, rfl, hq⟩
  | cons name names ih =>
    obtain ⟨r, scale, hlookup, hslots⟩ := h name List.mem_cons_self
    unfold resolve
    simp only [hlookup]
    refine ih (fun name' h' => h name' (List.mem_cons_of_mem _ h')) fun e he => ?_
    rcases List.mem_append.1 he with he | he
    · exact hq e he
    · obtain ⟨s, hs, rfl⟩ := List.mem_map.1 he
      exact hslots s (Span.mem_indices.1 hs)

/-- The entries that resolved quantities have under a name are the slots and the factor that are
found for it. -/
def Tells (lookup : String → Except StructureError (Span × α)) (q : Quantities α) : Prop :=
  ∀ name span, Quantities.span? q.names name = some span → ∃ r scale,
    lookup name = .ok (r, scale) ∧ span.size = r.size ∧ span.stop ≤ q.length ∧
      ∀ i < r.size, q.entries[span.start + i]? = some (r.start + i, scale)

/-- Each name with its entries, also where a name is there more than once, has the slots and the
factor that are found for it. -/
def TellsEach (lookup : String → Except StructureError (Span × α)) (q : Quantities α) : Prop :=
  ∀ e ∈ q.names, ∃ r scale, lookup e.1 = .ok (r, scale) ∧ e.2.size = r.size ∧ e.2.stop ≤ q.length ∧
    ∀ i < r.size, q.entries[e.2.start + i]? = some (r.start + i, scale)

/-- A name is found among those that are listed. -/
theorem mem_of_span? {names : List (String × Span)} {name : String} {span : Span}
    (h : Quantities.span? names name = some span) : (name, span) ∈ names := by
  obtain ⟨before, after, rfl, -⟩ := List.lookup_eq_some_iff.1 h
  simp

omit [Scalar α] in
theorem TellsEach.tells {lookup : String → Except StructureError (Span × α)} {q : Quantities α}
    (h : TellsEach lookup q) : Tells lookup q :=
  fun name span hspan => h (name, span) (mem_of_span? hspan)

omit [Scalar α] in
theorem tells_empty (lookup : String → Except StructureError (Span × α)) :
    TellsEach lookup .empty := fun e he => by cases he

omit [Scalar α] in
theorem TellsEach.push {lookup : String → Except StructureError (Span × α)} {q : Quantities α}
    (h : TellsEach lookup q) {name : String} {r : Span} {scale : α}
    (hlookup : lookup name = .ok (r, scale)) : TellsEach lookup (q.push name r scale) := by
  have hlength : (q.push name r scale).length = q.length + r.size := by
    simp [Quantities.push, Quantities.length]
  intro e he
  rcases List.mem_append.1 he with he | he
  · obtain ⟨r', scale', hlookup', hsize, hstop, hentries⟩ := h e he
    refine ⟨r', scale', hlookup', hsize, by omega, fun i hi => ?_⟩
    have hentry := hentries i hi
    exact (List.getElem?_append_left (List.getElem?_eq_some_iff.1 hentry).1).trans hentry
  · obtain rfl := List.mem_singleton.1 he
    refine ⟨r, scale, hlookup, Nat.add_sub_cancel_left _ _, hlength.ge, fun i hi => ?_⟩
    show (q.entries ++ r.indices.map fun s => (s, scale))[q.entries.length + i]? = _
    rw [List.getElem?_append_right (Nat.le_add_right _ _), Nat.add_sub_cancel_left]
    simp [Span.indices, hi]

omit [Scalar α] in
/-- **Resolving some names** lists them in order, each with its entries. -/
theorem names_resolve {lookup : String → Except StructureError (Span × α)} {names : List String}
    {q q' : Quantities α} (hq : TellsEach lookup q) (h : resolve lookup q names = .ok q') :
    TellsEach lookup q' ∧ q'.names.map Prod.fst = q.names.map Prod.fst ++ names := by
  induction names generalizing q with
  | nil =>
    cases h
    exact ⟨hq, (List.append_nil _).symm⟩
  | cons name names ih =>
    unfold resolve at h
    cases hlookup : lookup name with
    | error e => simp [hlookup] at h
    | ok found =>
      obtain ⟨r, scale⟩ := found
      rw [hlookup] at h
      obtain ⟨htells, hnames⟩ := ih (hq.push hlookup) h
      refine ⟨htells, hnames.trans ?_⟩
      simp [Quantities.push]

/-- A name that is listed is found. -/
theorem isSome_span? {names : List (String × Span)} {name : String}
    (h : name ∈ names.map Prod.fst) : (Quantities.span? names name).isSome := by
  obtain ⟨e, he, rfl⟩ := List.mem_map.1 h
  rw [Quantities.span?, List.lookup_isSome_iff]
  exact ⟨e, he, beq_self_eq_true _⟩

omit [Scalar α] in
/-- Resolving some names finds all of them, each in its entries. -/
theorem tells_resolve {lookup : String → Except StructureError (Span × α)} {names : List String}
    {q q' : Quantities α} (hq : TellsEach lookup q) (h : resolve lookup q names = .ok q') :
    Tells lookup q' ∧ ∀ name, name ∈ names ∨ (Quantities.span? q.names name).isSome →
      (Quantities.span? q'.names name).isSome := by
  obtain ⟨htells, hnames⟩ := names_resolve hq h
  refine ⟨htells.tells, fun name hname => isSome_span? ?_⟩
  rw [hnames, List.mem_append]
  rcases hname with hname | hname
  · exact .inr hname
  · obtain ⟨span, hspan⟩ := Option.isSome_iff_exists.1 hname
    exact .inl (List.mem_map.2 ⟨(name, span), mem_of_span? hspan, rfl⟩)

/-- Looking a quantity up only reads the variables and the links. -/
theorem quantity_congr {p q : Problem α} (hentries : q.store.entries = p.store.entries)
    (hlinks : q.links = p.links) : q.quantity = p.quantity := by
  funext name
  simp only [quantity, Store.id, Store.find?, Store.slots?, hentries, hlinks]

theorem independent_congr {p q : Problem α} (hentries : q.store.entries = p.store.entries) :
    q.independent = p.independent := by
  funext name
  simp only [independent, Store.id, Store.find?, Store.slots?, Store.isInput, hentries]

theorem resolveOf_congr {p q : Problem α} (hentries : q.store.entries = p.store.entries)
    (hlinks : q.links = p.links) : q.resolveOf = p.resolveOf := by
  funext names
  rw [resolveOf, quantity_congr hentries hlinks, resolveOf]

theorem resolveWrt_congr {p q : Problem α} (hentries : q.store.entries = p.store.entries) :
    q.resolveWrt = p.resolveWrt := by
  funext names
  rw [resolveWrt, independent_congr hentries, resolveWrt]

end Problem

end Mdao
