import Mdao.Proofs.Store.Ranges
import Mdao.Proofs.Units

/-!
# Reading and writing

The value of a variable may live among the inputs, in the slots, or in both places. Where the runs of
variables are valid, a write is read back and no other variable sees it (`valueOf_written`,
`valueOf_written_of_ne`); where moreover a variable has the same value in both of its places
(`Store.Mirrored`), writing back what was read changes nothing at all (`written_valueOf`). A flat vector
is written variable by variable, and these laws hold of it by induction over the variables
(`toVector_scatterVector`, `scatterVector_toVector`).

Calls keep values mirrored. So **a store that any calls have left behind obeys the laws of reading and
writing** (`Store.lawful_run`), unless a variable was registered with a default value that is too short.
-/

namespace Mdao

namespace Store

open Vec

variable {α : Type} [Scalar α] {s s' : Store α} {i j : Nat} {x : Array α} {name : String}

/-! ### Writing to a run of a buffer -/

/-- A buffer that is written to where there is a run. -/
def writeTo (buffer : Array α) (r? : Option Span) (x : Array α) : Array α :=
  match r? with
  | some r => splice buffer r x
  | none => buffer

@[simp] theorem size_writeTo (buffer : Array α) (r? : Option Span) (x : Array α) :
    (writeTo buffer r? x).size = buffer.size := by
  cases r? <;> simp [writeTo]

section WriteTo

variable {run? : Nat → Option Span} {buffer : Array α} {r q : Span}

/-- What is written is there. -/
theorem Apart.slice_writeTo (h : Apart run? buffer.size) (hr : run? i = some r)
    (hx : x.size = r.size) : slice (writeTo buffer (run? i) x) r = x := by
  rw [hr]
  exact slice_splice_self hx (h.inside i r hr)

/-- What is written is nowhere else. -/
theorem Apart.slice_writeTo_of_ne (h : Apart run? buffer.size) (hr : run? j = some r)
    (hij : j ≠ i) : slice (writeTo buffer (run? i) x) r = slice buffer r := by
  cases hq : run? i with
  | none => rfl
  | some q =>
    exact slice_congr fun k hk => entry_splice_of_notMem (h.disjoint j i r q hr hq hij k hk)

/-- What is there may be written. -/
theorem writeTo_slice (h : ∀ r, run? i = some r → x = slice buffer r) :
    writeTo buffer (run? i) x = buffer := by
  cases hr : run? i with
  | none => rfl
  | some r => rw [h r hr]; exact splice_slice_self buffer r

end WriteTo

/-! ### Writing to a variable -/

/-- The store in which a value has been written wherever the variable lives. -/
def written (s : Store α) (i : Nat) (x : Array α) : Store α :=
  { s with
    inputs := writeTo s.inputs (s.inputs? i) x
    slots := writeTo s.slots (s.slots? i) x }

/-- A value is written if it has the length of the variable. -/
theorem setById_eq_ok : s.setById i x = .ok s' ↔ x.size = s.sizeOf i ∧ s' = s.written i x := by
  unfold setById written writeTo
  dsimp only
  split_ifs with h
  · simp [h]
  · simp only [not_not.1 h, true_and, Except.ok.injEq]
    exact ⟨Eq.symm, Eq.symm⟩

theorem sameShape_written (s : Store α) (i : Nat) (x : Array α) : s.SameShape (s.written i x) :=
  ⟨rfl, size_writeTo _ _ _, rfl, size_writeTo _ _ _⟩

omit [Scalar α] in
theorem sizeOf_congr (h : s'.entries = s.entries) : s'.sizeOf = s.sizeOf := by
  funext i
  rw [sizeOf, h]
  rfl

omit [Scalar α] in
/-- A place is as long as its variable. -/
theorem Orderly.size_inputs? (hs : s.Orderly) {r : Span} (hr : s.inputs? i = some r) :
    r.size = s.sizeOf i := by
  obtain ⟨e, he, hr⟩ := Option.bind_eq_some_iff.1 hr
  rw [((hs.entries e (Array.mem_of_getElem? he)).inputs r hr).2, sizeOf, he]

omit [Scalar α] in
theorem Orderly.size_slots? (hs : s.Orderly) {r : Span} (hr : s.slots? i = some r) :
    r.size = s.sizeOf i := by
  obtain ⟨e, he, hr⟩ := Option.bind_eq_some_iff.1 hr
  rw [((hs.entries e (Array.mem_of_getElem? he)).slots r hr).2, sizeOf, he]

omit [Scalar α] in
/-- What has no place is no variable. -/
theorem Orderly.sizeOf_eq_zero (hs : s.Orderly) (hinputs : s.inputs? i = none)
    (hslots : s.slots? i = none) : s.sizeOf i = 0 := by
  cases he : s.entries[i]? with
  | none => rw [sizeOf, he]
  | some e =>
    rw [inputs?, he, Option.bind_some] at hinputs
    rw [slots?, he, Option.bind_some] at hslots
    have horderly := hs.entries e (Array.mem_of_getElem? he)
    cases hkind : e.kind with
    | input => exact absurd hinputs (horderly.input hkind)
    | output => exact absurd hslots (horderly.output hkind).2

theorem Orderly.size_valueOf (hs : s.Orderly) (i : Nat) : (s.valueOf i).size = s.sizeOf i := by
  unfold valueOf
  cases hinputs : s.inputs? i with
  | some r => exact (size_slice _ _).trans (hs.size_inputs? hinputs)
  | none =>
    cases hslots : s.slots? i with
    | some r => exact (size_slice _ _).trans (hs.size_slots? hslots)
    | none => exact (hs.sizeOf_eq_zero hinputs hslots).symm

/-- **What is written is read.** -/
theorem valueOf_written (hs : s.Orderly) (hv : s.Valid) (hx : x.size = s.sizeOf i) :
    (s.written i x).valueOf i = x := by
  have hinputs : (s.written i x).inputs? i = s.inputs? i := rfl
  have hslots : (s.written i x).slots? i = s.slots? i := rfl
  unfold valueOf
  rw [hinputs, hslots]
  cases hr : s.inputs? i with
  | some r => exact hv.inputs.slice_writeTo hr (hx.trans (hs.size_inputs? hr).symm)
  | none =>
    cases hq : s.slots? i with
    | some q => exact hv.slots.slice_writeTo hq (hx.trans (hs.size_slots? hq).symm)
    | none => exact (Array.eq_empty_of_size_eq_zero (hx.trans (hs.sizeOf_eq_zero hr hq))).symm

/-- **No other variable sees a write.** -/
theorem valueOf_written_of_ne (hv : s.Valid) (hij : j ≠ i) :
    (s.written i x).valueOf j = s.valueOf j := by
  have hinputs : (s.written i x).inputs? j = s.inputs? j := rfl
  have hslots : (s.written i x).slots? j = s.slots? j := rfl
  unfold valueOf
  rw [hinputs, hslots]
  cases hr : s.inputs? j with
  | some r => exact hv.inputs.slice_writeTo_of_ne hr hij
  | none =>
    cases hq : s.slots? j with
    | some q => exact hv.slots.slice_writeTo_of_ne hq hij
    | none => rfl

/-! ### Variables with two places -/

/-- A variable with two places has the same value in both. -/
def Mirrored (s : Store α) : Prop :=
  ∀ i r q, s.inputs? i = some r → s.slots? i = some q → slice s.inputs r = slice s.slots q

/-- **Writing back what was read changes nothing.** -/
theorem written_valueOf (hm : s.Mirrored) (i : Nat) : s.written i (s.valueOf i) = s := by
  have hinputs : writeTo s.inputs (s.inputs? i) (s.valueOf i) = s.inputs :=
    writeTo_slice fun r hr => valueOf_of_inputs hr
  have hslots : writeTo s.slots (s.slots? i) (s.valueOf i) = s.slots := by
    refine writeTo_slice fun q hq => ?_
    cases hr : s.inputs? i with
    | some r => rw [valueOf_of_inputs hr, hm i r q hr hq]
    | none => exact valueOf_of_slots hr hq
  rw [written, hinputs, hslots]

theorem Mirrored.written (hm : s.Mirrored) (hs : s.Orderly) (hv : s.Valid)
    (hx : x.size = s.sizeOf i) : (s.written i x).Mirrored := by
  intro j r q hr hq
  by_cases hij : j = i
  · subst hij
    exact (hv.inputs.slice_writeTo hr (hx.trans (hs.size_inputs? hr).symm)).trans
      (hv.slots.slice_writeTo hq (hx.trans (hs.size_slots? hq).symm)).symm
  · exact (hv.inputs.slice_writeTo_of_ne hr hij).trans
      ((hm j r q hr hq).trans (hv.slots.slice_writeTo_of_ne hq hij).symm)

/-- Under mirrored values there is nothing to read off the slots. -/
theorem Mirrored.syncIndependents_eq (hm : s.Mirrored) : s.syncIndependents = s := by
  have hinputs : s.syncIndependents.inputs = s.inputs := by
    unfold syncIndependents
    refine Array.foldl_induction (fun _ (inputs : Array α) => inputs = s.inputs) rfl ?_
    rintro ⟨i, hi⟩ inputs rfl
    split
    · next q r hkind hq hr =>
      have hsame : slice s.inputs r = slice s.slots q :=
        hm i r q (by rw [inputs?, Array.getElem?_eq_getElem hi]; exact hr)
          (by rw [slots?, Array.getElem?_eq_getElem hi]; exact hq)
      rw [← hsame]
      exact splice_slice_self _ _
    · rfl
  calc s.syncIndependents = { s with inputs := s.syncIndependents.inputs } := rfl
    _ = s := by rw [hinputs]

theorem Mirrored.writes (hm : s.Mirrored) (hs : s.Orderly) (hv : s.Valid)
    (h : Relation.ReflTransGen Writes s s') : s'.Mirrored := by
  induction h with
  | refl => exact hm
  | tail h hlast ih =>
    have hshape := sameShape_writes h
    obtain ⟨i, value, hset⟩ := hlast
    obtain ⟨hsize, rfl⟩ := setById_eq_ok.1 hset
    exact ih.written (hs.sameShape hshape) (hv.sameShape hshape) hsize

/-- **A call keeps values mirrored.** New places come behind the others, so that the values in these
stay, and slots that an input is given have its value. -/
theorem Mirrored.step (hm : s.Mirrored) (hs : s.Orderly) (hv : s.Valid) (h : s.Step s') :
    s'.Mirrored := by
  cases h with
  | output name v fresh =>
    intro i r q hr hq
    have hr : s.inputs? i = some r := (congrFun (place_push_none s.entries rfl) i).symm.trans hr
    have hq : s.slots? i = some q := (place_push_of_ne (ne_of_place hr)).symm.trans hq
    exact (hm i r q hr hq).trans (slice_append_left _ (hv.slots.inside i q hq)).symm
  | input name v fresh =>
    intro i r q hr hq
    have hq : s.slots? i = some q := (congrFun (place_push_none s.entries rfl) i).symm.trans hq
    have hr : s.inputs? i = some r := (place_push_of_ne (ne_of_place hq)).symm.trans hr
    exact (slice_append_left _ (hv.inputs.inside i r hr)).trans (hm i r q hr hq)
  | slots i e source entry free place =>
    intro j r q hr hq
    rw [inputs?_withSlots] at hr
    rw [slots?_withSlots entry, Function.update_apply] at hq
    split_ifs at hq with hji
    · cases hq
      have hsource : s.inputs? j = some source := by rw [hji, inputs?, entry]; exact place
      obtain rfl : r = source := Option.some.inj (hr.symm.trans hsource)
      have hlast := slice_append_right s.slots (slice s.inputs r)
      rw [size_slice] at hlast
      exact hlast.symm
    · exact (hm j r q hr hq).trans (slice_append_left _ (hv.slots.inside j q hq)).symm
  | values _ writes => exact hm.writes hs hv writes
  | sync =>
    rw [hm.syncIndependents_eq]
    exact hm

/-! ### Flat vectors -/

theorem foldl_valueOf (s : Store α) (ids : List Nat) (init : Array α) :
    ids.foldl (fun x i => x ++ s.valueOf i) init = init ++ s.toVector ids := by
  induction ids generalizing init with
  | nil => exact Array.append_empty.symm
  | cons i ids ih =>
    have hcons : s.toVector (i :: ids) = s.valueOf i ++ s.toVector ids := by
      rw [toVector, List.foldl_cons, ih, Array.empty_append]
    rw [List.foldl_cons, ih, hcons, Array.append_assoc]

theorem toVector_cons (s : Store α) (i : Nat) (ids : List Nat) :
    s.toVector (i :: ids) = s.valueOf i ++ s.toVector ids := by
  rw [toVector, List.foldl_cons, foldl_valueOf, Array.empty_append]

theorem size_toVector (hs : s.Orderly) (ids : List Nat) :
    (s.toVector ids).size = (ids.map s.sizeOf).sum := by
  induction ids with
  | nil => rfl
  | cons i ids ih =>
    rw [toVector_cons, Array.size_append, ih, hs.size_valueOf, List.map_cons, List.sum_cons]

/-- Scattering a vector writes the first piece, then the rest. -/
theorem scatterVector_cons {flat : Array α} {offset : Nat} {ids : List Nat} :
    s.scatterVector flat offset (i :: ids) =
      (s.written i (slice flat ⟨offset, offset + s.sizeOf i⟩)).scatterVector flat
        (offset + s.sizeOf i) ids := by
  have hset : s.setById i (slice flat ⟨offset, offset + s.sizeOf i⟩) =
      .ok (s.written i (slice flat ⟨offset, offset + s.sizeOf i⟩)) :=
    setById_eq_ok.2 ⟨(size_slice _ _).trans (size_from _ _), rfl⟩
  rw [scatterVector]
  simp only [hset]

/-- Variables that are not among those written to keep their values. -/
theorem valueOf_scatterVector (hv : s.Valid) {flat : Array α} {offset : Nat} {ids : List Nat}
    (h : s.scatterVector flat offset ids = .ok s') (hj : j ∉ ids) : s'.valueOf j = s.valueOf j := by
  induction ids generalizing s offset with
  | nil =>
    cases h
    rfl
  | cons i ids ih =>
    rw [List.mem_cons, not_or] at hj
    obtain ⟨hji, hj⟩ := hj
    rw [scatterVector_cons] at h
    rw [ih (hv.sameShape (sameShape_written _ _ _)) h hj, valueOf_written_of_ne hv hji]

/-- **A vector that was scattered is read back**, where no variable occurs twice. -/
theorem toVector_scatterVector (hs : s.Orderly) (hv : s.Valid) {flat : Array α} {offset : Nat}
    {ids : List Nat} (hids : ids.Nodup) (h : s.scatterVector flat offset ids = .ok s') :
    s'.toVector ids = slice flat ⟨offset, offset + (ids.map s.sizeOf).sum⟩ := by
  induction ids generalizing s offset with
  | nil =>
    exact (Array.eq_empty_of_size_eq_zero ((size_slice _ _).trans (size_from _ _))).symm
  | cons i ids ih =>
    obtain ⟨hi, hids⟩ := List.nodup_cons.1 hids
    have hshape := sameShape_written s i (slice flat ⟨offset, offset + s.sizeOf i⟩)
    have hpiece := valueOf_written (x := slice flat ⟨offset, offset + s.sizeOf i⟩) hs hv
      ((size_slice _ _).trans (size_from _ _))
    rw [scatterVector_cons] at h
    rw [toVector_cons, valueOf_scatterVector (hv.sameShape hshape) h hi, hpiece,
      ih (hs.sameShape hshape) (hv.sameShape hshape) hids h, sizeOf_congr hshape.entries,
      slice_append_slice flat (Nat.le_add_right _ _) (Nat.le_add_right _ _), List.map_cons,
      List.sum_cons, Nat.add_assoc]

/-- **Scattering what was read changes nothing**, however often a variable occurs. -/
theorem scatterVector_toVector (hs : s.Orderly) (hm : s.Mirrored) {flat : Array α} {offset : Nat}
    {ids : List Nat}
    (h : slice flat ⟨offset, offset + (ids.map s.sizeOf).sum⟩ = s.toVector ids) :
    s.scatterVector flat offset ids = .ok s := by
  induction ids generalizing offset with
  | nil => rfl
  | cons i ids ih =>
    rw [List.map_cons, List.sum_cons, ← Nat.add_assoc, toVector_cons,
      ← slice_append_slice flat (Nat.le_add_right offset (s.sizeOf i)) (Nat.le_add_right _ _)] at h
    obtain ⟨hpiece, hrest⟩ := Array.append_inj h
      ((size_slice _ _).trans ((size_from _ _).trans (hs.size_valueOf i).symm))
    rw [scatterVector_cons, hpiece, written_valueOf hm]
    exact ih hrest

/-! ### Variables by name -/

omit [Scalar α] in
/-- A name is that of one variable. -/
theorem Orderly.id_eq_ok_iff (hs : s.Orderly) :
    s.id name = .ok i ↔ ∃ e, s.entries[i]? = some e ∧ e.name = name := by
  refine ⟨entry_of_id, ?_⟩
  rintro ⟨e, he, rfl⟩
  exact id_eq_ok.2 (find?_name hs.names he)

theorem get_eq_ok : s.get name = .ok x ↔ ∃ i, s.id name = .ok i ∧ s.valueOf i = x := by
  unfold get
  cases s.id name <;> simp

/-- A value is written under the name of a variable of its length. -/
theorem set_eq_ok_iff (hs : s.Orderly) : s.set name x = .ok s' ↔
    ∃ i e, s.entries[i]? = some e ∧ e.name = name ∧ x.size = e.declared.size ∧
      s' = s.written i x := by
  have hsize : ∀ {i e}, s.entries[i]? = some e → s.sizeOf i = e.declared.size := fun he => by
    rw [sizeOf, he]
  simp only [set_eq_ok, hs.id_eq_ok_iff, setById_eq_ok]
  constructor
  · rintro ⟨i, ⟨e, he, hname⟩, hx, hs'⟩
    exact ⟨i, e, he, hname, hx.trans (hsize he), hs'⟩
  · rintro ⟨i, e, he, hname, hx, hs'⟩
    exact ⟨i, ⟨e, he, hname⟩, hx.trans (hsize he).symm, hs'⟩

omit [Scalar α] in
theorem id_congr (h : s'.entries = s.entries) : s'.id = s.id := by
  funext name
  rw [id, find?, h]
  rfl

theorem held_of_id (h : s.id name = .ok i) : s.held name = (s.slots? i).map (slice s.slots) := by
  rw [held, slotsOf, id_eq_ok.1 h]
  rfl

theorem held_of_error {e : StructureError} (h : s.id name = .error e) : s.held name = none := by
  have hnone : s.find? name = none := by
    cases hfind : s.find? name with
    | none => rfl
    | some i =>
      rw [id_eq_ok.2 hfind] at h
      cases h
  rw [held, slotsOf, hnone]
  rfl

/-- **No other name sees a write**, in neither place. -/
theorem others_written (hv : s.Valid) {e : Entry α} (he : s.entries[i]? = some e)
    {other : String} (hother : other ≠ e.name) :
    (s.written i x).get other = s.get other ∧ (s.written i x).held other = s.held other := by
  have hid : (s.written i x).id other = s.id other := congrFun (id_congr rfl) other
  cases h : s.id other with
  | error error =>
    have h' := hid.trans h
    exact ⟨by simp only [get, h, h'], (held_of_error h').trans (held_of_error h).symm⟩
  | ok j =>
    have h' := hid.trans h
    have hij : j ≠ i := by
      rintro rfl
      obtain ⟨e', he', rfl⟩ := entry_of_id h
      exact hother (congrArg Entry.name (Option.some.inj (he'.symm.trans he)))
    refine ⟨by simp only [get, h, h', valueOf_written_of_ne hv hij], ?_⟩
    have hslots : (s.written i x).slots? j = s.slots? j := rfl
    rw [held_of_id h, held_of_id h', hslots]
    exact Option.map_congr fun q hq => hv.slots.slice_writeTo_of_ne hq hij

/-- The slots of a variable hold what is written. -/
theorem held_written (hs : s.Orderly) (hv : s.Valid) {e : Entry α} (he : s.entries[i]? = some e)
    (hx : x.size = e.declared.size) {q : Span} (hq : e.slots? = some q) :
    (s.written i x).held e.name = some x := by
  have hid : (s.written i x).id e.name = .ok i :=
    (congrFun (id_congr rfl) e.name).trans (hs.id_eq_ok_iff.2 ⟨e, he, rfl⟩)
  have hslots : s.slots? i = some q := by rw [slots?, he, Option.bind_some, hq]
  have hsize : s.sizeOf i = e.declared.size := by rw [sizeOf, he]
  have hwritten : slice (s.written i x).slots q = x :=
    hv.slots.slice_writeTo hslots (hx.trans (hsize.symm.trans (hs.size_slots? hslots).symm))
  have hkept : (s.written i x).slots? i = s.slots? i := rfl
  rw [held_of_id hid, hkept, hslots, Option.map_some, hwritten]

omit [Scalar α] in
theorem declaredUnits_eq_ok_iff {units declared : String} {e : Entry α}
    (he : s.entries[i]? = some e) :
    s.declaredUnits i units = .ok declared ↔ e.declared.units = some declared := by
  unfold declaredUnits
  rw [he, Option.bind_some]
  cases e.declared.units <;> simp

theorem converter_eq_ok_iff {origin target : String} {c : Conversion α} :
    converter origin target = .ok c ↔ Measure.conversion origin target = .ok c := by
  unfold converter
  cases Measure.conversion (α := α) origin target <;> simp

/-- A write in units is a write of the converted value. -/
theorem setInUnits_eq_ok_iff (hs : s.Orderly) {units : String} : s.setInUnits name x units = .ok s' ↔
    ∃ e ∈ s.entries, ∃ (declared : String) (c : Conversion α), e.name = name ∧
      e.declared.units = some declared ∧ Measure.conversion units declared = .ok c ∧
      s.set name (x.map c.apply) = .ok s' := by
  constructor
  · intro h
    obtain ⟨i, hi, h⟩ := bind_eq_ok.1 h
    obtain ⟨declared, hdeclared, h⟩ := bind_eq_ok.1 h
    obtain ⟨c, hc, h⟩ := bind_eq_ok.1 h
    obtain ⟨e, he, hname⟩ := entry_of_id hi
    exact ⟨e, Array.mem_of_getElem? he, declared, c, hname,
      (declaredUnits_eq_ok_iff he).1 hdeclared, converter_eq_ok_iff.1 hc, set_eq_ok.2 ⟨i, hi, h⟩⟩
  · rintro ⟨e, he, declared, c, rfl, hunits, hc, h⟩
    obtain ⟨i, hi, hset⟩ := set_eq_ok.1 h
    obtain ⟨e', he', hname⟩ := entry_of_id hi
    obtain rfl : e' = e := eq_of_key_eq hs.names (Array.mem_of_getElem? he') he hname
    exact bind_eq_ok.2 ⟨i, hi, bind_eq_ok.2 ⟨declared, (declaredUnits_eq_ok_iff he').2 hunits,
      bind_eq_ok.2 ⟨c, converter_eq_ok_iff.2 hc, hset⟩⟩⟩

/-! ### The laws -/

/-- **The laws of reading and writing.** -/
structure Lawful (s : Store α) : Prop where
  /-- Variables that are known take values of their lengths, -/
  accepts : ∀ name x, (∃ s', s.set name x = .ok s') ↔
    ∃ e ∈ s.entries, e.name = name ∧ x.size = e.declared.size
  /-- which are read back, -/
  read : ∀ name x s', s.set name x = .ok s' → s'.get name = .ok x
  /-- also in the slots of outputs and of inputs that have slots; -/
  slots : ∀ name x s', s.set name x = .ok s' → ∀ e ∈ s.entries, e.name = name →
    e.kind = .output ∨ e.slots? ≠ none → s'.held name = some x
  /-- and no other variable has another value. -/
  others : ∀ name x s' other, s.set name x = .ok s' → other ≠ name →
    s'.get other = s.get other ∧ s'.held other = s.held other
  /-- What is read may be written. -/
  back : ∀ name x, s.get name = .ok x → s.set name x = .ok s
  /-- Values in units are written as converted to the unit of the variable. -/
  inUnits : ∀ name x units s', s.setInUnits name x units = .ok s' ↔
    ∃ e ∈ s.entries, ∃ (declared : String) (c : Conversion α), e.name = name ∧
      e.declared.units = some declared ∧ Measure.conversion units declared = .ok c ∧
      s.set name (x.map c.apply) = .ok s'
  /-- Variables take flat vectors that are as long as they are together, -/
  acceptsVector : ∀ ids flat, (∃ s', s.ofVector ids flat = .ok s') ↔
    flat.size = (ids.map s.sizeOf).sum
  /-- which are read back unless a variable occurs twice. -/
  readVector : ∀ ids flat s', ids.Nodup → s.ofVector ids flat = .ok s' → s'.toVector ids = flat
  /-- What is read as a vector may be written. -/
  backVector : ∀ ids, s.ofVector ids (s.toVector ids) = .ok s
  /-- A call that can be carried out is, -/
  done : ∀ call s', s.attempt call = .ok s' → perform call s = .ok () s'
  /-- and one that cannot leaves everything as it was. -/
  refused : ∀ call e, s.attempt call = .error e → perform call s = .error e s

/-- Where runs are valid and values mirrored, the laws hold. -/
theorem Mirrored.lawful (hm : s.Mirrored) (hs : s.Orderly) (hv : s.Valid) : s.Lawful where
  accepts name x := by
    constructor
    · rintro ⟨s', h⟩
      obtain ⟨i, e, he, hname, hx, -⟩ := (set_eq_ok_iff hs).1 h
      exact ⟨e, Array.mem_of_getElem? he, hname, hx⟩
    · rintro ⟨e, he, hname, hx⟩
      obtain ⟨i, hi⟩ := Array.getElem?_of_mem he
      exact ⟨_, (set_eq_ok_iff hs).2 ⟨i, e, hi, hname, hx, rfl⟩⟩
  read name x s' h := by
    obtain ⟨i, hi, hset⟩ := set_eq_ok.1 h
    obtain ⟨hx, rfl⟩ := setById_eq_ok.1 hset
    exact get_eq_ok.2 ⟨i, hi, valueOf_written hs hv hx⟩
  slots name x s' h e he hname hslots := by
    obtain ⟨i, e', hi, hname', hx, rfl⟩ := (set_eq_ok_iff hs).1 h
    obtain rfl : e = e' :=
      eq_of_key_eq hs.names he (Array.mem_of_getElem? hi) (hname.trans hname'.symm)
    have hplaced : e.slots? ≠ none :=
      hslots.elim (fun hkind => ((hs.entries e he).output hkind).2) fun h => h
    obtain ⟨q, hq⟩ := Option.ne_none_iff_exists'.1 hplaced
    rw [← hname]
    exact held_written hs hv hi hx hq
  others name x s' other h hother := by
    obtain ⟨i, e, hi, rfl, -, rfl⟩ := (set_eq_ok_iff hs).1 h
    exact others_written hv hi hother
  back name x h := by
    obtain ⟨i, hi, rfl⟩ := get_eq_ok.1 h
    exact set_eq_ok.2 ⟨i, hi, setById_eq_ok.2 ⟨hs.size_valueOf i, (written_valueOf hm i).symm⟩⟩
  inUnits _ _ _ _ := setInUnits_eq_ok_iff hs
  acceptsVector ids flat := by
    simp only [ofVector_eq_ok, exists_and_left, Editing.exists_scatterVector, and_true]
  readVector ids flat s' hids h := by
    obtain ⟨hsize, h⟩ := ofVector_eq_ok.1 h
    rw [toVector_scatterVector hs hv hids h, Nat.zero_add, ← hsize, slice_upTo_size]
  backVector ids := by
    refine ofVector_eq_ok.2 ⟨size_toVector hs ids, scatterVector_toVector hs hm ?_⟩
    rw [Nat.zero_add, ← size_toVector hs ids, slice_upTo_size]
  done call s' h := by rw [perform_eq, h]; rfl
  refused call e h := by rw [perform_eq, h]; rfl

theorem mirrored_empty : (empty : Store α).Mirrored := by
  intro i r q hr
  cases hr

/-- **Reading and writing obey their laws after any calls**, in whatever order, where no variable has
been registered with a default value that is too short. -/
theorem lawful_run {calls : List (Call α)} (hfits : (run calls).Fits) : (run calls).Lawful := by
  obtain ⟨hs, hinvariant⟩ := run_invariant (I := fun s : Store α => s.Fits → s.Valid ∧ s.Mirrored)
    (fun _ => ⟨valid_empty, mirrored_empty⟩)
    (fun s s' hs h hI hfits => by
      have hbefore := hfits.of_grows h.grows
      obtain ⟨hv, hm⟩ := hI hbefore
      exact ⟨(hv.step_iff hbefore h).2 hfits, hm.step hs hv h⟩) calls
  obtain ⟨hv, hm⟩ := hinvariant hfits
  exact hm.lawful hs hv

/-! ### An input that gets slots between writes -/

namespace Interleaved

/-- An input of two entries and an output; the input gets slots, and a write to it is followed by one to
no variable and by a flat vector. -/
def calls : List (Call ℚ) :=
  [.addInput "x" ((Variable.named "x").withShape [2]), .set "x" #[3, 4],
    .addOutput "y" (Variable.named "y"), .makeIndependent 0, .set "z" #[1], .ofVector [1, 0] #[5, 6, 7]]

/-- What is then written to the input is in its slots, too, and the output keeps its value. -/
theorem lawful_calls : (run calls).Fits ∧ (run calls).get "y" = .ok #[5] ∧
    ∃ s', (run calls).set "x" #[8, 9] = .ok s' ∧ s'.get "x" = .ok #[8, 9] ∧
      s'.held "x" = some #[8, 9] ∧ s'.get "y" = .ok #[5] := by
  have hfits : (run calls).Fits := by
    unfold Fits
    decide +kernel
  have hlaws := lawful_run hfits
  have hy : (run calls).get "y" = .ok #[5] := by decide +kernel
  have hx : ∃ e ∈ (run calls).entries, e.name = "x" ∧ 2 = e.declared.size ∧ e.slots? ≠ none := by
    decide +kernel
  obtain ⟨e, he, hname, hsize, hslots⟩ := hx
  obtain ⟨s', hset⟩ := (hlaws.accepts "x" #[8, 9]).2 ⟨e, he, hname, hsize⟩
  exact ⟨hfits, hy, s', hset, hlaws.read _ _ _ hset, hlaws.slots _ _ _ hset e he hname (.inr hslots),
    (hlaws.others _ _ _ "y" hset (by decide)).1.trans hy⟩

end Interleaved

end Store

end Mdao
