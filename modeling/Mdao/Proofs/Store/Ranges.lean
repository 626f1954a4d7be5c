import Mdao.Proofs.Store.Calls

/-!
# Where variables lie

A variable is registered with a run of places as long as it is declared to be, and the buffer grows by
its default value. After any calls (`Store.run`) names differ, every output has slots, every input has a
place, each of these runs is as long as declared, and there is one residual for each slot
(`Store.Orderly`).

Whether the runs lie inside the buffers and do not meet (`Store.Valid`) is another matter, since a
default value may have another length than its variable. **The runs are valid after each of the calls
exactly if no variable has been registered with a default value that is too short**
(`Store.valid_run_iff`): the run of such a variable ends behind the buffer, and the next variable is put
inside it.
-/

namespace Mdao

namespace Store

variable {α : Type}

/-! ### Each variable by itself -/

/-- A variable has the places of its kind, and they are as many as declared. -/
structure Entry.Orderly (e : Entry α) : Prop where
  slots : ∀ r, e.slots? = some r → r.start ≤ r.stop ∧ r.size = e.declared.size
  inputs : ∀ r, e.inputs? = some r → r.start ≤ r.stop ∧ r.size = e.declared.size
  input : e.kind = .input → e.inputs? ≠ none
  output : e.kind = .output → e.inputs? = none ∧ e.slots? ≠ none

/-- **Names differ, variables have the places of their kinds, and slots have residuals.** -/
structure Orderly (s : Store α) : Prop where
  names : s.names.Nodup
  entries : ∀ e ∈ s.entries, e.Orderly
  residuals : s.residuals.size = s.slots.size

/-! ### Runs in a buffer -/

/-- Runs lie inside a buffer of some size, and no place is in two of them. -/
structure Apart (run? : Nat → Option Span) (size : Nat) : Prop where
  inside : ∀ i r, run? i = some r → r.stop ≤ size
  disjoint : ∀ i j r q, run? i = some r → run? j = some q → i ≠ j → ∀ k ∈ r, k ∉ q

/-- **The runs of all variables lie inside the buffers and do not meet.** -/
structure Valid (s : Store α) : Prop where
  slots : Apart s.slots? s.slots.size
  inputs : Apart s.inputs? s.inputs.size

/-- No variable has a default value that is too short. -/
def Fits (s : Store α) : Prop := ∀ e ∈ s.entries, e.declared.size ≤ e.declared.value.size

namespace Apart

variable {run? : Nat → Option Span} {size size' : Nat}

/-- **A run behind the others does not meet them.** -/
theorem update (h : Apart run? size) (new : Nat) {r : Span} (hstart : size ≤ r.start)
    (hstop : r.stop ≤ size') (hsize : size ≤ size') :
    Apart (Function.update run? new (some r)) size' := by
  have hbehind : ∀ j q, run? j = some q → ∀ k ∈ r, k ∉ q := fun j q hq k hk hkq =>
    absurd (hkq.2.trans_le ((h.inside j q hq).trans hstart)) (not_lt.2 hk.1)
  refine ⟨fun i q hq => ?_, fun i j p q hp hq hij k hk hkq => ?_⟩
  · rw [Function.update_apply] at hq
    split_ifs at hq
    · cases hq
      exact hstop
    · exact (h.inside i q hq).trans hsize
  · rw [Function.update_apply] at hp hq
    split_ifs at hp hq with hi hj hj
    · exact hij (hi.trans hj.symm)
    · cases hp
      exact hbehind j q hq k hk hkq
    · cases hq
      exact hbehind i p hp k hkq hk
    · exact h.disjoint i j p q hp hq hij k hk hkq

end Apart

/-! ### The runs of variables -/

section Runs

variable {s : Store α} {e : Entry α} {i : Nat}

/-- The places of variables when one more is registered. -/
theorem place_push (place : Entry α → Option Span) (entries : Array (Entry α)) (e : Entry α) :
    (fun i : Nat => (entries.push e)[i]?.bind place) =
      Function.update (fun i => entries[i]?.bind place) entries.size (place e) := by
  funext i
  rw [Function.update_apply, Array.getElem?_push]
  split_ifs <;> rfl

theorem place_push_of_ne {place : Entry α → Option Span} {entries : Array (Entry α)} {e : Entry α}
    (hi : i ≠ entries.size) : (entries.push e)[i]?.bind place = entries[i]?.bind place :=
  (congrFun (place_push place entries e) i).trans (Function.update_of_ne hi _ _)

/-- What has a place is not the next variable. -/
theorem ne_of_place {place : Entry α → Option Span} {entries : Array (Entry α)} {r : Span}
    (hi : entries[i]?.bind place = some r) : i ≠ entries.size := by
  rintro rfl
  rw [Array.getElem?_eq_none le_rfl] at hi
  cases hi

/-- A variable without a place changes nothing. -/
theorem place_push_none {place : Entry α → Option Span} (entries : Array (Entry α)) {e : Entry α}
    (he : place e = none) :
    (fun i : Nat => (entries.push e)[i]?.bind place) = fun i => entries[i]?.bind place := by
  rw [place_push, he]
  refine Function.update_eq_self_iff.2 ?_
  rw [Array.getElem?_eq_none le_rfl, Option.bind_none]

/-- **A run behind the others is apart from them exactly if the buffer grows as far.** -/
theorem Apart.push_iff {place : Entry α → Option Span} {entries : Array (Entry α)} {e : Entry α}
    {buffer x : Array α} {n : Nat} (h : Apart (fun i => entries[i]?.bind place) buffer.size)
    (he : place e = some ⟨buffer.size, buffer.size + n⟩) :
    Apart (fun i => (entries.push e)[i]?.bind place) (buffer ++ x).size ↔ n ≤ x.size := by
  have hsize : (buffer ++ x).size = buffer.size + x.size := Array.size_append
  constructor
  · intro h'
    have hlast : (entries.push e)[entries.size]?.bind place = some ⟨buffer.size, buffer.size + n⟩ := by
      rw [Array.getElem?_push_size, Option.bind_some, he]
    have hstop : buffer.size + n ≤ (buffer ++ x).size := h'.inside _ _ hlast
    omega
  · intro hn
    rw [place_push, he]
    exact h.update _ le_rfl (hsize ▸ Nat.add_le_add_left hn _) (hsize ▸ Nat.le_add_right _ _)

variable [Scalar α]

theorem slots?_withSlots {source : Span} (hi : s.entries[i]? = some e) :
    (s.withSlots i source).slots? =
      Function.update s.slots? i (some ⟨s.slots.size, s.slots.size + source.size⟩) := by
  funext j
  rw [slots?, getElem?_withSlots, Function.update_apply]
  split_ifs with hij hji hji
  · rw [← hij, hi]
    rfl
  · exact absurd hij.symm hji
  · exact absurd hji.symm hij
  · rfl

theorem inputs?_withSlots (s : Store α) (i : Nat) (source : Span) :
    (s.withSlots i source).inputs? = s.inputs? := by
  funext j
  rw [inputs?, inputs?, getElem?_withSlots]
  split_ifs
  · cases s.entries[j]? <;> rfl
  · rfl

end Runs

/-! ### One call -/

section Entries

theorem size_from (start n : Nat) : (⟨start, start + n⟩ : Span).size = n := Nat.add_sub_cancel_left _ _

theorem orderly_outputEntry (s : Store α) (name : String) (v : Variable α) :
    (s.outputEntry name v).Orderly where
  slots r hr := by
    cases hr
    exact ⟨Nat.le_add_right _ _, size_from _ _⟩
  inputs r hr := by cases hr
  input hkind := by cases hkind
  output _ := ⟨rfl, by simp [outputEntry]⟩

theorem orderly_inputEntry (s : Store α) (name : String) (v : Variable α) :
    (s.inputEntry name v).Orderly where
  slots r hr := by cases hr
  inputs r hr := by
    cases hr
    exact ⟨Nat.le_add_right _ _, size_from _ _⟩
  input _ := by simp [inputEntry]
  output hkind := by cases hkind

/-- A variable that is given slots is an input. -/
theorem Entry.Orderly.placedAt {e : Entry α} (he : e.Orderly) {source : Span} (start : Nat)
    (hfree : e.slots? = none) (hplace : e.inputs? = some source) :
    (e.placedAt ⟨start, start + source.size⟩).Orderly where
  slots r hr := by
    cases hr
    exact ⟨Nat.le_add_right _ _, (size_from _ _).trans (he.inputs source hplace).2⟩
  inputs := he.inputs
  input := he.input
  output hkind := absurd hfree (he.output hkind).2

end Entries

section Values

variable {s s' : Store α}

/-- Values are no matter of order. -/
theorem Orderly.sameShape (hs : s.Orderly) (h : s.SameShape s') : s'.Orderly where
  names := by
    rw [Store.names, h.entries]
    exact hs.names
  entries := by
    rw [h.entries]
    exact hs.entries
  residuals := h.residuals.trans (hs.residuals.trans h.slots.symm)

theorem SameShape.grows (h : s.SameShape s') : s.Grows s' :=
  ⟨fun i e he => ⟨e, by rw [h.entries]; exact he, .refl e⟩, h.slots.ge⟩

/-- Nor do they move anything. -/
theorem Valid.sameShape (hs : s.Valid) (h : s.SameShape s') : s'.Valid := by
  have hslots : s'.slots? = s.slots? := by
    funext i
    rw [slots?, slots?, h.entries]
  have hinputs : s'.inputs? = s.inputs? := by
    funext i
    rw [inputs?, inputs?, h.entries]
  exact ⟨by rw [hslots, h.slots]; exact hs.slots, by rw [hinputs, h.inputs]; exact hs.inputs⟩

variable [Scalar α]

theorem sameShape_writes (h : Relation.ReflTransGen Writes s s') : s.SameShape s' := by
  induction h with
  | refl => exact .refl s
  | tail _ h ih =>
    obtain ⟨i, value, hset⟩ := h
    exact ih.trans (sameShape_setById hset).1

theorem sameShape_syncIndependents (s : Store α) : s.SameShape s.syncIndependents := by
  refine ⟨rfl, rfl, rfl, ?_⟩
  unfold syncIndependents
  refine Array.foldl_induction (fun _ (inputs : Array α) => inputs.size = s.inputs.size) rfl ?_
  intro i inputs hinputs
  split
  · rw [Vec.size_splice]
    exact hinputs
  · exact hinputs

end Values

section Steps

variable [Scalar α] {s s' : Store α}

omit [Scalar α] in
theorem orderly_empty : (empty : Store α).Orderly :=
  ⟨by simp [empty, Store.names], fun e he => by simp [empty] at he, rfl⟩

omit [Scalar α] in
theorem valid_empty : (empty : Store α).Valid := by
  constructor <;> refine ⟨fun i r hr => ?_, fun i j r q hr => ?_⟩ <;> cases hr

omit [Scalar α] in
/-- A variable of a new name is registered. -/
theorem Orderly.push {e : Entry α} (hs : s.Orderly) (hfresh : e.name ∉ s.names)
    (he : e.Orderly) (hentries : s'.entries = s.entries.push e)
    (hresiduals : s'.residuals.size = s'.slots.size) : s'.Orderly where
  names := by
    rw [Store.names, hentries, Array.toList_push, List.map_append]
    exact nodup_names_push hs.names hfresh
  entries e' he' := by
    rw [hentries] at he'
    rcases Array.mem_push.1 he' with he' | rfl
    · exact hs.entries e' he'
    · exact he
  residuals := hresiduals

/-- New slots have residuals. -/
theorem size_residuals_extended {x : Array α} (h : s.residuals.size = s.slots.size) :
    (padTo s.residuals (s.slots ++ x).size).size = (s.slots ++ x).size := by
  simp only [padTo, Array.size_append, Vec.size_zeros, h]
  omega

/-- **A call keeps the order.** -/
theorem Orderly.step (hs : s.Orderly) (h : s.Step s') : s'.Orderly := by
  cases h with
  | output name v fresh =>
    exact hs.push (e := s.outputEntry name v) fresh (orderly_outputEntry s name v) rfl
      (size_residuals_extended hs.residuals)
  | input name v fresh =>
    exact hs.push (e := s.inputEntry name v) fresh (orderly_inputEntry s name v) rfl hs.residuals
  | slots i e source entry free place =>
    refine ⟨by rw [names_withSlots]; exact hs.names, fun e' he' => ?_,
      size_residuals_extended hs.residuals⟩
    obtain ⟨j, hj⟩ := Array.getElem?_of_mem he'
    rw [getElem?_withSlots] at hj
    split_ifs at hj with hij
    · rw [← hij, entry] at hj
      cases hj
      exact (hs.entries e (Array.mem_of_getElem? entry)).placedAt _ free place
    · exact hs.entries e' (Array.mem_of_getElem? hj)
  | values _ writes => exact hs.sameShape (sameShape_writes writes)
  | sync => exact hs.sameShape (sameShape_syncIndependents s)

omit [Scalar α] in
/-- Entries are for variables that have been there, or for the one that is new. -/
theorem fits_push {e : Entry α} (hentries : s'.entries = s.entries.push e) :
    s'.Fits ↔ s.Fits ∧ e.declared.size ≤ e.declared.value.size := by
  simp only [Fits, hentries, Array.mem_push]
  exact ⟨fun h => ⟨fun e' he' => h e' (.inl he'), h e (.inr rfl)⟩,
    fun ⟨h, he⟩ e' he' => he'.elim (h e') fun heq => heq ▸ he⟩

omit [Scalar α] in
theorem Fits.sameShape (hs : s.Fits) (h : s.SameShape s') : s'.Fits := by
  rw [Fits, h.entries]
  exact hs

theorem Fits.withSlots (hs : s.Fits) (i : Nat) (source : Span) : (s.withSlots i source).Fits := by
  intro e he
  obtain ⟨j, hj⟩ := Array.getElem?_of_mem he
  rw [getElem?_withSlots] at hj
  split_ifs at hj
  · obtain ⟨e', he', rfl⟩ := Option.map_eq_some_iff.1 hj
    exact hs e' (Array.mem_of_getElem? he')
  · exact hs e (Array.mem_of_getElem? hj)

/-- Variables stay, and so do the slots that they have. -/
theorem Step.grows (h : s.Step s') : s.Grows s' := by
  cases h with
  | output name v fresh =>
    exact grows_push rfl (Array.size_append.trans_ge (Nat.le_add_right _ _))
  | input name v fresh => exact grows_push rfl le_rfl
  | slots i e source entry free place => exact grows_withSlots entry free
  | values _ writes => exact (sameShape_writes writes).grows
  | sync => exact (sameShape_syncIndependents s).grows

omit [Scalar α] in
theorem Fits.of_grows (hs : s'.Fits) (h : s.Grows s') : s.Fits := by
  intro e he
  obtain ⟨i, hi⟩ := Array.getElem?_of_mem he
  obtain ⟨e', he', hb⟩ := h.entries i e hi
  rw [← hb.declared]
  exact hs e' (Array.mem_of_getElem? he')

/-- **A call keeps runs valid exactly if it registers no default value that is too short**: the run of
such a variable ends behind the buffer. -/
theorem Valid.step_iff (hs : s.Valid) (hf : s.Fits) (h : s.Step s') : s'.Valid ↔ s'.Fits := by
  cases h with
  | output name v fresh =>
    have hslots : Apart (s.withOutput name v).slots? (s.withOutput name v).slots.size ↔
        v.size ≤ v.value.size := hs.slots.push_iff rfl
    have hinputs : (s.withOutput name v).inputs? = s.inputs? := place_push_none s.entries rfl
    have hfits : (s.withOutput name v).Fits ↔ s.Fits ∧ v.size ≤ v.value.size :=
      fits_push (e := s.outputEntry name v) rfl
    rw [hfits]
    exact ⟨fun h => ⟨hf, hslots.1 h.slots⟩, fun h => ⟨hslots.2 h.2, hinputs ▸ hs.inputs⟩⟩
  | input name v fresh =>
    have hinputs : Apart (s.withInput name v).inputs? (s.withInput name v).inputs.size ↔
        v.size ≤ v.value.size := hs.inputs.push_iff rfl
    have hslots : (s.withInput name v).slots? = s.slots? := place_push_none s.entries rfl
    have hfits : (s.withInput name v).Fits ↔ s.Fits ∧ v.size ≤ v.value.size :=
      fits_push (e := s.inputEntry name v) rfl
    rw [hfits]
    exact ⟨fun h => ⟨hf, hinputs.1 h.inputs⟩, fun h => ⟨hslots ▸ hs.slots, hinputs.2 h.2⟩⟩
  | slots i e source entry free place =>
    have hsize := size_slots_withSlots s i source
    refine iff_of_true ⟨?_, ?_⟩ (hf.withSlots i source)
    · rw [slots?_withSlots entry, hsize]
      exact hs.slots.update _ le_rfl le_rfl (Nat.le_add_right _ _)
    · rw [inputs?_withSlots]
      exact hs.inputs
  | values _ writes =>
    have hshape := sameShape_writes writes
    exact iff_of_true (hs.sameShape hshape) (hf.sameShape hshape)
  | sync =>
    have hshape := sameShape_syncIndependents s
    exact iff_of_true (hs.sameShape hshape) (hf.sameShape hshape)

end Steps

/-! ### All calls -/

section Runs

variable [Scalar α] {s s' : Store α}

/-- Slots for a variable that has some already, or that is not there, change nothing. -/
theorem makeIndependent_step (hs : s.Orderly) (i : Nat) : s.Step (s.makeIndependent i).1 := by
  cases hi : s.entries[i]? with
  | none =>
    have hslots : s.slots? i = none := by rw [slots?, hi, Option.bind_none]
    have hplace : s.inputs? i = none := by rw [inputs?, hi, Option.bind_none]
    have hpad : padTo s.residuals s.slots.size = s.residuals := by
      simp [padTo, Vec.zeros, hs.residuals]
    have hentries : ∀ f : Entry α → Entry α, s.entries.modify i f = s.entries := by
      refine fun f => Array.ext_getElem? fun j => ?_
      rw [Array.getElem?_modify]
      split_ifs with hij
      · rw [← hij, hi, Option.map_none]
      · rfl
    have hempty : s.slots ++ Vec.slice s.inputs ⟨0, 0⟩ = s.slots := Array.append_empty
    have hsame : (s.makeIndependent i).1 = s := by
      simp only [makeIndependent, hslots, hplace, Option.getD_none, hempty, hpad, hentries]
    rw [hsame]
    exact .values s .refl
  | some e =>
    have he := hs.entries e (Array.mem_of_getElem? hi)
    cases hslots : e.slots? with
    | some r =>
      have hsame : (s.makeIndependent i).1 = s := by
        have hr : s.slots? i = some r := by rw [slots?, hi, Option.bind_some, hslots]
        simp only [makeIndependent, hr]
      rw [hsame]
      exact .values s .refl
    | none =>
      have hkind : e.kind = .input := by
        cases hkind : e.kind with
        | input => rfl
        | output => exact absurd hslots (he.output hkind).2
      obtain ⟨source, hsource⟩ := Option.ne_none_iff_exists'.1 (he.input hkind)
      rw [makeIndependent_eq hi hslots hsource]
      exact .slots i e source hi hslots hsource

/-- **A call that succeeds takes one of the steps.** -/
theorem attempt_step (hs : s.Orderly) {call : Call α} (h : s.attempt call = .ok s') : s.Step s' := by
  cases call with
  | addOutput name v =>
    obtain ⟨i, hadd⟩ := map_fst_eq_ok.1 h
    obtain ⟨hfresh, heq⟩ := addOutput_eq_ok hadd
    rw [show s' = s.withOutput name v from heq]
    exact .output name v hfresh
  | addInput name v =>
    obtain ⟨i, hadd⟩ := map_fst_eq_ok.1 h
    obtain ⟨hfresh, heq⟩ := addInput_eq_ok hadd
    rw [show s' = s.withInput name v from heq]
    exact .input name v hfresh
  | makeIndependent i =>
    cases h
    exact makeIndependent_step hs i
  | set name value =>
    obtain ⟨i, -, hset⟩ := set_eq_ok.1 h
    exact .values s' (.single ⟨i, value, hset⟩)
  | setInUnits name value units =>
    obtain ⟨i, -, h⟩ := bind_eq_ok.1 h
    obtain ⟨declared, -, h⟩ := bind_eq_ok.1 h
    obtain ⟨c, -, h⟩ := bind_eq_ok.1 h
    exact .values s' (.single ⟨i, _, h⟩)
  | ofVector ids flat => exact .values s' (writes_scatterVector (ofVector_eq_ok.1 h).2)
  | syncIndependents =>
    cases h
    exact .sync

/-- After a call the store is as it was, or has taken a step. -/
theorem stateAfter_perform (hs : s.Orderly) (call : Call α) :
    s.Step (stateAfter (perform call s)) := by
  rw [perform_eq]
  cases h : s.attempt call with
  | ok s' => exact attempt_step hs h
  | error e => exact .values s .refl

/-- **What a step keeps, calls keep.** -/
theorem run_invariant {I : Store α → Prop} (hempty : I empty)
    (hstep : ∀ s s' : Store α, s.Orderly → s.Step s' → I s → I s') (calls : List (Call α)) :
    (run calls).Orderly ∧ I (run calls) := by
  induction calls using List.reverseRecOn with
  | nil => exact ⟨orderly_empty, hempty⟩
  | append_singleton calls call ih =>
    obtain ⟨hs, hI⟩ := ih
    have h := stateAfter_perform hs call
    rw [run_append]
    exact ⟨hs.step h, hstep _ _ hs h hI⟩

theorem orderly_run (calls : List (Call α)) : (run calls).Orderly :=
  (run_invariant (I := fun _ => True) trivial (fun _ _ _ _ _ => trivial) calls).1

/-- Variables stay while calls go on. -/
theorem grows_run (calls more : List (Call α)) : (run calls).Grows (run (calls ++ more)) := by
  induction more using List.reverseRecOn with
  | nil =>
    rw [List.append_nil]
    exact .refl _
  | append_singleton more call ih =>
    rw [← List.append_assoc, run_append]
    exact ih.trans (stateAfter_perform (orderly_run _) call).grows

/-- Where no default value is too short, the runs are valid. -/
theorem valid_run (calls : List (Call α)) (hfits : (run calls).Fits) : (run calls).Valid :=
  (run_invariant (I := fun s => s.Fits → s.Valid) (fun _ => valid_empty)
    (fun _ _ _ h hI hfits =>
      have hbefore := hfits.of_grows h.grows
      ((hI hbefore).step_iff hbefore h).2 hfits) calls).2 hfits

/-- Where the runs are valid after each call, no default value is too short. -/
theorem fits_run (calls : List (Call α)) (hvalid : ∀ n, (run (calls.take n)).Valid) :
    (run calls).Fits := by
  induction calls using List.reverseRecOn with
  | nil => exact fun e he => by simp [run, empty] at he
  | append_singleton calls call ih =>
    have hbefore : (run calls).Fits := by
      refine ih fun n => ?_
      have hn := hvalid (min n calls.length)
      rwa [List.take_append_of_le_length (min_le_right _ _), ← List.take_take, List.take_length] at hn
    have hvalid : (run calls).Valid ∧ (run (calls ++ [call])).Valid := by
      have hn := hvalid calls.length
      have hm := hvalid (calls ++ [call]).length
      rw [List.take_left] at hn
      rw [List.take_length] at hm
      exact ⟨hn, hm⟩
    have hstep := stateAfter_perform (orderly_run calls) call
    rw [run_append] at hvalid ⊢
    exact (hvalid.1.step_iff hbefore hstep).1 hvalid.2

/-- **Where variables lie after any calls.** Names differ, each variable has the places of its kind and
as many as declared, and slots have residuals; and after each of the calls the runs lie inside the
buffers and do not meet, exactly if no variable is registered with a default value that is too short. -/
theorem valid_run_iff (calls : List (Call α)) :
    (run calls).Orderly ∧ ((∀ n, (run (calls.take n)).Valid) ↔ (run calls).Fits) := by
  refine ⟨orderly_run calls, fits_run calls, fun hfits n => valid_run _ ?_⟩
  have hgrows := grows_run (calls.take n) (calls.drop n)
  rw [List.take_append_drop] at hgrows
  exact hfits.of_grows hgrows

end Runs

/-! ### A default value that is too short -/

namespace Short

/-- Three entries are declared and two are given. -/
def first : Variable ℚ := ((Variable.named "first").withShape [3]).withValue #[1, 2]

/-- Two entries. -/
def second : Variable ℚ := (Variable.named "second").withShape [2]

/-- One after the other. -/
def calls : List (Call ℚ) := [.addOutput "first" first, .addOutput "second" second]

/-- The last place of the first variable is the first of the second, and a value that is written to
the first changes the second. -/
theorem not_valid_calls : ¬ (run calls).Valid ∧
    (run calls).slots? 0 = some ⟨0, 3⟩ ∧ (run calls).slots? 1 = some ⟨2, 4⟩ ∧
    (run calls).get "second" = .ok #[1, 1] ∧
    (run (calls ++ [.set "first" #[7, 8, 9]])).get "second" = .ok #[9, 1] := by
  have hfirst : (run calls).slots? 0 = some ⟨0, 3⟩ := by decide +kernel
  have hsecond : (run calls).slots? 1 = some ⟨2, 4⟩ := by decide +kernel
  refine ⟨fun h => ?_, hfirst, hsecond, by decide +kernel, by decide +kernel⟩
  exact h.slots.disjoint 0 1 _ _ hfirst hsecond (by decide) 2 (by decide) (by decide)

end Short

end Store

end Mdao
