import Mathlib
import Mdao.Model.Assembly

/-!
# Steps that may fail

A step ends with a result or an error, and leaves a state behind in both cases. `Preserves R step`
says that this state is related to the one before; for a relation that is reflexive and transitive
it is enough to know the parts of a sequence (`Preserves.bind`, `Preserves.forEach`). Steps over a
list succeed if each of them does and keeps an invariant (`Assembly.forEach_ok`).
-/

namespace Mdao

/-- A sequence of two steps has a result when both have one. -/
theorem bind_eq_ok {ε β γ : Type} {x : Except ε β} {f : β → Except ε γ} {c : γ} :
    x >>= f = .ok c ↔ ∃ b, x = .ok b ∧ f b = .ok c := by
  cases x with
  | error e =>
    constructor
    · intro h
      cases h
    · rintro ⟨b, h, -⟩
      cases h
  | ok b =>
    constructor
    · exact fun h => ⟨b, rfl, h⟩
    · rintro ⟨b, h, hf⟩
      cases h
      exact hf

/-- What a step that succeeds gives. -/
theorem eq_ok_getD {ε β : Type} {e : Except ε β} (other : β) (h : e.isOk = true) :
    e = .ok (e.toOption.getD other) := by
  cases e with
  | ok b => rfl
  | error e => cases h

/-- A sequence goes on from the result and the state of its first step. -/
theorem bind_of_ok {ε σ β γ : Type} {step : EStateM ε σ β} (next : β → EStateM ε σ γ) {s s' : σ}
    {b : β} (h : step s = .ok b s') : (step >>= next) s = next b s' := by
  show EStateM.bind step next s = _
  unfold EStateM.bind
  rw [h]

/-- A sequence fails where its first step fails. -/
theorem bind_of_error {ε σ β γ : Type} {step : EStateM ε σ β} (next : β → EStateM ε σ γ) {s s' : σ}
    {e : ε} (h : step s = .error e s') : (step >>= next) s = .error e s' := by
  show EStateM.bind step next s = _
  unfold EStateM.bind
  rw [h]

/-- A sequence has a result where its first step has one and what follows has. -/
theorem exists_of_bind_eq_ok {ε σ β γ : Type} {step : EStateM ε σ β} {next : β → EStateM ε σ γ}
    {s t : σ} {c : γ} (h : (step >>= next) s = .ok c t) :
    ∃ b s', step s = .ok b s' ∧ next b s' = .ok c t := by
  change EStateM.bind step next s = .ok c t at h
  unfold EStateM.bind at h
  cases hstep : step s with
  | ok b s' =>
    rw [hstep] at h
    exact ⟨b, s', rfl, h⟩
  | error e s' =>
    rw [hstep] at h
    cases h

/-- The state that an outcome leaves behind. -/
def stateAfter {ε σ β : Type} : EStateM.Result ε σ β → σ
  | .ok _ s => s
  | .error _ s => s

/-- Whether an outcome is a result. -/
def isResult {ε σ β : Type} : EStateM.Result ε σ β → Bool
  | .ok _ _ => true
  | .error _ _ => false

/-- The result of an outcome, if it is one. -/
def resultOf {ε σ β : Type} : EStateM.Result ε σ β → Option β
  | .ok b _ => some b
  | .error _ _ => none

/-- An outcome without what a failure leaves behind. -/
def outcome {ε σ β : Type} : EStateM.Result ε σ β → Except ε (β × σ)
  | .ok b s => .ok (b, s)
  | .error e _ => .error e

theorem eq_ok_of_resultOf {ε σ β : Type} {r : EStateM.Result ε σ β} {b : β}
    (h : resultOf r = some b) : r = .ok b (stateAfter r) := by
  cases r with
  | ok b' s =>
    obtain rfl := Option.some.inj h
    rfl
  | error e s => cases h

theorem eq_ok_of_isResult {ε σ β : Type} {r : EStateM.Result ε σ β} (h : isResult r = true) :
    ∃ b, r = .ok b (stateAfter r) := by
  cases r with
  | ok b s => exact ⟨b, rfl⟩
  | error e s => cases h

@[simp] theorem stateAfter_ok {ε σ β : Type} (b : β) (s : σ) :
    stateAfter (.ok b s : EStateM.Result ε σ β) = s := rfl

@[simp] theorem stateAfter_error {ε σ β : Type} (e : ε) (s : σ) :
    stateAfter (.error e s : EStateM.Result ε σ β) = s := rfl

/-- The state after a step, also one that fails, is related to the state before. -/
def Preserves {ε σ β : Type} (R : σ → σ → Prop) (step : EStateM ε σ β) : Prop :=
  ∀ s, R s (stateAfter (step s))

namespace Preserves

variable {ε σ β γ : Type} {R : σ → σ → Prop}

theorem pure (hrefl : ∀ s, R s s) (b : β) : Preserves R (pure b : EStateM ε σ β) :=
  fun s => hrefl s

theorem throw (hrefl : ∀ s, R s s) (e : ε) : Preserves R (throw e : EStateM ε σ β) :=
  fun s => hrefl s

/-- From one state, a sequence preserves what its first step and what follows a result preserve. -/
theorem bind_at (htrans : ∀ s t u, R s t → R t u → R s u) {step : EStateM ε σ β}
    {next : β → EStateM ε σ γ} {s : σ} (h : R s (stateAfter (step s)))
    (hnext : ∀ b s', step s = .ok b s' → R s' (stateAfter (next b s'))) :
    R s (stateAfter ((step >>= next) s)) := by
  show R s (stateAfter (EStateM.bind step next s))
  unfold EStateM.bind
  cases hstep : step s with
  | ok b s' =>
    rw [hstep] at h
    exact htrans _ _ _ h (hnext b s' hstep)
  | error e s' =>
    rw [hstep] at h
    exact h

/-- A sequence preserves what its parts preserve. -/
theorem bind (htrans : ∀ s t u, R s t → R t u → R s u) {step : EStateM ε σ β}
    {next : β → EStateM ε σ γ} (h : Preserves R step) (hnext : ∀ b, Preserves R (next b)) :
    Preserves R (step >>= next) := fun s =>
  bind_at htrans (h s) fun b s' _ => hnext b s'

/-- Steps over a list preserve what each of them preserves. -/
theorem forEach (hrefl : ∀ s, R s s) (htrans : ∀ s t u, R s t → R t u → R s u)
    {step : β → EStateM ε σ Unit} {bs : List β} (h : ∀ b ∈ bs, Preserves R (step b)) :
    Preserves R (Assembly.forEach step bs) := by
  induction bs with
  | nil => exact pure hrefl ()
  | cons b bs ih =>
    exact bind htrans (h b List.mem_cons_self) fun _ =>
      ih fun d hd => h d (List.mem_cons_of_mem b hd)

end Preserves

/-! ### Steps over a list that all succeed -/

namespace Assembly

variable {ε σ β : Type} {items : List β} {s : σ}

/-- **Steps that succeed where an invariant of what is left to do holds**, and keep it. -/
theorem forEach_ok (step : β → EStateM ε σ Unit) (I : List β → σ → Prop)
    (h : ∀ b rest s, I (b :: rest) s → ∃ t, step b s = .ok () t ∧ I rest t) (hs : I items s) :
    ∃ t, forEach step items s = .ok () t ∧ I [] t := by
  induction items generalizing s with
  | nil => exact ⟨s, rfl, hs⟩
  | cons b rest ih =>
    obtain ⟨t, ht, hrest⟩ := h b rest s hs
    obtain ⟨t', ht', hnil⟩ := ih hrest
    exact ⟨t', (bind_of_ok _ ht).trans ht', hnil⟩

/-- An invariant that does not depend on what is left to do. -/
theorem forEach_ok_of_mem (step : β → EStateM ε σ Unit) (I : σ → Prop)
    (h : ∀ b ∈ items, ∀ s, I s → ∃ t, step b s = .ok () t ∧ I t) (hs : I s) :
    ∃ t, forEach step items s = .ok () t ∧ I t := by
  obtain ⟨t, ht, hI, -⟩ := forEach_ok step (fun rest s => I s ∧ ∀ b ∈ rest, b ∈ items)
    (fun b rest s ⟨hI, hrest⟩ => by
      obtain ⟨t, ht, hI'⟩ := h b (hrest b List.mem_cons_self) s hI
      exact ⟨t, ht, hI', fun d hd => hrest d (List.mem_cons_of_mem _ hd)⟩)
    ⟨hs, fun _ => id⟩
  exact ⟨t, ht, hI⟩

end Assembly

end Mdao
