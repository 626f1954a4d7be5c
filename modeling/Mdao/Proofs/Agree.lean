import Mathlib
import Mdao.Proofs.Step

/-!
# Outcomes that agree

Two steps from two states agree when they give the same result or the same error; `Agree Q R` says
besides how the states are related that they leave behind, by `Q` after a result and by `R` after an
error. A sequence agrees when its parts do (`Agree.bind`, `Agree.forEach`).
-/

namespace Mdao

/-- Two outcomes with the same result, or with the same error. -/
inductive Agree {ε σ τ β : Type} (Q R : σ → τ → Prop) :
    EStateM.Result ε σ β → EStateM.Result ε τ β → Prop where
  | ok (b : β) {s : σ} {t : τ} (h : Q s t) : Agree Q R (.ok b s) (.ok b t)
  | error (e : ε) {s : σ} {t : τ} (h : R s t) : Agree Q R (.error e s) (.error e t)

namespace Agree

variable {ε σ τ β γ : Type} {Q Q' R R' : σ → τ → Prop}

theorem mono {r : EStateM.Result ε σ β} {r' : EStateM.Result ε τ β} (h : Agree Q R r r')
    (hQ : ∀ s t, Q s t → Q' s t) (hR : ∀ s t, R s t → R' s t) : Agree Q' R' r r' := by
  cases h with
  | ok b h => exact .ok b (hQ _ _ h)
  | error e h => exact .error e (hR _ _ h)

/-- Outcomes that agree are both results or both errors. -/
theorem isResult_eq {r : EStateM.Result ε σ β} {r' : EStateM.Result ε τ β} (h : Agree Q R r r') :
    isResult r' = isResult r := by
  cases h with
  | ok _ _ => rfl
  | error _ _ => rfl

/-- What is known of the states left behind is added to how they are related. -/
theorem and {P : σ → Prop} {P' : τ → Prop} {r : EStateM.Result ε σ β} {r' : EStateM.Result ε τ β}
    (h : Agree Q R r r') (hP : P (Mdao.stateAfter r)) (hP' : P' (Mdao.stateAfter r')) :
    Agree (fun s t => Q s t ∧ P s ∧ P' t) (fun s t => R s t ∧ P s ∧ P' t) r r' := by
  cases h with
  | ok b h => exact .ok b ⟨h, hP, hP'⟩
  | error e h => exact .error e ⟨h, hP, hP'⟩

/-- What is known of results is added to how their states are related. -/
theorem of_ok {r : EStateM.Result ε σ β} {r' : EStateM.Result ε τ β} (h : Agree Q R r r')
    (hQ : ∀ b s t, r = .ok b s → r' = .ok b t → Q s t → Q' s t) : Agree Q' R r r' := by
  cases h with
  | ok b h => exact .ok b (hQ b _ _ rfl rfl h)
  | error e h => exact .error e h

theorem eq_of_ok {b b' : β} {s t : σ} {R : σ → σ → Prop}
    (h : Agree Eq R (.ok b s : EStateM.Result ε σ β) (.ok b' t)) : s = t := by
  cases h with
  | ok _ h => exact h

/-- The same outcome but for what a failure leaves behind. -/
theorem of_outcome_eq {r r' : EStateM.Result ε σ β} (h : outcome r = outcome r') :
    Agree Eq (fun _ _ => True) r r' := by
  cases r with
  | ok b s =>
    cases r' with
    | ok b' s' =>
      obtain ⟨rfl, rfl⟩ := Prod.mk.inj (Except.ok.inj h)
      exact .ok b rfl
    | error e s' => cases h
  | error e s =>
    cases r' with
    | ok b' s' => cases h
    | error e' s' =>
      obtain rfl := Except.error.inj h
      exact .error e trivial

/-- Sequences agree where their parts do. -/
theorem bind {step : EStateM ε σ β} {step' : EStateM ε τ β} {next : β → EStateM ε σ γ}
    {next' : β → EStateM ε τ γ} {s : σ} {t : τ} (h : Agree Q R (step s) (step' t))
    (hnext : ∀ b s' t', Q s' t' → Agree Q' R (next b s') (next' b t')) :
    Agree Q' R ((step >>= next) s) ((step' >>= next') t) := by
  show Agree Q' R (EStateM.bind step next s) (EStateM.bind step' next' t)
  unfold EStateM.bind
  revert h
  generalize step s = r
  generalize step' t = r'
  intro h
  cases h with
  | ok b h => exact hnext b _ _ h
  | error e h => exact .error e h

/-- Steps over a list agree where each of them does. -/
theorem forEach {step : β → EStateM ε σ Unit} {step' : β → EStateM ε τ Unit} {bs : List β}
    (h : ∀ b ∈ bs, ∀ s t, R s t → Agree R R (step b s) (step' b t)) {s : σ} {t : τ}
    (hst : R s t) : Agree R R (Assembly.forEach step bs s) (Assembly.forEach step' bs t) := by
  induction bs generalizing s t with
  | nil => exact .ok () hst
  | cons b bs ih =>
    exact bind (h b List.mem_cons_self s t hst) fun _ s' t' h' =>
      ih (fun d hd => h d (List.mem_cons_of_mem b hd)) h'

end Agree

end Mdao
