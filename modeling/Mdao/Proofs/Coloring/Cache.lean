import Mathlib
import Mdao.Coloring.Cache
import Mdao.Proofs.Coloring.Recovery
import Mdao.Proofs.Step

/-!
# Colorings from a cache

A cache answers with a coloring that was made for the signature it is asked for. If all colorings it
gets hold of are sound, those in memory, those in its file and those that are computed, then so is
every coloring it gives and every one it remembers (`ColoringCache.getOrCompute_spec`).
-/

namespace Mdao

namespace Coloring

/-- **A coloring from which a matrix can be recovered**, signed, if at all, for the shape of its
pattern. -/
structure Sound (c : Coloring) : Prop where
  separates : c.Separates
  shape : ∀ s, c.signature = some s → s.shape = (c.pattern.nrows, c.pattern.ncols)

theorem Separates.withSignature {c : Coloring} (h : c.Separates) (s : Signature) :
    (c.withSignature s).Separates :=
  ⟨h.wellFormed, h.fwdColors_iff, h.revColors_iff, h.fwd_nodup, h.rev_nodup, h.fwd_lt, h.rev_lt,
    h.forward, h.reverse⟩

/-- Only settings that make sense lead to a coloring. -/
theorem validate_of_compute {β : Type} [Scalar β] {p : Pattern} {settings : ColoringSettings β}
    {c : Coloring} (h : compute p settings = .ok c) : settings.validate = .ok () := by
  unfold compute at h
  cases hv : settings.validate with
  | ok _ => rfl
  | error e =>
    rw [hv] at h
    cases h

/-- **Every coloring that is computed is sound**, once it is signed for the shape of its
pattern. -/
theorem sound_of_compute {β : Type} [Scalar β] {p : Pattern} (hp : p.WellFormed)
    {settings : ColoringSettings β} {c : Coloring} (h : compute p settings = .ok c) {s : Signature}
    (hs : s.shape = (p.nrows, p.ncols)) : (c.withSignature s).Sound ∧ c.pattern = p := by
  obtain ⟨revRows, recovery, hpart⟩ := compute_eq_partition p (validate_of_compute h)
  obtain rfl : partition p revRows recovery = c := Except.ok.inj (hpart.symm.trans h)
  refine ⟨⟨(separates_partition hp).withSignature s, fun s' hs' => ?_⟩, pattern_partition p _ _⟩
  obtain rfl : s = s' := Option.some.inj hs'
  exact hs

end Coloring

/-- All that can be read from a file are sound colorings, as it is when the file was written by a
cache. -/
def ColoringFile.Trusted (file : ColoringFile) : Prop :=
  ∀ text s c, file.contents = some text → Coloring.ofJson text s = .ok c → c.Sound

namespace ColoringCache

/-- The coloring in memory is sound. -/
def Sound (c : ColoringCache) : Prop := ∀ k, c.current = some k → k.Sound

theorem sound_of_remembered {c : ColoringCache} (hc : c.Sound) {s : Signature} {k : Coloring}
    (h : c.remembered s = some k) : k.Sound ∧ k.signature = some s := by
  obtain ⟨hcurrent, hvalid⟩ := Option.filter_eq_some_iff.1 h
  exact ⟨hc k hcurrent, by simpa [Coloring.isValidFor] using hvalid⟩

theorem sound_of_stored {c : ColoringCache} {file : ColoringFile} (hfile : file.Trusted)
    {s : Signature} {k : Coloring} (h : c.stored s file = some k) :
    k.Sound ∧ k.signature = some s := by
  unfold stored at h
  split_ifs at h
  cases htext : file.contents with
  | none => simp [htext] at h
  | some text =>
    cases hread : Coloring.ofJson text s with
    | error e => simp [htext, hread] at h
    | ok k' =>
      obtain rfl : k' = k := by simpa [htext, hread] using h
      refine ⟨hfile text s k' htext hread, ?_⟩
      unfold Coloring.ofJson at hread
      split at hread
      · cases hread
      · split_ifs at hread with hvalid
        cases hread
        simpa [Coloring.isValidFor] using hvalid

/-- What is neither in memory nor in the file is computed. -/
theorem computed_of_getOrCompute {c : ColoringCache} {file : ColoringFile} {s : Signature}
    {compute : Unit → Except ColoringError Coloring} (hremembered : c.remembered s = none)
    (hstored : c.stored s file = none) {answer : Answer} {state : ColoringCache × ColoringFile}
    (h : getOrCompute s compute (c, file) = .ok answer state) :
    ∃ k, compute () = .ok k ∧ answer.coloring = k.withSignature s := by
  simp only [getOrCompute, hremembered, hstored] at h
  cases hk : compute () with
  | error e =>
    rw [hk] at h
    cases h
  | ok k =>
    rw [hk] at h
    cases hkept : c.keep (k.withSignature s) file with
    | error e =>
      simp only [hkept] at h
      cases h
    | ok state =>
      simp only [hkept] at h
      cases h
      exact ⟨k, rfl, rfl⟩

/-- What is kept is remembered. -/
theorem current_of_keep {c : ColoringCache} {file : ColoringFile} {k : Coloring}
    {state : ColoringCache × ColoringFile} (h : c.keep k file = .ok state) :
    state.1.current = some k := by
  unfold keep at h
  split_ifs at h
  · cases h
    rfl
  · cases h
    rfl

/-- **A cache answers with a sound coloring for the signature**, and remembers sound colorings
only. -/
theorem getOrCompute_spec {c : ColoringCache} (hc : c.Sound) {file : ColoringFile}
    (hfile : file.Trusted) {s : Signature} {compute : Unit → Except ColoringError Coloring}
    (hcompute : ∀ k, compute () = .ok k → (k.withSignature s).Sound) :
    (stateAfter (getOrCompute s compute (c, file))).1.Sound ∧
      ∀ answer state, getOrCompute s compute (c, file) = .ok answer state →
        answer.coloring.Sound ∧ answer.coloring.signature = some s := by
  unfold getOrCompute
  dsimp only
  cases hremembered : c.remembered s with
  | some k =>
    refine ⟨hc, fun answer state h => ?_⟩
    cases h
    exact sound_of_remembered hc hremembered
  | none =>
    cases hstored : c.stored s file with
    | some k =>
      have hk := sound_of_stored hfile hstored
      refine ⟨fun k' hk' => ?_, fun answer state h => ?_⟩
      · obtain rfl : k = k' := Option.some.inj hk'
        exact hk.1
      · cases h
        exact hk
    | none =>
      cases hk : compute () with
      | error e => exact ⟨hc, fun answer state h => by cases h⟩
      | ok k =>
        have hsound := hcompute k hk
        cases hkept : c.keep (k.withSignature s) file with
        | error e =>
          simp only [hkept]
          exact ⟨hc, fun answer state h => by cases h⟩
        | ok state =>
          simp only [hkept]
          refine ⟨fun k' hk' => ?_, fun answer state' h => ?_⟩
          · obtain rfl : k.withSignature s = k' :=
              Option.some.inj ((current_of_keep hkept).symm.trans hk')
            exact hsound
          · cases h
            exact ⟨hsound, rfl⟩

end ColoringCache

end Mdao
