import Mathlib
import Mdao.Coloring.Cache
import Mdao.Proofs.Step
import Mdao.Proofs.Text.Json

/-!
# Caches over one file

Several caches may keep their colorings in one file. In the course of events colorings are requested
from them, with any signature, any way to compute a coloring and any fate of the write to the file;
memories are dropped, and caches start anew. A write may fail after a piece of the text, and what it
leaves behind is read by nobody (`Coloring.ofJson_of_cut`).

Whatever has happened, every coloring in a memory is one that was computed for the signature it
bears, and the file holds a piece of the text of such a coloring from its start
(`SharedCaches.traced_run`). So no request is answered with a coloring for another structure (`SharedCaches.answer_spec`).
-/

namespace Mdao

/-! ### Colorings as text -/

namespace Coloring

/-- **A coloring is read back as it was written**, where it is asked for. -/
def Faithful (k : Coloring) : Prop :=
  ∀ s, ofJson k.toJson s = if k.isValidFor s then .ok k else .error .staleSignature

theorem faithful_of_read {k : Coloring} (h : (Json.parse? k.toJson).bind ofDatum? = some k) :
    k.Faithful := by
  intro s
  simp only [ofJson, h]

theorem isValidFor_iff {k : Coloring} {s : Signature} :
    k.isValidFor s = true ↔ k.signature = some s := by
  simp [isValidFor]

theorem isValidFor_withSignature {k : Coloring} {s s' : Signature} :
    (k.withSignature s).isValidFor s' = true ↔ s = s' := by
  simp [isValidFor, withSignature]

/-- **A coloring that was cut short is not read.** -/
theorem ofJson_of_cut {k : Coloring} {s s' : Signature} {piece : String} {t : List Char}
    (hread : ofJson k.toJson s = .ok k) (hcut : k.toJson.toList = piece.toList ++ t) (ht : t ≠ []) :
    ofJson piece s' = .error .json := by
  have hbraces : k.toJson.toList = _ := Json.toList_render_table _
  obtain ⟨d, hd⟩ : ∃ d, Json.parse? k.toJson = some d := by
    cases hd : Json.parse? k.toJson with
    | none => simp [ofJson, hd] at hread
    | some d => exact ⟨d, rfl⟩
  have hnone : Json.parse? piece = none := Json.parse?_of_cut hd (by rw [hbraces]; rfl)
    (by rw [hbraces, List.getLast?_concat]) rfl hcut ht
  simp only [ofJson, hnone, Option.bind_none]

/-- A piece of the text of a coloring is read only if it is the whole text, as the coloring and for
its signature. -/
theorem ofJson_piece {k : Coloring} {s s' : Signature} {text : String} {t : List Char}
    (hfaithful : (k.withSignature s).Faithful)
    (hpiece : (k.withSignature s).toJson.toList = text.toList ++ t) {k' : Coloring}
    (hread : ofJson text s' = .ok k') : s' = s ∧ k' = k.withSignature s := by
  have hown : ofJson (k.withSignature s).toJson s = .ok (k.withSignature s) :=
    (hfaithful s).trans (if_pos (isValidFor_withSignature.2 rfl))
  by_cases ht : t = []
  · obtain rfl : (k.withSignature s).toJson = text := by
      rw [ht, List.append_nil] at hpiece
      exact String.toList_inj.1 hpiece
    rw [hfaithful s'] at hread
    split_ifs at hread with hvalid
    cases hread
    exact ⟨(isValidFor_withSignature.1 hvalid).symm, rfl⟩
  · rw [ofJson_of_cut hown hpiece ht] at hread
    cases hread

end Coloring

/-! ### What a request can do -/

namespace ColoringCache

variable {c : ColoringCache} {file : ColoringFile} {s : Signature} {k : Coloring}
  {compute : Unit → Except ColoringError Coloring}

theorem remembered_eq_some :
    c.remembered s = some k ↔ c.current = some k ∧ k.signature = some s := by
  rw [remembered, Option.filter_eq_some_iff, Coloring.isValidFor_iff]

theorem stored_eq_some : c.stored s file = some k ↔
    c.backed = true ∧ ∃ text, file.contents = some text ∧ Coloring.ofJson text s = .ok k := by
  unfold stored
  split_ifs with hbacked
  · cases file.contents with
    | none => simp [hbacked]
    | some text => cases h : Coloring.ofJson text s <;> simp [hbacked, h]
  · simp [hbacked]

theorem getOrCompute_of_remembered (h : c.remembered s = some k) :
    getOrCompute s compute (c, file) = .ok ⟨k, false⟩ (c, file) := by
  simp only [getOrCompute, h]

theorem getOrCompute_of_stored (h : c.remembered s = none) (h' : c.stored s file = some k) :
    getOrCompute s compute (c, file) = .ok ⟨k, false⟩ ({ c with current := some k }, file) := by
  simp only [getOrCompute, h, h']

theorem getOrCompute_of_error (h : c.remembered s = none) (h' : c.stored s file = none)
    {e : ColoringError} (hcompute : compute () = .error e) :
    getOrCompute s compute (c, file) = .error e (c, file) := by
  simp only [getOrCompute, h, h', hcompute]

/-- What was computed is answered and remembered, unless the file cannot be written. -/
theorem getOrCompute_of_ok (h : c.remembered s = none) (h' : c.stored s file = none)
    (hcompute : compute () = .ok k) :
    getOrCompute s compute (c, file) = .error .io (c, file) ∨
      ∃ file', getOrCompute s compute (c, file) =
        .ok ⟨k.withSignature s, true⟩ ({ c with current := some (k.withSignature s) }, file') ∧
        (file'.contents = file.contents ∨ file'.contents = some (k.withSignature s).toJson) := by
  simp only [getOrCompute, h, h', hcompute, keep]
  split_ifs
  · exact .inr ⟨_, rfl, .inl rfl⟩
  · exact .inr ⟨_, rfl, .inr rfl⟩
  · exact .inl rfl

end ColoringCache

/-! ### The course of events -/

/-- What becomes of a write to a file. -/
inductive WriteFate where
  /-- The file holds the text. -/
  | done
  /-- The write fails before it has started. -/
  | refused
  /-- The write fails after some characters. -/
  | cut (count : Nat)
  deriving DecidableEq

/-- A request for a coloring. -/
structure ColoringRequest where
  /-- The number of the cache. -/
  cache : Nat
  /-- What the coloring is for. -/
  signature : Signature
  /-- The way to compute it. -/
  compute : Unit → Except ColoringError Coloring
  /-- What becomes of a write, if there is one. -/
  fate : WriteFate

/-- What may happen to caches over one file. -/
inductive CacheEvent where
  /-- A coloring is requested. -/
  | request (r : ColoringRequest)
  /-- A cache forgets the coloring in memory. -/
  | invalidate (cache : Nat)
  /-- A cache starts anew, with the file or in memory. -/
  | restart (cache : Nat) (backed : Bool)

/-- Caches over one file. -/
structure SharedCaches where
  /-- The caches. -/
  caches : Nat → ColoringCache
  /-- What the file holds, if it exists. -/
  contents : Option String

namespace SharedCaches

/-- Caches that remember nothing, over a file that does not exist. -/
def start : SharedCaches := ⟨fun _ => .withFile, none⟩

/-- The file as a request finds it. -/
def fileFor (w : SharedCaches) (r : ColoringRequest) : ColoringFile :=
  ⟨w.contents, decide (r.fate = .done)⟩

/-- What comes of a request. -/
def answer (w : SharedCaches) (r : ColoringRequest) :
    EStateM.Result ColoringError (ColoringCache × ColoringFile) ColoringCache.Answer :=
  ColoringCache.getOrCompute r.signature r.compute (w.caches r.cache, w.fileFor r)

/-- What the file holds after a failed request: a piece of the text of what was computed, if the
write broke off. -/
def leftBehind (r : ColoringRequest) (contents : Option String) : Option String :=
  match r.fate, r.compute () with
  | .cut count, .ok k =>
    some (String.ofList ((k.withSignature r.signature).toJson.toList.take count))
  | _, _ => contents

/-- The caches and the file after an event. -/
def step (w : SharedCaches) : CacheEvent → SharedCaches
  | .request r =>
    match w.answer r with
    | .ok _ (c, file) => ⟨Function.update w.caches r.cache c, file.contents⟩
    | .error _ (c, file) => ⟨Function.update w.caches r.cache c, leftBehind r file.contents⟩
  | .invalidate i => { w with caches := Function.update w.caches i (w.caches i).invalidate }
  | .restart i backed =>
    { w with caches := Function.update w.caches i (if backed then .withFile else .inMemory) }

/-- The caches and the file after events. -/
def run (es : List CacheEvent) : SharedCaches := es.foldl step start

theorem run_append (es : List CacheEvent) (e : CacheEvent) : run (es ++ [e]) = (run es).step e := by
  rw [run, List.foldl_append]
  rfl

/-- A cache has a coloring for a signature, in memory or in the file. -/
def Holds (w : SharedCaches) (i : Nat) (s : Signature) : Prop :=
  (∃ k, (w.caches i).current = some k ∧ k.signature = some s) ∨
    (w.caches i).backed = true ∧ ∃ text k, w.contents = some text ∧ Coloring.ofJson text s = .ok k

/-- **A coloring was computed for a signature**: a request for it, from a cache that had none, was
given the coloring. -/
def Computed (es : List CacheEvent) (s : Signature) (k : Coloring) : Prop :=
  ∃ before r after, es = before ++ .request r :: after ∧ r.signature = s ∧
    ¬(run before).Holds r.cache s ∧ r.compute () = .ok k

/-- A request calls for a computation: what comes of it depends on what is computed. -/
def Calls (w : SharedCaches) (r : ColoringRequest) : Prop :=
  ∃ compute, w.answer { r with compute := compute } ≠ w.answer r

variable {w : SharedCaches} {es es' : List CacheEvent} {r : ColoringRequest} {s : Signature}
  {k : Coloring}

theorem step_of_ok {a : ColoringCache.Answer} {c : ColoringCache} {file : ColoringFile}
    (h : w.answer r = .ok a (c, file)) :
    w.step (.request r) = ⟨Function.update w.caches r.cache c, file.contents⟩ := by
  simp only [step, h]

theorem step_of_error {e : ColoringError} {c : ColoringCache} {file : ColoringFile}
    (h : w.answer r = .error e (c, file)) :
    w.step (.request r) = ⟨Function.update w.caches r.cache c, leftBehind r file.contents⟩ := by
  simp only [step, h]

/-- Where a cache has no coloring, neither its memory nor the file answers. -/
theorem not_holds_iff : ¬w.Holds r.cache r.signature ↔
    (w.caches r.cache).remembered r.signature = none ∧
      (w.caches r.cache).stored r.signature (w.fileFor r) = none := by
  rw [Holds, not_or, Option.eq_none_iff_forall_ne_some, Option.eq_none_iff_forall_ne_some]
  simp only [ne_eq, ColoringCache.remembered_eq_some, ColoringCache.stored_eq_some, not_exists,
    fileFor, not_and]
  refine and_congr_right fun _ => ⟨fun h k hbacked text htext => h hbacked text k htext,
    fun h hbacked text k htext => h k hbacked text htext⟩

theorem Computed.append (h : Computed es s k) (es' : List CacheEvent) :
    Computed (es ++ es') s k := by
  obtain ⟨before, r, after, rfl, hr, hmissing, hk⟩ := h
  exact ⟨before, r, after ++ es', by simp, hr, hmissing, hk⟩

theorem computed_request (hmissing : ¬(run es).Holds r.cache r.signature)
    (hk : r.compute () = .ok k) : Computed (es ++ [.request r]) r.signature k :=
  ⟨es, r, [], rfl, rfl, hmissing, hk⟩

/-- A coloring that was computed, with the signature it was computed for. -/
def Made (es : List CacheEvent) (k : Coloring) : Prop :=
  ∃ s k₀, Computed es s k₀ ∧ k = k₀.withSignature s

/-- What can be known of the caches and the file after events. -/
structure Traced (es : List CacheEvent) (w : SharedCaches) : Prop where
  memory : ∀ i k, (w.caches i).current = some k → Made es k
  file : ∀ text, w.contents = some text → ∃ k t, Made es k ∧ k.toJson.toList = text.toList ++ t

theorem Made.append (h : Made es k) (es' : List CacheEvent) : Made (es ++ es') k := by
  obtain ⟨s, k₀, hk₀, rfl⟩ := h
  exact ⟨s, k₀, hk₀.append es', rfl⟩

/-- One cache is exchanged, and the file may be. -/
theorem Traced.update (h : Traced es w) {i : Nat} {c : ColoringCache} {contents : Option String}
    (hc : ∀ k, c.current = some k → Made (es ++ es') k)
    (hcontents : contents = w.contents ∨ ∃ text k t, contents = some text ∧ Made (es ++ es') k ∧
      k.toJson.toList = text.toList ++ t) :
    Traced (es ++ es') ⟨Function.update w.caches i c, contents⟩ := by
  refine ⟨fun j k hk => ?_, fun text htext => ?_⟩
  · simp only [Function.update_apply] at hk
    split_ifs at hk
    · exact hc k hk
    · exact (h.memory j k hk).append es'
  · rcases hcontents with rfl | ⟨text', k, t, rfl, hk, hpiece⟩
    · obtain ⟨k, t, hk, hpiece⟩ := h.file text htext
      exact ⟨k, t, hk.append es', hpiece⟩
    · cases htext
      exact ⟨k, t, hk, hpiece⟩

/-- **What is read from the file was computed for the signature.** -/
theorem Traced.read (h : Traced es w)
    (hfaithful : ∀ s k, Computed es s k → (k.withSignature s).Faithful) {text : String}
    (htext : w.contents = some text) (hread : Coloring.ofJson text s = .ok k) :
    ∃ k₀, Computed es s k₀ ∧ k = k₀.withSignature s := by
  obtain ⟨_, t, ⟨s', k₀, hk₀, rfl⟩, hpiece⟩ := h.file text htext
  obtain ⟨rfl, rfl⟩ := Coloring.ofJson_piece (hfaithful s' k₀ hk₀) hpiece hread
  exact ⟨k₀, hk₀, rfl⟩

/-- What is left behind by a write that broke off is a piece of the text. -/
theorem leftBehind_cases (r : ColoringRequest) (contents : Option String) :
    leftBehind r contents = contents ∨ ∃ k text t, r.compute () = .ok k ∧
      leftBehind r contents = some text ∧
      (k.withSignature r.signature).toJson.toList = text.toList ++ t := by
  unfold leftBehind
  split
  · rename_i count k _ hk
    refine .inr ⟨k, _, (k.withSignature r.signature).toJson.toList.drop count, hk, rfl, ?_⟩
    rw [String.toList_ofList, List.take_append_drop]
  · exact .inl rfl

/-- A request to a cache that has no coloring keeps the trace. -/
theorem Traced.step_missing (h : Traced es (run es))
    (hmissing : ¬(run es).Holds r.cache r.signature) :
    Traced (es ++ [.request r]) ((run es).step (.request r)) := by
  obtain ⟨hremembered, hstored⟩ := not_holds_iff.1 hmissing
  have hkept : ∀ k, ((run es).caches r.cache).current = some k → Made (es ++ [.request r]) k :=
    fun k hk => (h.memory _ k hk).append _
  cases hcompute : r.compute () with
  | error e =>
    rw [step_of_error (ColoringCache.getOrCompute_of_error hremembered hstored hcompute)]
    refine h.update hkept (.inl ?_)
    rcases leftBehind_cases r ((run es).fileFor r).contents with hleft | ⟨k, _, _, hk, _⟩
    · exact hleft
    · rw [hcompute] at hk
      cases hk
  | ok k =>
    have hmade : Made (es ++ [.request r]) (k.withSignature r.signature) :=
      ⟨_, k, computed_request hmissing hcompute, rfl⟩
    rcases ColoringCache.getOrCompute_of_ok hremembered hstored hcompute with
      herror | ⟨file, hok, hfile⟩
    · rw [step_of_error herror]
      refine h.update hkept ?_
      rcases leftBehind_cases r ((run es).fileFor r).contents with
        hleft | ⟨k', text, t, hk', hleft, hpiece⟩
      · exact .inl hleft
      · obtain rfl : k = k' := Except.ok.inj (hcompute.symm.trans hk')
        exact .inr ⟨text, _, t, hleft, hmade, hpiece⟩
    · rw [step_of_ok hok]
      refine h.update (fun k' hk' => ?_) ?_
      · cases hk'
        exact hmade
      · exact hfile.imp id fun hfile => ⟨_, _, [], hfile, hmade, (List.append_nil _).symm⟩

/-- **An event keeps the trace.** -/
theorem Traced.step (h : Traced es (run es))
    (hfaithful : ∀ s k, Computed es s k → (k.withSignature s).Faithful) (e : CacheEvent) :
    Traced (es ++ [e]) ((run es).step e) := by
  cases e with
  | invalidate i => exact h.update (fun k hk => nomatch hk) (.inl rfl)
  | restart i backed =>
    refine h.update (fun k hk => ?_) (.inl rfl)
    cases backed <;> cases hk
  | request r =>
    have hkept : ∀ k, ((run es).caches r.cache).current = some k → Made (es ++ [.request r]) k :=
      fun k hk => (h.memory _ k hk).append _
    cases hremembered : ((run es).caches r.cache).remembered r.signature with
    | some k =>
      rw [step_of_ok (ColoringCache.getOrCompute_of_remembered hremembered)]
      exact h.update hkept (.inl rfl)
    | none =>
      cases hstored : ((run es).caches r.cache).stored r.signature ((run es).fileFor r) with
      | some k =>
        rw [step_of_ok (ColoringCache.getOrCompute_of_stored hremembered hstored)]
        obtain ⟨-, text, htext, hread⟩ := ColoringCache.stored_eq_some.1 hstored
        obtain ⟨k₀, hk₀, rfl⟩ := h.read hfaithful htext hread
        refine h.update (fun k hk => ?_) (.inl rfl)
        cases hk
        exact ⟨_, k₀, hk₀.append _, rfl⟩
      | none => exact h.step_missing (not_holds_iff.2 ⟨hremembered, hstored⟩)

/-- **After all events every coloring in a memory was computed for the signature it bears**, and the
file holds a piece of the text of such a coloring. -/
theorem traced_run (hfaithful : ∀ s k, Computed es s k → (k.withSignature s).Faithful) :
    Traced es (run es) := by
  induction es using List.reverseRecOn with
  | nil => exact ⟨fun _ _ hk => (nomatch hk), fun _ htext => (nomatch htext)⟩
  | append_singleton es e ih =>
    have hearlier : ∀ s k, Computed es s k → (k.withSignature s).Faithful := fun s k hk =>
      hfaithful s k (hk.append [e])
    rw [run_append]
    exact (ih hearlier).step hearlier e

/-- Where a cache has a coloring, in memory or in the file, every request for it is answered with
that coloring, whatever would be computed. -/
theorem answer_of_holds (h : w.Holds r.cache r.signature) : ∃ k,
    ((w.caches r.cache).current = some k ∧ k.signature = some r.signature ∨
      ∃ text, w.contents = some text ∧ Coloring.ofJson text r.signature = .ok k) ∧
    ∃ state, ∀ compute, w.answer { r with compute := compute } = .ok ⟨k, false⟩ state := by
  cases hremembered : (w.caches r.cache).remembered r.signature with
  | some k =>
    exact ⟨k, .inl (ColoringCache.remembered_eq_some.1 hremembered),
      (w.caches r.cache, w.fileFor r),
      fun _ => ColoringCache.getOrCompute_of_remembered hremembered⟩
  | none =>
    cases hstored : (w.caches r.cache).stored r.signature (w.fileFor r) with
    | some k =>
      exact ⟨k, .inr (ColoringCache.stored_eq_some.1 hstored).2,
        ({ w.caches r.cache with current := some k }, w.fileFor r),
        fun _ => ColoringCache.getOrCompute_of_stored hremembered hstored⟩
    | none => exact absurd h (not_holds_iff.2 ⟨hremembered, hstored⟩)

/-- Where a cache has no coloring, a request fails and changes no memory, or it is answered with
what was computed. -/
theorem answer_of_missing (h : ¬w.Holds r.cache r.signature) :
    (∃ e, w.answer r = .error e (w.caches r.cache, w.fileFor r)) ∨
      ∃ k state, r.compute () = .ok k ∧
        w.answer r = .ok ⟨k.withSignature r.signature, true⟩ state := by
  obtain ⟨hremembered, hstored⟩ := not_holds_iff.1 h
  cases hcompute : r.compute () with
  | error e => exact .inl ⟨e, ColoringCache.getOrCompute_of_error hremembered hstored hcompute⟩
  | ok k =>
    rcases ColoringCache.getOrCompute_of_ok hremembered hstored hcompute with herror | ⟨file, hok, -⟩
    · exact .inl ⟨.io, herror⟩
    · exact .inr ⟨k, _, rfl, hok⟩

/-- **A request calls for a computation if and only if the cache has no coloring for it.** -/
theorem calls_iff (w : SharedCaches) (r : ColoringRequest) :
    w.Calls r ↔ ¬w.Holds r.cache r.signature := by
  refine ⟨fun ⟨compute, hne⟩ h => ?_, fun hmissing => ?_⟩
  · obtain ⟨k, -, state, hanswer⟩ := answer_of_holds h
    exact hne ((hanswer compute).trans (hanswer r.compute).symm)
  · -- two computations that fail in different ways make the request fail in different ways
    obtain ⟨hremembered, hstored⟩ := not_holds_iff.1 hmissing
    have hfails : ∀ e, w.answer { r with compute := fun _ => .error e } =
        .error e (w.caches r.cache, w.fileFor r) := fun e =>
      ColoringCache.getOrCompute_of_error hremembered hstored rfl
    by_contra hsame
    unfold Calls at hsame
    push Not at hsame
    have heq := (hfails .io).symm.trans ((hsame _).trans ((hsame _).symm.trans (hfails .json)))
    cases heq

/-- A failed request changes no memory. -/
theorem caches_of_error {e : ColoringError} {state : ColoringCache × ColoringFile}
    (h : w.answer r = .error e state) : (w.step (.request r)).caches = w.caches := by
  have hmissing : ¬w.Holds r.cache r.signature := fun hholds => by
    obtain ⟨k, -, state', hanswer⟩ := answer_of_holds hholds
    cases h.symm.trans (hanswer r.compute)
  rcases answer_of_missing hmissing with ⟨e', herror⟩ | ⟨k, state', -, hok⟩
  · rw [step_of_error herror, Function.update_eq_self]
  · cases h.symm.trans hok

/-- **No request is answered with a coloring for another structure**, whatever has happened to the
caches and their file before: the coloring bears the requested signature, and was computed for it now
or earlier. It is computed now if and only if neither the memory of the cache nor the file has one,
and a request that fails changes no memory. -/
theorem answer_spec (hfaithful : ∀ s k, Computed es s k → (k.withSignature s).Faithful)
    (r : ColoringRequest) :
    (∀ a state, (run es).answer r = .ok a state → a.coloring.signature = some r.signature ∧
      (a.computed = true ↔ ¬(run es).Holds r.cache r.signature) ∧
      ∃ k, Computed (es ++ [.request r]) r.signature k ∧
        a.coloring = k.withSignature r.signature) ∧
    ((run es).Calls r ↔ ¬(run es).Holds r.cache r.signature) ∧
    ∀ e state, (run es).answer r = .error e state →
      ((run es).step (.request r)).caches = (run es).caches := by
  have htraced := traced_run hfaithful
  refine ⟨fun a state h => ?_, calls_iff _ r, fun e state h => caches_of_error h⟩
  by_cases hholds : (run es).Holds r.cache r.signature
  · obtain ⟨k, hfound, state', hanswer⟩ := answer_of_holds hholds
    cases h.symm.trans (hanswer r.compute)
    obtain ⟨k₀, hk₀, rfl⟩ : ∃ k₀, Computed es r.signature k₀ ∧ k = k₀.withSignature r.signature := by
      rcases hfound with ⟨hcurrent, hsignature⟩ | ⟨text, htext, hread⟩
      · obtain ⟨s, k₀, hk₀, rfl⟩ := htraced.memory _ k hcurrent
        obtain rfl : s = r.signature := Option.some.inj hsignature
        exact ⟨k₀, hk₀, rfl⟩
      · exact htraced.read hfaithful htext hread
    exact ⟨rfl, by simp [hholds], k₀, hk₀.append _, rfl⟩
  · rcases answer_of_missing hholds with ⟨e, herror⟩ | ⟨k, state', hk, hok⟩
    · cases h.symm.trans herror
    · cases h.symm.trans hok
      exact ⟨rfl, by simp [hholds], k, computed_request hholds hk, rfl⟩

/-! ### A restart after a write that broke off -/

namespace Restarted

/-- A coloring of one entry. -/
def coloring : Coloring := ⟨⟨1, 1, #[[0]]⟩, [[0]], [], [false], .direct, none⟩

/-- What it is for. -/
def signature : Signature := ⟨(1, 1), 7, 0, 1, 0, .auto, .direct⟩

/-- It is computed and written to the file, and the cache starts anew. -/
def events : List CacheEvent :=
  [.request ⟨0, signature, fun _ => .ok coloring, .done⟩, .restart 0 true]

/-- A request that could not be computed. -/
def request : ColoringRequest := ⟨0, signature, fun _ => .error .io, .refused⟩

theorem faithful : (coloring.withSignature signature).Faithful :=
  Coloring.faithful_of_read (by
    rw [Coloring.toJson, Json.parse?_render]
    decide +kernel)

theorem faithful_of_computed {s : Signature} {k : Coloring} (h : Computed events s k) :
    (k.withSignature s).Faithful := by
  obtain ⟨before, r, after, heq, rfl, -, hk⟩ := h
  have hmem : .request r ∈ events := by
    rw [heq]
    exact List.mem_append_right _ List.mem_cons_self
  simp only [events, List.mem_cons, CacheEvent.request.injEq, reduceCtorEq, List.not_mem_nil,
    or_false] at hmem
  subst hmem
  obtain rfl : coloring = k := Except.ok.inj hk
  exact faithful

/-- The file still has it. -/
theorem holds : (run events).Holds request.cache request.signature :=
  .inr ⟨rfl, _, _, rfl, (faithful signature).trans
    (if_pos (Coloring.isValidFor_withSignature.2 rfl))⟩

/-- The cache that was started anew answers from the file, and computes nothing. -/
theorem answer_restarted : (∀ s k, Computed events s k → (k.withSignature s).Faithful) ∧
    ∃ a state, (run events).answer request = .ok a state ∧ a.coloring.signature = some signature ∧
      a.computed = false := by
  obtain ⟨k, -, state, hanswer⟩ := answer_of_holds holds
  obtain ⟨hspec, -, -⟩ := answer_spec (fun _ _ => faithful_of_computed) request
  obtain ⟨hsignature, hcomputed, -⟩ := hspec _ state (hanswer request.compute)
  refine ⟨fun _ _ => faithful_of_computed, _, state, hanswer request.compute, hsignature, ?_⟩
  exact Bool.eq_false_iff.2 fun h => hcomputed.1 h holds

end Restarted

end SharedCaches

end Mdao
