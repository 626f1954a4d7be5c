import Mathlib
import Mdao.Text.Blank

/-!
# Blanks and separators in texts

A text is stripped when neither end of it is blank. Trimming a text gives the one stripped text that it
holds between blanks (`Text.trim_eq_iff`), and splitting at a separator gives what stands before its
first occurrence and after it (`Text.splitOnce_eq_some_iff`).
-/

namespace Mdao.Text

/-- Nothing but blanks. -/
def Blanks (cs : List Char) : Prop := ∀ c ∈ cs, isBlank c = true

/-- Neither the first nor the last character is blank. -/
structure Stripped (cs : List Char) : Prop where
  first : ∀ c ∈ cs.head?, isBlank c = false
  last : ∀ c ∈ cs.getLast?, isBlank c = false

/-- A text between blanks. -/
def Padded (core cs : List Char) : Prop :=
  ∃ before after, Blanks before ∧ Blanks after ∧ cs = before ++ core ++ after

variable {cs core before after : List Char}

theorem Blanks.notMem (h : Blanks cs) {c : Char} (hc : isBlank c = false) : c ∉ cs := fun hmem =>
  absurd (h c hmem) (by simp [hc])

theorem Blanks.nil : Blanks [] := by simp [Blanks]

theorem Blanks.append (h : Blanks before) (h' : Blanks after) : Blanks (before ++ after) := by
  intro c hc
  rcases List.mem_append.1 hc with hc | hc
  · exact h c hc
  · exact h' c hc

/-- More blanks may stand around a text. -/
theorem Padded.pad (h : Padded core cs) (hbefore : Blanks before) (hafter : Blanks after) :
    Padded core (before ++ cs ++ after) := by
  obtain ⟨a, b, ha, hb, rfl⟩ := h
  exact ⟨before ++ a, b ++ after, hbefore.append ha, hb.append hafter, by simp⟩

theorem Padded.refl (cs : List Char) : Padded cs cs := ⟨[], [], .nil, .nil, by simp⟩

theorem Padded.trans {a b c : List Char} (hab : Padded a b) (hbc : Padded b c) : Padded a c := by
  obtain ⟨p, q, hp, hq, rfl⟩ := hbc
  exact hab.pad hp hq

theorem Padded.notMem (h : Padded core cs) {c : Char} (hc : isBlank c = false) (hcore : c ∉ core) :
    c ∉ cs := by
  obtain ⟨a, b, ha, hb, rfl⟩ := h
  simp [ha.notMem hc, hb.notMem hc, hcore]

/-- Only the ends of a text matter for it to be stripped. -/
theorem Stripped.around {a b : List Char} (ha : Stripped a) (hb : Stripped b) (hne : a ≠ [])
    (hne' : b ≠ []) (between : List Char) : Stripped (a ++ between ++ b) where
  first := by
    rw [List.append_assoc, List.head?_append_of_ne_nil _ hne]
    exact ha.first
  last := by
    rw [List.getLast?_append_of_ne_nil _ hne']
    exact hb.last

/-- A text without blanks at its front is not shortened there. -/
theorem dropWhile_of_first (h : ∀ c ∈ cs.head?, isBlank c = false) (rest : List Char)
    (hne : cs ≠ []) : (cs ++ rest).dropWhile isBlank = cs ++ rest := by
  cases cs with
  | nil => exact absurd rfl hne
  | cons c cs => simp [h c rfl]

theorem dropWhile_of_blanks (h : Blanks before) (cs : List Char) :
    (before ++ cs).dropWhile isBlank = cs.dropWhile isBlank :=
  List.dropWhile_append_of_pos h

/-- Trimming takes off all blanks around a stripped text. -/
theorem trim_padded (hcore : Stripped core) (hbefore : Blanks before) (hafter : Blanks after) :
    trim (before ++ core ++ after) = core := by
  rw [trim, List.append_assoc, dropWhile_of_blanks hbefore]
  by_cases hne : core = []
  · subst hne
    have hnone : after.dropWhile isBlank = [] := List.dropWhile_eq_nil_iff.2 hafter
    simp [hnone, trimEnd]
  · have hlast : ∀ c ∈ core.reverse.head?, isBlank c = false := fun c hc =>
      hcore.last c (by rwa [List.head?_reverse] at hc)
    have hreverse : Blanks after.reverse := fun c hc => hafter c (List.mem_reverse.1 hc)
    have hkept := dropWhile_of_first hlast [] (by simpa using hne)
    rw [List.append_nil] at hkept
    rw [dropWhile_of_first hcore.first _ hne, trimEnd, List.reverse_append,
      dropWhile_of_blanks hreverse, hkept, List.reverse_reverse]

theorem head?_dropWhile (cs : List Char) :
    ∀ c ∈ (cs.dropWhile isBlank).head?, isBlank c = false := by
  intro c hc
  have := List.head?_dropWhile_not isBlank cs
  rw [Option.mem_def.1 hc] at this
  simpa using this

/-- Every text has a stripped text between blanks. -/
theorem exists_stripped (cs : List Char) : ∃ core, Stripped core ∧ Padded core cs := by
  obtain ⟨front, hfront⟩ : ∃ l, l = cs.dropWhile isBlank := ⟨_, rfl⟩
  have hcs : cs = cs.takeWhile isBlank ++ front := by
    rw [hfront, List.takeWhile_append_dropWhile]
  have hsplit : front = (front.reverse.dropWhile isBlank).reverse ++
      (front.reverse.takeWhile isBlank).reverse := by
    rw [← List.reverse_append, List.takeWhile_append_dropWhile, List.reverse_reverse]
  have hblanks : ∀ l : List Char, Blanks (l.takeWhile isBlank) := fun l c hc =>
    List.mem_takeWhile_imp hc
  refine ⟨(front.reverse.dropWhile isBlank).reverse, ⟨fun c hc => ?_, fun c hc => ?_⟩,
    cs.takeWhile isBlank, (front.reverse.takeWhile isBlank).reverse, hblanks cs,
    fun c hc => hblanks _ c (List.mem_reverse.1 hc), ?_⟩
  · -- the core starts where the front part does
    refine head?_dropWhile cs c ?_
    rw [← hfront, hsplit, List.head?_append, Option.mem_def.1 hc]
    rfl
  · rw [List.getLast?_reverse] at hc
    exact head?_dropWhile _ c hc
  · rw [List.append_assoc, ← hsplit]
    exact hcs

/-- **Trimming gives the stripped text that a text holds between blanks.** -/
theorem trim_eq_iff : trim cs = core ↔ Stripped core ∧ Padded core cs := by
  constructor
  · rintro rfl
    obtain ⟨core, hcore, a, b, ha, hb, rfl⟩ := exists_stripped cs
    rw [trim_padded hcore ha hb]
    exact ⟨hcore, a, b, ha, hb, rfl⟩
  · rintro ⟨hcore, a, b, ha, hb, rfl⟩
    exact trim_padded hcore ha hb

/-- More blanks around a text make no difference. -/
theorem trim_pad (hbefore : Blanks before) (hafter : Blanks after) :
    trim (before ++ cs ++ after) = trim cs := by
  obtain ⟨hcore, hpadded⟩ := trim_eq_iff.1 (Eq.refl (trim cs))
  exact trim_eq_iff.2 ⟨hcore, hpadded.pad hbefore hafter⟩

theorem trim_eq_nil_iff : trim cs = [] ↔ Blanks cs := by
  rw [trim_eq_iff]
  constructor
  · rintro ⟨-, a, b, ha, hb, rfl⟩
    simpa using ha.append hb
  · exact fun h => ⟨⟨by simp, by simp⟩, cs, [], h, by simp [Blanks], by simp⟩

variable {sep : Char} {a b : List Char}

theorem splitOnce_append (h : sep ∉ a) (b : List Char) :
    splitOnce sep (a ++ sep :: b) = some (a, b) := by
  induction a with
  | nil => simp [splitOnce]
  | cons c a ih =>
    have hc : c ≠ sep := fun heq => h (by simp [heq])
    rw [List.cons_append, splitOnce, if_neg hc, ih fun hmem => h (List.mem_cons_of_mem _ hmem)]
    rfl

/-- **Splitting at a separator** gives what stands before its first occurrence and what stands after
it. -/
theorem splitOnce_eq_some_iff : splitOnce sep cs = some (a, b) ↔ cs = a ++ sep :: b ∧ sep ∉ a := by
  constructor
  · exact splitOnce_eq_some
  · rintro ⟨rfl, h⟩
    exact splitOnce_append h b

theorem splitOnce_eq_none_iff : splitOnce sep cs = none ↔ sep ∉ cs := by
  constructor
  · intro hnone hmem
    obtain ⟨a, b, rfl, ha⟩ := List.eq_append_cons_of_mem hmem
    rw [splitOnce_append ha] at hnone
    cases hnone
  · intro hmem
    refine Option.eq_none_iff_forall_ne_some.2 fun ⟨a, b⟩ hsome => hmem ?_
    rw [(splitOnce_eq_some hsome).1]
    simp

end Mdao.Text
