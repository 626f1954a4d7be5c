import Mathlib
import Mdao.Text.Wildcard

/-!
# What wildcard patterns fit

A pattern fits a text if the text can be cut into one piece for each character of the pattern: any
piece for a star, one character for a question mark, and the character itself else (`Fits`). A scan
decides this (`Scan.run_iff`), although it keeps the last star only. The invariant (`Scan.Sound`) is
that the pattern fits if and only if what is left fits from here on, or would with a longer run for
the last star. The second alternative covers all earlier stars: between two stars the pattern takes
as many characters as it has, so a longer run for an earlier star only moves the later one to the
right, where its own run can begin as well (`fits_star_of_append`).
-/

namespace Mdao.Wildcard

/-! ### Cuts of a text -/

/-- The pieces of a text that a character of a pattern takes. -/
inductive Takes : Char → List Char → Prop
  | star (piece : List Char) : Takes '*' piece
  | any (d : Char) : Takes '?' [d]
  | self (c : Char) : Takes c [c]

/-- **A pattern fits a text**: the text is cut into pieces that its characters take in turn. -/
def Fits (pattern text : List Char) : Prop :=
  ∃ pieces, List.Forall₂ Takes pattern pieces ∧ pieces.flatten = text

theorem takes_iff {c : Char} (hc : c ≠ '*') {piece : List Char} :
    Takes c piece ↔ ∃ d, piece = [d] ∧ (c = '?' ∨ c = d) := by
  constructor
  · rintro (_ | d | _)
    · exact absurd rfl hc
    · exact ⟨d, rfl, .inl rfl⟩
    · exact ⟨c, rfl, .inr rfl⟩
  · rintro ⟨d, rfl, rfl | rfl⟩
    · exact .any d
    · exact .self c

@[simp] theorem fits_nil {text : List Char} : Fits [] text ↔ text = [] := by
  constructor
  · rintro ⟨_, ⟨⟩, rfl⟩
    rfl
  · rintro rfl
    exact ⟨[], .nil, rfl⟩

/-- A pattern fits by its first character and the others. -/
theorem fits_cons {c : Char} {pattern text : List Char} :
    Fits (c :: pattern) text ↔
      ∃ piece rest, Takes c piece ∧ Fits pattern rest ∧ text = piece ++ rest := by
  constructor
  · rintro ⟨_, _ | ⟨hpiece, hpieces⟩, rfl⟩
    exact ⟨_, _, hpiece, ⟨_, hpieces, rfl⟩, List.flatten_cons⟩
  · rintro ⟨piece, _, hpiece, ⟨pieces, hpieces, rfl⟩, rfl⟩
    exact ⟨piece :: pieces, .cons hpiece hpieces, List.flatten_cons⟩

/-- A star takes some number of characters. -/
theorem fits_star {pattern text : List Char} :
    Fits ('*' :: pattern) text ↔ ∃ k, Fits pattern (text.drop k) := by
  rw [fits_cons]
  constructor
  · rintro ⟨piece, rest, -, hrest, rfl⟩
    exact ⟨piece.length, by simpa using hrest⟩
  · rintro ⟨k, hk⟩
    exact ⟨text.take k, text.drop k, .star _, hk, (List.take_append_drop k text).symm⟩

/-- Any other character takes one. -/
theorem fits_cons_of_ne {c : Char} (hc : c ≠ '*') {pattern text : List Char} :
    Fits (c :: pattern) text ↔
      ∃ d rest, text = d :: rest ∧ (c = '?' ∨ c = d) ∧ Fits pattern rest := by
  simp only [fits_cons, takes_iff hc]
  constructor
  · rintro ⟨_, rest, ⟨d, rfl, hd⟩, hrest, rfl⟩
    exact ⟨d, rest, rfl, hd, hrest⟩
  · rintro ⟨d, rest, rfl, hd, hrest⟩
    exact ⟨[d], rest, ⟨d, rfl, hd⟩, hrest, rfl⟩

/-- Without a star a part of a pattern takes as many characters as it has. -/
theorem fits_drop_of_append {segment pattern text : List Char} (hsegment : '*' ∉ segment)
    (h : Fits (segment ++ pattern) text) :
    segment.length ≤ text.length ∧ Fits pattern (text.drop segment.length) := by
  induction segment generalizing text with
  | nil => exact ⟨Nat.zero_le _, h⟩
  | cons c segment ih =>
    rw [List.mem_cons, not_or] at hsegment
    obtain ⟨d, rest, rfl, -, hrest⟩ := (fits_cons_of_ne (Ne.symm hsegment.1)).1 h
    obtain ⟨hlength, hfits⟩ := ih hsegment.2 hrest
    exact ⟨Nat.succ_le_succ hlength, hfits⟩

/-- What a star can take from a later place on, it can take from an earlier one. -/
theorem fits_star_of_le {pattern text : List Char} {m n : Nat} (hmn : m ≤ n)
    (h : Fits ('*' :: pattern) (text.drop n)) : Fits ('*' :: pattern) (text.drop m) := by
  obtain ⟨k, hfits⟩ := fits_star.1 h
  refine fits_star.2 ⟨n - m + k, ?_⟩
  rw [List.drop_drop] at hfits ⊢
  rwa [← Nat.add_assoc, Nat.add_sub_cancel' hmn]

/-- Of the places from `m` on the first is `m` itself. -/
theorem exists_le_iff {F : Nat → Prop} {m n : Nat} (hm : m ≤ n) :
    (∃ k ≤ n, m ≤ k ∧ F k) ↔ F m ∨ ∃ k ≤ n, m < k ∧ F k := by
  constructor
  · rintro ⟨k, hn, hk, hF⟩
    rcases hk.eq_or_lt with rfl | hlt
    · exact .inl hF
    · exact .inr ⟨k, hn, hlt, hF⟩
  · rintro (hF | ⟨k, hn, hlt, hF⟩)
    · exact ⟨m, hm, le_rfl, hF⟩
    · exact ⟨k, hn, hlt.le, hF⟩

/-- A star takes the text up to some place from its own on. -/
theorem fits_star_drop {pattern text : List Char} {m : Nat} (hm : m ≤ text.length) :
    Fits ('*' :: pattern) (text.drop m) ↔
      ∃ k ≤ text.length, m ≤ k ∧ Fits pattern (text.drop k) := by
  rw [fits_star]
  constructor
  · rintro ⟨k, hfits⟩
    rw [List.drop_drop] at hfits
    rcases le_total (m + k) text.length with hle | hle
    · exact ⟨m + k, hle, Nat.le_add_right m k, hfits⟩
    · refine ⟨text.length, le_rfl, hm, ?_⟩
      rwa [List.drop_length, ← List.drop_eq_nil_iff.2 hle]
  · rintro ⟨k, -, hmk, hfits⟩
    refine ⟨k - m, ?_⟩
    rwa [List.drop_drop, Nat.add_sub_cancel' hmk]

/-- An empty text is fitted by stars alone. -/
theorem fits_nil_right {pattern : List Char} :
    Fits pattern [] ↔ pattern.all (· == '*') = true := by
  induction pattern with
  | nil => simp
  | cons c pattern ih =>
    by_cases hc : c = '*'
    · subst hc
      simp [fits_star, ih]
    · simp [fits_cons_of_ne hc, hc]

namespace Scan

variable {pattern text : Array Char} {s : Scan pattern text}

/-! ### The invariant of a scan -/

/-- What is left of the pattern. -/
def patternLeft (s : Scan pattern text) : List Char := pattern.toList.drop s.place

/-- What is left of the text. -/
def textLeft (s : Scan pattern text) : List Char := text.toList.drop s.read

/-- The pattern fits with a longer run for the last star. -/
def FitsLonger (s : Scan pattern text) : Prop :=
  ∃ r ∈ s.star, ∃ k ≤ text.size, r.2 < k ∧ Fits (pattern.toList.drop (r.1 + 1)) (text.toList.drop k)

/-- **The invariant of a scan.** -/
structure Sound (s : Scan pattern text) : Prop where
  /-- The pattern fits from here on or with a longer run for the last star, or not at all. -/
  fits_iff : Fits pattern.toList text.toList ↔ Fits s.patternLeft s.textLeft ∨ s.FitsLonger
  /-- Since the last star each character has taken one. -/
  segment : ∀ r ∈ s.star, ∃ segment, '*' ∉ segment ∧
    pattern.toList.drop (r.1 + 1) = segment ++ s.patternLeft ∧ s.read = r.2 + segment.length

theorem patternLeft_eq (hp : s.place < pattern.size) :
    s.patternLeft = pattern[s.place] :: pattern.toList.drop (s.place + 1) := by
  rw [patternLeft, List.drop_eq_getElem_cons (by simpa using hp), Array.getElem_toList]

theorem textLeft_eq (ht : s.read < text.size) :
    s.textLeft = text[s.read] :: text.toList.drop (s.read + 1) := by
  rw [textLeft, List.drop_eq_getElem_cons (by simpa using ht), Array.getElem_toList]

theorem textLeft_eq_nil (ht : ¬ s.read < text.size) : s.textLeft = [] :=
  List.drop_eq_nil_iff.2 (by simpa using not_lt.1 ht)

theorem sound_start (pattern text : Array Char) : (start pattern text).Sound where
  fits_iff := ⟨.inl, fun h => h.elim id fun ⟨_, hr, _⟩ => by cases hr⟩
  segment _ hr := by cases hr

/-- **A star takes over from the one before**: what that one could still give, the new one can. -/
theorem Sound.passStar (h : s.Sound) (hp : s.place < pattern.size)
    (hstar : pattern[s.place] = '*') : (s.passStar hp).Sound := by
  have hleft := patternLeft_eq hp
  rw [hstar] at hleft
  refine ⟨h.fits_iff.trans ?_, fun r hr => ?_⟩
  · have hread : s.read ≤ text.toList.length := s.read_le
    rw [or_iff_left_of_imp fun hlonger => ?_, hleft, textLeft, fits_star_drop hread,
      exists_le_iff hread]
    · simp [FitsLonger, Scan.passStar, patternLeft, textLeft]
    · obtain ⟨r, hr, k, -, hk, hfits⟩ := hlonger
      obtain ⟨segment, hsegment, hdrop, hread⟩ := h.segment r hr
      rw [hdrop, hleft] at hfits
      have hstar' := (fits_drop_of_append hsegment hfits).2
      rw [List.drop_drop] at hstar'
      rw [hleft]
      exact fits_star_of_le (by omega) hstar'
  · obtain rfl := Option.some.inj hr
    exact ⟨[], List.not_mem_nil, rfl, rfl⟩

/-- A character that takes one leaves the question as it is. -/
theorem Sound.advance (h : s.Sound) (hp : s.place < pattern.size) (ht : s.read < text.size)
    (hstar : pattern[s.place] ≠ '*')
    (htakes : pattern[s.place] = '?' ∨ pattern[s.place] = text[s.read]) :
    (s.advance hp ht).Sound := by
  refine ⟨h.fits_iff.trans (or_congr_left ?_), fun r hr => ?_⟩
  · rw [patternLeft_eq hp, textLeft_eq ht, fits_cons_of_ne hstar]
    constructor
    · rintro ⟨d, rest, heq, -, hrest⟩
      obtain ⟨-, rfl⟩ := List.cons.inj heq
      exact hrest
    · exact fun hrest => ⟨_, _, rfl, htakes, hrest⟩
  · obtain ⟨segment, hsegment, hdrop, hread⟩ := h.segment r hr
    refine ⟨segment ++ [pattern[s.place]], ?_, ?_, ?_⟩
    · simpa [hsegment] using Ne.symm hstar
    · rw [hdrop, patternLeft_eq hp, List.append_assoc]
      rfl
    · rw [List.length_append, ← Nat.add_assoc, ← hread]
      rfl

/-- Where pattern and text differ, the last star has to take more. -/
theorem Sound.retry (h : s.Sound) (ht : s.read < text.size)
    (hdiffer : ¬ Fits s.patternLeft s.textLeft) :
    (∀ s', s.retry ht = .inl s' → s'.Sound) ∧
      ∀ answer, s.retry ht = .inr answer → (answer = true ↔ Fits pattern.toList text.toList) := by
  have hfits := h.fits_iff.trans (or_iff_right hdiffer)
  constructor
  · intro s' hs'
    unfold Scan.retry at hs'
    split at hs'
    · cases hs'
    · rename_i star taken hstar
      cases hs'
      have htaken : taken + 1 ≤ text.size := (s.star_lt _ hstar).2.trans_lt ht
      refine ⟨hfits.trans ?_, fun r hr => ?_⟩
      · have hsplit := exists_le_iff (F := fun k =>
          Fits (pattern.toList.drop (star + 1)) (text.toList.drop k)) htaken
        simpa [FitsLonger, patternLeft, textLeft, hstar] using hsplit
      · obtain rfl := Option.some.inj hr
        exact ⟨[], List.not_mem_nil, rfl, rfl⟩
  · intro answer hs
    unfold Scan.retry at hs
    split at hs
    · rename_i hstar
      cases hs
      rw [hfits]
      refine iff_of_false Bool.false_ne_true ?_
      rintro ⟨r, hr, -⟩
      simp [hstar] at hr
    · cases hs

/-- Behind the text a longer run leaves too little for what stands between. -/
theorem Sound.not_fitsLonger (h : s.Sound) (ht : ¬ s.read < text.size) : ¬ s.FitsLonger := by
  rintro ⟨r, hr, k, hle, hk, hfits⟩
  obtain ⟨segment, hsegment, hdrop, hread⟩ := h.segment r hr
  rw [hdrop] at hfits
  have hlength := (fits_drop_of_append hsegment hfits).1
  rw [List.length_drop, text.length_toList] at hlength
  omega

/-- **A step keeps the invariant, and an answer is right.** -/
theorem Sound.step (h : s.Sound) : (∀ s', s.step = .inl s' → s'.Sound) ∧
    ∀ answer, s.step = .inr answer → (answer = true ↔ Fits pattern.toList text.toList) := by
  unfold Scan.step
  split_ifs with ht hp hstar htakes
  · refine ⟨fun s' hs => ?_, fun answer hs => ?_⟩ <;> cases hs
    exact h.passStar hp hstar
  · refine ⟨fun s' hs => ?_, fun answer hs => ?_⟩ <;> cases hs
    exact h.advance hp ht hstar htakes
  · refine h.retry ht ?_
    rw [patternLeft_eq hp, textLeft_eq ht, fits_cons_of_ne hstar]
    rintro ⟨d, rest, heq, htakes', -⟩
    obtain ⟨rfl, -⟩ := List.cons.inj heq
    exact htakes htakes'
  · refine h.retry ht ?_
    rw [textLeft_eq ht, patternLeft, List.drop_eq_nil_iff.2 (by simpa using not_lt.1 hp), fits_nil]
    exact List.cons_ne_nil _ _
  · refine ⟨fun s' hs => ?_, fun answer hs => ?_⟩ <;> cases hs
    rw [h.fits_iff, or_iff_left (h.not_fitsLonger ht), textLeft_eq_nil ht, fits_nil_right]
    rfl

/-- **A scan answers whether the pattern fits.** -/
theorem Sound.run_iff (h : s.Sound) : s.run = true ↔ Fits pattern.toList text.toList := by
  induction s using Scan.run.induct with
  | case1 s s' hs ih =>
    rw [run, hs]
    exact ih (h.step.1 s' hs)
  | case2 s answer hs =>
    rw [run, hs]
    exact h.step.2 answer hs

/-! ### Whole scans -/

/-- Where a scan is after some steps, or its answer. -/
def after (s : Scan pattern text) : Nat → Scan pattern text ⊕ Bool
  | 0 => .inl s
  | n + 1 =>
    match s.step with
    | .inl s' => s'.after n
    | .inr answer => .inr answer

/-- Every scan comes to its answer. -/
theorem exists_after (s : Scan pattern text) : ∃ n, s.after n = .inr s.run := by
  induction s using Scan.run.induct with
  | case1 s s' hs ih =>
    obtain ⟨n, hn⟩ := ih
    refine ⟨n + 1, ?_⟩
    rw [after, run, hs]
    exact hn
  | case2 s answer hs => exact ⟨1, by rw [after, run, hs]⟩

end Scan

/-- **A scan decides whether a pattern fits.** It comes to an answer after some number of steps, its
places never leave pattern and text, and the answer is whether the text can be cut into one piece for
each character of the pattern: any piece for a star, one character for a question mark, and the
character itself else. -/
theorem scan_decides (pattern text : List Char) :
    (∃ n, (Scan.start pattern.toArray text.toArray).after n = .inr (fits pattern text)) ∧
      (∀ n s, (Scan.start pattern.toArray text.toArray).after n = .inl s →
        s.place ≤ pattern.length ∧ s.read ≤ text.length ∧
          ∀ r ∈ s.star, r.1 < pattern.length ∧ r.2 ≤ text.length) ∧
      (fits pattern text = true ↔ Fits pattern text) := by
  refine ⟨Scan.exists_after _, fun n s _ => ⟨s.place_le, s.read_le, fun r hr => ?_⟩,
    (Scan.sound_start _ _).run_iff⟩
  obtain ⟨hplace, hread⟩ := s.star_lt r hr
  exact ⟨hplace.trans_le s.place_le, hread.trans s.read_le⟩

/-- The second star has to take two characters before what is behind it fits. -/
theorem scan_of_two_stars :
    (∃ s, (Scan.start #['a', '*', 'b', '*', 'c'] #['a', 'b', 'b', 'a', 'c']).after 3 = .inl s ∧
      s.place ≤ 5 ∧ s.star = some (1, 1)) ∧
    fits ['a', '*', 'b', '*', 'c'] ['a', 'b', 'b', 'a', 'c'] = true := by
  obtain ⟨-, hplaces, hfits⟩ := scan_decides ['a', '*', 'b', '*', 'c'] ['a', 'b', 'b', 'a', 'c']
  refine ⟨⟨_, rfl, (hplaces 3 _ rfl).1, rfl⟩,
    hfits.2 ⟨[['a'], [], ['b'], ['b', 'a'], ['c']], ?_, rfl⟩⟩
  exact .cons (.self _) (.cons (.star _) (.cons (.self _) (.cons (.star _) (.cons (.self _) .nil))))

end Mdao.Wildcard
