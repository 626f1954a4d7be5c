import Mathlib
import Mdao.Proofs.Measure.Meaning

/-!
# Products of unit expressions

Two expressions with `*` between them have the pieces of the one and then those of the other, up to
blanks (`Measure.Pieces.join`): none of the marks around the new one is read together with it, because
the last piece of the first expression is not empty and the first piece of the second does not start
with `^`. So the product of two expressions measures the product of what they measure
(`Measure.parse_join`), and `Measure.parse_spec` says in one what is read and what it means.
-/

namespace Mdao

open Text

namespace Measure

/-! ### Marks at the joint -/

/-- A text without `*` is read as it is. -/
theorem MarksRead.of_notMem {cs : List Char} (h : '*' ∉ cs) : MarksRead cs cs := by
  induction cs with
  | nil => exact .nil
  | cons c cs ih =>
    refine .other (fun hc => absurd (by simp [hc]) h) (ih fun hmem => h ?_)
    exact List.mem_cons_of_mem _ hmem

theorem MarksRead.eq_nil {out : List Char} (h : MarksRead [] out) : out = [] := by
  cases h
  rfl

/-- Texts are read apart, unless a `*` meets another at the joint. -/
theorem MarksRead.append {a out b out' : List Char} (ha : MarksRead a out)
    (hb : MarksRead b out') (h : out.getLast? = some '*' → b.head? ≠ some '*') :
    MarksRead (a ++ b) (out ++ out') := by
  induction ha with
  | nil => exact hb
  | @power cs out _ ih =>
    refine .power (ih fun hlast => h ?_)
    rw [List.getLast?_cons, hlast]
    rfl
  | @other c cs out hc hread ih =>
    refine .other (fun hstar => ?_) (ih fun hlast => h ?_)
    · rcases hread with _ | ⟨_⟩ | ⟨_, _⟩
      · exact h (by rw [hstar]; rfl)
      · exact hc hstar
      · exact hc hstar
    · rw [List.getLast?_cons, hlast]
      rfl

/-- What starts with a `*` is read as something that starts with a `*` or `^`. -/
theorem MarksRead.head? {cs out : List Char} (h : MarksRead cs out) (hstar : cs.head? = some '*') :
    out.head? = some '^' ∨ out.head? = some '*' := by
  cases h with
  | nil => cases hstar
  | power => exact .inl rfl
  | other => exact .inr hstar

/-- A `*` and blanks may stand before a text that is not read as starting with `*` or `^`. -/
theorem MarksRead.behind_star {cs out blanks : List Char} (h : MarksRead cs out)
    (hblanks : Blanks blanks) (hhead : ∀ c ∈ out.head?, c ≠ '*' ∧ c ≠ '^') :
    MarksRead ('*' :: (blanks ++ cs)) ('*' :: (blanks ++ out)) := by
  have hstar : '*' ∉ blanks := hblanks.notMem (by decide)
  refine .other (fun _ hjoint => ?_)
    ((MarksRead.of_notMem hstar).append h fun hlast => absurd (List.mem_of_getLast? hlast) hstar)
  rcases List.eq_nil_or_concat blanks with rfl | ⟨_, _, rfl⟩
  · rcases h.head? hjoint with hcaret | hstar
    · exact (hhead _ hcaret).2 rfl
    · exact (hhead _ hstar).1 rfl
  · rw [List.head?_append_of_ne_nil _ (by simp)] at hjoint
    exact hstar (List.mem_of_mem_head? hjoint)

/-- What ends in a piece that is not empty does not end in a `*`. -/
theorem getLast?_marked {first : List Char} {rest : List (Sign × List Char)}
    (hfirst : first ≠ [] ∧ Unmarked first) (hrest : ∀ f ∈ rest, f.2 ≠ [] ∧ Unmarked f.2) :
    (first ++ marked rest).getLast? ≠ some '*' := by
  induction rest generalizing first with
  | nil =>
    intro hlast
    rw [marked_nil, List.append_nil] at hlast
    exact hfirst.2.1 (List.mem_of_getLast? hlast)
  | cons f rest ih =>
    have hf := hrest _ List.mem_cons_self
    have hne : f.2 ++ marked rest ≠ [] := by simp [hf.1]
    rw [marked_cons, List.getLast?_append, List.getLast?_cons_of_ne_nil hne]
    intro hlast
    refine ih hf (fun g hg => hrest g (List.mem_cons_of_mem _ hg)) ?_
    rw [List.getLast?_eq_some_getLast hne] at hlast ⊢
    exact hlast

/-! ### Pieces at the joint -/

/-- The same signs, and more blanks around the texts. -/
def MoreBlanks (p q : Sign × List Char) : Prop := q.1 = p.1 ∧ Padded p.2 q.2

/-- More blanks around pieces bring no marks, and no piece becomes empty. -/
theorem kept_of_moreBlanks {ps qs : List (Sign × List Char)} (h : List.Forall₂ MoreBlanks ps qs)
    (hps : ∀ p ∈ ps, p.2 ≠ [] ∧ Unmarked p.2) : ∀ q ∈ qs, q.2 ≠ [] ∧ Unmarked q.2 := by
  induction h with
  | nil => simp
  | @cons p q _ _ hpq _ ih =>
    obtain ⟨⟨hne, hstar, hslash⟩, hps⟩ := List.forall_mem_cons.1 hps
    obtain ⟨-, hpadded⟩ := hpq
    refine List.forall_mem_cons.2 ⟨⟨fun hnil => hne ?_, hpadded.notMem (by decide) hstar,
      hpadded.notMem (by decide) hslash⟩, ih hps⟩
    obtain ⟨x, y, -, -, heq⟩ := hpadded
    simp_all

/-- Blanks at the end of a text belong to its last piece. -/
theorem marked_append_blanks (first : List Char) (rest : List (Sign × List Char)) {blanks : List Char}
    (h : Blanks blanks) : ∃ first' rest', Padded first first' ∧
      List.Forall₂ MoreBlanks rest rest' ∧ first ++ marked rest ++ blanks = first' ++ marked rest' := by
  induction rest generalizing first with
  | nil => exact ⟨first ++ blanks, [], ⟨[], blanks, .nil, h, rfl⟩, .nil, by simp⟩
  | cons f rest ih =>
    obtain ⟨text, rest', htext, hrest, heq⟩ := ih f.2
    refine ⟨first, (f.1, text) :: rest', .refl _, .cons ⟨rfl, htext⟩ hrest, ?_⟩
    rw [marked_cons, marked_cons, ← heq]
    simp

/-- The pieces of a product are those of the one expression and then those of the other, up to
blanks. -/
theorem Pieces.join {a b : String} {ps qs : List (Sign × List Char)} (ha : Pieces a ps)
    (hb : Pieces b qs) (hps : ∀ p ∈ ps, p.2 ≠ []) (hqs : ∀ q ∈ qs, ∃ c ∈ q.2.head?, c ≠ '^') :
    ∃ pieces, Pieces (a ++ "*" ++ b) pieces ∧ List.Forall₂ MoreBlanks (ps ++ qs) pieces := by
  obtain ⟨core, text, first, rest, hcore, ⟨p, q, hp, hq, hpadded⟩, hread, hfirst, hrest, rfl, rfl⟩ := ha
  obtain ⟨core', text', first', rest', hcore', ⟨p', q', hp', hq', hpadded'⟩, hread', hfirst', hrest',
    rfl, rfl⟩ := hb
  obtain ⟨last, more, hlast, hmore, heq⟩ := marked_append_blanks first rest hq
  obtain ⟨c, hhead, hc⟩ := hqs _ List.mem_cons_self
  obtain ⟨tail, rfl⟩ := List.head?_eq_some_iff.1 (Option.mem_def.1 hhead)
  have hne : core ≠ [] := by
    rintro rfl
    exact hps _ List.mem_cons_self (List.append_eq_nil_iff.1 hread.eq_nil).1
  have hne' : core' ≠ [] := by
    rintro rfl
    cases hread'.eq_nil
  have hstar : isBlank '*' = false := by decide
  have hpieces : List.Forall₂ MoreBlanks ((.times, first) :: rest) ((.times, last) :: more) :=
    .cons ⟨rfl, hlast⟩ hmore
  have hkept : ∀ f ∈ (Sign.times, last) :: more, f.2 ≠ [] ∧ Unmarked f.2 :=
    kept_of_moreBlanks hpieces fun f hf =>
      ⟨hps f hf, (List.forall_mem_cons (p := fun f => Unmarked f.2)).2 ⟨hfirst, hrest⟩ f hf⟩
  obtain ⟨hkeptLast, hkeptMore⟩ := List.forall_mem_cons.1 hkept
  -- no `*` of the expressions is next to the new one
  have hleft : MarksRead (core ++ q) (last ++ marked more) := by
    rw [← heq]
    refine hread.append (.of_notMem (hq.notMem hstar)) fun _ hhead => ?_
    exact hq.notMem hstar (List.mem_of_mem_head? hhead)
  have hright : MarksRead ('*' :: (p' ++ core')) ('*' :: (p' ++ (c :: tail ++ marked rest'))) := by
    refine hread'.behind_star hp' fun d hd => ?_
    obtain rfl : c = d := Option.some.inj hd
    exact ⟨fun hstar => hfirst'.1 (by simp [hstar]), hc⟩
  have hstripped : Stripped (core ++ q ++ '*' :: (p' ++ core')) := by
    simpa using hcore.around hcore' hne hne' (q ++ '*' :: p')
  refine ⟨(.times, last) :: (more ++ (.times, p' ++ c :: tail) :: rest'),
    ⟨core ++ q ++ '*' :: (p' ++ core'), _, last, more ++ (.times, p' ++ c :: tail) :: rest',
      hstripped, ⟨p, q', hp, hq', ?_⟩,
      hleft.append hright fun h => absurd h (getLast?_marked hkeptLast hkeptMore), hkeptLast.2,
      ?_, ?_, rfl⟩, ?_⟩
  · simp [hpadded, hpadded']
  · refine List.forall_mem_append.2 ⟨fun f hf => (hkeptMore f hf).2, List.forall_mem_cons.2 ⟨?_, hrest'⟩⟩
    exact (Unmarked.of_blanks hp').append hfirst'
  · simp [Sign.mark]
  · exact .cons ⟨rfl, hlast⟩ (List.rel_append hmore (.cons ⟨rfl, p', [], hp', .nil, by simp⟩
      (List.forall₂_same.2 fun f _ => ⟨rfl, .refl _⟩)))

/-! ### Factors at the joint -/

section

variable {α : Type} [Scalar α]

/-- More blanks may stand around a factor. -/
theorem Factor.Written.pad {f : Factor α} {a b : List Char} (h : f.Written a) (hpad : Padded a b) :
    f.Written b := by
  cases h with
  | alone hpower hname => exact .alone hpower (hname.trans hpad)
  | @power a ds digits hname hds hnumeral =>
    obtain ⟨p, q, hp, hq, rfl⟩ := hpad
    have hleft : Padded f.symbol.name.toList (p ++ a) := hname.trans ⟨p, [], hp, .nil, by simp⟩
    have hright : Padded digits (ds ++ q) := hds.trans ⟨[], q, .nil, hq, by simp⟩
    rw [show p ++ (a ++ '^' :: ds) ++ q = (p ++ a) ++ '^' :: (ds ++ q) by simp]
    exact .power hleft hright hnumeral

/-- A text of a factor starts with a blank or with the name. -/
theorem Factor.Written.head? {f : Factor α} {text : List Char} (h : f.Written text) :
    ∃ c ∈ text.head?, c ≠ '^' := by
  have hname : ∀ {a : List Char}, Padded f.symbol.name.toList a → ∃ c ∈ a.head?, c ≠ '^' := by
    intro a ha
    have hcaret := caret_notMem f.known ha
    obtain ⟨p, q, -, -, rfl⟩ := ha
    obtain ⟨c, tail, htext⟩ : ∃ c tail, p ++ f.symbol.name.toList ++ q = c :: tail :=
      List.exists_cons_of_ne_nil (by simp [(name_of_known f.known).1])
    rw [htext] at hcaret ⊢
    exact ⟨c, rfl, fun heq => hcaret (by simp [heq])⟩
  cases h with
  | alone _ ha => exact hname ha
  | power ha _ _ =>
    obtain ⟨c, hc, hne⟩ := hname ha
    exact ⟨c, by rw [List.head?_append, Option.mem_def.1 hc]; rfl, hne⟩

/-- Pieces with more blanks write the same factors. -/
theorem written_of_moreBlanks {ps qs : List (Sign × List Char)} {terms : List (Sign × Factor α)}
    (hmore : List.Forall₂ MoreBlanks ps qs)
    (h : List.Forall₂ (fun p t => p.1 = t.1 ∧ t.2.Written p.2) ps terms) :
    List.Forall₂ (fun p t => p.1 = t.1 ∧ t.2.Written p.2) qs terms := by
  induction hmore generalizing terms with
  | nil =>
    cases h
    exact .nil
  | cons hpq _ ih =>
    cases h with
    | cons hpt hrest => exact .cons ⟨hpq.1.trans hpt.1, hpt.2.pad hpq.2⟩ (ih hrest)

/-- No piece that writes a factor is empty or starts with `^`. -/
theorem head?_of_written {ps : List (Sign × List Char)} {ts : List (Sign × Factor α)}
    (h : List.Forall₂ (fun p t => p.1 = t.1 ∧ t.2.Written p.2) ps ts) :
    ∀ p ∈ ps, ∃ c ∈ p.2.head?, c ≠ '^' := by
  induction h with
  | nil => simp
  | cons hpt _ ih => exact List.forall_mem_cons.2 ⟨hpt.2.head?, ih⟩

/-- The product of two expressions writes the factors of the one and then those of the other. -/
theorem Writes.join {a b : String} {ts us : List (Sign × Factor α)} (ha : Writes a ts)
    (hb : Writes b us) : Writes (a ++ "*" ++ b) (ts ++ us) := by
  obtain ⟨ps, hps, hts⟩ := ha
  obtain ⟨qs, hqs, hus⟩ := hb
  have hne : ∀ p ∈ ps, p.2 ≠ [] := by
    intro p hp hnil
    obtain ⟨c, hc, -⟩ := head?_of_written hts p hp
    rw [hnil] at hc
    cases hc
  obtain ⟨pieces, hpieces, hmore⟩ := hps.join hqs hne (head?_of_written hus)
  exact ⟨pieces, hpieces, written_of_moreBlanks hmore (List.rel_append hts hus)⟩

end

/-! ### The product -/

section

variable {α β : Type} [Scalar α] [ExactScalar β]

/-- Something is written in each expression that can be read. -/
theorem Writes.ne_nil {a : String} {ts : List (Sign × Factor α)} (h : Writes a ts) : ts ≠ [] := by
  obtain ⟨pieces, ⟨_, _, _, _, _, _, _, _, _, _, rfl⟩, hterms⟩ := h
  cases hterms
  simp

/-- **The product of two expressions measures the product** of what they measure. -/
theorem parse_join {a b : String} {m m' : Measure β} (ha : parse a = .ok m)
    (hb : parse b = .ok m') :
    parse (a ++ "*" ++ b) = .ok ⟨m.scale * m'.scale, 0, m.dimension.mul m'.dimension⟩ := by
  obtain ⟨ts, hts, rfl⟩ := parse_eq_ok_iff.1 ha
  obtain ⟨us, hus, rfl⟩ := parse_eq_ok_iff.1 hb
  have hsize : size (ts ++ us) = size ts * size us := by
    simp only [size_eq, List.map_append, List.prod_append]
  have hexponents : exponents (ts ++ us) = exponents ts + exponents us := by
    simp only [exponents, List.map_append, List.sum_append]
  have hzero : zeroPoint (ts ++ us) = 0 := by
    obtain ⟨t, ts, rfl⟩ := List.exists_cons_of_ne_nil hts.ne_nil
    obtain ⟨u, us, rfl⟩ := List.exists_cons_of_ne_nil hus.ne_nil
    cases ts <;> rfl
  rw [(hts.join hus).parse_eq, meaning, hsize, hexponents, hzero, Dimension.wrap_add]
  rfl

/-- **What is read from an expression, and what it means.** The measure is that of the factors written
there, or the error is the first defect; dimensions are the sums of the exponents as long as these
fit a word, and without rounding the size is a product of powers and `*` between two expressions
multiplies what they measure. -/
theorem parse_spec (expression : String) :
    (∀ m : Measure α, parse expression = .ok m ↔
      ∃ terms : List (Sign × Factor α), Writes expression terms ∧ m = meaning terms) ∧
    (∀ e, (parse expression : Except UnitsError (Measure α)) = .error e ↔
      FirstDefect α expression e) ∧
    (∀ terms : List (Sign × Factor α), (∀ i, FitsWord (exponents terms i)) →
      (meaning terms).dimension.exponents = exponents terms) ∧
    (∀ terms : List (Sign × Factor β), (meaning terms).scale =
      (terms.map fun t => t.2.symbol.scale ^ t.1.signed t.2.power).prod) ∧
    (∀ (other : String) (m m' : Measure β), parse expression = .ok m → parse other = .ok m' →
      parse (expression ++ "*" ++ other) =
        .ok ⟨m.scale * m'.scale, 0, m.dimension.mul m'.dimension⟩) :=
  ⟨fun _ => parse_eq_ok_iff, fun _ => parse_eq_error_iff, fun _ h => Dimension.exponents_wrap h,
    size_eq, fun _ _ _ => parse_join⟩

deriving instance DecidableEq for Measure

/-- Newton times metre is a joule. -/
theorem parse_newton_metre :
    (parse "N" : Except UnitsError (Measure ℚ)) =
      .ok ⟨1, 0, { length := 1, mass := 1, time := -2 }⟩ ∧
    (parse "m" : Except UnitsError (Measure ℚ)) = .ok ⟨1, 0, { length := 1 }⟩ ∧
    (parse ("N" ++ "*" ++ "m") : Except UnitsError (Measure ℚ)) =
      .ok ⟨1, 0, { length := 2, mass := 1, time := -2 }⟩ := by
  have hnewton : (parse "N" : Except UnitsError (Measure ℚ)) =
      .ok ⟨1, 0, { length := 1, mass := 1, time := -2 }⟩ := by decide +kernel
  have hmetre : (parse "m" : Except UnitsError (Measure ℚ)) = .ok ⟨1, 0, { length := 1 }⟩ := by
    decide +kernel
  have hproduct := (parse_spec (α := ℚ) "N").2.2.2.2 "m" _ _ hnewton hmetre
  exact ⟨hnewton, hmetre, hproduct.trans (congrArg Except.ok (by decide +kernel))⟩

end

end Measure

end Mdao
