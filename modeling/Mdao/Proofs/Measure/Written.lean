import Mathlib
import Mdao.Measure
import Mdao.Proofs.Text

/-!
# How unit expressions are written

The grammar of unit expressions, apart from what reads them:

* a `Factor` is a known symbol with a whole exponent that fits a word of 32 bits; `Factor.Written` are
  its texts, the symbol alone or with `^` and a `Numeral` behind it, and blanks around either;
* `MarksRead` reads each `**` of a text as `^`, from the left, and the pieces of a text are what stands
  between the marks `*` and `/` that are left (`Pieces`);
* a `Defect` of a piece says in which way it is no factor.

The steps of the reading are these rules: `joinStars_eq_iff`, `pieces_iff`, `exponent?_eq_some_iff`,
and **a piece is read as the factor that it writes, or else its defect is found**
(`factor_eq_ok_iff`, `factor_eq_error_iff`).
-/

namespace Mdao

open Text

/-- Whether a whole number fits a word of 32 bits. -/
def FitsWord (n : ℤ) : Prop := -2147483648 ≤ n ∧ n ≤ 2147483647

namespace Measure

/-! ### Numerals -/

/-- A run of decimal digits and its value. -/
inductive Digits : List Char → ℕ → Prop
  | one {c : Char} : c.isDigit = true → Digits [c] (c.toNat - '0'.toNat)
  | snoc {ds : List Char} {n : ℕ} {c : Char} : Digits ds n → c.isDigit = true →
      Digits (ds ++ [c]) (10 * n + (c.toNat - '0'.toNat))

/-- Digits with an optional sign, and the whole number they stand for. -/
inductive Numeral : List Char → ℤ → Prop
  | bare {ds : List Char} {n : ℕ} : Digits ds n → Numeral ds n
  | plus {ds : List Char} {n : ℕ} : Digits ds n → Numeral ('+' :: ds) n
  | minus {ds : List Char} {n : ℕ} : Digits ds n → Numeral ('-' :: ds) (-n)

theorem digits?_eq_some {cs : List Char} {n : ℕ} : digits? cs = some n ↔
    (cs ≠ [] ∧ ∀ c ∈ cs, c.isDigit = true) ∧
      cs.foldl (fun n c => 10 * n + (c.toNat - '0'.toNat)) 0 = n := by
  unfold digits?
  split_ifs with h
  · have hnot : ¬ (cs ≠ [] ∧ ∀ c ∈ cs, c.isDigit = true) := by
      rintro ⟨hne, hall⟩
      simp [hne, List.all_eq_true.2 hall] at h
    simp [hnot]
  · have hall : cs ≠ [] ∧ ∀ c ∈ cs, c.isDigit = true := by simpa using h
    rw [Option.some.injEq, iff_true_intro hall, true_and]

theorem Digits.ne_nil {cs : List Char} {n : ℕ} (h : Digits cs n) : cs ≠ [] := by
  cases h <;> simp

theorem Digits.isDigit {cs : List Char} {n : ℕ} (h : Digits cs n) : ∀ c ∈ cs, c.isDigit = true := by
  induction h with
  | one hc => simpa using hc
  | snoc _ hc ih =>
    intro d hd
    rcases List.mem_append.1 hd with hd | hd
    · exact ih d hd
    · rwa [List.mem_singleton.1 hd]

/-- **A run of digits is read as its value.** -/
theorem digits?_eq_some_iff {cs : List Char} {n : ℕ} : digits? cs = some n ↔ Digits cs n := by
  rw [digits?_eq_some]
  constructor
  · rintro ⟨⟨hne, hall⟩, rfl⟩
    induction cs using List.reverseRecOn with
    | nil => exact absurd rfl hne
    | append_singleton ds c ih =>
      have hc : c.isDigit = true := hall c (by simp)
      rw [List.foldl_append]
      by_cases hds : ds = []
      · subst hds
        simpa using Digits.one hc
      · exact .snoc (ih hds fun d hd => hall d (by simp [hd])) hc
  · intro h
    refine ⟨⟨h.ne_nil, h.isDigit⟩, ?_⟩
    induction h with
    | one => simp
    | snoc _ _ ih => rw [List.foldl_append, ih]; rfl

/-- No sign is a digit. -/
theorem Digits.first {c : Char} {cs : List Char} {n : ℕ} (h : Digits (c :: cs) n) :
    c ≠ '+' ∧ c ≠ '-' := by
  have hc := h.isDigit c List.mem_cons_self
  constructor
  · rintro rfl
    exact absurd hc (by decide)
  · rintro rfl
    exact absurd hc (by decide)

/-- What is read as an exponent is a numeral that fits a word. -/
theorem numeral_of_exponent? {cs : List Char} {w : Int32} (h : exponent? cs = some w) :
    ∃ n, Numeral cs n ∧ FitsWord n ∧ w = Int32.ofInt n := by
  unfold exponent? at h
  dsimp only at h
  split at h
  · rename_i n hvalue
    have hn : Numeral cs n := by
      split at hvalue
      · obtain ⟨k, hk, rfl⟩ := Option.map_eq_some_iff.1 hvalue
        exact .plus (digits?_eq_some_iff.1 hk)
      · obtain ⟨_, hread, rfl⟩ := Option.map_eq_some_iff.1 hvalue
        obtain ⟨k, hk, heq⟩ := Option.bind_eq_some_iff.1 hread
        cases heq
        exact .minus (digits?_eq_some_iff.1 hk)
      · obtain ⟨k, hk, rfl⟩ := Option.map_eq_some_iff.1 hvalue
        exact .bare (digits?_eq_some_iff.1 hk)
    split_ifs at h with hfits
    exact ⟨n, hn, hfits, (Option.some.inj h).symm⟩
  · cases h

/-- A numeral that fits a word is read as an exponent. -/
theorem exponent?_of_numeral {cs : List Char} {n : ℤ} (h : Numeral cs n) (hfits : FitsWord n) :
    exponent? cs = some (Int32.ofInt n) := by
  cases h with
  | plus hds =>
    simp only [exponent?, digits?_eq_some_iff.2 hds, Option.map_some]
    exact if_pos hfits
  | minus hds =>
    simp only [exponent?, digits?_eq_some_iff.2 hds, Option.map_some, Option.bind_eq_bind,
      Option.bind_some, Option.pure_def]
    exact if_pos hfits
  | bare hds =>
    -- a digit is no sign
    obtain ⟨c, rest, rfl⟩ := List.exists_cons_of_ne_nil hds.ne_nil
    obtain ⟨hplus, hminus⟩ := hds.first
    simp only [exponent?, List.cons.injEq, hplus, hminus, false_and, imp_self, implies_true,
      digits?_eq_some_iff.2 hds, Option.map_some]
    exact if_pos hfits

/-- **An exponent is a numeral that fits a word.** -/
theorem exponent?_eq_some_iff {cs : List Char} {w : Int32} : exponent? cs = some w ↔
    ∃ n, Numeral cs n ∧ FitsWord n ∧ w = Int32.ofInt n := by
  refine ⟨numeral_of_exponent?, ?_⟩
  rintro ⟨n, hn, hfits, rfl⟩
  exact exponent?_of_numeral hn hfits

/-- No numeral has blanks at its ends. -/
theorem Numeral.stripped {cs : List Char} {n : ℤ} (h : Numeral cs n) : Stripped cs := by
  have hdigit : ∀ c : Char, c.isDigit = true → isBlank c = false := by
    intro c hc
    simp only [Char.isDigit, Bool.and_eq_true, decide_eq_true_eq] at hc
    have hlow : 48 ≤ c.toNat := hc.1
    have hhigh : c.toNat ≤ 57 := hc.2
    simp only [isBlank, Bool.or_eq_false_iff, Bool.and_eq_false_iff, decide_eq_false_iff_not,
      beq_eq_false_iff_ne]
    omega
  have hds : ∀ {ds : List Char} {k : ℕ}, Digits ds k → ∀ c ∈ ds, isBlank c = false :=
    fun hk c hc => hdigit c (hk.isDigit c hc)
  have hall : ∀ c ∈ cs, isBlank c = false := by
    cases h with
    | bare hk => exact hds hk
    | plus hk => exact List.forall_mem_cons.2 ⟨by decide, hds hk⟩
    | minus hk => exact List.forall_mem_cons.2 ⟨by decide, hds hk⟩
  exact ⟨fun c hc => hall c (List.mem_of_mem_head? hc), fun c hc => hall c (List.mem_of_getLast? hc)⟩

/-! ### Marks -/

/-- Each `**` is read as `^`, from the left; a `*` that stays has no other behind it. -/
inductive MarksRead : List Char → List Char → Prop
  | nil : MarksRead [] []
  | power {cs out : List Char} : MarksRead cs out → MarksRead ('*' :: '*' :: cs) ('^' :: out)
  | other {c : Char} {cs out : List Char} : (c = '*' → cs.head? ≠ some '*') → MarksRead cs out →
      MarksRead (c :: cs) (c :: out)

theorem joinStars_cons {c : Char} {cs : List Char} (h : c = '*' → cs.head? ≠ some '*') :
    joinStars (c :: cs) = c :: joinStars cs := by
  rw [joinStars.eq_def]
  split
  · rename_i heq
    cases heq
    exact absurd rfl (h rfl)
  · rename_i heq
    cases heq
    rfl
  · rename_i heq
    cases heq

/-- **Stars are joined by these rules.** -/
theorem joinStars_eq_iff {cs out : List Char} : joinStars cs = out ↔ MarksRead cs out := by
  constructor
  · rintro rfl
    induction cs using joinStars.induct with
    | case1 rest ih => exact .power ih
    | case2 c rest hnot ih =>
      have hhead : c = '*' → rest.head? ≠ some '*' := by
        rintro rfl hhead
        obtain ⟨tail, rfl⟩ := List.head?_eq_some_iff.1 hhead
        exact hnot tail rfl rfl
      rw [joinStars_cons hhead]
      exact .other hhead ih
    | case3 => exact .nil
  · intro h
    induction h with
    | nil => rfl
    | power _ ih => exact congrArg _ ih
    | other hhead _ ih => rw [joinStars_cons hhead, ih]

/-- A mark in front of a factor. -/
def Sign.mark : Sign → Char
  | .times => '*'
  | .over => '/'

/-- Pieces of a text, each behind its mark. -/
def marked (fs : List (Sign × List Char)) : List Char := fs.flatMap fun f => f.1.mark :: f.2

@[simp] theorem marked_nil : marked [] = [] := rfl

@[simp] theorem marked_cons (f : Sign × List Char) (fs : List (Sign × List Char)) :
    marked (f :: fs) = f.1.mark :: (f.2 ++ marked fs) := rfl

@[simp] theorem marked_append (fs gs : List (Sign × List Char)) :
    marked (fs ++ gs) = marked fs ++ marked gs := List.flatMap_append

/-- A text without marks. -/
def Unmarked (cs : List Char) : Prop := '*' ∉ cs ∧ '/' ∉ cs

theorem Unmarked.append {a b : List Char} (ha : Unmarked a) (hb : Unmarked b) :
    Unmarked (a ++ b) :=
  ⟨by simp [ha.1, hb.1], by simp [ha.2, hb.2]⟩

theorem Unmarked.of_blanks {cs : List Char} (h : Blanks cs) : Unmarked cs :=
  ⟨h.notMem (by decide), h.notMem (by decide)⟩

/-- A text without marks belongs to the first piece of what follows it. -/
theorem factors_append {sign sign' : Sign} {first text tail : List Char}
    {more : List (Sign × List Char)} (hfirst : Unmarked first)
    (htail : factors sign tail = (sign', text) :: more) :
    factors sign (first ++ tail) = (sign', first ++ text) :: more := by
  induction first with
  | nil => exact htail
  | cons c first ih =>
    obtain ⟨hstar, hslash⟩ := hfirst
    have hrest := ih ⟨fun h => hstar (List.mem_cons_of_mem _ h),
      fun h => hslash (List.mem_cons_of_mem _ h)⟩
    rw [List.cons_append, factors, if_neg fun h => hstar (by simp [h]),
      if_neg fun h => hslash (by simp [h]), hrest]
    rfl

/-- A mark ends an empty piece and gives the next sign. -/
theorem factors_mark (sign next : Sign) (cs : List Char) :
    factors sign (next.mark :: cs) = (sign, []) :: factors next cs := by
  obtain _ | _ := next
  · rw [Sign.mark, factors, if_pos rfl]
  · rw [Sign.mark, factors, if_neg (by decide), if_pos rfl]

/-- Pieces without marks are found as they are. -/
theorem factors_marked {sign : Sign} {first : List Char} {rest : List (Sign × List Char)}
    (hfirst : Unmarked first) (hrest : ∀ f ∈ rest, Unmarked f.2) :
    factors sign (first ++ marked rest) = (sign, first) :: rest := by
  induction rest generalizing sign first with
  | nil =>
    have hnone : factors sign [] = [(sign, [])] := rfl
    simpa using factors_append hfirst hnone
  | cons f rest ih =>
    obtain ⟨next, text⟩ := f
    obtain ⟨htext, hrest⟩ := List.forall_mem_cons.1 hrest
    have hmark : factors sign (marked ((next, text) :: rest)) =
        (sign, []) :: (next, text) :: rest := by
      rw [marked_cons, factors_mark, ih htext hrest]
    simpa using factors_append hfirst hmark

/-- Every text is made of pieces without marks. -/
theorem exists_marked (cs : List Char) : ∃ first rest, Unmarked first ∧
    (∀ f ∈ rest, Unmarked f.2) ∧ cs = first ++ marked rest := by
  induction cs with
  | nil => exact ⟨[], [], ⟨by simp, by simp⟩, by simp, rfl⟩
  | cons c cs ih =>
    obtain ⟨first, rest, hfirst, hrest, rfl⟩ := ih
    have hmark : ∀ s : Sign, ∃ first' rest', Unmarked first' ∧ (∀ f ∈ rest', Unmarked f.2) ∧
        s.mark :: (first ++ marked rest) = first' ++ marked rest' := fun s =>
      ⟨[], (s, first) :: rest, ⟨by simp, by simp⟩, List.forall_mem_cons.2 ⟨hfirst, hrest⟩, rfl⟩
    by_cases hstar : c = '*'
    · exact hstar ▸ hmark .times
    · by_cases hslash : c = '/'
      · exact hslash ▸ hmark .over
      · refine ⟨c :: first, rest, ⟨?_, ?_⟩, hrest, rfl⟩
        · simpa [hfirst.1] using Ne.symm hstar
        · simpa [hfirst.2] using Ne.symm hslash

/-- The pieces of an expression, each with its sign: without the blanks at its ends and with each `**`
read as `^`, it is its first piece and then the others, each behind its mark. -/
def Pieces (expression : String) (pieces : List (Sign × List Char)) : Prop :=
  ∃ core text first rest, Stripped core ∧ Padded core expression.toList ∧ MarksRead core text ∧
    Unmarked first ∧ (∀ f ∈ rest, Unmarked f.2) ∧ text = first ++ marked rest ∧
    pieces = (.times, first) :: rest

/-- **An expression is split into its pieces.** -/
theorem pieces_iff {expression : String} {pieces : List (Sign × List Char)} :
    Pieces expression pieces ↔
      factors .times (joinStars (trim expression.toList)) = pieces := by
  constructor
  · rintro ⟨core, text, first, rest, hcore, hpadded, hread, hfirst, hrest, rfl, rfl⟩
    rw [trim_eq_iff.2 ⟨hcore, hpadded⟩, joinStars_eq_iff.2 hread, factors_marked hfirst hrest]
  · rintro rfl
    obtain ⟨hcore, hpadded⟩ := trim_eq_iff.1 (Eq.refl (trim expression.toList))
    obtain ⟨first, rest, hfirst, hrest, htext⟩ :=
      exists_marked (joinStars (trim expression.toList))
    refine ⟨_, _, first, rest, hcore, hpadded, joinStars_eq_iff.1 rfl, hfirst, hrest, htext, ?_⟩
    rw [htext, factors_marked hfirst hrest]

/-! ### Factors -/

/-- A known symbol with a whole exponent. -/
structure Factor (α : Type) [Scalar α] where
  /-- The symbol. -/
  symbol : UnitSymbol α
  /-- The exponent. -/
  power : ℤ
  /-- The symbol is known. -/
  known : symbol ∈ UnitSymbol.all
  /-- The exponent fits a word. -/
  fits : FitsWord power

section

variable {α : Type} [Scalar α]

/-- The texts of a factor. -/
inductive Factor.Written (f : Factor α) : List Char → Prop
  | alone {text : List Char} : f.power = 1 → Padded f.symbol.name.toList text → f.Written text
  | power {a b ds : List Char} : Padded f.symbol.name.toList a → Padded ds b →
      Numeral ds f.power → f.Written (a ++ '^' :: b)

/-- No known symbol is written like this. -/
def IsUnknown (α : Type) [Scalar α] (name : List Char) : Prop :=
  ∀ s ∈ (UnitSymbol.all : List (UnitSymbol α)), s.name.toList ≠ name

/-- In which way a piece of an expression is no factor. -/
inductive Defect (α : Type) [Scalar α] (expression : String) : List Char → UnitsError → Prop
  | empty {text : List Char} : Blanks text → Defect α expression text (.malformed expression)
  | exponent {a b : List Char} : '^' ∉ a →
      (∀ ds n, Padded ds b → Numeral ds n → ¬ FitsWord n) →
      Defect α expression (a ++ '^' :: b) (.malformed expression)
  | symbol {name text : List Char} : '^' ∉ text → ¬ Blanks text → Stripped name →
      Padded name text → IsUnknown α name →
      Defect α expression text (.unknown (String.ofList name))
  | base {name a b ds : List Char} {n : ℤ} : '^' ∉ a → Stripped name → Padded name a →
      Padded ds b → Numeral ds n → FitsWord n → IsUnknown α name →
      Defect α expression (a ++ '^' :: b) (.unknown (String.ofList name))

/-! ### Reading a factor -/

/-- The names of the known symbols differ. -/
theorem nodup_names : ((UnitSymbol.all : List (UnitSymbol α)).map UnitSymbol.name).Nodup := by
  simp only [UnitSymbol.all, List.map_cons, List.map_nil]
  decide

/-- The name of a known symbol is a word of letters. -/
theorem name_of_known {s : UnitSymbol α} (hs : s ∈ UnitSymbol.all) :
    s.name.toList ≠ [] ∧ ∀ c ∈ s.name.toList, c.isAlpha = true := by
  have hall : ((UnitSymbol.all : List (UnitSymbol α)).map UnitSymbol.name).all
      (fun name => !name.toList.isEmpty && name.toList.all Char.isAlpha) = true := by
    simp only [UnitSymbol.all, List.map_cons, List.map_nil, List.all_cons, String.reduceToList]
    decide
  simpa using List.all_eq_true.1 hall _ (List.mem_map_of_mem hs)

/-- A letter is neither a blank nor `^`. -/
theorem of_isAlpha {c : Char} (h : c.isAlpha = true) : isBlank c = false ∧ c ≠ '^' := by
  have hcode : 65 ≤ c.toNat ∧ c.toNat ≤ 90 ∨ 97 ≤ c.toNat ∧ c.toNat ≤ 122 := by
    simp only [Char.isAlpha, Char.isUpper, Char.isLower, Bool.or_eq_true, Bool.and_eq_true,
      decide_eq_true_eq] at h
    exact h
  refine ⟨?_, ?_⟩
  · simp only [isBlank, Bool.or_eq_false_iff, Bool.and_eq_false_iff, decide_eq_false_iff_not,
      beq_eq_false_iff_ne]
    omega
  · rintro rfl
    exact absurd h (by decide)

theorem stripped_name {s : UnitSymbol α} (hs : s ∈ UnitSymbol.all) : Stripped s.name.toList :=
  ⟨fun c hc => (of_isAlpha ((name_of_known hs).2 c (List.mem_of_mem_head? hc))).1,
    fun c hc => (of_isAlpha ((name_of_known hs).2 c (List.mem_of_getLast? hc))).1⟩

/-- Blanks around the name of a known symbol bring no `^`. -/
theorem caret_notMem {s : UnitSymbol α} (hs : s ∈ UnitSymbol.all) {text : List Char}
    (h : Padded s.name.toList text) : '^' ∉ text :=
  h.notMem (by decide) fun hmem => (of_isAlpha ((name_of_known hs).2 _ hmem)).2 rfl

/-- A known symbol is found by its name. -/
theorem find?_eq_some_iff {name : List Char} {s : UnitSymbol α} :
    UnitSymbol.find? (String.ofList name) = some s ↔ s ∈ UnitSymbol.all ∧ s.name.toList = name := by
  have hname : ∀ s : UnitSymbol α, (s.name == String.ofList name) = true ↔ s.name.toList = name := by
    intro s
    rw [beq_iff_eq, ← String.toList_inj, String.toList_ofList]
  have hfound : ∀ t : UnitSymbol α, UnitSymbol.find? (String.ofList name) = some t →
      t ∈ UnitSymbol.all ∧ t.name.toList = name := fun t ht =>
    ⟨List.mem_of_find?_eq_some ht,
      (hname t).1 (List.find?_some (p := fun s : UnitSymbol α => s.name == String.ofList name) ht)⟩
  refine ⟨hfound s, fun ⟨hs, hsname⟩ => ?_⟩
  obtain ⟨t, ht⟩ : ∃ t : UnitSymbol α, UnitSymbol.find? (String.ofList name) = some t :=
    Option.isSome_iff_exists.1 (List.find?_isSome.2 ⟨s, hs, (hname s).2 hsname⟩)
  obtain ⟨hmem, htname⟩ := hfound t ht
  have hsame : t.name = s.name := by rw [← String.toList_inj, htname, hsname]
  rw [ht, List.inj_on_of_nodup_map nodup_names hmem hs hsame]

theorem find?_eq_none_iff {name : List Char} :
    (UnitSymbol.find? (String.ofList name) : Option (UnitSymbol α)) = none ↔ IsUnknown α name := by
  constructor
  · intro h s hs heq
    rw [(find?_eq_some_iff (α := α)).2 ⟨hs, heq⟩] at h
    cases h
  · intro h
    refine Option.eq_none_iff_forall_ne_some.2 fun s hs => ?_
    obtain ⟨hmem, heq⟩ := find?_eq_some_iff.1 hs
    exact h s hmem heq

/-- A power of the symbol of a name. -/
def ofName (name : List Char) (n : Int32) : Except UnitsError (Measure α) :=
  match UnitSymbol.find? (String.ofList name) with
  | none => .error (.unknown (String.ofList name))
  | some s => .ok ⟨Scalar.powInt s.scale n.toInt, if n = 1 then s.offset else 0, s.dimension.pow n⟩

/-- A piece without `^` is a name. -/
theorem factor_alone (expression : String) {text : List Char} (h : '^' ∉ text) :
    (factor expression text : Except UnitsError (Measure α)) =
      if trim text = [] then .error (.malformed expression) else ofName (trim text) 1 := by
  have hnone : splitOnce '^' (trim text) = none := by
    obtain ⟨-, a, b, -, -, htext⟩ := trim_eq_iff.1 (Eq.refl (trim text))
    refine splitOnce_eq_none_iff.2 fun hmem => h ?_
    rw [htext]
    simp [hmem]
  simp only [factor, hnone, List.isEmpty_iff]
  rfl

/-- The first `^` of a piece ends the name. -/
theorem factor_power (expression : String) {a b : List Char} (h : '^' ∉ a) :
    (factor expression (a ++ '^' :: b) : Except UnitsError (Measure α)) =
      match exponent? (trim b) with
      | none => .error (.malformed expression)
      | some n => ofName (trim a) n := by
  obtain ⟨text, htext⟩ : ∃ text, trim (a ++ '^' :: b) = text := ⟨_, rfl⟩
  obtain ⟨-, p, q, hp, hq, hpadded⟩ := trim_eq_iff.1 htext
  have hmem : '^' ∈ text := by
    have hall : '^' ∈ p ++ text ++ q := by
      rw [← hpadded]
      simp
    simpa [hp.notMem (show isBlank '^' = false by decide),
      hq.notMem (show isBlank '^' = false by decide)] using hall
  obtain ⟨a', b', rfl, ha'⟩ := List.eq_append_cons_of_mem hmem
  -- the blanks belong to the outer ends of the two parts
  have hsplit := splitOnce_append h b
  have houter : '^' ∉ p ++ a' := by simp [hp.notMem (show isBlank '^' = false by decide), ha']
  rw [hpadded, show p ++ (a' ++ '^' :: b') ++ q = (p ++ a') ++ '^' :: (b' ++ q) by simp,
    splitOnce_append houter] at hsplit
  obtain ⟨rfl, rfl⟩ := Prod.mk.inj (Option.some.inj hsplit)
  have hafter : trim (b' ++ q) = trim b' := by simpa using trim_pad .nil hq
  have hbefore : trim (p ++ a') = trim a' := by simpa using trim_pad hp .nil
  have hne : (a' ++ '^' :: b').isEmpty = false := by simp
  simp only [factor, htext, hne, splitOnce_append ha', hafter, hbefore]
  cases exponent? (trim b') <;> rfl

/-- What a factor measures. -/
def Factor.measure (f : Factor α) : Measure α :=
  ⟨Scalar.powInt f.symbol.scale f.power, if f.power = 1 then f.symbol.offset else 0,
    f.symbol.dimension.pow (Int32.ofInt f.power)⟩

theorem ofInt_eq_one_iff {n : ℤ} (h : FitsWord n) : Int32.ofInt n = 1 ↔ n = 1 := by
  constructor
  · intro heq
    have := congrArg Int32.toInt heq
    rwa [Int32.toInt_ofInt_of_le h.1 (by have := h.2; omega)] at this
  · rintro rfl
    rfl

theorem ofName_eq_ok (f : Factor α) :
    ofName f.symbol.name.toList (Int32.ofInt f.power) = .ok f.measure := by
  have hword : (Int32.ofInt f.power).toInt = f.power :=
    Int32.toInt_ofInt_of_le f.fits.1 (by have := f.fits.2; omega)
  simp only [ofName, find?_eq_some_iff.2 ⟨f.known, rfl⟩, Factor.measure, hword,
    ofInt_eq_one_iff f.fits]

/-- A name is that of a factor, or no known symbol is written like it. -/
theorem named_or_unknown (name : List Char) {n : ℤ} (hn : FitsWord n) :
    (∃ f : Factor α, f.symbol.name.toList = name ∧ f.power = n) ∨ IsUnknown α name := by
  cases h : (UnitSymbol.find? (String.ofList name) : Option (UnitSymbol α)) with
  | some s =>
    obtain ⟨hs, hname⟩ := find?_eq_some_iff.1 h
    exact .inl ⟨⟨s, n, hs, hn⟩, hname, rfl⟩
  | none => exact .inr (find?_eq_none_iff.1 h)

/-- A factor is read from its texts. -/
theorem Factor.Written.factor_eq {f : Factor α} {text : List Char} (h : f.Written text)
    (expression : String) : factor expression text = .ok f.measure := by
  cases h with
  | alone hpower hname =>
    have htrim := trim_eq_iff.2 ⟨stripped_name f.known, hname⟩
    rw [factor_alone expression (caret_notMem f.known hname), htrim,
      if_neg (name_of_known f.known).1, ← ofName_eq_ok, hpower]
    rfl
  | power hname hnumeral hn =>
    rename_i a b ds
    have hexponent : exponent? (trim b) = some (Int32.ofInt f.power) := by
      rw [trim_eq_iff.2 ⟨hn.stripped, hnumeral⟩]
      exact exponent?_eq_some_iff.2 ⟨_, hn, f.fits, rfl⟩
    rw [factor_power expression (caret_notMem f.known hname), hexponent,
      trim_eq_iff.2 ⟨stripped_name f.known, hname⟩]
    exact ofName_eq_ok f

/-- The defect of a piece is found. -/
theorem Defect.factor_eq {expression : String} {text : List Char} {e : UnitsError}
    (h : Defect α expression text e) :
    (factor expression text : Except UnitsError (Measure α)) = .error e := by
  cases h with
  | empty hblank =>
    rw [factor_alone expression (hblank.notMem (by decide)), if_pos (trim_eq_nil_iff.2 hblank)]
  | exponent ha hnone =>
    rename_i a b
    have hexponent : exponent? (trim b) = none := by
      refine Option.eq_none_iff_forall_ne_some.2 fun w hw => ?_
      obtain ⟨n, hn, hfits, -⟩ := exponent?_eq_some_iff.1 hw
      exact hnone _ n (trim_eq_iff.1 rfl).2 hn hfits
    rw [factor_power expression ha, hexponent]
  | symbol hcaret hblank hname hpadded hunknown =>
    rename_i name
    have htrim := trim_eq_iff.2 ⟨hname, hpadded⟩
    have hne : name ≠ [] := fun h => hblank (trim_eq_nil_iff.1 (htrim.trans h))
    rw [factor_alone expression hcaret, htrim, if_neg hne, ofName, find?_eq_none_iff.2 hunknown]
  | base ha hname hpadded hnumeral hn hfits hunknown =>
    rename_i name a b ds n
    have hexponent : exponent? (trim b) = some (Int32.ofInt n) := by
      rw [trim_eq_iff.2 ⟨hn.stripped, hnumeral⟩]
      exact exponent?_eq_some_iff.2 ⟨_, hn, hfits, rfl⟩
    rw [factor_power expression ha, hexponent, trim_eq_iff.2 ⟨hname, hpadded⟩]
    simp only [ofName, find?_eq_none_iff.2 hunknown]

/-- **Every piece writes a factor or has a defect.** -/
theorem written_or_defect (expression : String) (text : List Char) :
    (∃ f : Factor α, f.Written text) ∨ ∃ e, Defect α expression text e := by
  by_cases hcaret : '^' ∈ text
  · obtain ⟨a, b, rfl, ha⟩ := List.eq_append_cons_of_mem hcaret
    obtain ⟨hname, hpadded⟩ := trim_eq_iff.1 (Eq.refl (trim a))
    by_cases hnumeral : ∃ ds n, Padded ds b ∧ Numeral ds n ∧ FitsWord n
    · obtain ⟨ds, n, hds, hn, hfits⟩ := hnumeral
      rcases named_or_unknown (α := α) (trim a) hfits with ⟨f, hf, rfl⟩ | hunknown
      · exact .inl ⟨f, .power (hf ▸ hpadded) hds hn⟩
      · exact .inr ⟨_, .base ha hname hpadded hds hn hfits hunknown⟩
    · exact .inr ⟨_, .exponent ha fun ds n hds hn hfits => hnumeral ⟨ds, n, hds, hn, hfits⟩⟩
  · obtain ⟨hname, hpadded⟩ := trim_eq_iff.1 (Eq.refl (trim text))
    by_cases hblank : Blanks text
    · exact .inr ⟨_, .empty hblank⟩
    · have hone : FitsWord 1 := by simp [FitsWord]
      rcases named_or_unknown (α := α) (trim text) hone with ⟨f, hf, hpower⟩ | hunknown
      · exact .inl ⟨f, .alone hpower (hf ▸ hpadded)⟩
      · exact .inr ⟨_, .symbol hcaret hblank hname hpadded hunknown⟩

/-- **A piece is read as the factor that it writes.** -/
theorem factor_eq_ok_iff {expression : String} {text : List Char} {m : Measure α} :
    factor expression text = .ok m ↔ ∃ f : Factor α, f.Written text ∧ m = f.measure := by
  constructor
  · intro h
    rcases written_or_defect (α := α) expression text with ⟨f, hf⟩ | ⟨e, he⟩
    · exact ⟨f, hf, Except.ok.inj (h.symm.trans (hf.factor_eq expression))⟩
    · rw [he.factor_eq] at h
      cases h
  · rintro ⟨f, hf, rfl⟩
    exact hf.factor_eq expression

/-- **The defect of a piece is found** where there is one. -/
theorem factor_eq_error_iff {expression : String} {text : List Char} {e : UnitsError} :
    (factor expression text : Except UnitsError (Measure α)) = .error e ↔
      Defect α expression text e := by
  constructor
  · intro h
    rcases written_or_defect (α := α) expression text with ⟨f, hf⟩ | ⟨e', he⟩
    · rw [hf.factor_eq expression] at h
      cases h
    · rw [he.factor_eq] at h
      rwa [← Except.error.inj h]
  · exact Defect.factor_eq

end

end Measure

end Mdao
