import Mathlib
import Mdao.Text.Json

/-!
# Texts that were cut short

A reader of JSON stops at the character that closes what it reads, or at the first one behind it, and
looks no further: what it reads from a text it reads from every longer text (`Json.Stops`,
`Json.Closes`). So a table that was cut short before its last character is not read at all
(`Json.parse?_of_cut`).
-/

namespace Mdao.Json

variable {β γ : Type} {cs rest t : List Char}

/-- What one reader reads, another one reads from every longer text. -/
def Closes (read read' : List Char → Option (β × List Char)) : Prop :=
  ∀ cs x rest t, read cs = some (x, rest) → read' (cs ++ t) = some (x, rest ++ t)

/-- What one reader reads before the end of the text, another one reads from every longer text. -/
def Stops (read read' : List Char → Option (β × List Char)) : Prop :=
  ∀ cs x rest t, read cs = some (x, rest) → rest ≠ [] → read' (cs ++ t) = some (x, rest ++ t)

/-- At the end of the text, a reader leaves nothing. -/
def Ends (read : List Char → Option (β × List Char)) : Prop :=
  ∀ x rest, read [] = some (x, rest) → rest = []

/-- One reader after the other. -/
theorem Stops.bind {read read' : List Char → Option (γ × List Char)}
    {next next' : γ → List Char → Option (β × List Char)} (h : Stops read read')
    (hnext : ∀ a, Stops (next a) (next' a))
    (hend : ∀ a, Ends (next a)) :
    Stops (fun cs => (read cs).bind fun a => next a.1 a.2)
      fun cs => (read' cs).bind fun a => next' a.1 a.2 := by
  intro cs x rest t hread hrest
  obtain ⟨⟨a, cs'⟩, ha, hx⟩ := Option.bind_eq_some_iff.1 hread
  have hcs' : cs' ≠ [] := by
    rintro rfl
    exact hrest (hend a x rest hx)
  exact Option.bind_eq_some_iff.2 ⟨(a, cs' ++ t), h cs a cs' t ha hcs', hnext a cs' x rest t hx hrest⟩

/-! ### Blanks and texts -/

/-- A run of characters ends in a longer text where it ends before the end of the text. -/
theorem span_append {p : Char → Bool} (h : cs.dropWhile p ≠ []) (t : List Char) :
    (cs ++ t).takeWhile p = cs.takeWhile p ∧ (cs ++ t).dropWhile p = cs.dropWhile p ++ t := by
  induction cs with
  | nil => exact absurd rfl h
  | cons c cs ih =>
    by_cases hc : p c
    · rw [List.dropWhile_cons_of_pos hc] at h
      obtain ⟨htake, hdrop⟩ := ih h
      simp only [List.cons_append, List.takeWhile_cons_of_pos hc, List.dropWhile_cons_of_pos hc, htake,
        hdrop, and_self]
    · simp only [List.cons_append, List.takeWhile_cons_of_neg hc, List.dropWhile_cons_of_neg hc,
        and_self]

theorem skip_append {c : Char} (h : skip cs = c :: rest) (t : List Char) :
    skip (cs ++ t) = c :: (rest ++ t) := by
  unfold skip at h ⊢
  rw [(span_append (by simp [h]) t).2, h, List.cons_append]

/-- A `u` after a backslash stands for no character of its own. -/
theorem ne_u_of_escaped {c d : Char} (h : escaped? c = some d) : c ≠ 'u' := by
  rintro rfl
  cases h

theorem pieces_closes : Closes pieces pieces := by
  intro cs
  fun_induction pieces cs with
  | case1 | case4 | case6 | case7 | case9 => exact fun _ _ _ h => nomatch h
  | case2 =>
    intro x rest t h
    cases h
    rfl
  | case3 a b c d cs n ps rest hps hn ih =>
    intro x rest' t h
    cases h
    simp only [List.cons_append, pieces, hn, ih ps rest t hps]
  | case5 c cs _ d ps rest hps hd ih =>
    intro x rest' t h
    cases h
    have hne : ∀ a b c' d' rest, c = 'u' → cs ++ t = a :: b :: c' :: d' :: rest → False :=
      fun _ _ _ _ _ hc _ => ne_u_of_escaped hd hc
    rw [List.cons_append, List.cons_append, pieces.eq_4 c (cs ++ t) hne]
    simp only [hd, ih ps rest t hps]
  | case8 c cs hquote _ hescape hprintable ps rest hps ih =>
    intro x rest' t h
    cases h
    -- a backslash at the end of the text is followed by no closing quote
    have hc : c ≠ '\\' := by
      rintro rfl
      cases cs with
      | nil => cases hps
      | cons d cs => exact hescape d cs rfl rfl
    rw [List.cons_append, pieces.eq_5 c (cs ++ t) hquote (fun _ _ _ _ _ h _ => hc h)
      (fun _ _ h _ => hc h), if_neg hprintable]
    simp only [ih ps rest t hps]

theorem text?_closes : Closes text? text? := by
  intro cs x rest t h
  obtain ⟨⟨ps, rest'⟩, hps, heq⟩ := Option.map_eq_some_iff.1 h
  obtain ⟨rfl, rfl⟩ := Prod.mk.inj heq
  rw [text?, pieces_closes cs ps rest' t hps]
  rfl

/-! ### Numbers -/

theorem digits?_stops : Stops digits? digits? := by
  intro cs x rest t h hrest
  unfold digits? at h ⊢
  split at h
  · cases h
  · rename_i ds hne
    obtain ⟨hds, rfl⟩ := Prod.mk.inj (Option.some.inj h)
    obtain ⟨htake, hdrop⟩ := span_append hrest t
    rw [htake, hdrop]
    split
    · contradiction
    · rw [hds]

/-- Behind the whole part of a number, the character that follows is looked at. -/
theorem fraction?_stops : Stops fraction? fraction? := by
  intro cs x rest t h hrest
  cases cs with
  | nil =>
    obtain ⟨-, rfl⟩ := Prod.mk.inj (Option.some.inj h)
    exact absurd rfl hrest
  | cons c cs =>
    by_cases hc : c = '.'
    · subst hc
      exact digits?_stops cs x rest t h hrest
    · have hother : ∀ cs, fraction? (c :: cs) = some ([], c :: cs) := by
        intro cs
        unfold fraction?
        split
        · rename_i heq
          exact absurd (List.cons.inj heq).1 hc
        · rfl
      rw [hother] at h
      cases h
      exact hother (cs ++ t)

/-- The sign of an exponent, and the input after it. -/
def exponentSign : List Char → Bool × List Char
  | '+' :: rest => (false, rest)
  | '-' :: rest => (true, rest)
  | rest => (false, rest)

theorem exponentSign_append (h : cs ≠ []) (t : List Char) :
    exponentSign (cs ++ t) = ((exponentSign cs).1, (exponentSign cs).2 ++ t) := by
  obtain ⟨c, cs, rfl⟩ := List.exists_cons_of_ne_nil h
  rw [List.cons_append]
  unfold exponentSign
  split <;> simp_all

theorem exponent?_cons {c : Char} (hc : c = 'e' ∨ c = 'E') (cs : List Char) :
    exponent? (c :: cs) = (digits? (exponentSign cs).2).map fun (ds, rest) =>
      (some (if (exponentSign cs).1 then -(digitsValue ds : Int) else digitsValue ds), rest) := by
  unfold exponent?
  exact if_pos hc

theorem exponent?_stops : Stops exponent? exponent? := by
  intro cs x rest t h hrest
  cases cs with
  | nil =>
    obtain ⟨-, rfl⟩ := Prod.mk.inj (Option.some.inj h)
    exact absurd rfl hrest
  | cons c cs =>
    by_cases hc : c = 'e' ∨ c = 'E'
    · rw [exponent?_cons hc] at h
      obtain ⟨⟨ds, rest'⟩, hds, heq⟩ := Option.map_eq_some_iff.1 h
      obtain ⟨rfl, rfl⟩ := Prod.mk.inj heq
      have hcs : cs ≠ [] := by
        rintro rfl
        cases hds
      rw [List.cons_append, exponent?_cons hc, exponentSign_append hcs,
        digits?_stops _ ds rest' t hds hrest]
      rfl
    · have hother : ∀ cs, exponent? (c :: cs) = some (none, c :: cs) := by
        intro cs
        unfold exponent?
        exact if_neg hc
      rw [hother] at h
      cases h
      exact hother (cs ++ t)

/-- The sign of a number, and the input after it. -/
def numberSign : List Char → Bool × List Char
  | '-' :: rest => (true, rest)
  | rest => (false, rest)

/-- A number of which all parts have been read. -/
def numberOf (negative : Bool) (ds part : List Char) (power : Option Int) (rest : List Char) :
    Option (Datum × List Char) :=
  if part.isEmpty ∧ power.isNone ∧ ¬(negative ∧ digitsValue (ds ++ part) = 0) then
    some (.ofInt (if negative then -(digitsValue (ds ++ part) : Int) else digitsValue (ds ++ part)),
      rest)
  else
    some (.decimal ⟨negative, digitsValue (ds ++ part), power.getD 0 - (part.length : Int)⟩, rest)

/-- A number of which the sign and the whole part have been read. -/
def numberAfter (negative : Bool) (ds cs : List Char) : Option (Datum × List Char) :=
  if ds.length > 1 ∧ ds.head? = some '0' then none
  else (fraction? cs).bind fun part => (exponent? part.2).bind fun power =>
    numberOf negative ds part.1 power.1 power.2

theorem number?_eq (cs : List Char) : number? cs =
    (digits? (numberSign cs).2).bind fun ds => numberAfter (numberSign cs).1 ds.1 ds.2 := by
  unfold number? numberAfter numberOf numberSign
  rfl

theorem numberSign_append (h : cs ≠ []) (t : List Char) :
    numberSign (cs ++ t) = ((numberSign cs).1, (numberSign cs).2 ++ t) := by
  obtain ⟨c, cs, rfl⟩ := List.exists_cons_of_ne_nil h
  rw [List.cons_append]
  unfold numberSign
  split <;> simp_all

theorem exists_numberOf (negative : Bool) (ds part : List Char) (power : Option Int) :
    ∃ d, ∀ rest, numberOf negative ds part power rest = some (d, rest) := by
  unfold numberOf
  split
  exacts [⟨_, fun _ => rfl⟩, ⟨_, fun _ => rfl⟩]

theorem numberOf_stops (negative : Bool) (ds part : List Char) (power : Option Int) :
    Stops (numberOf negative ds part power) (numberOf negative ds part power) := by
  obtain ⟨d, hd⟩ := exists_numberOf negative ds part power
  intro cs x rest t h _
  rw [hd] at h ⊢
  obtain ⟨rfl, rfl⟩ := Prod.mk.inj (Option.some.inj h)
  rfl

theorem numberOf_ends (negative : Bool) (ds part : List Char) (power : Option Int) :
    Ends (numberOf negative ds part power) := by
  obtain ⟨d, hd⟩ := exists_numberOf negative ds part power
  intro x rest h
  rw [hd] at h
  exact (Prod.mk.inj (Option.some.inj h)).2.symm

theorem numberAfter_stops (negative : Bool) (ds : List Char) :
    Stops (numberAfter negative ds) (numberAfter negative ds) := by
  unfold numberAfter
  split_ifs
  · exact fun _ _ _ _ h => nomatch h
  · exact fraction?_stops.bind (fun part => exponent?_stops.bind (numberOf_stops negative ds part)
      (numberOf_ends negative ds part)) fun part => numberOf_ends negative ds part none

theorem numberAfter_ends (negative : Bool) (ds : List Char) : Ends (numberAfter negative ds) := by
  intro x rest h
  unfold numberAfter at h
  split_ifs at h
  exact numberOf_ends negative ds [] none x rest h

theorem number?_stops : Stops number? number? := by
  intro cs x rest t h hrest
  have hcs : cs ≠ [] := by
    rintro rfl
    cases h
  rw [number?_eq] at h
  rw [number?_eq, numberSign_append hcs]
  exact digits?_stops.bind (numberAfter_stops _) (numberAfter_ends _) _ x rest t h hrest

/-! ### Values -/

theorem word?_append (word : List Char) {cs rest : List Char} (h : word? word cs = some rest)
    (t : List Char) : word? word (cs ++ t) = some (rest ++ t) := by
  fun_induction word? word cs with
  | case1 =>
    cases h
    rfl
  | case2 word c cs ih =>
    rw [List.cons_append, word?, if_pos rfl]
    exact ih h
  | case3 => cases h
  | case4 => cases h

/-- Words and texts are read to their ends, numbers up to the character behind them. -/
theorem scalar?_stops : Stops scalar? scalar? := by
  intro cs x rest t h hrest
  have hword : ∀ (d : Datum) (word cs : List Char), (word? word cs).map (d, ·) = some (x, rest) →
      (word? word (cs ++ t)).map (d, ·) = some (x, rest ++ t) := by
    intro d word cs h
    obtain ⟨rest', hword, heq⟩ := Option.map_eq_some_iff.1 h
    obtain ⟨rfl, rfl⟩ := Prod.mk.inj heq
    rw [word?_append word hword]
    rfl
  fun_cases scalar? cs with
  | case1 => exact hword _ _ _ h
  | case2 => exact hword _ _ _ h
  | case3 => exact hword _ _ _ h
  | case4 cs =>
    obtain ⟨⟨s, rest'⟩, hs, heq⟩ := Option.map_eq_some_iff.1 h
    obtain ⟨rfl, rfl⟩ := Prod.mk.inj heq
    show (text? (cs ++ t)).map _ = _
    rw [text?_closes cs s rest' t hs]
    rfl
  | case5 _ hn ht hf hquote =>
    have hcs : cs ≠ [] := by
      rintro rfl
      cases h
    obtain ⟨c, cs, rfl⟩ := List.exists_cons_of_ne_nil hcs
    have hother : ∀ cs', scalar? (c :: cs') = number? (c :: cs') := fun cs' =>
      scalar?.eq_5 (c :: cs') (fun _ h => hn cs (by rw [(List.cons.inj h).1]))
        (fun _ h => ht cs (by rw [(List.cons.inj h).1]))
        (fun _ h => hf cs (by rw [(List.cons.inj h).1]))
        fun _ h => hquote cs (by rw [(List.cons.inj h).1])
    rw [hother] at h
    rw [List.cons_append, hother]
    exact number?_stops _ x rest t h hrest

theorem name?_closes : Closes name? name? := by
  intro cs x rest t h
  unfold name? at h ⊢
  split at h
  · rename_i cs₁ hquote
    rw [skip_append hquote]
    simp only
    split at h
    · rename_i name cs₂ htext
      rw [text?_closes _ _ _ t htext]
      simp only
      split at h
      · rename_i cs₃ hcolon
        cases h
        simp only [skip_append hcolon]
      · cases h
    · cases h
  · cases h

/-! ### Lists and tables -/

/-- What stands behind an opening bracket: the closing one, or what it holds. -/
def afterOpening {δ : Type} (close : Char) (empty held : List Char → Option δ) (cs : List Char) :
    Option δ :=
  match skip cs with
  | c :: rest => if c = close then empty rest else held (c :: rest)
  | [] => held []

theorem afterOpening_append {δ : Type} {close : Char} {empty held empty' held' : List Char → Option δ}
    {y y' : δ} {t : List Char} (hempty : ∀ cs, empty cs = some y → empty' (cs ++ t) = some y')
    (hheld : ∀ cs, held cs = some y → held' (cs ++ t) = some y') (hend : held [] ≠ some y)
    (h : afterOpening close empty held cs = some y) :
    afterOpening close empty' held' (cs ++ t) = some y' := by
  unfold afterOpening at h ⊢
  cases hs : skip cs with
  | nil =>
    rw [hs] at h
    exact absurd h hend
  | cons c cs₁ =>
    rw [hs] at h
    rw [skip_append hs]
    simp only at h ⊢
    split_ifs at h ⊢ with hc
    · exact hempty cs₁ h
    · exact hheld (c :: cs₁) h

section PassOver

variable {fuel fuel' : Nat} {u : Upcoming} {opened : List Bool} {c : Char} {cs₁ : List Char}

attribute [local simp] passOver

theorem passOver_list (h : skip cs = '[' :: cs₁) : passOver (fuel + 1) .value opened cs =
    afterOpening ']' (passOver fuel .comma opened) (passOver fuel .value (false :: opened)) cs₁ := by
  simp only [passOver, h, afterOpening]
  cases skip cs₁ with
  | nil => rfl
  | cons c rest => by_cases hc : c = ']' <;> simp [hc]

theorem passOver_table (h : skip cs = '\x7b' :: cs₁) : passOver (fuel + 1) .value opened cs =
    afterOpening '\x7d' (passOver fuel .comma opened) (passOver fuel .name (true :: opened)) cs₁ := by
  simp only [passOver, h, afterOpening]
  cases skip cs₁ with
  | nil => rfl
  | cons c rest => by_cases hc : c = '\x7d' <;> simp [hc]

theorem passOver_scalar (h : skip cs = c :: cs₁) (hlist : c ≠ '[') (htable : c ≠ '\x7b') :
    passOver (fuel + 1) .value opened cs =
      (scalar? (c :: cs₁)).bind fun a => passOver fuel .comma opened a.2 := by
  simp [h, hlist, htable]
  cases scalar? (c :: cs₁) <;> rfl

theorem passOver_name : passOver (fuel + 1) .name opened cs =
    (name? cs).bind fun a => passOver fuel .value opened a.2 := by
  simp only [passOver]
  cases name? cs <;> rfl

/-- What comes behind a comma. -/
def Upcoming.afterComma : (isTable : Bool) → Upcoming
  | true => .name
  | false => .value

/-- The character that closes a table or a list. -/
def closing : (isTable : Bool) → Char
  | true => '\x7d'
  | false => ']'

theorem passOver_comma {isTable : Bool} (h : skip cs = c :: cs₁) :
    passOver (fuel + 1) .comma (isTable :: opened) cs =
      if c = ',' then passOver fuel (.afterComma isTable) (isTable :: opened) cs₁
      else if c = closing isTable then passOver fuel .comma opened cs₁
      else none := by
  simp only [passOver, h]
  cases isTable <;> split <;> simp_all [Upcoming.afterComma, closing]

/-- What is passed over at the end of the text leaves nothing. -/
theorem passOver_nil (h : passOver fuel u opened [] = some rest) : rest = [] := by
  cases fuel with
  | zero => cases h
  | succ fuel =>
    cases u with
    | value => cases h
    | name => cases h
    | comma =>
      cases opened with
      | nil => exact (Option.some.inj h).symm
      | cons isTable opened => cases h

/-- What is passed over is passed over in a longer text as well, if anything is left. -/
theorem passOver_append (hle : fuel ≤ fuel') (h : passOver fuel u opened cs = some rest)
    (hrest : rest ≠ []) (t : List Char) : passOver fuel' u opened (cs ++ t) = some (rest ++ t) := by
  induction fuel generalizing fuel' u opened cs with
  | zero => cases h
  | succ fuel ih =>
    obtain ⟨fuel', rfl⟩ := Nat.exists_eq_add_of_le' hle
    have hle' : fuel ≤ fuel' + fuel := Nat.le_add_left fuel fuel'
    rw [← Nat.add_assoc]
    have hend : ∀ u opened, passOver fuel u opened [] ≠ some rest := fun u opened h =>
      hrest (passOver_nil h)
    cases u with
    | value =>
      cases hs : skip cs with
      | nil =>
        simp only [passOver, hs] at h
        cases h
      | cons c cs₁ =>
        by_cases hlist : c = '['
        · subst hlist
          rw [passOver_list hs] at h
          rw [passOver_list (skip_append hs t)]
          exact afterOpening_append (fun cs h => ih hle' h) (fun cs h => ih hle' h) (hend _ _) h
        · by_cases htable : c = '\x7b'
          · subst htable
            rw [passOver_table hs] at h
            rw [passOver_table (skip_append hs t)]
            exact afterOpening_append (fun cs h => ih hle' h) (fun cs h => ih hle' h) (hend _ _) h
          · rw [passOver_scalar hs hlist htable] at h
            obtain ⟨⟨d, cs₂⟩, hd, hafter⟩ := Option.bind_eq_some_iff.1 h
            have hcs₂ : cs₂ ≠ [] := by
              rintro rfl
              exact hend _ _ hafter
            rw [passOver_scalar (skip_append hs t) hlist htable, ← List.cons_append,
              scalar?_stops _ d cs₂ t hd hcs₂]
            exact ih hle' hafter
    | name =>
      rw [passOver_name] at h
      obtain ⟨⟨name, cs₁⟩, hname, hafter⟩ := Option.bind_eq_some_iff.1 h
      rw [passOver_name, name?_closes cs name cs₁ t hname]
      exact ih hle' hafter
    | comma =>
      cases opened with
      | nil =>
        obtain rfl : cs = rest := Option.some.inj h
        rfl
      | cons isTable opened =>
        cases hs : skip cs with
        | nil =>
          simp only [passOver, hs] at h
          cases h
        | cons c cs₁ =>
          rw [passOver_comma hs] at h
          rw [passOver_comma (skip_append hs t)]
          split_ifs at h ⊢
          · exact ih hle' h
          · exact ih hle' h

end PassOver

/-! ### Nested values -/

section Nested

variable {depth fuel fuel' : Nat} {c : Char} {cs₁ : List Char} {x : Datum}

attribute [local simp] value items fields

theorem value_deep (hdepth : depth ≤ 1) (h : skip cs = c :: cs₁) (hc : c = '[' ∨ c = '\x7b') :
    value depth (fuel + 1) cs = (passOver fuel .value [] cs).map fun rest => (.unreadable, rest) := by
  rcases hc with rfl | rfl <;> simp only [value, h, if_pos hdepth]

theorem value_list (hdepth : ¬depth ≤ 1) (h : skip cs = '[' :: cs₁) : value depth (fuel + 1) cs =
    afterOpening ']' (fun rest => some (.list [], rest))
      (fun rest => (items (depth - 1) fuel rest).map fun (xs, rest) => (.list xs, rest)) cs₁ := by
  simp only [value, h, if_neg hdepth, afterOpening]
  cases skip cs₁ with
  | nil => rfl
  | cons c rest => by_cases hc : c = ']' <;> simp [hc]

theorem value_table (hdepth : ¬depth ≤ 1) (h : skip cs = '\x7b' :: cs₁) :
    value depth (fuel + 1) cs = afterOpening '\x7d' (fun rest => some (.table [], rest))
      (fun rest => (fields (depth - 1) fuel rest).map fun (xs, rest) => (tableOf xs, rest)) cs₁ := by
  simp only [value, h, if_neg hdepth, afterOpening]
  cases skip cs₁ with
  | nil => rfl
  | cons c rest => by_cases hc : c = '\x7d' <;> simp [hc]

theorem value_scalar (h : skip cs = c :: cs₁) (hlist : c ≠ '[') (htable : c ≠ '\x7b') :
    value depth (fuel + 1) cs = scalar? (c :: cs₁) := by
  simp [h, hlist, htable]

theorem value_nil : value depth fuel [] = none := by
  cases fuel <;> rfl

theorem items_nil : items depth fuel [] = none := by
  cases fuel with
  | zero => rfl
  | succ fuel => simp [value_nil]

theorem fields_nil : fields depth fuel [] = none := by
  cases fuel <;> rfl

/-- A table that is not too deep is read to its closing brace. -/
theorem value_append_of_table (hdepth : ¬depth ≤ 1)
    (hfields : Closes (fields (depth - 1) fuel) (fields (depth - 1) fuel'))
    (hs : skip cs = '\x7b' :: cs₁) (h : value depth (fuel + 1) cs = some (x, rest)) (t : List Char) :
    value depth (fuel' + 1) (cs ++ t) = some (x, rest ++ t) := by
  rw [value_table hdepth hs] at h
  rw [value_table hdepth (skip_append hs t)]
  refine afterOpening_append (fun cs h => ?_) (fun cs h => ?_) ?_ h
  · cases h
    rfl
  · obtain ⟨⟨xs, rest'⟩, hxs, heq⟩ := Option.map_eq_some_iff.1 h
    cases heq
    rw [hfields cs xs rest t hxs]
    rfl
  · rw [fields_nil]
    exact nofun

theorem value_stops (hle : fuel ≤ fuel')
    (hitems : Closes (items (depth - 1) fuel) (items (depth - 1) fuel'))
    (hfields : Closes (fields (depth - 1) fuel) (fields (depth - 1) fuel')) :
    Stops (value depth (fuel + 1)) (value depth (fuel' + 1)) := by
  intro cs x rest t h hrest
  cases hs : skip cs with
  | nil =>
    simp only [value, hs] at h
    cases h
  | cons c cs₁ =>
    by_cases hopens : c = '[' ∨ c = '\x7b'
    · by_cases hdepth : depth ≤ 1
      · rw [value_deep hdepth hs hopens] at h
        obtain ⟨rest', hrest', heq⟩ := Option.map_eq_some_iff.1 h
        cases heq
        rw [value_deep hdepth (skip_append hs t) hopens, passOver_append hle hrest' hrest]
        rfl
      · rcases hopens with rfl | rfl
        · rw [value_list hdepth hs] at h
          rw [value_list hdepth (skip_append hs t)]
          refine afterOpening_append (fun cs h => ?_) (fun cs h => ?_) ?_ h
          · cases h
            rfl
          · obtain ⟨⟨xs, rest'⟩, hxs, heq⟩ := Option.map_eq_some_iff.1 h
            cases heq
            rw [hitems cs xs rest t hxs]
            rfl
          · rw [items_nil]
            exact nofun
        · exact value_append_of_table hdepth hfields hs h t
    · obtain ⟨hlist, htable⟩ := not_or.1 hopens
      rw [value_scalar hs hlist htable] at h
      rw [value_scalar (skip_append hs t) hlist htable, ← List.cons_append]
      exact scalar?_stops _ x rest t h hrest

theorem items_closes (hvalue : Stops (value depth fuel) (value depth fuel'))
    (hitems : Closes (items depth fuel) (items depth fuel')) :
    Closes (items depth (fuel + 1)) (items depth (fuel' + 1)) := by
  intro cs xs rest t h
  simp only [items] at h ⊢
  split at h
  · cases h
  · rename_i x cs₁ hx
    -- what stands behind the value is a comma or a bracket
    have hcs₁ : cs₁ ≠ [] := by
      rintro rfl
      cases h
    rw [hvalue cs x cs₁ t hx hcs₁]
    simp only
    split at h
    · rename_i cs₂ hcomma
      obtain ⟨⟨ys, rest'⟩, hys, heq⟩ := Option.map_eq_some_iff.1 h
      cases heq
      simp only [skip_append hcomma, hitems cs₂ ys rest' t hys, Option.map_some]
    · rename_i cs₂ hclose
      cases h
      simp only [skip_append hclose]
    · cases h

theorem fields_closes (hvalue : Stops (value depth fuel) (value depth fuel'))
    (hfields : Closes (fields depth fuel) (fields depth fuel')) :
    Closes (fields depth (fuel + 1)) (fields depth (fuel' + 1)) := by
  intro cs xs rest t h
  simp only [fields] at h ⊢
  split at h
  · cases h
  · rename_i name cs₁ hname
    simp only [name?_closes cs name cs₁ t hname]
    split at h
    · cases h
    · rename_i x cs₂ hx
      have hcs₂ : cs₂ ≠ [] := by
        rintro rfl
        cases h
      rw [hvalue cs₁ x cs₂ t hx hcs₂]
      simp only
      split at h
      · rename_i cs₃ hcomma
        obtain ⟨⟨ys, rest'⟩, hys, heq⟩ := Option.map_eq_some_iff.1 h
        cases heq
        simp only [skip_append hcomma, hfields cs₃ ys rest' t hys, Option.map_some]
      · rename_i cs₃ hclose
        cases h
        simp only [skip_append hclose]
      · cases h

/-- **What is read is read from every longer text**, and with more steps allowed: a value up to what
stands behind it, the entries of lists and tables up to the closing bracket. -/
theorem nested_append (hle : fuel ≤ fuel') (depth : Nat) :
    Stops (value depth fuel) (value depth fuel') ∧ Closes (items depth fuel) (items depth fuel') ∧
      Closes (fields depth fuel) (fields depth fuel') := by
  induction fuel generalizing fuel' depth with
  | zero => exact ⟨fun _ _ _ _ h => (nomatch h), fun _ _ _ _ h => (nomatch h),
      fun _ _ _ _ h => (nomatch h)⟩
  | succ fuel ih =>
    obtain ⟨fuel', rfl⟩ := Nat.exists_eq_add_of_le' hle
    have hle' : fuel ≤ fuel' + fuel := Nat.le_add_left fuel fuel'
    obtain ⟨hvalue, hitems, hfields⟩ := ih hle' depth
    obtain ⟨-, hitems', hfields'⟩ := ih hle' (depth - 1)
    exact ⟨value_stops hle' hitems' hfields', items_closes hvalue hitems, fields_closes hvalue hfields⟩

end Nested

/-! ### Whole texts -/

/-- What is written is read token by token. -/
theorem parse?_render (d : Datum) : parse? (render d) =
    match value 128 (2 * ((tokens d).flatMap String.toList).length + 2)
      ((tokens d).flatMap String.toList) with
    | some (x, rest) => if (skip rest).isEmpty then some x else none
    | none => none := by
  have htext : (render d).toList = (tokens d).flatMap String.toList := by
    rw [render, String.toList_join]
  rw [← htext]
  rfl

/-- The text of a table stands between braces. -/
theorem toList_render_table (xs : List (String × Datum)) :
    (render (.table xs)).toList = '\x7b' :: (tokensOfFields xs).flatMap String.toList ++ ['\x7d'] := by
  have htokens : tokens (.table xs) = "\x7b" :: tokensOfFields xs ++ ["\x7d"] := rfl
  rw [render, String.toList_join, htokens]
  simp only [List.cons_append, List.flatMap_cons, List.flatMap_append, List.flatMap_nil,
    List.append_nil]
  rfl

/-- **A table that was cut short is not read**: of a text that starts with a brace, does not end with a
blank and is read as a whole, no shorter piece from the start is. -/
theorem parse?_of_cut {s piece : String} {d : Datum} {c : Char} {t : List Char}
    (h : parse? s = some d) (hopens : s.toList.head? = some '\x7b')
    (hlast : s.toList.getLast? = some c) (hc : isSpace c = false)
    (hcut : s.toList = piece.toList ++ t) (ht : t ≠ []) : parse? piece = none := by
  by_contra hread
  have hpiece : piece.toList ≠ [] := by
    intro hnil
    simp [parse?, hnil, value_nil] at hread
  obtain ⟨b, cs, hcs⟩ := List.exists_cons_of_ne_nil hpiece
  obtain rfl : b = '\x7b' := by simpa [hcut, hcs] using hopens
  have hskip : skip piece.toList = '\x7b' :: cs := by
    rw [hcs]
    rfl
  obtain ⟨x, rest, hvalue⟩ : ∃ x rest, value 128 (2 * piece.toList.length + 2) piece.toList =
      some (x, rest) := by
    cases hv : value 128 (2 * piece.toList.length + 2) piece.toList with
    | none => simp [parse?, hv] at hread
    | some a => exact ⟨a.1, a.2, rfl⟩
  have hlonger : value 128 (2 * s.toList.length + 2) s.toList = some (x, rest ++ t) := by
    have hle : 2 * piece.toList.length + 1 ≤ 2 * s.toList.length + 1 := by
      rw [hcut, List.length_append]
      omega
    rw [hcut] at hle ⊢
    exact value_append_of_table (by decide) (nested_append hle _).2.2 hskip hvalue t
  -- the text would go on with characters that are not blank behind its end
  have hblank : skip (rest ++ t) = [] := by
    by_contra hne
    simp [parse?, hlonger, hne] at h
  have hmem : c ∈ rest ++ t := by
    rw [hcut, List.getLast?_append_of_ne_nil _ ht] at hlast
    exact List.mem_append_right _ (List.mem_of_getLast? hlast)
  exact absurd (List.dropWhile_eq_nil_iff.1 hblank c hmem) (by simp [hc])

end Mdao.Json
