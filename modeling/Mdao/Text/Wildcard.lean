/-!
# Wildcard patterns

In a pattern `*` stands for any run of characters, `?` for any one character, and every other
character for itself. A `Scan` holds a text against a pattern from left to right. A star takes no
character when it is met; where pattern and text differ later on, the last star takes one character
more and the scan goes on behind it. Stars before the last one are never taken up again.

The places of a scan come with their bounds, so every character that is read is one of the pattern
or of the text. A scan ends, because each step leaves less to scan (`Scan.step_less`).
-/

namespace Mdao.Wildcard

/-- Where a scan of a text stands. -/
structure Scan (pattern text : Array Char) where
  /-- The next place in the pattern. -/
  place : Nat
  /-- The next place in the text. -/
  read : Nat
  /-- The place of the last star, and the place in the text up to which it takes characters. -/
  star : Option (Nat × Nat)
  place_le : place ≤ pattern.size
  read_le : read ≤ text.size
  star_lt : ∀ s ∈ star, s.1 < place ∧ s.2 ≤ read

namespace Scan

variable {pattern text : Array Char}

/-- Before the first character. -/
def start (pattern text : Array Char) : Scan pattern text :=
  ⟨0, 0, none, Nat.zero_le _, Nat.zero_le _, nofun⟩

/-- Past a star, which takes no character yet. -/
def passStar (s : Scan pattern text) (h : s.place < pattern.size) : Scan pattern text :=
  ⟨s.place + 1, s.read, some (s.place, s.read), h, s.read_le,
    fun _ hs => Option.some.inj hs ▸ ⟨Nat.lt_succ_self _, Nat.le_refl _⟩⟩

/-- Past a character of the pattern and the one of the text that it takes. -/
def advance (s : Scan pattern text) (hp : s.place < pattern.size) (ht : s.read < text.size) :
    Scan pattern text :=
  ⟨s.place + 1, s.read + 1, s.star, hp, ht, fun r hr =>
    ⟨Nat.lt_succ_of_lt (s.star_lt r hr).1, Nat.le_succ_of_le (s.star_lt r hr).2⟩⟩

/-- Behind the last star, which takes one character more; without a star the text does not fit. -/
def retry (s : Scan pattern text) (h : s.read < text.size) : Scan pattern text ⊕ Bool :=
  match hs : s.star with
  | none => .inr false
  | some (star, taken) =>
    have hstar := s.star_lt _ hs
    .inl ⟨star + 1, taken + 1, some (star, taken + 1), Nat.le_trans hstar.1 s.place_le,
      Nat.lt_of_le_of_lt hstar.2 h,
      fun _ hr => Option.some.inj hr ▸ ⟨Nat.lt_succ_self _, Nat.le_refl _⟩⟩

/-- One step, or the answer: behind the text only stars may be left of the pattern. -/
def step (s : Scan pattern text) : Scan pattern text ⊕ Bool :=
  if ht : s.read < text.size then
    if hp : s.place < pattern.size then
      if pattern[s.place] = '*' then .inl (s.passStar hp)
      else if pattern[s.place] = '?' ∨ pattern[s.place] = text[s.read] then .inl (s.advance hp ht)
      else s.retry ht
    else s.retry ht
  else .inr ((pattern.toList.drop s.place).all (· == '*'))

/-- What is left to scan: of the pattern from the last star on, of the text behind what that star
takes, and of the text. -/
def remaining (s : Scan pattern text) : Nat × Nat × Nat :=
  match s.star with
  | none => (pattern.size + 1, 0, text.size - s.read)
  | some (star, taken) => (pattern.size - star, text.size - taken, text.size - s.read)

/-- Less is left to scan. -/
def Less (s s' : Scan pattern text) : Prop :=
  Prod.Lex (· < ·) (Prod.Lex (· < ·) (· < ·)) s.remaining s'.remaining

theorem passStar_less (s : Scan pattern text) (h : s.place < pattern.size) :
    (s.passStar h).Less s := by
  cases hs : s.star with
  | none =>
    simp only [Less, remaining, passStar, hs]
    exact .left _ _ (by omega)
  | some r =>
    have hr := (s.star_lt r hs).1
    simp only [Less, remaining, passStar, hs]
    exact .left _ _ (by omega)

theorem advance_less (s : Scan pattern text) (hp : s.place < pattern.size)
    (ht : s.read < text.size) : (s.advance hp ht).Less s := by
  cases hs : s.star with
  | none =>
    simp only [Less, remaining, advance, hs]
    exact .right _ (.right _ (by omega))
  | some r =>
    simp only [Less, remaining, advance, hs]
    exact .right _ (.right _ (by omega))

theorem retry_less {s s' : Scan pattern text} {h : s.read < text.size}
    (hs : s.retry h = .inl s') : s'.Less s := by
  unfold retry at hs
  split at hs
  · cases hs
  · rename_i star taken hstar
    cases hs
    have htaken := (s.star_lt _ hstar).2
    simp only [Less, remaining, hstar]
    exact .right _ (.left _ _ (by omega))

/-- **A step leaves less to scan.** -/
theorem step_less {s s' : Scan pattern text} (hs : s.step = .inl s') : s'.Less s := by
  unfold step at hs
  split at hs
  · split at hs
    · split at hs
      · cases hs
        exact s.passStar_less _
      · split at hs
        · cases hs
          exact s.advance_less _ _
        · exact retry_less hs
    · exact retry_less hs
  · cases hs

/-- Whether the text fits from here on. -/
def run (s : Scan pattern text) : Bool :=
  match _h : s.step with
  | .inl s' => run s'
  | .inr answer => answer
termination_by s.remaining
decreasing_by exact step_less ‹_›

end Scan

/-- Whether a pattern fits a whole text. -/
def fits (pattern text : List Char) : Bool := (Scan.start pattern.toArray text.toArray).run

end Mdao.Wildcard
