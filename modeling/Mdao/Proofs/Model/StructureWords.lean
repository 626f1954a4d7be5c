import Mathlib
import Mdao.Proofs.Model.Totals

/-!
# What the words of a structure tell

The coloring of totals is kept for a structure: the pattern of the Jacobian, the slots and the factors
of the quantities, and the slots of the inputs. Its words can be read back from left to right: each
list comes behind its length and takes a fixed number of words for each element, and there are as many
factors as slots of quantities. So equal words mean equal structures, as long as the numbers of a
structure are numbers that a word holds (`Problem.structureWords_inj`).

A byte goes into a fingerprint by an exclusive or, and the result is multiplied by an odd number,
which has an inverse among the words. So the step of each byte is injective in the fingerprint and in
the byte, what follows of a stream never brings two fingerprints together again
(`Fingerprint.words_injective`), and streams that differ in one byte of one word have different
fingerprints (`Fingerprint.words_ne_of_differInOneByte`).
-/

namespace Mdao

namespace Fingerprint

/-! ### What a fingerprint keeps apart -/

/-- The prime is a unit of the words. -/
theorem prime_mul_inverse : prime * 0xce965057aff6957b = 1 := by decide

theorem mul_prime_injective : Function.Injective fun x : UInt64 => x * prime := by
  intro x y h
  have hmul := congrArg (· * (0xce965057aff6957b : UInt64)) h
  simpa only [UInt64.mul_assoc, prime_mul_inverse, UInt64.mul_one] using hmul

/-- **The step of a byte is injective in the fingerprint.** -/
theorem byte_injective (b : UInt64) : Function.Injective fun f : Fingerprint => f.byte b := by
  intro f f' h
  have hxor : f.value ^^^ b = f'.value ^^^ b := mul_prime_injective (congrArg value h)
  cases f
  cases f'
  exact congrArg mk ((UInt64.xor_left_inj b).1 hxor)

/-- **The step of a byte is injective in the byte.** -/
theorem byte_injective_right (f : Fingerprint) : Function.Injective f.byte := by
  intro b b' h
  have hxor : f.value ^^^ b = f.value ^^^ b' := mul_prime_injective (congrArg value h)
  exact (UInt64.xor_right_inj f.value).1 hxor

/-- Injective steps, one after the other, are injective. -/
theorem foldl_injective {σ β : Type} {step : σ → β → σ}
    (hstep : ∀ b, Function.Injective fun s => step s b) (l : List β) :
    Function.Injective fun s => l.foldl step s := by
  induction l with
  | nil => exact fun _ _ h => h
  | cons b l ih => exact fun _ _ h => hstep b (ih h)

/-- **The step of a word is injective in the fingerprint.** -/
theorem word_injective (w : UInt64) : Function.Injective fun f : Fingerprint => f.word w :=
  foldl_injective byte_injective (bytesOf w)

/-- **Two fingerprints stay apart**, whatever words follow. -/
theorem words_injective (ws : List UInt64) : Function.Injective fun f : Fingerprint => f.words ws :=
  foldl_injective word_injective ws

/-- Two words differ in one of their bytes and in no other. -/
def DifferInOneByte (w w' : UInt64) : Prop :=
  ∃ before b b' after, b ≠ b' ∧ bytesOf w = before ++ b :: after ∧ bytesOf w' = before ++ b' :: after

theorem word_ne_of_differInOneByte (f : Fingerprint) {w w' : UInt64} (h : DifferInOneByte w w') :
    f.word w ≠ f.word w' := by
  obtain ⟨before, b, b', after, hb, hw, hw'⟩ := h
  rw [word, word, hw, hw', List.foldl_append, List.foldl_append, List.foldl_cons, List.foldl_cons]
  intro heq
  have hbyte : (before.foldl byte f).byte b = (before.foldl byte f).byte b' :=
    foldl_injective byte_injective after heq
  exact hb (byte_injective_right _ hbyte)

/-- **One byte makes a difference**, wherever it stands in a stream of words. -/
theorem words_ne_of_differInOneByte (f : Fingerprint) (before after : List UInt64) {w w' : UInt64}
    (h : DifferInOneByte w w') :
    f.words (before ++ w :: after) ≠ f.words (before ++ w' :: after) := by
  rw [words, words, List.foldl_append, List.foldl_append, List.foldl_cons, List.foldl_cons]
  intro heq
  have hword : (before.foldl word f).word w = (before.foldl word f).word w' :=
    words_injective after heq
  exact word_ne_of_differInOneByte _ h hword

/-! ### Lists as words -/

/-- Numbers below the modulus are told apart by their words. -/
theorem ofNat_inj_of_lt {m n : Nat} (hm : m < Count.modulus) (hn : n < Count.modulus)
    (h : UInt64.ofNat m = UInt64.ofNat n) : m = n := by
  have hnat : m % Count.modulus = n % Count.modulus := congrArg UInt64.toNat h
  rwa [Nat.mod_eq_of_lt hm, Nat.mod_eq_of_lt hn] at hnat

section Elements

variable {β : Type} (words : β → List UInt64) {k : Nat} {xs ys : List β} {u v : List UInt64}

/-- Lists of one length are told apart by the words of their elements, if each element takes as many
words. -/
theorem flatMap_append_inj (hk : ∀ x, (words x).length = k)
    (hinj : ∀ x ∈ xs, ∀ y ∈ ys, words x = words y → x = y) (hlength : xs.length = ys.length)
    (h : xs.flatMap words ++ u = ys.flatMap words ++ v) : xs = ys ∧ u = v := by
  induction xs generalizing ys with
  | nil =>
    obtain rfl := List.length_eq_zero_iff.1 hlength.symm
    exact ⟨rfl, h⟩
  | cons x xs ih =>
    obtain ⟨y, ys, rfl⟩ := List.exists_cons_of_length_eq_add_one hlength.symm
    rw [List.flatMap_cons, List.flatMap_cons, List.append_assoc, List.append_assoc] at h
    obtain ⟨hxy, hrest⟩ := List.append_inj h ((hk x).trans (hk y).symm)
    obtain rfl := hinj x List.mem_cons_self y List.mem_cons_self hxy
    obtain ⟨rfl, rfl⟩ := ih (fun a ha b hb => hinj a (List.mem_cons_of_mem _ ha) b
      (List.mem_cons_of_mem _ hb)) (Nat.succ.inj hlength) hrest
    exact ⟨rfl, rfl⟩

/-- **A list behind its length and what follows it are told from their words.** -/
theorem counted_append_inj (hk : ∀ x, (words x).length = k)
    (hinj : ∀ x ∈ xs, ∀ y ∈ ys, words x = words y → x = y) (hxs : xs.length < Count.modulus)
    (hys : ys.length < Count.modulus)
    (h : UInt64.ofNat xs.length :: (xs.flatMap words ++ u) =
      UInt64.ofNat ys.length :: (ys.flatMap words ++ v)) : xs = ys ∧ u = v := by
  obtain ⟨hlength, hrest⟩ := List.cons.inj h
  exact flatMap_append_inj words hk hinj (ofNat_inj_of_lt hxs hys hlength) hrest

end Elements

/-- Numbers that words hold, and no more of them than a word counts. -/
structure Holds (xs : List Nat) : Prop where
  length_lt : xs.length < Count.modulus
  lt : ∀ x ∈ xs, x < Count.modulus

theorem indexWords_append_inj {xs ys : List Nat} (hxs : Holds xs) (hys : Holds ys)
    {u v : List UInt64} (h : indexWords xs ++ u = indexWords ys ++ v) : xs = ys ∧ u = v := by
  refine counted_append_inj (k := 1) (fun x => [UInt64.ofNat x]) (fun _ => rfl)
    (fun x hx y hy hxy => ?_) hxs.length_lt hys.length_lt ?_
  · exact ofNat_inj_of_lt (hxs.lt x hx) (hys.lt y hy) (List.cons.inj hxy).1
  · simpa only [indexWords, List.map_eq_flatMap, List.cons_append] using h

end Fingerprint

namespace Problem

open Fingerprint

variable {α : Type} {pattern pattern' : List (Nat × Nat)} {rows cols rows' cols' : Quantities α}

/-- **The numbers of a structure fit into words**: the places of the pattern, the slots, and how many
there are of each. -/
structure FitsWords (pattern : List (Nat × Nat)) (rows cols : Quantities α) : Prop where
  length_lt : pattern.length < Count.modulus
  places_lt : ∀ e ∈ pattern, e.1 < Count.modulus ∧ e.2 < Count.modulus
  rows : Holds rows.slots
  cols : Holds cols.slots

/-- **Equal words tell equal structures.** -/
theorem structureWords_inj [Scalar α] [BitPattern α] (h : FitsWords pattern rows cols)
    (h' : FitsWords pattern' rows' cols')
    (heq : structureWords pattern rows cols = structureWords pattern' rows' cols') :
    pattern = pattern' ∧ rows.slots = rows'.slots ∧
      rows.scales.map BitPattern.toBits = rows'.scales.map BitPattern.toBits ∧
      cols.slots = cols'.slots := by
  have hplaces : ∀ e ∈ pattern, ∀ e' ∈ pattern',
      [UInt64.ofNat e.1, UInt64.ofNat e.2] = [UInt64.ofNat e'.1, UInt64.ofNat e'.2] → e = e' := by
    intro e he e' he' hplace
    obtain ⟨hrow, hrest⟩ := List.cons.inj hplace
    exact Prod.ext (ofNat_inj_of_lt (h.places_lt e he).1 (h'.places_lt e' he').1 hrow)
      (ofNat_inj_of_lt (h.places_lt e he).2 (h'.places_lt e' he').2 (List.cons.inj hrest).1)
  simp only [structureWords, List.cons_append, List.append_assoc] at heq
  obtain ⟨hpattern, heq⟩ := counted_append_inj (k := 2) (fun e : Nat × Nat =>
    [UInt64.ofNat e.1, UInt64.ofNat e.2]) (fun _ => rfl) hplaces h.length_lt h'.length_lt heq
  obtain ⟨hrows, heq⟩ := indexWords_append_inj h.rows h'.rows heq
  have hlength : (rows.scales.map BitPattern.toBits).length =
      (rows'.scales.map (BitPattern.toBits (α := α))).length := by
    have hslots := congrArg List.length hrows
    simpa [Quantities.slots, Quantities.scales] using hslots
  obtain ⟨hscales, heq⟩ := List.append_inj heq hlength
  have hcols := indexWords_append_inj (u := []) (v := []) h.cols h'.cols (by rw [heq])
  exact ⟨hpattern, hrows, hscales, hcols.1⟩

/-- **The words of a structure lose nothing, and the fingerprint of words forgets no difference.** A
coloring of totals is signed with the fingerprint of the words of its structure. Equal words tell
equal structures: the same pattern, the same slots and factors of quantities, the same slots of
inputs. The step of a word is injective in the fingerprint, so different fingerprints stay different
whatever words follow, and streams of words that differ in one byte have different fingerprints. -/
theorem structureWords_lossless [Scalar α] [BitPattern α] (h : FitsWords pattern rows cols)
    (h' : FitsWords pattern' rows' cols') :
    (∀ s, (totalsSignature s pattern rows cols).structureHash =
      (start.words (structureWords pattern rows cols)).value) ∧
    (structureWords pattern rows cols = structureWords pattern' rows' cols' →
      pattern = pattern' ∧ rows.slots = rows'.slots ∧
        rows.scales.map BitPattern.toBits = rows'.scales.map BitPattern.toBits ∧
        cols.slots = cols'.slots) ∧
    (∀ w, Function.Injective fun f : Fingerprint => f.word w) ∧
    (∀ (tail : List UInt64) (f f' : Fingerprint), f ≠ f' → f.words tail ≠ f'.words tail) ∧
    ∀ (before after : List UInt64) (w w' : UInt64), DifferInOneByte w w' →
      (start.words (before ++ w :: after)).value ≠ (start.words (before ++ w' :: after)).value := by
  refine ⟨fun s => rfl, structureWords_inj h h', word_injective,
    fun tail f f' hne heq => hne (words_injective tail heq), fun before after w w' hw heq => ?_⟩
  have hsame : start.words (before ++ w :: after) = start.words (before ++ w' :: after) :=
    congrArg Fingerprint.mk heq
  exact words_ne_of_differInOneByte start before after hw hsame

namespace TwoSlots

/-- A Jacobian of two slots that has no entry off the diagonal. -/
def diagonal : List (Nat × Nat) := [(0, 0), (1, 1)]

/-- A Jacobian of two slots that has an entry above the diagonal. -/
def triangular : List (Nat × Nat) := [(0, 0), (0, 1), (1, 1)]

/-- The quantity in the first slot. -/
def quantity : Quantities ℚ := ⟨[("y", ⟨0, 1⟩)], [(0, 1)]⟩

/-- The input in the second slot. -/
def input : Quantities ℚ := ⟨[("x", ⟨0, 1⟩)], [(1, 1)]⟩

/-- Another Jacobian is told by the words, and another byte in a word by the fingerprint. -/
theorem structureWords_of_two_slots :
    FitsWords diagonal quantity input ∧ FitsWords triangular quantity input ∧
      structureWords diagonal quantity input ≠ structureWords triangular quantity input ∧
      DifferInOneByte 3 259 ∧ (start.words [1, 3, 5]).value ≠ (start.words [1, 259, 5]).value := by
  have hholds : Holds quantity.slots ∧ Holds input.slots :=
    ⟨⟨by decide, by decide⟩, ⟨by decide, by decide⟩⟩
  have hdiagonal : FitsWords diagonal quantity input :=
    ⟨by decide, by decide, hholds.1, hholds.2⟩
  have htriangular : FitsWords triangular quantity input :=
    ⟨by decide, by decide, hholds.1, hholds.2⟩
  have hbyte : DifferInOneByte 3 259 :=
    ⟨[3], 0, 1, [0, 0, 0, 0, 0, 0], by decide, by decide, by decide⟩
  obtain ⟨-, hinj, -, -, hdiffer⟩ := structureWords_lossless hdiagonal htriangular
  refine ⟨hdiagonal, htriangular, fun heq => ?_, hbyte, hdiffer [1] [5] 3 259 hbyte⟩
  have hpattern : diagonal = triangular := (hinj heq).1
  exact absurd hpattern (by decide)

end TwoSlots

end Problem

end Mdao
