/-!
# Counts of entries

Numbers of entries are kept in words of 64 bits, so a sum or a product of them is taken modulo
`Count.modulus`. Below it they are the ordinary sum and product (`Count.add_of_lt`,
`Count.mul_of_lt`).
-/

namespace Mdao.Count

/-- The number of words of 64 bits. -/
def modulus : Nat := 18446744073709551616

/-- The sum of two counts. -/
def add (m n : Nat) : Nat := (m + n) % modulus

/-- The product of two counts. -/
def mul (m n : Nat) : Nat := m * n % modulus

/-- The product of some counts. -/
def product (counts : List Nat) : Nat := counts.foldl mul 1

theorem add_of_lt {m n : Nat} (h : m + n < modulus) : add m n = m + n := Nat.mod_eq_of_lt h

theorem mul_of_lt {m n : Nat} (h : m * n < modulus) : mul m n = m * n := Nat.mod_eq_of_lt h

theorem add_lt (m n : Nat) : add m n < modulus := Nat.mod_lt _ (by decide)

theorem mul_lt (m n : Nat) : mul m n < modulus := Nat.mod_lt _ (by decide)

theorem add_zero_of_lt {m : Nat} (h : m < modulus) : add m 0 = m := add_of_lt h

theorem add_add (m n k : Nat) : add (add m n) k = add m (n + k) := by
  rw [add, add, Nat.mod_add_mod, Nat.add_assoc]
  rfl

/-- A sum of two counts is the ordinary one, or smaller by the modulus. -/
theorem add_cases {m n : Nat} (hm : m < modulus) (hn : n < modulus) :
    (m + n < modulus ∧ add m n = m + n) ∨ (modulus ≤ m + n ∧ add m n + modulus = m + n) := by
  rcases Nat.lt_or_ge (m + n) modulus with h | h
  · exact .inl ⟨h, add_of_lt h⟩
  · refine .inr ⟨h, ?_⟩
    have hmod : (m + n) % modulus = m + n - modulus := by
      rw [Nat.mod_eq_sub_mod h, Nat.mod_eq_of_lt (by omega)]
    rw [add, hmod, Nat.sub_add_cancel h]

end Mdao.Count
