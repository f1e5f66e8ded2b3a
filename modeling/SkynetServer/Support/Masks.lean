import Mathlib.Data.Nat.Bitwise

/-!
# Low-bit masks and quotients

C code compares, selects and discards low bits with masks of the form
`2 ^ k - 1`.  These lemmas turn such tests into statements about quotients
and remainders, on which `omega` and the order lemmas of `Nat.div` work.
-/

namespace Masks

theorem pow_sub_one_shiftRight (k : ℕ) : (2 ^ k - 1) >>> k = 0 := by
  rw [Nat.shiftRight_eq_div_pow]
  have hpos : 0 < 2 ^ k := Nat.two_pow_pos k
  exact Nat.div_eq_of_lt (by omega)

/-- Setting the low `k` bits of both numbers makes them equal exactly when
their remaining bits agree. -/
theorem or_mask_eq_iff (a b k : ℕ) :
    a ||| (2 ^ k - 1) = b ||| (2 ^ k - 1) ↔ a / 2 ^ k = b / 2 ^ k := by
  constructor
  · intro h
    have hshift := congrArg (· >>> k) h
    simp only [Nat.shiftRight_or_distrib, pow_sub_one_shiftRight,
      Nat.or_zero] at hshift
    simpa only [Nat.shiftRight_eq_div_pow] using hshift
  · intro h
    apply Nat.eq_of_testBit_eq
    intro i
    rw [Nat.testBit_or, Nat.testBit_or, Nat.testBit_two_pow_sub_one]
    by_cases hik : i < k
    · simp [hik]
    · have hbit : ∀ x, Nat.testBit x i = Nat.testBit (x / 2 ^ k) (i - k) := by
        intro x
        rw [Nat.testBit_div_two_pow, Nat.sub_add_cancel (by omega)]
      rw [hbit a, hbit b, h]

/-- Quotient of a number reduced modulo a larger power of two. -/
theorem mod_pow_div_pow (a : ℕ) {k n : ℕ} (hkn : k ≤ n) :
    a % 2 ^ n / 2 ^ k = a / 2 ^ k % 2 ^ (n - k) := by
  have hpow : 2 ^ n = 2 ^ k * 2 ^ (n - k) := by
    rw [← pow_add, Nat.add_sub_cancel' hkn]
  rw [hpow, Nat.mod_mul_right_div_self]

/-- Two numbers less than a half period apart agree above bit `k` exactly
when their reductions do. -/
theorem mod_div_eq_iff_of_near
    {a b k n : ℕ} (hab : a ≤ b) (hnear : b < a + 2 ^ n) (hkn : k ≤ n) :
    b % 2 ^ (n + 1) / 2 ^ k = a % 2 ^ (n + 1) / 2 ^ k ↔
      b / 2 ^ k = a / 2 ^ k := by
  rw [mod_pow_div_pow b (by omega), mod_pow_div_pow a (by omega)]
  constructor
  · intro h
    have hle : a / 2 ^ k ≤ b / 2 ^ k := Nat.div_le_div_right hab
    have hpow : 2 ^ n = 2 ^ k * 2 ^ (n - k) := by
      rw [← pow_add, Nat.add_sub_cancel' hkn]
    have hdiff : b / 2 ^ k ≤ a / 2 ^ k + 2 ^ (n - k) := by
      calc
        b / 2 ^ k ≤ (a + 2 ^ k * 2 ^ (n - k)) / 2 ^ k :=
          Nat.div_le_div_right (by omega)
        _ = a / 2 ^ k + 2 ^ (n - k) := by
          rw [Nat.add_mul_div_left _ _ (Nat.two_pow_pos k)]
    have hdouble : 2 ^ (n + 1 - k) = 2 * 2 ^ (n - k) := by
      rw [show n + 1 - k = (n - k) + 1 by omega, pow_succ, Nat.mul_comm]
    have hpos : 0 < 2 ^ (n - k) := Nat.two_pow_pos _
    have hmod := Nat.sub_mod_eq_zero_of_mod_eq h
    have hlt : b / 2 ^ k - a / 2 ^ k < 2 ^ (n + 1 - k) := by omega
    rw [Nat.mod_eq_of_lt hlt] at hmod
    omega
  · intro h
    rw [h]

end Masks
