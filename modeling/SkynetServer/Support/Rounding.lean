import Mathlib.Data.Nat.Log
import Mathlib.Tactic.Linarith

/-!
# Rounding to double precision

Natural numbers as values of the IEEE double format: a significand of 53 bits,
rounded to the nearest value and to the even one in the middle.  Numbers that
lie farther apart than the spacing of the format stay different.
-/

namespace Rounding

/-- The exponent of the last place of a number with 53 significant bits. -/
def exponent (n : ℕ) : ℕ := Nat.log 2 n - 52

/-- The quotient by `2 ^ e`, rounded to nearest, ties to even. -/
def roundEven (n e : ℕ) : ℕ :=
  if 2 * (n % 2 ^ e) < 2 ^ e ∨
      2 * (n % 2 ^ e) = 2 ^ e ∧ n / 2 ^ e % 2 = 0 then n / 2 ^ e
  else n / 2 ^ e + 1

/-- The double nearest to a natural number. -/
def toDouble (n : ℕ) : ℕ := roundEven n (exponent n) * 2 ^ exponent n

/-- Rounding moves a number by at most half a place. -/
theorem roundEven_near (n e : ℕ) :
    2 * (roundEven n e * 2 ^ e) ≤ 2 * n + 2 ^ e ∧
      2 * n ≤ 2 * (roundEven n e * 2 ^ e) + 2 ^ e := by
  have hdiv : n / 2 ^ e * 2 ^ e + n % 2 ^ e = n := Nat.div_add_mod' n (2 ^ e)
  have hlt : n % 2 ^ e < 2 ^ e := Nat.mod_lt n (Nat.two_pow_pos e)
  unfold roundEven
  split
  · rename_i hdown
    constructor <;> omega
  · rename_i hup
    rw [Nat.add_mul, Nat.one_mul]
    constructor <;> omega

theorem toDouble_of_lt {n : ℕ} (h : n < 2 ^ 53) : toDouble n = n := by
  have hexp : exponent n = 0 := by
    have hlog : Nat.log 2 n < 53 := Nat.log_lt_of_lt_pow' (by omega) h
    unfold exponent
    omega
  unfold toDouble roundEven
  rw [hexp]
  simp [Nat.mod_one]

/-- Below `2 ^ 64` the places are at most `2 ^ 11`. -/
theorem two_pow_exponent_le {n : ℕ} (h : n < 2 ^ 64) :
    2 ^ exponent n ≤ 2 ^ 11 := by
  have hlog : Nat.log 2 n < 64 := Nat.log_lt_of_lt_pow' (by omega) h
  apply Nat.pow_le_pow_right (by omega)
  unfold exponent
  omega

/-- Numbers more than a place apart are not rounded to the same double. -/
theorem toDouble_ne
    {m n : ℕ} (hn : n < 2 ^ 64) (hfar : m + 2 ^ 11 < n) :
    toDouble m ≠ toDouble n := by
  have hm := two_pow_exponent_le (n := m) (by omega)
  have hn := two_pow_exponent_le hn
  have hnear := roundEven_near m (exponent m)
  have hnear' := roundEven_near n (exponent n)
  unfold toDouble
  omega

end Rounding
