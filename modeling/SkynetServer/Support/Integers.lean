import Mathlib.Data.BitVec

/-!
# Machine integers

Casts between signed integers of different widths, and the numbers that are
not negative as signed integers.
-/

namespace Integers

theorem toInt_ofNat_of_lt {w n : ℕ} (h : 2 * n < 2 ^ w) :
    (BitVec.ofNat w n).toInt = n := by
  have hn : (BitVec.ofNat w n).toNat = n := by
    rw [BitVec.toNat_ofNat, Nat.mod_eq_of_lt (by omega)]
  rw [BitVec.toInt_eq_toNat_of_lt (by omega), hn]

theorem toNat_of_toInt_nonneg {w : ℕ} {x : BitVec w} (h : 0 ≤ x.toInt) :
    (x.toNat : ℤ) = x.toInt := by
  have hx := x.isLt
  rw [BitVec.toInt_eq_toNat_cond] at h ⊢
  split at h
  · rename_i hsmall
    rw [if_pos hsmall]
  · omega

/-- The 64 bits are kept in the low 32 bits. -/
theorem signExtend_setWidth_iff (i : BitVec 64) :
    (i.setWidth 32).signExtend 64 = i ↔
      -0x80000000 ≤ i.toInt ∧ i.toInt ≤ 0x7fffffff := by
  have hwide := BitVec.toInt_signExtend_of_le (x := i.setWidth 32)
    (show 32 ≤ 64 by decide)
  constructor
  · intro h
    rw [h] at hwide
    have hlow := BitVec.le_toInt (i.setWidth 32)
    have hhigh := BitVec.toInt_lt (x := i.setWidth 32)
    omega
  · rintro ⟨hlow, hhigh⟩
    apply BitVec.eq_of_toInt_eq
    rw [hwide]
    have hi := i.isLt
    rw [BitVec.toInt_eq_toNat_cond] at hlow hhigh
    rw [BitVec.toInt_eq_toNat_cond, BitVec.toInt_eq_toNat_cond,
      BitVec.toNat_setWidth]
    split at hlow <;> split <;> omega

end Integers
