import SkynetServer.Sproto.Lua

/-!
# Words and integers

An integer that is the same in 32 bits is the expansion of its low four bytes;
any other is read from eight.
-/

namespace SkynetServer.Sproto

open LittleEndian Memory

theorem toword_bytes {n : ℕ} (h : n < 2 ^ 16) (rest : List UInt8) :
    toword (bytes 2 n ++ rest) = n := by
  rw [toword, List.take_left' (length_bytes 2 n)]
  exact number_bytes_of_lt h

theorem todword_bytes (n : ℕ) (rest : List UInt8) :
    todword (bytes 4 n ++ rest) = n % 2 ^ 32 := by
  rw [todword, List.take_left' (length_bytes 4 n)]
  exact number_bytes 4 n

theorem testBit_top {v : ℕ} (h : v < 2 ^ 32) :
    v.testBit 31 = decide (2 ^ 31 ≤ v) := by
  rw [Nat.testBit_eq_decide_div_mod_eq]
  congr 1
  rw [eq_iff_iff]
  omega

theorem expand64_eq {v : ℕ} (h : v < 2 ^ 32) :
    expand64 v = if 2 ^ 31 ≤ v then v + (2 ^ 64 - 2 ^ 32) else v := by
  rw [expand64, testBit_top h]
  simp only [decide_eq_true_eq]
  split
  · rw [Nat.or_comm, ← Nat.shiftLeft_add_eq_or_of_lt h, Nat.add_comm]
    rfl
  · rfl

/-- The integer is the same in 32 bits. -/
def Narrow (x : BitVec 64) : Prop :=
  x.sshiftRight 31 = 0 ∨ x.sshiftRight 31 = -1

instance : DecidablePred Narrow :=
  fun x => inferInstanceAs (Decidable (x.sshiftRight 31 = 0 ∨ _))

theorem narrow_iff (x : BitVec 64) :
    Narrow x ↔ x.toNat < 2 ^ 31 ∨ 2 ^ 64 - 2 ^ 31 ≤ x.toNat := by
  have hint : (x.sshiftRight 31).toInt = x.toInt / 2 ^ 31 := by
    rw [BitVec.toInt_sshiftRight, Int.shiftRight_eq_div_pow]
    rfl
  have hx := x.isLt
  have htoInt := BitVec.toInt_eq_toNat_cond x
  unfold Narrow
  rw [← BitVec.toInt_inj, ← BitVec.toInt_inj, hint]
  have hzero : (0 : BitVec 64).toInt = 0 := rfl
  have hone : (-1 : BitVec 64).toInt = -1 := rfl
  rw [hzero, hone, htoInt]
  split
  all_goals omega

variable {x : BitVec 64}

theorem expand64_narrow (h : Narrow x) :
    expand64 (x.toNat % 2 ^ 32) = x.toNat := by
  have hx := x.isLt
  rw [expand64_eq (Nat.mod_lt _ (by decide))]
  rcases (narrow_iff x).1 h with hlow | hhigh
  · rw [Nat.mod_eq_of_lt (by omega), if_neg (by omega)]
  · have hmod : x.toNat % 2 ^ 32 = x.toNat - (2 ^ 64 - 2 ^ 32) := by omega
    rw [hmod, if_pos (by omega)]
    omega

/-- The high four bytes of an integer that is the same in 32 bits. -/
theorem bytes_narrow (h : Narrow x) :
    bytes 8 x.toNat = bytes 4 x.toNat ++ List.replicate 4
      (if (x.toNat % 2 ^ 32).testBit 31 then 0xff else 0) := by
  have hx := x.isLt
  rw [bytes_add 4 4, testBit_top (Nat.mod_lt _ (by decide))]
  congr 1
  simp only [decide_eq_true_eq]
  rcases (narrow_iff x).1 h with hlow | hhigh
  · have hdiv : x.toNat / 256 ^ 4 = 0 := by omega
    rw [hdiv, Nat.mod_eq_of_lt (by omega), if_neg (by omega)]
    rfl
  · have hdiv : x.toNat / 256 ^ 4 = 0xffffffff := by omega
    rw [hdiv, if_pos (by omega)]
    rfl

theorem integerAt_four (h : Narrow x) (rest : List UInt8) :
    integerAt 4 (bytes 4 x.toNat ++ rest) = x.toNat := by
  rw [integerAt, if_pos (by decide), todword_bytes]
  exact expand64_narrow h

theorem integerAt_eight (x : BitVec 64) (rest : List UInt8) :
    integerAt 8 (bytes 8 x.toNat ++ rest) = x.toNat := by
  have hx := x.isLt
  have hhigh : x.toNat / 256 ^ 4 < 2 ^ 32 := by omega
  rw [integerAt, if_neg (by decide), bytes_add 4 4, List.append_assoc,
    todword_bytes, sizeofInt32, List.drop_left' (length_bytes 4 _),
    todword_bytes, Nat.mod_eq_of_lt hhigh, Nat.or_comm,
    ← Nat.shiftLeft_add_eq_or_of_lt (Nat.mod_lt _ (by decide)),
    Nat.shiftLeft_eq]
  omega

theorem ofNat_number :
    BitVec.ofNat 64 (number (bytes 8 x.toNat)) = x := by
  rw [number_bytes_of_lt x.isLt, BitVec.ofNat_toNat, BitVec.setWidth_eq]

end SkynetServer.Sproto
