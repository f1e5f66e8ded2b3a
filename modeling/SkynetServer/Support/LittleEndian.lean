import Mathlib.Data.List.Basic
import Mathlib.Algebra.Group.Nat.Defs

/-!
# Numbers in bytes

A number in a fixed count of bytes, the low one first, and the two ends of
reading a stream of bytes.
-/

namespace LittleEndian

/-- The low `w` bytes of a number. -/
def bytes : ℕ → ℕ → List UInt8
  | 0, _ => []
  | w + 1, n => UInt8.ofNat n :: bytes w (n / 256)

/-- The number in the bytes. -/
def number : List UInt8 → ℕ
  | [] => 0
  | b :: bs => b.toNat + 256 * number bs

@[simp] theorem length_bytes (w n : ℕ) : (bytes w n).length = w := by
  induction w generalizing n with
  | zero => rfl
  | succ w ih => rw [bytes, List.length_cons, ih]

theorem number_bytes (w n : ℕ) : number (bytes w n) = n % 256 ^ w := by
  induction w generalizing n with
  | zero => rw [bytes, number, Nat.pow_zero, Nat.mod_one]
  | succ w ih =>
      have hpow : 256 ^ (w + 1) = 256 * 256 ^ w := Nat.pow_succ'
      rw [bytes, number, ih, UInt8.toNat_ofNat', hpow, Nat.mod_mul]

theorem number_bytes_of_lt {w n : ℕ} (h : n < 256 ^ w) :
    number (bytes w n) = n := by
  rw [number_bytes, Nat.mod_eq_of_lt h]

theorem bytes_add (w k n : ℕ) :
    bytes (w + k) n = bytes w n ++ bytes k (n / 256 ^ w) := by
  induction w generalizing n with
  | zero => rw [Nat.zero_add, Nat.pow_zero, Nat.div_one, bytes, List.nil_append]
  | succ w ih =>
      have hwidth : w + 1 + k = w + k + 1 := by omega
      rw [hwidth, bytes, bytes, ih, List.cons_append, Nat.div_div_eq_div_mul,
        Nat.pow_succ']

theorem bytes_mod (w n : ℕ) : bytes w (n % 256 ^ w) = bytes w n := by
  induction w generalizing n with
  | zero => rfl
  | succ w ih =>
      have hlow : UInt8.ofNat (n % (256 * 256 ^ w)) = UInt8.ofNat n := by
        rw [← UInt8.toNat_inj, UInt8.toNat_ofNat', UInt8.toNat_ofNat',
          Nat.mod_mul_right_mod]
      rw [bytes, bytes, Nat.pow_succ', hlow, Nat.mod_mul_right_div_self, ih]

theorem number_lt (bs : List UInt8) : number bs < 256 ^ bs.length := by
  induction bs with
  | nil => exact Nat.one_pos
  | cons b bs ih =>
      have hb := b.toNat_lt
      rw [number, List.length_cons, Nat.pow_succ']
      omega

theorem bytes_number (bs : List UInt8) : bytes bs.length (number bs) = bs := by
  induction bs with
  | nil => rfl
  | cons b bs ih =>
      have hb := b.toNat_lt
      have hlow : UInt8.ofNat (b.toNat + 256 * number bs) = b := by
        rw [← UInt8.toNat_inj, UInt8.toNat_ofNat']
        omega
      have hhigh : (b.toNat + 256 * number bs) / 256 = number bs := by omega
      rw [List.length_cons, number, bytes, hlow, hhigh, ih]

/-- The first `n` bytes of a stream and the rest, if there are that many. -/
def read (n : ℕ) (stream : List UInt8) : Option (List UInt8 × List UInt8) :=
  if stream.length < n then none else some (stream.take n, stream.drop n)

theorem read_append (bs rest : List UInt8) :
    read bs.length (bs ++ rest) = some (bs, rest) := by
  have hlength : ¬ (bs ++ rest).length < bs.length := by
    rw [List.length_append]
    omega
  rw [read, if_neg hlength, List.take_left, List.drop_left]

theorem read_bytes (w n : ℕ) (rest : List UInt8) :
    read w (bytes w n ++ rest) = some (bytes w n, rest) := by
  have hread := read_append (bytes w n) rest
  rwa [length_bytes] at hread

theorem read_one (b : UInt8) (rest : List UInt8) :
    read 1 (b :: rest) = some ([b], rest) :=
  read_append [b] rest

end LittleEndian
