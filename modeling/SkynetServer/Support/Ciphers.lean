import Mathlib.Data.Prod.Basic

/-!
# Feistel networks and swaps of bits

A round of a Feistel network adds a function of one half of a block to the other
half, and swaps the halves.  It is undone by itself if what is added twice
cancels out, whatever the function is.

A swap exchanges bits of one word with bits of another one; it is undone by
itself too.
-/

namespace Ciphers

/-! ## Feistel networks -/

section Feistel

variable {α κ : Type*} (op : α → α → α) (F : κ → α → α)

/-- A round with the key `k`. -/
def round (k : κ) (s : α × α) : α × α := (s.2, op s.1 (F k s.2))

/-- The rounds with these keys. -/
def rounds : List κ → α × α → α × α
  | [], s => s
  | k :: ks, s => rounds ks (round op F k s)

theorem rounds_append (ks ks' : List κ) (s : α × α) :
    rounds op F (ks ++ ks') s = rounds op F ks' (rounds op F ks s) := by
  induction ks generalizing s with
  | nil => rfl
  | cons k ks ih => exact ih _

variable {op} (hop : ∀ x y, op (op x y) y = x)

include hop

theorem round_swap (k : κ) (s : α × α) :
    round op F k (round op F k s).swap = s.swap :=
  Prod.ext rfl (hop s.1 (F k s.2))

/-- The rounds are undone by those with the keys in reversed order. -/
theorem rounds_reverse (ks : List κ) (s : α × α) :
    rounds op F ks.reverse (rounds op F ks s).swap = s.swap := by
  induction ks generalizing s with
  | nil => rfl
  | cons k ks ih =>
      rw [rounds, List.reverse_cons, rounds_append, ih]
      exact round_swap F hop k s

end Feistel

/-! ## Swaps of bits -/

section Swap

variable {w : ℕ}

/-- Exchange the bits of the first word that are `n` bits above those of `m`
with the bits of `m` of the second one. -/
def swapBits (n : ℕ) (m : BitVec w) (s : BitVec w × BitVec w) :
    BitVec w × BitVec w :=
  let t := ((s.1 >>> n) ^^^ s.2) &&& m
  (s.1 ^^^ (t <<< n), s.2 ^^^ t)

theorem shiftLeft_shiftRight_and
    {n : ℕ} {m : BitVec w} (hm : m <<< n >>> n = m)
    (u : BitVec w) : (u &&& m) <<< n >>> n = u &&& m := by
  refine BitVec.eq_of_getLsbD_eq fun i hi => ?_
  have hbit := congrArg (BitVec.getLsbD · i) hm
  simp only [BitVec.getLsbD_ushiftRight, BitVec.getLsbD_shiftLeft,
    BitVec.getLsbD_and, Nat.add_sub_cancel_left] at hbit ⊢
  rw [Bool.and_left_comm, hbit]

/-- A swap is undone by itself if no bit is shifted out of a word. -/
theorem swapBits_swapBits
    {n : ℕ} {m : BitVec w} (hm : m <<< n >>> n = m)
    (s : BitVec w × BitVec w) : swapBits n m (swapBits n m s) = s := by
  have hback := shiftLeft_shiftRight_and hm ((s.1 >>> n) ^^^ s.2)
  have hsame : ((s.1 ^^^ ((((s.1 >>> n) ^^^ s.2) &&& m) <<< n)) >>> n ^^^
      (s.2 ^^^ (((s.1 >>> n) ^^^ s.2) &&& m))) &&& m =
        ((s.1 >>> n) ^^^ s.2) &&& m := by
    rw [BitVec.ushiftRight_xor_distrib, hback, BitVec.xor_assoc,
      ← BitVec.xor_assoc _ s.2, BitVec.xor_comm _ s.2, BitVec.xor_assoc s.2,
      BitVec.xor_self, BitVec.xor_zero]
  refine Prod.ext ?_ ?_
  · rw [swapBits, swapBits]
    dsimp only
    rw [hsame, BitVec.xor_assoc, BitVec.xor_self, BitVec.xor_zero]
  · rw [swapBits, swapBits]
    dsimp only
    rw [hsame, BitVec.xor_assoc, BitVec.xor_self, BitVec.xor_zero]

end Swap

end Ciphers
