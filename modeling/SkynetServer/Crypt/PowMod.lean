import Mathlib.Data.UInt
import Mathlib.Tactic.Ring

/-!
# `powmodp`

Multiplication by doubling and adding, and powers by squaring and multiplying,
modulo `P`.  A sum of two numbers below `P` does not fit in 64 bits, so the code
compares one of them with what the other one lacks to `P`.
-/

namespace SkynetServer.LuaCrypt

/-! ## The source -/

/-- `P` -/
def P : BitVec 64 := 0xffffffffffffffc5

/-- The sum in the loop of `mul_mod_p`. -/
def addP (m a : BitVec 64) : BitVec 64 :=
  let t := P - a
  if m ≥ t then m - t else m + a

/-- The doubling in the loop of `mul_mod_p`. -/
def doubleP (a : BitVec 64) : BitVec 64 :=
  if a ≥ P - a then a * 2 - P else a * 2

/-- The loop of `mul_mod_p`, with as many rounds as there are bits in `b`. -/
def mulLoop : ℕ → BitVec 64 → BitVec 64 → BitVec 64 → BitVec 64
  | 0, _, _, m => m
  | n + 1, a, b, m =>
    if b = 0 then m
    else
      let m := if b &&& 1 ≠ 0 then addP m a else m
      mulLoop n (doubleP a) (b >>> 1) m

/-- `mul_mod_p` -/
def mul_mod_p (a b : BitVec 64) : BitVec 64 := mulLoop 64 a b 0

/-- `pow_mod_p`, as far as the calls do not go deeper than this. -/
def powDepth : ℕ → BitVec 64 → BitVec 64 → Option (BitVec 64)
  | 0, _, _ => none
  | n + 1, a, b =>
    if b = 1 then some a
    else
      (powDepth n a (b >>> 1)).map fun t =>
        let t := mul_mod_p t t
        if b % 2 ≠ 0 then mul_mod_p t a else t

/-- `pow_mod_p`.  The exponent is halved in each call, so 64 calls are enough;
that of zero is zero again. -/
def pow_mod_p (a b : BitVec 64) : Option (BitVec 64) := powDepth 64 a b

/-- `powmodp` -/
def powmodp (a b : BitVec 64) : Option (BitVec 64) :=
  let a := if a > P then a % P else a
  pow_mod_p a b

/-! ## Sums and products -/

section Products

variable {a b m : BitVec 64} {n : ℕ}

theorem toNat_P : P.toNat = 0xffffffffffffffc5 := rfl

theorem addP_spec
    (ha : a.toNat ≤ P.toNat) (hm : m.toNat < P.toNat) :
    (addP m a).toNat < P.toNat ∧
      (addP m a).toNat ≡ m.toNat + a.toNat [MOD P.toNat] := by
  have ht : (P - a).toNat = P.toNat - a.toNat :=
    BitVec.toNat_sub_of_le ha
  rw [addP]
  split
  next hge =>
    have hle : P.toNat - a.toNat ≤ m.toNat := ht ▸ hge
    have hdiff : (m - (P - a)).toNat + P.toNat = m.toNat + a.toNat := by
      rw [BitVec.toNat_sub_of_le hge, ht]
      omega
    refine ⟨by omega, ?_⟩
    rw [← hdiff]
    exact (Nat.add_mod_right _ _).symm
  next hlt =>
    have hlt : m.toNat < P.toNat - a.toNat := ht ▸ Nat.lt_of_not_le hlt
    have hsum : (m + a).toNat = m.toNat + a.toNat := by
      refine BitVec.toNat_add_of_lt ?_
      have := P.isLt
      omega
    rw [hsum]
    exact ⟨by omega, Nat.ModEq.refl _⟩

theorem doubleP_spec
    (ha : a.toNat ≤ P.toNat) :
    (doubleP a).toNat ≤ P.toNat ∧
      (doubleP a).toNat ≡ 2 * a.toNat [MOD P.toNat] := by
  have ht : (P - a).toNat = P.toNat - a.toNat :=
    BitVec.toNat_sub_of_le ha
  rw [doubleP]
  split
  next hge =>
    have hle : P.toNat - a.toNat ≤ a.toNat := ht ▸ hge
    have hdiff : (a * 2 - P).toNat + P.toNat = 2 * a.toNat := by
      rw [toNat_P] at ha hle ⊢
      have hP : P = 0xffffffffffffffc5#64 := rfl
      rw [hP]
      bv_omega
    refine ⟨by omega, ?_⟩
    rw [← hdiff]
    exact (Nat.add_mod_right _ _).symm
  next hlt =>
    have hlt : a.toNat < P.toNat - a.toNat := ht ▸ Nat.lt_of_not_le hlt
    have hdouble : (a * 2).toNat = 2 * a.toNat := by
      rw [toNat_P] at hlt
      bv_omega
    rw [hdouble]
    exact ⟨by omega, Nat.ModEq.refl _⟩

theorem bit_zero (b : BitVec 64) : b &&& 1 ≠ 0 ↔ b.toNat % 2 = 1 := by
  have hbit : (b &&& 1).toNat = b.toNat % 2 := by
    rw [BitVec.toNat_and]
    exact Nat.and_one_is_mod _
  rw [ne_eq, ← BitVec.toNat_inj, hbit]
  exact Nat.mod_two_ne_zero

/-- The loop adds the product to `m`. -/
theorem mulLoop_spec
    (ha : a.toNat ≤ P.toNat) (hm : m.toNat < P.toNat) (hb : b.toNat < 2 ^ n) :
    (mulLoop n a b m).toNat < P.toNat ∧
      (mulLoop n a b m).toNat ≡
        m.toNat + a.toNat * b.toNat [MOD P.toNat] := by
  induction n generalizing a b m with
  | zero =>
      have hzero : b.toNat = 0 := by omega
      rw [hzero]
      exact ⟨hm, Nat.ModEq.refl _⟩
  | succ n ih =>
      rw [mulLoop]
      split
      next hzero =>
        rw [hzero]
        exact ⟨hm, Nat.ModEq.refl _⟩
      · obtain ⟨hale, hamod⟩ := doubleP_spec ha
        have hhalf : (b >>> 1).toNat = b.toNat / 2 := by
          rw [BitVec.toNat_ushiftRight, Nat.shiftRight_one]
        have hrest : (b >>> 1).toNat < 2 ^ n := by
          rw [hhalf, Nat.pow_succ] at *
          omega
        by_cases hbit : b &&& 1 ≠ 0
        · obtain ⟨hmlt, hmmod⟩ := addP_spec ha hm
          obtain ⟨hlt, hmod⟩ := ih hale hmlt hrest
          have hodd := (bit_zero b).mp hbit
          rw [if_pos hbit]
          refine ⟨hlt, hmod.trans ?_⟩
          have hprod : m.toNat + a.toNat * b.toNat =
              m.toNat + a.toNat + 2 * a.toNat * (b.toNat / 2) := by
            conv_lhs => rw [← Nat.div_add_mod b.toNat 2, hodd]
            ring
          rw [hprod, hhalf]
          exact hmmod.add (hamod.mul_right _)
        · obtain ⟨hlt, hmod⟩ := ih hale hm hrest
          have heven : b.toNat % 2 = 0 := by
            have := mt (bit_zero b).mpr hbit
            omega
          rw [if_neg hbit]
          refine ⟨hlt, hmod.trans ?_⟩
          have hprod : a.toNat * b.toNat =
              2 * a.toNat * (b.toNat / 2) := by
            conv_lhs => rw [← Nat.div_add_mod b.toNat 2, heven]
            ring
          rw [hprod, hhalf]
          exact (Nat.ModEq.refl _).add (hamod.mul_right _)

/-- `mul_mod_p` multiplies modulo `P`. -/
theorem mul_mod_p_spec
    (ha : a.toNat ≤ P.toNat) (b : BitVec 64) :
    (mul_mod_p a b).toNat = a.toNat * b.toNat % P.toNat := by
  have hzero : (0 : BitVec 64).toNat < P.toNat := by decide
  obtain ⟨hlt, hmod⟩ := mulLoop_spec ha hzero b.isLt
  rw [mul_mod_p, ← Nat.mod_eq_of_lt hlt]
  exact hmod.trans (congrArg (· % P.toNat) (Nat.zero_add _))

end Products

/-! ## Powers -/

section Powers

variable {a b r : BitVec 64} {n : ℕ}

/-- The calls return a power modulo `P`.  It is smaller than `P` if it is a
product. -/
theorem powDepth_spec
    (ha : a.toNat ≤ P.toNat) (hpos : 0 < b.toNat) (hb : b.toNat < 2 ^ n) :
    ∃ r, powDepth n a b = some r ∧ r.toNat ≤ P.toNat ∧
      r.toNat ≡ a.toNat ^ b.toNat [MOD P.toNat] ∧
      (b = 1 ∧ r = a ∨ b ≠ 1 ∧ r.toNat < P.toNat) := by
  induction n generalizing b with
  | zero => omega
  | succ n ih =>
      rw [powDepth]
      by_cases hone : b = 1
      · rw [if_pos hone, hone]
        refine ⟨a, rfl, ha, ?_, Or.inl ⟨rfl, rfl⟩⟩
        rw [show (1 : BitVec 64).toNat = 1 from rfl, Nat.pow_one]
      · have hne : b.toNat ≠ 1 := fun h => hone (BitVec.eq_of_toNat_eq h)
        have hhalf : (b >>> 1).toNat = b.toNat / 2 := by
          rw [BitVec.toNat_ushiftRight, Nat.shiftRight_one]
        rw [Nat.pow_succ] at hb
        obtain ⟨t, ht, htle, htmod, -⟩ :=
          ih (b := b >>> 1) (by omega) (by omega)
        have hP : 0 < P.toNat := by decide
        have hsquare := mul_mod_p_spec htle t
        have hsqlt : (mul_mod_p t t).toNat < P.toNat := by
          rw [hsquare]
          exact Nat.mod_lt _ hP
        have hsqmod : (mul_mod_p t t).toNat ≡
            a.toNat ^ (b.toNat / 2) * a.toNat ^ (b.toNat / 2)
              [MOD P.toNat] := by
          rw [hsquare, ← hhalf]
          exact (Nat.mod_modEq _ _).trans (htmod.mul htmod)
        rw [if_neg hone, ht]
        by_cases hodd : b % 2 ≠ 0
        · have hbit : b.toNat % 2 = 1 := by
            have hmod : (b % 2).toNat = b.toNat % 2 := rfl
            have : (b % 2).toNat ≠ 0 :=
              fun h => hodd (BitVec.eq_of_toNat_eq h)
            omega
          have hpow : a.toNat ^ b.toNat =
              a.toNat ^ (b.toNat / 2) * a.toNat ^ (b.toNat / 2) * a.toNat := by
            conv_lhs => rw [← Nat.div_add_mod b.toNat 2, hbit]
            ring
          have hmul := mul_mod_p_spec (Nat.le_of_lt hsqlt) a
          have hlt : (mul_mod_p (mul_mod_p t t) a).toNat < P.toNat := by
            rw [hmul]
            exact Nat.mod_lt _ hP
          refine ⟨_, congrArg some (if_pos hodd), Nat.le_of_lt hlt, ?_,
            Or.inr ⟨hone, hlt⟩⟩
          rw [hmul, hpow]
          exact (Nat.mod_modEq _ _).trans (hsqmod.mul_right _)
        · have hbit : b.toNat % 2 = 0 := by
            have hmod : (b % 2).toNat = b.toNat % 2 := rfl
            rw [← hmod, not_not.mp hodd]
            rfl
          have hpow : a.toNat ^ b.toNat =
              a.toNat ^ (b.toNat / 2) * a.toNat ^ (b.toNat / 2) := by
            conv_lhs => rw [← Nat.div_add_mod b.toNat 2, hbit]
            ring
          refine ⟨_, congrArg some (if_neg hodd), Nat.le_of_lt hsqlt, ?_,
            Or.inr ⟨hone, hsqlt⟩⟩
          rw [hpow]
          exact hsqmod

/-- The base of the power is not above `P`, and is `P` only if it was before. -/
theorem base_spec (a : BitVec 64) :
    (if a > P then a % P else a).toNat ≤ P.toNat ∧
      (if a > P then a % P else a).toNat ≡ a.toNat [MOD P.toNat] ∧
      ((if a > P then a % P else a) = P ↔ a = P) := by
  have hP : 0 < P.toNat := by decide
  split
  next hgt =>
    have hlt : (a % P).toNat < P.toNat := Nat.mod_lt _ hP
    refine ⟨Nat.le_of_lt hlt, Nat.mod_modEq _ _, ?_⟩
    refine iff_of_false (fun h => ?_) fun h => ?_
    · exact Nat.lt_irrefl _ (h ▸ hlt)
    · exact Nat.lt_irrefl P.toNat (h ▸ hgt)
  next hle => exact ⟨Nat.le_of_not_lt hle, Nat.ModEq.refl _, Iff.rfl⟩

/-- A call with an exponent that is not zero returns the power, up to a
multiple of `P`; it is a number below `P` unless the base is `P` and the
exponent one. -/
theorem powmodp_spec
    (a : BitVec 64) (hb : b ≠ 0) :
    ∃ r, powmodp a b = some r ∧
      r.toNat ≡ a.toNat ^ b.toNat [MOD P.toNat] ∧
      (r.toNat < P.toNat ↔ ¬ (a = P ∧ b = 1)) := by
  have hpos : 0 < b.toNat :=
    Nat.pos_of_ne_zero fun h => hb (BitVec.eq_of_toNat_eq h)
  obtain ⟨hle, hmod, hbase⟩ := base_spec a
  obtain ⟨r, hr, hrle, hrmod, hcase⟩ := powDepth_spec hle hpos b.isLt
  refine ⟨r, hr, hrmod.trans (hmod.pow _), ?_⟩
  rcases hcase with ⟨hone, hra⟩ | ⟨hone, hlt⟩
  · rw [← hbase, ← hra]
    constructor
    · rintro hlt ⟨hP, -⟩
      exact Nat.lt_irrefl _ (hP ▸ hlt)
    · intro h
      exact Nat.lt_of_le_of_ne hrle
        fun heq => h ⟨BitVec.eq_of_toNat_eq heq, hone⟩
  · exact iff_of_true hlt fun h => hone h.2

/-- The power is right except for the base `P` and the exponent one. -/
theorem powmodp_eq_iff
    (a : BitVec 64) (hb : b ≠ 0) :
    (∃ r, powmodp a b = some r ∧ r.toNat < P.toNat ∧
      r.toNat = a.toNat ^ b.toNat % P.toNat) ↔ ¬ (a = P ∧ b = 1) := by
  obtain ⟨r, hr, hmod, hlt⟩ := powmodp_spec a hb
  rw [← hlt]
  constructor
  · rintro ⟨r', hr', hlt', -⟩
    rwa [Option.some.inj (hr.symm.trans hr')]
  · intro h
    exact ⟨r, hr, h, (Nat.mod_eq_of_lt h).symm.trans hmod⟩

theorem powmodp_eq_of_three :
    ∃ r, powmodp 3 5 = some r ∧ r.toNat < P.toNat ∧
      r.toNat = (3 : BitVec 64).toNat ^ (5 : BitVec 64).toNat % P.toNat :=
  (powmodp_eq_iff 3 (by decide)).mpr (by decide)

/-- The first power of `P` is `P` itself. -/
theorem powmodp_P_one :
    ¬ ∃ r, powmodp P 1 = some r ∧ r.toNat < P.toNat ∧
      r.toNat = P.toNat ^ (1 : BitVec 64).toNat % P.toNat := by
  rintro ⟨r, hr, hlt, -⟩
  have hP : r = P := (Option.some.inj hr).symm
  exact Nat.lt_irrefl _ (hP ▸ hlt)

end Powers

end SkynetServer.LuaCrypt
