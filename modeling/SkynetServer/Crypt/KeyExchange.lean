import SkynetServer.Crypt.PowMod

/-!
# Key agreement

`dhexchange` raises 5 to a secret power, and `dhsecret` raises what the other
party sent to the own one.  Numbers of 64 bits are passed as eight bytes, the
low one first.
-/

namespace SkynetServer.LuaCrypt

/-! ## The source -/

/-- Why a call raises an error. -/
inductive DhError where
  | key
  | x
  | y
  | zero
  deriving DecidableEq

/-- The message of the error. -/
def DhError.message : DhError → String
  | .key => "Invalid dh uint64 key"
  | .x => "Invalid uint64 x"
  | .y => "Invalid uint64 y"
  | .zero => "Can't be 0"

/-- The word of 32 bits in the bytes from `i` on. -/
def word32 (x : List UInt8) (i : ℕ) : BitVec 32 :=
  (x.getD i 0).toBitVec.setWidth 32 |||
    (x.getD (i + 1) 0).toBitVec.setWidth 32 <<< 8 |||
    (x.getD (i + 2) 0).toBitVec.setWidth 32 <<< 16 |||
    (x.getD (i + 3) 0).toBitVec.setWidth 32 <<< 24

/-- The number of two words. -/
def word64 (x : List UInt8) : BitVec 64 :=
  (word32 x 0).setWidth 64 ||| (word32 x 4).setWidth 64 <<< 32

/-- `push64` -/
def push64 (r : BitVec 64) : List UInt8 :=
  [.ofBitVec ((r &&& 0xff).setWidth 8),
    .ofBitVec (((r >>> 8) &&& 0xff).setWidth 8),
    .ofBitVec (((r >>> 16) &&& 0xff).setWidth 8),
    .ofBitVec (((r >>> 24) &&& 0xff).setWidth 8),
    .ofBitVec (((r >>> 32) &&& 0xff).setWidth 8),
    .ofBitVec (((r >>> 40) &&& 0xff).setWidth 8),
    .ofBitVec (((r >>> 48) &&& 0xff).setWidth 8),
    .ofBitVec (((r >>> 56) &&& 0xff).setWidth 8)]

/-- `read64` -/
def read64 (x y : List UInt8) : Except DhError (BitVec 64 × BitVec 64) :=
  if x.length ≠ 8 then .error .x
  else if y.length ≠ 8 then .error .y
  else .ok (word64 x, word64 y)

/-- `ldhsecret`; there is no result if the calls of `pow_mod_p` do not end. -/
def ldhsecret (x y : List UInt8) : Option (Except DhError (List UInt8)) :=
  match read64 x y with
  | .error e => some (.error e)
  | .ok (xx, yy) =>
    if xx = 0 ∨ yy = 0 then some (.error .zero)
    else (powmodp xx yy).map fun r => .ok (push64 r)

/-- `G` -/
def G : BitVec 64 := 5

/-- `ldhexchange`; there is no result if the calls of `pow_mod_p` do not end. -/
def ldhexchange (x : List UInt8) : Option (Except DhError (List UInt8)) :=
  if x.length ≠ 8 then some (.error .key)
  else
    let x64 := word64 x
    if x64 = 0 then some (.error .zero)
    else (powmodp G x64).map fun r => .ok (push64 r)

/-! ## Bytes -/

section Bytes

variable {x y : List UInt8} {xx yy : BitVec 64}

theorem low_byte (z : BitVec 64) : (z &&& 0xff).setWidth 8 = z.setWidth 8 := by
  rw [BitVec.setWidth_and]
  exact BitVec.and_allOnes

theorem bytes_of_word32 (z : BitVec 64) :
    (z.setWidth 8).setWidth 32 |||
      ((z >>> 8).setWidth 8).setWidth 32 <<< 8 |||
      ((z >>> 16).setWidth 8).setWidth 32 <<< 16 |||
      ((z >>> 24).setWidth 8).setWidth 32 <<< 24 = z.setWidth 32 := by
  refine BitVec.eq_of_getLsbD_eq fun i hi => ?_
  simp only [BitVec.getLsbD_or, BitVec.getLsbD_shiftLeft,
    BitVec.getLsbD_setWidth, BitVec.getLsbD_ushiftRight]
  by_cases h8 : i < 8
  · grind
  · by_cases h16 : i < 16
    · grind
    · by_cases h24 : i < 24
      · grind
      · grind

theorem halves_of_word64 (r : BitVec 64) :
    (r.setWidth 32).setWidth 64 |||
      ((r >>> 32).setWidth 32).setWidth 64 <<< 32 = r := by
  refine BitVec.eq_of_getLsbD_eq fun i hi => ?_
  simp only [BitVec.getLsbD_or, BitVec.getLsbD_shiftLeft,
    BitVec.getLsbD_setWidth, BitVec.getLsbD_ushiftRight]
  grind

theorem word64_push64 (r : BitVec 64) : word64 (push64 r) = r := by
  have hlow : word32 (push64 r) 0 = r.setWidth 32 := by
    rw [push64, low_byte, low_byte, low_byte, low_byte, low_byte, low_byte,
      low_byte, low_byte]
    exact bytes_of_word32 r
  have hhigh : word32 (push64 r) 4 = (r >>> 32).setWidth 32 := by
    rw [push64, low_byte, low_byte, low_byte, low_byte, low_byte, low_byte,
      low_byte, low_byte, ← bytes_of_word32, ← BitVec.shiftRight_add,
      ← BitVec.shiftRight_add, ← BitVec.shiftRight_add]
    rfl
  rw [word64, hlow, hhigh, halves_of_word64]

end Bytes

/-! ## The common secret -/

section Secret

variable {x y : List UInt8}

/-- No power of 5 is a multiple of `P`. -/
theorem pow_five_mod_ne_zero (n : ℕ) : G.toNat ^ n % P.toNat ≠ 0 := by
  intro h
  have hcoprime : Nat.Coprime P.toNat (G.toNat ^ n) :=
    Nat.Coprime.pow_right n (by decide)
  have hone : P.toNat = 1 :=
    Nat.Coprime.eq_one_of_dvd hcoprime (Nat.dvd_of_mod_eq_zero h)
  exact absurd hone (by decide)

/-- What `dhexchange` sends is a power of 5 modulo `P`, and not zero. -/
theorem ldhexchange_spec
    (hx : x.length = 8) (hword : word64 x ≠ 0) :
    ∃ r, ldhexchange x = some (.ok (push64 r)) ∧ r ≠ 0 ∧
      r.toNat = G.toNat ^ (word64 x).toNat % P.toNat := by
  obtain ⟨r, hr, hmod, hlt⟩ := powmodp_spec G hword
  have hG : ¬ (G = P ∧ word64 x = 1) := fun h => absurd h.1 (by decide)
  have hpow : r.toNat = G.toNat ^ (word64 x).toNat % P.toNat :=
    (Nat.mod_eq_of_lt (hlt.mpr hG)).symm.trans hmod
  refine ⟨r, ?_, fun hzero => ?_, hpow⟩
  · rw [ldhexchange, if_neg (not_not.mpr hx)]
    dsimp only
    rw [if_neg hword, hr]
    rfl
  · rw [hzero] at hpow
    exact pow_five_mod_ne_zero _ hpow.symm

/-- The secret is a power of what was sent. -/
theorem ldhsecret_spec
    {r : BitVec 64} (hr : r ≠ 0) (hlt : r.toNat < P.toNat) (hy : y.length = 8)
    (hword : word64 y ≠ 0) :
    ∃ s, ldhsecret (push64 r) y = some (.ok (push64 s)) ∧
      s.toNat = r.toNat ^ (word64 y).toNat % P.toNat := by
  obtain ⟨s, hs, hmod, hslt⟩ := powmodp_spec r hword
  have hne : ¬ (r = P ∧ word64 y = 1) := by
    rintro ⟨rfl, -⟩
    exact Nat.lt_irrefl _ hlt
  refine ⟨s, ?_, (Nat.mod_eq_of_lt (hslt.mpr hne)).symm.trans hmod⟩
  have hread : read64 (push64 r) y = .ok (r, word64 y) := by
    have hlen : (push64 r).length = 8 := rfl
    rw [read64, if_neg (not_not.mpr hlen), if_neg (not_not.mpr hy),
      word64_push64]
  rw [ldhsecret, hread]
  dsimp only
  rw [if_neg (not_or.mpr ⟨hr, hword⟩), hs]
  rfl

/-- Both parties get the same secret, and no call raises an error. -/
theorem ldhsecret_ldhexchange_comm
    (hx : x.length = 8) (hxword : word64 x ≠ 0) (hy : y.length = 8)
    (hyword : word64 y ≠ 0) :
    ∃ ex ey secret, ldhexchange x = some (.ok ex) ∧
      ldhexchange y = some (.ok ey) ∧
      ldhsecret ex y = some (.ok secret) ∧
      ldhsecret ey x = some (.ok secret) := by
  have hP : 0 < P.toNat := by decide
  obtain ⟨r, hr, hrne, hrpow⟩ := ldhexchange_spec hx hxword
  obtain ⟨t, ht, htne, htpow⟩ := ldhexchange_spec hy hyword
  have hrlt : r.toNat < P.toNat := hrpow ▸ Nat.mod_lt _ hP
  have htlt : t.toNat < P.toNat := htpow ▸ Nat.mod_lt _ hP
  obtain ⟨s, hs, hspow⟩ := ldhsecret_spec hrne hrlt hy hyword
  obtain ⟨u, hu, hupow⟩ := ldhsecret_spec htne htlt hx hxword
  have hsame : s = u := by
    refine BitVec.eq_of_toNat_eq ?_
    calc
      s.toNat = (G.toNat ^ (word64 x).toNat) ^ (word64 y).toNat % P.toNat := by
        rw [hspow, hrpow, ← Nat.pow_mod]
      _ = (G.toNat ^ (word64 y).toNat) ^ (word64 x).toNat % P.toNat := by
        rw [← Nat.pow_mul, ← Nat.pow_mul, Nat.mul_comm]
      _ = u.toNat := by
        rw [hupow, htpow, ← Nat.pow_mod]
  exact ⟨push64 r, push64 t, push64 s, hr, ht, hs, hsame ▸ hu⟩

theorem ldhsecret_ldhexchange_comm_of_three_four :
    ∃ ex ey secret,
      ldhexchange [3, 0, 0, 0, 0, 0, 0, 0] = some (.ok ex) ∧
      ldhexchange [4, 0, 0, 0, 0, 0, 0, 0] = some (.ok ey) ∧
      ldhsecret ex [4, 0, 0, 0, 0, 0, 0, 0] = some (.ok secret) ∧
      ldhsecret ey [3, 0, 0, 0, 0, 0, 0, 0] = some (.ok secret) :=
  ldhsecret_ldhexchange_comm rfl (by decide) rfl (by decide)

end Secret

end SkynetServer.LuaCrypt
