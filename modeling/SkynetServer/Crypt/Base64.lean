import SkynetServer.Support.Octets

/-!
# `base64encode` and `base64decode`

The decoder gathers four characters at a time and skips bytes that are neither
of the alphabet nor `=`.  It looks for a group as long as there are bytes left,
so skipped bytes behind the last group are an error.

Texts are shorter than 2^30 bytes: the `int` indices do not overflow.
-/

namespace SkynetServer.LuaCrypt

open Octets

/-! ## The source -/

/-- `encoding` -/
def encoding (v : BitVec 32) : UInt8 :=
  [65, 66, 67, 68, 69, 70, 71, 72, 73, 74, 75, 76, 77, 78, 79, 80, 81, 82, 83,
    84, 85, 86, 87, 88, 89, 90, 97, 98, 99, 100, 101, 102, 103, 104, 105, 106,
    107, 108, 109, 110, 111, 112, 113, 114, 115, 116, 117, 118, 119, 120, 121,
    122, 48, 49, 50, 51, 52, 53, 54, 55, 56, 57, 43, 47].getD v.toNat 0

/-- A byte as an `int`. -/
def toInt32 (b : UInt8) : BitVec 32 := b.toBitVec.setWidth 32

/-- `lb64encode` -/
def lb64encode : List UInt8 → List UInt8
  | a :: b :: c :: text =>
    let v := toInt32 a <<< 16 ||| toInt32 b <<< 8 ||| toInt32 c
    encoding (v >>> 18) :: encoding ((v >>> 12) &&& 0x3f) ::
      encoding ((v >>> 6) &&& 0x3f) :: encoding (v &&& 0x3f) ::
      lb64encode text
  | [a] =>
    let v := toInt32 a
    [encoding (v >>> 2), encoding ((v &&& 3) <<< 4), 61, 61]
  | [a, b] =>
    let v := toInt32 a <<< 8 ||| toInt32 b
    [encoding (v >>> 10), encoding ((v >>> 4) &&& 0x3f),
      encoding ((v &&& 0xf) <<< 2), 61]
  | [] => []

/-- `decoding` -/
def decoding : List (BitVec 32) :=
  [62, -1, -1, -1, 63, 52, 53, 54, 55, 56, 57, 58, 59, 60, 61, -1, -1, -1, -2,
    -1, -1, -1, 0, 1, 2, 3, 4, 5, 6, 7, 8, 9, 10, 11, 12, 13, 14, 15, 16, 17,
    18, 19, 20, 21, 22, 23, 24, 25, -1, -1, -1, -1, -1, -1, 26, 27, 28, 29, 30,
    31, 32, 33, 34, 35, 36, 37, 38, 39, 40, 41, 42, 43, 44, 45, 46, 47, 48, 49,
    50, 51]

/-- `b64index` -/
def b64index (c : UInt8) : BitVec 32 :=
  if c < 43 then -1
  else
    let c := c - 43
    if c.toNat ≥ decoding.length then -1 else decoding.getD c.toNat (-1)

/-- The inner loop of `lb64decode`, with `n` characters left to gather. -/
def gather : ℕ → List UInt8 → Option (List (BitVec 32) × List UInt8)
  | 0, text => some ([], text)
  | _ + 1, [] => none
  | n + 1, b :: text =>
    if b64index b = -1 then gather (n + 1) text
    else (gather n text).map fun r => (b64index b :: r.1, r.2)

/-- The `switch` of `lb64decode`. -/
def decodeGroup (c : List (BitVec 32)) : Option (List UInt8) :=
  let c0 := c.getD 0 0
  let c1 := c.getD 1 0
  let c2 := c.getD 2 0
  let c3 := c.getD 3 0
  match c.count (-2) with
  | 0 =>
    let v := c0 <<< 18 ||| c1 <<< 12 ||| c2 <<< 6 ||| c3
    some [.ofBitVec ((v >>> 16).setWidth 8),
      .ofBitVec (((v >>> 8) &&& 0xff).setWidth 8),
      .ofBitVec ((v &&& 0xff).setWidth 8)]
  | 1 =>
    if c3 ≠ -2 ∨ c2 &&& 3 ≠ 0 then none
    else
      let v := c0 <<< 10 ||| c1 <<< 4 ||| c2.sshiftRight 2
      some [.ofBitVec ((v >>> 8).setWidth 8),
        .ofBitVec ((v &&& 0xff).setWidth 8)]
  | 2 =>
    if c3 ≠ -2 ∨ c2 ≠ -2 ∨ c1 &&& 0xf ≠ 0 then none
    else
      let v := c0 <<< 2 ||| c1.sshiftRight 4
      some [.ofBitVec (v.setWidth 8)]
  | _ => none

/-- The outer loop of `lb64decode`.  A round takes four bytes at least, so one
for each byte is enough. -/
def decodeLoop : ℕ → List UInt8 → Option (List UInt8)
  | _, [] => some []
  | 0, _ :: _ => none
  | n + 1, text =>
    match gather 4 text with
    | none => none
    | some (c, text) =>
      match decodeGroup c with
      | none => none
      | some bytes => (decodeLoop n text).map (bytes ++ ·)

/-- `lb64decode`; an error is raised with "Invalid base64 text" if there is no
result. -/
def lb64decode (text : List UInt8) : Option (List UInt8) :=
  decodeLoop text.length text

/-! ## Characters -/

section Characters

/-- A byte that is skipped. -/
def IsForeign (b : UInt8) : Prop := b64index b = -1

instance : DecidablePred IsForeign := fun b =>
  inferInstanceAs (Decidable (b64index b = -1))

/-- A character that stands for six bits. -/
def IsSix (b : UInt8) : Prop := ¬ IsForeign b ∧ b ≠ 61

theorem b64index_eq_pad : ∀ b, b64index b = -2 ↔ b = 61 := by
  decide +kernel

theorem b64index_encoding
    {v : BitVec 32} (hv : v.toNat < 64) : b64index (encoding v) = v := by
  have hall : ∀ n < 64, b64index (encoding (BitVec.ofNat 32 n)) =
      BitVec.ofNat 32 n := by
    decide +kernel
  have hn := hall v.toNat hv
  rwa [BitVec.ofNat_toNat, BitVec.setWidth_eq] at hn

theorem ne_of_toNat_lt
    {v : BitVec 32} (hv : v.toNat < 64) : v ≠ -1 ∧ v ≠ -2 := by
  constructor
  · rintro rfl
    exact absurd hv (by decide)
  · rintro rfl
    exact absurd hv (by decide)

end Characters

/-! ## Bits -/

section Bits

variable {v : BitVec 32}

theorem getLsbD_six (i : ℕ) :
    (0x3f : BitVec 32).getLsbD i = decide (i < 6) := by
  by_cases hi : i < 32
  · revert i
    decide
  · rw [BitVec.getLsbD_of_ge _ _ (by omega)]
    exact (decide_eq_false (by omega)).symm

theorem toNat_and_six (u : BitVec 32) : (u &&& 0x3f).toNat < 64 := by
  rw [BitVec.toNat_and]
  exact Nat.lt_of_le_of_lt Nat.and_le_right (by decide)

theorem low_byte_of (z : BitVec 32) :
    (z &&& 0xff).setWidth 8 = z.setWidth 8 := by
  rw [BitVec.setWidth_and]
  exact BitVec.and_allOnes

/-- Four times six bits. -/
theorem four_sixes
    (hv : ∀ i, 24 ≤ i → v.getLsbD i = false) :
    (v >>> 18) <<< 18 ||| ((v >>> 12) &&& 0x3f) <<< 12 |||
      ((v >>> 6) &&& 0x3f) <<< 6 ||| (v &&& 0x3f) = v := by
  refine BitVec.eq_of_getLsbD_eq fun i hi => ?_
  have hhigh := hv i
  simp only [BitVec.getLsbD_or, BitVec.getLsbD_shiftLeft, BitVec.getLsbD_and,
    BitVec.getLsbD_ushiftRight, getLsbD_six]
  by_cases h6 : i < 6
  · grind
  · by_cases h12 : i < 12
    · grind
    · by_cases h18 : i < 18
      · grind
      · grind

/-- The bytes of a group of three. -/
theorem three_bytes
    (a b c : UInt8)
    (hv : v = toInt32 a <<< 16 ||| toInt32 b <<< 8 ||| toInt32 c) :
    (∀ i, 24 ≤ i → v.getLsbD i = false) ∧
      (v >>> 16).setWidth 8 = a.toBitVec ∧
      ((v >>> 8) &&& 0xff).setWidth 8 = b.toBitVec ∧
      (v &&& 0xff).setWidth 8 = c.toBitVec := by
  have hbit (i : ℕ) : v.getLsbD i = _ := congrArg (BitVec.getLsbD · i) hv
  simp only [toInt32, BitVec.getLsbD_or, BitVec.getLsbD_shiftLeft,
    BitVec.getLsbD_setWidth] at hbit
  refine ⟨?_, ?_, ?_, ?_⟩
  · intro i hi
    rw [hbit]
    grind
  · refine BitVec.eq_of_getLsbD_eq fun i hi => ?_
    rw [BitVec.getLsbD_setWidth, BitVec.getLsbD_ushiftRight, hbit]
    grind
  · refine BitVec.eq_of_getLsbD_eq fun i hi => ?_
    rw [low_byte_of, BitVec.getLsbD_setWidth, BitVec.getLsbD_ushiftRight, hbit]
    grind
  · refine BitVec.eq_of_getLsbD_eq fun i hi => ?_
    rw [low_byte_of, BitVec.getLsbD_setWidth, hbit]
    grind

/-- The bits of two bytes in two characters and the high bits of a third. -/
theorem two_sixes
    (hv : ∀ i, 16 ≤ i → v.getLsbD i = false) :
    (v >>> 10) <<< 10 ||| ((v >>> 4) &&& 0x3f) <<< 4 |||
      ((v &&& 0xf) <<< 2) >>> 2 = v ∧ ((v &&& 0xf) <<< 2) &&& 3 = 0 := by
  have hfour (i : ℕ) (hi : i < 32) :
      (0xf : BitVec 32).getLsbD i = decide (i < 4) := by
    revert i
    decide
  have htwo (i : ℕ) (hi : i < 32) :
      (3 : BitVec 32).getLsbD i = decide (i < 2) := by
    revert i
    decide
  refine ⟨BitVec.eq_of_getLsbD_eq fun i hi => ?_,
    BitVec.eq_of_getLsbD_eq fun i hi => ?_⟩
  · have hhigh := hv i
    have hmask := hfour i hi
    simp only [BitVec.getLsbD_or, BitVec.getLsbD_shiftLeft, BitVec.getLsbD_and,
      BitVec.getLsbD_ushiftRight, getLsbD_six]
    by_cases h4 : i < 4
    · grind
    · by_cases h10 : i < 10
      · grind
      · grind
  · rw [BitVec.getLsbD_and, BitVec.getLsbD_shiftLeft, htwo i hi]
    grind

theorem two_bytes
    (a b : UInt8) (hv : v = toInt32 a <<< 8 ||| toInt32 b) :
    (∀ i, 16 ≤ i → v.getLsbD i = false) ∧
      (v >>> 8).setWidth 8 = a.toBitVec ∧
      (v &&& 0xff).setWidth 8 = b.toBitVec := by
  have hbit (i : ℕ) : v.getLsbD i = _ := congrArg (BitVec.getLsbD · i) hv
  simp only [toInt32, BitVec.getLsbD_or, BitVec.getLsbD_shiftLeft,
    BitVec.getLsbD_setWidth] at hbit
  refine ⟨?_, ?_, ?_⟩
  · intro i hi
    rw [hbit]
    grind
  · refine BitVec.eq_of_getLsbD_eq fun i hi => ?_
    rw [BitVec.getLsbD_setWidth, BitVec.getLsbD_ushiftRight, hbit]
    grind
  · refine BitVec.eq_of_getLsbD_eq fun i hi => ?_
    rw [low_byte_of, BitVec.getLsbD_setWidth, hbit]
    grind

/-- A number with `n` bits has no more. -/
theorem toNat_lt_of_getLsbD
    {n : ℕ} (hv : ∀ i, n ≤ i → v.getLsbD i = false) : v.toNat < 2 ^ n :=
  Nat.lt_pow_two_of_testBit _ fun i hi => hv i hi

end Bits

/-! ## Groups -/

section Groups

variable {a b c d : UInt8}

/-- The characters, none of which is skipped, are a group: `=` only stands for
what is not there, and the bits that are left are zero. -/
def IsGroup (a b c d : UInt8) : Prop :=
  a ≠ 61 ∧ b ≠ 61 ∧
    (c ≠ 61 ∧ d ≠ 61 ∨ c ≠ 61 ∧ d = 61 ∧ b64index c &&& 3 = 0 ∨
      c = 61 ∧ d = 61 ∧ b64index b &&& 0xf = 0)

theorem decodeGroup_full
    {c0 c1 c2 c3 : BitVec 32} (h0 : c0 ≠ -2) (h1 : c1 ≠ -2) (h2 : c2 ≠ -2)
    (h3 : c3 ≠ -2) :
    decodeGroup [c0, c1, c2, c3] =
      let v := c0 <<< 18 ||| c1 <<< 12 ||| c2 <<< 6 ||| c3
      some [.ofBitVec ((v >>> 16).setWidth 8),
        .ofBitVec (((v >>> 8) &&& 0xff).setWidth 8),
        .ofBitVec ((v &&& 0xff).setWidth 8)] := by
  have hcount : [c0, c1, c2, c3].count (-2) = 0 := by
    rw [List.count_cons_of_ne h0, List.count_cons_of_ne h1,
      List.count_cons_of_ne h2, List.count_cons_of_ne h3, List.count_nil]
  rw [decodeGroup, hcount]
  rfl

theorem decodeGroup_two
    {c0 c1 c2 : BitVec 32} (h0 : c0 ≠ -2) (h1 : c1 ≠ -2) (h2 : c2 ≠ -2) :
    decodeGroup [c0, c1, c2, -2] =
      if c2 &&& 3 ≠ 0 then none
      else
        let v := c0 <<< 10 ||| c1 <<< 4 ||| c2.sshiftRight 2
        some [.ofBitVec ((v >>> 8).setWidth 8),
          .ofBitVec ((v &&& 0xff).setWidth 8)] := by
  have hcount : [c0, c1, c2, -2].count (-2) = 1 := by
    rw [List.count_cons_of_ne h0, List.count_cons_of_ne h1,
      List.count_cons_of_ne h2, List.count_cons_self, List.count_nil]
  rw [decodeGroup, hcount]
  simp

theorem decodeGroup_one
    {c0 c1 : BitVec 32} (h0 : c0 ≠ -2) (h1 : c1 ≠ -2) :
    decodeGroup [c0, c1, -2, -2] =
      if c1 &&& 0xf ≠ 0 then none
      else
        let v := c0 <<< 2 ||| c1.sshiftRight 4
        some [.ofBitVec (v.setWidth 8)] := by
  have hcount : [c0, c1, -2, -2].count (-2) = 2 := by
    rw [List.count_cons_of_ne h0, List.count_cons_of_ne h1,
      List.count_cons_self, List.count_cons_self, List.count_nil]
  rw [decodeGroup, hcount]
  simp

theorem decodeGroup_isSome_count
    (c0 c1 c2 c3 : BitVec 32) :
    (decodeGroup [c0, c1, c2, c3]).isSome ↔
      [c0, c1, c2, c3].count (-2) = 0 ∨
      [c0, c1, c2, c3].count (-2) = 1 ∧ c3 = -2 ∧ c2 &&& 3 = 0 ∨
      [c0, c1, c2, c3].count (-2) = 2 ∧ c3 = -2 ∧ c2 = -2 ∧
        c1 &&& 0xf = 0 := by
  have hif (p : Prop) [Decidable p] (bytes : List UInt8) :
      (if p then none else some bytes).isSome ↔ ¬ p := by
    split
    next h => exact iff_of_false Bool.false_ne_true (not_not.mpr h)
    next h => exact iff_of_true rfl h
  rw [decodeGroup]
  dsimp only [List.getD_cons_zero, List.getD_cons_succ]
  generalize [c0, c1, c2, c3].count (-2) = n
  match n with
  | 0 => exact iff_of_true rfl (Or.inl rfl)
  | 1 | 2 =>
      refine (hif _ _).trans ?_
      simp
  | n + 3 =>
      refine iff_of_false Bool.false_ne_true ?_
      omega

theorem decodeGroup_isSome_iff
    (c0 c1 c2 c3 : BitVec 32) :
    (decodeGroup [c0, c1, c2, c3]).isSome ↔
      c0 ≠ -2 ∧ c1 ≠ -2 ∧
        (c2 ≠ -2 ∧ c3 ≠ -2 ∨ c2 ≠ -2 ∧ c3 = -2 ∧ c2 &&& 3 = 0 ∨
          c2 = -2 ∧ c3 = -2 ∧ c1 &&& 0xf = 0) := by
  rw [decodeGroup_isSome_count]
  simp only [List.count_cons, List.count_nil, beq_iff_eq]
  generalize (-2 : BitVec 32) = z
  split <;> split <;> split <;> split <;> simp_all

/-- Exactly the groups are decoded. -/
theorem decodeGroup_isSome :
    (decodeGroup ([a, b, c, d].map b64index)).isSome ↔ IsGroup a b c d := by
  rw [List.map_cons, List.map_cons, List.map_cons, List.map_cons, List.map_nil,
    decodeGroup_isSome_iff, IsGroup, ne_eq, ne_eq, ne_eq, ne_eq,
    b64index_eq_pad, b64index_eq_pad, b64index_eq_pad, b64index_eq_pad]

end Groups

/-! ## Texts -/

section Texts

variable {a b c d : UInt8} {n : ℕ} {s t text rest x : List UInt8}

/-- What is left of a text without the bytes that are skipped. -/
def body (text : List UInt8) : List UInt8 := text.filter fun b => ¬ IsForeign b

/-- The last byte of the text is skipped. -/
def IsTrailing (text : List UInt8) : Prop :=
  ∃ b, text.getLast? = some b ∧ IsForeign b

/-- The characters are groups. -/
def WellFormed : List UInt8 → Prop
  | [] => True
  | a :: b :: c :: d :: rest => IsGroup a b c d ∧ WellFormed rest
  | _ => False

/-- The bytes of the groups. -/
def decodeBody : List UInt8 → Option (List UInt8)
  | [] => some []
  | a :: b :: c :: d :: rest =>
    (decodeGroup ([a, b, c, d].map b64index)).bind fun bytes =>
      (decodeBody rest).map (bytes ++ ·)
  | _ => none

theorem decodeBody_isSome : (decodeBody text).isSome ↔ WellFormed text := by
  induction text using decodeBody.induct with
  | case1 => exact iff_of_true rfl trivial
  | case2 a b c d rest ih =>
      rw [decodeBody, WellFormed, ← ih, ← decodeGroup_isSome]
      cases decodeGroup ([a, b, c, d].map b64index) with
      | none => exact iff_of_false Bool.false_ne_true fun h =>
          Bool.false_ne_true h.1
      | some bytes =>
          cases decodeBody rest with
          | none => exact iff_of_false Bool.false_ne_true fun h =>
              Bool.false_ne_true h.2
          | some others => exact iff_of_true rfl ⟨rfl, rfl⟩
  | case3 text hnil hfour =>
      obtain _ | ⟨a, _ | ⟨b, _ | ⟨c, _ | ⟨d, rest⟩⟩⟩⟩ := text
      · exact absurd rfl hnil
      · exact iff_of_false Bool.false_ne_true id
      · exact iff_of_false Bool.false_ne_true id
      · exact iff_of_false Bool.false_ne_true id
      · exact absurd rfl (hfour a b c d rest)

theorem body_cons_foreign (hb : IsForeign b) : body (b :: text) = body text :=
  List.filter_cons_of_neg (by simpa using hb)

theorem body_cons (hb : ¬ IsForeign b) : body (b :: text) = b :: body text :=
  List.filter_cons_of_pos (by simpa using hb)

theorem isTrailing_cons
    (htext : text ≠ []) : IsTrailing (b :: text) ↔ IsTrailing text := by
  obtain ⟨c, rest, rfl⟩ := List.exists_cons_of_ne_nil htext
  rw [IsTrailing, IsTrailing, List.getLast?_cons_cons]

theorem isTrailing_cons_of_not_isForeign
    (hb : ¬ IsForeign b) : IsTrailing (b :: text) ↔ IsTrailing text := by
  by_cases htext : text = []
  · subst htext
    refine iff_of_false ?_ ?_
    · rintro ⟨c, hc, hforeign⟩
      obtain rfl : b = c := Option.some.inj hc
      exact hb hforeign
    · rintro ⟨c, hc, -⟩
      cases hc
  · exact isTrailing_cons htext

/-- A text that is not skipped to its end has characters. -/
theorem body_ne_nil
    (htext : text ≠ []) (hlast : ¬ IsTrailing text) : body text ≠ [] := by
  intro hbody
  refine hlast ⟨text.getLast htext,
    List.getLast?_eq_getLast_of_ne_nil htext, ?_⟩
  have hall := List.filter_eq_nil_iff.mp hbody _ (List.getLast_mem htext)
  simpa using hall

/-! ### The inner loop -/

theorem gather_foreign
    (hb : IsForeign b) : gather (n + 1) (b :: text) = gather (n + 1) text :=
  if_pos hb

theorem gather_cons
    (hb : ¬ IsForeign b) :
    gather (n + 1) (b :: text) =
      (gather n text).map fun r => (b64index b :: r.1, r.2) :=
  if_neg hb

theorem gather_eq_none
    (hbody : (body text).length < n) : gather n text = none := by
  induction text generalizing n with
  | nil =>
      obtain ⟨n, rfl⟩ := Nat.exists_eq_succ_of_ne_zero (Nat.ne_zero_of_lt hbody)
      rfl
  | cons b text ih =>
      obtain ⟨n, rfl⟩ := Nat.exists_eq_succ_of_ne_zero (Nat.ne_zero_of_lt hbody)
      by_cases hb : IsForeign b
      · rw [body_cons_foreign hb] at hbody
        rw [gather_foreign hb, ih hbody]
      · rw [body_cons hb, List.length_cons] at hbody
        rw [gather_cons hb, ih (Nat.lt_of_succ_lt_succ hbody)]
        rfl

/-- The loop takes the first characters and the bytes that are skipped between
them. -/
theorem exists_gather
    (hbody : n ≤ (body text).length) :
    ∃ rest, gather n text = some (((body text).take n).map b64index, rest) ∧
      body rest = (body text).drop n ∧ rest.length + n ≤ text.length ∧
      (IsTrailing text ↔ IsTrailing rest) := by
  induction text generalizing n with
  | nil =>
      obtain rfl : n = 0 := Nat.le_zero.mp hbody
      exact ⟨[], rfl, rfl, Nat.le_refl _, Iff.rfl⟩
  | cons b text ih =>
      obtain _ | n := n
      · exact ⟨b :: text, rfl, rfl, Nat.le_refl _, Iff.rfl⟩
      by_cases hb : IsForeign b
      · rw [body_cons_foreign hb] at hbody ⊢
        obtain ⟨rest, hgather, hrest, hlen, hlast⟩ := ih hbody
        have htext : text ≠ [] := by
          rintro rfl
          exact absurd hbody (Nat.not_succ_le_zero n)
        refine ⟨rest, ?_, hrest, Nat.le_succ_of_le hlen,
          (isTrailing_cons htext).trans hlast⟩
        rw [gather_foreign hb, hgather]
      · rw [body_cons hb] at hbody ⊢
        obtain ⟨rest, hgather, hrest, hlen, hlast⟩ :=
          ih (Nat.le_of_succ_le_succ hbody)
        refine ⟨rest, ?_, hrest, Nat.succ_le_succ hlen,
          (isTrailing_cons_of_not_isForeign hb).trans hlast⟩
        rw [gather_cons hb, hgather]
        rfl

/-! ### The outer loop -/

theorem decodeBody_of_length_lt
    (hpos : text ≠ []) (hlen : text.length < 4) : decodeBody text = none := by
  obtain _ | ⟨a, _ | ⟨b, _ | ⟨c, _ | ⟨d, rest⟩⟩⟩⟩ := text
  · exact absurd rfl hpos
  · rfl
  · rfl
  · rfl
  · rw [List.length_cons, List.length_cons, List.length_cons,
      List.length_cons] at hlen
    omega

theorem decodeBody_of_le_length
    (hlen : 4 ≤ text.length) :
    decodeBody text =
      (decodeGroup ((text.take 4).map b64index)).bind fun bytes =>
        (decodeBody (text.drop 4)).map (bytes ++ ·) := by
  obtain _ | ⟨a, _ | ⟨b, _ | ⟨c, _ | ⟨d, rest⟩⟩⟩⟩ := text
  · cases hlen
  · rw [List.length_singleton] at hlen
    omega
  · rw [List.length_cons, List.length_singleton] at hlen
    omega
  · rw [List.length_cons, List.length_cons, List.length_singleton] at hlen
    omega
  · rfl

open Classical in
/-- A text is decoded to the bytes of its groups, unless bytes are skipped at
its end. -/
theorem decodeLoop_eq
    (hn : text.length ≤ n) :
    decodeLoop n text =
      if IsTrailing text then none else decodeBody (body text) := by
  induction n generalizing text with
  | zero =>
      rw [List.eq_nil_of_length_eq_zero (Nat.le_zero.mp hn)]
      exact (if_neg fun ⟨_, h, _⟩ => nomatch h).symm
  | succ n ih =>
      by_cases htext : text = []
      · subst htext
        exact (if_neg fun ⟨_, h, _⟩ => nomatch h).symm
      have hloop : decodeLoop (n + 1) text =
          match gather 4 text with
          | none => none
          | some (c, text) =>
            match decodeGroup c with
            | none => none
            | some bytes => (decodeLoop n text).map (bytes ++ ·) := by
        obtain ⟨b, rest, rfl⟩ := List.exists_cons_of_ne_nil htext
        rfl
      rw [hloop]
      by_cases hlen : (body text).length < 4
      · rw [gather_eq_none hlen]
        by_cases hlast : IsTrailing text
        · rw [if_pos hlast]
        · rw [if_neg hlast,
            decodeBody_of_length_lt (body_ne_nil htext hlast) hlen]
      · have hlen := Nat.le_of_not_lt hlen
        obtain ⟨rest, hgather, hrest, hrestlen, hlast⟩ := exists_gather hlen
        rw [hgather, decodeBody_of_le_length hlen, ← hrest]
        dsimp only
        cases decodeGroup (((body text).take 4).map b64index) with
        | none => exact (ite_self none).symm
        | some bytes =>
            dsimp only
            rw [ih (by omega)]
            by_cases htrail : IsTrailing text
            · rw [if_pos htrail, if_pos (hlast.mp htrail)]
              rfl
            · rw [if_neg htrail, if_neg (mt hlast.mpr htrail)]
              rfl

/-! ### Encoded texts -/

theorem not_isForeign_encoding
    {v : BitVec 32} (hv : v.toNat < 64) : ¬ IsForeign (encoding v) := by
  rw [IsForeign, b64index_encoding hv]
  exact (ne_of_toNat_lt hv).1

theorem not_isForeign_pad : ¬ IsForeign 61 := by decide

/-- The group of three bytes. -/
theorem encoded_three
    (a b c : UInt8) {v : BitVec 32}
    (hv : v = toInt32 a <<< 16 ||| toInt32 b <<< 8 ||| toInt32 c) :
    (∀ z ∈ [encoding (v >>> 18), encoding ((v >>> 12) &&& 0x3f),
      encoding ((v >>> 6) &&& 0x3f), encoding (v &&& 0x3f)],
        ¬ IsForeign z) ∧
    decodeGroup ([encoding (v >>> 18), encoding ((v >>> 12) &&& 0x3f),
      encoding ((v >>> 6) &&& 0x3f), encoding (v &&& 0x3f)].map b64index) =
        some [a, b, c] := by
  obtain ⟨hbits, ha, hb, hc⟩ := three_bytes a b c hv
  have h0 : (v >>> 18).toNat < 64 := by
    have hlt := toNat_lt_of_getLsbD hbits
    rw [BitVec.toNat_ushiftRight, Nat.shiftRight_eq_div_pow]
    omega
  have h1 := toNat_and_six (v >>> 12)
  have h2 := toNat_and_six (v >>> 6)
  have h3 := toNat_and_six v
  refine ⟨?_, ?_⟩
  · simp only [List.forall_mem_cons]
    exact ⟨not_isForeign_encoding h0, not_isForeign_encoding h1,
      not_isForeign_encoding h2, not_isForeign_encoding h3,
      List.forall_mem_nil _⟩
  · rw [List.map_cons, List.map_cons, List.map_cons, List.map_cons,
      List.map_nil, b64index_encoding h0, b64index_encoding h1,
      b64index_encoding h2, b64index_encoding h3,
      decodeGroup_full (ne_of_toNat_lt h0).2 (ne_of_toNat_lt h1).2
        (ne_of_toNat_lt h2).2 (ne_of_toNat_lt h3).2, four_sixes hbits]
    dsimp only
    rw [ha, hb, hc]

/-- The group of two bytes. -/
theorem encoded_two
    (a b : UInt8) {v : BitVec 32} (hv : v = toInt32 a <<< 8 ||| toInt32 b) :
    (∀ z ∈ [encoding (v >>> 10), encoding ((v >>> 4) &&& 0x3f),
      encoding ((v &&& 0xf) <<< 2), 61], ¬ IsForeign z) ∧
    decodeGroup ([encoding (v >>> 10), encoding ((v >>> 4) &&& 0x3f),
      encoding ((v &&& 0xf) <<< 2), 61].map b64index) = some [a, b] := by
  obtain ⟨hbits, ha, hb⟩ := two_bytes a b hv
  obtain ⟨hsum, hzero⟩ := two_sixes hbits
  have h0 : (v >>> 10).toNat < 64 := by
    have hlt := toNat_lt_of_getLsbD hbits
    rw [BitVec.toNat_ushiftRight, Nat.shiftRight_eq_div_pow]
    omega
  have h1 := toNat_and_six (v >>> 4)
  have h2 : ((v &&& 0xf) <<< 2).toNat < 64 := by
    have hle : (v &&& 0xf).toNat ≤ 15 := by
      rw [BitVec.toNat_and]
      exact Nat.and_le_right
    rw [BitVec.toNat_shiftLeft, Nat.shiftLeft_eq]
    omega
  have hmsb : ((v &&& 0xf) <<< 2).msb = false := by
    rw [BitVec.msb_eq_false_iff_two_mul_lt]
    omega
  have hpad : b64index 61 = -2 := by decide
  refine ⟨?_, ?_⟩
  · simp only [List.forall_mem_cons]
    exact ⟨not_isForeign_encoding h0, not_isForeign_encoding h1,
      not_isForeign_encoding h2, not_isForeign_pad, List.forall_mem_nil _⟩
  · rw [List.map_cons, List.map_cons, List.map_cons, List.map_cons,
      List.map_nil, b64index_encoding h0, b64index_encoding h1,
      b64index_encoding h2, hpad,
      decodeGroup_two (ne_of_toNat_lt h0).2 (ne_of_toNat_lt h1).2
        (ne_of_toNat_lt h2).2, if_neg (not_not.mpr hzero),
      BitVec.sshiftRight_eq_of_msb_false hmsb, hsum]
    dsimp only
    rw [ha, hb]

theorem one_byte : ∀ a : UInt8,
    (toInt32 a >>> 2).toNat < 64 ∧ ((toInt32 a &&& 3) <<< 4).toNat < 64 ∧
      ((toInt32 a &&& 3) <<< 4) &&& 0xf = 0 ∧
      (toInt32 a >>> 2) <<< 2 ||| ((toInt32 a &&& 3) <<< 4).sshiftRight 4 =
        toInt32 a := by
  decide +kernel

/-- The group of one byte. -/
theorem encoded_one (a : UInt8) :
    (∀ z ∈ [encoding (toInt32 a >>> 2), encoding ((toInt32 a &&& 3) <<< 4),
      61, 61], ¬ IsForeign z) ∧
    decodeGroup ([encoding (toInt32 a >>> 2),
      encoding ((toInt32 a &&& 3) <<< 4), 61, 61].map b64index) =
        some [a] := by
  obtain ⟨h0, h1, hzero, hsum⟩ := one_byte a
  have hpad : b64index 61 = -2 := by decide
  have ha : (toInt32 a).setWidth 8 = a.toBitVec := by
    rw [toInt32, BitVec.setWidth_setWidth_of_le _ (by decide),
      BitVec.setWidth_eq]
  refine ⟨?_, ?_⟩
  · simp only [List.forall_mem_cons]
    exact ⟨not_isForeign_encoding h0, not_isForeign_encoding h1,
      not_isForeign_pad, not_isForeign_pad, List.forall_mem_nil _⟩
  · rw [List.map_cons, List.map_cons, List.map_cons, List.map_cons,
      List.map_nil, b64index_encoding h0, b64index_encoding h1, hpad,
      decodeGroup_one (ne_of_toNat_lt h0).2 (ne_of_toNat_lt h1).2,
      if_neg (not_not.mpr hzero), hsum]
    dsimp only
    rw [ha]

/-- An encoded text has no byte that is skipped, and is decoded. -/
theorem decodeBody_lb64encode (x : List UInt8) :
    (∀ z ∈ lb64encode x, ¬ IsForeign z) ∧
      decodeBody (lb64encode x) = some x := by
  induction x using lb64encode.induct with
  | case1 a b c text ih =>
      obtain ⟨hforeign, hdecode⟩ := ih
      obtain ⟨hgroup, hbytes⟩ := encoded_three a b c rfl
      rw [lb64encode]
      refine ⟨?_, ?_⟩
      · exact List.forall_mem_append.mpr ⟨hgroup, hforeign⟩
      · rw [decodeBody, hbytes, hdecode]
        rfl
  | case2 a =>
      obtain ⟨hgroup, hbytes⟩ := encoded_one a
      rw [lb64encode]
      refine ⟨hgroup, ?_⟩
      rw [decodeBody, hbytes]
      rfl
  | case3 a b =>
      obtain ⟨hgroup, hbytes⟩ := encoded_two a b rfl
      rw [lb64encode]
      refine ⟨hgroup, ?_⟩
      rw [decodeBody, hbytes]
      rfl
  | case4 =>
      rw [lb64encode]
      exact ⟨List.forall_mem_nil _, rfl⟩

theorem not_isTrailing
    (htext : ∀ z ∈ text, ¬ IsForeign z) : ¬ IsTrailing text := by
  rintro ⟨b, hb, hforeign⟩
  exact htext b (List.mem_of_getLast? hb) hforeign

/-- What is encoded is decoded. -/
theorem lb64decode_lb64encode (x : List UInt8) :
    lb64decode (lb64encode x) = some x := by
  obtain ⟨hforeign, hdecode⟩ := decodeBody_lb64encode x
  have hbody : body (lb64encode x) = lb64encode x :=
    List.filter_eq_self.mpr fun z hz => by simpa using hforeign z hz
  rw [lb64decode, decodeLoop_eq (Nat.le_refl _),
    if_neg (not_isTrailing hforeign), hbody, hdecode]

/-- The texts are decoded alike if they are the same without the bytes that
are skipped. -/
def DecodedAlike (s t : List UInt8) : Prop :=
  body s = body t → lb64decode s = lb64decode t

/-- Texts are decoded alike if their characters are no groups, or bytes are
skipped at the end of both or of none. -/
theorem decodedAlike_iff (s t : List UInt8) :
    DecodedAlike s t ↔ (body s = body t →
      ¬ WellFormed (body s) ∨ (IsTrailing s ↔ IsTrailing t)) := by
  refine imp_congr_right fun hbody => ?_
  rw [lb64decode, lb64decode, decodeLoop_eq (Nat.le_refl _),
    decodeLoop_eq (Nat.le_refl _), ← hbody, ← decodeBody_isSome]
  cases hdecode : decodeBody (body s) with
  | none =>
      rw [ite_self, ite_self]
      exact iff_of_true rfl (Or.inl Bool.false_ne_true)
  | some bytes =>
      by_cases hs : IsTrailing s <;> by_cases ht : IsTrailing t <;>
        simp [hs, ht]

/-- What is encoded is decoded, and when two texts are decoded alike. -/
theorem base64_iff (x s t : List UInt8) :
    lb64decode (lb64encode x) = some x ∧
      (DecodedAlike s t ↔ (body s = body t →
        ¬ WellFormed (body s) ∨ (IsTrailing s ↔ IsTrailing t))) :=
  ⟨lb64decode_lb64encode x, decodedAlike_iff s t⟩

/-- A group of four characters, with a line break behind it and without. -/
theorem not_decodedAlike_of_newline :
    ¬ DecodedAlike [89, 87, 74, 106, 10] [89, 87, 74, 106] := by
  intro h
  exact absurd (h (by decide +kernel)) (by decide +kernel)

end Texts

end SkynetServer.LuaCrypt
