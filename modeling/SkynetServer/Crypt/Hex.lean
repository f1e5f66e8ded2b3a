import SkynetServer.Support.Octets

/-!
# `hexencode` and `hexdecode`

A digit is converted by a subtraction that wraps around, and compared with 16
then.  The letters in front of `a` become digits too, and `g` becomes 16.

An index is an `int`; there is no result if it overflows.
-/

namespace SkynetServer.LuaCrypt

open Octets

/-! ## The source -/

/-- `INT_MAX` -/
def INT_MAX : ℕ := 0x7fffffff

/-- `hex` of `ltohex` -/
def hex (n : UInt8) : UInt8 :=
  [48, 49, 50, 51, 52, 53, 54, 55, 56, 57, 97, 98, 99, 100, 101, 102].getD
    n.toNat 0

/-- The loop of `ltohex` from the index `i` on. -/
def tohexLoop : ℕ → List UInt8 → Option (List UInt8)
  | _, [] => some []
  | i, b :: text =>
    if i * 2 + 1 > INT_MAX then none
    else
      (tohexLoop (i + 1) text).map fun buffer =>
        hex (b >>> 4) :: hex (b &&& 0xf) :: buffer

/-- `ltohex` -/
def ltohex (text : List UInt8) : Option (List UInt8) := tohexLoop 0 text

/-- `HEX` -/
def HEX (c : UInt8) : UInt8 :=
  if c ≥ 48 ∧ c ≤ 57 then c - 48 else c - 97 + 10

/-- Why a call raises an error. -/
inductive HexError where
  | size (sz : ℕ)
  | text
  /-- The index overflows. -/
  | undefined
  deriving DecidableEq

/-- The message of the error. -/
def HexError.message : HexError → String
  | .size sz => s!"Invalid hex text size {sz}"
  | .text => "Invalid hex text"
  | .undefined => ""

/-- The loop of `lfromhex` from the index `i` on. -/
def fromhexLoop : ℕ → List UInt8 → Except HexError (List UInt8)
  | i, a :: b :: text =>
    let hi := HEX a
    let low := HEX b
    if hi > 16 ∨ low > 16 then .error .text
    else if i + 2 > INT_MAX then .error .undefined
    else (fromhexLoop (i + 2) text).map (((hi <<< 4) ||| low) :: ·)
  | _, _ => .ok []

/-- `lfromhex` -/
def lfromhex (text : List UInt8) : Except HexError (List UInt8) :=
  if text.length % 2 ≠ 0 then .error (.size text.length)
  else fromhexLoop 0 text

/-! ## Digits -/

section Digits

/-- The digits `0` to `9` and `a` to `f`. -/
def IsDigit (c : UInt8) : Prop := 48 ≤ c ∧ c ≤ 57 ∨ 97 ≤ c ∧ c ≤ 102

instance : DecidablePred IsDigit := fun c =>
  inferInstanceAs (Decidable (48 ≤ c ∧ c ≤ 57 ∨ 97 ≤ c ∧ c ≤ 102))

/-- The bytes from `W` to the backquote, and `g`. -/
def IsExtra (c : UInt8) : Prop := 87 ≤ c ∧ c ≤ 96 ∨ c = 103

instance : DecidablePred IsExtra := fun c =>
  inferInstanceAs (Decidable (87 ≤ c ∧ c ≤ 96 ∨ c = 103))

/-- What becomes of a byte as a digit, and as two. -/
theorem byte_spec : ∀ c : UInt8,
    (¬ HEX c > 16 ↔ IsDigit c ∨ IsExtra c) ∧
    (IsDigit c → HEX c < 16 ∧ hex (HEX c) = c) ∧
    (IsDigit (hex (c >>> 4)) ∧ HEX (hex (c >>> 4)) = c >>> 4) ∧
    (IsDigit (hex (c &&& 0xf)) ∧ HEX (hex (c &&& 0xf)) = c &&& 0xf) ∧
    (c >>> 4) <<< 4 ||| (c &&& 0xf) = c := by
  decide +kernel

/-- Exactly these bytes pass the comparison. -/
theorem HEX_le_iff (c : UInt8) : ¬ HEX c > 16 ↔ IsDigit c ∨ IsExtra c :=
  (byte_spec c).1

theorem HEX_of_isDigit (c : UInt8) (hc : IsDigit c) :
    HEX c < 16 ∧ hex (HEX c) = c :=
  (byte_spec c).2.1 hc

theorem HEX_hex_high (b : UInt8) :
    IsDigit (hex (b >>> 4)) ∧ HEX (hex (b >>> 4)) = b >>> 4 :=
  (byte_spec b).2.2.1

theorem HEX_hex_low (b : UInt8) :
    IsDigit (hex (b &&& 0xf)) ∧ HEX (hex (b &&& 0xf)) = b &&& 0xf :=
  (byte_spec b).2.2.2.1

theorem nibbles (b : UInt8) : (b >>> 4) <<< 4 ||| (b &&& 0xf) = b :=
  (byte_spec b).2.2.2.2

theorem of_nibbles (hi low : UInt8) (hhi : hi < 16) (hlow : low < 16) :
    ((hi <<< 4) ||| low) >>> 4 = hi ∧ ((hi <<< 4) ||| low) &&& 0xf = low := by
  have hall : ∀ m < 16, ∀ n < 16,
      ((UInt8.ofNat m <<< 4) ||| UInt8.ofNat n) >>> 4 = UInt8.ofNat m ∧
      ((UInt8.ofNat m <<< 4) ||| UInt8.ofNat n) &&& 0xf = UInt8.ofNat n := by
    decide +kernel
  have hpair := hall hi.toNat (UInt8.lt_iff_toNat_lt.mp hhi) low.toNat
    (UInt8.lt_iff_toNat_lt.mp hlow)
  rwa [UInt8.ofNat_toNat, UInt8.ofNat_toNat] at hpair

end Digits

/-! ## The loops -/

section Loops

variable {i : ℕ} {x text : List UInt8}

/-- The digits of bytes. -/
def digits (x : List UInt8) : List UInt8 :=
  x.flatMap fun b : UInt8 => [hex (b >>> 4), hex (b &&& 0xf)]

/-- The bytes of digits. -/
def octets : List UInt8 → List UInt8
  | a :: b :: text => ((HEX a <<< 4) ||| HEX b) :: octets text
  | _ => []

theorem digits_cons (b : UInt8) (x : List UInt8) :
    digits (b :: x) = hex (b >>> 4) :: hex (b &&& 0xf) :: digits x := rfl

theorem length_digits (x : List UInt8) : (digits x).length = 2 * x.length := by
  induction x with
  | nil => rfl
  | cons b x ih =>
      rw [digits_cons, List.length_cons, List.length_cons, ih, List.length_cons,
        Nat.mul_succ]

theorem isDigit_of_mem_digits
    {c : UInt8} (hc : c ∈ digits x) : IsDigit c := by
  obtain ⟨b, -, hc⟩ := List.mem_flatMap.mp hc
  rcases List.mem_pair.mp hc with rfl | rfl
  · exact (HEX_hex_high b).1
  · exact (HEX_hex_low b).1

theorem octets_digits (x : List UInt8) : octets (digits x) = x := by
  induction x with
  | nil => rfl
  | cons b x ih =>
      rw [digits_cons, octets, (HEX_hex_high b).2, (HEX_hex_low b).2,
        nibbles, ih]

theorem digits_octets
    (heven : text.length % 2 = 0)
    (htext : ∀ c ∈ text, IsDigit c) : digits (octets text) = text := by
  induction text using octets.induct with
  | case1 a b text ih =>
      obtain ⟨hhi, ha⟩ := HEX_of_isDigit a (htext a (by simp))
      obtain ⟨hlow, hb⟩ := HEX_of_isDigit b (htext b (by simp))
      obtain ⟨hhigh, hrest⟩ := of_nibbles _ _ hhi hlow
      rw [List.length_cons, List.length_cons] at heven
      have ih := ih (by omega) fun c hc => htext c (by simp [hc])
      rw [octets, digits, List.flatMap_cons, hhigh, hrest, ha, hb]
      exact congrArg (a :: b :: ·) ih
  | case2 text hshort =>
      obtain _ | ⟨a, _ | ⟨b, text⟩⟩ := text
      · rfl
      · cases heven
      · exact absurd rfl (hshort a b text)

theorem tohexLoop_eq
    (hi : 2 * (i + x.length) ≤ INT_MAX + 1) :
    tohexLoop i x = some (digits x) := by
  induction x generalizing i with
  | nil => rfl
  | cons b x ih =>
      rw [List.length_cons] at hi
      rw [tohexLoop, if_neg (by omega), ih (by omega)]
      rfl

theorem tohexLoop_eq_none
    (hi : 2 * i ≤ INT_MAX + 1)
    (hover : INT_MAX + 1 < 2 * (i + x.length)) : tohexLoop i x = none := by
  induction x generalizing i with
  | nil =>
      rw [List.length_nil] at hover
      omega
  | cons b x ih =>
      rw [List.length_cons] at hover
      rw [tohexLoop]
      by_cases hlast : i * 2 + 1 > INT_MAX
      · rw [if_pos hlast]
      · rw [if_neg hlast, ih (by omega) (by omega)]
        rfl

/-- The bytes that are no digits and do not become digits either. -/
def IsBad (c : UInt8) : Prop := ¬ (IsDigit c ∨ IsExtra c)

instance : DecidablePred IsBad := fun c =>
  inferInstanceAs (Decidable (¬ (IsDigit c ∨ IsExtra c)))

theorem HEX_gt_iff (a b : UInt8) :
    (HEX a > 16 ∨ HEX b > 16) ↔ IsBad a ∨ IsBad b :=
  or_congr (not_iff_not.mp ((HEX_le_iff a).trans not_not.symm))
    (not_iff_not.mp ((HEX_le_iff b).trans not_not.symm))

/-- What the loop does with the first `n` pairs, as far as the index goes. -/
theorem fromhexLoop_eq_text
    (n : ℕ) (hn : i + 2 * n ≤ INT_MAX + 1) (heven : text.length % 2 = 0)
    (hbad : ∃ c ∈ text.take (2 * n), IsBad c) :
    fromhexLoop i text = .error .text := by
  induction n generalizing i text with
  | zero =>
      obtain ⟨c, hc, -⟩ := hbad
      cases hc
  | succ n ih =>
      obtain _ | ⟨a, _ | ⟨b, text⟩⟩ := text
      · obtain ⟨c, hc, -⟩ := hbad
        cases hc
      · cases heven
      · rw [fromhexLoop]
        by_cases hpair : IsBad a ∨ IsBad b
        · exact if_pos ((HEX_gt_iff a b).mpr hpair)
        · obtain ⟨ha, hb⟩ := not_or.mp hpair
          have hrest : ∃ c ∈ text.take (2 * n), IsBad c := by
            obtain ⟨c, hc, hcbad⟩ := hbad
            rw [Nat.mul_succ, List.take_succ_cons, List.take_succ_cons,
              List.mem_cons, List.mem_cons] at hc
            rcases hc with rfl | rfl | hc
            · exact absurd hcbad ha
            · exact absurd hcbad hb
            · exact ⟨c, hc, hcbad⟩
          have hone : 1 ≤ n := by
            obtain ⟨c, hc, -⟩ := hrest
            rcases n with _ | n
            · cases hc
            · omega
          rw [List.length_cons, List.length_cons] at heven
          rw [if_neg (mt (HEX_gt_iff a b).mp hpair), if_neg (by omega),
            ih (by omega) (by omega) hrest]
          rfl

/-- The loop goes on until the index overflows. -/
theorem fromhexLoop_eq_undefined
    (n : ℕ) (hn : i + 2 * n = INT_MAX + 1) (hpos : 0 < n)
    (hlen : 2 * n ≤ text.length) (hgood : ∀ c ∈ text.take (2 * n), ¬ IsBad c) :
    fromhexLoop i text = .error .undefined := by
  induction n generalizing i text with
  | zero => cases hpos
  | succ n ih =>
      obtain _ | ⟨a, _ | ⟨b, text⟩⟩ := text
      · cases hlen
      · rw [List.length_singleton] at hlen
        omega
      · rw [Nat.mul_succ, List.take_succ_cons, List.take_succ_cons] at hgood
        have hpair : ¬ (IsBad a ∨ IsBad b) :=
          not_or.mpr ⟨hgood a (by simp), hgood b (by simp)⟩
        rw [List.length_cons, List.length_cons] at hlen
        rw [fromhexLoop, if_neg (mt (HEX_gt_iff a b).mp hpair)]
        by_cases hover : i + 2 > INT_MAX
        · rw [if_pos hover]
        · rw [if_neg hover, ih (by omega) (by omega) (by omega)
            fun c hc => hgood c (by simp [hc])]
          rfl

/-- The loop converts all pairs. -/
theorem fromhexLoop_eq_ok
    (hi : i + text.length ≤ INT_MAX) (hgood : ∀ c ∈ text, ¬ IsBad c) :
    fromhexLoop i text = .ok (octets text) := by
  induction text using octets.induct generalizing i with
  | case1 a b text ih =>
      have hpair : ¬ (IsBad a ∨ IsBad b) :=
        not_or.mpr ⟨hgood a (by simp), hgood b (by simp)⟩
      rw [List.length_cons, List.length_cons] at hi
      rw [fromhexLoop, if_neg (mt (HEX_gt_iff a b).mp hpair), if_neg (by omega),
        ih (by omega) fun c hc => hgood c (by simp [hc])]
      rfl
  | case2 text hshort =>
      obtain _ | ⟨a, _ | ⟨b, text⟩⟩ := text
      · rfl
      · rfl
      · exact absurd rfl (hshort a b text)

end Loops

/-! ## Which texts are right -/

section Exact

variable {x text : List UInt8}

/-- What is encoded is decoded. -/
def DecodesBack (x : List UInt8) : Prop :=
  ∃ text, ltohex x = some text ∧ lfromhex text = .ok x

/-- The text is decoded if it has an even number of digits only, to the bytes
that are encoded to it, and an error is raised otherwise. -/
def DecodesDigits (text : List UInt8) : Prop :=
  ((∃ x, lfromhex text = .ok x) ↔
    text.length % 2 = 0 ∧ ∀ c ∈ text, IsDigit c) ∧
  ((∃ x, lfromhex text = .ok x) ∨
    ∃ e, lfromhex text = .error e ∧ e ≠ .undefined) ∧
  ∀ x, lfromhex text = .ok x → ltohex x = some text

/-- Up to 2^30 bytes no index overflows. -/
theorem decodesBack_iff (x : List UInt8) :
    DecodesBack x ↔ 2 * x.length ≤ INT_MAX := by
  have hmax : INT_MAX % 2 = 1 := rfl
  constructor
  · rintro ⟨text, htext, hx⟩
    by_contra hlong
    by_cases hlast : 2 * x.length = INT_MAX + 1
    · rw [ltohex, tohexLoop_eq (by omega)] at htext
      have hlen := length_digits x
      have hgood : ∀ c ∈ (digits x).take (2 * x.length), ¬ IsBad c :=
        fun c hc hbad => hbad (Or.inl (isDigit_of_mem_digits
          (List.mem_of_mem_take hc)))
      rw [← Option.some.inj htext, lfromhex, if_neg (by omega),
        fromhexLoop_eq_undefined x.length (by omega) (by omega)
          (by omega) hgood] at hx
      cases hx
    · rw [ltohex, tohexLoop_eq_none (by omega) (by omega)] at htext
      cases htext
  · intro hlen
    have hdigits := length_digits x
    refine ⟨digits x, tohexLoop_eq (by omega), ?_⟩
    rw [lfromhex, if_neg (by omega), fromhexLoop_eq_ok (by omega)
      fun c hc hbad => hbad (Or.inl (isDigit_of_mem_digits hc)), octets_digits]

theorem decodesDigits_of_error
    {e : HexError} (he : lfromhex text = .error e) (hne : e ≠ .undefined)
    (hdigits : ¬ (text.length % 2 = 0 ∧ ∀ c ∈ text, IsDigit c)) :
    DecodesDigits text := by
  have hnone : ∀ x, lfromhex text ≠ .ok x := by
    intro x h
    rw [he] at h
    cases h
  exact ⟨iff_of_false (fun ⟨x, hx⟩ => hnone x hx) hdigits,
    Or.inr ⟨e, he, hne⟩, fun x hx => absurd hx (hnone x)⟩

/-- The texts that are right are those of an odd length, those in which the loop
comes to a byte that does not become a digit, and the digits that are not too
many for the index. -/
theorem decodesDigits_iff (text : List UInt8) :
    DecodesDigits text ↔
      text.length % 2 ≠ 0 ∨ (∃ c ∈ text.take (INT_MAX + 1), IsBad c) ∨
        text.length ≤ INT_MAX ∧ ∀ c ∈ text, IsDigit c := by
  have hmax : INT_MAX + 1 = 2 * 0x40000000 := rfl
  by_cases hodd : text.length % 2 ≠ 0
  · refine iff_of_true (decodesDigits_of_error (e := .size text.length)
      (if_pos hodd) (fun h => nomatch h) fun h => hodd h.1) (Or.inl hodd)
  have heven : text.length % 2 = 0 := not_not.mp hodd
  have hloop : lfromhex text = fromhexLoop 0 text := if_neg hodd
  by_cases hbad : ∃ c ∈ text.take (INT_MAX + 1), IsBad c
  · refine iff_of_true (decodesDigits_of_error (e := .text) ?_
      (fun h => nomatch h) ?_) (Or.inr (Or.inl hbad))
    · rw [hmax] at hbad
      rw [hloop, fromhexLoop_eq_text _ (by omega) heven hbad]
    · rintro ⟨-, hall⟩
      obtain ⟨c, hc, hcbad⟩ := hbad
      exact hcbad (Or.inl (hall c (List.mem_of_mem_take hc)))
  by_cases hlen : text.length ≤ INT_MAX
  · have hgood : ∀ c ∈ text, ¬ IsBad c := by
      intro c hc hcbad
      rw [List.take_of_length_le (by omega)] at hbad
      exact hbad ⟨c, hc, hcbad⟩
    have hok : lfromhex text = .ok (octets text) := by
      rw [hloop, fromhexLoop_eq_ok (by omega) hgood]
    constructor
    · rintro ⟨hiff, -, -⟩
      exact Or.inr (Or.inr ⟨hlen, (hiff.mp ⟨_, hok⟩).2⟩)
    · rintro (h | h | ⟨-, hall⟩)
      · exact absurd h hodd
      · exact absurd h hbad
      · refine ⟨iff_of_true ⟨_, hok⟩ ⟨heven, hall⟩, Or.inl ⟨_, hok⟩, ?_⟩
        intro x hx
        have hxtext := Except.ok.inj (hok.symm.trans hx)
        have hdigits := digits_octets heven hall
        have hlength := length_digits x
        rw [← hxtext] at hlength ⊢
        rw [hdigits] at hlength
        rw [ltohex, tohexLoop_eq (by omega), hdigits]
  · have hundefined : lfromhex text = .error .undefined := by
      rw [hloop]
      refine fromhexLoop_eq_undefined 0x40000000 (by omega) (by decide)
        (by omega) fun c hc hcbad => hbad ⟨c, ?_, hcbad⟩
      rwa [hmax]
    refine iff_of_false ?_ ?_
    · rintro ⟨-, ⟨x, hx⟩ | ⟨e, he, hne⟩, -⟩
      · rw [hundefined] at hx
        cases hx
      · rw [hundefined] at he
        exact hne (Except.error.inj he).symm
    · rintro (h | h | ⟨h, -⟩)
      · exact hodd h
      · exact hbad h
      · exact hlen h

/-- When `hexdecode` accepts the digits and is the inverse of `hexencode`. -/
theorem hexdecode_exact_iff (x text : List UInt8) :
    (DecodesBack x ↔ 2 * x.length ≤ INT_MAX) ∧
      (DecodesDigits text ↔
        text.length % 2 ≠ 0 ∨ (∃ c ∈ text.take (INT_MAX + 1), IsBad c) ∨
          text.length ≤ INT_MAX ∧ ∀ c ∈ text, IsDigit c) :=
  ⟨decodesBack_iff x, decodesDigits_iff text⟩

/-- The text `gg` is decoded. -/
theorem not_decodesDigits_of_gg : ¬ DecodesDigits [103, 103] := by
  rintro ⟨hiff, -, -⟩
  have hdigit := (hiff.mp ⟨_, rfl⟩).2 103 (by decide)
  exact absurd hdigit (by decide)

end Exact

end SkynetServer.LuaCrypt
