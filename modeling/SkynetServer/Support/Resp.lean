import Mathlib.Data.Nat.Digits.Defs
import Mathlib.Data.UInt

/-!
# Arrays of byte strings on a wire

An array is `*`, the number of its elements and a line break, with the elements
behind it: each is `$`, its length and a line break, the bytes and another line
break.
-/

namespace Resp

/-! ## Numbers -/

/-- The decimal digits of a number. -/
def decimal (n : ℕ) : List UInt8 :=
  if n = 0 then [48]
  else (Nat.digits 10 n).reverse.map fun d => .ofNat (48 + d)

def isDigit (b : UInt8) : Bool := 48 ≤ b && b ≤ 57

/-- The number of these digits. -/
def number (ds : List UInt8) : ℕ :=
  ds.foldl (fun n b => 10 * n + (b.toNat - 48)) 0

/-- Read a number and the line break behind it. -/
def readNumber (s : List UInt8) : Option (ℕ × List UInt8) :=
  if s.takeWhile isDigit = [] then none
  else
    match s.dropWhile isDigit with
    | 13 :: 10 :: rest => some (number (s.takeWhile isDigit), rest)
    | _ => none

theorem isDigit_ofNat {d : ℕ} (hd : d < 10) : isDigit (.ofNat (48 + d)) := by
  have hall : ∀ d < 10, isDigit (.ofNat (48 + d)) := by decide
  exact hall d hd

theorem toNat_digit {d : ℕ} (hd : d < 10) :
    (UInt8.ofNat (48 + d)).toNat - 48 = d := by
  rw [UInt8.toNat_ofNat']
  omega

theorem number_append (ds : List UInt8) (b : UInt8) :
    number (ds ++ [b]) = 10 * number ds + (b.toNat - 48) := by
  rw [number, List.foldl_append]
  rfl

theorem number_digits (ds : List ℕ) (hds : ∀ d ∈ ds, d < 10) :
    number (ds.reverse.map fun d => .ofNat (48 + d)) = Nat.ofDigits 10 ds := by
  induction ds with
  | nil => rfl
  | cons d ds ih =>
      have hd := hds d List.mem_cons_self
      have hrest := ih fun d hd => hds d (List.mem_cons_of_mem _ hd)
      rw [List.reverse_cons, List.map_append, List.map_singleton,
        number_append, hrest, toNat_digit hd, Nat.ofDigits_cons]
      exact Nat.add_comm _ _

theorem number_decimal (n : ℕ) : number (decimal n) = n := by
  rw [decimal]
  split
  next h =>
    rw [h]
    rfl
  · rw [number_digits _ fun d hd => Nat.digits_lt_base (by decide) hd,
      Nat.ofDigits_digits]

theorem isDigit_of_mem_decimal
    {n : ℕ} {b : UInt8} (hb : b ∈ decimal n) : isDigit b := by
  rw [decimal] at hb
  split at hb
  · rw [List.mem_singleton.mp hb]
    decide
  · obtain ⟨d, hd, rfl⟩ := List.mem_map.mp hb
    have hlt := Nat.digits_lt_base (by decide) (List.mem_reverse.mp hd)
    exact isDigit_ofNat hlt

theorem decimal_ne_nil (n : ℕ) : decimal n ≠ [] := by
  rw [decimal]
  split
  · exact List.cons_ne_nil _ _
  next h =>
    intro hnil
    exact Nat.digits_ne_nil_iff_ne_zero.mpr h
      (List.reverse_eq_nil_iff.mp (List.map_eq_nil_iff.mp hnil))

/-- An element. -/
def bulk (v : List UInt8) : List UInt8 :=
  36 :: decimal v.length ++ 13 :: 10 :: v ++ [13, 10]

/-- These elements with a count in front. -/
def counted (n : ℕ) (vs : List (List UInt8)) : List UInt8 :=
  42 :: decimal n ++ 13 :: 10 :: vs.flatMap bulk

end Resp
