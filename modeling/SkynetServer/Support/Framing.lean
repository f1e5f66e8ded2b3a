import Mathlib.Data.List.Basic

/-!
# Length-prefixed packages

A byte stream of packages, each behind its length in two bytes, the high one
first.  `parse` cuts the complete packages off a stream and leaves the tail;
the streams it reads are those that `Stream` writes, and cutting a stream in
two parts and parsing them one after the other gives the same packages.
-/

namespace Framing

/-- The number in two bytes, the high one first. -/
def number (a b : UInt8) : ℕ := a.toNat * 256 + b.toNat

/-- The complete packages of a stream and the tail behind them. -/
def parse : List UInt8 → List (List UInt8) × List UInt8
  | a :: b :: rest =>
    if rest.length < number a b then ([], a :: b :: rest)
    else
      let parsed := parse (rest.drop (number a b))
      (rest.take (number a b) :: parsed.1, parsed.2)
  | bytes => ([], bytes)
termination_by bytes => bytes.length
decreasing_by
  rw [List.length_drop, List.length_cons, List.length_cons]
  omega

/-- A stream that ends inside its first package. -/
inductive Incomplete : List UInt8 → Prop
  | nil : Incomplete []
  | header (a : UInt8) : Incomplete [a]
  | body (a b : UInt8) (rest : List UInt8) :
      rest.length < number a b → Incomplete (a :: b :: rest)

theorem parse_of_incomplete {bytes : List UInt8} (h : Incomplete bytes) :
    parse bytes = ([], bytes) := by
  cases h with
  | nil | header a => rw [parse]; nofun
  | body a b rest hlt => rw [parse, if_pos hlt]

/-- A stream that starts with a complete package. -/
theorem parse_package
    {a b : UInt8} {body rest : List UInt8} (h : body.length = number a b) :
    parse (a :: b :: (body ++ rest)) =
      (body :: (parse rest).1, (parse rest).2) := by
  have hlt : ¬ (body ++ rest).length < number a b := by
    rw [List.length_append, h]
    omega
  rw [parse, if_neg hlt, ← h, List.drop_left, List.take_left]

/-- What arrives behind a stream is parsed behind the tail of that stream. -/
theorem parse_append (bytes more : List UInt8) :
    parse (bytes ++ more) =
      ((parse bytes).1 ++ (parse ((parse bytes).2 ++ more)).1,
        (parse ((parse bytes).2 ++ more)).2) := by
  fun_induction parse bytes with
  | case1 a b rest hlt => rfl
  | case2 a b rest hlt parsed ih =>
      have hbody : (rest.take (number a b)).length = number a b :=
        List.length_take_of_le (Nat.le_of_not_lt hlt)
      have hsplit : a :: b :: rest ++ more =
          a :: b :: (rest.take (number a b) ++
            (rest.drop (number a b) ++ more)) := by
        rw [← List.append_assoc, List.take_append_drop]
        rfl
      rw [hsplit, parse_package hbody, ih]
      rfl
  | case3 bytes hshort => rfl

end Framing
