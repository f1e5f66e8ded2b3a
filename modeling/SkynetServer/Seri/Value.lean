import Mathlib.Data.List.Basic
import Mathlib.Algebra.Group.Nat.Defs
import Mathlib.Algebra.Group.Int.Defs

/-!
# Lua values

The values that `lua-seri.c` can pack.  A table is the list of its entries in
the order in which `lua_next` visits them, with the border that `lua_rawlen`
returns.
-/

namespace SkynetServer.Seri

/-- A value that is not a table; the bits of a float are kept as they are. -/
inductive Atom where
  | nil
  | boolean (b : Bool)
  | integer (x : BitVec 64)
  | real (bits : BitVec 64)
  | string (bytes : List UInt8)
  | lightuserdata (p : BitVec 64)
  deriving DecidableEq, Repr

inductive Value where
  | atom (a : Atom)
  | table (border : ℕ) (entries : List (Value × Value))

/-- The entries of a table. -/
abbrev Entries := List (Value × Value)

namespace Value

/-- The entry has the key. -/
def isKey (k : Atom) : Value × Value → Bool
  | (.atom a, _) => a = k
  | (.table _ _, _) => false

/-- `lua_rawget`, for a key that is not a table -/
def rawget (es : Entries) (k : Atom) : Value :=
  match es.find? (isKey k) with
  | some e => e.2
  | none => .atom .nil

/-- `lua_rawgeti` -/
def rawgeti (es : Entries) (i : ℕ) : Value :=
  rawget es (.integer (BitVec.ofNat 64 i))

end Value

/-- The integer that a float is equal to, if there is one. -/
def floatToInteger (bits : BitVec 64) : Option (BitVec 64) :=
  let exponent := ((bits >>> 52) &&& 0x7ff#64).toNat
  let fraction := (bits &&& 0xfffffffffffff#64).toNat
  let sign : ℤ := if bits.msb then -1 else 1
  if exponent = 0 then if fraction = 0 then some 0 else none
  else if exponent = 2047 then none
  else
    let mantissa := 2 ^ 52 + fraction
    if 1075 ≤ exponent then
      let x := sign * (mantissa * 2 ^ (exponent - 1075) : ℕ)
      if -2 ^ 63 ≤ x ∧ x < 2 ^ 63 then some (BitVec.ofInt 64 x) else none
    else if mantissa % 2 ^ (1075 - exponent) = 0 then
      some (BitVec.ofInt 64 (sign * (mantissa / 2 ^ (1075 - exponent) : ℕ)))
    else none

/-- The bits are those of a NaN. -/
def isNaN (bits : BitVec 64) : Bool :=
  (bits >>> 52) &&& 0x7ff#64 = 0x7ff#64 ∧ bits &&& 0xfffffffffffff#64 ≠ 0

/-- The key under which a table keeps an entry: a float with an integer value
becomes an integer; nil and NaN are no keys. -/
def Atom.key : Atom → Option Atom
  | .nil => none
  | .real bits =>
    if isNaN bits then none
    else
      match floatToInteger bits with
      | some x => some (.integer x)
      | none => some (.real bits)
  | a => some a

namespace Value

/-- Set the value of a key that is not a table; nil removes the entry. -/
def setKey (es : Entries) (k : Atom) (v : Value) : Entries :=
  match v with
  | .atom .nil => es.filter fun e => !isKey k e
  | v =>
    if es.any (isKey k) then
      es.map fun e => if isKey k e then (e.1, v) else e
    else es ++ [(.atom k, v)]

/-- `lua_rawset`.  A table that is a key was made just now, so it is no key
of the entries. -/
def rawset (es : Entries) (k v : Value) : Option Entries :=
  match k with
  | .table _ _ =>
    match v with
    | .atom .nil => some es
    | v => some (es ++ [(k, v)])
  | .atom a => (a.key).map fun a => setKey es a v

/-- `lua_rawseti` -/
def rawseti (es : Entries) (i : ℕ) (v : Value) : Entries :=
  setKey es (.integer (BitVec.ofNat 64 i)) v

end Value

end SkynetServer.Seri
