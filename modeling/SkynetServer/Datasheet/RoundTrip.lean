import SkynetServer.Datasheet.Layout

/-!
# The round trip of a document

`undump` reads from the bytes of `dump` a table for each index, and the table
that was dumped just if all of its values can be kept.
-/

namespace SkynetServer.Datasheet

open Seri (Atom Value Entries Same Plain)
open Memory

/-- The values of the program: one entry for each key, not more entries than
`string.unpack` can return, and strings that have an `int` as length. -/
inductive Readable (limit : ℕ) : Value → Prop
  | atom (a : Atom) :
      (∀ str, a = .string str → str.length < 0x80000000) →
      Readable limit (.atom a)
  | table (border : ℕ) (t : Entries) : Plain t → t.length ≤ limit →
      (∀ str v, (.atom (.string str), v) ∈ t → str.length < 0x80000000) →
      (∀ e ∈ t, Readable limit e.2) → Readable limit (.table border t)

/-- The indices from `lo` on and below `hi`. -/
def span (lo hi : ℕ) : List ℕ := List.range' lo (hi - lo)

section Steps

variable {f : Floats} {limit : ℕ} {v : List UInt8} {stringtbl n : ℕ}
  {index : List ℕ} {dump : Dumper} {decode : Decoder} {doc doc' : Doc}

/-! ## Values -/

/-- The value is read from wherever its bytes stand. -/
def Reads (f : Floats) (decode : Decoder) (v : List UInt8) (stringtbl : ℕ)
    (e : Encoded) (x : Sheet) : Prop :=
  ∀ off, At v off e.2 → value f decode v stringtbl e.1.toNat off = .ok x

/-- The string of an entry is read up to its first zero. -/
theorem Laid.unpackZ
    {str : List UInt8} {off : ℕ} (h : Laid v stringtbl n index doc)
    (hmem : (str, off) ∈ doc.strings) (hlength : str.length < 0x80000000) :
    unpackZ v (stringtbl + off) = .ok (cString str) :=
  unpackZ_of_at (h.string _ hmem) hlength

end Steps

end SkynetServer.Datasheet
