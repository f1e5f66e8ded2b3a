import Mathlib.Data.Int.Notation
import Mathlib.Data.Nat.Notation
import Mathlib.Logic.Function.Basic

/-!
# `hashid.h`

A table of the ids of sockets.  A node of the array holds one id, and the nodes
whose ids have the same hash are linked to a chain.  A pointer to a node is its
index in the array.

A function is undefined when an `int` overflows, an index is outside of the
array, an assertion fails, or a chain does not end.
-/

namespace SkynetServer.Gate

open Function

/-- `struct hashid_node` -/
structure HashidNode where
  id : ℤ := -1
  next : Option ℕ := none
  deriving DecidableEq, Repr

/-- `struct hashid` -/
structure Hashid where
  hashmod : ℕ
  cap : ℕ
  count : ℤ
  id : ℕ → HashidNode
  hash : ℕ → Option ℕ

namespace Hashid

/-- The loop of `hashid_init` on `hashcap`, of `n` rounds at most. -/
def hashcap (max : ℕ) : ℕ → ℕ → Option ℕ
  | 0, _ => none
  | n + 1, cap =>
    if cap < max then
      if cap * 2 < 0x80000000 then hashcap max n (cap * 2) else none
    else some cap

/-- `hashid_init`.  The loop has at most 28 rounds before `hashcap`
overflows. -/
def init (max : ℕ) : Option Hashid :=
  (hashcap max 28 16).map fun cap =>
    { hashmod := cap - 1
      cap := max
      count := 0
      id := fun _ => {}
      hash := fun _ => none }

variable (hi : Hashid)

/-- `id & hi->hashmod` -/
def index (id : ℤ) : ℕ :=
  (BitVec.ofInt 32 id &&& BitVec.ofNat 32 hi.hashmod).toNat

/-- The loop of `hashid_lookup`. -/
def lookupLoop (id : ℤ) : ℕ → Option ℕ → Option ℤ
  | _, none => some (-1)
  | 0, some _ => none
  | n + 1, some c =>
    if (hi.id c).id = id then some c else lookupLoop id n (hi.id c).next

/-- `hashid_lookup` -/
def lookup (id : ℤ) : Option ℤ :=
  hi.lookupLoop id hi.cap (hi.hash (hi.index id))

/-- `_clear` of `hashid_remove` -/
def clear (c : ℕ) : ℤ × Hashid :=
  (c, { hi with id := update hi.id c {}, count := hi.count - 1 })

/-- `c->next = next` -/
def setNext (c : ℕ) (next : Option ℕ) : Hashid :=
  { hi with id := update hi.id c { hi.id c with next := next } }

/-- The loop of `hashid_remove`. -/
def removeLoop (id : ℤ) : ℕ → ℕ → Option (ℤ × Hashid)
  | 0, _ => none
  | n + 1, c =>
    match (hi.id c).next with
    | none => some (-1, hi)
    | some temp =>
      if (hi.id temp).id = id then
        some ((hi.setNext c (hi.id temp).next).clear temp)
      else removeLoop id n temp

/-- `hashid_remove` -/
def remove (id : ℤ) : Option (ℤ × Hashid) :=
  let h := hi.index id
  match hi.hash h with
  | none => some (-1, hi)
  | some c =>
    if (hi.id c).id = id then
      some (clear { hi with hash := update hi.hash h (hi.id c).next } c)
    else hi.removeLoop id hi.cap c

/-- The loop of `hashid_insert` with `n` rounds left: the free node, if there
is one. -/
def probe (id : ℤ) : ℕ → ℕ → Option (Option ℕ)
  | 0, _ => some none
  | n + 1, i =>
    if (i : ℤ) + id ≥ 0x80000000 then none
    else
      let index := ((i : ℤ) + id).tmod hi.cap
      if index < 0 then none
      else if (hi.id index.toNat).id = -1 then some (some index.toNat)
      else probe id n (i + 1)

/-- `hashid_insert` -/
def insert (id : ℤ) : Option (ℤ × Hashid) :=
  match hi.probe id hi.cap 0 with
  | none => none
  | some none => none
  | some (some c) =>
    if (hi.id c).next ≠ none then none
    else
      let h := hi.index id
      some (c, { hi with
        count := hi.count + 1
        id := update hi.id c ⟨id, hi.hash h⟩
        hash := update hi.hash h (some c) })

/-- `hashid_full` -/
def full : Bool := hi.count = hi.cap

end Hashid

end SkynetServer.Gate
