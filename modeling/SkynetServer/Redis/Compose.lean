import SkynetServer.Support.Octets
import SkynetServer.Support.Resp

/-!
# Requests of the redis client

A request counts its elements by the length operator and writes the elements
that `ipairs` gives.  These are fewer if there is a `nil` among them.
-/

namespace SkynetServer.Redis

open Octets Resp

/-! ## Tables -/

section Tables

variable {V : Type}

/-- `t[k]` -/
def index (t : List (Option V)) : ℕ → Option V
  | 0 => none
  | k + 1 => t[k]?.join

/-- What the length operator may return for a table. -/
def IsBorder (t : List (Option V)) (n : ℕ) : Prop :=
  (n = 0 ∨ index t n ≠ none) ∧ index t (n + 1) = none

/-- The elements of a table and what the length operator returns for it. -/
structure Table (V : Type) where
  array : List (Option V)
  length : ℕ
  isBorder : IsBorder array length

/-- The elements that `ipairs` gives. -/
def ipairs : List (Option V) → List V
  | some v :: t => v :: ipairs t
  | _ => []

/-- The loop of `luaH_getn`, with at most so many rounds. -/
def getnLoop (array : List (Option V)) : ℕ → ℕ → ℕ → ℕ
  | 0, i, _ => i
  | rounds + 1, i, j =>
    if j - i > 1 then
      let m := (i + j) / 2
      if (index array m).isNone then getnLoop array rounds i m
      else getnLoop array rounds m j
    else i

/-- `luaH_getn` of a table with nothing in its hash part. -/
def luaH_getn (array : List (Option V)) : ℕ :=
  let j := array.length
  if j > 0 ∧ (index array j).isNone then getnLoop array j 0 j else j

theorem getnLoop_isBorder
    {array : List (Option V)} {rounds i j : ℕ} (hij : i < j)
    (hrounds : j - i ≤ rounds + 1) (hi : i = 0 ∨ index array i ≠ none)
    (hj : index array j = none) :
    IsBorder array (getnLoop array rounds i j) := by
  induction rounds generalizing i j with
  | zero =>
      have hnext : j = i + 1 := by omega
      exact ⟨hi, hnext ▸ hj⟩
  | succ rounds ih =>
      rw [getnLoop]
      by_cases hgap : j - i > 1
      · rw [if_pos hgap]
        dsimp only
        cases hm : index array ((i + j) / 2) with
        | none =>
            rw [if_pos Option.isNone_none]
            refine ih ?_ ?_ hi hm
            · omega
            · omega
        | some v =>
            rw [Option.isNone_some, if_neg Bool.false_ne_true]
            refine ih ?_ ?_ (Or.inr ?_) hj
            · omega
            · omega
            · rw [hm]
              exact Option.some_ne_none v
      · rw [if_neg hgap]
        have hnext : j = i + 1 := by omega
        exact ⟨hi, hnext ▸ hj⟩

variable {t : List (Option V)}

theorem index_of_length_lt
    {k : ℕ} (hk : t.length < k) : index t k = none := by
  obtain ⟨k, rfl⟩ := Nat.exists_eq_succ_of_ne_zero (Nat.ne_zero_of_lt hk)
  rw [index, List.getElem?_eq_none (Nat.le_of_lt_succ hk)]
  rfl

theorem luaH_getn_isBorder (array : List (Option V)) :
    IsBorder array (luaH_getn array) := by
  rw [luaH_getn]
  split
  next h =>
    exact getnLoop_isBorder h.1 (Nat.le_succ _) (Or.inl rfl)
      (Option.isNone_iff_eq_none.mp h.2)
  next h =>
    refine ⟨?_, index_of_length_lt (Nat.lt_succ_self _)⟩
    rw [not_and_or] at h
    rcases h with hzero | hsome
    · exact Or.inl (Nat.eq_zero_of_not_pos hzero)
    · exact Or.inr fun hnone => hsome (Option.isNone_iff_eq_none.mpr hnone)

/-- The table of a constructor. -/
def Table.packed (array : List (Option V)) : Table V :=
  ⟨array, luaH_getn array, luaH_getn_isBorder array⟩

/-- The elements up to the length. -/
def Table.elements (t : Table V) : List (Option V) := t.array.take t.length

/-- There is no `nil` among the elements. -/
def Table.Full (t : Table V) : Prop := none ∉ t.elements

theorem map_some_ipairs
    {n : ℕ} (hn : index t (n + 1) = none)
    (hfull : none ∉ t.take n) : (ipairs t).map some = t.take n := by
  induction t generalizing n with
  | nil => exact List.take_nil.symm
  | cons v t ih =>
      cases v with
      | none =>
          cases n with
          | zero => rfl
          | succ n => exact absurd List.mem_cons_self hfull
      | some v =>
          cases n with
          | zero => cases hn
          | succ n =>
              have hrest := ih hn fun h => hfull (List.mem_cons_of_mem _ h)
              exact congrArg (some v :: ·) hrest

theorem Table.length_le (t : Table V) : t.length ≤ t.array.length := by
  by_contra hlt
  have hlt := Nat.lt_of_not_le hlt
  rcases t.isBorder.1 with hzero | hne
  · omega
  · exact hne (index_of_length_lt hlt)

/-- A full table is the one whose elements `ipairs` gives. -/
theorem Table.full_iff (t : Table V) :
    t.Full ↔ (ipairs t.array).map some = t.elements := by
  constructor
  · exact map_some_ipairs t.isBorder.2
  · intro h hnone
    rw [← h] at hnone
    obtain ⟨v, _, hv⟩ := List.mem_map.mp hnone
    exact Option.some_ne_none v hv

end Tables

/-! ## The source -/

section Source

variable {V : Type}

/-- The table that the first argument is, if it is one. -/
def firstTable
    (content : V → Option (Table V))
    (args : List (Option V)) : Option (Table V) :=
  args.head?.join.bind content

end Source

/-! ## The layout of a request -/

section Layout

variable {V : Type} (tostring : Option V → List UInt8)

/-- The strings that a table is written as. -/
def written (t : Table V) : List (List UInt8) :=
  (ipairs t.array).map fun v => tostring (some v)

end Layout

/-! ## Reading a request back -/

section Requests

variable {V : Type}
  (content : V → Option (Table V))
  (tostring : Option V → List UInt8)

/-- The strings of all elements up to the length. -/
def strings (t : Table V) : List (List UInt8) := t.elements.map tostring

/-- There is no `nil`, and no argument behind a table unless the elements of
the table read as all the arguments do. -/
def Sendable (args : List (Option V)) : Prop :=
  match firstTable content args with
  | some t =>
    t.Full ∧ (args.tail = [] ∨ strings tostring t = args.map tostring)
  | none => none ∉ args

end Requests

end SkynetServer.Redis
