import Mathlib.Data.List.Basic
import Mathlib.Data.Nat.ModEq

/-!
# Rings that grow

A ring of `cap` slots with the indices of its first entry and of the slot
behind its last one.  Equal indices mean that the ring is empty, so a ring
whose last free slot was taken has to be replaced by a larger one at once.

`Holds r l` says that the entries of `r` are those of the list `l`, in this
order.
-/

/-- A ring; a slot that was never written is `none`. -/
structure RingBuffer (α : Type*) where
  cap : ℕ
  head : ℕ
  tail : ℕ
  slot : ℕ → Option α

namespace RingBuffer

variable {α : Type*}

/-- The index behind `i`. -/
def succ (cap i : ℕ) : ℕ := if i + 1 ≥ cap then 0 else i + 1

/-- Write an entry behind the last one. -/
def push (r : RingBuffer α) (a : α) : RingBuffer α :=
  { r with
    slot := Function.update r.slot r.tail (some a)
    tail := succ r.cap r.tail }

/-- A ring with `n` more slots and the `cap` entries of a full one. -/
def grow (r : RingBuffer α) (n : ℕ) : RingBuffer α where
  cap := r.cap + n
  head := 0
  tail := r.cap
  slot i := if i < r.cap then r.slot ((r.head + i) % r.cap) else none

/-- Drop the first entry. -/
def drop (r : RingBuffer α) : RingBuffer α :=
  { r with head := succ r.cap r.head }

/-- The ring holds the entries of the list, in the order of the list. -/
structure Holds (r : RingBuffer α) (l : List α) : Prop where
  head_lt : r.head < r.cap
  length_lt : l.length < r.cap
  tail : r.tail = (r.head + l.length) % r.cap
  slot : ∀ i a, l[i]? = some a → r.slot ((r.head + i) % r.cap) = some a

theorem succ_mod {cap : ℕ} (h : 0 < cap) (i : ℕ) :
    succ cap (i % cap) = (i + 1) % cap := by
  have hlt : i % cap < cap := Nat.mod_lt i h
  unfold succ
  split
  · have hlast : i % cap + 1 = cap := by omega
    rw [← Nat.mod_add_mod, hlast, Nat.mod_self]
  · have hnext : i % cap + 1 < cap := by omega
    rw [← Nat.mod_add_mod i cap 1, Nat.mod_eq_of_lt hnext]

section Entries

variable {r : RingBuffer α} {l : List α}

theorem Holds.tail_lt (h : r.Holds l) : r.tail < r.cap := by
  rw [h.tail]
  exact Nat.mod_lt _ (Nat.zero_lt_of_lt h.head_lt)

theorem Holds.head_eq_tail_iff (h : r.Holds l) :
    r.head = r.tail ↔ l = [] := by
  have hhead := h.head_lt
  have hlength := h.length_lt
  rw [h.tail, ← List.length_eq_zero_iff]
  by_cases hwrap : r.head + l.length < r.cap
  · rw [Nat.mod_eq_of_lt hwrap]
    omega
  · rw [Nat.mod_eq_sub_mod (by omega), Nat.mod_eq_of_lt (by omega)]
    omega

/-- Two offsets below the capacity that lead to one slot are equal. -/
theorem index_inj
    {cap head i j : ℕ} (hi : i < cap) (hj : j < cap)
    (h : (head + i) % cap = (head + j) % cap) : i = j := by
  have hmod : i % cap = j % cap := Nat.ModEq.add_left_cancel' head h
  rwa [Nat.mod_eq_of_lt hi, Nat.mod_eq_of_lt hj] at hmod

theorem push_slot
    (h : r.Holds l) (a : α) {i : ℕ} {b : α} (hb : (l ++ [a])[i]? = some b) :
    (r.push a).slot ((r.head + i) % r.cap) = some b := by
  have hlength := h.length_lt
  by_cases hi : i < l.length
  · rw [List.getElem?_append_left hi] at hb
    have hne : (r.head + i) % r.cap ≠ r.tail := by
      rw [h.tail]
      intro heq
      have := index_inj (by omega) hlength heq
      omega
    calc (r.push a).slot ((r.head + i) % r.cap)
        = r.slot ((r.head + i) % r.cap) := Function.update_of_ne hne _ _
      _ = some b := h.slot i b hb
  · have hlt : i < (l ++ [a]).length := (List.getElem?_eq_some_iff.1 hb).1
    have hi : i = l.length := by
      rw [List.length_append, List.length_singleton] at hlt
      omega
    subst hi
    rw [List.getElem?_concat_length] at hb
    rw [← h.tail, ← hb]
    exact Function.update_self r.tail (some a) r.slot

/-- A ring with a free slot left keeps its entries. -/
theorem Holds.push
    (h : r.Holds l) (a : α) (hne : (r.push a).head ≠ (r.push a).tail) :
    (r.push a).Holds (l ++ [a]) := by
  have hcap : 0 < r.cap := Nat.zero_lt_of_lt h.head_lt
  have htail : (r.push a).tail = (r.head + (l.length + 1)) % r.cap := by
    change succ r.cap r.tail = _
    rw [h.tail, succ_mod hcap, Nat.add_assoc]
  have hlength : l.length + 1 ≠ r.cap := by
    intro hfull
    apply hne
    rw [htail, hfull, Nat.add_mod_right, Nat.mod_eq_of_lt h.head_lt]
    rfl
  have hlt := h.length_lt
  refine ⟨h.head_lt, ?_, ?_, fun i b hb => push_slot h a hb⟩
  · rw [List.length_append, List.length_singleton]
    exact Nat.lt_of_le_of_ne hlt hlength
  · rw [List.length_append, List.length_singleton]
    exact htail

/-- A ring that became full keeps its entries when it is replaced. -/
theorem Holds.grow
    (h : r.Holds l) (a : α) {n : ℕ} (hn : 0 < n)
    (heq : (r.push a).head = (r.push a).tail) :
    ((r.push a).grow n).Holds (l ++ [a]) := by
  have hcap : 0 < r.cap := Nat.zero_lt_of_lt h.head_lt
  have hfull : (l ++ [a]).length = r.cap := by
    have hlt := h.length_lt
    have htail : r.head = (r.head + (l.length + 1)) % r.cap := by
      calc r.head = succ r.cap r.tail := heq
        _ = (r.head + (l.length + 1)) % r.cap := by
          rw [h.tail, succ_mod hcap, Nat.add_assoc]
    rw [List.length_append, List.length_singleton]
    by_contra hne
    have hslot : (r.head + (l.length + 1)) % r.cap =
        (r.head + 0) % r.cap := by
      rw [← htail, Nat.add_zero, Nat.mod_eq_of_lt h.head_lt]
    have hzero : l.length + 1 = 0 := index_inj (by omega) hcap hslot
    omega
  refine ⟨Nat.add_pos_left hcap n, ?_, ?_, ?_⟩
  · rw [hfull]
    exact Nat.lt_add_of_pos_right hn
  · rw [hfull]
    change r.cap = (0 + r.cap) % (r.cap + n)
    rw [Nat.zero_add, Nat.mod_eq_of_lt (Nat.lt_add_of_pos_right hn)]
  · intro i b hb
    have hi : i < r.cap := by
      rw [← hfull]
      exact (List.getElem?_eq_some_iff.1 hb).1
    have hindex : (0 + i) % (r.cap + n) = i := by
      rw [Nat.zero_add, Nat.mod_eq_of_lt (Nat.lt_add_right n hi)]
    change (if (0 + i) % (r.cap + n) < r.cap then
      (r.push a).slot ((r.head + (0 + i) % (r.cap + n)) % r.cap) else none) = _
    rw [hindex, if_pos hi]
    exact push_slot h a hb

/-- Another array with the same entries at the same positions. -/
theorem Holds.of_slots
    {r' : RingBuffer α} (h : r.Holds l) (hcap : r'.cap = r.cap)
    (hhead : r'.head = r.head) (htail : r'.tail = r.tail)
    (hslot : ∀ i a, i < r.cap → r.slot i = some a → r'.slot i = some a) :
    r'.Holds l := by
  refine ⟨?_, ?_, ?_, fun i a ha => ?_⟩
  · rw [hhead, hcap]
    exact h.head_lt
  · rw [hcap]
    exact h.length_lt
  · rw [htail, hhead, hcap]
    exact h.tail
  · rw [hhead, hcap]
    refine hslot _ a ?_ (h.slot i a ha)
    exact Nat.mod_lt _ (Nat.zero_lt_of_lt h.head_lt)

/-- The first entry. -/
theorem Holds.first {a : α} (h : r.Holds (a :: l)) :
    r.slot r.head = some a := by
  have hslot := h.slot 0 a rfl
  rwa [Nat.add_zero, Nat.mod_eq_of_lt h.head_lt] at hslot

theorem Holds.drop {a : α} (h : r.Holds (a :: l)) : r.drop.Holds l := by
  have hcap : 0 < r.cap := Nat.zero_lt_of_lt h.head_lt
  have hhead : r.drop.head = (r.head + 1) % r.cap := by
    change succ r.cap r.head = _
    rw [← succ_mod hcap, Nat.mod_eq_of_lt h.head_lt]
  have hindex : ∀ i, (r.drop.head + i) % r.drop.cap =
      (r.head + (i + 1)) % r.cap := by
    intro i
    rw [hhead]
    change ((r.head + 1) % r.cap + i) % r.cap = _
    rw [Nat.mod_add_mod, Nat.add_assoc, Nat.add_comm 1 i]
  refine ⟨?_, ?_, ?_, ?_⟩
  · rw [hhead]
    exact Nat.mod_lt _ hcap
  · exact Nat.lt_of_succ_lt h.length_lt
  · rw [hindex]
    exact h.tail
  · intro i b hb
    rw [hindex]
    exact h.slot (i + 1) b hb

end Entries

end RingBuffer
