import Mathlib.Algebra.BigOperators.Pi
import Mathlib.Algebra.Order.BigOperators.Group.Finset

/-!
# Totals over a family in which one member changes

Threads, slots and wheel positions are families `ι → β` of which a step
changes one member.  The total of a weight over the family then changes by
the difference of that member's weights; the lemmas below say so without
subtraction, for weights in any additive commutative monoid.
-/

namespace Census

variable {ι β M : Type*} [AddCommMonoid M]

/-- Total weight of a family over the finite set `s` of its members. -/
@[irreducible] def total (s : Finset ι) (w : β → M) (f : ι → β) : M :=
  ∑ i ∈ s, w (f i)

/-- A family whose members all weigh nothing. -/
theorem total_eq_zero
    {s : Finset ι} {w : β → M} {f : ι → β} (h : ∀ i ∈ s, w (f i) = 0) :
    total s w f = 0 := by
  unfold total
  exact Finset.sum_eq_zero h

section Order

variable {s : Finset ι} {w : β → ℕ} {f : ι → β} {i j : ι}

/-- No member weighs more than the family. -/
theorem le_total (hi : i ∈ s) : w (f i) ≤ total s w f := by
  unfold total
  exact Finset.single_le_sum (f := fun i => w (f i))
    (fun _ _ => Nat.zero_le _) hi

/-- Neither do two different members together. -/
theorem add_le_total (hi : i ∈ s) (hj : j ∈ s) (hij : i ≠ j) :
    w (f i) + w (f j) ≤ total s w f := by
  classical
  unfold total
  rw [← Finset.add_sum_erase s _ hi]
  apply Nat.add_le_add_left
  exact Finset.single_le_sum (f := fun i => w (f i))
    (fun _ _ => Nat.zero_le _) (Finset.mem_erase.mpr ⟨hij.symm, hj⟩)

/-- A family that weighs something has a member that does. -/
theorem exists_pos_of_total_pos (h : 0 < total s w f) :
    ∃ i ∈ s, 0 < w (f i) := by
  by_contra hnone
  push Not at hnone
  have hzero := total_eq_zero (s := s) (w := w) (f := f)
    fun i hi => Nat.le_zero.mp (hnone i hi)
  omega

/-- A family with a member that weighs nothing, when no member weighs more than
one. -/
theorem total_lt_card
    (hle : ∀ j ∈ s, w (f j) ≤ 1) (hi : i ∈ s) (hzero : w (f i) = 0) :
    total s w f < s.card := by
  unfold total
  rw [Finset.card_eq_sum_ones]
  refine Finset.sum_lt_sum hle ⟨i, hi, ?_⟩
  rw [hzero]
  exact Nat.zero_lt_one

end Order

/-- Where the elements of a total of multisets come from. -/
theorem exists_mem_of_mem_total
    {α : Type*} {s : Finset ι} {w : β → Multiset α} {f : ι → β} {a : α}
    (h : a ∈ total s w f) :
    ∃ i ∈ s, a ∈ w (f i) := by
  unfold total at h
  exact Multiset.mem_sum.mp h

/-- The elements of a member are in the total of multisets. -/
theorem mem_total
    {α : Type*} {s : Finset ι} {w : β → Multiset α} {f : ι → β} {a : α}
    {i : ι} (hi : i ∈ s) (ha : a ∈ w (f i)) :
    a ∈ total s w f := by
  unfold total
  exact Multiset.mem_sum.mpr ⟨i, hi, ha⟩

section Update

variable [DecidableEq ι]

/-- Exchanging one member for `b` exchanges its weight in the total. -/
theorem total_update
    {s : Finset ι} (w : β → M) (f : ι → β) {i : ι} (hi : i ∈ s) (b : β) :
    total s w (Function.update f i b) + w (f i) =
      total s w f + w b := by
  unfold total
  rw [← Finset.add_sum_erase s _ hi,
    ← Finset.add_sum_erase s (fun i => w (f i)) hi]
  have hrest :
      ∑ j ∈ s.erase i, w (Function.update f i b j) =
        ∑ j ∈ s.erase i, w (f j) := by
    apply Finset.sum_congr rfl
    intro j hj
    rw [Function.update_of_ne (Finset.ne_of_mem_erase hj)]
  rw [Function.update_self, hrest]
  ac_rfl

/-- The same for a family of families, of which one member of one member is
exchanged. -/
theorem total_update_nested
    {κ N : Type*} [DecidableEq κ] [AddCancelCommMonoid N]
    {s : Finset ι} {u : Finset κ} (w : β → N) (f : ι → κ → β)
    {i : ι} (hi : i ∈ s) {j : κ} (hj : j ∈ u) (b : β) :
    total s (total u w)
          (Function.update f i (Function.update (f i) j b)) + w (f i j) =
      total s (total u w) f + w b := by
  have hinner := total_update w (f i) hj b
  have houter := total_update (total u w) f hi (Function.update (f i) j b)
  apply add_right_cancel (b := total u w (f i))
  rw [add_right_comm, houter, add_assoc, hinner, add_assoc,
    add_comm (total u w (f i))]

end Update

/-! ## Families in a list -/

section Lists

variable {l : List β} {i : ℕ} {b : β}

/-- Changing one member of a list exchanges its weight in the sum. -/
theorem sum_map_modify
    (h : l[i]? = some b) (w : β → M) (f : β → β) :
    ((l.modify i f).map w).sum + w b = (l.map w).sum + w (f b) := by
  induction l generalizing i with
  | nil => cases h
  | cons a l ih =>
      cases i with
      | zero =>
          cases h
          rw [List.modify_zero_cons, List.map_cons, List.map_cons,
            List.sum_cons, List.sum_cons]
          ac_rfl
      | succ i =>
          rw [List.modify_succ_cons, List.map_cons, List.map_cons,
            List.sum_cons, List.sum_cons, add_assoc, ih h, add_assoc]

/-- A change that keeps all weights keeps the sum. -/
theorem sum_map_modify_of_eq
    {w : β → M} {f : β → β} (hw : ∀ b, w (f b) = w b) (l : List β) (i : ℕ) :
    ((l.modify i f).map w).sum = (l.map w).sum := by
  induction l generalizing i with
  | nil => rw [List.modify_nil]
  | cons a l ih =>
      cases i with
      | zero =>
          rw [List.modify_zero_cons, List.map_cons, List.map_cons, hw]
      | succ i =>
          rw [List.modify_succ_cons, List.map_cons, List.map_cons,
            List.sum_cons, List.sum_cons, ih]

end Lists

end Census
