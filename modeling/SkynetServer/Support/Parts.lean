import Mathlib.Data.List.Basic

/-!
# Long data in parts

Data that is longer than a limit is sent in parts of the limit, with a mark on
all parts but the last.  A receiver needs to know no more of a list of parts
than `Cut`: the parts put together are the data, and only the last one is
unmarked.
-/

namespace Parts

variable {α : Type*}

/-- At most `count` parts of at most `limit` elements; the mark says that the
part is not the last one. -/
def cut (limit : ℕ) : ℕ → List α → List (Bool × List α)
  | 0, _ => []
  | count + 1, data =>
    if data.length > limit then
      (true, data.take limit) :: cut limit count (data.drop limit)
    else (false, data) :: cut limit count (data.drop data.length)

/-- How many parts data of the size has. -/
def count (limit size : ℕ) : ℕ := (size - 1) / limit + 1

/-- The parts of the data. -/
inductive Cut (limit : ℕ) : List α → List (Bool × List α) → Prop
  | last {data : List α} : data.length ≤ limit → Cut limit data [(false, data)]
  | more {part rest : List α} {parts : List (Bool × List α)} :
      part.length = limit → Cut limit rest parts →
        Cut limit (part ++ rest) ((true, part) :: parts)

theorem cut_spec
    {limit : ℕ} (hlimit : 0 < limit) {data : List α} (hdata : data ≠ []) :
    Cut limit data (cut limit (count limit data.length) data) := by
  induction hsize : data.length using Nat.strongRecOn generalizing data with
  | ind size ih =>
      have hpos : 0 < size := hsize ▸ List.length_pos_iff.mpr hdata
      by_cases hlong : data.length > limit
      · have hrest : (data.drop limit).length = size - limit := by
          rw [List.length_drop, hsize]
        have hne : data.drop limit ≠ [] := by
          rw [← List.length_pos_iff, List.length_drop]
          omega
        have hcount : count limit size = count limit (size - limit) + 1 := by
          have hsub : size - limit - 1 = size - 1 - limit := by omega
          unfold count
          rw [hsub, Nat.div_eq_sub_div hlimit (by omega)]
        have htake : (data.take limit).length = limit :=
          List.length_take_of_le (Nat.le_of_lt hlong)
        have hcut := Cut.more htake (ih (size - limit) (by omega) hne hrest)
        rw [List.take_append_drop] at hcut
        rw [hcount, cut, if_pos hlong]
        exact hcut
      · have hcount : count limit size = 0 + 1 := by
          unfold count
          rw [Nat.div_eq_of_lt (by omega)]
        rw [hcount, cut, if_neg hlong, cut]
        exact .last (Nat.le_of_not_lt hlong)

variable {limit : ℕ} {data : List α} {parts : List (Bool × List α)}

theorem Cut.ne_nil (h : Cut limit data parts) : parts ≠ [] := by
  cases h with
  | last | more => exact List.cons_ne_nil _ _

theorem Cut.length_le (h : Cut limit data parts) :
    ∀ p ∈ parts, p.2.length ≤ limit := by
  induction h with
  | last hle => exact List.forall_mem_singleton.mpr hle
  | more hlen _ ih =>
      exact List.forall_mem_cons.mpr ⟨Nat.le_of_eq hlen, ih⟩

/-- The last part, and no other, is unmarked. -/
theorem Cut.marked_iff
    {before after : List (Bool × List α)} {part : Bool × List α}
    (h : Cut limit data (before ++ part :: after)) :
    part.1 = true ↔ after ≠ [] := by
  induction before generalizing data with
  | nil =>
      cases h with
      | last => exact ⟨fun h => (by cases h), fun h => absurd rfl h⟩
      | more _ hrest => exact ⟨fun _ => hrest.ne_nil, fun _ => rfl⟩
  | cons first before ih =>
      rw [List.cons_append] at h
      generalize hparts : before ++ part :: after = parts at h
      cases h with
      | last =>
          exact absurd (congrArg List.length hparts) (by
            rw [List.length_append, List.length_cons, List.length_nil]
            omega)
      | more _ hrest =>
          subst hparts
          exact ih hrest

end Parts
