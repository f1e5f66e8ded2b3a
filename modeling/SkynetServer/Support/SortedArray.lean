import Mathlib.Data.Int.Notation
import Mathlib.Data.List.Basic

/-!
# Sorted arrays

The loops of a table that is kept as a sorted array: a binary search, the
insertion of an entry, in place or while the array is copied, and the removal
of entries in place.

An array is a function on its positions, of which the first `n` are in use;
`entries f n` are the entries at them.  A search is about a function `c` that
compares the entry at a position with what is searched for.
-/

namespace SortedArray

variable {α : Type*}

/-- The entries at the first `n` positions. -/
def entries (f : ℕ → α) (n : ℕ) : List α := (List.range n).map f

section Entries

variable {f g : ℕ → α} {n : ℕ}

@[simp] theorem length_entries : (entries f n).length = n := by
  simp [entries]

theorem entries_succ : entries f (n + 1) = entries f n ++ [f n] := by
  simp [entries, List.range_succ]

theorem getElem_entries {i : ℕ} (h : i < (entries f n).length) :
    (entries f n)[i] = f i := by
  simp [entries]

theorem mem_entries {a : α} : a ∈ entries f n ↔ ∃ i < n, f i = a := by
  simp [entries]

theorem exists_of_mem_take {a : α} {k : ℕ} (h : a ∈ (entries f n).take k) :
    ∃ i < k, f i = a := by
  obtain ⟨i, hi, heq⟩ := List.getElem_of_mem h
  rw [List.getElem_take, getElem_entries] at heq
  rw [List.length_take] at hi
  exact ⟨i, by omega, heq⟩

theorem exists_of_mem_drop {a : α} {k : ℕ} (h : a ∈ (entries f n).drop k) :
    ∃ i, k ≤ i ∧ i < n ∧ f i = a := by
  obtain ⟨i, hi, heq⟩ := List.getElem_of_mem h
  rw [List.getElem_drop, getElem_entries] at heq
  rw [List.length_drop, length_entries] at hi
  exact ⟨k + i, Nat.le_add_right k i, by omega, heq⟩

theorem entries_congr (h : ∀ i < n, f i = g i) : entries f n = entries g n :=
  List.map_congr_left fun i hi => h i (List.mem_range.mp hi)

theorem pairwise_entries {r : α → α → Prop} :
    (entries f n).Pairwise r ↔ ∀ i j, i < j → j < n → r (f i) (f j) := by
  rw [List.pairwise_iff_getElem]
  constructor
  · intro h i j hij hj
    have hpair := h i j (by rw [length_entries]; omega)
      (by rwa [length_entries]) hij
    rwa [getElem_entries, getElem_entries] at hpair
  · intro h i j hi hj hij
    rw [getElem_entries, getElem_entries]
    exact h i j hij (by rwa [length_entries] at hj)

end Entries

/-! ## Binary search -/

/-- `while (begin <= end)`, with the position `mid` where the entry was found,
or the position `begin` after the loop.  Every round makes the interval
smaller, so it has as many rounds as there are positions at most. -/
def search (c : ℕ → Ordering) : ℕ → ℤ → ℤ → ℕ ⊕ ℕ
  | 0, first, _ => .inr first.toNat
  | n + 1, first, last =>
    if first ≤ last then
      let mid := ((first + last) / 2).toNat
      match c mid with
      | .eq => .inl mid
      | .lt => search c n (mid + 1) last
      | .gt => search c n first (mid - 1)
    else .inr first.toNat

/-- What a search has found among `n` entries. -/
def Found (c : ℕ → Ordering) (n : ℕ) : ℕ ⊕ ℕ → Prop
  | .inl mid => mid < n ∧ c mid = .eq
  | .inr first =>
    first ≤ n ∧ (∀ i < first, c i = .lt) ∧ ∀ i, first ≤ i → i < n → c i = .gt

/-- The entries are sorted as far as the comparison tells. -/
structure Ascending (c : ℕ → Ordering) (n : ℕ) : Prop where
  lt : ∀ i j, i < j → j < n → c j = .lt → c i = .lt
  gt : ∀ i j, i < j → j < n → c i = .gt → c j = .gt

theorem search_spec
    {c : ℕ → Ordering} {n k : ℕ} {first last : ℤ} (h : Ascending c n)
    (hfirst : 0 ≤ first) (hle : first ≤ last + 1) (hlast : last < n)
    (hk : last + 1 - first ≤ k) (hlt : ∀ i : ℕ, (i : ℤ) < first → c i = .lt)
    (hgt : ∀ i : ℕ, last < i → i < n → c i = .gt) :
    Found c n (search c k first last) := by
  have hend : ¬first ≤ last → Found c n (.inr first.toNat) := by
    intro hlt'
    refine ⟨by omega, fun i hi => hlt i (by omega), fun i hi hn => ?_⟩
    exact hgt i (by omega) hn
  induction k generalizing first last with
  | zero =>
      rw [search]
      exact hend (by omega)
  | succ k ih =>
      rw [search]
      split_ifs with hloop
      · have hmid : ((((first + last) / 2).toNat : ℕ) : ℤ) =
            (first + last) / 2 := by omega
        generalize hm : ((first + last) / 2).toNat = mid at hmid
        have hn : mid < n := by omega
        dsimp only
        split
        · rename_i heq
          exact ⟨hn, heq⟩
        · rename_i heq
          have hbelow : ∀ i : ℕ, (i : ℤ) < (mid : ℤ) + 1 → c i = .lt := by
            intro i hi
            rcases Nat.lt_or_ge i mid with hlt' | hge
            · exact h.lt i mid hlt' hn heq
            · obtain rfl : i = mid := by omega
              exact heq
          refine ih (by omega) (by omega) hlast (by omega) hbelow hgt ?_
          intro hdone
          refine ⟨by omega, fun i hi => hbelow i (by omega), fun i hi hi' => ?_⟩
          exact hgt i (by omega) hi'
        · rename_i heq
          have habove : ∀ i : ℕ, (mid : ℤ) - 1 < i → i < n → c i = .gt := by
            intro i hi hi'
            rcases Nat.lt_or_ge mid i with hlt' | hge
            · exact h.gt mid i hlt' hi' heq
            · obtain rfl : i = mid := by omega
              exact heq
          refine ih hfirst (by omega) (by omega) (by omega) hlt habove ?_
          intro hdone
          refine ⟨by omega, fun i hi => hlt i (by omega), fun i hi hi' => ?_⟩
          exact habove i (by omega) hi'
      · exact hend hloop

/-! ## Insertion -/

/-- `for (i=n; i>before; i--) f[i] = f[i-1]` -/
def shiftUp (before : ℕ) : ℕ → (ℕ → α) → ℕ → α
  | 0, f => f
  | i + 1, f =>
    if i + 1 > before then
      shiftUp before i (Function.update f (i + 1) (f i))
    else f

/-- `g[i+d] = f[i]` for `n` positions from `i` on. -/
def copy (f : ℕ → α) (d : ℕ) : ℕ → ℕ → (ℕ → α) → ℕ → α
  | 0, _, g => g
  | n + 1, i, g => copy f d n (i + 1) (Function.update g (i + d) (f i))

theorem shiftUp_apply (before n : ℕ) (f : ℕ → α) (j : ℕ) :
    shiftUp before n f j =
      if before < j ∧ j ≤ n then f (j - 1) else f j := by
  induction n generalizing f with
  | zero =>
      rw [shiftUp, if_neg (by omega)]
  | succ n ih =>
      rw [shiftUp]
      by_cases hn : n + 1 > before
      · rw [if_pos hn, ih]
        by_cases hj : j = n + 1
        · subst hj
          rw [if_neg (by omega), if_pos ⟨hn, Nat.le_refl _⟩,
            Function.update_self, Nat.add_sub_cancel]
        · by_cases hin : before < j ∧ j ≤ n
          · rw [if_pos hin, if_pos (by omega),
              Function.update_of_ne (by omega)]
          · rw [if_neg hin, if_neg (by omega), Function.update_of_ne hj]
      · rw [if_neg hn, if_neg (by omega)]

theorem copy_apply (f : ℕ → α) (d n i : ℕ) (g : ℕ → α) (j : ℕ) :
    copy f d n i g j =
      if i + d ≤ j ∧ j < i + d + n then f (j - d) else g j := by
  induction n generalizing i g with
  | zero =>
      rw [copy, if_neg (by omega)]
  | succ n ih =>
      rw [copy, ih]
      by_cases hj : j = i + d
      · subst hj
        rw [if_neg (by omega), if_pos (by omega), Function.update_self,
          Nat.add_sub_cancel]
      · by_cases hin : i + d < j ∧ j < i + d + (n + 1)
        · rw [if_pos (by omega), if_pos (by omega)]
        · rw [if_neg (by omega), if_neg (by omega), Function.update_of_ne hj]

/-- The entries with one more at a position. -/
theorem entries_insert
    {f g : ℕ → α} {n before : ℕ} {a : α} (hle : before ≤ n)
    (hbelow : ∀ i < before, g i = f i) (hat : g before = a)
    (habove : ∀ i, before < i → i ≤ n → g i = f (i - 1)) :
    entries g (n + 1) =
      (entries f n).take before ++ a :: (entries f n).drop before := by
  have htake : ((entries f n).take before).length = before := by
    rw [List.length_take, length_entries, Nat.min_eq_left hle]
  have hdrop : ((entries f n).drop before).length = n - before := by
    rw [List.length_drop, length_entries]
  refine List.ext_getElem ?_ fun i hi hi' => ?_
  · rw [length_entries, List.length_append, List.length_cons, htake, hdrop]
    omega
  have hn : i < n + 1 := by rwa [length_entries] at hi
  rw [getElem_entries]
  rcases Nat.lt_trichotomy i before with hlt | rfl | hgt
  · rw [List.getElem_append_left (by omega), List.getElem_take,
      getElem_entries, hbelow i hlt]
  · rw [List.getElem_append_right (by omega)]
    simp only [htake, Nat.sub_self, List.getElem_cons_zero]
    exact hat
  · rw [List.getElem_append_right (by omega)]
    simp only [htake]
    obtain ⟨k, rfl⟩ : ∃ k, i = before + k + 1 := ⟨i - before - 1, by omega⟩
    have hk : before + k + 1 - before = k + 1 := by omega
    simp only [hk, List.getElem_cons_succ, List.getElem_drop,
      getElem_entries]
    exact habove _ hgt (by omega)

theorem entries_shiftUp
    {f : ℕ → α} {n before : ℕ} (hle : before ≤ n) (a : α) :
    entries (Function.update (shiftUp before n f) before a) (n + 1) =
      (entries f n).take before ++ a :: (entries f n).drop before := by
  refine entries_insert hle ?_ (Function.update_self ..) ?_
  · intro i hi
    rw [Function.update_of_ne (by omega), shiftUp_apply, if_neg (by omega)]
  · intro i hi hi'
    rw [Function.update_of_ne (by omega), shiftUp_apply, if_pos ⟨hi, hi'⟩]

theorem entries_copy
    {f g : ℕ → α} {n before : ℕ} (hle : before ≤ n) (a : α) :
    entries (Function.update
        (copy f 1 (n - before) before (copy f 0 before 0 g)) before a)
        (n + 1) =
      (entries f n).take before ++ a :: (entries f n).drop before := by
  refine entries_insert hle ?_ (Function.update_self ..) ?_
  · intro i hi
    rw [Function.update_of_ne (by omega), copy_apply, if_neg (by omega),
      copy_apply, if_pos (by omega), Nat.sub_zero]
  · intro i hi hi'
    rw [Function.update_of_ne (by omega), copy_apply, if_pos (by omega)]

theorem mem_insert {l : List α} {before : ℕ} {a b : α} :
    b ∈ l.take before ++ a :: l.drop before ↔ b = a ∨ b ∈ l := by
  have hsplit : b ∈ l ↔ b ∈ l.take before ∨ b ∈ l.drop before := by
    rw [← List.mem_append, List.take_append_drop]
  rw [List.mem_append, List.mem_cons, hsplit]
  exact or_left_comm

/-- A new entry between the smaller and the larger ones. -/
theorem pairwise_insert
    {r : α → α → Prop} {l : List α} {before : ℕ} {a : α}
    (h : l.Pairwise r) (hbelow : ∀ b ∈ l.take before, r b a)
    (habove : ∀ b ∈ l.drop before, r a b) :
    (l.take before ++ a :: l.drop before).Pairwise r := by
  rw [← List.take_append_drop before l, List.pairwise_append] at h
  obtain ⟨htake, hdrop, hcross⟩ := h
  refine List.pairwise_append.mpr ⟨htake, ?_, ?_⟩
  · exact List.pairwise_cons.mpr ⟨habove, hdrop⟩
  · intro b hb c hc
    rcases List.mem_cons.mp hc with rfl | hc
    · exact hbelow b hb
    · exact hcross b hb c hc

/-! ## Removal -/

/-- The loop that keeps the entries at `n` positions from `i` on, and writes
them from position `j` on: the number of the entries left, and the array. -/
def compact (keep : α → Bool) : ℕ → ℕ → ℕ → (ℕ → α) → ℕ × (ℕ → α)
  | 0, _, j, f => (j, f)
  | n + 1, i, j, f =>
    if keep (f i) then
      compact keep n (i + 1) (j + 1)
        (if i ≠ j then Function.update f j (f i) else f)
    else compact keep n (i + 1) j f

theorem entries_compact_from
    (keep : α → Bool) (n i j : ℕ) (f : ℕ → α) (hle : j ≤ i) :
    entries (compact keep n i j f).2 (compact keep n i j f).1 =
      entries f j ++ ((List.range' i n).map f).filter keep := by
  induction n generalizing i j f with
  | zero => simp [compact]
  | succ n ih =>
      rw [compact, List.range'_succ, List.map_cons]
      by_cases hkeep : keep (f i) = true
      · rw [if_pos hkeep, List.filter_cons_of_pos hkeep]
        have hmove : ∀ k, j ≠ k ∨ i = j →
            (if i ≠ j then Function.update f j (f i) else f) k = f k := by
          intro k hk
          split_ifs with hij
          · rw [Function.update_of_ne (by omega)]
          · rfl
        have hwrite :
            (if i ≠ j then Function.update f j (f i) else f) j = f i := by
          split_ifs with hij
          · rw [Function.update_self]
          · rw [not_not.mp hij]
        generalize (if i ≠ j then Function.update f j (f i) else f) = g
          at hmove hwrite
        have hrest : (List.range' (i + 1) n).map g =
            (List.range' (i + 1) n).map f := by
          refine List.map_congr_left fun k hk => ?_
          have hik := (List.mem_range'_1.mp hk).1
          exact hmove k (.inl (by omega))
        rw [ih (i + 1) (j + 1) g (by omega), hrest, entries_succ, hwrite,
          List.append_assoc]
        have hfirst : entries g j = entries f j :=
          entries_congr fun k hk => hmove k (.inl (by omega))
        rw [hfirst]
        rfl
      · rw [if_neg hkeep, List.filter_cons_of_neg hkeep]
        exact ih (i + 1) j f (by omega)

/-- The entries that are kept, in their order. -/
theorem entries_compact (keep : α → Bool) (n : ℕ) (f : ℕ → α) :
    entries (compact keep n 0 0 f).2 (compact keep n 0 0 f).1 =
      (entries f n).filter keep := by
  rw [entries_compact_from keep n 0 0 f (Nat.le_refl 0), ← List.range_eq_range']
  rfl

theorem compact_le (keep : α → Bool) (n i j : ℕ) (f : ℕ → α) :
    (compact keep n i j f).1 ≤ j + n := by
  induction n generalizing i j f with
  | zero => exact Nat.le_refl j
  | succ n ih =>
      rw [compact]
      split_ifs
      · have := ih (i + 1) (j + 1) (Function.update f j (f i))
        omega
      · have := ih (i + 1) (j + 1) f
        omega
      · have := ih (i + 1) j f
        omega

end SortedArray
