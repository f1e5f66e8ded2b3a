import Mathlib.Data.List.Basic

/-!
# A block of memory

Reads and writes of consecutive cells of a block, and what a write leaves
unchanged.
-/

namespace Memory

variable {α : Type*}

/-- The `n` cells from `p` on. -/
def load (m : List α) (p n : ℕ) : List α := (m.drop p).take n

/-- The block with `xs` written from `p` on. -/
def store (m : List α) (p : ℕ) (xs : List α) : List α :=
  m.take p ++ xs ++ m.drop (p + xs.length)

variable {m xs ys : List α} {p q n k : ℕ}

theorem length_load (h : p + n ≤ m.length) : (load m p n).length = n := by
  rw [load, List.length_take, List.length_drop]
  omega

theorem length_store (h : p + xs.length ≤ m.length) :
    (store m p xs).length = m.length := by
  rw [store, List.length_append, List.length_append, List.length_take,
    List.length_drop]
  omega

theorem getElem?_load (m : List α) (p n i : ℕ) :
    (load m p n)[i]? = if i < n then m[p + i]? else none := by
  rw [load, List.getElem?_take, List.getElem?_drop]

theorem getElem?_store (h : p + xs.length ≤ m.length) (i : ℕ) :
    (store m p xs)[i]? =
      if p ≤ i ∧ i < p + xs.length then xs[i - p]? else m[i]? := by
  have hp : (m.take p).length = p := by
    rw [List.length_take]
    omega
  rw [store, List.append_assoc, List.getElem?_append, hp]
  split
  · rename_i hi
    rw [if_neg (by omega), List.getElem?_take, if_pos hi]
  · rename_i hi
    rw [List.getElem?_append]
    split
    · rw [if_pos (by omega)]
    · rw [if_neg (by omega), List.getElem?_drop]
      congr 1
      omega

/-- What was written is read. -/
theorem load_store (h : p + xs.length ≤ m.length) :
    load (store m p xs) p xs.length = xs := by
  refine List.ext_getElem? fun i => ?_
  rw [getElem?_load, getElem?_store h]
  split
  · rw [if_pos (by omega), Nat.add_sub_cancel_left]
  · exact (List.getElem?_eq_none (by omega)).symm

/-- A write leaves the cells outside it unchanged. -/
theorem load_store_of_disjoint
    (h : p + xs.length ≤ m.length) (hdisjoint : q + n ≤ p ∨ p + xs.length ≤ q) :
    load (store m p xs) q n = load m q n := by
  refine List.ext_getElem? fun i => ?_
  rw [getElem?_load, getElem?_load, getElem?_store h]
  split
  · rw [if_neg (by omega)]
  · rfl

theorem load_add (m : List α) (p n k : ℕ) :
    load m p (n + k) = load m p n ++ load m (p + n) k := by
  rw [load, load, load, List.take_add, List.drop_drop]

theorem load_append (xs ys zs : List α) :
    load (xs ++ (ys ++ zs)) xs.length ys.length = ys := by
  rw [load, List.drop_left, List.take_left]

theorem store_append (hlength : xs.length = ys.length) (ws zs : List α) :
    store (ws ++ (xs ++ zs)) ws.length ys = ws ++ (ys ++ zs) := by
  rw [store, List.take_left, ← hlength, ← List.drop_drop, List.drop_left,
    List.drop_left, List.append_assoc]

/-- A write inside the first part. -/
theorem store_append_left (h : p + xs.length ≤ m.length) (zs : List α) :
    store (m ++ zs) p xs = store m p xs ++ zs := by
  rw [store, store, List.take_append_of_le_length (by omega),
    List.drop_append_of_le_length h, List.append_assoc _ _ zs]

theorem load_append_left (h : p + n ≤ m.length) (zs : List α) :
    load (m ++ zs) p n = load m p n := by
  rw [load, load, List.drop_append_of_le_length (by omega),
    List.take_append_of_le_length (by rw [List.length_drop]; omega)]

theorem take_store_of_le (hp : p ≤ m.length) (hq : q ≤ p) :
    (store m p xs).take q = m.take q := by
  rw [store, List.append_assoc, List.take_append_of_le_length
    (by rw [List.length_take]; omega), List.take_take, Nat.min_eq_left hq]

theorem drop_store_of_le
    (h : p + xs.length ≤ m.length) (hq : p + xs.length ≤ q) :
    (store m p xs).drop q = m.drop q := by
  refine List.ext_getElem? fun i => ?_
  rw [List.getElem?_drop, List.getElem?_drop, getElem?_store h,
    if_neg (by omega)]

/-- A block with at least `n` cells behind `ws`. -/
theorem exists_cells (ws : List α) (h : n ≤ m.length) :
    ∃ xs zs, xs.length = n ∧ ws ++ m = ws ++ (xs ++ zs) :=
  ⟨m.take n, m.drop n, List.length_take_of_le h, by rw [List.take_append_drop]⟩

/-! ## What stands at a place -/

/-- The cells from `p` on are `xs`. -/
def At (m : List α) (p : ℕ) (xs : List α) : Prop :=
  ∃ ws zs, ws.length = p ∧ m = ws ++ (xs ++ zs)

theorem At.le (h : At m p xs) : p + xs.length ≤ m.length := by
  obtain ⟨ws, zs, rfl, rfl⟩ := h
  simp only [List.length_append]
  omega

theorem At.load (h : At m p xs) : load m p xs.length = xs := by
  obtain ⟨ws, zs, rfl, rfl⟩ := h
  exact load_append ws xs zs

theorem at_append :
    At m p (xs ++ ys) ↔ At m p xs ∧ At m (p + xs.length) ys := by
  constructor
  · rintro ⟨ws, zs, rfl, rfl⟩
    refine ⟨⟨ws, ys ++ zs, rfl, ?_⟩, ⟨ws ++ xs, zs, List.length_append, ?_⟩⟩
    · rw [List.append_assoc]
    · simp only [List.append_assoc]
  · rintro ⟨⟨ws, zs, rfl, rfl⟩, ws', zs', hlength, hcells⟩
    have hfront := congrArg (List.drop ws.length) hcells
    have hrest := congrArg (List.drop xs.length) hfront
    rw [List.drop_left, List.drop_left, List.drop_drop, ← hlength,
      List.drop_left] at hrest
    exact ⟨ws, zs', rfl, by rw [hrest, List.append_assoc]⟩

/-- The cells of one of several blocks that stand one behind the other. -/
theorem At.flatten
    {xss : List (List α)} {i : ℕ} (h : At m p xss.flatten)
    (hi : xss[i]? = some xs) :
    At m (p + (xss.take i).flatten.length) xs := by
  obtain ⟨hlt, rfl⟩ := List.getElem?_eq_some_iff.1 hi
  have hsplit : xss.flatten = (xss.take i).flatten ++
      (xss[i] ++ (xss.drop (i + 1)).flatten) := by
    rw [← List.flatten_cons, List.getElem_cons_drop, ← List.flatten_append,
      List.take_append_drop]
  rw [hsplit, at_append, at_append] at h
  exact h.2.1

end Memory
