import Mathlib.Tactic.Ring
import Mathlib.Tactic.Linarith
import SkynetServer.Handle.Storage

/-!
# Which slots a registration probes

The probe of `skynet_handle_register` walks `slotSize` consecutive handles,
but jumps from `HANDLE_MASK` to `1`.  Consecutive handles meet every slot, and
so does the walk as long as it does not jump in the middle; a walk that jumps
passes over slot `0`, because the handle `0` is reserved.
-/

namespace SkynetServer.Handle

/-- The first lines of the probe loop's body. -/
def wrapHandle (handle : ℕ) : ℕ :=
  if handle > handleMask then 1 else handle

/-- The handle tried in iteration `k` of a probe that starts at `h`. -/
def candidate (h : ℕ) : ℕ → ℕ
  | 0 => wrapHandle h
  | k + 1 => wrapHandle (candidate h k + 1)

theorem candidate_succ (h k : ℕ) :
    candidate h (k + 1) = candidate (wrapHandle h + 1) k := by
  induction k with
  | zero => rfl
  | succ k ih => rw [candidate, ih, candidate]

theorem wrapHandle_bounds {h : ℕ} (hpos : 1 ≤ h) :
    1 ≤ wrapHandle h ∧ wrapHandle h ≤ handleMask := by
  unfold wrapHandle
  split
  · exact ⟨le_refl 1, by decide⟩
  · exact ⟨hpos, by omega⟩

theorem candidate_wrapHandle {h : ℕ} (hpos : 1 ≤ h) (k : ℕ) :
    candidate (wrapHandle h) k = candidate h k := by
  have hwrap : wrapHandle (wrapHandle h) = wrapHandle h := by
    obtain ⟨-, hle⟩ := wrapHandle_bounds hpos
    generalize wrapHandle h = m at hle ⊢
    exact if_neg (by omega)
  induction k with
  | zero => exact hwrap
  | succ k ih => rw [candidate, candidate, ih]

/-- Closed form of the walk until it would jump a second time. -/
theorem candidate_eq
    {h k : ℕ} (hle : h ≤ handleMask) (hk : h + k ≤ 2 * handleMask) :
    candidate h k =
      if h + k ≤ handleMask then h + k else h + k - handleMask := by
  induction k with
  | zero =>
      simp only [candidate, wrapHandle, add_zero]
      rw [if_neg (by omega), if_pos hle]
  | succ k ih =>
      rw [candidate, ih (by omega), wrapHandle]
      split_ifs <;> omega

section Probe

variable {s : HandleStorage}

theorem probe_succ (n h : ℕ) :
    probe s (n + 1) h =
      if s.slot (s.hash (wrapHandle h)) = none then some (wrapHandle h)
      else probe s n (wrapHandle h + 1) := rfl

/-- The probe fails exactly when the slots of all its handles are taken. -/
theorem probe_eq_none_iff (n h : ℕ) :
    probe s n h = none ↔
      ∀ k < n, s.slot (s.hash (candidate h k)) ≠ none := by
  induction n generalizing h with
  | zero => simp [probe]
  | succ n ih =>
      rw [probe_succ]
      constructor
      · intro hnone k hk
        split at hnone
        · cases hnone
        · rename_i htaken
          cases k with
          | zero => exact htaken
          | succ k =>
              rw [candidate_succ]
              exact (ih _).mp hnone k (by omega)
      · intro htaken
        have hfirst : s.slot (s.hash (wrapHandle h)) ≠ none :=
          htaken 0 (by omega)
        rw [if_neg hfirst, ih]
        intro k hk
        rw [← candidate_succ]
        exact htaken (k + 1) (by omega)

/-- A probe that succeeds returns a handle in range. -/
theorem probe_bounds
    {n h handle : ℕ} (hpos : 1 ≤ h) (hsome : probe s n h = some handle) :
    1 ≤ handle ∧ handle ≤ handleMask := by
  induction n generalizing h with
  | zero => cases hsome
  | succ n ih =>
      rw [probe_succ] at hsome
      split at hsome
      · cases hsome
        exact wrapHandle_bounds hpos
      · exact ih (Nat.le_add_left 1 _) hsome

/-- A probe that succeeds returns the handle of a free slot. -/
theorem probe_free
    {n h handle : ℕ} (hsome : probe s n h = some handle) :
    s.slot (s.hash handle) = none := by
  induction n generalizing h with
  | zero => cases hsome
  | succ n ih =>
      rw [probe_succ] at hsome
      split at hsome
      · rename_i hfree
        cases hsome
        exact hfree
      · exact ih hsome

end Probe

/-! ## Coverage of the slots -/

section Coverage

variable {size h i : ℕ}

/-- A walk of `size` handles that does not jump meets every slot. -/
theorem exists_candidate_of_le
    (hfit : h + size ≤ handleMask + 1) (hi : i < size) :
    ∃ k < size, candidate h k % size = i := by
  have hr : h % size < size := Nat.mod_lt _ (by omega)
  refine ⟨(i + (size - h % size)) % size, Nat.mod_lt _ (by omega), ?_⟩
  have hk : (i + (size - h % size)) % size < size :=
    Nat.mod_lt _ (by omega)
  rw [candidate_eq (by omega) (by omega), if_pos (by omega), Nat.add_mod,
    Nat.mod_mod, ← Nat.add_mod]
  have hsplit : h + (i + (size - h % size)) =
      i + size * (h / size + 1) := by
    have hdiv := Nat.div_add_mod h size
    rw [Nat.mul_add, Nat.mul_one]
    omega
  rw [hsplit, Nat.add_mul_mod_self_left]
  exact Nat.mod_eq_of_lt hi

/-- A walk that jumps starts in the last `size` handles, at the distance
`r` of its slot from their beginning. -/
theorem exists_offset_of_jump
    (hdvd : size ∣ handleMask + 1)
    (hle : h ≤ handleMask) (hjump : handleMask + 1 < h + size) :
    ∃ q r, handleMask + 1 = size * q + size ∧ h = size * q + r ∧
      1 ≤ r ∧ r < size := by
  obtain ⟨n, hn⟩ := hdvd
  obtain ⟨q, rfl⟩ : ∃ q, n = q + 1 := by
    cases n with
    | zero => simp at hn
    | succ q => exact ⟨q, rfl⟩
  rw [Nat.mul_add, Nat.mul_one] at hn
  exact ⟨q, h - size * q, hn, by omega, by omega, by omega⟩

/-- A walk that jumps still meets every slot but slot `0`. -/
theorem exists_candidate_of_jump
    (hdvd : size ∣ handleMask + 1) (hle : h ≤ handleMask)
    (hjump : handleMask + 1 < h + size) (hpos : 0 < i) (hi : i < size) :
    ∃ k < size, candidate h k % size = i := by
  obtain ⟨q, r, hq, rfl, hr1, hr⟩ :=
    exists_offset_of_jump hdvd hle hjump
  by_cases hir : r ≤ i
  · refine ⟨i - r, by omega, ?_⟩
    rw [candidate_eq hle (by omega), if_pos (by omega),
      show size * q + r + (i - r) = i + size * q by omega,
      Nat.add_mul_mod_self_left, Nat.mod_eq_of_lt hi]
  · refine ⟨i + (size - 1 - r), by omega, ?_⟩
    rw [candidate_eq hle (by omega), if_neg (by omega),
      show size * q + r + (i + (size - 1 - r)) - handleMask = i by omega,
      Nat.mod_eq_of_lt hi]

/-- No handle of a walk that jumps belongs to slot `0`. -/
theorem candidate_mod_ne_zero_of_jump
    (hdvd : size ∣ handleMask + 1) (hle : h ≤ handleMask)
    (hjump : handleMask + 1 < h + size) {k : ℕ} (hk : k < size) :
    candidate h k % size ≠ 0 := by
  obtain ⟨q, r, hq, rfl, hr1, hr⟩ :=
    exists_offset_of_jump hdvd hle hjump
  rw [candidate_eq hle (by omega)]
  split
  · rw [show size * q + r + k = (r + k) + size * q by omega,
      Nat.add_mul_mod_self_left, Nat.mod_eq_of_lt (by omega)]
    omega
  · rw [Nat.mod_eq_of_lt (by omega)]
    omega

end Coverage

/-! ## What a failing probe means -/

/-- The probe of the next registration passes `HANDLE_MASK`. -/
def HandleStorage.Jumps (s : HandleStorage) : Prop :=
  handleMask + 1 < wrapHandle s.handleIndex + s.slotSize

/-- Slot `0` is the only free one and the next probe passes over it. -/
def HandleStorage.SkipsSlotZero (s : HandleStorage) : Prop :=
  s.Jumps ∧ s.slot 0 = none ∧
    ∀ i, 0 < i → i < s.slotSize → s.slot i ≠ none

/-- Every slot of the array is taken. -/
def HandleStorage.Full (s : HandleStorage) : Prop :=
  ∀ i < s.slotSize, s.slot i ≠ none

/-- The table has a power of two of slots and its next handle is in range. -/
structure HandleStorage.WellSized (s : HandleStorage) : Prop where
  size : ∃ k, 2 ≤ k ∧ k ≤ 24 ∧ s.slotSize = 2 ^ k
  index : 1 ≤ s.handleIndex ∧ s.handleIndex ≤ handleMask + 1

namespace HandleStorage.WellSized

variable {s : HandleStorage}

theorem four_le (hs : s.WellSized) : 4 ≤ s.slotSize := by
  obtain ⟨k, hk, -, hsize⟩ := hs.size
  rw [hsize]
  exact Nat.pow_le_pow_right (n := 2) (by decide) hk

theorem dvd (hs : s.WellSized) : s.slotSize ∣ handleMask + 1 := by
  obtain ⟨k, -, hk, hsize⟩ := hs.size
  rw [hsize, show handleMask + 1 = 2 ^ 24 from rfl]
  exact Nat.pow_dvd_pow 2 hk

theorem hash_eq (hs : s.WellSized) (h : ℕ) :
    s.hash h = h % s.slotSize := by
  obtain ⟨k, -, -, hsize⟩ := hs.size
  rw [HandleStorage.hash, hsize, Nat.and_two_pow_sub_one_eq_mod]

theorem probe_none_iff (hs : s.WellSized) :
    probe s s.slotSize s.handleIndex = none ↔
      ∀ k < s.slotSize,
        s.slot (candidate (wrapHandle s.handleIndex) k % s.slotSize) ≠
          none := by
  rw [probe_eq_none_iff]
  simp only [hs.hash_eq, candidate_wrapHandle hs.index.1]

/-- When the probe finds nothing, all slots but slot `0` are taken. -/
theorem taken_of_probe_none
    (hs : s.WellSized) (hnone : probe s s.slotSize s.handleIndex = none)
    {i : ℕ} (hpos : 0 < i) (hi : i < s.slotSize) : s.slot i ≠ none := by
  rw [hs.probe_none_iff] at hnone
  obtain ⟨hlow, hhigh⟩ := wrapHandle_bounds hs.index.1
  have hcover : ∃ k < s.slotSize,
      candidate (wrapHandle s.handleIndex) k % s.slotSize = i := by
    by_cases hjump : s.Jumps
    · exact exists_candidate_of_jump hs.dvd hhigh hjump hpos hi
    · exact exists_candidate_of_le (not_lt.mp hjump) hi
  obtain ⟨k, hk, rfl⟩ := hcover
  exact hnone k hk

/-- A failing probe means a full table, unless it passed over slot `0`. -/
theorem full_of_probe_none_iff (hs : s.WellSized) :
    (probe s s.slotSize s.handleIndex = none → s.Full) ↔
      ¬ s.SkipsSlotZero := by
  obtain ⟨hlow, hhigh⟩ := wrapHandle_bounds hs.index.1
  have hfour := hs.four_le
  constructor
  · rintro hfull ⟨hjump, hzero, htaken⟩
    have hnone : probe s s.slotSize s.handleIndex = none := by
      rw [hs.probe_none_iff]
      intro k hk
      have hne := candidate_mod_ne_zero_of_jump hs.dvd hhigh hjump hk
      exact htaken _ (Nat.pos_of_ne_zero hne) (Nat.mod_lt _ (by omega))
    exact hfull hnone 0 (by omega) hzero
  · intro hskip hnone i hi
    rcases Nat.eq_zero_or_pos i with rfl | hpos
    · by_cases hjump : s.Jumps
      · intro hzero
        exact hskip ⟨hjump, hzero, fun i hpos hi =>
          hs.taken_of_probe_none hnone hpos hi⟩
      · rw [hs.probe_none_iff] at hnone
        obtain ⟨k, hk, hkey⟩ :=
          exists_candidate_of_le (not_lt.mp hjump) hi
        rw [← hkey]
        exact hnone k hk
    · exact hs.taken_of_probe_none hnone hpos hi

theorem probe_none_of_skips (hs : s.WellSized) (hskip : s.SkipsSlotZero) :
    probe s s.slotSize s.handleIndex = none := by
  by_contra hne
  exact hs.full_of_probe_none_iff.mp (fun h => absurd h hne) hskip

end HandleStorage.WellSized

end SkynetServer.Handle
