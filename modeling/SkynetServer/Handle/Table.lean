import SkynetServer.Handle.Probe

/-!
# The slot table as a map from handles to contexts

The table is correct with respect to a numbering `issued` of the contexts,
the handle each of them was given: a context stands in the slot of its
handle.  The numbering is a parameter, since a context is put in the table
before its handle is stored in it; the table itself only sees `handleOf`, the
handles stored so far.  Where the two agree, doubling the table keeps every
context in the slot of its handle.
-/

namespace SkynetServer.Handle

/-- Every context stands in the slot of the handle it was given. -/
structure Table (issued : Ctx → ℕ) (s : HandleStorage) : Prop
    extends s.WellSized where
  harbor : 2 ^ 24 ∣ s.harbor
  slots : ∀ {i c}, s.slot i = some c →
    i < s.slotSize ∧ issued c % s.slotSize = i ∧
      1 ≤ issued c % 2 ^ 24 ∧ issued c = issued c % 2 ^ 24 + s.harbor

/-- The context is in the table. -/
def HandleStorage.Holds (s : HandleStorage) (c : Ctx) : Prop :=
  ∃ i, s.slot i = some c

theorem or_harbor
    {handle harbor : ℕ} (hle : handle ≤ handleMask) (hdvd : 2 ^ 24 ∣ harbor) :
    handle ||| harbor = handle + harbor := by
  obtain ⟨b, rfl⟩ := hdvd
  have hlt : handle < 2 ^ 24 := Nat.lt_succ_of_le hle
  rw [Nat.or_comm, ← Nat.two_pow_add_eq_or_of_lt hlt, Nat.add_comm]

/-- What the handle returned by a registration looks like. -/
theorem issued_handle
    {handle harbor : ℕ} (hpos : 1 ≤ handle) (hle : handle ≤ handleMask)
    (hdvd : 2 ^ 24 ∣ harbor) :
    (handle ||| harbor) % 2 ^ 24 = handle ∧
      1 ≤ (handle ||| harbor) % 2 ^ 24 ∧
      handle ||| harbor = (handle ||| harbor) % 2 ^ 24 + harbor := by
  have hlt : handle < 2 ^ 24 := Nat.lt_succ_of_le hle
  have hmod : (handle ||| harbor) % 2 ^ 24 = handle := by
    rw [or_harbor hle hdvd]
    obtain ⟨b, rfl⟩ := hdvd
    rw [Nat.add_mul_mod_self_left, Nat.mod_eq_of_lt hlt]
  refine ⟨hmod, by rw [hmod]; exact hpos, ?_⟩
  rw [hmod, or_harbor hle hdvd]

/-- The initial table is correct for every numbering. -/
theorem table_handleInit (harbor : ℕ) (issued : Ctx → ℕ) :
    Table issued (handleInit harbor) := by
  refine ⟨⟨⟨2, by decide, by decide, rfl⟩, le_refl 1, ?_⟩, ?_, nofun⟩
  · exact Nat.succ_le_succ (Nat.zero_le _)
  · refine ⟨harbor &&& 0xff, ?_⟩
    simp only [handleInit, handleRemoteShift, Nat.shiftLeft_eq, Nat.mul_comm]

namespace Table

variable {issued : Ctx → ℕ} {s : HandleStorage} {c c' : Ctx} {i : ℕ}

theorem slot_eq (ht : Table issued s) (h : s.slot i = some c) :
    s.slot (issued c % s.slotSize) = some c := by
  rw [(ht.slots h).2.1]
  exact h

/-- Contexts in the table have distinct handles. -/
theorem issued_inj
    (ht : Table issued s) (h : s.Holds c) (h' : s.Holds c')
    (heq : issued c = issued c') : c = c' := by
  obtain ⟨i, h⟩ := h
  obtain ⟨j, h'⟩ := h'
  have hc := ht.slot_eq h
  rw [heq, ht.slot_eq h'] at hc
  exact (Option.some.inj hc).symm

theorem hash_issued (ht : Table issued s) (h : s.Holds c) :
    s.slot (s.hash (issued c)) = some c := by
  obtain ⟨i, h⟩ := h
  rw [ht.toWellSized.hash_eq]
  exact ht.slot_eq h

/-- Two contexts in slots with the same low bits are in the same slot. -/
theorem slot_inj
    (ht : Table issued s) {j : ℕ} (h : s.slot i = some c)
    (h' : s.slot j = some c) : i = j :=
  (ht.slots h).2.1.symm.trans (ht.slots h').2.1

/-- Taking a free slot under a fresh handle keeps the table correct. -/
theorem occupy
    (ht : Table issued s) {handle : ℕ} (hpos : 1 ≤ handle)
    (hle : handle ≤ handleMask) (hnew : ¬ s.Holds c) :
    Table (Function.update issued c (handle ||| s.harbor))
      (s.occupy handle c) := by
  have hsized := ht.toWellSized
  have hfour := hsized.four_le
  refine ⟨⟨hsized.size, Nat.le_add_left 1 _, Nat.add_le_add_right hle 1⟩,
    ht.harbor, ?_⟩
  obtain ⟨hmod, hlow, hsplit⟩ := issued_handle hpos hle ht.harbor
  have hslot : (handle ||| s.harbor) % s.slotSize = s.hash handle := by
    have hdvd : s.slotSize ∣ 2 ^ 24 := hsized.dvd
    rw [hsized.hash_eq, ← Nat.mod_mod_of_dvd _ hdvd, hmod]
  intro j d hd
  by_cases hj : j = s.hash handle
  · subst hj
    simp only [HandleStorage.occupy, Function.update_self,
      Option.some.injEq] at hd
    subst hd
    simp only [HandleStorage.occupy, Function.update_self]
    exact ⟨by rw [hsized.hash_eq]; exact Nat.mod_lt _ (by omega), hslot,
      hlow, hsplit⟩
  · simp only [HandleStorage.occupy, Function.update_of_ne hj] at hd
    have hdc : d ≠ c := fun h => hnew ⟨j, h ▸ hd⟩
    simp only [HandleStorage.occupy, Function.update_of_ne hdc]
    exact ht.slots hd

/-- Emptying a slot keeps the table correct. -/
theorem erase (ht : Table issued s) (j : ℕ) (names : List HandleName) :
    Table issued
      { s with slot := Function.update s.slot j none, name := names } := by
  refine ⟨⟨ht.size, ht.index⟩, ht.harbor, ?_⟩
  intro i c hc
  by_cases hij : i = j
  · subst hij
    simp at hc
  · simp only [Function.update_of_ne hij] at hc
    exact ht.slots hc

end Table

theorem holds_occupy
    {s : HandleStorage} {handle : ℕ} {c : Ctx}
    (hfree : s.slot (s.hash handle) = none) (d : Ctx) :
    (s.occupy handle c).Holds d ↔ d = c ∨ s.Holds d := by
  constructor
  · rintro ⟨i, hi⟩
    by_cases hj : i = s.hash handle
    · subst hj
      simp only [HandleStorage.occupy, Function.update_self,
        Option.some.injEq] at hi
      exact .inl hi.symm
    · simp only [HandleStorage.occupy, Function.update_of_ne hj] at hi
      exact .inr ⟨i, hi⟩
  · rintro (rfl | ⟨i, hi⟩)
    · exact ⟨s.hash handle, Function.update_self ..⟩
    · have hj : i ≠ s.hash handle := by
        rintro rfl
        rw [hfree] at hi
        cases hi
      exact ⟨i, (Function.update_of_ne hj _ _).trans hi⟩

theorem holds_erase
    {s : HandleStorage} {j : ℕ} {names : List HandleName} {c : Ctx} :
    HandleStorage.Holds
      { s with slot := Function.update s.slot j none, name := names } c ↔
      ∃ i, i ≠ j ∧ s.slot i = some c := by
  refine exists_congr fun i => ?_
  by_cases hij : i = j
  · subst hij
    simp
  · simp [hij]

/-! ## Doubling -/

section Doubling

variable {issued handleOf : Ctx → ℕ} {s : HandleStorage}

/-- The hash loop fills the new array with every context once, provided the
stored handles of the contexts in slot `i` still have the low bits `i`. -/
theorem rehash_ok
    (hkeep : ∀ {i c}, s.slot i = some c →
      (handleOf c &&& (s.slotSize * 2 - 1)) % s.slotSize = i)
    (n i : ℕ) (newSlot : ℕ → Option Ctx) (hn : i + n = s.slotSize)
    (hfull : s.Full)
    (hnew : ∀ j c, newSlot j = some c ↔
      ∃ i' < i, s.slot i' = some c ∧
        handleOf c &&& (s.slotSize * 2 - 1) = j) :
    ∃ result, rehash handleOf s n i newSlot = .ok result ∧
      ∀ j c, result j = some c ↔
        ∃ i' < s.slotSize, s.slot i' = some c ∧
          handleOf c &&& (s.slotSize * 2 - 1) = j := by
  induction n generalizing i newSlot with
  | zero =>
      obtain rfl : i = s.slotSize := by omega
      exact ⟨newSlot, rfl, hnew⟩
  | succ n ih =>
      obtain ⟨c, hc⟩ := Option.ne_none_iff_exists'.mp (hfull i (by omega))
      have hfree : newSlot (handleOf c &&& (s.slotSize * 2 - 1)) = none := by
        by_contra hne
        obtain ⟨d, hd⟩ := Option.ne_none_iff_exists'.mp hne
        obtain ⟨i', hi', hslot, hhash⟩ := (hnew _ _).mp hd
        have hd' := hkeep hslot
        rw [hhash, hkeep hc] at hd'
        omega
      rw [rehash, hc]
      simp only [hfree, if_true]
      apply ih (i + 1) _ (by omega)
      intro j d
      by_cases hj : j = handleOf c &&& (s.slotSize * 2 - 1)
      · subst hj
        rw [Function.update_self]
        constructor
        · intro hd
          cases hd
          exact ⟨i, by omega, hc, rfl⟩
        · rintro ⟨i', hi', hslot, hhash⟩
          have hd' := hkeep hslot
          rw [hhash, hkeep hc] at hd'
          subst hd'
          rw [hc] at hslot
          exact hslot
      · rw [Function.update_of_ne hj, hnew]
        constructor
        · rintro ⟨i', hi', hrest⟩
          exact ⟨i', by omega, hrest⟩
        · rintro ⟨i', hi', hslot, hhash⟩
          refine ⟨i', ?_, hslot, hhash⟩
          rcases Nat.lt_succ_iff_lt_or_eq.mp hi' with hlt | rfl
          · exact hlt
          · rw [hc] at hslot
            cases hslot
            exact absurd hhash.symm hj

/-- The storage with a new array of twice the size. -/
def HandleStorage.doubled
    (s : HandleStorage) (newSlot : ℕ → Option Ctx) : HandleStorage :=
  { s with slot := newSlot, slotSize := s.slotSize * 2 }

theorem and_double_eq_mod (hs : s.WellSized) (h : ℕ) :
    h &&& (s.slotSize * 2 - 1) = h % (s.slotSize * 2) := by
  obtain ⟨k, -, -, hsize⟩ := hs.size
  rw [hsize, ← Nat.pow_succ, Nat.and_two_pow_sub_one_eq_mod]

/-- Doubling a full table whose stored handles agree with the numbering gives
a correct table with the same contexts. -/
theorem Table.doubled
    (ht : Table issued s) (hfull : s.Full)
    (hroom : s.slotSize * 2 - 1 ≤ handleMask)
    (hagree : ∀ c, s.Holds c →
      handleOf c % (s.slotSize * 2) = issued c % (s.slotSize * 2)) :
    ∃ newSlot,
      rehash handleOf s s.slotSize 0 (fun _ => none) = .ok newSlot ∧
      Table issued (s.doubled newSlot) ∧
      ∀ c, (s.doubled newSlot).Holds c ↔ s.Holds c := by
  have hsized := ht.toWellSized
  have hand := and_double_eq_mod hsized
  have hkeep : ∀ {i c}, s.slot i = some c →
      (handleOf c &&& (s.slotSize * 2 - 1)) % s.slotSize = i := by
    intro i c hc
    rw [hand, hagree c ⟨i, hc⟩, Nat.mod_mul_right_mod]
    exact (ht.slots hc).2.1
  obtain ⟨newSlot, hok, hnew⟩ := rehash_ok hkeep s.slotSize 0
    (fun _ => none) (Nat.zero_add _) hfull (by simp)
  refine ⟨newSlot, hok, ⟨⟨?_, hsized.index⟩, ht.harbor, ?_⟩, ?_⟩
  · obtain ⟨k, hk, hk', hsize⟩ := hsized.size
    have hlt : k ≠ 24 := by
      rintro rfl
      rw [hsize] at hroom
      exact absurd hroom (by decide)
    exact ⟨k + 1, by omega, by omega, by
      rw [HandleStorage.doubled, hsize, Nat.pow_succ]⟩
  · intro j c hc
    obtain ⟨i, hi, hslot, rfl⟩ := (hnew j c).mp hc
    obtain ⟨-, -, hlow, hsplit⟩ := ht.slots hslot
    rw [hand, hagree c ⟨i, hslot⟩]
    have hfour := hsized.four_le
    exact ⟨Nat.mod_lt _ (by omega), rfl, hlow, hsplit⟩
  · intro c
    constructor
    · rintro ⟨j, hj⟩
      obtain ⟨i, -, hslot, -⟩ := (hnew j c).mp hj
      exact ⟨i, hslot⟩
    · rintro ⟨i, hslot⟩
      exact ⟨_, (hnew _ c).mpr ⟨i, (ht.slots hslot).1, hslot, rfl⟩⟩

/-- A table of `2 * n` slots that holds the contexts of a table of `n` slots
has a free slot that the probe meets. -/
theorem Table.probe_doubled
    (ht : Table issued s) {newSlot : ℕ → Option Ctx}
    (hd : Table issued (s.doubled newSlot))
    (hsame : ∀ c, (s.doubled newSlot).Holds c ↔ s.Holds c) :
    probe (s.doubled newSlot) (s.doubled newSlot).slotSize
      (s.doubled newSlot).handleIndex ≠ none := by
  intro hnone
  have hfour := ht.four_le
  have hsize : (s.doubled newSlot).slotSize = s.slotSize * 2 := rfl
  -- The contexts of slots `1` and `1 + slotSize` were both in slot `1`.
  have hslot : ∀ j, 0 < j → j < s.slotSize * 2 → ∃ c,
      issued c % (s.slotSize * 2) = j ∧ s.slot (j % s.slotSize) = some c := by
    intro j hpos hj
    obtain ⟨c, hc⟩ := Option.ne_none_iff_exists'.mp
      (hd.toWellSized.taken_of_probe_none hnone hpos hj)
    have hmod : issued c % (s.slotSize * 2) = j := (hd.slots hc).2.1
    obtain ⟨i, hi⟩ := (hsame c).mp ⟨j, hc⟩
    refine ⟨c, hmod, ?_⟩
    rw [← hmod, Nat.mod_mul_right_mod]
    exact ht.slot_eq hi
  obtain ⟨c, hc, hcs⟩ := hslot 1 (by omega) (by omega)
  obtain ⟨d, hd', hds⟩ := hslot (1 + s.slotSize) (by omega) (by omega)
  rw [Nat.add_mod_right, hcs] at hds
  cases hds
  omega

end Doubling

/-! ## Registration -/

section Register

variable {issued handleOf : Ctx → ℕ} {s : HandleStorage} {c : Ctx}

theorem handleRegister_of_probe
    (handleOf : Ctx → ℕ) (c : Ctx) {handle : ℕ} (h : probe s s.slotSize s.handleIndex = some handle) :
    handleRegister handleOf s c =
      .ok (s.occupy handle c, handle ||| s.harbor) := by
  rw [handleRegister, registerLoop, h]

theorem handleRegister_of_doubled
    {newSlot : ℕ → Option Ctx} {handle : ℕ}
    (hnone : probe s s.slotSize s.handleIndex = none)
    (hroom : s.slotSize * 2 - 1 ≤ handleMask)
    (hok : rehash handleOf s s.slotSize 0 (fun _ => none) = .ok newSlot)
    (h : probe (s.doubled newSlot) (s.doubled newSlot).slotSize
      (s.doubled newSlot).handleIndex = some handle) :
    handleRegister handleOf s c =
      .ok ((s.doubled newSlot).occupy handle c, handle ||| s.harbor) := by
  rw [handleRegister, registerLoop, hnone]
  simp only [hroom, if_true, hok]
  change registerLoop handleOf c 24 (s.doubled newSlot) = _
  rw [registerLoop, h]
  rfl

/-- The registration that passes over the free slot `0` follows a null
pointer. -/
theorem handleRegister_of_skips
    (handleOf : Ctx → ℕ) (c : Ctx) (hs : s.WellSized) (hskip : s.SkipsSlotZero)
    (hroom : s.slotSize * 2 - 1 ≤ handleMask) :
    handleRegister handleOf s c = .error .nullContext := by
  have hnone := hs.probe_none_of_skips hskip
  obtain ⟨n, hn⟩ : ∃ n, s.slotSize = n + 1 :=
    ⟨s.slotSize - 1, by have := hs.four_le; omega⟩
  have hrehash : rehash handleOf s s.slotSize 0 (fun _ => none) =
      .error .nullContext := by
    rw [hn, rehash, hskip.2.1]
  rw [handleRegister, registerLoop, hnone]
  simp only [hroom, if_true, hrehash]

/-- A registration whose probe passes over the only free slot fails, whether
or not the table can still grow. -/
theorem handleRegister_error_of_skips
    (hs : s.WellSized) (hskip : s.SkipsSlotZero) :
    handleRegister handleOf s c = .error .nullContext ∨
      handleRegister handleOf s c = .error .slotLimit := by
  by_cases hroom : s.slotSize * 2 - 1 ≤ handleMask
  · exact .inl (handleRegister_of_skips _ _ hs hskip hroom)
  · right
    rw [handleRegister, registerLoop, hs.probe_none_of_skips hskip]
    simp only [hroom, if_false]

/-- A registration under a correct table returns a new handle and a correct
table with one context more, unless the table cannot grow any further. -/
theorem handleRegister_spec
    (ht : Table issued s) (hskip : ¬ s.SkipsSlotZero)
    (hagree : probe s s.slotSize s.handleIndex = none →
      ∀ d, s.Holds d →
        handleOf d % (s.slotSize * 2) = issued d % (s.slotSize * 2))
    (hnew : ¬ s.Holds c) :
    handleRegister handleOf s c = .error .slotLimit ∨
    ∃ s' h, handleRegister handleOf s c = .ok (s', h) ∧
      Table (Function.update issued c h) s' ∧
      (∀ d, s'.Holds d ↔ d = c ∨ s.Holds d) ∧
      s'.harbor = s.harbor ∧ s'.name = s.name := by
  have hsized := ht.toWellSized
  have hindex := hsized.index.1
  cases hprobe : probe s s.slotSize s.handleIndex with
  | some handle =>
      obtain ⟨hpos, hle⟩ := probe_bounds hindex hprobe
      exact .inr ⟨_, _, handleRegister_of_probe _ _ hprobe,
        ht.occupy hpos hle hnew, holds_occupy (probe_free hprobe), rfl, rfl⟩
  | none =>
      have hfull := hsized.full_of_probe_none_iff.mpr hskip hprobe
      by_cases hroom : s.slotSize * 2 - 1 ≤ handleMask
      · obtain ⟨newSlot, hok, hd, hsame⟩ :=
          ht.doubled hfull hroom (hagree hprobe)
        obtain ⟨handle, h⟩ := Option.ne_none_iff_exists'.mp
          (ht.probe_doubled hd hsame)
        obtain ⟨hpos, hle⟩ := probe_bounds hindex h
        refine .inr ⟨_, _, handleRegister_of_doubled hprobe hroom hok h,
          hd.occupy hpos hle (by rwa [hsame]), ?_, rfl, rfl⟩
        intro d
        rw [holds_occupy (probe_free h), hsame]
      · left
        rw [handleRegister, registerLoop, hprobe]
        simp only [hroom, if_false]

end Register

/-! ## Lookup -/

section Lookup

variable {issued handleOf : Ctx → ℕ} {s : HandleStorage} {c : Ctx} {h : ℕ}

theorem handleFind_some
    (hfind : handleFind handleOf s h = some c) :
    s.slot (s.hash h) = some c ∧ handleOf c = h := by
  rw [handleFind] at hfind
  split at hfind
  · rename_i d hd
    split at hfind
    · rename_i heq
      cases hfind
      exact ⟨hd, heq⟩
    · cases hfind
  · cases hfind

/-- A context whose stored handle is the one it was given is found by it. -/
theorem Table.handleFind_eq
    (ht : Table issued s) (hc : s.Holds c) (hstored : handleOf c = issued c) :
    handleFind handleOf s (issued c) = some c := by
  rw [handleFind, ht.hash_issued hc]
  simp only [hstored, if_true]

/-- Retirements keep the table correct. -/
theorem Table.handleRetire
    (ht : Table issued s) (handleOf : Ctx → ℕ) (h : ℕ) :
    Table issued (handleRetire handleOf s h).1 := by
  rw [Handle.handleRetire]
  split
  · exact ht.erase _ _
  · exact ht

end Lookup

end SkynetServer.Handle
