import Mathlib.Data.Finset.Card
import SkynetServer.Handle.Table

/-!
# The slots a context occupies

Whatever the stored handles are, a context that is in the table is in one
slot, and a registration or retirement changes the set of the contexts in
the table by the one context it is about.  Unlike correctness of the table,
this does not depend on the handles being stored in time.
-/

namespace SkynetServer.Handle

/-- Every context is in at most one slot, and the slots are in the array. -/
structure OneSlot (s : HandleStorage) : Prop where
  pos : 0 < s.slotSize
  lt : ∀ {i c}, s.slot i = some c → i < s.slotSize
  inj : ∀ {i j c}, s.slot i = some c → s.slot j = some c → i = j

section Slots

variable {handleOf : Ctx → ℕ} {s s' : HandleStorage} {c d : Ctx} {h : ℕ}

theorem oneSlot_handleInit (harbor : ℕ) : OneSlot (handleInit harbor) :=
  ⟨Nat.succ_pos 3, nofun, nofun⟩

theorem Table.oneSlot {issued : Ctx → ℕ} (ht : Table issued s) : OneSlot s where
  pos := by
    have := ht.four_le
    omega
  lt := fun h => (ht.slots h).1
  inj := ht.slot_inj

theorem OneSlot.hash_lt (hs : OneSlot s) (h : ℕ) : s.hash h < s.slotSize :=
  lt_of_le_of_lt Nat.and_le_right (Nat.sub_lt hs.pos Nat.one_pos)

theorem OneSlot.occupy
    (hs : OneSlot s) (hnew : ¬ s.Holds c) (h : ℕ) :
    OneSlot (s.occupy h c) := by
  have hslot : ∀ {i d}, (s.occupy h c).slot i = some d →
      i = s.hash h ∧ d = c ∨ i ≠ s.hash h ∧ s.slot i = some d := by
    intro i d hi
    by_cases heq : i = s.hash h
    · subst heq
      simp only [HandleStorage.occupy, Function.update_self,
        Option.some.injEq] at hi
      exact .inl ⟨rfl, hi.symm⟩
    · simp only [HandleStorage.occupy, Function.update_of_ne heq] at hi
      exact .inr ⟨heq, hi⟩
  refine ⟨hs.pos, ?_, ?_⟩
  · intro i d hi
    rcases hslot hi with ⟨rfl, -⟩ | ⟨-, hi⟩
    · exact hs.hash_lt h
    · exact hs.lt hi
  · intro i j d hi hj
    rcases hslot hi with ⟨rfl, rfl⟩ | ⟨-, hi'⟩
    · rcases hslot hj with ⟨rfl, -⟩ | ⟨-, hj'⟩
      · rfl
      · exact absurd ⟨j, hj'⟩ hnew
    · rcases hslot hj with ⟨-, rfl⟩ | ⟨-, hj'⟩
      · exact absurd ⟨i, hi'⟩ hnew
      · exact hs.inj hi' hj'

/-- A rehash that returns has copied every context to the slot of its stored
handle. -/
theorem rehash_mem
    {n i : ℕ} {newSlot result : ℕ → Option Ctx}
    (hok : rehash handleOf s n i newSlot = .ok result)
    (hnew : ∀ j c, newSlot j = some c ↔
      ∃ i' < i, s.slot i' = some c ∧
        handleOf c &&& (s.slotSize * 2 - 1) = j) (j : ℕ) (c : Ctx) :
    result j = some c ↔
      ∃ i' < i + n, s.slot i' = some c ∧
        handleOf c &&& (s.slotSize * 2 - 1) = j := by
  induction n generalizing i newSlot with
  | zero =>
      cases hok
      exact hnew j c
  | succ n ih =>
      rw [rehash] at hok
      split at hok
      · cases hok
      · rename_i d hd
        simp only at hok
        split at hok
        · rename_i hfree
          rw [show i + (n + 1) = i + 1 + n by omega]
          refine ih hok ?_
          intro j' c'
          by_cases hj : j' = handleOf d &&& (s.slotSize * 2 - 1)
          · subst hj
            rw [Function.update_self]
            constructor
            · intro heq
              cases heq
              exact ⟨i, by omega, hd, rfl⟩
            · rintro ⟨i', hi', hslot, hhash⟩
              rcases Nat.lt_succ_iff_lt_or_eq.mp hi' with hlt | rfl
              · have hold := (hnew _ c').mpr ⟨i', hlt, hslot, hhash⟩
                rw [hfree] at hold
                cases hold
              · exact hd.symm.trans hslot
          · rw [Function.update_of_ne hj, hnew]
            constructor
            · rintro ⟨i', hi', hrest⟩
              exact ⟨i', by omega, hrest⟩
            · rintro ⟨i', hi', hslot, hhash⟩
              rcases Nat.lt_succ_iff_lt_or_eq.mp hi' with hlt | rfl
              · exact ⟨i', hlt, hslot, hhash⟩
              · rw [hd] at hslot
                cases hslot
                exact absurd hhash.symm hj
        · cases hok

theorem OneSlot.doubled
    (hs : OneSlot s) {newSlot : ℕ → Option Ctx}
    (hok : rehash handleOf s s.slotSize 0 (fun _ => none) = .ok newSlot) :
    OneSlot (s.doubled newSlot) ∧
      ∀ c, (s.doubled newSlot).Holds c ↔ s.Holds c := by
  have hmem := rehash_mem hok (by simp)
  rw [Nat.zero_add] at hmem
  refine ⟨⟨Nat.mul_pos hs.pos Nat.two_pos, ?_, ?_⟩, ?_⟩
  · intro j c hj
    obtain ⟨i, -, -, rfl⟩ := (hmem j c).mp hj
    have hpos := hs.pos
    exact lt_of_le_of_lt Nat.and_le_right
      (show s.slotSize * 2 - 1 < s.slotSize * 2 by omega)
  · intro j j' c hj hj'
    obtain ⟨-, -, -, rfl⟩ := (hmem j c).mp hj
    obtain ⟨-, -, -, rfl⟩ := (hmem j' c).mp hj'
    rfl
  · intro c
    constructor
    · rintro ⟨j, hj⟩
      obtain ⟨i, -, hi, -⟩ := (hmem j c).mp hj
      exact ⟨i, hi⟩
    · rintro ⟨i, hi⟩
      exact ⟨_, (hmem _ c).mpr ⟨i, hs.lt hi, hi, rfl⟩⟩

/-- A registration that returns adds its context to the table. -/
theorem registerLoop_holds
    {n : ℕ} (hs : OneSlot s) (hnew : ¬ s.Holds c)
    (hok : registerLoop handleOf c n s = .ok (s', h)) :
    OneSlot s' ∧ ∀ d, s'.Holds d ↔ d = c ∨ s.Holds d := by
  induction n generalizing s with
  | zero => cases hok
  | succ n ih =>
      rw [registerLoop] at hok
      split at hok
      · rename_i handle hprobe
        cases hok
        exact ⟨hs.occupy hnew handle, holds_occupy (probe_free hprobe)⟩
      · split at hok
        · split at hok
          · rename_i newSlot hrehash
            obtain ⟨hd, hsame⟩ := hs.doubled hrehash
            obtain ⟨hone, hholds⟩ := ih hd (by rwa [hsame]) hok
            refine ⟨hone, fun d => ?_⟩
            rw [hholds, hsame]
          · cases hok
        · cases hok

theorem handleRegister_holds
    (hs : OneSlot s) (hnew : ¬ s.Holds c)
    (hok : handleRegister handleOf s c = .ok (s', h)) :
    OneSlot s' ∧ ∀ d, s'.Holds d ↔ d = c ∨ s.Holds d :=
  registerLoop_holds hs hnew hok

theorem handleRetire_handle
    (hretire : handleRetire handleOf s h = (s', some c)) :
    handleOf c = h := by
  rw [handleRetire] at hretire
  split at hretire
  · rename_i c' hfind
    cases hretire
    exact (handleFind_some hfind).2
  · cases hretire

theorem handleRetire_none (hretire : handleRetire handleOf s h = (s', none)) :
    s' = s ∧ handleFind handleOf s h = none := by
  rw [handleRetire] at hretire
  split at hretire
  · cases hretire
  · rename_i hfind
    cases hretire
    exact ⟨rfl, hfind⟩

/-- A retirement that finds a context removes it from the table. -/
theorem handleRetire_holds
    (hs : OneSlot s) (hretire : handleRetire handleOf s h = (s', some c)) :
    OneSlot s' ∧ s.Holds c ∧ ∀ d, s'.Holds d ↔ d ≠ c ∧ s.Holds d := by
  rw [handleRetire] at hretire
  split at hretire
  · rename_i c' hfind
    obtain ⟨hslot, -⟩ := handleFind_some hfind
    cases hretire
    refine ⟨⟨hs.pos, ?_, ?_⟩, ⟨_, hslot⟩, ?_⟩
    · intro i d hi
      by_cases heq : i = s.hash h
      · subst heq
        simp at hi
      · simp only [Function.update_of_ne heq] at hi
        exact hs.lt hi
    · intro i j d hi hj
      by_cases heq : i = s.hash h
      · subst heq
        simp at hi
      · by_cases heq' : j = s.hash h
        · subst heq'
          simp at hj
        · simp only [Function.update_of_ne heq] at hi
          simp only [Function.update_of_ne heq'] at hj
          exact hs.inj hi hj
    · intro d
      rw [holds_erase]
      constructor
      · rintro ⟨i, hi, hd⟩
        refine ⟨?_, i, hd⟩
        rintro rfl
        exact hi (hs.inj hd hslot)
      · rintro ⟨hne, i, hd⟩
        refine ⟨i, ?_, hd⟩
        rintro rfl
        rw [hslot] at hd
        cases hd
        exact hne rfl
  · cases hretire

end Slots

/-- The number of slots that hold the context. -/
def HandleStorage.slotCount (s : HandleStorage) (c : Ctx) : ℕ :=
  ((Finset.range s.slotSize).filter fun i => s.slot i = some c).card

theorem OneSlot.slotCount_of_holds
    {s : HandleStorage} {c : Ctx} (hs : OneSlot s) (h : s.Holds c) :
    s.slotCount c = 1 := by
  obtain ⟨i, hi⟩ := h
  rw [HandleStorage.slotCount, Finset.card_eq_one]
  refine ⟨i, ?_⟩
  ext j
  simp only [Finset.mem_filter, Finset.mem_range, Finset.mem_singleton]
  constructor
  · rintro ⟨-, hj⟩
    exact hs.inj hj hi
  · rintro rfl
    exact ⟨hs.lt hi, hi⟩

theorem slotCount_of_not_holds
    {s : HandleStorage} {c : Ctx} (h : ¬ s.Holds c) : s.slotCount c = 0 := by
  rw [HandleStorage.slotCount, Finset.card_eq_zero, Finset.filter_eq_empty_iff]
  intro i _ hi
  exact h ⟨i, hi⟩

end SkynetServer.Handle
