import SkynetServer.Handle.Slots
import SkynetServer.Support.Transition

/-!
# Sequences of registrations, retirements and lookups

The storage is driven by an arbitrary sequence of calls, where the returned
handle is stored in the context before the next call.  Beside the storage
runs its specification, the list of the handles in use with their contexts;
it is updated from the calls and the returned handles only.

A registration whose probe passes over slot `0` while this is the only free
slot doubles a table that is not full.  All other registrations are correct.
-/

namespace SkynetServer.Handle

open Transition

/-- The storage, the handles stored in the contexts, and the handles in
use. -/
structure Registry where
  storage : HandleStorage
  handleOf : Ctx → ℕ
  live : List (ℕ × Ctx)

/-- The calls made by the rest of the program. -/
inductive Call where
  | register (ctx : Ctx)
  | retire (handle : ℕ)
  | grab (handle : ℕ)
  deriving DecidableEq, Repr

namespace Registry

/-- The registry before the first service. -/
def init (harbor : ℕ) : Registry where
  storage := handleInit harbor
  handleOf := fun _ => 0
  live := []

/-- One call.  A context is registered only while it is not live. -/
def step (r : Registry) : Call → Outcome Fault Registry
  | .register ctx =>
    if ∃ p ∈ r.live, p.2 = ctx then .blocked
    else
      match handleRegister r.handleOf r.storage ctx with
      | .error f => .fault f
      | .ok (storage, handle) => .next
        { storage
          handleOf := Function.update r.handleOf ctx handle
          live := (handle, ctx) :: r.live }
  | .retire handle => .next
    { r with
      storage := (handleRetire r.handleOf r.storage handle).1
      live := r.live.filter fun p => p.1 ≠ handle }
  | .grab _ => .next r

/-- The call is not a registration whose probe passes over slot `0` while
this is the only free slot. -/
def MeetsEveryFreeSlot (r : Registry) : Call → Prop
  | .register _ => ¬ r.storage.SkipsSlotZero
  | _ => True

/-! ## The invariant -/

/-- The table is correct for the stored handles and holds exactly the live
contexts. -/
structure Inv (r : Registry) : Prop where
  table : Table r.handleOf r.storage
  holds : ∀ c, r.storage.Holds c ↔ (r.handleOf c, c) ∈ r.live
  live : ∀ h c, (h, c) ∈ r.live → r.handleOf c = h
  nodup : (r.live.map Prod.fst).Nodup

variable {r r' : Registry}

theorem init_inv (harbor : ℕ) : Inv (init harbor) where
  table := table_handleInit harbor _
  holds := by
    intro c
    constructor
    · rintro ⟨i, hi⟩
      cases hi
    · intro h
      cases h
  live := by
    intro h c hmem
    cases hmem
  nodup := List.nodup_nil

/-- A registration under the condition fails only at the size limit. -/
theorem Inv.register_cases
    (hinv : Inv r) (hskip : ¬ r.storage.SkipsSlotZero) {ctx : Ctx}
    (hnew : ¬ ∃ p ∈ r.live, p.2 = ctx) :
    handleRegister r.handleOf r.storage ctx = .error .slotLimit ∨
    ∃ s' h, handleRegister r.handleOf r.storage ctx = .ok (s', h) ∧
      Table (Function.update r.handleOf ctx h) s' ∧
      (∀ d, s'.Holds d ↔ d = ctx ∨ r.storage.Holds d) := by
  have hfree : ¬ r.storage.Holds ctx := by
    intro h
    exact hnew ⟨_, (hinv.holds ctx).mp h, rfl⟩
  rcases handleRegister_spec hinv.table hskip (fun _ _ _ => rfl) hfree with
    hlimit | ⟨s', h, hok, ht, hholds, -⟩
  · exact .inl hlimit
  · exact .inr ⟨s', h, hok, ht, hholds⟩

theorem Inv.register
    (hinv : Inv r) {ctx : Ctx} {s' : HandleStorage} {h : ℕ}
    (hnew : ¬ ∃ p ∈ r.live, p.2 = ctx)
    (ht : Table (Function.update r.handleOf ctx h) s')
    (hholds : ∀ d, s'.Holds d ↔ d = ctx ∨ r.storage.Holds d) :
    Inv ⟨s', Function.update r.handleOf ctx h, (h, ctx) :: r.live⟩ := by
  have hne : ∀ {g d}, (g, d) ∈ r.live → d ≠ ctx := by
    rintro g d hmem rfl
    exact hnew ⟨_, hmem, rfl⟩
  have hheld : ∀ {g d}, (g, d) ∈ r.live → s'.Holds d := by
    intro g d hmem
    have hg := hinv.live g d hmem
    exact (hholds d).mpr (.inr ((hinv.holds d).mpr (hg ▸ hmem)))
  refine ⟨ht, ?_, ?_, ?_⟩
  · intro d
    by_cases hd : d = ctx
    · subst hd
      simp [hholds]
    · simp [hholds, hinv.holds, hd]
  · intro g d hmem
    rcases List.mem_cons.mp hmem with heq | hmem
    · cases heq
      exact Function.update_self ..
    · dsimp only
      rw [Function.update_of_ne (hne hmem)]
      exact hinv.live g d hmem
  · refine List.nodup_cons.mpr ⟨?_, hinv.nodup⟩
    intro hfst
    obtain ⟨⟨g, d⟩, hmem, rfl⟩ := List.mem_map.mp hfst
    have heq : d = ctx := by
      apply ht.issued_inj (hheld hmem) ((hholds ctx).mpr (.inl rfl))
      rw [Function.update_self, Function.update_of_ne (hne hmem)]
      exact hinv.live g d hmem
    exact hne hmem heq

theorem Inv.grab_iff (hinv : Inv r) (h : ℕ) (c : Ctx) :
    handleGrab r.handleOf r.storage h = some c ↔ (h, c) ∈ r.live := by
  constructor
  · intro hfind
    obtain ⟨hslot, rfl⟩ := handleFind_some hfind
    exact (hinv.holds c).mp ⟨_, hslot⟩
  · intro hmem
    have hh := hinv.live h c hmem
    subst hh
    exact hinv.table.handleFind_eq ((hinv.holds c).mpr hmem) rfl

theorem Inv.retire (hinv : Inv r) (h : ℕ) :
    Inv { r with
      storage := (handleRetire r.handleOf r.storage h).1
      live := r.live.filter fun p => p.1 ≠ h } := by
  have hsub : (r.live.filter fun p => p.1 ≠ h).Sublist r.live :=
    List.filter_sublist
  refine ⟨hinv.table.handleRetire _ _, ?_,
    fun g d hmem => hinv.live g d (hsub.subset hmem),
    hinv.nodup.sublist (hsub.map _)⟩
  intro c
  simp only [List.mem_filter, ne_eq, decide_eq_true_eq]
  rw [← hinv.holds c]
  cases hretire : handleRetire r.handleOf r.storage h with
  | mk s' found =>
      cases found with
      | some d =>
          obtain ⟨-, hd, hholds⟩ :=
            handleRetire_holds hinv.table.oneSlot hretire
          have hdh : r.handleOf d = h := handleRetire_handle hretire
          rw [hholds, and_comm]
          refine and_congr_right fun hc => not_congr ⟨?_, ?_⟩
          · rintro rfl
            exact hdh
          · intro heq
            exact hinv.table.issued_inj hc hd (heq.trans hdh.symm)
      | none =>
          obtain ⟨rfl, hfind⟩ := handleRetire_none hretire
          refine ⟨fun hc => ⟨hc, ?_⟩, And.left⟩
          rintro rfl
          have hfound := hinv.table.handleFind_eq hc rfl
          rw [hfind] at hfound
          cases hfound

theorem step_inv
    {l : Call} (hinv : Inv r) (hok : r.MeetsEveryFreeSlot l)
    (hs : step r l = .next r') : Inv r' := by
  cases l with
  | register ctx =>
      rw [step] at hs
      split at hs
      · cases hs
      · rename_i hnew
        rcases hinv.register_cases hok hnew with hlimit | ⟨s', h, heq, ht, hh⟩
        · rw [hlimit] at hs
          cases hs
        · rw [heq] at hs
          cases hs
          exact hinv.register hnew ht hh
  | retire handle =>
      cases hs
      exact hinv.retire handle
  | grab handle =>
      cases hs
      exact hinv

/-! ## Whole sequences of calls -/

theorem step_register_safe
    (hinv : Inv r) (hskip : ¬ r.storage.SkipsSlotZero) (ctx : Ctx) :
    step r (.register ctx) ≠ .fault .nullContext ∧
      step r (.register ctx) ≠ .fault .newSlotOccupied := by
  rw [step]
  split
  · exact ⟨nofun, nofun⟩
  · rename_i hnew
    rcases hinv.register_cases hskip hnew with hlimit | ⟨s', h, heq, -⟩
    · rw [hlimit]
      exact ⟨nofun, nofun⟩
    · rw [heq]
      exact ⟨nofun, nofun⟩

/-- What a sequence of calls may rely on: the handles in use are distinct
and not reserved, and a lookup returns exactly the context registered under
its handle. -/
structure Correct (r : Registry) : Prop where
  distinct : (r.live.map Prod.fst).Nodup
  nonzero : ∀ h c, (h, c) ∈ r.live → h % 2 ^ 24 ≠ 0
  grab : ∀ h c, handleGrab r.handleOf r.storage h = some c ↔ (h, c) ∈ r.live

/-- A registration that finds no free slot starts from a full table, and
neither follows a null slot nor meets an occupied new slot. -/
structure RehashSafe (r : Registry) : Prop where
  full : probe r.storage r.storage.slotSize r.storage.handleIndex = none →
    r.storage.Full
  rehash : ∀ ctx, step r (.register ctx) ≠ .fault .nullContext ∧
    step r (.register ctx) ≠ .fault .newSlotOccupied

theorem Inv.correct (hinv : Inv r) : Correct r where
  distinct := hinv.nodup
  nonzero := by
    intro h c hmem
    obtain rfl := hinv.live h c hmem
    obtain ⟨i, hi⟩ := (hinv.holds c).mpr hmem
    exact Nat.one_le_iff_ne_zero.mp (hinv.table.slots hi).2.2.1
  grab := hinv.grab_iff

/-- In every sequence of calls whose registrations do not pass over the only
free slot, the storage is correct after every call, and the next
registration is safe exactly when it does not pass over the only free slot
either. -/
theorem registry_correct_unless_slot_zero_skipped
    (harbor : ℕ) (hr : Reaches step MeetsEveryFreeSlot (init harbor) r) :
    Correct r ∧ (RehashSafe r ↔ ¬ r.storage.SkipsSlotZero) := by
  have hinv : Inv r := hr.invariant Inv (init_inv harbor)
    fun _ _ _ hinv hok hs => step_inv hinv hok hs
  have hfull := hinv.table.toWellSized.full_of_probe_none_iff
  refine ⟨hinv.correct, fun hsafe => hfull.mp hsafe.full, fun hskip => ?_⟩
  exact ⟨hfull.mpr hskip, step_register_safe hinv hskip⟩

/-- The theorem above after one registration. -/
theorem registry_correct_after_first_service :
    ∃ r, step (init 0) (.register 1) = .next r ∧ r.live = [(1, 1)] ∧
      Correct r ∧ (RehashSafe r ↔ ¬ r.storage.SkipsSlotZero) := by
  refine ⟨_, rfl, rfl, registry_correct_unless_slot_zero_skipped 0
    (.tail (.register 1) .refl ?_ rfl)⟩
  rintro ⟨hjump, -⟩
  exact absurd hjump (show ¬ handleMask + 1 < wrapHandle 1 + 4 by decide)

/-! ## A sequence that passes over slot `0`

Three services stay in slots `1` to `3` of the initial table, and a fourth is
launched and killed again until the handles are used up. -/

/-- The three services that stay, with the last handle given to the
fourth. -/
def threeServices (index last : ℕ) : Registry where
  storage :=
    { harbor := 0, handleIndex := index, slotSize := 4, name := []
      slot := Function.update (Function.update (Function.update
        (fun _ => none) 1 (some 1)) 2 (some 2)) 3 (some 3) }
  handleOf := Function.update (Function.update (Function.update
    (Function.update (fun _ => 0) 1 1) 2 2) 3 3) 4 last
  live := [(3, 3), (2, 2), (1, 1)]

/-- Launch and kill of the fourth service, `n` times after the `k`-th. -/
def churn : ℕ → ℕ → List Call
  | _, 0 => []
  | k, n + 1 => .register 4 :: .retire (4 * (k + 1)) :: churn (k + 1) n

section Churn

theorem hash_threeServices (index last h : ℕ) :
    (threeServices index last).storage.hash h = h % 4 :=
  Nat.and_two_pow_sub_one_eq_mod h 2

theorem probe_threeServices
    {k : ℕ} (last : ℕ) (hk : 4 * (k + 1) ≤ handleMask) :
    probe (threeServices (4 * k + 1) last).storage 4 (4 * k + 1) =
      some (4 * (k + 1)) := by
  have hmod1 : (4 * k + 1) % 4 = 1 := by omega
  have hmod2 : (4 * k + 1 + 1) % 4 = 2 := by omega
  have hmod3 : (4 * k + 1 + 1 + 1) % 4 = 3 := by omega
  have hmod4 : (4 * k + 1 + 1 + 1 + 1) % 4 = 0 := by omega
  have hfree : (threeServices (4 * k + 1) last).storage.slot 0 = none := rfl
  have hwrap : ∀ h, h ≤ handleMask → wrapHandle h = h :=
    fun h hle => if_neg (not_lt.mpr hle)
  rw [probe_succ, hwrap _ (by omega), hash_threeServices, hmod1,
    if_neg nofun, probe_succ, hwrap _ (by omega), hash_threeServices, hmod2,
    if_neg nofun, probe_succ, hwrap _ (by omega), hash_threeServices, hmod3,
    if_neg nofun, probe_succ, hwrap _ (by omega), hash_threeServices, hmod4,
    if_pos hfree]
  rfl

/-- The fourth service in slot `0`, under the next multiple of four. -/
def fourServices (k last : ℕ) : Registry where
  storage := (threeServices (4 * k + 1) last).storage.occupy (4 * (k + 1)) 4
  handleOf := (threeServices 0 (4 * (k + 1))).handleOf
  live := (4 * (k + 1), 4) :: (threeServices 0 0).live

theorem step_launch
    {k : ℕ} (last : ℕ) (hk : 4 * (k + 1) ≤ handleMask) :
    step (threeServices (4 * k + 1) last) (.register 4) =
      .next (fourServices k last) := by
  have hreg := handleRegister_of_probe
    (threeServices (4 * k + 1) last).handleOf 4 (probe_threeServices last hk)
  have hharbor : 4 * (k + 1) |||
      (threeServices (4 * k + 1) last).storage.harbor = 4 * (k + 1) :=
    Nat.or_zero _
  have hidem : Function.update (threeServices (4 * k + 1) last).handleOf 4
      (4 * (k + 1)) = (threeServices 0 (4 * (k + 1))).handleOf :=
    Function.update_idem ..
  rw [step, if_neg (by simp [threeServices]), hreg]
  simp only [hharbor, hidem]
  rfl

theorem step_kill (k last : ℕ) :
    step (fourServices k last) (.retire (4 * (k + 1))) =
      .next (threeServices (4 * (k + 1) + 1) (4 * (k + 1))) := by
  have hhash : (fourServices k last).storage.hash (4 * (k + 1)) = 0 :=
    (hash_threeServices 0 last _).trans (by omega)
  have hslot : (fourServices k last).storage.slot 0 = some 4 := by
    rw [← hhash]
    exact Function.update_self ..
  have hstored : (fourServices k last).handleOf 4 = 4 * (k + 1) := by
    simp [fourServices, threeServices]
  have hslots : Function.update (fourServices k last).storage.slot 0 none =
      (threeServices 0 0).storage.slot := by
    rw [← hhash]
    exact (Function.update_idem ..).trans
      (Function.update_eq_self_iff.mpr (hhash ▸ rfl))
  have hlive : (fourServices k last).live.filter
      (fun p => p.1 ≠ 4 * (k + 1)) = (threeServices 0 0).live := by
    have h1 : 1 ≠ 4 * (k + 1) := by omega
    have h2 : 2 ≠ 4 * (k + 1) := by omega
    have h3 : 3 ≠ 4 * (k + 1) := by omega
    simp [fourServices, threeServices, h1, h2, h3]
  simp only [step, handleRetire, handleFind, hhash, hslot, hstored, if_true,
    hslots, hlive]
  rfl

/-- The first `n` further launches and kills take four handles each. -/
theorem exec_churn
    (n k last : ℕ) (hk : 4 * (k + n) ≤ handleMask) :
    ∃ last', exec step (threeServices (4 * k + 1) last) (churn k n) =
      .next (threeServices (4 * (k + n) + 1) last') := by
  induction n generalizing k last with
  | zero => exact ⟨last, rfl⟩
  | succ n ih =>
      obtain ⟨last', h⟩ := ih (k + 1) (4 * (k + 1)) (by omega)
      refine ⟨last', ?_⟩
      rw [churn, exec, step_launch last (by omega)]
      simp only
      rw [exec, step_kill]
      simp only
      rw [h, show k + 1 + n = k + (n + 1) by omega]

end Churn

/-- Three services, then a fourth that is launched and killed `2 ^ 22 - 1`
times, then one launch more. -/
def wrapAround : List Call :=
  [.register 1, .register 2, .register 3, .register 4] ++
    ([.retire 4] ++ (churn 1 (2 ^ 22 - 2) ++ [.register 4]))

theorem skips_threeServices (last : ℕ) :
    (threeServices 0xfffffd last).storage.SkipsSlotZero := by
  refine ⟨?_, rfl, ?_⟩
  · change handleMask + 1 < wrapHandle 0xfffffd + 4
    decide
  · intro i hpos hi
    obtain rfl | rfl | rfl : i = 1 ∨ i = 2 ∨ i = 3 := by
      have : i < 4 := hi
      omega
    all_goals nofun

/-- The last launch probes `0xfffffd`, `0xfffffe`, `0xffffff` and `1`, finds
no free slot although slot `0` is free, and follows its null pointer. -/
theorem wrapAround_follows_null :
    exec step (init 0) wrapAround = .fault .nullContext := by
  have hfour : exec step (init 0)
      [.register 1, .register 2, .register 3, .register 4] =
        .next (fourServices 0 0) := rfl
  have hkill : exec step (fourServices 0 0) [.retire 4] =
      .next (threeServices (4 * 1 + 1) 4) := by
    rw [exec, show step (fourServices 0 0) (.retire 4) =
      .next (threeServices (4 * 1 + 1) 4) from step_kill 0 0]
    rfl
  obtain ⟨last, hchurn⟩ := exec_churn (2 ^ 22 - 2) 1 4 (by decide)
  have hsized : (threeServices 0xfffffd last).storage.WellSized :=
    ⟨⟨2, by decide, by decide, rfl⟩,
      show 1 ≤ 0xfffffd ∧ 0xfffffd ≤ handleMask + 1 by decide⟩
  rw [wrapAround, exec_append hfour, exec_append hkill,
    exec_append hchurn]
  have hnull := handleRegister_of_skips
    (threeServices 0xfffffd last).handleOf 4 hsized (skips_threeServices last)
    (show 4 * 2 - 1 ≤ handleMask by decide)
  have hindex : 4 * (1 + (2 ^ 22 - 2)) + 1 = 0xfffffd := by decide
  rw [hindex, exec, step, if_neg (by simp [threeServices]), hnull]

end Registry

end SkynetServer.Handle
