import Mathlib.Data.Fintype.Basic
import Mathlib.Tactic.FinCases
import SkynetServer.Handle.Slots
import SkynetServer.Service.Ledger

/-!
# Storing the handle of a new context

`skynet_context_new` publishes the context in a slot and stores the returned
handle in it afterwards.  In between, a registration that doubles the table
reads the handle `0` from the context and moves it to slot `0` of the new
table.  That is its right slot only if its handle is a multiple of the new
size.  In runs in which this does not happen, a context is found under its
handle from the store to its retirement.
-/

namespace SkynetServer.Service

open Handle (Ctx HandleStorage Table)
open Transition

namespace State

variable {τ : Type*}

/-- The table is correct for the handles that registrations returned, and a
context in the table has its handle or is about to be given it. -/
structure Numbered (s : State τ) : Prop where
  table : Table s.issued s.storage
  held : ∀ c, s.storage.Holds c ↔ c < s.contexts ∧ s.retired c = false
  fresh : ∀ c, s.contexts ≤ c → s.retired c = false
  stored : ∀ c < s.contexts, s.handle c = s.issued c ∨
    s.handle c = 0 ∧ ∃ t, (s.pc t).unnumbered = some (c, s.issued c)
  pending : ∀ t c h, (s.pc t).unnumbered = some (c, h) →
    c < s.contexts ∧ h = s.issued c

/-- A registration that finds no free slot does not meet a context without
stored handle, except one whose handle is a multiple of the new size. -/
def NumberedInTime (s : State τ) : τ × Act → Prop
  | (_, .new) =>
    Handle.probe s.storage s.storage.slotSize s.storage.handleIndex = none →
      ∀ t c h, (s.pc t).unnumbered = some (c, h) → s.storage.Holds c →
        s.storage.slotSize * 2 ∣ h
  | _ => True

variable {s s₁ s' : State τ} {t : τ} {p : Pc}

theorem numbered_start (harbor : ℕ) : Numbered (start harbor : State τ) where
  table := Handle.table_handleInit harbor _
  held := by
    intro c
    constructor
    · rintro ⟨i, hi⟩
      cases hi
    · rintro ⟨hlt, -⟩
      exact absurd hlt (Nat.not_lt_zero c)
  fresh := fun _ _ => rfl
  stored := fun c hc => absurd hc (Nat.not_lt_zero c)
  pending := nofun

/-- A context in the table with a stored handle is found by it. -/
theorem Numbered.grab_eq
    (hs : Numbered s) {c : Ctx} (hc : c < s.contexts)
    (hlive : s.retired c = false)
    (hdone : ∀ t, (s.pc t).unnumbered ≠ some (c, s.issued c)) :
    Handle.handleGrab s.handle s.storage (s.handle c) = some c := by
  rcases hs.stored c hc with hstored | ⟨-, t, ht⟩
  · rw [hstored]
    exact hs.table.handleFind_eq ((hs.held c).mpr ⟨hc, hlive⟩) hstored
  · exact absurd ht (hdone t)

/-- The stored handles agree with the returned ones as far as a doubling of
the table looks. -/
theorem Numbered.agree
    (hs : Numbered s) (hok : s.NumberedInTime (t, .new))
    (hnone : Handle.probe s.storage s.storage.slotSize s.storage.handleIndex =
      none) {c : Ctx} (hc : s.storage.Holds c) :
    s.handle c % (s.storage.slotSize * 2) =
      s.issued c % (s.storage.slotSize * 2) := by
  rcases hs.stored c ((hs.held c).mp hc).1 with hstored | ⟨hzero, t', ht'⟩
  · rw [hstored]
  · rw [hzero, Nat.zero_mod, Nat.mod_eq_zero_of_dvd]
    exact hok hnone t' c _ ht' hc

theorem Numbered.not_held (hs : Numbered s) :
    ¬ s.storage.Holds s.contexts := by
  rw [hs.held]
  exact fun h => lt_irrefl _ h.1

/-- The assertion of the rehash loop does not fail. -/
theorem Numbered.register_cases
    (hs : Numbered s) (hok : s.NumberedInTime (t, .new)) :
    Handle.handleRegister s.handle s.storage s.contexts =
        .error .nullContext ∨
    Handle.handleRegister s.handle s.storage s.contexts =
        .error .slotLimit ∨
    ∃ storage h, Handle.handleRegister s.handle s.storage s.contexts =
        .ok (storage, h) ∧
      Table (Function.update s.issued s.contexts h) storage ∧
      ∀ d, storage.Holds d ↔ d = s.contexts ∨ s.storage.Holds d := by
  by_cases hskip : s.storage.SkipsSlotZero
  · rcases Handle.handleRegister_error_of_skips hs.table.toWellSized hskip with
      hnull | hlimit
    · exact .inl hnull
    · exact .inr (.inl hlimit)
  · rcases Handle.handleRegister_spec hs.table hskip
        (fun hnone _ hd => hs.agree hok hnone hd) hs.not_held with
      hlimit | ⟨storage, h, heq, ht, hholds, -⟩
    · exact .inr (.inl hlimit)
    · exact .inr (.inr ⟨storage, h, heq, ht, hholds⟩)

section Moves

variable [DecidableEq τ]

/-- A step that concerns neither the table nor the handles. -/
theorem Numbered.goto
    (hs : Numbered s) (hpc : s₁.pc = s.pc) (hstorage : s₁.storage = s.storage)
    (hhandle : s₁.handle = s.handle) (hissued : s₁.issued = s.issued)
    (hcontexts : s₁.contexts = s.contexts) (hretired : s₁.retired = s.retired)
    (hsame : p.unnumbered = (s.pc t).unnumbered) :
    Numbered (s₁.goto t p) := by
  have hunnumbered : ∀ t', ((s₁.goto t p).pc t').unnumbered =
      (s.pc t').unnumbered := by
    intro t'
    simp only [State.goto, hpc]
    by_cases ht : t' = t
    · subst ht
      rwa [Function.update_self]
    · rw [Function.update_of_ne ht]
  refine ⟨?_, ?_, ?_, ?_, ?_⟩
  · change Table s₁.issued s₁.storage
    rw [hissued, hstorage]
    exact hs.table
  · change ∀ c, s₁.storage.Holds c ↔ c < s₁.contexts ∧ s₁.retired c = false
    rw [hstorage, hcontexts, hretired]
    exact hs.held
  · change ∀ c, s₁.contexts ≤ c → s₁.retired c = false
    rw [hcontexts, hretired]
    exact hs.fresh
  · simp only [hunnumbered]
    change ∀ c < s₁.contexts, s₁.handle c = s₁.issued c ∨
      s₁.handle c = 0 ∧ ∃ t, (s.pc t).unnumbered = some (c, s₁.issued c)
    rw [hcontexts, hhandle, hissued]
    exact hs.stored
  · simp only [hunnumbered]
    change ∀ t c h, (s.pc t).unnumbered = some (c, h) →
      c < s₁.contexts ∧ h = s₁.issued c
    rw [hcontexts, hissued]
    exact hs.pending

theorem Numbered.register
    (hs : Numbered s) (hok : s.NumberedInTime (t, .new))
    (hpc : s.pc t = .idle) {storage : HandleStorage} {h : ℕ}
    (hreg : Handle.handleRegister s.handle s.storage s.contexts =
      .ok (storage, h)) {ref : Ctx → ℤ} {init endless cb : Ctx → Bool} :
    Numbered (State.goto
      { s with
        storage, ref, init, endless, cb
        contexts := s.contexts + 1
        handle := Function.update s.handle s.contexts 0
        issued := Function.update s.issued s.contexts h }
      t (.newHandle s.contexts h)) := by
  obtain ⟨ht, hholds⟩ : Table (Function.update s.issued s.contexts h) storage ∧
      ∀ d, storage.Holds d ↔ d = s.contexts ∨ s.storage.Holds d := by
    rcases hs.register_cases hok with herr | herr | ⟨storage', h', heq, hrest⟩
    · rw [herr] at hreg
      cases hreg
    · rw [herr] at hreg
      cases hreg
    · rw [heq] at hreg
      cases hreg
      exact hrest
  have hidle : ∀ {t' c h'}, (s.pc t').unnumbered = some (c, h') → t' ≠ t := by
    rintro t' c h' ht' rfl
    rw [hpc] at ht'
    cases ht'
  refine ⟨ht, ?_, ?_, ?_, ?_⟩
  · intro c
    change storage.Holds c ↔ c < s.contexts + 1 ∧ s.retired c = false
    rw [hholds, hs.held, Nat.lt_succ_iff_lt_or_eq]
    by_cases hc : c = s.contexts
    · subst hc
      simp [hs.fresh]
    · simp [hc]
  · intro c hc
    exact hs.fresh c (Nat.le_of_succ_le hc)
  · intro c hc
    by_cases hcn : c = s.contexts
    · subst hcn
      refine .inr ⟨Function.update_self .., t, ?_⟩
      simp [State.goto, Pc.unnumbered]
    · have hlt : c < s.contexts := Nat.lt_of_le_of_ne (Nat.le_of_lt_succ hc) hcn
      simp only [State.goto, Function.update_of_ne hcn]
      rcases hs.stored c hlt with heq | ⟨hzero, t', ht'⟩
      · exact .inl heq
      · refine .inr ⟨hzero, t', ?_⟩
        rw [Function.update_of_ne (hidle ht')]
        exact ht'
  · intro t' c h' ht'
    simp only [State.goto] at ht' ⊢
    by_cases htt : t' = t
    · subst htt
      rw [Function.update_self] at ht'
      cases ht'
      exact ⟨Nat.lt_succ_self _, by rw [Function.update_self]⟩
    · rw [Function.update_of_ne htt] at ht'
      obtain ⟨hlt, rfl⟩ := hs.pending t' c h' ht'
      have hne : c ≠ s.contexts := Nat.ne_of_lt hlt
      exact ⟨Nat.lt_succ_of_lt hlt, (Function.update_of_ne hne _ _).symm⟩

theorem Numbered.store
    (hs : Numbered s) {c : Ctx} {h : ℕ} (hpc : s.pc t = .newHandle c h) :
    Numbered (State.goto
      { s with handle := Function.update s.handle c h } t (.newQueue c)) := by
  have hh : h = s.issued c := (hs.pending t c h (by rw [hpc]; rfl)).2
  refine ⟨hs.table, hs.held, hs.fresh, ?_, ?_⟩
  · intro d hd
    simp only [State.goto]
    by_cases hdc : d = c
    · subst hdc
      exact .inl ((Function.update_self ..).trans hh)
    · rw [Function.update_of_ne hdc]
      rcases hs.stored d hd with heq | ⟨hzero, t', ht'⟩
      · exact .inl heq
      · refine .inr ⟨hzero, t', ?_⟩
        have hne : t' ≠ t := by
          rintro rfl
          rw [hpc] at ht'
          cases ht'
          exact hdc rfl
        rw [Function.update_of_ne hne]
        exact ht'
  · intro t' d h' ht'
    simp only [State.goto] at ht'
    by_cases htt : t' = t
    · subst htt
      rw [Function.update_self] at ht'
      cases ht'
    · rw [Function.update_of_ne htt] at ht'
      exact hs.pending t' d h' ht'

theorem Numbered.retire
    (hs : Numbered s) {c : Ctx} {h : ℕ} {k : After} {storage : HandleStorage}
    (hpc : s.pc t = .retire h k)
    (hretire : Handle.handleRetire s.handle s.storage h =
      (storage, some c)) :
    Numbered (State.goto
      { s with storage, retired := Function.update s.retired c true }
      t (.release c k)) := by
  have ht : Table s.issued storage := by
    have := hs.table.handleRetire s.handle h
    rwa [hretire] at this
  obtain ⟨-, hc, hholds⟩ :=
    Handle.handleRetire_holds hs.table.oneSlot hretire
  obtain ⟨hlt, hlive⟩ := (hs.held c).mp hc
  have hgoto : Numbered (s.goto t (.release c k)) :=
    hs.goto rfl rfl rfl rfl rfl rfl (by rw [hpc]; rfl)
  refine ⟨ht, ?_, ?_, hgoto.stored, hgoto.pending⟩
  · intro d
    change storage.Holds d ↔ d < s.contexts ∧
      Function.update s.retired c true d = false
    rw [hholds, hs.held]
    by_cases hd : d = c
    · subst hd
      simp
    · simp [hd]
  · intro d hd
    have hne : d ≠ c := by
      rintro rfl
      exact absurd hlt (Nat.not_lt_of_le hd)
    exact (Function.update_of_ne hne _ _).trans (hs.fresh d hd)

theorem Numbered.move
    (hs : Numbered s) {act : Act}
    (hok : s.pc t = .idle → s.NumberedInTime (t, act))
    (hmove : Move t act s s') : Numbered s' := by
  cases hmove with
  | quiet init endless cb mq p hsame =>
      exact hs.goto rfl rfl rfl rfl rfl rfl hsame.unnumbered
  | grabCall h c p hpc hp hfind =>
      refine hs.goto rfl rfl rfl rfl rfl rfl ?_
      rw [hpc]
      rcases hp with rfl | ⟨m, rfl⟩ <;> rfl
  | grabDispatch q c hpc hfind
  | create c memory hpc | releaseLast c k hpc hlast
  | mqPush c m q mq global hpc =>
      exact hs.goto rfl rfl rfl rfl rfl rfl (by rw [hpc]; rfl)
  | register storage h hact hpc hreg =>
      exact hs.register (hact ▸ hok hpc) hpc hreg
  | store c h hpc => exact hs.store hpc
  | releaseShared c k hpc hmore | mark c k q global hpc =>
      exact hs.goto rfl rfl rfl rfl rfl rfl
        (by rw [hpc]; exact resume_unnumbered ..)
  | retire h k c storage hpc hretire => exact hs.retire hpc hretire
  | globalPush q p global hheld howned hdeleting hopening hnumber
  | globalPop q p hheld howned hdeleting hopening hnumber =>
      exact hs.goto rfl rfl rfl rfl rfl rfl (hnumber.2.trans hnumber.1.symm)
  | popEmpty q c i n mq hpc | dropEmpty q k mq hpc =>
      exact hs.goto rfl rfl rfl rfl rfl rfl (by rw [hpc]; rfl)
  | free q k hpc =>
      exact hs.goto rfl rfl rfl rfl rfl rfl
        (by rw [hpc]; exact resume_unnumbered ..)

/-- In every run in which no registration doubles the table around a context
without stored handle (one whose handle is a multiple of the new size
apart), a context whose handle is stored is found by it until it is retired,
and the assertion of the rehash loop does not fail. -/
theorem stored_handle_found
    (weight : τ → ℤ) (harbor : ℕ)
    (hr : Reaches (step weight) NumberedInTime (start harbor) s) :
    (∀ c < s.contexts, s.retired c = false →
      (∀ t h, s.pc t ≠ .newHandle c h) →
      Handle.handleGrab s.handle s.storage (s.handle c) = some c) ∧
    ∀ l, s.NumberedInTime l →
      step weight s l ≠ .fault (.handle .newSlotOccupied) := by
  have hs : Numbered s := hr.invariant Numbered (numbered_start harbor)
    fun _ _ _ hs hok hstep => hs.move (fun _ => hok) (move_of_step hstep)
  refine ⟨?_, ?_⟩
  · intro c hc hlive hdone
    refine hs.grab_eq hc hlive fun t ht => ?_
    exact hdone t _ (Pc.eq_newHandle ht)
  · rintro ⟨t, act⟩ hok hfault
    obtain ⟨rfl, hreg⟩ := crash_register hfault
    rcases hs.register_cases hok with herr | herr | ⟨storage, h, heq, -⟩
    · rw [herr] at hreg
      cases hreg
    · rw [herr] at hreg
      cases hreg
    · rw [heq] at hreg
      cases hreg

end Moves

/-- The theorem above for one service whose handle has just been stored. -/
theorem stored_handle_found_after_launch :
    ∃ s : State (Fin 2),
      exec (step fun _ => 0) (start 0) [(0, .new), (0, .go)] = .next s ∧
      s.contexts = 1 ∧
      ((∀ c < s.contexts, s.retired c = false →
        (∀ t h, s.pc t ≠ .newHandle c h) →
        Handle.handleGrab s.handle s.storage (s.handle c) = some c) ∧
      ∀ l, s.NumberedInTime l →
        step (fun _ => 0) s l ≠ .fault (.handle .newSlotOccupied)) := by
  refine ⟨_, rfl, rfl, stored_handle_found (fun _ => 0) 0 ?_⟩
  refine .tail (0, .go) (.tail (0, .new) .refl ?_ rfl) trivial rfl
  intro _ t c h ht
  cases ht

/-- Four services are registered, of which the last has no handle yet when a
fifth doubles the table. -/
def doublingInBetween : List (Fin 5 × Act) :=
  [(0, .new), (0, .go), (1, .new), (1, .go), (2, .new), (2, .go),
    (3, .new), (4, .new), (3, .go)]

/-- The same with two services without handle. -/
def doublingAroundTwo : List (Fin 5 × Act) :=
  [(0, .new), (0, .go), (1, .new), (1, .go), (2, .new), (3, .new), (4, .new)]

/-- The context without handle is moved to slot `0`, where it is not found
under its handle `4` afterwards; with two such contexts the assertion
fails. -/
theorem doubling_loses_context :
    (∃ s : State (Fin 5),
      exec (step fun _ => 0) (start 0) doublingInBetween = .next s ∧
      3 < s.contexts ∧ s.retired 3 = false ∧ s.handle 3 = 4 ∧
      (∀ t h, s.pc t ≠ .newHandle 3 h) ∧
      Handle.handleGrab s.handle s.storage (s.handle 3) = none) ∧
    exec (step fun _ => 0) (start 0) doublingAroundTwo =
      .fault (.handle .newSlotOccupied) := by
  refine ⟨⟨_, rfl, by decide, rfl, rfl, ?_, rfl⟩, rfl⟩
  intro t h
  fin_cases t <;> nofun

end State

end SkynetServer.Service
