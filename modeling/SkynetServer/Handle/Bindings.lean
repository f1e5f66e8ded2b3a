import SkynetServer.Handle.Names

/-!
# What a lookup of a name returns

The storage with its names is driven by an arbitrary sequence of registrations,
retirements and calls of `skynet_handle_namehandle`.  Beside it runs the list
of what happened: the names that were bound and the handles that were retired,
the last first.

A lookup returns the handle of the last binding of the name whose handle was
not retired after it.
-/

namespace SkynetServer.Handle

open SortedArray Transition

inductive NameEvent where
  | bound (name : CString) (handle : ℕ)
  | retired (handle : ℕ)

/-- The last binding of the name in the list of events, of which the last is
the first, to a handle that is not retired later.  The handles in `gone` are
retired behind the end of the list. -/
def lastBinding (name : CString) : List ℕ → List NameEvent → Option ℕ
  | _, [] => none
  | gone, .retired handle :: events => lastBinding name (handle :: gone) events
  | gone, .bound name' handle :: events =>
    if name' = name ∧ handle ∉ gone then some handle
    else lastBinding name gone events

/-- The handle storage, its names and what happened to them. -/
structure Naming where
  registry : Registry
  names : NameTable
  history : List NameEvent

inductive NameCall where
  | register (ctx : Ctx)
  | retire (handle : ℕ)
  /-- with the memory of the new array, if one is allocated -/
  | namehandle (memory : ℕ → NamedHandle) (handle : ℕ) (name : CString)

inductive NameFault where
  | handle (f : Fault)
  /-- `assert(s->name_cap <= MAX_SLOT_SIZE)` -/
  | nameLimit

namespace Naming

/-- `skynet_handle_init` -/
def init (harbor : ℕ) (memory : ℕ → NamedHandle) : Naming where
  registry := .init harbor
  names := namesInit memory
  history := []

/-- `skynet_handle_retire` returns 1. -/
def Retires (s : Naming) (handle : ℕ) : Prop :=
  (handleRetire s.registry.handleOf s.registry.storage handle).2.isSome = true

instance (s : Naming) (handle : ℕ) : Decidable (s.Retires handle) :=
  inferInstanceAs (Decidable (_ = true))

/-- `skynet_handle_retire` -/
def retire (s : Naming) (handle : ℕ) : Naming :=
  let registry : Registry :=
    { s.registry with
      storage :=
        (handleRetire s.registry.handleOf s.registry.storage handle).1
      live := s.registry.live.filter fun p => p.1 ≠ handle }
  if s.Retires handle then
    { registry
      names := s.names.dropHandle handle
      history := .retired handle :: s.history }
  else { s with registry }

def step (s : Naming) : NameCall → Outcome NameFault Naming
  | .register ctx =>
    match s.registry.step (.register ctx) with
    | .next registry => .next { s with registry }
    | .blocked => .blocked
    | .fault f => .fault (.handle f)
  | .retire handle => .next (s.retire handle)
  | .namehandle memory handle name =>
    match s.names.namehandle memory handle name with
    | none => .fault .nameLimit
    | some (names, none) => .next { s with names }
    | some (names, some _) => .next
      { s with names, history := .bound name handle :: s.history }

/-- What the users of the names may rely on. -/
structure NamesCorrect (s : Naming) : Prop where
  sorted : s.names.Sorted
  findname : ∀ name,
    s.names.findname name = (lastBinding name [] s.history).getD 0
  refused : ∀ name memory handle, lastBinding name [] s.history ≠ none →
    s.names.namehandle memory handle name = some (s.names, none)
  retired : ∀ handle a, a ∈ (s.retire handle).names.contents ↔
    a ∈ s.names.contents ∧ (s.Retires handle → a.handle ≠ handle)

end Naming

/-! ## Histories -/

section History

variable {name : CString} {gone gone' : List ℕ} {events : List NameEvent}

theorem lastBinding_congr
    (h : ∀ k, k ∈ gone ↔ k ∈ gone') :
    lastBinding name gone events = lastBinding name gone' events := by
  induction events generalizing gone gone' with
  | nil => rfl
  | cons e events ih =>
      cases e with
      | retired k =>
          refine ih fun k' => ?_
          rw [List.mem_cons, List.mem_cons, h k']
      | bound name' k =>
          simp only [lastBinding, h k, ih h]

/-- Fewer bindings are left when more handles are retired. -/
theorem lastBinding_none
    (h : lastBinding name gone events = none)
    (hsub : ∀ k, k ∈ gone → k ∈ gone') :
    lastBinding name gone' events = none := by
  induction events generalizing gone gone' with
  | nil => rfl
  | cons e events ih =>
      cases e with
      | retired k =>
          refine ih h fun k' hk' => ?_
          rcases List.mem_cons.mp hk' with rfl | hk'
          · exact List.mem_cons_self
          · exact List.mem_cons_of_mem _ (hsub k' hk')
      | bound name' k =>
          rw [lastBinding] at h ⊢
          split_ifs at h with hnew
          rw [if_neg fun hnew' => hnew ⟨hnew'.1, fun hk => hnew'.2 (hsub k hk)⟩]
          exact ih h hsub

/-- A name was bound only when it had no binding. -/
def WellBound : List NameEvent → Prop
  | [] => True
  | .retired _ :: events => WellBound events
  | .bound name _ :: events =>
    lastBinding name [] events = none ∧ WellBound events

/-- The retirement of a handle takes its names. -/
theorem lastBinding_retired
    (h : WellBound events) (handle : ℕ) :
    lastBinding name (handle :: gone) events =
      if lastBinding name gone events = some handle then none
      else lastBinding name gone events := by
  induction events generalizing gone with
  | nil => rfl
  | cons e events ih =>
      cases e with
      | retired k =>
          rw [lastBinding, lastBinding, ← ih h]
          refine lastBinding_congr fun k' => ?_
          simp only [List.mem_cons]
          exact or_left_comm
      | bound name' k =>
          obtain ⟨hnone, hrest⟩ := h
          rw [lastBinding, lastBinding]
          by_cases hnew : name' = name ∧ k ∉ gone
          · obtain ⟨rfl, hk⟩ := hnew
            rw [if_pos (show name' = name' ∧ k ∉ gone from ⟨rfl, hk⟩)]
            by_cases heq : k = handle
            · subst heq
              rw [if_neg (by simp), if_pos rfl]
              exact lastBinding_none hnone (by simp)
            · rw [if_pos ⟨rfl, by simp [heq, hk]⟩, if_neg (by simp [heq])]
          · rw [if_neg hnew, if_neg ?_]
            · exact ih hrest
            · rintro ⟨hname, hk⟩
              exact hnew ⟨hname, fun hmem => hk (List.mem_cons_of_mem _ hmem)⟩

end History

/-! ## Runs -/

namespace Naming

/-- The array has the bindings that are left of the history. -/
structure Tracked (s : Naming) : Prop where
  sorted : s.names.Sorted
  wellBound : WellBound s.history
  bound : ∀ name handle, ⟨name, handle⟩ ∈ s.names.contents ↔
    lastBinding name [] s.history = some handle

variable {s s' : Naming}

theorem tracked_init (harbor : ℕ) (memory : ℕ → NamedHandle) :
    (init harbor memory).Tracked where
  sorted := NameTable.sorted_namesInit memory
  wellBound := trivial
  bound name handle := by
    constructor
    · intro h
      cases h
    · intro h
      cases h

/-- No entry has a name without binding. -/
theorem Tracked.not_mem
    (h : s.Tracked) {name : CString}
    (hnone : lastBinding name [] s.history = none) :
    ∀ a ∈ s.names.contents, a.name ≠ name := by
  rintro ⟨name', handle⟩ ha rfl
  have hbound := (h.bound name' handle).mp ha
  rw [hnone] at hbound
  cases hbound

theorem Tracked.retire (h : s.Tracked) (handle : ℕ) :
    (s.retire handle).Tracked := by
  rw [Naming.retire]
  dsimp only
  split_ifs with hretires
  · refine ⟨h.sorted.dropHandle handle, h.wellBound, fun name k => ?_⟩
    dsimp only
    rw [NameTable.mem_dropHandle, h.bound, lastBinding,
      lastBinding_retired h.wellBound]
    split_ifs with hlast
    · rw [hlast]
      simp [eq_comm]
    · constructor
      · exact And.left
      · intro hk
        refine ⟨hk, fun heq => hlast ?_⟩
        have hkh : k = handle := heq
        rw [hk, hkh]
  · exact { h with }

/-- A call for a name without binding. -/
theorem Tracked.bind
    (h : s.Tracked) {name : CString}
    (hnone : lastBinding name [] s.history = none)
    {memory : ℕ → NamedHandle} {handle : ℕ} {r : NameTable × Option CString}
    (hr : s.names.namehandle memory handle name = some r) :
    r.2 = some name ∧
      ({ s with
        names := r.1
        history := .bound name handle :: s.history } : Naming).Tracked := by
  obtain ⟨hsorted, hname, hmem⟩ :=
    h.sorted.namehandle_of_not_mem (h.not_mem hnone) hr
  refine ⟨hname, hsorted, ⟨hnone, h.wellBound⟩, fun name' k => ?_⟩
  dsimp only
  rw [hmem, h.bound, lastBinding]
  by_cases heq : name = name'
  · subst heq
    rw [if_pos ⟨rfl, List.not_mem_nil⟩, hnone]
    simp [eq_comm]
  · rw [if_neg fun hnew => heq hnew.1]
    simp [Ne.symm heq]

/-- A call for a name that has a binding. -/
theorem Tracked.refused
    (h : s.Tracked) {name : CString}
    (hsome : lastBinding name [] s.history ≠ none)
    (memory : ℕ → NamedHandle) (handle : ℕ) :
    s.names.namehandle memory handle name = some (s.names, none) := by
  obtain ⟨k, hk⟩ := Option.ne_none_iff_exists'.mp hsome
  have hmem := (h.bound name k).mpr hk
  exact h.sorted.namehandle_of_mem hmem memory handle

theorem Tracked.step
    (h : s.Tracked) {l : NameCall} (hs : s.step l = .next s') :
    s'.Tracked := by
  cases l with
  | register ctx =>
      rw [Naming.step] at hs
      split at hs
      · cases hs
        exact { h with }
      · cases hs
      · cases hs
  | retire handle =>
      cases hs
      exact h.retire handle
  | namehandle memory handle name =>
      rw [Naming.step] at hs
      by_cases hlast : lastBinding name [] s.history = none
      · cases hcall : s.names.namehandle memory handle name with
        | none =>
            rw [hcall] at hs
            cases hs
        | some r =>
            obtain ⟨hname, htracked⟩ := h.bind hlast hcall
            obtain ⟨names, result⟩ := r
            cases hname
            rw [hcall] at hs
            cases hs
            exact htracked
      · rw [h.refused hlast memory handle] at hs
        cases hs
        exact h

theorem Tracked.namesCorrect (h : s.Tracked) : s.NamesCorrect where
  sorted := h.sorted
  findname name := by
    cases hlast : lastBinding name [] s.history with
    | none => exact h.sorted.findname_of_not_mem (h.not_mem hlast)
    | some handle =>
        have hmem := (h.bound name handle).mpr hlast
        exact h.sorted.findname_of_mem hmem
  refused name memory handle hlast := h.refused hlast memory handle
  retired handle a := by
    rw [Naming.retire]
    dsimp only
    split_ifs with hretires
    · rw [NameTable.mem_dropHandle]
      simp [hretires]
    · simp [hretires]

/-- In every sequence of calls the names are sorted, and a lookup returns the
last binding that was not retired. -/
theorem names_correct
    (harbor : ℕ) (memory : ℕ → NamedHandle)
    (h : Reaches step anyStep (init harbor memory) s) : s.NamesCorrect := by
  have htracked : s.Tracked := h.invariant Tracked (tracked_init harbor memory)
    fun _ _ _ ht _ hs => ht.step hs
  exact htracked.namesCorrect

/-- The name `a` is bound to a service. -/
theorem names_correct_of_bound :
    ∃ s, Reaches step anyStep (init 0 fun _ => ⟨[], 0⟩) s ∧
      s.names.findname [97] = 1 ∧ s.NamesCorrect := by
  obtain ⟨s, hs, hfind⟩ : ∃ s, exec step (init 0 fun _ => ⟨[], 0⟩)
      [.register 1, .namehandle (fun _ => ⟨[], 0⟩) 1 [97]] = .next s ∧
        s.names.findname [97] = 1 := ⟨_, rfl, by decide⟩
  have hreach := reaches_of_exec hs
  exact ⟨s, hreach, hfind, names_correct 0 _ hreach⟩

end Naming

end SkynetServer.Handle
