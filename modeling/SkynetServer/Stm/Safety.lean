import SkynetServer.Stm.Copies

/-!
# Everything is freed once

With the account of the object and of the copies no step follows a pointer to
freed memory, and what nobody refers to any more has been freed.

`stm_releasereader` frees the object while it holds the read lock itself.
Another reader may have given its reference up before, and is then on its way to
`rwlock_runlock` of the lock in the object.
-/

namespace SkynetServer.Stm

open Transition Function

namespace State

section Accesses

variable {τ : Type*} [DecidableEq τ] {s : State τ} {t : Option τ} {f : Fault}

omit [DecidableEq τ] in
theorem onObject_ne_fault {s' : State τ} (h : s.freed = false) :
    s.onObject s' ≠ .fault f := by
  rw [onObject, h]
  exact fun h => by cases h

theorem decCopy_ne_fault
    {c : ℕ} {p q : Pos} (h : (s.copies c).freed = false) :
    s.decCopy t c p q ≠ .fault f := by
  rw [decCopy, h]
  exact fun h => by cases h

theorem freeCopy_ne_fault
    {c : ℕ} {p : Pos} (h : (s.copies c).freed = false) :
    s.freeCopy t c p ≠ .fault f := by
  rw [freeCopy, h]
  exact fun h => by cases h

variable [Fintype τ]

/-- The assertion of `stm_grab`: the caller has a reference itself. -/
theorem grabUnlock_ne_fault
    {ref : ℤ} (ho : s.ObjectSound) (hp : (s.agent t).pos = .grabUnlock ref) :
    s.stepGo t ≠ .fault f := by
  have hfreed : s.freed = false :=
    ho.alive (t := t) (by rw [hp]; exact Nat.succ_pos _)
  have href : 0 < ref := by
    have hsees := ho.sees t
    rw [hp] at hsees
    exact hsees
  rw [stepGo, hp]
  simp only [hfreed, Bool.false_eq_true, if_false, if_neg (not_le.mpr href)]
  exact fun h => by cases h

/-- The assertion of `stm_copy`: the object has a reference to its copy. -/
theorem copyInc_ne_fault
    {seen : Option ℕ} {c : ℕ} (ho : s.ObjectSound) (hc : s.CopiesSound)
    (hp : (s.agent t).pos = .copyInc seen c) : s.stepGo t ≠ .fault f := by
  have hsees := ho.sees t
  rw [hp] at hsees
  have hnot : s.writer.dropped = false := by
    by_contra hdropped
    have hcritical := Pos.critical_of_dropped (Bool.not_eq_false _ ▸ hdropped)
    rw [ho.not_critical hp rfl] at hcritical
    cases hcritical
  have hheld : s.held = some c := by
    rw [held, hnot]
    exact hsees.2
  obtain ⟨hfreed, hpos, -⟩ := hc.of_held hheld
  rw [stepGo, hp]
  simp only [stepCopyInc, hfreed, Bool.false_eq_true, if_false,
    if_neg (not_le.mpr hpos)]
  exact fun h => by cases h

theorem use_ne_fault
    {c : ℕ} (hc : s.CopiesSound) (hp : (s.agent t).pos = .use c) :
    s.stepGo t ≠ .fault f := by
  have hkeeps := hc.keeps t
  rw [hp] at hkeeps
  have hfreed := hc.of_last hkeeps
  rw [stepGo, hp]
  simp only [hfreed, Bool.false_eq_true, if_false]
  exact fun h => by cases h

/-- The assertion of `stm_releasereader`: the writer has released the object
before. -/
theorem readerFree_ne_fault
    (ho : s.ObjectSound) (hp : (s.agent t).pos = .readerFree) :
    s.stepGo t ≠ .fault f := by
  have hfreed : s.freed = false := ho.alive (t := t) (by rw [hp]; decide)
  obtain ⟨-, hcopy⟩ := ho.writer_of_readerFree hp
  rw [stepGo, hp]
  simp only [hfreed, Bool.false_eq_true, if_false, hcopy, ne_eq,
    not_true_eq_false]
  exact fun h => by cases h

theorem lastDec_ne_fault
    (ho : s.ObjectSound) (hc : s.CopiesSound)
    (hp : (s.agent t).pos = .lastDec) : s.stepGo t ≠ .fault f := by
  obtain rfl := ho.eq_none hp rfl
  have hfreed : s.freed = false := ho.alive (t := none) (by rw [hp]; decide)
  rw [stepGo, hp]
  simp only [hfreed, Bool.false_eq_true, if_false]
  cases hcopy : s.copy with
  | none => exact fun h => by cases h
  | some c =>
      have hheld : s.held = some c := by
        rw [held_eq hp]
        exact hcopy
      exact decCopy_ne_fault (hc.of_held hheld).1

/-- No step within a function faults. -/
theorem stepGo_ne_fault (ho : s.ObjectSound) (hc : s.CopiesSound) :
    s.stepGo t ≠ .fault f := by
  have halive : ∀ {p : Pos}, (s.agent t).pos = p →
      0 < p.refs + p.reads + p.frees → s.freed = false := by
    intro p hp hpos
    rw [← hp] at hpos
    exact ho.alive hpos
  cases hp : (s.agent t).pos with
  | grabUnlock ref => exact grabUnlock_ne_fault ho hp
  | copyInc seen c => exact copyInc_ne_fault ho hc hp
  | use c => exact use_ne_fault hc hp
  | readerFree => exact readerFree_ne_fault ho hp
  | lastDec => exact lastDec_ne_fault ho hc hp
  | dec c n =>
      rw [stepGo, hp]
      exact decCopy_ne_fault (hc.of_holding hp rfl).1
  | free c n | lastFree c =>
      rw [stepGo, hp]
      exact freeCopy_ne_fault (hc.of_condemned hp rfl).1
  | ready | gone =>
      rw [stepGo, hp]
      exact fun h => by cases h
  | writerUnlock =>
      obtain rfl := ho.eq_none hp rfl
      rw [stepGo, hp]
      refine onObject_ne_fault (ho.alive_of_writes ?_)
      rw [show s.writer = .writerUnlock from hp]
      rfl
  | _ =>
      rw [stepGo, hp]
      exact onObject_ne_fault (halive hp (Nat.succ_pos _))

/-- Nor does a call: the object of the writer is there until it is released. -/
theorem stepCall_ne_fault
    {api : Api} (ho : s.ObjectSound) (hp : (s.agent t).pos = .ready) :
    s.stepCall t api ≠ .fault f := by
  cases t with
  | none =>
      have hfreed : s.freed = false := ho.alive (t := none) (by rw [hp]; decide)
      have hcopy : s.copy ≠ none := by
        intro hcopy
        have hreleased := ho.copy.mp hcopy
        rw [show s.writer = .ready from hp] at hreleased
        cases hreleased
      cases api with
      | release =>
          simp only [stepCall, hfreed, Bool.false_eq_true, if_false,
            if_neg hcopy]
          exact fun h => by cases h
      | _ => exact fun h => by cases h
  | some i => cases api <;> exact fun h => by cases h

/-- With the account right, no step of anybody faults. -/
theorem step_ne_fault
    (ho : s.ObjectSound) (hc : s.CopiesSound) (l : Option τ × Act) :
    s.step l ≠ .fault f := by
  obtain ⟨t, a⟩ := l
  rw [step]
  split
  · rename_i hp _
    exact stepCall_ne_fault ho hp
  · cases t with
    | none => exact fun h => by cases h
    | some i =>
        rw [stepBox]
        split <;> exact fun h => by cases h
  · exact stepGo_ne_fault ho hc
  · exact fun h => by cases h

end Accesses

/-! ## Nothing is left -/

section Leaks

variable {τ : Type*} [Fintype τ] {s : State τ}

omit [Fintype τ] in
theorem owned_gone {t : Option τ} (h : (s.agent t).pos = .gone)
    (hkeeps : (s.agent t).pos.Keeps (s.agent t).last) (c : ℕ) :
    (s.agent t).owned c = 0 := by
  rw [h] at hkeeps
  rw [Agent.owned, h, show (s.agent t).last = none from hkeeps]
  rfl

/-- An object without boxes and without references on their way is freed. -/
theorem ObjectSound.freed_of_gone
    (ho : s.ObjectSound) (hpassed : s.passed = 0)
    (hgone : ∀ t, (s.agent t).pos = .gone) : s.freed = true := by
  by_contra hfreed
  have hlive := Bool.not_eq_true _ ▸ hfreed
  have hrefs : s.refs = 0 :=
    Census.total_eq_zero fun t _ => by rw [hgone t]; rfl
  have hfrees : s.frees = 0 :=
    Census.total_eq_zero fun t _ => by rw [hgone t]; rfl
  have hzero := ho.reference hlive
  have hone := ho.frees hlive
  rw [if_pos (by omega)] at hone
  omega

/-- So are all copies that have been allocated for it. -/
theorem CopiesSound.freed_of_gone
    (hc : s.CopiesSound) (ho : s.ObjectSound)
    (hgone : ∀ t, (s.agent t).pos = .gone) {c : ℕ} (hlt : c < s.allocated) :
    (s.copies c).freed = true := by
  have hcopy : s.copy = none := by
    refine ho.copy.mpr ?_
    rw [writer, hgone none]
    rfl
  have howned : Census.total Finset.univ (Agent.owned c) s.agent = 0 :=
    Census.total_eq_zero fun t _ => owned_gone (hgone t) (hc.keeps t) c
  have howners : s.owners c = 0 := by
    rw [owners, howned, held, hcopy]
    split <;> rfl
  have hcondemned : s.condemned c = 0 :=
    Census.total_eq_zero fun t _ => by rw [hgone t]; rfl
  by_contra hfreed
  obtain ⟨href, hone⟩ := (hc.fair c).alive (Bool.not_eq_true _ ▸ hfreed)
  rw [howners] at href
  rw [hcondemned, if_pos ⟨hlt, href⟩] at hone
  cases hone

end Leaks

/-! ## Runs -/

section Runs

variable {τ : Type*} [Fintype τ] [DecidableEq τ]

theorem sound_of_reaches
    {s : State τ} (h : Reaches step SparesReaders create s) :
    s.ObjectSound ∧ s.CopiesSound :=
  h.invariant (fun s => s.ObjectSound ∧ s.CopiesSound)
    ⟨objectSound_create, copiesSound_create⟩
    fun _ _ _ hs hok hstep =>
      ⟨hs.1.step hok hstep, hs.2.step hs.1 hstep⟩

/-- In a run in which no reader frees the object while another one is before
its `rwlock_runlock`, no step follows a pointer to freed memory or frees
anything twice, every read returns the copy of the latest update completed when
it took the lock, and when the writer and all readers are gone, the object and
all its copies are freed. -/
theorem objects_freed_once
    {s : State τ} (h : Reaches step SparesReaders create s) :
    (∀ l f, s.step l ≠ .fault f) ∧
      (∀ t seen ret, (s.agent t).pos = .copyUnlock seen ret → ret = seen) ∧
      (s.passed = 0 → (∀ t, (s.agent t).pos = .gone) →
        s.freed = true ∧ ∀ c, c < s.allocated → (s.copies c).freed = true) := by
  obtain ⟨ho, hc⟩ := sound_of_reaches h
  refine ⟨fun l f => step_ne_fault ho hc l, ?_, ?_⟩
  · intro t seen ret hp
    have hsees := ho.sees t
    rw [hp] at hsees
    exact hsees
  · intro hpassed hgone
    exact ⟨ho.freed_of_gone hpassed hgone, fun c => hc.freed_of_gone ho hgone⟩

end Runs

/-! ## Runs with two readers -/

/-- A step that is repeated. -/
def goes {τ : Type*} (t : Option τ) (n : ℕ) : List (Option τ × Act) :=
  List.replicate n (t, .go)

/-- `stm_grab` of the writer, and `lnewreader`. -/
def callGrab {τ : Type*} (i : τ) : List (Option τ × Act) :=
  (none, .call .grab) :: goes none 5 ++ [(some i, .call .box)]

/-- `stm_release`, when there are readers, in `n` steps: `skynet_free(copy)` is a
step more. -/
def callRelease {τ : Type*} (n : ℕ) : List (Option τ × Act) :=
  (none, .call .release) :: goes none n

/-- `stm_releasereader` until `ATOM_DEC`. -/
def callDelete {τ : Type*} (i : τ) : List (Option τ × Act) :=
  (some i, .call .delete) :: goes (some i) 4

/-- Nobody has a box any more. -/
def allGone (s : State Bool) : Bool :=
  decide (s.passed = 0) && decide ((s.agent none).pos = .gone) &&
    decide ((s.agent (some false)).pos = .gone) &&
    decide ((s.agent (some true)).pos = .gone)

def sparesReadersTest (s : State Bool) (l : Option Bool × Act) : Bool :=
  decide ((s.agent l.1).pos ≠ .readerFree) ||
    decide (∀ u, u ≠ l.1 → (s.agent u).pos ≠ .readerUnlock)

theorem spares_of_test
    (s : State Bool) (l : Option Bool × Act)
    (h : sparesReadersTest s l = true) : s.SparesReaders l := by
  intro hp
  rcases Bool.or_eq_true _ _ ▸ h with hne | hspares
  · exact absurd hp (of_decide_eq_true hne)
  · exact of_decide_eq_true hspares

/-- The theorem above for two readers, one of which reads. -/
theorem objects_freed_once_of_two :
    ∃ s : State Bool, Reaches step SparesReaders create s ∧
      s.freed = true ∧
      ∀ c, c < s.allocated → (s.copies c).freed = true := by
  obtain ⟨s, hrun, htest⟩ := Outcome.exists_of_passes
    (show (execWhile step sparesReadersTest create
      (callGrab false ++ callGrab true ++
        (some true, .call .read) :: goes (some true) 7 ++
        callRelease 6 ++ callDelete false ++ goes (some false) 1 ++
        callDelete true ++ goes (some true) 3)).passes allGone = true from
      by decide +kernel)
  simp only [allGone, Bool.and_eq_true, decide_eq_true_eq] at htest
  obtain ⟨⟨⟨hpassed, hnone⟩, hfalse⟩, htrue⟩ := htest
  have hreaches := reaches_of_execWhile spares_of_test hrun
  refine ⟨s, hreaches, (objects_freed_once hreaches).2.2 hpassed
    fun t => ?_⟩
  rcases t with - | _ | _
  · exact hnone
  · exact hfalse
  · exact htrue

/-- A reader that is before its `rwlock_runlock` when another one frees the
object follows a pointer to freed memory. -/
theorem readerUnlock_faults
    {τ : Type*} [DecidableEq τ] {s s' : State τ} {t u : Option τ} (hne : u ≠ t)
    (hfree : (s.agent t).pos = .readerFree)
    (hunlock : (s.agent u).pos = .readerUnlock)
    (h : s.step (t, .go) = .next s') :
    s'.step (u, .go) = .fault .freedObject := by
  rw [step, hfree] at h
  simp only [stepGo, hfree] at h
  split at h
  · cases h
  · split at h
    · cases h
    · cases h
      have hu : ((State.become { s with freed := true } t
          (s.agent t).afterRelease).agent u).pos = .readerUnlock := by
        rw [agent_become, update_of_ne hne]
        exact hunlock
      simp only [step, stepGo, hu]
      rfl

/-- Two readers leave after the writer: the second one frees the object under
the first one, which unlocks it then. -/
theorem reader_unlocks_freed_object :
    ¬∀ s : State Bool, Reaches step anyStep create s →
      ∀ l f, s.step l ≠ .fault f := by
  intro h
  obtain ⟨s, hrun, htest⟩ := Outcome.exists_of_passes
    (show (exec step create
      (callGrab false ++ callGrab true ++ callRelease 7 ++ callDelete false ++
        callDelete true)).passes
        (fun s => decide ((s.agent (some false)).pos = .readerUnlock) &&
          decide ((s.agent (some true)).pos = .readerFree) &&
          decide (s.freed = false) && decide (s.copy = none)) = true from
      by decide +kernel)
  simp only [Bool.and_eq_true, decide_eq_true_eq] at htest
  obtain ⟨⟨⟨hunlock, hfree⟩, hfreed⟩, hcopy⟩ := htest
  have hstep : s.step (some true, .go) =
      .next (State.become { s with freed := true } (some true)
        (s.agent (some true)).afterRelease) := by
    simp only [step, hfree, stepGo, hfreed, hcopy]
    rfl
  exact h _ (.tail _ (reaches_of_exec hrun) trivial hstep) (some false, .go)
    .freedObject (readerUnlock_faults (by decide) hfree hunlock hstep)

end State

end SkynetServer.Stm
