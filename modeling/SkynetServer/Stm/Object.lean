import Mathlib.Data.Fintype.Option
import Mathlib.Tactic.Ring
import SkynetServer.Stm.Model
import SkynetServer.Support.Census

/-!
# The object and its lock

`obj->reference` counts the agents with a reference and the references that are
passed on, and `lock->read` the agents that have increased it.  The writer has
the lock to itself between `rwlock_wlock` and `rwlock_wunlock`.  When the last
reference is gone, exactly one agent is about to free the object.

The object is freed too early if a reader frees it while another one has given
its reference up and still holds the read lock.  In all other runs nobody has
anything to do with the object once it is freed.
-/

namespace SkynetServer.Stm

open Transition Function

/-! ## Positions -/

namespace Pos

/-- Counted in `lock->read`. -/
def reads : Pos → ℕ
  | .rcheck _ | .rback _ | .grabInc | .grabUnlock _ | .load _ | .copyInc _ _
  | .copyUnlock _ _ | .readerDec | .readerFree | .readerUnlock => 1
  | _ => 0

/-- With the read lock. -/
def locked : Pos → Bool
  | .grabInc | .grabUnlock _ | .load _ | .copyInc _ _ | .copyUnlock _ _
  | .readerDec | .readerFree | .readerUnlock => true
  | _ => false

/-- References to the object. -/
def refs : Pos → ℕ
  | .gone | .readerFree | .readerUnlock | .dec _ .gone | .free _ .gone
  | .writerUnlock | .writerFree => 0
  | .grabUnlock _ => 2
  | _ => 1

/-- About to free the object. -/
def frees : Pos → ℕ
  | .readerFree | .writerFree => 1
  | _ => 0

/-- The flag `lock->write` is set for this position. -/
def writes : Pos → Bool
  | .wwait _ | .swap _ | .updateUnlock _ | .lastDec | .lastFree _ | .clear
  | .writerDec | .writerUnlock | .writerFree => true
  | _ => false

/-- With the write lock. -/
def critical : Pos → Bool
  | .swap _ | .updateUnlock _ | .lastDec | .lastFree _ | .clear | .writerDec
  | .writerUnlock | .writerFree => true
  | _ => false

/-- `obj->copy` has been set to `NULL`. -/
def released : Pos → Bool
  | .writerDec | .writerUnlock | .writerFree | .gone => true
  | _ => false

/-- Positions of the writer's functions. -/
def ofWriter : Pos → Bool
  | .wlock _ | .wwait _ | .swap _ | .updateUnlock _ | .lastDec | .lastFree _
  | .clear | .writerDec | .writerUnlock | .writerFree => true
  | _ => false

/-- Positions of a reader's functions. -/
def ofReader : Pos → Bool
  | .rlock .copy | .rlock .release | .rinc .copy | .rinc .release
  | .rcheck .copy | .rcheck .release | .rback .copy | .rback .release
  | .load _ | .copyInc _ _ | .copyUnlock _ _ | .use _ | .readerDec
  | .readerFree | .readerUnlock | .dec _ .gone | .dec _ (.use _)
  | .free _ .gone | .free _ (.use _) => true
  | _ => false

/-- The position may be one of the writer, or of a reader. -/
def fits (writer : Bool) (p : Pos) : Bool :=
  if writer then !p.ofReader else !p.ofWriter

/-- What an agent has read from the object is still so. -/
def Sees (copy : Option ℕ) : Pos → Prop
  | .grabUnlock ref => 0 < ref
  | .load seen => seen = copy
  | .copyInc seen c => seen = some c ∧ copy = some c
  | .copyUnlock seen ret => ret = seen
  | _ => True

section Lemmas

variable {p : Pos}

theorem reads_of_locked (h : p.locked) : p.reads = 1 := by
  cases p <;> first | rfl | cases h

theorem writes_of_critical (h : p.critical) : p.writes := by
  cases p <;> first | rfl | cases h

theorem sees_congr {copy copy' : Option ℕ} (h : p.Sees copy)
    (hcopy : p.locked → copy' = copy) : p.Sees copy' := by
  cases p with
  | load seen => exact (h : seen = copy).trans (hcopy rfl).symm
  | copyInc seen c => exact ⟨h.1, (hcopy rfl).trans h.2⟩
  | _ => exact h

/-- An agent that neither refers to the object nor is about to free it does not
hold the read lock, unless it is about to release it. -/
theorem reads_eq_zero
    (hrefs : p.refs = 0) (hfrees : p.frees = 0) (hunlock : p ≠ .readerUnlock) :
    p.reads = 0 := by
  cases p with
  | readerUnlock => exact absurd rfl hunlock
  | readerFree => cases hfrees
  | rcheck j | rback j | grabInc | grabUnlock ref | load seen
  | copyInc seen c | copyUnlock seen ret | readerDec => cases hrefs
  | _ => rfl

/-- A writer without reference has released the object. -/
theorem released_of_refs
    (hfits : p.fits true) (hrefs : p.refs = 0) : p.released := by
  cases p with
  | dec c n | free c n =>
      cases n <;> first | exact absurd hfits Bool.false_ne_true | cases hrefs
  | _ =>
      first
      | rfl
      | exact absurd hfits Bool.false_ne_true
      | cases hrefs

/-- The role stays when a function goes on. -/
theorem fits_of
    {q : Pos} {b : Bool} (h : p.fits b = true)
    (hreader : q.ofReader = true → p.ofReader = true)
    (hwriter : q.ofWriter = true → p.ofWriter = true) :
    q.fits b = true := by
  cases b with
  | false =>
      have hp : p.ofWriter = false := by simpa [fits] using h
      have hq : q.ofWriter = false := by
        by_contra hq
        rw [hwriter (Bool.not_eq_false _ ▸ hq)] at hp
        cases hp
      simp [fits, hq]
  | true =>
      have hp : p.ofReader = false := by simpa [fits] using h
      have hq : q.ofReader = false := by
        by_contra hq
        rw [hreader (Bool.not_eq_false _ ▸ hq)] at hp
        cases hp
      simp [fits, hq]

theorem eq_false_of_ofReader
    {b : Bool} (h : p.fits b = true) (hreader : p.ofReader = true) :
    b = false := by
  cases b with
  | false => rfl
  | true => simp [fits, hreader] at h

theorem eq_true_of_ofWriter
    {b : Bool} (h : p.fits b = true) (hwriter : p.ofWriter = true) :
    b = true := by
  cases b with
  | false => simp [fits, hwriter] at h
  | true => rfl

/-- Two positions with the same part in the account. -/
structure Same (p q : Pos) : Prop where
  refs : q.refs = p.refs
  reads : q.reads = p.reads
  frees : q.frees = p.frees
  writes : q.writes = p.writes
  critical : q.critical = p.critical
  released : q.released = p.released

end Lemmas

end Pos

/-! ## The account -/

namespace State

variable {τ : Type*} [Fintype τ]

/-- References which agents have to the object. -/
def refs (s : State τ) : ℕ :=
  Census.total Finset.univ (fun a : Agent => a.pos.refs) s.agent

/-- Agents counted in `lock->read`. -/
def reads (s : State τ) : ℕ :=
  Census.total Finset.univ (fun a : Agent => a.pos.reads) s.agent

/-- Agents about to free the object. -/
def frees (s : State τ) : ℕ :=
  Census.total Finset.univ (fun a : Agent => a.pos.frees) s.agent

/-- The position of the writer. -/
def writer (s : State τ) : Pos := (s.agent none).pos

/-- The counters of the object are right, and nobody needs it any more once it
is freed. -/
structure ObjectSound (s : State τ) : Prop where
  fits : ∀ t, (s.agent t).pos.fits t.isNone = true
  reference : s.freed = false → s.reference = s.passed + s.refs
  read : s.freed = false → s.read = s.reads
  frees : s.freed = false → s.frees = if s.reference = 0 then 1 else 0
  dead : s.freed = true →
    s.passed = 0 ∧ s.refs = 0 ∧ s.reads = 0 ∧ s.frees = 0 ∧
      s.writer.writes = false
  write : s.freed = false → s.write = s.writer.writes
  alone : s.writer.critical = true → ∀ t, (s.agent t).pos.locked = false
  copy : s.copy = none ↔ s.writer.released = true
  latest : s.freed = false → s.writer.critical = false → s.latest = s.copy
  sees : ∀ t, (s.agent t).pos.Sees s.copy

section Agents

variable {s : State τ} {t : Option τ}

theorem refs_le (s : State τ) (t : Option τ) :
    (s.agent t).pos.refs ≤ s.refs :=
  Census.le_total (w := fun a : Agent => a.pos.refs) (Finset.mem_univ t)

theorem reads_le (s : State τ) (t : Option τ) :
    (s.agent t).pos.reads ≤ s.reads :=
  Census.le_total (w := fun a : Agent => a.pos.reads) (Finset.mem_univ t)

theorem frees_le (s : State τ) (t : Option τ) :
    (s.agent t).pos.frees ≤ s.frees :=
  Census.le_total (w := fun a : Agent => a.pos.frees) (Finset.mem_univ t)

/-- An agent that has to do with the object finds it. -/
theorem ObjectSound.alive
    (hs : s.ObjectSound)
    (h : 0 < (s.agent t).pos.refs + (s.agent t).pos.reads +
      (s.agent t).pos.frees) : s.freed = false := by
  by_contra hfreed
  obtain ⟨-, hrefs, hreads, hfrees, -⟩ :=
    hs.dead (Bool.not_eq_false _ ▸ hfreed)
  have := s.refs_le t
  have := s.reads_le t
  have := s.frees_le t
  omega

/-- So does the writer while it has the flag set. -/
theorem ObjectSound.alive_of_writes
    (hs : s.ObjectSound) (h : s.writer.writes = true) : s.freed = false := by
  by_contra hfreed
  obtain ⟨-, -, -, -, hwrites⟩ := hs.dead (Bool.not_eq_false _ ▸ hfreed)
  rw [h] at hwrites
  cases hwrites

end Agents

section Steps

variable [DecidableEq τ] {s s₁ : State τ} {t : Option τ} {a : Agent}

omit [Fintype τ] in
@[simp] theorem agent_become (s : State τ) (t : Option τ) (a : Agent) :
    (s.become t a).agent = update s.agent t a :=
  rfl

theorem refs_become (hagent : s₁.agent = s.agent) :
    (s₁.become t a).refs + (s.agent t).pos.refs = s.refs + a.pos.refs := by
  rw [refs, agent_become, hagent]
  exact Census.total_update _ s.agent (Finset.mem_univ t) a

theorem reads_become (hagent : s₁.agent = s.agent) :
    (s₁.become t a).reads + (s.agent t).pos.reads =
      s.reads + a.pos.reads := by
  rw [reads, agent_become, hagent]
  exact Census.total_update _ s.agent (Finset.mem_univ t) a

theorem frees_become (hagent : s₁.agent = s.agent) :
    (s₁.become t a).frees + (s.agent t).pos.frees =
      s.frees + a.pos.frees := by
  rw [frees, agent_become, hagent]
  exact Census.total_update _ s.agent (Finset.mem_univ t) a

/-- The part of the account that a step of an agent changes. -/
theorem ObjectSound.become
    (hs : s.ObjectSound) (hagent : s₁.agent = s.agent)
    (hfreed : s.freed = false) (hfreed₁ : s₁.freed = false)
    (hfits : a.pos.fits t.isNone = true)
    (href : s₁.reference + s.passed + (s.agent t).pos.refs =
      s.reference + s₁.passed + a.pos.refs)
    (hread : s₁.read + (s.agent t).pos.reads = s.read + a.pos.reads)
    (hfrees : (if s₁.reference = 0 then 1 else 0) + (s.agent t).pos.frees =
      (if s.reference = 0 then 1 else 0) + a.pos.frees)
    (hwrite : s₁.write = (s₁.become t a).writer.writes)
    (halone : (s₁.become t a).writer.critical = true →
      ∀ u, ((s₁.become t a).agent u).pos.locked = false)
    (hcopy : s₁.copy = none ↔ (s₁.become t a).writer.released = true)
    (hlatest : (s₁.become t a).writer.critical = false →
      s₁.latest = s₁.copy)
    (hsees : a.pos.Sees s₁.copy)
    (hkeep : ∀ u, u ≠ t → (s.agent u).pos.locked → s₁.copy = s.copy) :
    (s₁.become t a).ObjectSound where
  fits := by
    intro u
    rw [agent_become, hagent]
    by_cases hu : u = t
    · rw [hu, update_self]
      exact hfits
    · rw [update_of_ne hu]
      exact hs.fits u
  reference := by
    intro _
    have htotal := refs_become (t := t) (a := a) hagent
    have hold := hs.reference hfreed
    change s₁.reference = s₁.passed + _
    omega
  read := by
    intro _
    have htotal := reads_become (t := t) (a := a) hagent
    have hold := hs.read hfreed
    change s₁.read = _
    omega
  frees := by
    intro _
    have htotal := frees_become (t := t) (a := a) hagent
    have hold := hs.frees hfreed
    change _ = if s₁.reference = 0 then 1 else 0
    omega
  dead := by
    intro hdead
    rw [show (s₁.become t a).freed = s₁.freed from rfl, hfreed₁] at hdead
    cases hdead
  write := fun _ => hwrite
  alone := halone
  copy := hcopy
  latest := fun _ => hlatest
  sees := by
    intro u
    change Pos.Sees s₁.copy _
    rw [agent_become, hagent]
    by_cases hu : u = t
    · rw [hu, update_self]
      exact hsees
    · rw [update_of_ne hu]
      exact Pos.sees_congr (hs.sees u) (hkeep u hu)

omit [Fintype τ] in
theorem writer_become (hagent : s₁.agent = s.agent) :
    (s₁.become t a).writer = if t = none then a.pos else s.writer := by
  rw [writer, agent_become, hagent]
  split
  · rename_i ht
    rw [ht, update_self]
  · rename_i ht
    rw [update_of_ne (Ne.symm ht)]
    rfl

/-- A step that changes nothing about the writer: its position has the same
place in the lock, and an agent with the read lock had it before. -/
theorem ObjectSound.move
    (hs : s.ObjectSound) (hagent : s₁.agent = s.agent)
    (hfreed : s.freed = false) (hfreed₁ : s₁.freed = false)
    (hwrite : s₁.write = s.write) (hcopy : s₁.copy = s.copy)
    (hlatest : s₁.latest = s.latest) (hfits : a.pos.fits t.isNone = true)
    (href : s₁.reference + s.passed + (s.agent t).pos.refs =
      s.reference + s₁.passed + a.pos.refs)
    (hread : s₁.read + (s.agent t).pos.reads = s.read + a.pos.reads)
    (hfrees : (if s₁.reference = 0 then 1 else 0) + (s.agent t).pos.frees =
      (if s.reference = 0 then 1 else 0) + a.pos.frees)
    (hwriter : t = none → a.pos.writes = (s.agent t).pos.writes ∧
      a.pos.critical = (s.agent t).pos.critical ∧
      a.pos.released = (s.agent t).pos.released)
    (hlocked : a.pos.locked = true → (s.agent t).pos.locked = true ∨
      s.writer.critical = false)
    (hsees : a.pos.Sees s.copy) :
    (s₁.become t a).ObjectSound := by
  have hsame : (s₁.become t a).writer.writes = s.writer.writes ∧
      (s₁.become t a).writer.critical = s.writer.critical ∧
      (s₁.become t a).writer.released = s.writer.released := by
    rw [writer_become hagent]
    split
    · rename_i ht
      obtain ⟨hw, hc, hr⟩ := hwriter ht
      subst ht
      exact ⟨hw, hc, hr⟩
    · exact ⟨rfl, rfl, rfl⟩
  obtain ⟨hw, hc, hr⟩ := hsame
  refine hs.become hagent hfreed hfreed₁ hfits href hread hfrees ?_ ?_ ?_ ?_
    (hcopy ▸ hsees) fun _ _ _ => hcopy
  · rw [hw, hwrite]
    exact hs.write hfreed
  · rw [hc]
    intro hcritical u
    rw [agent_become, hagent]
    by_cases hu : u = t
    · rw [hu, update_self]
      by_contra hl
      rcases hlocked (Bool.not_eq_false _ ▸ hl) with hold | hnot
      · rw [hs.alone hcritical t] at hold
        cases hold
      · rw [hcritical] at hnot
        cases hnot
    · rw [update_of_ne hu]
      exact hs.alone hcritical u
  · rw [hr, hcopy]
    exact hs.copy
  · rw [hc, hcopy, hlatest]
    exact hs.latest hfreed

/-- A step that has nothing to do with the object, which may be freed. -/
theorem ObjectSound.quiet
    (hs : s.ObjectSound) (hagent : s₁.agent = s.agent)
    (hsame : s₁.freed = s.freed ∧ s₁.write = s.write ∧ s₁.copy = s.copy ∧
      s₁.latest = s.latest ∧ s₁.reference = s.reference ∧
      s₁.read = s.read ∧ s₁.passed = s.passed)
    (hfits : a.pos.fits t.isNone = true)
    (hrefs : a.pos.refs = (s.agent t).pos.refs)
    (hreads : a.pos.reads = (s.agent t).pos.reads)
    (hfrees : a.pos.frees = (s.agent t).pos.frees)
    (hwriter : t = none → a.pos.writes = (s.agent t).pos.writes ∧
      a.pos.critical = (s.agent t).pos.critical ∧
      a.pos.released = (s.agent t).pos.released)
    (hlocked : a.pos.locked = true → (s.agent t).pos.locked = true)
    (hsees : a.pos.Sees s.copy) :
    (s₁.become t a).ObjectSound := by
  obtain ⟨hfreed₁, hwrite, hcopy, hlatest, href, hread, hpassed⟩ := hsame
  cases hfreed : s.freed with
  | false =>
      refine hs.move hagent hfreed (hfreed₁.trans hfreed) hwrite hcopy hlatest
        hfits ?_ ?_ ?_ hwriter (fun h => .inl (hlocked h)) hsees
      · rw [href, hpassed, hrefs]
      · rw [hread, hreads]
      · rw [href, hfrees]
  | true =>
      have htotal := refs_become (t := t) (a := a) hagent
      have hreadstotal := reads_become (t := t) (a := a) hagent
      have hfreestotal := frees_become (t := t) (a := a) hagent
      obtain ⟨hp, hr, hd, hf, hw⟩ := hs.dead hfreed
      have halive : (s₁.become t a).freed = true := hfreed₁.trans hfreed
      have hwrites : (s₁.become t a).writer.writes = false := by
        rw [writer_become hagent]
        split
        · rename_i ht
          subst ht
          exact (hwriter rfl).1.trans hw
        · exact hw
      have hnot : (s₁.become t a).writer.critical = false := by
        by_contra hc
        rw [Pos.writes_of_critical (Bool.not_eq_false _ ▸ hc)] at hwrites
        cases hwrites
      have hfalse : (s₁.become t a).freed ≠ false := by
        rw [halive]
        exact Bool.true_eq_false_eq_False
      refine ⟨fun u => ?_, fun h => absurd h hfalse, fun h => absurd h hfalse,
        fun h => absurd h hfalse, fun _ => ⟨?_, ?_, ?_, ?_, hwrites⟩,
        fun h => absurd h hfalse, fun h => ?_, ?_, fun h => absurd h hfalse,
        fun u => ?_⟩
      · rw [agent_become, hagent]
        by_cases hu : u = t
        · rw [hu, update_self]
          exact hfits
        · rw [update_of_ne hu]
          exact hs.fits u
      · exact hpassed.trans hp
      · omega
      · omega
      · omega
      · rw [hnot] at h
        cases h
      · change s₁.copy = none ↔ _
        rw [writer_become hagent, hcopy]
        split
        · rename_i ht
          subst ht
          rw [(hwriter rfl).2.2]
          exact hs.copy
        · exact hs.copy
      · change Pos.Sees s₁.copy _
        rw [agent_become, hagent, hcopy]
        by_cases hu : u = t
        · rw [hu, update_self]
          exact hsees
        · rw [update_of_ne hu]
          exact hs.sees u

omit [DecidableEq τ] in
/-- The last reference is gone when the object is about to be freed. -/
theorem ObjectSound.last
    (hs : s.ObjectSound) (h : (s.agent t).pos.frees = 1) :
    s.freed = false ∧ s.passed = 0 ∧ s.refs = 0 ∧ s.frees = 1 := by
  have hfreed : s.freed = false := hs.alive (t := t) (by omega)
  have hle := s.frees_le t
  have hfrees := hs.frees hfreed
  have href := hs.reference hfreed
  by_cases hzero : s.reference = 0
  · rw [if_pos hzero] at hfrees
    exact ⟨hfreed, by omega, by omega, hfrees⟩
  · rw [if_neg hzero] at hfrees
    omega

/-- The object is freed, and no other agent has anything to do with it. -/
theorem ObjectSound.die
    (hs : s.ObjectSound) (hfrees : (s.agent t).pos.frees = 1)
    (hothers : ∀ u, u ≠ t → (s.agent u).pos ≠ .readerUnlock)
    (hfits : a.pos.fits t.isNone = true)
    (hrefs : a.pos.refs = 0) (hreads : a.pos.reads = 0)
    (hnone : a.pos.frees = 0) (hwrites : a.pos.writes = false)
    (hreader : t ≠ none → s.writer.writes = false)
    (hwriter : t = none → a.pos.released = true ∧ s.writer.released = true)
    (hsees : a.pos.Sees s.copy) :
    (State.become { s with freed := true } t a).ObjectSound := by
  obtain ⟨hfreed, hpassed, htotal, hone⟩ := hs.last hfrees
  have hagent : ({ s with freed := true } : State τ).agent = s.agent := rfl
  have hrefstotal := refs_become (t := t) (a := a) hagent
  have hfreestotal := frees_become (t := t) (a := a) hagent
  have hother : ∀ u, u ≠ t → (s.agent u).pos.reads = 0 := by
    intro u hu
    have hle := s.refs_le u
    have hboth : (s.agent u).pos.frees + (s.agent t).pos.frees ≤ s.frees :=
      Census.add_le_total (w := fun a : Agent => a.pos.frees)
        (Finset.mem_univ u) (Finset.mem_univ t) hu
    exact Pos.reads_eq_zero (by omega) (by omega) (hothers u hu)
  have hreads' : (State.become { s with freed := true } t a).reads = 0 := by
    refine Census.total_eq_zero fun u _ => ?_
    rw [agent_become]
    by_cases hu : u = t
    · rw [hu, update_self]
      exact hreads
    · rw [update_of_ne hu]
      exact hother u hu
  have hw :
      (State.become { s with freed := true } t a).writer.writes = false := by
    rw [writer_become hagent]
    split
    · exact hwrites
    · rename_i ht
      exact hreader ht
  have hnot :
      (State.become { s with freed := true } t a).writer.critical = false := by
    by_contra hc
    rw [Pos.writes_of_critical (Bool.not_eq_false _ ▸ hc)] at hw
    cases hw
  have hfalse : (State.become { s with freed := true } t a).freed ≠ false :=
    Bool.true_eq_false_eq_False
  refine ⟨fun u => ?_, fun h => absurd h hfalse, fun h => absurd h hfalse,
    fun h => absurd h hfalse, fun _ => ⟨hpassed, ?_, hreads', ?_, hw⟩,
    fun h => absurd h hfalse, fun h => ?_, ?_, fun h => absurd h hfalse,
    fun u => ?_⟩
  · rw [agent_become]
    by_cases hu : u = t
    · rw [hu, update_self]
      exact hfits
    · rw [update_of_ne hu]
      exact hs.fits u
  · omega
  · omega
  · rw [hnot] at h
    cases h
  · change s.copy = none ↔ _
    rw [writer_become hagent]
    split
    · rename_i ht
      obtain ⟨ha, hold⟩ := hwriter ht
      rw [ha, hs.copy, hold]
    · exact hs.copy
  · change Pos.Sees s.copy _
    rw [agent_become]
    by_cases hu : u = t
    · rw [hu, update_self]
      exact hsees
    · rw [update_of_ne hu]
      exact hs.sees u

/-! ## Steps -/

omit [Fintype τ] [DecidableEq τ] in
theorem onObject_eq
    {s₂ s' : State τ} (h : s.onObject s₂ = .next s') :
    s.freed = false ∧ s' = s₂ := by
  rw [onObject] at h
  split at h
  · cases h
  · rename_i hfreed
    cases h
    exact ⟨Bool.not_eq_true _ ▸ hfreed, rfl⟩

section Goto

variable {p q : Pos} (hs : s.ObjectSound) (hp : (s.agent t).pos = p)

include hs hp

omit [DecidableEq τ] in
theorem ObjectSound.fits_goto
    (hreader : q.ofReader = true → p.ofReader = true)
    (hwriter : q.ofWriter = true → p.ofWriter = true) :
    q.fits t.isNone = true :=
  Pos.fits_of (hp ▸ hs.fits t) hreader hwriter

/-- A step that has nothing to do with the object. -/
theorem ObjectSound.stay
    (hagent : s₁.agent = s.agent)
    (hsame : s₁.freed = s.freed ∧ s₁.write = s.write ∧ s₁.copy = s.copy ∧
      s₁.latest = s.latest ∧ s₁.reference = s.reference ∧
      s₁.read = s.read ∧ s₁.passed = s.passed)
    (hpq : Pos.Same p q) (hfits : q.fits t.isNone = true)
    (hlocked : q.locked = true → p.locked = true) (hsees : q.Sees s.copy) :
    (s₁.goto t q).ObjectSound := by
  subst hp
  exact hs.quiet hagent hsame hfits hpq.refs hpq.reads hpq.frees
    (fun _ => ⟨hpq.writes, hpq.critical, hpq.released⟩) hlocked hsees

/-- A step that changes a counter. -/
theorem ObjectSound.count
    (hagent : s₁.agent = s.agent) (hfreed : s.freed = false)
    (hsame : s₁.freed = s.freed ∧ s₁.write = s.write ∧ s₁.copy = s.copy ∧
      s₁.latest = s.latest)
    (hfits : a.pos.fits t.isNone = true)
    (href : s₁.reference + s.passed + p.refs =
      s.reference + s₁.passed + a.pos.refs)
    (hread : s₁.read + p.reads = s.read + a.pos.reads)
    (hfrees : (if s₁.reference = 0 then 1 else 0) + p.frees =
      (if s.reference = 0 then 1 else 0) + a.pos.frees)
    (hwriter : t = none → a.pos.writes = p.writes ∧
      a.pos.critical = p.critical ∧ a.pos.released = p.released)
    (hlocked : a.pos.locked = true → p.locked = true ∨
      s.writer.critical = false)
    (hsees : a.pos.Sees s.copy) : (s₁.become t a).ObjectSound := by
  subst hp
  obtain ⟨hfreed₁, hwrite, hcopy, hlatest⟩ := hsame
  exact hs.move hagent hfreed (hfreed₁.trans hfreed) hwrite hcopy hlatest hfits
    href hread hfrees hwriter hlocked hsees

omit [DecidableEq τ] in
theorem ObjectSound.reference_pos
    (hrefs : 0 < p.refs) (hfreed : s.freed = false) :
    0 < s.reference := by
  subst hp
  have hle := s.refs_le t
  have href := hs.reference hfreed
  omega

omit [DecidableEq τ] in
/-- The writer is not in its critical section while an agent has the read
lock. -/
theorem ObjectSound.not_critical (hlocked : p.locked = true) :
    s.writer.critical = false := by
  subst hp
  by_contra hc
  rw [hs.alone (Bool.not_eq_false _ ▸ hc) t] at hlocked
  cases hlocked

omit [DecidableEq τ] in
theorem ObjectSound.ne_none (hreader : p.ofReader = true) : t ≠ none := by
  subst hp
  have h := Pos.eq_false_of_ofReader (hs.fits t) hreader
  intro ht
  rw [ht] at h
  cases h

omit [DecidableEq τ] in
theorem ObjectSound.eq_none (hwriter : p.ofWriter = true) : t = none := by
  subst hp
  exact Option.isNone_iff_eq_none.mp
    (Pos.eq_true_of_ofWriter (hs.fits t) hwriter)

end Goto

/-- The positions to which a reader goes when it has released the object. -/
theorem pos_afterRelease (a : Agent) :
    a.afterRelease.pos = .gone ∨ ∃ c, a.afterRelease.pos = .dec c .gone := by
  cases hlast : a.last with
  | none =>
      exact .inl (by simp [Agent.afterRelease, hlast, releasecopy, Next.pos])
  | some c => exact .inr ⟨c, by simp [Agent.afterRelease, hlast, releasecopy]⟩

/-- The positions to which a reader goes when it has read. -/
theorem pos_afterCopy (a : Agent) (ret : Option ℕ) :
    (a.afterCopy ret).pos = .ready ∨ (∃ c, (a.afterCopy ret).pos = .use c) ∨
      ∃ c n, (a.afterCopy ret).pos = .dec c n ∧ n ≠ .gone := by
  unfold Agent.afterCopy
  split
  · cases ret with
    | none => exact .inl rfl
    | some c => exact .inr (.inr ⟨c, .ready, rfl, by decide⟩)
  · cases a.last with
    | none =>
        cases ret with
        | none => exact .inl rfl
        | some c => exact .inr (.inl ⟨c, rfl⟩)
    | some d =>
        cases ret with
        | none => exact .inr (.inr ⟨d, .ready, rfl, by decide⟩)
        | some c => exact .inr (.inr ⟨d, .use c, rfl, fun h => by cases h⟩)

/-! ### The read lock -/

section Reading

variable {s' : State τ} (hs : s.ObjectSound)

include hs

theorem ObjectSound.rlock
    {j : Reading} (hp : (s.agent t).pos = .rlock j)
    (h : s.stepGo t = .next s') : s'.ObjectSound := by
  rw [stepGo, hp] at h
  obtain ⟨-, rfl⟩ := onObject_eq h
  split
  · exact hs
  · refine hs.stay hp rfl ⟨rfl, rfl, rfl, rfl, rfl, rfl, rfl⟩
      ⟨rfl, rfl, rfl, rfl, rfl, rfl⟩ (hs.fits_goto hp ?_ ?_) ?_ trivial
    · cases j <;> exact id
    · exact id
    · exact id

theorem ObjectSound.rinc
    {j : Reading} (hp : (s.agent t).pos = .rinc j)
    (h : s.stepGo t = .next s') : s'.ObjectSound := by
  rw [stepGo, hp] at h
  obtain ⟨hfreed, rfl⟩ := onObject_eq h
  have hread : s.read + 1 + 0 = s.read + 1 := by ring
  exact hs.count hp rfl hfreed ⟨rfl, rfl, rfl, rfl⟩
    (hs.fits_goto hp (by cases j <;> exact id) id) rfl hread rfl
    (fun _ => ⟨rfl, rfl, rfl⟩) (fun hl => by cases hl) trivial

theorem ObjectSound.rcheck
    {j : Reading} (hp : (s.agent t).pos = .rcheck j)
    (h : s.stepGo t = .next s') : s'.ObjectSound := by
  rw [stepGo, hp] at h
  obtain ⟨hfreed, rfl⟩ := onObject_eq h
  split
  · refine hs.stay hp rfl ⟨rfl, rfl, rfl, rfl, rfl, rfl, rfl⟩
      ⟨rfl, rfl, rfl, rfl, rfl, rfl⟩ (hs.fits_goto hp ?_ id) id trivial
    cases j <;> exact id
  · rename_i hwrite
    have hnot : s.writer.critical = false := by
      by_contra hc
      have hwrites := Pos.writes_of_critical (Bool.not_eq_false _ ▸ hc)
      exact hwrite ((hs.write hfreed).trans hwrites)
    have hsees : (j.start s.latest).Sees s.copy := by
      cases j with
      | grab => trivial
      | copy => exact hs.latest hfreed hnot
      | release => trivial
    refine hs.count hp rfl hfreed ⟨rfl, rfl, rfl, rfl⟩
      (hs.fits_goto hp ?_ ?_) ?_ ?_ ?_ (fun _ => ?_) (fun _ => .inr hnot) hsees
    · cases j <;> exact id
    · cases j <;> exact id
    · cases j <;> rfl
    · cases j <;> rfl
    · cases j <;> rfl
    · cases j <;> exact ⟨rfl, rfl, rfl⟩

theorem ObjectSound.rback
    {j : Reading} (hp : (s.agent t).pos = .rback j)
    (h : s.stepGo t = .next s') : s'.ObjectSound := by
  rw [stepGo, hp] at h
  obtain ⟨hfreed, rfl⟩ := onObject_eq h
  have hread : s.read - 1 + 1 = s.read + 0 := by ring
  exact hs.count hp rfl hfreed ⟨rfl, rfl, rfl, rfl⟩
    (hs.fits_goto hp (by cases j <;> exact id) id) rfl hread rfl
    (fun _ => ⟨rfl, rfl, rfl⟩) (fun hl => by cases hl) trivial

/-! ### `stm_grab` -/

theorem ObjectSound.grabInc
    (hp : (s.agent t).pos = .grabInc) (h : s.stepGo t = .next s') :
    s'.ObjectSound := by
  rw [stepGo, hp] at h
  obtain ⟨hfreed, rfl⟩ := onObject_eq h
  have hpos := hs.reference_pos hp Nat.one_pos hfreed
  refine hs.count hp rfl hfreed ⟨rfl, rfl, rfl, rfl⟩
    (hs.fits_goto hp id id) ?_ rfl ?_ (fun _ => ⟨rfl, rfl, rfl⟩)
    (fun hl => .inl hl) hpos
  · change s.reference + 1 + s.passed + 1 = s.reference + s.passed + 2
    ring
  · rw [if_neg (by change s.reference + 1 ≠ 0; omega), if_neg hpos.ne']
    rfl

theorem ObjectSound.grabUnlock
    {ref : ℤ} (hp : (s.agent t).pos = .grabUnlock ref)
    (h : s.stepGo t = .next s') : s'.ObjectSound := by
  rw [stepGo, hp] at h
  simp only at h
  split at h
  · cases h
  · rename_i hfreed
    split at h
    · cases h
    · cases h
      have hread : s.read - 1 + 1 = s.read + 0 := by ring
      refine hs.count hp rfl (Bool.not_eq_true _ ▸ hfreed)
        ⟨rfl, rfl, rfl, rfl⟩ (hs.fits_goto hp (fun hr => by cases hr) id) ?_
        hread rfl (fun _ => ⟨rfl, rfl, rfl⟩) (fun hl => by cases hl) trivial
      change s.reference + s.passed + 2 = s.reference + (s.passed + 1 : ℕ) + 1
      push_cast
      ring

/-! ### `stm_copy` -/

theorem ObjectSound.load
    {seen : Option ℕ} (hp : (s.agent t).pos = .load seen)
    (h : s.stepGo t = .next s') : s'.ObjectSound := by
  rw [stepGo, hp] at h
  obtain ⟨hfreed, rfl⟩ := onObject_eq h
  have hseen : seen = s.copy := by
    have hsees := hs.sees t
    rw [hp] at hsees
    exact hsees
  cases hcopy : s.copy with
  | none =>
      exact hs.stay hp rfl ⟨rfl, rfl, rfl, rfl, rfl, rfl, rfl⟩
        ⟨rfl, rfl, rfl, rfl, rfl, rfl⟩ (hs.fits_goto hp id id) id
        (hcopy.symm.trans hseen.symm)
  | some c =>
      exact hs.stay hp rfl ⟨rfl, rfl, rfl, rfl, rfl, rfl, rfl⟩
        ⟨rfl, rfl, rfl, rfl, rfl, rfl⟩ (hs.fits_goto hp id id) id
        ⟨hseen.trans hcopy, hcopy⟩

theorem ObjectSound.copyInc
    {seen : Option ℕ} {c : ℕ} (hp : (s.agent t).pos = .copyInc seen c)
    (h : s.stepGo t = .next s') : s'.ObjectSound := by
  have hseen : seen = some c := by
    have hsees := hs.sees t
    rw [hp] at hsees
    exact hsees.1
  rw [stepGo, hp] at h
  simp only [stepCopyInc] at h
  split at h
  · cases h
  · split at h
    · cases h
    · cases h
      exact hs.stay hp rfl ⟨rfl, rfl, rfl, rfl, rfl, rfl, rfl⟩
        ⟨rfl, rfl, rfl, rfl, rfl, rfl⟩ (hs.fits_goto hp id id) id hseen.symm

theorem ObjectSound.copyUnlock
    {seen ret : Option ℕ} (hp : (s.agent t).pos = .copyUnlock seen ret)
    (h : s.stepGo t = .next s') : s'.ObjectSound := by
  rw [stepGo, hp] at h
  obtain ⟨hfreed, rfl⟩ := onObject_eq h
  have hread : s.read - 1 + 1 = s.read + 0 := by ring
  have hne := hs.ne_none hp rfl
  rcases pos_afterCopy (s.agent t) ret with hq | ⟨c, hq⟩ | ⟨c, n, hq, hn⟩
  · refine hs.count hp rfl hfreed ⟨rfl, rfl, rfl, rfl⟩ ?_ ?_ ?_ ?_
      (fun ht => absurd ht hne) ?_ ?_ <;> rw [hq]
    · exact hs.fits_goto hp (fun hr => by cases hr) id
    · rfl
    · exact hread
    · rfl
    · exact fun hl => by cases hl
    · trivial
  · refine hs.count hp rfl hfreed ⟨rfl, rfl, rfl, rfl⟩ ?_ ?_ ?_ ?_
      (fun ht => absurd ht hne) ?_ ?_ <;> rw [hq]
    · exact hs.fits_goto hp (fun _ => rfl) id
    · rfl
    · exact hread
    · rfl
    · exact fun hl => by cases hl
    · trivial
  · refine hs.count hp rfl hfreed ⟨rfl, rfl, rfl, rfl⟩ ?_ ?_ ?_ ?_
      (fun ht => absurd ht hne) ?_ ?_ <;> rw [hq]
    · exact hs.fits_goto hp (fun _ => rfl) id
    · cases n with
      | gone => exact absurd rfl hn
      | ready | use d => rfl
    · exact hread
    · rfl
    · exact fun hl => by cases hl
    · trivial

/-! ### `stm_releasereader` -/

theorem ObjectSound.readerDec
    (hp : (s.agent t).pos = .readerDec) (h : s.stepGo t = .next s') :
    s'.ObjectSound := by
  rw [stepGo, hp] at h
  obtain ⟨hfreed, rfl⟩ := onObject_eq h
  have hpos := hs.reference_pos hp Nat.one_pos hfreed
  have hne := hs.ne_none hp rfl
  split
  · rename_i hzero
    refine hs.count hp rfl hfreed ⟨rfl, rfl, rfl, rfl⟩
      (hs.fits_goto hp (fun _ => rfl) id) ?_ rfl ?_
      (fun ht => absurd ht hne) (fun _ => .inl rfl) trivial
    · change s.reference - 1 + s.passed + 1 = s.reference + s.passed + 0
      ring
    · rw [if_pos hzero, if_neg hpos.ne']
      rfl
  · rename_i hzero
    refine hs.count hp rfl hfreed ⟨rfl, rfl, rfl, rfl⟩
      (hs.fits_goto hp (fun _ => rfl) id) ?_ rfl ?_
      (fun ht => absurd ht hne) (fun _ => .inl rfl) trivial
    · change s.reference - 1 + s.passed + 1 = s.reference + s.passed + 0
      ring
    · rw [if_neg hzero, if_neg hpos.ne']
      rfl

theorem ObjectSound.readerUnlock
    (hp : (s.agent t).pos = .readerUnlock) (h : s.stepGo t = .next s') :
    s'.ObjectSound := by
  rw [stepGo, hp] at h
  obtain ⟨hfreed, rfl⟩ := onObject_eq h
  have hread : s.read - 1 + 1 = s.read + 0 := by ring
  have hne := hs.ne_none hp rfl
  rcases pos_afterRelease (s.agent t) with hq | ⟨c, hq⟩
  · refine hs.count hp rfl hfreed ⟨rfl, rfl, rfl, rfl⟩ ?_ ?_ ?_ ?_
      (fun ht => absurd ht hne) ?_ ?_ <;> rw [hq]
    · exact hs.fits_goto hp (fun hr => by cases hr) id
    · rfl
    · exact hread
    · rfl
    · exact fun hl => by cases hl
    · trivial
  · refine hs.count hp rfl hfreed ⟨rfl, rfl, rfl, rfl⟩ ?_ ?_ ?_ ?_
      (fun ht => absurd ht hne) ?_ ?_ <;> rw [hq]
    · exact hs.fits_goto hp (fun _ => rfl) id
    · rfl
    · exact hread
    · rfl
    · exact fun hl => by cases hl
    · trivial

omit [DecidableEq τ] in
/-- The last reader has the object to itself. -/
theorem ObjectSound.writer_of_readerFree
    (hp : (s.agent t).pos = .readerFree) :
    s.writer.writes = false ∧ s.copy = none := by
  obtain ⟨-, -, hrefs, -⟩ := hs.last (t := t) (by rw [hp]; rfl)
  have hle := s.refs_le none
  have hzero : s.writer.refs = 0 := by
    change s.writer.refs ≤ _ at hle
    omega
  have hreleased := Pos.released_of_refs (hs.fits none) hzero
  have hnot := hs.not_critical hp rfl
  refine ⟨?_, hs.copy.mpr hreleased⟩
  cases hw : s.writer with
  | wwait j =>
      rw [hw] at hzero
      cases hzero
  | _ =>
      rw [hw] at hnot
      first | rfl | cases hnot

theorem ObjectSound.readerFree
    (hp : (s.agent t).pos = .readerFree)
    (hothers : ∀ u, u ≠ t → (s.agent u).pos ≠ .readerUnlock)
    (h : s.stepGo t = .next s') : s'.ObjectSound := by
  rw [stepGo, hp] at h
  simp only at h
  have hne := hs.ne_none hp rfl
  have hwriter := hs.writer_of_readerFree hp
  split at h
  · cases h
  · split at h
    · cases h
    · cases h
      rcases pos_afterRelease (s.agent t) with hq | ⟨c, hq⟩
      · refine hs.die (by rw [hp]; rfl) hothers ?_ ?_ ?_ ?_ ?_
          (fun _ => hwriter.1) (fun ht => absurd ht hne) ?_ <;> rw [hq]
        · exact hs.fits_goto hp (fun hr => by cases hr) id
        · rfl
        · rfl
        · rfl
        · rfl
        · trivial
      · refine hs.die (by rw [hp]; rfl) hothers ?_ ?_ ?_ ?_ ?_
          (fun _ => hwriter.1) (fun ht => absurd ht hne) ?_ <;> rw [hq]
        · exact hs.fits_goto hp (fun _ => rfl) id
        · rfl
        · rfl
        · rfl
        · rfl
        · trivial

end Reading

/-! ### `stm_releasecopy` -/

section Writing

variable {s' : State τ} (hs : s.ObjectSound)

include hs

theorem ObjectSound.use
    {c : ℕ} (hp : (s.agent t).pos = .use c) (h : s.stepGo t = .next s') :
    s'.ObjectSound := by
  rw [stepGo, hp] at h
  simp only at h
  split at h
  · cases h
  · cases h
    exact hs.stay hp rfl ⟨rfl, rfl, rfl, rfl, rfl, rfl, rfl⟩
      ⟨rfl, rfl, rfl, rfl, rfl, rfl⟩
      (hs.fits_goto hp (fun hr => by cases hr) id) id trivial

theorem ObjectSound.dec
    {c : ℕ} {n : Next} (hp : (s.agent t).pos = .dec c n)
    (h : s.stepGo t = .next s') : s'.ObjectSound := by
  have hne : n ≠ .ready → t ≠ none := fun hn =>
    hs.ne_none hp (by cases n <;> first | rfl | exact absurd rfl hn)
  rw [stepGo, hp] at h
  simp only [decCopy] at h
  split at h
  · cases h
  · cases h
    split
    · refine hs.stay hp rfl ⟨rfl, rfl, rfl, rfl, rfl, rfl, rfl⟩
        ⟨?_, rfl, rfl, rfl, rfl, rfl⟩ (hs.fits_goto hp ?_ id) id trivial
      · cases n <;> rfl
      · cases n <;> exact id
    · refine hs.quiet rfl ⟨rfl, rfl, rfl, rfl, rfl, rfl, rfl⟩
        (hs.fits_goto hp ?_ ?_) ?_ ?_ ?_ (fun ht => ?_) ?_ ?_ <;>
        simp only [hp]
      · cases n <;> first | exact id | exact fun hr => by cases hr
      · cases n <;> exact id
      · cases n <;> rfl
      · cases n <;> rfl
      · cases n <;> rfl
      · cases n with
        | ready => exact ⟨rfl, rfl, rfl⟩
        | gone => exact absurd ht (hne (by decide))
        | use d => exact absurd ht (hne fun h => by cases h)
      · cases n <;> exact id
      · cases n <;> trivial

theorem ObjectSound.free
    {c : ℕ} {n : Next} (hp : (s.agent t).pos = .free c n)
    (h : s.stepGo t = .next s') : s'.ObjectSound := by
  have hne : n ≠ .ready → t ≠ none := fun hn =>
    hs.ne_none hp (by cases n <;> first | rfl | exact absurd rfl hn)
  rw [stepGo, hp] at h
  simp only [freeCopy] at h
  split at h
  · cases h
  · cases h
    refine hs.quiet rfl ⟨rfl, rfl, rfl, rfl, rfl, rfl, rfl⟩
      (hs.fits_goto hp ?_ ?_) ?_ ?_ ?_ (fun ht => ?_) ?_ ?_ <;>
      simp only [hp]
    · cases n <;> first | exact id | exact fun hr => by cases hr
    · cases n <;> exact id
    · cases n <;> rfl
    · cases n <;> rfl
    · cases n <;> rfl
    · cases n with
      | ready => exact ⟨rfl, rfl, rfl⟩
      | gone => exact absurd ht (hne (by decide))
      | use d => exact absurd ht (hne fun h => by cases h)
    · cases n <;> exact id
    · cases n <;> trivial

/-! ### The write lock -/

/-- A step of the writer at a position of its own. -/
theorem ObjectSound.write_move
    {p q : Pos} (hp : (s.agent t).pos = p) (hown : p.ofWriter = true)
    (hagent : s₁.agent = s.agent) (hfreed : s.freed = false)
    (hfreed₁ : s₁.freed = false) (hq : q.ofReader = false)
    (href : s₁.reference + s.passed + p.refs =
      s.reference + s₁.passed + q.refs)
    (hread : s₁.read + p.reads = s.read + q.reads)
    (hfrees : (if s₁.reference = 0 then 1 else 0) + p.frees =
      (if s.reference = 0 then 1 else 0) + q.frees)
    (hwrite : s₁.write = q.writes)
    (halone : q.critical = true → p.critical = true ∨ s.read = 0)
    (hlocked : q.locked = false) (hcopy : s₁.copy = none ↔ q.released = true)
    (hlatest : q.critical = false → s₁.latest = s₁.copy)
    (hsees : q.Sees s₁.copy) (hkeep : p.critical = true ∨ s₁.copy = s.copy) :
    (s₁.goto t q).ObjectSound := by
  obtain rfl := hs.eq_none hp hown
  have hw : s.writer = p := hp
  have hq' : (s₁.goto none q).writer = q := by
    rw [goto, writer_become hagent, if_pos rfl]
  have hreads : s.read = 0 → ∀ u, (s.agent u).pos.locked = false := by
    intro hzero u
    have hle := s.reads_le u
    have htotal := hs.read hfreed
    by_contra hl
    have hone := Pos.reads_of_locked (Bool.not_eq_false _ ▸ hl)
    omega
  refine hs.become hagent hfreed hfreed₁ ?_ ?_ ?_ ?_ ?_ ?_ ?_ ?_ hsees ?_
  · change q.fits true = true
    simp [Pos.fits, hq]
  · rw [hp]
    exact href
  · rw [hp]
    exact hread
  · rw [hp]
    exact hfrees
  · exact hwrite.trans (congrArg Pos.writes hq').symm
  · intro hc u
    have hold : ∀ u, (s.agent u).pos.locked = false := by
      rcases halone ((congrArg Pos.critical hq').symm.trans hc) with hc | hzero
      · exact hs.alone (hw ▸ hc)
      · exact hreads hzero
    rw [agent_become, hagent]
    by_cases hu : u = none
    · rw [hu, update_self]
      exact hlocked
    · rw [update_of_ne hu]
      exact hold u
  · rw [← congrArg Pos.released hq'] at hcopy
    exact hcopy
  · intro hc
    exact hlatest ((congrArg Pos.critical hq').symm.trans hc)
  · intro u _ hu
    rcases hkeep with hc | hsame
    · rw [hs.alone (hw ▸ hc) u] at hu
      cases hu
    · exact hsame

theorem ObjectSound.wlock
    {j : Writing} (hp : (s.agent t).pos = .wlock j)
    (h : s.stepGo t = .next s') : s'.ObjectSound := by
  obtain rfl := hs.eq_none hp rfl
  have hw : s.writer = .wlock j := hp
  rw [stepGo, hp] at h
  obtain ⟨hfreed, rfl⟩ := onObject_eq h
  split
  · exact hs
  · refine hs.write_move hp rfl rfl hfreed hfreed rfl rfl rfl rfl rfl
      (fun hc => by cases hc) rfl ?_ (fun _ => ?_) trivial (.inr rfl)
    · have hcopy := hs.copy
      rw [hw] at hcopy
      exact hcopy
    · exact hs.latest hfreed (by rw [hw]; rfl)

theorem ObjectSound.wwait
    {j : Writing} (hp : (s.agent t).pos = .wwait j)
    (h : s.stepGo t = .next s') : s'.ObjectSound := by
  obtain rfl := hs.eq_none hp rfl
  have hw : s.writer = .wwait j := hp
  have hcopy := hs.copy
  rw [hw] at hcopy
  rw [stepGo, hp] at h
  obtain ⟨hfreed, rfl⟩ := onObject_eq h
  have hwrite := hs.write hfreed
  rw [hw] at hwrite
  split
  · exact hs
  · rename_i hzero
    have hread : s.read = 0 := not_not.mp hzero
    cases j with
    | update c | release =>
        exact hs.write_move hp rfl rfl hfreed hfreed rfl rfl rfl rfl hwrite
          (fun _ => .inr hread) rfl hcopy (fun hc => by cases hc) trivial
          (.inr rfl)

omit [DecidableEq τ] in
/-- The facts about the flag and the copy at a position of the writer. -/
theorem ObjectSound.at_writer
    {p : Pos} (hp : (s.agent t).pos = p) (hown : p.ofWriter = true) :
    (s.freed = false → s.write = p.writes) ∧
      (s.copy = none ↔ p.released = true) := by
  obtain rfl := hs.eq_none hp hown
  have hw : s.writer = p := hp
  subst hw
  exact ⟨hs.write, hs.copy⟩

/-! ### `stm_update` and `stm_release` -/

theorem ObjectSound.swap
    {c : ℕ} (hp : (s.agent t).pos = .swap c) (h : s.stepGo t = .next s') :
    s'.ObjectSound := by
  obtain ⟨hwrite, -⟩ := hs.at_writer hp rfl
  rw [stepGo, hp] at h
  obtain ⟨hfreed, rfl⟩ := onObject_eq h
  exact hs.write_move hp rfl rfl hfreed hfreed rfl rfl rfl rfl (hwrite hfreed)
    (fun _ => .inl rfl) rfl
    (iff_of_false (Option.some_ne_none c) Bool.false_ne_true)
    (fun hc => by cases hc) trivial (.inl rfl)

theorem ObjectSound.updateUnlock
    {old : Option ℕ} (hp : (s.agent t).pos = .updateUnlock old)
    (h : s.stepGo t = .next s') : s'.ObjectSound := by
  obtain ⟨-, hcopy⟩ := hs.at_writer hp rfl
  rw [stepGo, hp] at h
  obtain ⟨hfreed, rfl⟩ := onObject_eq h
  cases old with
  | none | some c =>
      exact hs.write_move hp rfl rfl hfreed hfreed rfl rfl rfl rfl rfl
        (fun _ => .inl rfl) rfl hcopy (fun _ => rfl) trivial (.inr rfl)

theorem ObjectSound.lastDec
    (hp : (s.agent t).pos = .lastDec) (h : s.stepGo t = .next s') :
    s'.ObjectSound := by
  have hclear : ∀ {s₁ : State τ}, s₁.agent = s.agent →
      (s₁.freed = s.freed ∧ s₁.write = s.write ∧ s₁.copy = s.copy ∧
        s₁.latest = s.latest ∧ s₁.reference = s.reference ∧
        s₁.read = s.read ∧ s₁.passed = s.passed) →
      (s₁.goto t .clear).ObjectSound := fun hagent hsame =>
    hs.stay hp hagent hsame ⟨rfl, rfl, rfl, rfl, rfl, rfl⟩
      (hs.fits_goto hp id id) id trivial
  rw [stepGo, hp] at h
  simp only at h
  split at h
  · cases h
  · split at h
    · cases h
      exact hclear rfl ⟨rfl, rfl, rfl, rfl, rfl, rfl, rfl⟩
    · simp only [decCopy] at h
      split at h
      · cases h
      · cases h
        split
        · exact hs.stay hp rfl ⟨rfl, rfl, rfl, rfl, rfl, rfl, rfl⟩
            ⟨rfl, rfl, rfl, rfl, rfl, rfl⟩ (hs.fits_goto hp id id) id trivial
        · exact hclear rfl ⟨rfl, rfl, rfl, rfl, rfl, rfl, rfl⟩

theorem ObjectSound.lastFree
    {c : ℕ} (hp : (s.agent t).pos = .lastFree c)
    (h : s.stepGo t = .next s') : s'.ObjectSound := by
  rw [stepGo, hp] at h
  simp only [freeCopy] at h
  split at h
  · cases h
  · cases h
    exact hs.stay hp rfl ⟨rfl, rfl, rfl, rfl, rfl, rfl, rfl⟩
      ⟨rfl, rfl, rfl, rfl, rfl, rfl⟩ (hs.fits_goto hp id id) id trivial

theorem ObjectSound.clear
    (hp : (s.agent t).pos = .clear) (h : s.stepGo t = .next s') :
    s'.ObjectSound := by
  obtain ⟨hwrite, -⟩ := hs.at_writer hp rfl
  rw [stepGo, hp] at h
  obtain ⟨hfreed, rfl⟩ := onObject_eq h
  exact hs.write_move hp rfl rfl hfreed hfreed rfl rfl rfl rfl (hwrite hfreed)
    (fun _ => .inl rfl) rfl ⟨fun _ => rfl, fun _ => rfl⟩
    (fun hc => by cases hc) trivial (.inl rfl)

theorem ObjectSound.writerDec
    (hp : (s.agent t).pos = .writerDec) (h : s.stepGo t = .next s') :
    s'.ObjectSound := by
  obtain ⟨hwrite, hcopy⟩ := hs.at_writer hp rfl
  rw [stepGo, hp] at h
  obtain ⟨hfreed, rfl⟩ := onObject_eq h
  have hpos := hs.reference_pos hp Nat.one_pos hfreed
  have href : s.reference - 1 + s.passed + 1 = s.reference + s.passed + 0 := by
    ring
  split
  · rename_i hmore
    refine hs.write_move hp rfl rfl hfreed hfreed rfl href rfl ?_
      (hwrite hfreed) (fun _ => .inl rfl) rfl hcopy (fun hc => by cases hc)
      trivial (.inl rfl)
    rw [if_neg (show s.reference - 1 ≠ 0 by omega), if_neg hpos.ne']
    rfl
  · rename_i hmore
    refine hs.write_move hp rfl rfl hfreed hfreed rfl href rfl ?_
      (hwrite hfreed) (fun _ => .inl rfl) rfl hcopy (fun hc => by cases hc)
      trivial (.inl rfl)
    rw [if_pos (show s.reference - 1 = 0 by omega), if_neg hpos.ne']
    rfl

theorem ObjectSound.writerUnlock
    (hp : (s.agent t).pos = .writerUnlock) (h : s.stepGo t = .next s') :
    s'.ObjectSound := by
  obtain ⟨-, hcopy⟩ := hs.at_writer hp rfl
  rw [stepGo, hp] at h
  obtain ⟨hfreed, rfl⟩ := onObject_eq h
  exact hs.write_move hp rfl rfl hfreed hfreed rfl rfl rfl rfl rfl
    (fun _ => .inl rfl) rfl hcopy (fun _ => rfl) trivial (.inr rfl)

/-- The writer frees the object: it has the lock, so no reader is about to
release it. -/
theorem ObjectSound.writerFree
    (hp : (s.agent t).pos = .writerFree) (h : s.stepGo t = .next s') :
    s'.ObjectSound := by
  obtain rfl := hs.eq_none hp rfl
  have hw : s.writer = .writerFree := hp
  have halone := hs.alone (by rw [hw]; rfl)
  rw [stepGo, hp] at h
  obtain ⟨-, rfl⟩ := onObject_eq h
  have hothers : ∀ u, u ≠ none → (s.agent u).pos ≠ .readerUnlock := by
    intro u _ hu
    have hnot := halone u
    rw [hu] at hnot
    cases hnot
  exact hs.die (by rw [hp]; rfl) hothers rfl rfl rfl rfl rfl
    (fun ht => absurd rfl ht) (fun _ => ⟨rfl, by rw [hw]; rfl⟩) trivial

/-! ### All steps -/

theorem ObjectSound.call
    {api : Api} (hp : (s.agent t).pos = .ready)
    (h : s.stepCall t api = .next s') : s'.ObjectSound := by
  have hmove : ∀ {s₁ : State τ} {q : Pos}, s₁.agent = s.agent →
      (s₁.freed = s.freed ∧ s₁.write = s.write ∧ s₁.copy = s.copy ∧
        s₁.latest = s.latest ∧ s₁.reference = s.reference ∧
        s₁.read = s.read ∧ s₁.passed = s.passed) →
      Pos.Same .ready q → q.fits t.isNone = true → q.locked = false →
      q.Sees s.copy → (s₁.goto t q).ObjectSound :=
    fun hagent hsame hq hfits hlocked hsees =>
      hs.stay hp hagent hsame hq hfits
        (fun hl => by rw [hlocked] at hl; cases hl) hsees
  cases api with
  | update =>
      cases t with
      | none =>
          cases h
          exact hmove rfl ⟨rfl, rfl, rfl, rfl, rfl, rfl, rfl⟩
            ⟨rfl, rfl, rfl, rfl, rfl, rfl⟩ rfl rfl trivial
      | some i => cases h
  | release =>
      cases t with
      | none =>
          simp only [stepCall] at h
          split at h
          · cases h
          · split at h
            · cases h
            · cases h
              exact hmove rfl ⟨rfl, rfl, rfl, rfl, rfl, rfl, rfl⟩
                ⟨rfl, rfl, rfl, rfl, rfl, rfl⟩ rfl rfl trivial
      | some i => cases h
  | grab =>
      cases t with
      | none | some i =>
          cases h
          exact hmove rfl ⟨rfl, rfl, rfl, rfl, rfl, rfl, rfl⟩
            ⟨rfl, rfl, rfl, rfl, rfl, rfl⟩ rfl rfl trivial
  | read | delete =>
      cases t with
      | none => cases h
      | some i =>
          cases h
          exact hmove rfl ⟨rfl, rfl, rfl, rfl, rfl, rfl, rfl⟩
            ⟨rfl, rfl, rfl, rfl, rfl, rfl⟩ rfl rfl trivial
  | box => cases t <;> cases h

/-- A reference that was passed on belongs to its box now. -/
theorem ObjectSound.box
    {a : Act} (hp : (s.agent t).pos = .gone) (h : s.stepBox t a = .next s') :
    s'.ObjectSound := by
  cases t with
  | none => cases h
  | some i =>
      simp only [stepBox] at h
      split at h
      · rename_i hbox
        cases h
        have hfreed : s.freed = false := by
          by_contra hfreed
          have hdead := hs.dead (Bool.not_eq_false _ ▸ hfreed)
          omega
        refine hs.count hp rfl hfreed ⟨rfl, rfl, rfl, rfl⟩ rfl ?_ rfl rfl
          (fun ht => by cases ht) (fun hl => by cases hl) trivial
        change s.reference + s.passed + 0 =
          s.reference + (s.passed - 1 : ℕ) + 1
        rw [Nat.cast_sub hbox.2]
        push_cast
        ring
      · cases h

theorem ObjectSound.go
    (hothers : (s.agent t).pos = .readerFree →
      ∀ u, u ≠ t → (s.agent u).pos ≠ .readerUnlock)
    (h : s.stepGo t = .next s') : s'.ObjectSound := by
  cases hp : (s.agent t).pos with
  | ready | gone =>
      rw [stepGo, hp] at h
      cases h
  | rlock j => exact hs.rlock hp h
  | rinc j => exact hs.rinc hp h
  | rcheck j => exact hs.rcheck hp h
  | rback j => exact hs.rback hp h
  | grabInc => exact hs.grabInc hp h
  | grabUnlock ref => exact hs.grabUnlock hp h
  | load seen => exact hs.load hp h
  | copyInc seen c => exact hs.copyInc hp h
  | copyUnlock seen ret => exact hs.copyUnlock hp h
  | use c => exact hs.use hp h
  | readerDec => exact hs.readerDec hp h
  | readerFree => exact hs.readerFree hp (hothers hp) h
  | readerUnlock => exact hs.readerUnlock hp h
  | dec c n => exact hs.dec hp h
  | free c n => exact hs.free hp h
  | wlock j => exact hs.wlock hp h
  | wwait j => exact hs.wwait hp h
  | swap c => exact hs.swap hp h
  | updateUnlock old => exact hs.updateUnlock hp h
  | lastDec => exact hs.lastDec hp h
  | lastFree c => exact hs.lastFree hp h
  | clear => exact hs.clear hp h
  | writerDec => exact hs.writerDec hp h
  | writerUnlock => exact hs.writerUnlock hp h
  | writerFree => exact hs.writerFree hp h

end Writing

/-- A reader does not free the object while another one is about to release
its read lock. -/
def SparesReaders (s : State τ) (l : Option τ × Act) : Prop :=
  (s.agent l.1).pos = .readerFree →
    ∀ u, u ≠ l.1 → (s.agent u).pos ≠ .readerUnlock

theorem ObjectSound.step
    {s' : State τ} {l : Option τ × Act} (hs : s.ObjectSound)
    (hspares : s.SparesReaders l) (h : s.step l = .next s') :
    s'.ObjectSound := by
  obtain ⟨t, a⟩ := l
  rw [State.step] at h
  split at h
  · rename_i hp _
    exact hs.call hp h
  · rename_i hp
    exact hs.box hp h
  · exact hs.go hspares h
  · cases h

/-- Before anything is grabbed, only the writer counts. -/
theorem total_create
    (w : Agent → ℕ) (hgone : w ⟨.gone, none⟩ = 0) :
    Census.total Finset.univ w (create : State τ).agent =
      w ⟨.ready, none⟩ := by
  have hagent : (create : State τ).agent =
      update (fun _ => ⟨.gone, none⟩) none ⟨.ready, none⟩ := by
    funext t
    cases t with
    | none => rw [update_self]; rfl
    | some i => rw [update_of_ne (Option.some_ne_none i)]; rfl
  have hzero : Census.total Finset.univ w
      (fun _ : Option τ => (⟨.gone, none⟩ : Agent)) = 0 :=
    Census.total_eq_zero fun _ _ => hgone
  have htotal := Census.total_update w
    (fun _ : Option τ => (⟨.gone, none⟩ : Agent)) (Finset.mem_univ none)
    ⟨.ready, none⟩
  rw [hagent]
  omega

theorem objectSound_create : (create : State τ).ObjectSound := by
  have hrefs : (create : State τ).refs = 1 := total_create _ rfl
  have hreads : (create : State τ).reads = 0 := total_create _ rfl
  have hfrees : (create : State τ).frees = 0 := total_create _ rfl
  refine ⟨fun t => ?_, fun _ => ?_, fun _ => ?_, fun _ => ?_, fun h => ?_,
    fun _ => rfl, fun h => ?_, ?_, fun _ _ => rfl, fun t => ?_⟩
  · cases t <;> rfl
  · rw [hrefs]
    rfl
  · rw [hreads]
    rfl
  · rw [hfrees]
    rfl
  · cases h
  · cases h
  · exact iff_of_false (Option.some_ne_none 0) Bool.false_ne_true
  · cases t <;> trivial

end Steps

end State

end SkynetServer.Stm
