import SkynetServer.Service.Numbering
import SkynetServer.Service.References

/-!
# Who owns a message queue

A queue is in the global queue, held by one activation, or at rest; at rest
it is empty and its flag `in_global` is clear.  The flag stands for the first
two situations and is set and cleared under the lock of the queue, while the
global queue has a lock of its own.  The invariant below ties the flag, the
release mark, the positions of all activations and the global queue together.

It is about runs at the granularity of the locks, in which nothing happens
between the registration of a context and the creation of its queue but the
work of its creator, and in which no handle of a retired service is given
out again.
-/

namespace SkynetServer.Service

open Handle (Ctx HandleStorage)
open Transition

/-- Whether an activation is deleting the context. -/
def Pc.deletes (c : Ctx) (p : Pc) : ℕ := if p.deleting = some c then 1 else 0

/-- How often an activation holds the queue. -/
def Pc.holds (q : Mq) (p : Pc) : ℕ := p.held.count q

namespace State

variable {τ : Type*}

/-- No other activation is between a registration and the lock that its
`skynet_context_new` takes next. -/
def LockDelimited (s : State τ) : τ × Act → Prop
  | (t, _) => ∀ t', t' ≠ t → (s.pc t').opening = none

/-- A registration does not return the handle of a retired service. -/
def HandlesFresh (s : State τ) : τ × Act → Prop
  | (_, act) => act = .new → ∀ storage h,
    Handle.handleRegister s.handle s.storage s.contexts = .ok (storage, h) →
      ∀ c < s.contexts, s.retired c = true → s.issued c ≠ h

/-! ## Contexts and their queues -/

/-- Every queue belongs to one context, and has its handle. -/
structure QueueLinks (s : State τ) : Prop where
  distinct : ∀ c < s.contexts, ∀ d < s.contexts,
    s.issued c = s.issued d → c = d
  queue : ∀ c q, s.queue c = some q →
    c < s.contexts ∧ q < s.queues ∧ (s.mq q).handle = s.issued c
  opened : ∀ c < s.contexts, s.queue c = none →
    ∃ t, (s.pc t).opening = some c
  unopened : ∀ t c, (s.pc t).opening = some c → s.queue c = none
  owner : ∀ q < s.queues, ∃ c, s.queue c = some q

/-- What the release mark of its queue says about a context. -/
def marked (s : State τ) (c : Ctx) : ℕ :=
  match s.queue c with
  | some q => (s.mq q).release.toNat
  | none => 0

/-- Workers serve the context of their queue, and only marked queues are
dropped. -/
structure PcsOk (s : State τ) : Prop where
  serving : ∀ t q c, (s.pc t).serving = some (q, c) → s.queue c = some q
  dropping : ∀ t q, (s.pc t).dropping = some q → (s.mq q).release = true

/-- A queue that is at rest is empty. -/
def RestEmpty (s : State τ) : Prop :=
  ∀ q, (s.mq q).inGlobal = false → ¬ (s.mq q).Pending

/-- Queues are freed once, after they have been marked. -/
def FreedOnce (s : State τ) : Prop :=
  ∀ q, s.freed q ≤ 1 ∧
    (0 < s.freed q → q < s.queues ∧ (s.mq q).release = true)

/-- Number of places in which the queue has to be. -/
def due (s : State τ) (q : Mq) : ℕ :=
  if q < s.queues ∧ s.freed q = 0 ∧
      ((s.mq q).inGlobal = true ∨ (s.mq q).release = true) then 1 else 0

section Links

variable {s s₁ : State τ} {t : τ} {p : Pc} {c d : Ctx} {q : Mq}

theorem QueueLinks.queue_inj
    (hs : QueueLinks s) (hc : s.queue c = some q) (hd : s.queue d = some q) :
    c = d := by
  obtain ⟨hc', -, hch⟩ := hs.queue c q hc
  obtain ⟨hd', -, hdh⟩ := hs.queue d q hd
  exact hs.distinct c hc' d hd' (hch.symm.trans hdh)

theorem marked_eq (hq : s.queue c = some q) :
    s.marked c = (s.mq q).release.toNat := by
  rw [marked, hq]

theorem marked_congr
    (hqueue : s₁.queue c = s.queue c)
    (hrelease : ∀ q, s.queue c = some q →
      (s₁.mq q).release = (s.mq q).release) :
    s₁.marked c = s.marked c := by
  rw [marked, marked, hqueue]
  split
  · rename_i q hq
    rw [hrelease q hq]
  · rfl

theorem due_congr
    (hqueues : s₁.queues = s.queues) (hfreed : s₁.freed q = s.freed q)
    (hin : (s₁.mq q).inGlobal = (s.mq q).inGlobal)
    (hrelease : (s₁.mq q).release = (s.mq q).release) :
    s₁.due q = s.due q := by
  rw [due, due, hqueues, hfreed, hin, hrelease]

variable [DecidableEq τ]

theorem goto_pc_of_ne {t' : τ} (h : t' ≠ t) : (s.goto t p).pc t' = s.pc t' :=
  Function.update_of_ne h _ _

theorem goto_pc_self : (s.goto t p).pc t = p := Function.update_self ..

/-- A step that concerns neither handles nor links. -/
theorem QueueLinks.goto
    (hs : QueueLinks s) (hpc : s₁.pc = s.pc)
    (hcontexts : s₁.contexts = s.contexts) (hissued : s₁.issued = s.issued)
    (hqueue : s₁.queue = s.queue) (hqueues : s₁.queues = s.queues)
    (hhandle : ∀ q, (s₁.mq q).handle = (s.mq q).handle)
    (hsame : p.opening = (s.pc t).opening) :
    QueueLinks (s₁.goto t p) := by
  have hopening : ∀ t', ((s₁.goto t p).pc t').opening =
      (s.pc t').opening := by
    intro t'
    by_cases ht : t' = t
    · subst ht
      rw [goto_pc_self, hsame]
    · rw [goto_pc_of_ne ht, hpc]
  constructor
  · change ∀ c < s₁.contexts, ∀ d < s₁.contexts,
      s₁.issued c = s₁.issued d → c = d
    rw [hcontexts, hissued]
    exact hs.distinct
  · change ∀ c q, s₁.queue c = some q →
      c < s₁.contexts ∧ q < s₁.queues ∧ (s₁.mq q).handle = s₁.issued c
    simp only [hcontexts, hissued, hqueue, hqueues, hhandle]
    exact hs.queue
  · simp only [hopening]
    change ∀ c < s₁.contexts, s₁.queue c = none →
      ∃ t, (s.pc t).opening = some c
    rw [hcontexts, hqueue]
    exact hs.opened
  · simp only [hopening]
    change ∀ t c, (s.pc t).opening = some c → s₁.queue c = none
    rw [hqueue]
    exact hs.unopened
  · change ∀ q < s₁.queues, ∃ c, s₁.queue c = some q
    rw [hqueues, hqueue]
    exact hs.owner

theorem PcsOk.goto
    (hs : PcsOk s) (hpc : s₁.pc = s.pc)
    (hqueue : ∀ c q, s.queue c = some q → s₁.queue c = some q)
    (hrelease : ∀ t' q, (s.pc t').dropping = some q →
      (s.mq q).release = true → (s₁.mq q).release = true)
    (hserving : ∀ q c, p.serving = some (q, c) → s₁.queue c = some q)
    (hdropping : ∀ q, p.dropping = some q → (s₁.mq q).release = true) :
    PcsOk (s₁.goto t p) := by
  constructor
  · intro t' q c h
    by_cases ht : t' = t
    · subst ht
      rw [goto_pc_self] at h
      exact hserving q c h
    · rw [goto_pc_of_ne ht, hpc] at h
      exact hqueue c q (hs.serving t' q c h)
  · intro t' q h
    by_cases ht : t' = t
    · subst ht
      rw [goto_pc_self] at h
      exact hdropping q h
    · rw [goto_pc_of_ne ht, hpc] at h
      exact hrelease t' q h (hs.dropping t' q h)

end Links

/-! ## The invariant -/

section Invariant

variable [Fintype τ]

/-- `delete_context` marks the queue of the context it deletes. -/
def Marks (s : State τ) : Prop :=
  ∀ c, Census.total Finset.univ (Pc.deletes c) s.pc + s.marked c = s.deleted c

/-- The global queue is the list `l`, and every queue is once in the list or
once held by an activation when it is due, and nowhere otherwise. -/
structure Placed (s : State τ) (l : List Mq) : Prop where
  list : s.global.Represents l
  count : ∀ q, l.count q + Census.total Finset.univ (Pc.holds q) s.pc = s.due q

structure Ownership (s : State τ) : Prop where
  counted : Counted s
  numbered : Numbered s
  links : QueueLinks s
  pcs : PcsOk s
  marks : Marks s
  rest : RestEmpty s
  freed : FreedOnce s
  placed : ∃ l, Placed s l

theorem ownership_start (harbor : ℕ) :
    Ownership (start harbor : State τ) where
  counted := counted_start harbor
  numbered := numbered_start harbor
  links := ⟨fun c hc => absurd hc (Nat.not_lt_zero c), nofun,
    fun c hc => absurd hc (Nat.not_lt_zero c), nofun,
    fun q hq => absurd hq (Nat.not_lt_zero q)⟩
  pcs := ⟨nofun, nofun⟩
  marks := by
    intro c
    have htotal : Census.total Finset.univ (Pc.deletes c)
        (start harbor : State τ).pc = 0 :=
      Census.total_eq_zero fun _ _ => rfl
    rw [htotal]
    rfl
  rest := nofun
  freed := fun q => ⟨Nat.zero_le 1, nofun⟩
  placed := by
    refine ⟨[], LinkedQueue.represents_empty, fun q => ?_⟩
    have htotal : Census.total Finset.univ (Pc.holds q)
        (start harbor : State τ).pc = 0 :=
      Census.total_eq_zero fun _ _ => rfl
    rw [htotal, due, if_neg fun h => absurd h.1 (Nat.not_lt_zero q)]
    rfl

variable {s s₁ s' : State τ} {t : τ} {p : Pc} {c : Ctx} {q : Mq}

/-- The queue of a context that still has an owner is not marked. -/
theorem Ownership.release_of_ref
    (hs : Ownership s) (href : 0 < s.ref c) (hq : s.queue c = some q) :
    (s.mq q).release = false := by
  have hdeleted := hs.counted.deleted c
  rw [if_neg (by omega)] at hdeleted
  have hmarks := hs.marks c
  rw [hdeleted, marked_eq hq] at hmarks
  cases hrelease : (s.mq q).release with
  | false => rfl
  | true =>
      rw [hrelease, Bool.toNat_true] at hmarks
      omega

/-- A queue that is not marked has not been freed. -/
theorem Ownership.freed_of_release
    (hs : Ownership s) (h : (s.mq q).release = false) : s.freed q = 0 := by
  by_contra hne
  have := ((hs.freed q).2 (Nat.pos_of_ne_zero hne)).2
  rw [h] at this
  cases this

/-- A held queue is nowhere else, and it is alive. -/
theorem Placed.held_due
    {l : List Mq} (hl : Placed s l) (hq : q ∈ (s.pc t).held) :
    q ∉ l ∧ q < s.queues ∧ s.freed q = 0 ∧
      ((s.mq q).inGlobal = true ∨ (s.mq q).release = true) := by
  have hle : Pc.holds q (s.pc t) ≤
      Census.total Finset.univ (Pc.holds q) s.pc :=
    Census.le_total (Finset.mem_univ t)
  have hpos : 0 < Pc.holds q (s.pc t) := List.count_pos_iff.mpr hq
  have hcount := hl.count q
  rw [due] at hcount
  split at hcount
  · rename_i hdue
    refine ⟨?_, hdue⟩
    rw [← List.count_eq_zero]
    omega
  · omega

/-- A context is not deleted before its queue is created. -/
theorem Ownership.deleting_queue
    (hs : Ownership s) (hdel : (s.pc t).deleting = some c) :
    s.ref c = 0 ∧ ∃ q, s.queue c = some q := by
  have hle : Pc.deletes c (s.pc t) ≤
      Census.total Finset.univ (Pc.deletes c) s.pc :=
    Census.le_total (Finset.mem_univ t)
  rw [Pc.deletes, if_pos hdel] at hle
  have hmarks := hs.marks c
  have hdeleted := hs.counted.deleted c
  split at hdeleted
  · rename_i hzero
    refine ⟨hzero.2, ?_⟩
    by_contra hnone
    have hnone : s.queue c = none := by
      simpa [← Option.ne_none_iff_exists'] using hnone
    obtain ⟨t', ht'⟩ := hs.links.opened c hzero.1 hnone
    have := hs.counted.ref_pos_of_owned (Pc.owned_of_opening ht')
    omega
  · omega

/-- At the granularity of the locks, a context has the handle it was
given whenever another activation moves. -/
theorem Ownership.handle_eq
    (hs : Ownership s) {act : Act} (hlock : s.LockDelimited (t, act))
    (ht : (s.pc t).unnumbered = none) (hc : c < s.contexts) :
    s.handle c = s.issued c := by
  rcases hs.numbered.stored c hc with heq | ⟨-, t', ht'⟩
  · exact heq
  · by_cases htt : t' = t
    · subst htt
      rw [ht] at ht'
      cases ht'
    · have hopen := hlock t' htt
      rw [Pc.opening_of_unnumbered ht'] at hopen
      cases hopen

/-- A worker finds the service of its queue, or none. -/
theorem Ownership.grab_queue
    (hs : Ownership s) {act : Act} (hlock : s.LockDelimited (t, act))
    (hpc : s.pc t = .dispatch q)
    (hfind : Handle.handleFind s.handle s.storage (s.mq q).handle = some c) :
    s.queue c = some q := by
  obtain ⟨l, hl⟩ := hs.placed
  obtain ⟨-, hq, -⟩ := hl.held_due (t := t) (q := q)
    (by rw [hpc]; exact List.mem_singleton_self q)
  obtain ⟨d, hd⟩ := hs.links.owner q hq
  obtain ⟨hdlt, -, hhandle⟩ := hs.links.queue d q hd
  obtain ⟨hslot, hc⟩ := Handle.handleFind_some hfind
  have hclt := hs.counted.allocated c ⟨_, hslot⟩
  have hstored := hs.handle_eq hlock (by rw [hpc]; rfl) hclt
  have hissued : s.issued c = s.issued d := by
    rw [← hstored, hc, hhandle]
  rw [hs.links.distinct c hclt d hdlt hissued]
  exact hd

end Invariant

end State

end SkynetServer.Service
