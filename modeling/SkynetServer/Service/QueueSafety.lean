import SkynetServer.Service.OwnershipSteps

/-!
# Safety of message queues

What the ownership of queues gives for every run at the granularity of the
locks: a queue is in one place at a time, a queue at rest has no message, the
assertions about queues hold, and a queue is freed once, after it has been
marked, and not touched afterwards.
-/

namespace SkynetServer.Service

open Handle (Ctx HandleStorage)
open Mq (Message)
open Transition

namespace State

variable {τ : Type*}

/-- The queues whose memory a step reads or writes.  The global queue is
linked through the `next` pointers of its first and last queue. -/
def Touches (s : State τ) : τ × Act → Mq → Prop
  | (t, act), q =>
    match s.pc t, act with
    | .push ctx _, .go | .delete ctx _, .go =>
      s.queue ctx = some q ∨ s.global.tail = some q
    | .newGlobal q' _, .go | .mqRelease q' _, .go
    | .dispatchBack q' _ _, .go => q' = q ∨ s.global.tail = some q
    | .dropQueue q' _, .go | .freeQueue q' _, .go | .dispatch q', .go
    | .dispatchPop q' _ _ _, .go | .dispatchLength q' _ _, .go
    | .dispatchMessage q' _ _ _ _, .go => q' = q
    | .next, .go | .dispatchDone _ _, .go => s.global.head = some q
    | _, _ => False

theorem touches_cases
    {s : State τ} {t : τ} {act : Act} {q : Mq} (h : s.Touches (t, act) q) :
    q ∈ (s.pc t).held ∨ s.global.tail = some q ∨ s.global.head = some q ∨
      ∃ c, s.queue c = some q ∧
        ((s.pc t).owned = some c ∨ (s.pc t).deleting = some c) := by
  unfold Touches at h
  dsimp only at h
  split at h
  · rename_i c m hpc
    rcases h with hq | htail
    · exact .inr (.inr (.inr ⟨c, hq, .inl (by rw [hpc]; rfl)⟩))
    · exact .inr (.inl htail)
  · rename_i c k hpc
    rcases h with hq | htail
    · exact .inr (.inr (.inr ⟨c, hq, .inr (by rw [hpc]; rfl)⟩))
    · exact .inr (.inl htail)
  all_goals rename_i hpc
  all_goals first
    | exact .inr (.inr (.inl h))
    | (subst h; exact .inl (by rw [hpc]; exact List.mem_cons_self))
    | (rcases h with rfl | htail
       · exact .inl (by rw [hpc]; exact List.mem_cons_self)
       · exact .inr (.inl htail))
    | cases h

section Runs

variable [Fintype τ] {s s' : State τ} {t : τ} {q : Mq}

/-- A queue in the global queue has not been freed. -/
theorem Placed.freed_of_mem
    {l : List Mq} (hl : Placed s l) (hq : q ∈ l) : s.freed q = 0 := by
  have hpos := List.count_pos_iff.mpr hq
  have hcount := hl.count q
  rw [due] at hcount
  split at hcount
  · rename_i hdue
    exact hdue.2.1
  · omega

/-- The queue of a context that is being deleted is not marked yet. -/
theorem Ownership.release_of_deleting
    (hs : Ownership s) {c : Ctx} (hdel : (s.pc t).deleting = some c)
    (hq : s.queue c = some q) : (s.mq q).release = false := by
  have hle : Pc.deletes c (s.pc t) ≤
      Census.total Finset.univ (Pc.deletes c) s.pc :=
    Census.le_total (Finset.mem_univ t)
  rw [Pc.deletes, if_pos hdel] at hle
  have hmarks := hs.marks c
  have hdeleted := hs.counted.deleted c
  rw [marked_eq hq] at hmarks
  cases hrelease : (s.mq q).release with
  | false => rfl
  | true =>
      rw [hrelease, Bool.toNat_true] at hmarks
      split at hdeleted <;> omega

theorem Ownership.touches_freed
    (hs : Ownership s) {l : τ × Act} (h : s.Touches l q) :
    s.freed q = 0 := by
  obtain ⟨t, act⟩ := l
  obtain ⟨l, hl⟩ := hs.placed
  rcases touches_cases h with hheld | htail | hhead | ⟨c, hq, howned | hdel⟩
  · exact (hl.held_due hheld).2.2.1
  · exact hl.freed_of_mem (hl.list.mem_of_tail htail)
  · obtain ⟨l', rfl⟩ := hl.list.eq_cons hhead
    exact hl.freed_of_mem List.mem_cons_self
  · exact hs.freed_of_release
      (hs.release_of_ref (hs.counted.ref_pos_of_owned howned) hq)
  · exact hs.freed_of_release (hs.release_of_deleting hdel hq)

/-- The assertions about queues hold. -/
theorem Ownership.crash
    (hs : Ownership s) {act : Act} (hlock : s.LockDelimited (t, act))
    {f : Fault} (hcrash : Crash t act s f) :
    f = .notInitialised ∨ ∃ g, f = .handle g := by
  obtain ⟨l, hl⟩ := hs.placed
  have hrest : ∀ {q}, (s.mq q).inGlobal = false →
      (s.mq q).release = false → s.global.next q = none := by
    intro q hin hrelease
    apply hl.list.outside
    rw [← List.count_eq_zero]
    have hcount := hl.count q
    rw [due, if_neg (by simp [hin, hrelease])] at hcount
    omega
  cases hcrash with
  | register g => exact .inr ⟨g, rfl⟩
  | heldLinked q hheld hnext =>
      exact absurd (hl.list.outside q (hl.held_due hheld).1) hnext
  | sentLinked c q hpc hq hin hnext =>
      have hrelease : (s.mq q).release = false := by
        rcases hpc with ⟨m, hpc⟩ | ⟨k, hpc⟩
        · exact hs.release_of_ref (hs.counted.ref_pos_of_owned (t := t)
            (by rw [hpc]; rfl)) hq
        · exact hs.release_of_deleting (t := t) (by rw [hpc]; rfl) hq
      exact absurd (hrest hin hrelease) hnext
  | tail q hhead hnext htail =>
      exact absurd (hl.list.tail_of_next_none hhead hnext) htail
  | markedTwice c k q hpc hq hrelease =>
      have := hs.release_of_deleting (t := t) (by rw [hpc]; rfl) hq
      rw [hrelease] at this
      cases this
  | queueMismatch q c hpc hq =>
      exact absurd (hs.pcs.serving t q c (by rw [hpc]; rfl)) hq
  | notInitialised => exact .inl rfl
  | wildQueue c hpc hq =>
      rcases hpc with ⟨m, hpc⟩ | ⟨k, hpc⟩
      · have howned : (s.pc t).owned = some c := by rw [hpc]; rfl
        have hc := hs.counted.lt_contexts
          (hs.counted.ref_pos_of_owned howned)
        obtain ⟨t', ht'⟩ := hs.links.opened c hc hq
        have hne : t' ≠ t := by
          rintro rfl
          rw [hpc] at ht'
          cases ht'
        rw [hlock t' hne] at ht'
        cases ht'
      · obtain ⟨-, q, hq'⟩ := hs.deleting_queue (t := t) (c := c)
          (by rw [hpc]; rfl)
        rw [hq] at hq'
        cases hq'

/-- A marked queue has no service any more. -/
theorem Ownership.find_none
    (hs : Ownership s) {act : Act} (hlock : s.LockDelimited (t, act))
    (hpc : s.pc t = .dispatch q) (hrelease : (s.mq q).release = true) :
    Handle.handleFind s.handle s.storage (s.mq q).handle = none := by
  by_contra hne
  obtain ⟨c, hfind⟩ := Option.ne_none_iff_exists'.mp hne
  have hq := hs.grab_queue hlock hpc hfind
  have hholds : s.storage.Holds c := ⟨_, (Handle.handleFind_some hfind).1⟩
  have := hs.release_of_ref (hs.counted.ref_pos_of_holds hholds) hq
  rw [hrelease] at this
  cases this

/-- A service is dispatched by one worker at a time. -/
theorem Ownership.serving_inj
    (hs : Ownership s) {t' : τ} {q' : Mq} {c : Ctx}
    (h : (s.pc t).serving = some (q, c))
    (h' : (s.pc t').serving = some (q', c)) : t = t' := by
  have hq := hs.pcs.serving t q c h
  rw [hs.pcs.serving t' q' c h'] at hq
  cases hq
  by_contra hne
  obtain ⟨l, hl⟩ := hs.placed
  have htwo := Census.add_le_total (w := Pc.holds q) (f := s.pc)
    (Finset.mem_univ t) (Finset.mem_univ t') hne
  have hone : 0 < Pc.holds q (s.pc t) :=
    List.count_pos_iff.mpr (Pc.held_of_serving h)
  have hone' : 0 < Pc.holds q (s.pc t') :=
    List.count_pos_iff.mpr (Pc.held_of_serving h')
  have hcount := hl.count q
  rw [due] at hcount
  split at hcount <;> omega

end Runs

/-! ## A marked queue that is taken up is freed -/

/-- A push leaves fewer than `2 ^ 30` messages in its queue. -/
def HasRoom (s : State τ) : τ × Act → Prop
  | (t, _) => ∀ c m q, s.pc t = .push c m → s.queue c = some q →
    (s.mq q).length + 1 < 2 ^ 30

section Release

variable [DecidableEq τ] (weight : τ → ℤ) {s s' : State τ} {t : τ} {q : Mq}

/-- All queues hold some messages. -/
def QueuesSound (s : State τ) : Prop := ∀ q, (s.mq q).Sound

omit [DecidableEq τ] in
theorem QueuesSound.update
    {mq : Mq.Queue} (hv : QueuesSound s) (h : mq.Sound) (q' : Mq) :
    (Function.update s.mq q mq q').Sound := by
  by_cases hq : q' = q
  · subst hq
    rwa [Function.update_self]
  · rw [Function.update_of_ne hq]
    exact hv q'

theorem QueuesSound.move
    {act : Act} (hv : QueuesSound s) (hroom : s.HasRoom (t, act))
    (hmove : Move t act s s') : QueuesSound s' := by
  cases hmove with
  | quiet init endless cb mq p hsame hdrop hlaunched hmq =>
      exact fun q => (hmq q).sound (hv q)
  | create c memory =>
      exact hv.update ⟨[], Mq.Queue.contents_create _ _⟩
  | mark c k q =>
      obtain ⟨l, hl⟩ := hv q
      exact hv.update ⟨l, { hl with }⟩
  | mqPush c m q mq global hpc hq hhandle hrelease hin hsound =>
      obtain ⟨l, hl⟩ := hv q
      have hlength := hroom c m q hpc hq
      rw [hl.length_eq] at hlength
      exact hv.update (hsound l hl (by omega))
  | popEmpty q c i n mq hpc hempty | dropEmpty q k mq hpc hempty =>
      exact hv.update ((hv q).pop hempty)
  | _ => exact hv

theorem freeQueue_frees
    {k : After} (hpc : s.pc t = .freeQueue q k)
    (hnext : s.global.next q = none) :
    ∃ s', step weight s (t, .go) = .next s' ∧ s'.freed q = s.freed q + 1 := by
  refine ⟨State.goto
    { s with freed := Function.update s.freed q (s.freed q + 1) }
    t (resume none k), ?_, Function.update_self ..⟩
  simp only [step, hpc, stepFree, hnext, if_true]

/-- The loop of `_drop_queue` comes to its end, and `_release` frees the
queue. -/
theorem dropQueue_frees
    {l : List Message} {k : After} (hpc : s.pc t = .dropQueue q k)
    (hl : (s.mq q).Contents l) (hnext : s.global.next q = none) :
    ∃ m s', exec (step weight) s (List.replicate m (t, .go)) = .next s' ∧
      s'.freed q = s.freed q + 1 := by
  induction l generalizing s with
  | nil =>
      obtain ⟨mq, hpop⟩ : ∃ mq, (s.mq q).pop = some (none, mq) :=
        ⟨_, hl.pop_nil⟩
      have hstep : step weight s (t, .go) = .next (State.goto
          { s with mq := Function.update s.mq q mq } t (.freeQueue q k)) := by
        simp only [step, hpc, stepDrop, mqPop, hpop, Option.map_some]
      obtain ⟨s', hfree, hfreed⟩ := freeQueue_frees weight
        (s := State.goto { s with mq := Function.update s.mq q mq }
          t (.freeQueue q k)) goto_pc_self hnext
      refine ⟨2, s', ?_, hfreed⟩
      rw [List.replicate, exec_cons hstep, List.replicate, exec_cons hfree]
      rfl
  | cons message l ih =>
      obtain ⟨mq, hpop, hleft⟩ := hl.pop
      have hstep : step weight s (t, .go) = .next (State.goto
          { s with mq := Function.update s.mq q mq } t (.dropQueue q k)) := by
        simp only [step, hpc, stepDrop, mqPop, hpop, Option.map_some]
      obtain ⟨m, s', hexec, hfreed⟩ := ih
        (s := State.goto { s with mq := Function.update s.mq q mq }
          t (.dropQueue q k)) goto_pc_self
        (by simp only [State.goto, Function.update_self]; exact hleft) hnext
      refine ⟨m + 1, s', ?_, hfreed⟩
      rw [List.replicate_succ, exec_cons hstep]
      exact hexec

theorem mqRelease_frees
    {k : After} (hpc : s.pc t = .mqRelease q k)
    (hrelease : (s.mq q).release = true) (hsound : (s.mq q).Sound)
    (hnext : s.global.next q = none) :
    ∃ m s', exec (step weight) s (List.replicate m (t, .go)) = .next s' ∧
      s'.freed q = s.freed q + 1 := by
  have hstep : step weight s (t, .go) =
      .next (s.goto t (.dropQueue q k)) := by
    simp only [step, hpc, stepMqRelease, hrelease, if_true]
  obtain ⟨l, hl⟩ := hsound
  obtain ⟨m, s', hexec, hfreed⟩ := dropQueue_frees weight
    (s := s.goto t (.dropQueue q k)) goto_pc_self hl hnext
  refine ⟨m + 1, s', ?_, hfreed⟩
  rw [List.replicate_succ, exec_cons hstep]
  exact hexec

theorem dispatch_frees
    (hpc : s.pc t = .dispatch q) (hrelease : (s.mq q).release = true)
    (hfind : Handle.handleFind s.handle s.storage (s.mq q).handle = none)
    (hsound : (s.mq q).Sound) (hnext : s.global.next q = none) :
    ∃ m s', exec (step weight) s (List.replicate m (t, .go)) = .next s' ∧
      s'.freed q = s.freed q + 1 := by
  have hstep : step weight s (t, .go) =
      .next (s.goto t (.mqRelease q .dispatchNext)) := by
    simp only [step, hpc, stepGrab, grab, Handle.handleGrab, hfind]
  obtain ⟨m, s', hexec, hfreed⟩ := mqRelease_frees weight
    (s := s.goto t (.mqRelease q .dispatchNext)) goto_pc_self hrelease hsound
    hnext
  refine ⟨m + 1, s', ?_, hfreed⟩
  rw [List.replicate_succ, exec_cons hstep]
  exact hexec

end Release

/-! ## The result -/

section Result

variable [Fintype τ] [DecidableEq τ]

/-- The properties of queues in a state, and in the next step from it. -/
structure QueuesSafe (weight : τ → ℤ) (s : State τ) : Prop where
  /-- A queue is at most once in the global queue or with an activation. -/
  place : ∃ l, s.global.Represents l ∧ ∀ q,
    l.count q + Census.total Finset.univ (Pc.holds q) s.pc ≤ 1
  /-- A service is dispatched by one worker at a time. -/
  worker : ∀ t t' q q' c, (s.pc t).serving = some (q, c) →
    (s.pc t').serving = some (q', c) → t = t'
  /-- A queue with a pending message is not at rest. -/
  pending : ∀ q, (s.mq q).Pending → (s.mq q).inGlobal = true
  /-- No assertion about queues fails, and no queue pointer is wild. -/
  asserts : ∀ l f, s.LockDelimited l → step weight s l = .fault f →
    f = .notInitialised ∨ ∃ g, f = .handle g
  /-- A queue is freed at most once, and only after its mark. -/
  once : ∀ q, s.freed q ≤ 1 ∧ (0 < s.freed q → (s.mq q).release = true)
  /-- A freed queue is not touched. -/
  untouched : ∀ l q, s.Touches l q → s.freed q = 0
  /-- A marked queue is freed, or it is in the global queue or with one
  activation. -/
  kept : ∀ q < s.queues, (s.mq q).release = true →
    s.freed q = 1 ∨ (∃ l, s.global.Represents l ∧ q ∈ l) ∨
      ∃ t, q ∈ (s.pc t).held
  /-- A worker that takes a marked queue up goes on to free it, and so does
  the creator of a failed service. -/
  taken : ∀ t q, s.LockDelimited (t, .go) → (s.mq q).release = true →
    (s.pc t = .dispatch q ∨ ∃ k, s.pc t = .mqRelease q k) →
    ∃ n s', exec (step weight) s (List.replicate n (t, .go)) = .next s' ∧
      s'.freed q = 1

/-- In every run at the granularity of the locks in which no handle of a
retired service is given out again and no queue gets `2 ^ 30` messages, queues
have one owner at a time and are released once. -/
theorem queues_safe
    (weight : τ → ℤ) (harbor : ℕ) {s : State τ}
    (hr : Reaches (step weight)
      (fun s l => s.LockDelimited l ∧ s.HandlesFresh l ∧ s.HasRoom l)
      (start harbor) s) :
    QueuesSafe weight s := by
  obtain ⟨hs, hsound⟩ : Ownership s ∧ QueuesSound s := by
    refine hr.invariant (fun s => Ownership s ∧ QueuesSound s)
      ⟨ownership_start harbor, fun _ => ⟨[], Mq.Queue.contents_create _ _⟩⟩ ?_
    rintro s ⟨t, act⟩ s' ⟨hs, hv⟩ ⟨hlock, hfresh, hroom⟩ hstep
    have hmove := move_of_step hstep
    exact ⟨hs.move hlock hfresh hmove, hv.move hroom hmove⟩
  obtain ⟨l, hl⟩ := hs.placed
  constructor
  · refine ⟨l, hl.list, fun q => ?_⟩
    rw [hl.count, due]
    split <;> omega
  · intro t t' q q' c h h'
    exact hs.serving_inj h h'
  · intro q hpending
    by_contra hne
    exact hs.rest q (Bool.eq_false_iff.mpr hne) hpending
  · rintro ⟨t, act⟩ f hlock hstep
    exact hs.crash hlock (crash_of_step hstep)
  · intro q
    exact ⟨(hs.freed q).1, fun hpos => ((hs.freed q).2 hpos).2⟩
  · intro l q h
    exact hs.touches_freed h
  · intro q hq hrelease
    by_cases hfreed : s.freed q = 0
    · right
      have hcount := hl.count q
      rw [due, if_pos ⟨hq, hfreed, .inr hrelease⟩] at hcount
      by_cases hmem : q ∈ l
      · exact .inl ⟨l, hl.list, hmem⟩
      · rw [List.count_eq_zero.mpr hmem] at hcount
        obtain ⟨t, -, ht⟩ := Census.exists_pos_of_total_pos
          (s := Finset.univ) (w := Pc.holds q) (f := s.pc) (by omega)
        exact .inr ⟨t, List.count_pos_iff.mp ht⟩
    · left
      have := (hs.freed q).1
      omega
  · intro t q hlock hrelease hpc
    have hheld : q ∈ (s.pc t).held := by
      rcases hpc with hpc | ⟨k, hpc⟩ <;> rw [hpc] <;>
        exact List.mem_cons_self
    obtain ⟨hmem, -, hfreed, -⟩ := hl.held_due hheld
    have hnext := hl.list.outside q hmem
    obtain ⟨n, s', hexec, hone⟩ : ∃ n s',
        exec (step weight) s (List.replicate n (t, .go)) = .next s' ∧
          s'.freed q = s.freed q + 1 := by
      rcases hpc with hpc | ⟨k, hpc⟩
      · exact dispatch_frees weight hpc hrelease
          (hs.find_none hlock hpc hrelease) (hsound q) hnext
      · exact mqRelease_frees weight hpc hrelease (hsound q) hnext
    exact ⟨n, s', hexec, by omega⟩

end Result

theorem lockDelimited_bool
    {s : State Bool} {act : Act} {t : Bool}
    (h : (s.pc !t).opening = none) : s.LockDelimited (t, act) := by
  intro t' ht'
  obtain rfl : t' = !t := Bool.eq_not.mpr ht'
  exact h

/-- Activation `false` launches a service and publishes its queue, which the
worker `true` then takes up. -/
def launchAndTakeUp : List (Bool × Act) :=
  launch ++ [(false, .go), (false, .go), (true, .dispatch), (true, .go)]

/-- The theorem above for this run. -/
theorem queues_safe_after_launch :
    ∃ s, exec (step fun _ => 0) (start 0) launchAndTakeUp = .next s ∧
      s.pc true = .dispatch 0 ∧ QueuesSafe (fun _ => 0) s := by
  refine ⟨_, rfl, rfl, queues_safe (fun _ => 0) 0 ?_⟩
  refine .tail (true, .go) (.tail (true, .dispatch) (.tail (false, .go)
    (.tail (false, .go) (.tail (false, .go)
      (.tail (false, .initReturns true true) (.tail (false, .memory _)
        (.tail (false, .go) (.tail (false, .new) .refl
          ?_ rfl) ?_ rfl) ?_ rfl) ?_ rfl) ?_ rfl) ?_ rfl) ?_ rfl) ?_ rfl)
    ?_ rfl
  · exact ⟨lockDelimited_bool rfl,
      fun _ _ _ _ c hc => absurd hc (Nat.not_lt_zero c), nofun⟩
  all_goals exact ⟨lockDelimited_bool rfl, nofun, nofun⟩

/-! ## A queue with too many messages -/

section Overflow

/-- Runs of two activations at the granularity of the locks. -/
abbrev LockRun : State Bool → State Bool → Prop :=
  Reaches (step fun _ => 0) fun s l => s.LockDelimited l ∧ s.HandlesFresh l

variable {s s' s₁ s₂ : State Bool} {q : Mq.Queue}

theorem LockRun.go
    {t : Bool} {a : Act} (h : LockRun s s₁) (hact : a ≠ .new)
    (hother : (s₁.pc !t).opening = none)
    (hstep : step (fun _ => 0) s₁ (t, a) = .next s₂) : LockRun s s₂ :=
  .tail (t, a) h
    ⟨lockDelimited_bool hother, fun hnew => absurd hnew hact⟩ hstep

/-- No call is in progress, and the only service has handle 1 and a queue in
the global queue. -/
structure Serving (s : State Bool) (q : Mq.Queue) : Prop where
  pc : ∀ t, s.pc t = .idle
  find : Handle.handleFind s.handle s.storage 1 = some 0
  ref : s.ref 0 = 1
  queue : s.queue 0 = some 0
  mq : s.mq 0 = q
  handle : q.handle = 1
  inGlobal : q.inGlobal = true
  release : q.release = false
  head : s.global.head = some 0
  tail : s.global.tail = some 0
  freed : s.freed 0 = 0

theorem Serving.push (h : Serving s q) (m : Message) :
    ∃ s', LockRun s s' ∧ Serving s' (q.store m) := by
  let s₁ := State.goto
    { s with ref := Function.update s.ref 0 (s.ref 0 + 1) } false (.push 0 m)
  let s₂ := State.goto
    { s₁ with mq := Function.update s₁.mq 0 (q.store m) }
    false (.release 0 .done)
  let s₃ := State.goto
    { s₂ with ref := Function.update s₂.ref 0 (s₂.ref 0 - 1) } false .idle
  have h₁ : LockRun s s₁ := LockRun.go (t := false) (a := .push 1 m) .refl
    (by simp) (by rw [h.pc]; rfl)
    (by simp [step, h.pc, stepGrab, grab, Handle.handleGrab, h.find, s₁])
  have h₂ : LockRun s s₂ := h₁.go (t := false) (a := .go) (by simp)
    (by simp [s₁, State.goto, h.pc, Pc.opening])
    (by
      simp [step, s₁, s₂, State.goto, h.queue, h.mq, mqPush, h.inGlobal,
        andGoto])
  have h₃ : LockRun s s₃ := h₂.go (t := false) (a := .go) (by simp)
    (by simp [s₁, s₂, State.goto, h.pc, Pc.opening])
    (by simp [step, s₁, s₂, s₃, State.goto, stepRelease, h.ref, resume])
  refine ⟨s₃, h₃, ?_⟩
  constructor
  case pc => rintro (_ | _) <;> simp [s₁, s₂, s₃, State.goto, h.pc]
  all_goals
    simp [s₁, s₂, s₃, State.goto, h.find, h.ref, h.queue, h.handle,
      h.inGlobal, h.release, h.head, h.tail, h.freed]

theorem Serving.fill
    (h : Serving s q) {l : List Message} (hl : q.Contents l) (m : Message)
    {n : ℕ} (hn : l.length + n < 2 ^ 30) :
    ∃ s' q' l', LockRun s s' ∧ Serving s' q' ∧ q'.Contents l' ∧
      l'.length = l.length + n := by
  induction n generalizing s q l with
  | zero => exact ⟨s, q, l, .refl, h, hl, rfl⟩
  | succ n ih =>
      obtain ⟨s₁, hrun, h₁⟩ := h.push m
      have hlength : (l ++ [m]).length = l.length + 1 := by simp
      obtain ⟨s', q', l', hrun', h', hl', heq⟩ :=
        ih h₁ (hl.store m (by omega)) (by omega)
      exact ⟨s', q', l', hrun.trans hrun', h', hl', by omega⟩

/-- The service is retired, and the worker takes up its queue. -/
theorem Serving.retire (h : Serving s q) :
    ∃ s', LockRun s s' ∧ s'.pc true = .dropQueue 0 .dispatchNext ∧
      s'.mq 0 = { q with release := true } ∧ s'.freed 0 = 0 := by
  obtain ⟨storage, hretire, hgone⟩ : ∃ storage,
      Handle.handleRetire s.handle s.storage 1 = (storage, some 0) ∧
        Handle.handleFind s.handle storage 1 = none := by
    refine ⟨_, by simp only [Handle.handleRetire, h.find]; rfl, ?_⟩
    simp only [Handle.handleFind, Handle.HandleStorage.hash,
      Function.update_self]
  let s₁ := s.goto false (.retire 1 .done)
  let s₂ := State.goto
    { s₁ with storage, retired := Function.update s₁.retired 0 true }
    false (.release 0 .done)
  let s₃ := State.goto
    { s₂ with
      ref := Function.update s₂.ref 0 (s₂.ref 0 - 1)
      deleted := Function.update s₂.deleted 0 (s₂.deleted 0 + 1) }
    false (.delete 0 .done)
  let s₄ := State.goto
    { s₃ with mq := Function.update s₃.mq 0 { q with release := true } }
    false .idle
  let s₅ := s₄.goto true .next
  let s₆ := State.goto
    { s₅ with global := s₅.global.unlink 0 } true (.dispatch 0)
  let s₇ := s₆.goto true (.mqRelease 0 .dispatchNext)
  let s₈ := s₇.goto true (.dropQueue 0 .dispatchNext)
  have h₁ : LockRun s s₁ := LockRun.go (t := false) (a := .retire 1) .refl
    (by simp) (by rw [h.pc]; rfl) (by simp [step, h.pc, s₁])
  have h₂ : LockRun s s₂ := h₁.go (t := false) (a := .go) (by simp)
    (by simp [s₁, State.goto, h.pc, Pc.opening])
    (by simp [step, s₁, s₂, State.goto, stepRetire, hretire])
  have h₃ : LockRun s s₃ := h₂.go (t := false) (a := .go) (by simp)
    (by simp [s₁, s₂, State.goto, h.pc, Pc.opening])
    (by simp [step, s₁, s₂, s₃, State.goto, stepRelease, h.ref])
  have h₄ : LockRun s s₄ := h₃.go (t := false) (a := .go) (by simp)
    (by simp [s₁, s₂, s₃, State.goto, h.pc, Pc.opening])
    (by
      simp [step, s₁, s₂, s₃, s₄, State.goto, stepDelete, h.queue, h.mq,
        markRelease, h.release, h.inGlobal, andGoto, resume])
  have h₅ : LockRun s s₅ := h₄.go (t := true) (a := .dispatch) (by simp)
    (by simp [s₄, State.goto, Pc.opening])
    (by simp [step, s₁, s₂, s₃, s₄, s₅, State.goto, h.pc])
  have h₆ : LockRun s s₆ := h₅.go (t := true) (a := .go) (by simp)
    (by simp [s₅, s₄, State.goto, Pc.opening])
    (by
      simp [step, s₁, s₂, s₃, s₄, s₅, s₆, State.goto, stepNext, globalPop,
        h.head, h.tail])
  have h₇ : LockRun s s₇ := h₆.go (t := true) (a := .go) (by simp)
    (by simp [s₆, s₅, s₄, State.goto, Pc.opening])
    (by
      have hhandle : (s₆.mq 0).handle = 1 := by
        simp [s₆, s₅, s₄, State.goto, h.handle]
      have hgrab : Handle.handleGrab s₆.handle s₆.storage (s₆.mq 0).handle =
          none := by
        rw [hhandle]
        exact hgone
      have hpc : s₆.pc true = .dispatch 0 := goto_pc_self
      simp only [step, hpc, stepGrab, grab, hgrab]
      rfl)
  have h₈ : LockRun s s₈ := h₇.go (t := true) (a := .go) (by simp)
    (by simp [s₇, s₆, s₅, s₄, State.goto, Pc.opening])
    (by simp [step, s₈, s₇, s₆, s₅, s₄, State.goto, stepMqRelease])
  refine ⟨s₈, h₈, ?_⟩
  simp [s₁, s₂, s₃, s₄, s₅, s₆, s₇, s₈, State.goto, h.freed]

/-- The first message is found again and again. -/
theorem overflown_stays
    {k : After} (hpc : s.pc true = .dropQueue 0 k)
    (h : (s.mq 0).Overflown) {n : ℕ}
    (hexec : exec (step fun _ => 0) s (List.replicate n (true, .go)) =
      .next s') : s'.freed 0 = s.freed 0 := by
  induction n generalizing s with
  | zero =>
      cases hexec
      rfl
  | succ n ih =>
      rw [List.replicate_succ, exec] at hexec
      simp only [step, hpc, stepDrop, mqPop] at hexec
      rcases hpop : (s.mq 0).pop with _ | ⟨_ | m, mq⟩
      · rw [hpop] at hexec
        cases hexec
      · exact absurd h.pending (Mq.Queue.pop_none hpop).1
      · rw [hpop] at hexec
        refine (ih goto_pc_self ?_ hexec).trans rfl
        simp only [State.goto, Function.update_self]
        exact h.pop hpop

/-- A queue gets `2 ^ 30` messages, its service is retired, and the worker that
takes it up does not come to the end of `_drop_queue`. -/
theorem queue_never_freed :
    ∃ s, LockRun (start 0) s ∧ (s.mq 0).release = true ∧
      s.pc true = .dropQueue 0 .dispatchNext ∧ ∀ n s',
        exec (step fun _ => 0) s (List.replicate n (true, .go)) = .next s' →
          s'.freed 0 = 0 := by
  obtain ⟨s₀, hrun₀, h₀⟩ : ∃ s, LockRun (start 0) s ∧
      Serving s (Mq.create 1 fun _ => ⟨0, 0, 0, 0⟩) := by
    refine ⟨_, .tail (false, .go) (.tail (false, .go) (.tail (false, .go)
      (.tail (false, .go) (.tail (false, .initReturns true true)
        (.tail (false, .memory fun _ => ⟨0, 0, 0, 0⟩) (.tail (false, .go)
          (.tail (false, .new) .refl ?_ rfl) ?_ rfl) ?_ rfl) ?_ rfl) ?_ rfl)
            ?_ rfl) ?_ rfl) ?_ rfl,
      by rintro (_ | _) <;> rfl, rfl, rfl, rfl, rfl, rfl, rfl, rfl, rfl, rfl,
        rfl⟩
    · exact ⟨lockDelimited_bool rfl, fun _ _ _ _ c hc =>
        absurd hc (Nat.not_lt_zero c)⟩
    all_goals exact ⟨lockDelimited_bool rfl, nofun⟩
  obtain ⟨n, hn⟩ : ∃ n, n + 1 = 2 ^ 30 := ⟨1073741823, by decide⟩
  obtain ⟨s₁, q₁, l, hrun₁, h₁, hl, hlength⟩ := h₀.fill
    (Mq.Queue.contents_create 1 _) ⟨0, 0, 0, 0⟩ (n := n) (by simp; omega)
  obtain ⟨s₂, hrun₂, h₂⟩ := h₁.push ⟨0, 0, 0, 0⟩
  have hover := hl.overflow ⟨0, 0, 0, 0⟩ (by simp at hlength; omega)
  obtain ⟨s, hrun, hpc, hmq, hfreed⟩ := h₂.retire
  refine ⟨s, ((hrun₀.trans hrun₁).trans hrun₂).trans hrun, by rw [hmq], hpc,
    fun n s' hexec => ?_⟩
  rw [overflown_stays hpc (by rw [hmq]; exact { hover with }) hexec, hfreed]

end Overflow

end State

end SkynetServer.Service
