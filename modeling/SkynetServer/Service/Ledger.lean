import SkynetServer.Handle.Table
import SkynetServer.Service.System

/-!
# What a step does to references, slots and queues

An activation owns references to contexts and holds queues, both of which can
be read off its position.  `Move` lists all steps by what they do to the
shared memory and to these holdings; the invariants of the system are proved
from this list.
-/

namespace SkynetServer.Service

open Handle (Ctx HandleStorage)
open Mq (Message)
open Transition

/-- The queues which the rest of a call will use. -/
def After.held : After → List Mq
  | .newPublish q | .newRetire _ q | .newDrop q | .dispatchReturn q => [q]
  | .done | .dispatchNext => []

namespace Pc

/-- The context to which an activation owns a reference. -/
def owned : Pc → Option Ctx
  | .push ctx _ | .endless ctx | .release ctx _ | .newHandle ctx _
  | .newQueue ctx | .newInit ctx _ | .newFailed ctx _
  | .dispatchPop _ ctx _ _ | .dispatchLength _ ctx _
  | .dispatchMessage _ ctx _ _ _ | .dispatchDone _ ctx
  | .dispatchBack _ ctx _ => some ctx
  | _ => none

/-- The queues that only this activation may hand on: a worker's, or one not
yet published. -/
def held : Pc → List Mq
  | .release _ k | .delete _ k | .retire _ k => k.held
  | .newInit _ q | .newFailed _ q | .newSetInit _ q | .newGlobal q _
  | .dispatch q | .dispatchPop q _ _ _ | .dispatchLength q _ _
  | .dispatchMessage q _ _ _ _ | .dispatchDone q _ => [q]
  | .mqRelease q k | .dropQueue q k | .freeQueue q k => q :: k.held
  | .dispatchBack q _ nq => [q, nq]
  | _ => []

/-- The context which an activation is deleting. -/
def deleting : Pc → Option Ctx
  | .delete ctx _ => some ctx
  | _ => none

/-- The handle which an activation is going to store in a context. -/
def unnumbered : Pc → Option (Ctx × ℕ)
  | .newHandle ctx handle => some (ctx, handle)
  | _ => none

/-- The activation is between the registration of a context and the creation
of its queue. -/
def opening : Pc → Option Ctx
  | .newHandle ctx _ | .newQueue ctx => some ctx
  | _ => none

/-- The context whose queue a worker is dispatching. -/
def serving : Pc → Option (Mq × Ctx)
  | .dispatchPop q ctx _ _ | .dispatchLength q ctx _
  | .dispatchMessage q ctx _ _ _ | .dispatchDone q ctx
  | .dispatchBack q ctx _ => some (q, ctx)
  | _ => none

/-- The queue which an activation is emptying in order to free it. -/
def dropping : Pc → Option Mq
  | .dropQueue q _ | .freeQueue q _ => some q
  | _ => none

/-- The creator of a context after it has given up its reference. -/
def launched : Pc → Option Ctx
  | .newSetInit ctx _ | .newGlobal _ (some ctx) | .newLaunched ctx => some ctx
  | _ => none

variable {p : Pc} {c : Ctx}

theorem eq_newHandle
    {h : ℕ} (hp : p.unnumbered = some (c, h)) :
    p = .newHandle c h := by
  cases p <;> cases hp
  rfl

theorem owned_of_opening (hp : p.opening = some c) :
    p.owned = some c := by
  cases p <;> cases hp <;> rfl

theorem opening_of_unnumbered
    {h : ℕ} (hp : p.unnumbered = some (c, h)) :
    p.opening = some c := by
  cases p <;> cases hp
  rfl

theorem owned_of_serving
    {q : Mq} (hp : p.serving = some (q, c)) :
    p.owned = some c := by
  cases p <;> cases hp <;> rfl

theorem held_of_dropping {q : Mq} (hp : p.dropping = some q) :
    q ∈ p.held := by
  cases p <;> cases hp <;> exact List.mem_cons_self

theorem held_of_serving
    {q : Mq} (hp : p.serving = some (q, c)) :
    q ∈ p.held := by
  cases p <;> cases hp <;> exact List.mem_cons_self

end Pc

section Resume

variable (ret : Option Ctx) (k : After)

@[simp] theorem resume_owned : (State.resume ret k).owned = none := by
  cases k <;> cases ret <;> rfl

@[simp] theorem resume_held : (State.resume ret k).held = k.held := by
  cases k <;> cases ret <;> rfl

@[simp] theorem resume_deleting : (State.resume ret k).deleting = none := by
  cases k <;> cases ret <;> rfl

@[simp] theorem resume_unnumbered :
    (State.resume ret k).unnumbered = none := by
  cases k <;> cases ret <;> rfl

@[simp] theorem resume_opening : (State.resume ret k).opening = none := by
  cases k <;> cases ret <;> rfl

@[simp] theorem resume_serving : (State.resume ret k).serving = none := by
  cases k <;> cases ret <;> rfl

@[simp] theorem resume_dropping : (State.resume ret k).dropping = none := by
  cases k <;> cases ret <;> rfl

theorem resume_launched {c : Ctx}
    (h : (State.resume ret k).launched = some c) : ret = some c := by
  cases k <;> cases ret <;> cases h
  rfl

end Resume

/-- Both positions stand for the same holdings. -/
structure SameHoldings (p p' : Pc) : Prop where
  owned : p'.owned = p.owned
  held : p'.held = p.held
  deleting : p'.deleting = p.deleting
  opening : p'.opening = p.opening
  unnumbered : p'.unnumbered = p.unnumbered
  serving : p'.serving = p.serving ∨ p'.serving = none

/-- No flag of the queue changes, and no message is added. -/
structure SameFlags (q q' : Mq.Queue) : Prop where
  handle : q'.handle = q.handle
  release : q'.release = q.release
  inGlobal : q'.inGlobal = q.inGlobal
  pending : q'.Pending → q.Pending
  sound : q.Sound → q'.Sound

theorem SameFlags.refl (q : Mq.Queue) : SameFlags q q :=
  ⟨rfl, rfl, rfl, id, id⟩

/-- The queue has joined the global queue. -/
def Joined (g : LinkedQueue Mq) (q : Mq) (g' : LinkedQueue Mq) : Prop :=
  g.next q = none ∧ g' = g.push q

/-- The steps of activation `t`, by their effect. -/
inductive Move {τ : Type*} [DecidableEq τ] (t : τ) (act : Act)
    (s : State τ) : State τ → Prop
  /-- Only flags of contexts, the overload report and messages of a queue,
  and the position change. -/
  | quiet (init endless cb : Ctx → Bool) (mq : Mq → Mq.Queue) (p : Pc)
      (hsame : SameHoldings (s.pc t) p)
      (hdrop : ∀ q, p.dropping = some q → (s.pc t).dropping = some q ∨
        (s.mq q).release = true)
      (hlaunched : ∀ c, p.launched = some c → (s.pc t).launched = some c)
      (hmq : ∀ q, SameFlags (s.mq q) (mq q)) :
      Move t act s (State.goto { s with init, endless, cb, mq } t p)
  /-- A call takes a reference. -/
  | grabCall (h : ℕ) (c : Ctx) (p : Pc)
      (hpc : s.pc t = .idle)
      (hp : p = .endless c ∨ ∃ m, p = .push c m)
      (hfind : Handle.handleFind s.handle s.storage h = some c) :
      Move t act s (State.goto
        { s with ref := Function.update s.ref c (s.ref c + 1) } t p)
  /-- A worker takes a reference to the service of its queue. -/
  | grabDispatch (q : Mq) (c : Ctx)
      (hpc : s.pc t = .dispatch q)
      (hfind : Handle.handleFind s.handle s.storage (s.mq q).handle = some c) :
      Move t act s (State.goto
        { s with ref := Function.update s.ref c (s.ref c + 1) }
        t (.dispatchPop q c 0 1))
  | register (storage : HandleStorage) (h : ℕ) (hact : act = .new)
      (hpc : s.pc t = .idle)
      (hreg : Handle.handleRegister s.handle s.storage s.contexts =
        .ok (storage, h)) :
      Move t act s (State.goto
        { s with
          storage
          contexts := s.contexts + 1
          ref := Function.update s.ref s.contexts 2
          handle := Function.update s.handle s.contexts 0
          init := Function.update s.init s.contexts false
          endless := Function.update s.endless s.contexts false
          cb := Function.update s.cb s.contexts false
          issued := Function.update s.issued s.contexts h }
        t (.newHandle s.contexts h))
  | store (c : Ctx) (h : ℕ) (hpc : s.pc t = .newHandle c h) :
      Move t act s (State.goto
        { s with handle := Function.update s.handle c h } t (.newQueue c))
  | create (c : Ctx) (memory : ℤ → Message) (hpc : s.pc t = .newQueue c) :
      Move t act s (State.goto
        { s with
          queues := s.queues + 1
          mq := Function.update s.mq s.queues (Mq.create (s.handle c) memory)
          queue := Function.update s.queue c (some s.queues) }
        t (.newInit c s.queues))
  | releaseLast (c : Ctx) (k : After)
      (hpc : s.pc t = .release c k) (hlast : s.ref c - 1 = 0) :
      Move t act s (State.goto
        { s with
          ref := Function.update s.ref c (s.ref c - 1)
          deleted := Function.update s.deleted c (s.deleted c + 1) }
        t (.delete c k))
  | releaseShared (c : Ctx) (k : After)
      (hpc : s.pc t = .release c k) (hmore : s.ref c - 1 ≠ 0) :
      Move t act s (State.goto
        { s with ref := Function.update s.ref c (s.ref c - 1) }
        t (State.resume (some c) k))
  | mark (c : Ctx) (k : After) (q : Mq) (global : LinkedQueue Mq)
      (hpc : s.pc t = .delete c k) (hq : s.queue c = some q)
      (hrelease : (s.mq q).release = false)
      (hglobal : if (s.mq q).inGlobal then global = s.global
        else Joined s.global q global) :
      Move t act s (State.goto
        { s with
          global
          mq := Function.update s.mq q { s.mq q with release := true } }
        t (State.resume none k))
  | retire (h : ℕ) (k : After) (c : Ctx) (storage : HandleStorage)
      (hpc : s.pc t = .retire h k)
      (hretire : Handle.handleRetire s.handle s.storage h =
        (storage, some c)) :
      Move t act s (State.goto
        { s with storage, retired := Function.update s.retired c true }
        t (.release c k))
  | mqPush (c : Ctx) (m : Message) (q : Mq) (mq : Mq.Queue)
      (global : LinkedQueue Mq)
      (hpc : s.pc t = .push c m) (hq : s.queue c = some q)
      (hhandle : mq.handle = (s.mq q).handle)
      (hrelease : mq.release = (s.mq q).release) (hin : mq.inGlobal = true)
      (hsound : ∀ l, (s.mq q).Contents l → l.length + 1 < 2 ^ 30 → mq.Sound)
      (hglobal : if (s.mq q).inGlobal then global = s.global
        else Joined s.global q global) :
      Move t act s (State.goto
        { s with global, mq := Function.update s.mq q mq }
        t (.release c .done))
  /-- A held queue is handed to the global queue. -/
  | globalPush (q : Mq) (p : Pc) (global : LinkedQueue Mq)
      (hheld : (s.pc t).held = q :: p.held)
      (howned : p.owned = (s.pc t).owned)
      (hdeleting : (s.pc t).deleting = none ∧ p.deleting = none)
      (hopening : (s.pc t).opening = none ∧ p.opening = none)
      (hnumber : (s.pc t).unnumbered = none ∧ p.unnumbered = none)
      (hserving : p.serving = none) (hdrop : p.dropping = none)
      (hlaunched : ∀ c, p.launched = some c → (s.pc t).launched = some c)
      (hglobal : Joined s.global q global) :
      Move t act s (State.goto { s with global } t p)
  /-- A worker takes the first queue of the global queue. -/
  | globalPop (q : Mq) (p : Pc)
      (hheld : p.held = (s.pc t).held ++ [q])
      (howned : p.owned = (s.pc t).owned)
      (hdeleting : (s.pc t).deleting = none ∧ p.deleting = none)
      (hopening : (s.pc t).opening = none ∧ p.opening = none)
      (hnumber : (s.pc t).unnumbered = none ∧ p.unnumbered = none)
      (hserving : p.serving = (s.pc t).serving) (hdrop : p.dropping = none)
      (hlaunched : p.launched = none)
      (hhead : s.global.head = some q) :
      Move t act s (State.goto { s with global := s.global.unlink q } t p)
  /-- A worker finds its queue empty and lets go of it. -/
  | popEmpty (q : Mq) (c : Ctx) (i n : ℕ) (mq : Mq.Queue)
      (hpc : s.pc t = .dispatchPop q c i n)
      (hempty : (s.mq q).pop = some (none, mq)) :
      Move t act s (State.goto { s with mq := Function.update s.mq q mq }
        t (.release c .dispatchNext))
  | dropEmpty (q : Mq) (k : After) (mq : Mq.Queue)
      (hpc : s.pc t = .dropQueue q k)
      (hempty : (s.mq q).pop = some (none, mq)) :
      Move t act s (State.goto { s with mq := Function.update s.mq q mq }
        t (.freeQueue q k))
  | free (q : Mq) (k : After) (hpc : s.pc t = .freeQueue q k)
      (hnext : s.global.next q = none) :
      Move t act s (State.goto
        { s with freed := Function.update s.freed q (s.freed q + 1) }
        t (State.resume none k))

/-! ## Every step is a move -/

namespace State

section Operations

variable {τ : Type*} {s s' : State τ}

theorem globalPush_ok {q : Mq} (h : s.globalPush q = .ok s') :
    s.global.next q = none ∧ s' = { s with global := s.global.push q } := by
  rw [globalPush] at h
  split at h
  · rename_i hnone
    cases h
    exact ⟨hnone, rfl⟩
  · cases h

theorem globalPop_some
    {q : Mq} {s₁ : State τ} (h : s.globalPop = .ok (some q, s₁)) :
    s.global.head = some q ∧
      s₁ = { s with global := s.global.unlink q } := by
  rw [globalPop] at h
  split at h
  · cases h
  · rename_i mq hhead
    split at h
    · cases h
    · cases h
      exact ⟨hhead, rfl⟩

theorem globalPop_none
    {s₁ : State τ} (h : s.globalPop = .ok (none, s₁)) : s₁ = s := by
  rw [globalPop] at h
  split at h
  · cases h
    rfl
  · split at h <;> cases h

/-- A pop that finds a message adds none and leaves the flags. -/
theorem pop_sameFlags
    {q q' : Mq.Queue} {m : Message} (h : q.pop = some (some m, q')) :
    SameFlags q q' := by
  have hsound := fun hq : q.Sound => hq.pop h
  obtain ⟨hpending, -, _, _, rfl⟩ := Mq.Queue.pop_some h
  exact ⟨rfl, rfl, rfl, fun _ => hpending, hsound⟩

theorem sameFlags_update
    {q : Mq} {mq : Mq.Queue} (h : SameFlags (s.mq q) mq) (q' : Mq) :
    SameFlags (s.mq q') (Function.update s.mq q mq q') := by
  by_cases hq : q' = q
  · subst hq
    rwa [Function.update_self]
  · rw [Function.update_of_ne hq]
    exact .refl _

end Operations

section Moves

variable {τ : Type*} [DecidableEq τ] {weight : τ → ℤ} {s s' : State τ} {t : τ}
  {act : Act}

theorem move_of_goto
    {p : Pc} (hsame : SameHoldings (s.pc t) p)
    (hdrop : ∀ q, p.dropping = some q → (s.pc t).dropping = some q ∨
      (s.mq q).release = true)
    (hlaunched : ∀ c, p.launched = some c → (s.pc t).launched = some c) :
    Move t act s (s.goto t p) :=
  .quiet s.init s.endless s.cb s.mq p hsame hdrop hlaunched
    fun _ => .refl _

theorem andGoto_next
    {p : Pc} {r : Except Fault (State τ)} (h : andGoto t p r = .next s') :
    ∃ s₁, r = .ok s₁ ∧ s' = s₁.goto t p := by
  cases r with
  | error f => cases h
  | ok s₁ =>
      cases h
      exact ⟨s₁, rfl, rfl⟩

variable {c : Ctx} {k : After}

theorem stepRelease_move
    (hpc : s.pc t = .release c k)
    (h : stepRelease s t c k = .next s') : Move t act s s' := by
  rw [stepRelease] at h
  split at h
  · rename_i hlast
    cases h
    exact .releaseLast c k hpc hlast
  · rename_i hmore
    cases h
    exact .releaseShared c k hpc hmore

theorem stepDelete_move
    (hpc : s.pc t = .delete c k)
    (h : stepDelete s t c k = .next s') : Move t act s s' := by
  rw [stepDelete] at h
  split at h
  · cases h
  · rename_i q hq
    obtain ⟨s₁, hmark, rfl⟩ := andGoto_next h
    rw [markRelease] at hmark
    split at hmark
    · cases hmark
    · rename_i hrelease
      have hrelease := Bool.eq_false_iff.mpr hrelease
      simp only at hmark
      split at hmark
      · rename_i hin
        obtain ⟨hnone, rfl⟩ := globalPush_ok hmark
        refine .mark c k q _ hpc hq hrelease ?_
        rw [hin]
        exact ⟨hnone, rfl⟩
      · rename_i hin
        cases hmark
        refine .mark c k q _ hpc hq hrelease ?_
        rw [Bool.not_eq_false] at hin
        rw [hin]
        rfl

variable {q : Mq}

theorem push_move
    {m : Message} (hpc : s.pc t = .push c m)
    (hq : s.queue c = some q)
    (h : andGoto t (.release c .done) (s.mqPush q m) = .next s') :
    Move t act s s' := by
  obtain ⟨s₁, hpush, rfl⟩ := andGoto_next h
  rw [mqPush] at hpush
  simp only [Mq.Queue.store_inGlobal] at hpush
  split at hpush
  · rename_i hin
    obtain ⟨hnone, rfl⟩ := globalPush_ok hpush
    refine .mqPush c m q _ _ hpc hq (Mq.Queue.store_handle _ _)
      (Mq.Queue.store_release _ _) rfl
      (fun _ hl hfits => ⟨_, { hl.store m hfits with }⟩) ?_
    rw [hin]
    exact ⟨hnone, rfl⟩
  · rename_i hin
    cases hpush
    rw [Bool.not_eq_false] at hin
    refine .mqPush c m q _ _ hpc hq (Mq.Queue.store_handle _ _)
      (Mq.Queue.store_release _ _)
      ((Mq.Queue.store_inGlobal _ _).trans hin)
      (fun _ hl hfits => ⟨_, hl.store m hfits⟩) ?_
    rw [hin]
    rfl

theorem stepGrab_call_move
    {h : ℕ} {found : Ctx → Pc} (hpc : s.pc t = .idle)
    (hfound : ∀ c, found c = .endless c ∨ ∃ m, found c = .push c m)
    (hs : stepGrab s t h found .idle = .next s') : Move t act s s' := by
  rw [stepGrab, grab] at hs
  cases hfind : Handle.handleGrab s.handle s.storage h with
  | none =>
      rw [hfind] at hs
      cases hs
      exact move_of_goto (by rw [hpc]; exact ⟨rfl, rfl, rfl, rfl, rfl, .inl rfl⟩) nofun nofun
  | some c =>
      rw [hfind] at hs
      cases hs
      exact .grabCall h c _ hpc (hfound c) hfind

theorem stepGrab_dispatch_move
    (hpc : s.pc t = .dispatch q)
    (hs : stepGrab s t (s.mq q).handle (fun c => .dispatchPop q c 0 1)
      (.mqRelease q .dispatchNext) = .next s') : Move t act s s' := by
  rw [stepGrab, grab] at hs
  cases hfind : Handle.handleGrab s.handle s.storage (s.mq q).handle with
  | none =>
      rw [hfind] at hs
      cases hs
      exact move_of_goto (by rw [hpc]; exact ⟨rfl, rfl, rfl, rfl, rfl, .inl rfl⟩) nofun nofun
  | some c =>
      rw [hfind] at hs
      cases hs
      exact .grabDispatch q c hpc hfind

theorem stepNew_move
    (hact : act = .new) (hpc : s.pc t = .idle) (h : stepNew s t = .next s') : Move t act s s' := by
  rw [stepNew] at h
  split at h
  · cases h
  · rename_i storage handle hreg
    cases h
    exact .register storage handle hact hpc hreg

theorem stepRetire_move
    {h : ℕ} (hpc : s.pc t = .retire h k)
    (hs : stepRetire s t h k = .next s') : Move t act s s' := by
  rw [stepRetire] at hs
  split at hs
  · rename_i storage c hretire
    cases hs
    exact .retire h k c storage hpc hretire
  · cases hs
    refine move_of_goto ?_ ?_ ?_
    · rw [hpc]
      exact ⟨resume_owned .., resume_held .., resume_deleting ..,
        resume_opening .., resume_unnumbered .., .inr (resume_serving ..)⟩
    · simp
    · intro c hc
      cases resume_launched none k hc

theorem stepMqRelease_move
    (hpc : s.pc t = .mqRelease q k)
    (h : stepMqRelease s t q k = .next s') : Move t act s s' := by
  rw [stepMqRelease] at h
  split at h
  · rename_i hrelease
    cases h
    refine move_of_goto
      (by rw [hpc]; exact ⟨rfl, rfl, rfl, rfl, rfl, .inl rfl⟩) ?_ nofun
    intro q' hq'
    cases hq'
    exact .inr hrelease
  · obtain ⟨s₁, hpush, rfl⟩ := andGoto_next h
    obtain ⟨hnone, rfl⟩ := globalPush_ok hpush
    refine .globalPush q _ _ ?_ ?_ ?_ ?_ ?_ (resume_serving ..)
      (resume_dropping ..) ?_ ⟨hnone, rfl⟩
    · rw [hpc, resume_held]
      rfl
    · rw [hpc, resume_owned]
      rfl
    · rw [hpc]
      exact ⟨rfl, resume_deleting ..⟩
    · rw [hpc]
      exact ⟨rfl, resume_opening ..⟩
    · rw [hpc]
      exact ⟨rfl, resume_unnumbered ..⟩
    · intro c hc
      cases resume_launched none k hc

theorem stepDrop_move
    (hpc : s.pc t = .dropQueue q k)
    (h : stepDrop s t q k = .next s') : Move t act s s' := by
  rw [stepDrop, mqPop] at h
  rcases hpop : (s.mq q).pop with _ | ⟨_ | m, mq⟩
  · rw [hpop] at h
    cases h
  · rw [hpop] at h
    cases h
    exact .dropEmpty q k mq hpc hpop
  · rw [hpop] at h
    cases h
    exact .quiet s.init s.endless s.cb _ _
      (by rw [hpc]; exact ⟨rfl, rfl, rfl, rfl, rfl, .inl rfl⟩)
      (by rw [hpc]; exact fun _ h => .inl h) nofun
      (sameFlags_update (pop_sameFlags hpop))

theorem stepPop_move
    {i n : ℕ} (hpc : s.pc t = .dispatchPop q c i n)
    (h : stepPop weight s t q c i n = .next s') : Move t act s s' := by
  rw [stepPop, mqPop] at h
  rcases hpop : (s.mq q).pop with _ | ⟨_ | m, mq⟩
  · rw [hpop] at h
    cases h
  · rw [hpop] at h
    cases h
    exact .popEmpty q c i n mq hpc hpop
  · have hflags := sameFlags_update (pop_sameFlags hpop)
    rw [hpop] at h
    simp only [Option.map_some] at h
    split at h
    · cases h
      exact .quiet s.init s.endless s.cb _ _
        (by rw [hpc]; exact ⟨rfl, rfl, rfl, rfl, rfl, .inl rfl⟩) nofun nofun hflags
    · cases h
      exact .quiet s.init s.endless s.cb _ _
        (by rw [hpc]; exact ⟨rfl, rfl, rfl, rfl, rfl, .inl rfl⟩) nofun nofun hflags

theorem stepMessage_move
    {i n : ℕ} {m : Message}
    (hpc : s.pc t = .dispatchMessage q c i n m)
    (h : stepMessage s t q c i n = .next s') : Move t act s s' := by
  have hflags := sameFlags_update (s := s) (q := q)
    ⟨Mq.Queue.takeOverload_handle _, Mq.Queue.takeOverload_release _,
      Mq.Queue.takeOverload_inGlobal _,
      (Mq.Queue.takeOverload_pending _).mp,
      fun ⟨l, hl⟩ => ⟨l, hl.takeOverload⟩⟩
  rw [stepMessage] at h
  split at h
  · cases h
  · cases h
    split
    · exact .quiet s.init s.endless s.cb _ _
        (by rw [hpc]; exact ⟨rfl, rfl, rfl, rfl, rfl, .inl rfl⟩) nofun nofun hflags
    · exact .quiet s.init s.endless s.cb _ _
        (by rw [hpc]; exact ⟨rfl, rfl, rfl, rfl, rfl, .inl rfl⟩) nofun nofun hflags

theorem stepNext_move
    (hpc : s.pc t = .next) (h : stepNext s t = .next s') : Move t act s s' := by
  rw [stepNext] at h
  split at h
  · cases h
  · rename_i q s₁ hpop
    obtain ⟨hhead, rfl⟩ := globalPop_some hpop
    cases h
    exact .globalPop q _ (by rw [hpc]; rfl) (by rw [hpc]; rfl)
      (by rw [hpc]; exact ⟨rfl, rfl⟩) (by rw [hpc]; exact ⟨rfl, rfl⟩)
      (by rw [hpc]; exact ⟨rfl, rfl⟩) (by rw [hpc]; rfl) rfl rfl hhead
  · rename_i s₁ hpop
    obtain rfl := globalPop_none hpop
    cases h
    exact move_of_goto (by rw [hpc]; exact ⟨rfl, rfl, rfl, rfl, rfl, .inl rfl⟩) nofun nofun

theorem stepDone_move
    (hpc : s.pc t = .dispatchDone q c)
    (h : stepDone s t q c = .next s') : Move t act s s' := by
  rw [stepDone] at h
  split at h
  · cases h
  · split at h
    · cases h
    · rename_i nq s₁ hpop
      obtain ⟨hhead, rfl⟩ := globalPop_some hpop
      cases h
      exact .globalPop nq _ (by rw [hpc]; rfl) (by rw [hpc]; rfl)
        (by rw [hpc]; exact ⟨rfl, rfl⟩) (by rw [hpc]; exact ⟨rfl, rfl⟩)
        (by rw [hpc]; exact ⟨rfl, rfl⟩) (by rw [hpc]; rfl) rfl rfl hhead
    · rename_i s₁ hpop
      obtain rfl := globalPop_none hpop
      cases h
      exact move_of_goto
        (by rw [hpc]; exact ⟨rfl, rfl, rfl, rfl, rfl, .inr rfl⟩) nofun nofun

theorem move_of_step
    (h : step weight s (t, act) = .next s') : Move t act s s' := by
  unfold step at h
  dsimp only at h
  split at h
  · rename_i hpc
    exact stepGrab_call_move hpc (fun c => .inr ⟨_, rfl⟩) h
  · rename_i hpc
    exact stepGrab_call_move hpc (fun c => .inl rfl) h
  · rename_i hpc
    cases h
    exact move_of_goto (by rw [hpc]; exact ⟨rfl, rfl, rfl, rfl, rfl, .inl rfl⟩) nofun nofun
  · rename_i hpc
    exact stepNew_move rfl hpc h
  · rename_i hpc
    cases h
    exact move_of_goto (by rw [hpc]; exact ⟨rfl, rfl, rfl, rfl, rfl, .inl rfl⟩) nofun nofun
  · rename_i c m hpc
    split at h
    · cases h
    · rename_i q hq
      exact push_move hpc hq h
  · rename_i c hpc
    cases h
    exact .quiet s.init _ s.cb s.mq _ (by rw [hpc]; exact ⟨rfl, rfl, rfl, rfl, rfl, .inl rfl⟩)
      nofun nofun (fun _ => .refl _)
  · rename_i c k hpc
    exact stepRelease_move hpc h
  · rename_i c k hpc
    exact stepDelete_move hpc h
  · rename_i handle k hpc
    exact stepRetire_move hpc h
  · rename_i c handle hpc
    cases h
    exact .store c handle hpc
  · rename_i c m hpc
    cases h
    exact .create c m hpc
  · rename_i c q ok cb hpc
    cases h
    refine .quiet s.init s.endless _ s.mq _ ?_ ?_ ?_ (fun _ => .refl _)
    · rw [hpc]
      cases ok <;> exact ⟨rfl, rfl, rfl, rfl, rfl, .inl rfl⟩
    · cases ok <;> nofun
    · cases ok <;> nofun
  · rename_i c q hpc
    cases h
    exact move_of_goto (by rw [hpc]; exact ⟨rfl, rfl, rfl, rfl, rfl, .inl rfl⟩) nofun nofun
  · rename_i c q hpc
    cases h
    exact .quiet _ s.endless s.cb s.mq _ (by rw [hpc]; exact ⟨rfl, rfl, rfl, rfl, rfl, .inl rfl⟩)
      nofun (by rw [hpc]; exact fun _ h => h) (fun _ => .refl _)
  · rename_i q ret hpc
    obtain ⟨s₁, hpush, rfl⟩ := andGoto_next h
    obtain ⟨hnone, rfl⟩ := globalPush_ok hpush
    cases ret with
    | none | some c =>
        exact .globalPush q _ _ (by rw [hpc]; rfl) (by rw [hpc]; rfl)
          (by rw [hpc]; exact ⟨rfl, rfl⟩) (by rw [hpc]; exact ⟨rfl, rfl⟩)
          (by rw [hpc]; exact ⟨rfl, rfl⟩) rfl rfl
          (by rw [hpc]; exact fun _ h => h) ⟨hnone, rfl⟩
  · rename_i c hpc
    cases h
    exact move_of_goto (by rw [hpc]; exact ⟨rfl, rfl, rfl, rfl, rfl, .inl rfl⟩) nofun nofun
  · rename_i q k hpc
    exact stepMqRelease_move hpc h
  · rename_i q k hpc
    exact stepDrop_move hpc h
  · rename_i q k hpc
    rw [stepFree] at h
    split at h
    · rename_i hnone
      cases h
      exact .free q k hpc hnone
    · cases h
  · rename_i hpc
    exact stepNext_move hpc h
  · rename_i q hpc
    exact stepGrab_dispatch_move hpc h
  · rename_i q c i n hpc
    exact stepPop_move hpc h
  · rename_i q c m hpc
    cases h
    exact move_of_goto (by rw [hpc]; exact ⟨rfl, rfl, rfl, rfl, rfl, .inl rfl⟩) nofun nofun
  · rename_i q c i n m hpc
    exact stepMessage_move hpc h
  · rename_i q c hpc
    exact stepDone_move hpc h
  · rename_i q c nq hpc
    obtain ⟨s₁, hpush, rfl⟩ := andGoto_next h
    obtain ⟨hnone, rfl⟩ := globalPush_ok hpush
    exact .globalPush q _ _ (by rw [hpc]; rfl) (by rw [hpc]; rfl)
      (by rw [hpc]; exact ⟨rfl, rfl⟩) (by rw [hpc]; exact ⟨rfl, rfl⟩)
      (by rw [hpc]; exact ⟨rfl, rfl⟩) rfl rfl nofun ⟨hnone, rfl⟩
  · cases h

end Moves

/-! ## Where a step can fault -/

/-- The faults of activation `t`, with their causes. -/
inductive Crash {τ : Type*} (t : τ) (act : Act) (s : State τ) : Fault → Prop
  | register (f : Handle.Fault) (hact : act = .new) (hpc : s.pc t = .idle)
      (hreg : Handle.handleRegister s.handle s.storage s.contexts = .error f) :
      Crash t act s (.handle f)
  /-- A held queue is handed on or freed while it has a successor. -/
  | heldLinked (q : Mq) (hheld : q ∈ (s.pc t).held)
      (hnext : s.global.next q ≠ none) : Crash t act s .queueLinked
  /-- A message or the release mark sends a queue to the global queue. -/
  | sentLinked (c : Ctx) (q : Mq)
      (hpc : (∃ m, s.pc t = .push c m) ∨ ∃ k, s.pc t = .delete c k)
      (hq : s.queue c = some q) (hin : (s.mq q).inGlobal = false)
      (hnext : s.global.next q ≠ none) : Crash t act s .queueLinked
  | tail (q : Mq) (hhead : s.global.head = some q)
      (hnext : s.global.next q = none) (htail : s.global.tail ≠ some q) :
      Crash t act s .tailMismatch
  | markedTwice (c : Ctx) (k : After) (q : Mq) (hpc : s.pc t = .delete c k)
      (hq : s.queue c = some q) (hrelease : (s.mq q).release = true) :
      Crash t act s .markedTwice
  | queueMismatch (q : Mq) (c : Ctx) (hpc : s.pc t = .dispatchDone q c)
      (hq : s.queue c ≠ some q) : Crash t act s .queueMismatch
  | notInitialised (q : Mq) (c : Ctx) (i n : ℕ) (m : Message)
      (hpc : s.pc t = .dispatchMessage q c i n m)
      (hinit : s.cb c ∧ s.init c = false) : Crash t act s .notInitialised
  | wildQueue (c : Ctx)
      (hpc : (∃ m, s.pc t = .push c m) ∨ ∃ k, s.pc t = .delete c k)
      (hq : s.queue c = none) : Crash t act s .wildQueue

section Crashes

variable {τ : Type*} [DecidableEq τ] {weight : τ → ℤ} {s : State τ} {t : τ}
  {act : Act} {f : Fault} {q : Mq}

omit [DecidableEq τ] in
theorem globalPush_error (h : s.globalPush q = .error f) :
    f = .queueLinked ∧ s.global.next q ≠ none := by
  rw [globalPush] at h
  split at h
  · cases h
  · rename_i hne
    cases h
    exact ⟨rfl, hne⟩

omit [DecidableEq τ] in
theorem globalPop_error (h : s.globalPop = .error f) :
    f = .tailMismatch ∧ ∃ q, s.global.head = some q ∧
      s.global.next q = none ∧ s.global.tail ≠ some q := by
  rw [globalPop] at h
  split at h
  · cases h
  · rename_i q hhead
    split at h
    · rename_i hbad
      cases h
      exact ⟨rfl, q, hhead, hbad⟩
    · cases h

theorem andGoto_fault
    {p : Pc} {r : Except Fault (State τ)} (h : andGoto t p r = .fault f) :
    r = .error f := by
  cases r with
  | error f' =>
      cases h
      rfl
  | ok s₁ => cases h

theorem stepGrab_fault
    {h : ℕ} {found : Ctx → Pc} {p : Pc}
    (hs : stepGrab s t h found p = .fault f) : False := by
  rw [stepGrab] at hs
  split at hs <;> cases hs

theorem heldPush_crash
    {p : Pc} (hheld : q ∈ (s.pc t).held)
    (h : andGoto t p (s.globalPush q) = .fault f) : Crash t act s f := by
  obtain ⟨rfl, hnext⟩ := globalPush_error (andGoto_fault h)
  exact .heldLinked q hheld hnext

theorem push_crash
    {c : Ctx} {m : Message} {p : Pc} (hpc : s.pc t = .push c m)
    (hq : s.queue c = some q)
    (h : andGoto t p (s.mqPush q m) = .fault f) : Crash t act s f := by
  have herror := andGoto_fault h
  rw [mqPush] at herror
  simp only [Mq.Queue.store_inGlobal] at herror
  split at herror
  · rename_i hin
    obtain ⟨rfl, hnext⟩ := globalPush_error herror
    exact .sentLinked c q (.inl ⟨m, hpc⟩) hq hin hnext
  · cases herror

theorem stepDelete_crash
    {c : Ctx} {k : After} (hpc : s.pc t = .delete c k)
    (h : stepDelete s t c k = .fault f) : Crash t act s f := by
  rw [stepDelete] at h
  split at h
  · rename_i hq
    cases h
    exact .wildQueue c (.inr ⟨k, hpc⟩) hq
  · rename_i q hq
    have herror := andGoto_fault h
    rw [markRelease] at herror
    split at herror
    · rename_i hrelease
      cases herror
      exact .markedTwice c k q hpc hq hrelease
    · simp only at herror
      split at herror
      · rename_i hin
        obtain ⟨rfl, hnext⟩ := globalPush_error herror
        exact .sentLinked c q (.inr ⟨k, hpc⟩) hq hin hnext
      · cases herror

theorem stepMqRelease_crash
    {k : After} (hpc : s.pc t = .mqRelease q k)
    (h : stepMqRelease s t q k = .fault f) : Crash t act s f := by
  rw [stepMqRelease] at h
  split at h
  · cases h
  · exact heldPush_crash (by rw [hpc]; exact List.mem_cons_self) h

theorem stepFree_crash
    {k : After} (hpc : s.pc t = .freeQueue q k)
    (h : stepFree s t q k = .fault f) : Crash t act s f := by
  rw [stepFree] at h
  split at h
  · cases h
  · rename_i hnext
    cases h
    exact .heldLinked q (by rw [hpc]; exact List.mem_cons_self) hnext

omit [DecidableEq τ] in
theorem pop_crash (h : s.globalPop = .error f) : Crash t act s f := by
  obtain ⟨rfl, q, hhead, hnext, htail⟩ := globalPop_error h
  exact .tail q hhead hnext htail

theorem stepDone_crash
    {c : Ctx} (hpc : s.pc t = .dispatchDone q c)
    (h : stepDone s t q c = .fault f) : Crash t act s f := by
  rw [stepDone] at h
  split at h
  · rename_i hq
    cases h
    exact .queueMismatch q c hpc hq
  · split at h
    · rename_i f' hpop
      cases h
      exact pop_crash hpop
    · cases h
    · cases h

theorem crash_of_step
    (h : step weight s (t, act) = .fault f) : Crash t act s f := by
  unfold step at h
  dsimp only at h
  split at h
  · exact (stepGrab_fault h).elim
  · exact (stepGrab_fault h).elim
  · cases h
  · rename_i hpc
    rw [stepNew] at h
    split at h
    · rename_i f' hreg
      cases h
      exact .register f' rfl hpc hreg
    · cases h
  · cases h
  · rename_i c m hpc
    split at h
    · rename_i hq
      cases h
      exact .wildQueue c (.inl ⟨m, hpc⟩) hq
    · rename_i q hq
      exact push_crash hpc hq h
  · cases h
  · rw [stepRelease] at h
    split at h <;> cases h
  · rename_i c k hpc
    exact stepDelete_crash hpc h
  · rw [stepRetire] at h
    split at h <;> cases h
  · cases h
  · cases h
  · cases h
  · cases h
  · cases h
  · rename_i q ret hpc
    exact heldPush_crash (by rw [hpc]; exact List.mem_cons_self) h
  · cases h
  · rename_i q k hpc
    exact stepMqRelease_crash hpc h
  · rw [stepDrop] at h
    split at h <;> cases h
  · rename_i q k hpc
    exact stepFree_crash hpc h
  · rw [stepNext] at h
    split at h
    · rename_i f' hpop
      cases h
      exact pop_crash hpop
    · cases h
    · cases h
  · exact (stepGrab_fault h).elim
  · rw [stepPop] at h
    split at h
    · cases h
    · cases h
    · split at h <;> cases h
  · cases h
  · rename_i q c i n m hpc
    rw [stepMessage] at h
    split at h
    · rename_i hinit
      cases h
      exact .notInitialised q c i n m hpc hinit
    · cases h
  · rename_i q c hpc
    exact stepDone_crash hpc h
  · rename_i q c nq hpc
    exact heldPush_crash (by rw [hpc]; exact List.mem_cons_self) h
  · cases h

/-- Only a registration fails in the handle storage. -/
theorem crash_register
    {f : Handle.Fault} (h : step weight s (t, act) = .fault (.handle f)) :
    act = .new ∧
      Handle.handleRegister s.handle s.storage s.contexts = .error f := by
  cases crash_of_step h with
  | register _ hact _ hreg => exact ⟨hact, hreg⟩

end Crashes

end State

end SkynetServer.Service
