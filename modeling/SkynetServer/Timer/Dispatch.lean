import Mathlib.Tactic.Abel
import SkynetServer.Support.Census
import SkynetServer.Timer.Placement

/-!
# Every timer node is dispatched once, in its tick

The wheel neither loses nor copies nodes: the nodes in the wheel together
with the nodes passed to `dispatch_list` are the nodes made by `timer_add`.
With the placement invariant this determines when a node is dispatched.
-/

namespace SkynetServer.TimerWheel

open Transition

/-! ## No node is lost or copied -/

/-- All nodes in the wheel. -/
def pending (T : Timer) : Multiset TimerNode :=
  Census.total (Finset.range 256) Multiset.ofList T.near +
    Census.total (Finset.range 4)
      (Census.total (Finset.range 64) Multiset.ofList) T.t

variable {x : TimerNode}

theorem exists_mem_of_mem_pending
    {T : Timer} (hx : x ∈ pending T) :
    (∃ i, x ∈ T.near i) ∨ ∃ l j, x ∈ T.t l j := by
  rw [pending, Multiset.mem_add] at hx
  rcases hx with hx | hx
  · obtain ⟨i, -, hx⟩ := Census.exists_mem_of_mem_total hx
    exact Or.inl ⟨i, hx⟩
  · obtain ⟨l, -, hx⟩ := Census.exists_mem_of_mem_total hx
    obtain ⟨j, -, hx⟩ := Census.exists_mem_of_mem_total hx
    exact Or.inr ⟨l, j, hx⟩

theorem pending_setNear
    (T : Timer) {i : ℕ} (hi : i < 256) (nodes : List TimerNode) :
    pending { T with near := Function.update T.near i nodes } +
        (T.near i : Multiset TimerNode) =
      pending T + (nodes : Multiset TimerNode) := by
  have h := Census.total_update (s := Finset.range 256)
    Multiset.ofList T.near (Finset.mem_range.mpr hi) nodes
  simp only [pending]
  rw [add_right_comm, h, add_right_comm]

theorem pending_setLevel
    (T : Timer) {l j : ℕ} (hl : l < 4) (hj : j < 64) (nodes : List TimerNode) :
    pending (T.setLevel l j nodes) + (T.t l j : Multiset TimerNode) =
      pending T + (nodes : Multiset TimerNode) := by
  have h := Census.total_update_nested (s := Finset.range 4)
    (u := Finset.range 64) Multiset.ofList T.t
    (Finset.mem_range.mpr hl) (Finset.mem_range.mpr hj) nodes
  unfold pending
  rw [add_assoc, add_assoc]
  exact congrArg (_ + ·) h

theorem levelLoop_le (time currentTime : ℕ) (n i mask : ℕ) :
    levelLoop time currentTime n i mask ≤ i + n := by
  induction n generalizing i mask with
  | zero => simp [levelLoop]
  | succ n ih =>
      rw [levelLoop]
      split
      · omega
      · have := ih (i + 1) (mask <<< timeLevelShift)
        omega

theorem append_singleton
    (m : Multiset TimerNode) (l : List TimerNode) (x : TimerNode) :
    m + ((l ++ [x] : List TimerNode) : Multiset TimerNode) =
      m + {x} + (l : Multiset TimerNode) := by
  rw [← Multiset.coe_add, Multiset.coe_singleton,
    add_comm (l : Multiset TimerNode), add_assoc]

theorem pending_linkNear
    (T : Timer) (x : TimerNode) {i : ℕ} (hi : i < 256) :
    pending (T.linkNear i x) = pending T + {x} :=
  add_right_cancel
    ((pending_setNear T hi (T.near i ++ [x])).trans
      (append_singleton _ _ _))

theorem pending_linkLevel
    (T : Timer) (x : TimerNode) {l j : ℕ} (hl : l < 4) (hj : j < 64) :
    pending (T.linkLevel l j x) = pending T + {x} :=
  add_right_cancel
    ((pending_setLevel T hl hj (T.t l j ++ [x])).trans
      (append_singleton _ _ _))

/-- Filing a node adds it to the wheel. -/
theorem pending_addNode (T : Timer) (x : TimerNode) :
    pending (addNode T x) = pending T + {x} := by
  have hnear : x.expire &&& timeNearMask < 256 := by
    rw [show timeNearMask = 2 ^ 8 - 1 from rfl,
      Nat.and_two_pow_sub_one_eq_mod]
    exact Nat.mod_lt _ (by norm_num)
  have hlevel : ∀ m : ℕ, m &&& timeLevelMask < 64 := by
    intro m
    rw [show timeLevelMask = 2 ^ 6 - 1 from rfl,
      Nat.and_two_pow_sub_one_eq_mod]
    exact Nat.mod_lt _ (by norm_num)
  have hloop := levelLoop_le x.expire T.time 3 0
    (timeNear <<< timeLevelShift)
  simp only [addNode]
  split
  · exact pending_linkNear T x hnear
  · exact pending_linkLevel T x (by omega) (hlevel _)

theorem pending_foldl_addNode (nodes : List TimerNode) (T : Timer) :
    pending (nodes.foldl addNode T) =
      pending T + (nodes : Multiset TimerNode) := by
  induction nodes generalizing T with
  | nil => simp
  | cons x rest ih =>
      rw [List.foldl_cons, ih, pending_addNode, add_assoc,
        ← Multiset.cons_coe, ← Multiset.singleton_add]

/-- Moving a list keeps the nodes of the wheel. -/
theorem pending_moveList
    (T : Timer) {l j : ℕ} (hl : l < 4) (hj : j < 64) :
    pending (moveList T l j) = pending T := by
  rw [moveList, pending_foldl_addNode, pending_setLevel T hl hj]
  simp

theorem shiftTarget_bound {ct l j : ℕ} (hct : ct < 2 ^ 32)
    (h : shiftTarget ct = some (l, j)) : l < 4 ∧ j < 64 := by
  rw [shiftTarget_eq hct] at h
  split_ifs at h <;> cases h <;> omega

/-- One tick of the clock keeps the nodes of the wheel. -/
theorem pending_timerShift (T : Timer) :
    pending (timerShift T) = pending T := by
  simp only [timerShift]
  split
  · rename_i l j htarget
    obtain ⟨hl, hj⟩ :=
      shiftTarget_bound (Nat.mod_lt _ (by norm_num)) htarget
    rw [pending_moveList _ hl hj]
    rfl
  · rfl

/-! ## The invariant of all runs -/

/-- What holds while the lock is held between the parts of `timer_update`:
every node is accounted for, and nodes were only dispatched in their tick. -/
structure Accounted (s : State) : Prop where
  placed : Placed s.timer s.ticks
  conserved :
    pending s.timer + (s.passed.map Passing.node : Multiset TimerNode) =
      (s.added : Multiset TimerNode)
  nodes : ∀ x ∈ s.added,
    x.serial < s.added.length ∧ x.expire = x.due % 2 ^ 32
  distinct : s.added.Nodup
  exact_tick : ∀ p ∈ s.passed,
    p.tick = p.node.due ∧ p.time = p.node.expire ∧ p.tick ≤ s.ticks

/-- What holds whenever the lock is free: moreover no node in the wheel is
due any more, and only the second `timer_execute` dispatches. -/
structure Invariant (s : State) : Prop extends Accounted s where
  later : ∀ {i x}, x ∈ s.timer.near i → s.ticks < x.due
  dispatching : ∀ {round current}, s.phase = .dispatching round current →
    round = .second ∧ current ≠ []

theorem invariant_init : Invariant init where
  placed := ⟨rfl, by simp [init], by simp [init]⟩
  conserved := by
    simp only [init, pending, List.map_nil, Multiset.coe_nil, add_zero]
    rw [Census.total_eq_zero, Census.total_eq_zero, add_zero]
    · intro l _
      exact Census.total_eq_zero fun _ _ => rfl
    · intro i _
      rfl
  nodes := by simp [init]
  distinct := by simp [init]
  exact_tick := by simp [init]
  later := by simp [init]
  dispatching := by simp [init]

section Steps

variable {s : State}

theorem Accounted.idx_eq (h : Accounted s) : s.idx = s.ticks % 2 ^ 8 := by
  rw [State.idx, h.placed.time, show timeNearMask = 2 ^ 8 - 1 from rfl,
    Nat.and_two_pow_sub_one_eq_mod]
  omega

/-- The list of the current slot holds the nodes due in this tick. -/
theorem Accounted.near_idx_iff
    (h : Accounted s) {i : ℕ} {x : TimerNode} (hx : x ∈ s.timer.near i) :
    i = s.idx ↔ x.due = s.ticks := by
  obtain ⟨-, hquot, hidx⟩ := h.placed.near hx
  rw [h.idx_eq]
  simp only [span_zero] at hquot hidx
  omega

theorem Accounted.take_invariant
    (h : Accounted s) (hne : s.timer.near s.idx ≠ []) :
    Invariant (s.take .second) := by
  have hlt : s.idx < 256 := by
    rw [h.idx_eq]
    omega
  have hcons := pending_setNear s.timer hlt []
  have hnear : ∀ {i x},
      x ∈ (s.take .second).timer.near i → x ∈ s.timer.near i ∧ i ≠ s.idx := by
    intro i x hx
    by_cases hi : i = s.idx
    · subst hi
      simp [State.take] at hx
    · exact ⟨by simpa [State.take, hi] using hx, hi⟩
  refine
    { placed := ⟨h.placed.time, fun hx => h.placed.near (hnear hx).1,
        fun hx => h.placed.level hx⟩
      conserved := ?_
      nodes := h.nodes
      distinct := h.distinct
      exact_tick := ?_
      later := ?_
      dispatching := ?_ }
  · change _ = (s.added : Multiset TimerNode)
    rw [Multiset.coe_nil, add_zero] at hcons
    rw [← h.conserved, ← hcons]
    simp only [State.take, List.map_append, List.map_map, ← Multiset.coe_add]
    have hid : (Passing.node ∘ fun x => ⟨x, s.ticks, s.timer.time⟩) = id :=
      rfl
    rw [hid, List.map_id]
    abel
  · intro p hp
    simp only [State.take, List.mem_append, List.mem_map] at hp
    rcases hp with hp | ⟨x, hx, rfl⟩
    · exact h.exact_tick p hp
    · have hdue := (h.near_idx_iff hx).mp rfl
      obtain ⟨hlive, -⟩ := h.placed.near hx
      exact ⟨hdue.symm, by rw [hlive.expire, hdue, h.placed.time],
        le_refl _⟩
  · intro i x hx
    obtain ⟨hx, hi⟩ := hnear hx
    obtain ⟨hlive, -⟩ := h.placed.near hx
    have hdue := mt (h.near_idx_iff hx).mpr hi
    exact lt_of_le_of_ne hlive.from_now (Ne.symm hdue)
  · intro round current hphase
    cases hphase
    exact ⟨rfl, hne⟩

theorem Accounted.executeSecond_invariant
    (h : Accounted s) : Invariant (executeSecond s) := by
  unfold executeSecond
  split
  · rename_i hempty
    refine { h with later := ?_, dispatching := by simp }
    intro i x hx
    obtain ⟨hlive, -⟩ := h.placed.near hx
    apply lt_of_le_of_ne hlive.from_now
    intro hdue
    have hi := (h.near_idx_iff hx).mpr hdue.symm
    change x ∈ s.timer.near i at hx
    rw [hi, hempty] at hx
    simp at hx
  · rename_i hne
    exact h.take_invariant hne

/-- Before the shift nothing is due, so the first `timer_execute` passes. -/
theorem Invariant.near_idx_nil (h : Invariant s) :
    s.timer.near s.idx = [] := by
  rw [List.eq_nil_iff_forall_not_mem]
  intro x hx
  have hdue := (h.near_idx_iff hx).mp rfl
  have hlater := h.later hx
  omega

theorem Invariant.shift_accounted (h : Invariant s) : Accounted s.shift where
  placed := timerShift_placed h.placed h.later
  conserved := by
    rw [State.shift, pending_timerShift]
    exact h.conserved
  nodes := h.nodes
  distinct := h.distinct
  exact_tick := by
    intro p hp
    obtain ⟨htick, htime, hle⟩ := h.exact_tick p hp
    exact ⟨htick, htime, Nat.le_succ_of_le hle⟩

theorem Invariant.executeFirst_eq (h : Invariant s) :
    executeFirst s = executeSecond s.shift := by
  rw [executeFirst, if_pos h.near_idx_nil]

theorem Invariant.newNode_live
    (h : Invariant s) (event : TimerEvent) {time : ℕ} (hmax : time ≤ intMax) :
    Live s.ticks (newNode s event time) where
  expire := by
    simp only [newNode, TimerNode.due, h.placed.time]
    omega
  from_now := Nat.le_add_right _ _
  within := by
    change s.ticks + time < s.ticks + 2 ^ 31
    unfold intMax at hmax
    omega

theorem Invariant.timerAdd_invariant
    (h : Invariant s) {event : TimerEvent} {time : ℕ}
    (hmin : 1 ≤ time) (hmax : time ≤ intMax) :
    Invariant (timerAdd s event time) := by
  have hlive := h.newNode_live event hmax
  have hdue : s.ticks < (newNode s event time).due :=
    Nat.lt_add_of_pos_right hmin
  refine
    { placed := addNode_placed h.placed hlive
      conserved := ?_
      nodes := ?_
      distinct := ?_
      exact_tick := h.exact_tick
      later := ?_
      dispatching := h.dispatching }
  · simp only [timerAdd, pending_addNode, ← Multiset.coe_add]
    rw [← h.conserved, Multiset.coe_singleton]
    abel
  · intro x hx
    simp only [timerAdd, List.mem_append, List.mem_singleton,
      List.length_append, List.length_singleton] at hx ⊢
    rcases hx with hx | rfl
    · exact ⟨Nat.lt_succ_of_lt (h.nodes x hx).1, (h.nodes x hx).2⟩
    · exact ⟨Nat.lt_succ_self _, hlive.expire⟩
  · -- the new node carries a serial number that no earlier node has
    have hfresh : newNode s event time ∉ s.added := fun hmem =>
      absurd (h.nodes _ hmem).1 (lt_irrefl _)
    simpa [timerAdd, List.nodup_append] using
      ⟨h.distinct, fun x hx heq => hfresh (heq ▸ hx)⟩
  · intro i x hx
    rcases addNode_cases h.placed hlive with ⟨-, heq⟩ | ⟨l, -, -, -, heq⟩
    · simp only [timerAdd, heq] at hx ⊢
      rcases mem_linkNear.mp hx with hx | ⟨-, rfl⟩
      · exact h.later hx
      · exact hdue
    · simp only [timerAdd, heq] at hx ⊢
      exact h.later hx

end Steps

/-- Every step of every interleaving keeps the invariant. -/
theorem step_invariant
    {s s' : State} {l : Label} (h : Invariant s) (hok : validDelay s l)
    (hs : step s l = .next s') :
    Invariant s' := by
  cases l with
  | add event time =>
      cases hs
      exact h.timerAdd_invariant hok.1 hok.2
  | update =>
      simp only [step] at hs
      split at hs
      · cases hs
        rw [h.executeFirst_eq]
        exact h.shift_accounted.executeSecond_invariant
      · cases hs
  | deliver =>
      simp only [step] at hs
      split at hs
      · rename_i round x rest hphase
        obtain ⟨rfl, -⟩ := h.dispatching hphase
        -- pushing a message leaves the wheel as it is
        have hpush :
            Invariant { s with pushed := s.pushed ++ [x.event] } :=
          { h with }
        split at hs
        · cases hs
          exact hpush.toAccounted.executeSecond_invariant
        · cases hs
          exact { h with dispatching := by simp }
      · cases hs

variable {s : State}

theorem reaches_invariant
    (h : Reaches step validDelay init s) : Invariant s :=
  h.invariant Invariant invariant_init
    fun _ _ _ hi hok hs => step_invariant hi hok hs

/-! ## Dispatching -/

/-- The timer thread finishes a tick by its own steps: after the list has
been dispatched its slot is empty, whatever was added meanwhile. -/
theorem deliver_ends
    (rest : List TimerNode)
    (h : Invariant s) (hphase : s.phase = .dispatching .second (x :: rest)) :
    ∃ s', exec step s (List.replicate (rest.length + 1) .deliver) =
        .next s' ∧ s'.phase = .idle ∧ s'.ticks = s.ticks := by
  induction rest generalizing s x with
  | nil =>
      have hnil := h.near_idx_nil
      refine ⟨{ s with pushed := s.pushed ++ [x.event], phase := .idle },
        ?_, rfl, rfl⟩
      simp only [List.length_nil, List.replicate, exec, step, hphase,
        timerExecute, executeSecond]
      exact congrArg Outcome.next (if_pos hnil)
  | cons y rest ih =>
      have hs : step s .deliver =
          .next { s with
            pushed := s.pushed ++ [x.event]
            phase := .dispatching .second (y :: rest) } := by
        simp only [step, hphase]
      obtain ⟨s', hexec, hidle, hticks⟩ :=
        ih (step_invariant (l := .deliver) h trivial hs) rfl
      refine ⟨s', ?_, hidle, hticks⟩
      rw [List.length_cons, List.replicate_succ, exec, hs]
      exact hexec

theorem tick_ends (h : Invariant s) :
    ∃ k s', exec step s (List.replicate k .deliver) = .next s' ∧
      s'.phase = .idle ∧ s'.ticks = s.ticks := by
  cases hphase : s.phase with
  | idle => exact ⟨0, s, rfl, hphase, rfl⟩
  | dispatching round current =>
      obtain ⟨rfl, hne⟩ := h.dispatching hphase
      obtain ⟨x, rest, rfl⟩ := List.exists_cons_of_ne_nil hne
      exact ⟨rest.length + 1, deliver_ends rest h hphase⟩

/-- How often the node has been passed to `dispatch_list`. -/
def passCount (s : State) (x : TimerNode) : ℕ :=
  (s.passed.map Passing.node).count x

theorem Invariant.count_pending_add
    (h : Invariant s) (hx : x ∈ s.added) :
    (pending s.timer).count x + passCount s x = 1 := by
  have hcount := congrArg (Multiset.count x) h.conserved
  rw [Multiset.count_add, Multiset.coe_count, Multiset.coe_count,
    List.count_eq_one_of_mem h.distinct hx] at hcount
  exact hcount

/-- A node in the wheel is due in a later tick. -/
theorem Invariant.pending_later
    (h : Invariant s)
    (hx : x ∈ pending s.timer) : s.ticks < x.due := by
  rcases exists_mem_of_mem_pending hx with ⟨i, hx⟩ | ⟨l, j, hx⟩
  · exact h.later hx
  · exact h.placed.level_later hx

/-- A node is in the wheel exactly until its tick. -/
theorem Invariant.passCount_eq
    (h : Invariant s) (hx : x ∈ s.added) :
    passCount s x = if x.due ≤ s.ticks then 1 else 0 := by
  have hcount := h.count_pending_add hx
  split
  · rename_i hdue
    have hgone : x ∉ pending s.timer := fun hmem =>
      absurd (h.pending_later hmem) (not_lt_of_ge hdue)
    rw [Multiset.count_eq_zero_of_notMem hgone] at hcount
    omega
  · rename_i hdue
    rw [passCount, List.count_eq_zero]
    intro hmem
    obtain ⟨p, hp, rfl⟩ := List.mem_map.mp hmem
    obtain ⟨htick, -, hle⟩ := h.exact_tick p hp
    exact hdue (htick ▸ hle)

/-- In every run of `timer_add` calls and ticks, including additions made
while `timer_execute` has dropped the lock, a node added after `addedAt`
ticks with delay `delay` has been passed to `dispatch_list` exactly once as
soon as tick `addedAt + delay` has reached its dispatch and never before,
only in that tick, in which the 32-bit clock shows the stored deadline.  The
timer thread always completes a tick it has begun. -/
theorem timer_node_dispatched_in_its_tick
    {s : State} (hrun : Reaches step validDelay init s)
    {x : TimerNode} (hx : x ∈ s.added) :
    s.timer.time = s.ticks % 2 ^ 32 ∧
      passCount s x = (if x.addedAt + x.delay ≤ s.ticks then 1 else 0) ∧
      (∀ p ∈ s.passed, p.node = x →
        p.tick = x.addedAt + x.delay ∧
          p.time = (x.addedAt % 2 ^ 32 + x.delay) % 2 ^ 32) ∧
      ∃ k s', exec step s (List.replicate k .deliver) = .next s' ∧
        s'.phase = .idle ∧ s'.ticks = s.ticks := by
  have h := reaches_invariant hrun
  refine ⟨h.placed.time, h.passCount_eq hx, ?_, tick_ends h⟩
  rintro p hp rfl
  obtain ⟨htick, htime, -⟩ := h.exact_tick p hp
  refine ⟨htick, ?_⟩
  rw [htime, (h.nodes _ hx).2, TimerNode.due]
  omega

/-- A delay of one tick: the node is dispatched in the first tick. -/
theorem timer_node_dispatched_in_first_tick :
    ∃ s x, Reaches step validDelay init s ∧ x ∈ s.added ∧
      x.delay = 1 ∧ passCount s x = 1 := by
  let event : TimerEvent := ⟨16777224, 7⟩
  let s₁ := timerAdd init event 1
  let x := newNode init event 1
  have hrun : Reaches step validDelay init (executeFirst s₁) :=
    .tail .update (.tail (.add event 1) .refl ⟨le_refl 1, by decide⟩ rfl)
      trivial rfl
  have hmem : x ∈ (executeFirst s₁).added := by decide
  obtain ⟨-, hcount, -⟩ := timer_node_dispatched_in_its_tick hrun hmem
  exact ⟨_, x, hrun, hmem, rfl, hcount.trans (by decide)⟩

end SkynetServer.TimerWheel
