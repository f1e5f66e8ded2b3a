import SkynetServer.Timer.Order

/-!
# The clock of `skynet_now` and the ticks of the wheel

`skynet_updatetime` adds all elapsed ticks to `TI->current` at once and then
calls `timer_update` once for each of them.  Workers read the clock with
`skynet_now` and request timeouts with `skynet_timeout` in between.  A delay
is counted from `T->time`, so a worker that has read the new clock while the
wheel is still catching up gets its message early.
-/

namespace SkynetServer.TimerClock

open Transition
open TimerWheel (TimerEvent TimerNode Phase Passing)

/-- A call of `skynet_context_push` with the value of `TI->current` then, and
the node it is made for unless the delay was not positive. -/
structure Push where
  event : TimerEvent
  now : ℕ
  node : Option TimerNode
  deriving DecidableEq, Repr

/-- `TI` with its wheel.  `left` is the number of iterations that the loop of
`skynet_updatetime` still has to begin, and `read w` is what the last
`skynet_now` of worker `w` returned.  `asked` and `pushes` are ghosts: what
the worker had read when it made the node with that number, and the messages
pushed. -/
structure State where
  wheel : TimerWheel.State
  current : ℕ
  currentPoint : ℕ
  left : ℕ
  read : ℕ → Option ℕ
  asked : List (Option ℕ)
  pushes : List Push

/-- `skynet_timer_init` with the centiseconds of the system time and the
first result of `gettime`. -/
def skynetTimerInit (current point : ℕ) : State where
  wheel := TimerWheel.init
  current := current
  currentPoint := point
  left := 0
  read := fun _ => none
  asked := []
  pushes := []

/-- `skynet_updatetime` until its loop, when `gettime` returns `cp`. -/
def skynetUpdatetime (s : State) (cp : ℕ) : State :=
  if cp < s.currentPoint then
    { s with currentPoint := cp }
  else if cp ≠ s.currentPoint then
    let diff := (cp - s.currentPoint) % 2 ^ 32
    { s with
      currentPoint := cp
      current := s.current + diff
      left := diff }
  else s

/-- `skynet_now` -/
def skynetNow (s : State) : ℕ := s.current

/-- `skynet_timeout` -/
def skynetTimeout
    (s : State) (w : ℕ) (event : TimerEvent) (time : ℤ) : State :=
  if time ≤ 0 then
    { s with pushes := s.pushes ++ [⟨event, s.current, none⟩] }
  else
    { s with
      wheel := TimerWheel.timerAdd s.wheel event time.toNat
      asked := s.asked ++ [s.read w] }

/-- The timer thread enters `skynet_updatetime`, begins an iteration of its
loop, or dispatches a node; a worker calls `skynet_now` or
`skynet_timeout`. -/
inductive Label where
  | updatetime (cp : ℕ)
  | tick
  | deliver
  | now (w : ℕ)
  | timeout (w : ℕ) (event : TimerEvent) (time : ℤ)

/-- The state with the result of a step of the wheel. -/
def State.withWheel (s : State) :
    Outcome Empty TimerWheel.State → Outcome Empty State
  | .next wheel => .next { s with wheel := wheel }
  | .blocked => .blocked
  | .fault f => .fault f

/-- One step of an interleaving. -/
def step (s : State) : Label → Outcome Empty State
  | .updatetime cp =>
    if s.left = 0 ∧ s.wheel.phase = .idle then .next (skynetUpdatetime s cp)
    else .blocked
  | .tick =>
    if s.left = 0 then .blocked
    else State.withWheel { s with left := s.left - 1 }
      (TimerWheel.step s.wheel .update)
  | .deliver =>
    match s.wheel.phase.current with
    | [] => .blocked
    | x :: _ =>
      State.withWheel
        { s with pushes := s.pushes ++ [⟨x.event, s.current, some x⟩] }
        (TimerWheel.step s.wheel .deliver)
  | .now w =>
    .next { s with read := Function.update s.read w (some (skynetNow s)) }
  | .timeout w event time => .next (skynetTimeout s w event time)

/-- The wheel has made all ticks up to the clock that the worker has read,
when it requests a timeout; `time` is an `int`. -/
def caughtUp (s : State) : Label → Prop
  | .timeout w _ time =>
    time ≤ TimerWheel.intMax ∧
      (0 < time → ∀ n, s.read w = some n → n + s.left ≤ s.current)
  | _ => True

/-- `time` is an `int`. -/
def validTime (_ : State) : Label → Prop
  | .timeout _ _ time => time ≤ TimerWheel.intMax
  | _ => True

/-! ## Invariants -/

/-- `start` is the clock before the first tick. -/
structure Steady (start : ℕ) (s : State) : Prop where
  wheel : TimerWheel.Invariant s.wheel
  order : s.wheel.InOrder
  current : s.current = start + s.wheel.ticks + s.left
  asked : s.asked.length = s.wheel.added.length
  requests : ∀ x ∈ s.wheel.added, ∀ n, s.asked[x.serial]? = some (some n) →
    n ≤ start + x.addedAt
  pushes : ∀ p ∈ s.pushes, ∀ x, p.node = some x → x ∈ s.wheel.added ∧
    start + x.due ≤ p.now

theorem steady_init (current point : ℕ) :
    Steady current (skynetTimerInit current point) where
  wheel := TimerWheel.invariant_init
  order := TimerWheel.inOrder_init
  current := rfl
  asked := rfl
  requests := fun _ hx => absurd hx List.not_mem_nil
  pushes := fun _ hp => absurd hp List.not_mem_nil

section Wheel

variable {w w' : TimerWheel.State}

theorem executeSecond_ticks (w : TimerWheel.State) :
    (TimerWheel.executeSecond w).ticks = w.ticks := by
  unfold TimerWheel.executeSecond
  split
  · rfl
  · rfl

/-- A `timer_update` makes one tick. -/
theorem wheel_update
    (h : TimerWheel.Invariant w) (hs : TimerWheel.step w .update = .next w') :
    w'.ticks = w.ticks + 1 ∧ w'.added = w.added := by
  cases hphase : w.phase with
  | idle =>
      simp only [TimerWheel.step, hphase] at hs
      cases hs
      refine ⟨?_, TimerWheel.executeFirst_added w⟩
      rw [h.executeFirst_eq, executeSecond_ticks]
      rfl
  | dispatching round current =>
      simp only [TimerWheel.step, hphase] at hs
      cases hs

theorem wheel_deliver
    (h : TimerWheel.Invariant w) (hs : TimerWheel.step w .deliver = .next w') :
    w'.ticks = w.ticks ∧ w'.added = w.added := by
  simp only [TimerWheel.step] at hs
  split at hs
  · rename_i round x rest hphase
    obtain ⟨rfl, -⟩ := h.dispatching hphase
    split at hs
    · cases hs
      exact ⟨executeSecond_ticks _, TimerWheel.executeSecond_added _⟩
    · cases hs
      exact ⟨rfl, rfl⟩
  · cases hs

/-- A node that is being dispatched is due. -/
theorem current_due
    (h : TimerWheel.Invariant w) (hord : w.InOrder) {x : TimerNode}
    (hx : x ∈ w.phase.current) : x ∈ w.added ∧ x.due ≤ w.ticks := by
  obtain ⟨done, hdone, -⟩ := hord.pushed
  have hpassed : x ∈ w.passed.map Passing.node := by
    rw [hdone]
    exact List.mem_append_right done hx
  have hadded : x ∈ (w.added : Multiset TimerNode) := by
    rw [← h.conserved, Multiset.mem_add]
    exact Or.inr hpassed
  obtain ⟨p, hp, rfl⟩ := List.mem_map.mp hpassed
  obtain ⟨htick, -, hle⟩ := h.exact_tick p hp
  exact ⟨hadded, htick ▸ hle⟩

end Wheel

section Steps

variable {start : ℕ} {s s' : State}

theorem withWheel_eq {o : Outcome Empty TimerWheel.State}
    (h : s.withWheel o = .next s') :
    ∃ wheel, o = .next wheel ∧ s' = { s with wheel := wheel } := by
  cases o with
  | next wheel =>
      cases h
      exact ⟨wheel, rfl, rfl⟩
  | blocked | fault f => cases h

theorem Steady.updatetime
    (h : Steady start s) (hleft : s.left = 0) (cp : ℕ) :
    Steady start (skynetUpdatetime s cp) := by
  have hcurrent := h.current
  unfold skynetUpdatetime
  split
  · exact { h with }
  · split
    · refine { h with current := ?_ }
      change s.current + _ = start + s.wheel.ticks + _
      rw [hcurrent, hleft, Nat.add_zero]
    · exact h

theorem Steady.tick
    (h : Steady start s) (hleft : s.left ≠ 0) {wheel : TimerWheel.State}
    (hs : TimerWheel.step s.wheel .update = .next wheel) :
    Steady start { s with left := s.left - 1, wheel := wheel } := by
  obtain ⟨hticks, hadded⟩ := wheel_update h.wheel hs
  have hcurrent := h.current
  have hvalid : TimerWheel.validDelay s.wheel .update := trivial
  refine
    { wheel := TimerWheel.step_invariant h.wheel hvalid hs
      order := TimerWheel.step_inOrder h.wheel h.order hvalid hs
      current := ?_
      asked := h.asked.trans (by rw [hadded])
      requests := ?_
      pushes := ?_ }
  · change s.current = start + wheel.ticks + (s.left - 1)
    omega
  · change ∀ x ∈ wheel.added, _
    rw [hadded]
    exact h.requests
  · intro p hp x hx
    change x ∈ wheel.added ∧ _
    rw [hadded]
    exact h.pushes p hp x hx

/-- The clock is never behind the wheel, so a message that is pushed is not
early by the clock from which its delay was counted. -/
theorem Steady.deliver
    (h : Steady start s) {x : TimerNode} {rest : List TimerNode}
    (hcurrent : s.wheel.phase.current = x :: rest) {wheel : TimerWheel.State}
    (hs : TimerWheel.step s.wheel .deliver = .next wheel) :
    Steady start
      { s with
        pushes := s.pushes ++ [⟨x.event, s.current, some x⟩]
        wheel := wheel } := by
  obtain ⟨hticks, hadded⟩ := wheel_deliver h.wheel hs
  obtain ⟨hmem, hdue⟩ := current_due h.wheel h.order
    (hcurrent ▸ List.mem_cons_self : x ∈ s.wheel.phase.current)
  have hclock := h.current
  have hvalid : TimerWheel.validDelay s.wheel .deliver := trivial
  refine
    { wheel := TimerWheel.step_invariant h.wheel hvalid hs
      order := TimerWheel.step_inOrder h.wheel h.order hvalid hs
      current := ?_
      asked := h.asked.trans (by rw [hadded])
      requests := ?_
      pushes := ?_ }
  · change s.current = start + wheel.ticks + s.left
    rw [hticks]
    exact hclock
  · change ∀ x ∈ wheel.added, _
    rw [hadded]
    exact h.requests
  · intro p hp y hy
    change y ∈ wheel.added ∧ _
    rw [hadded]
    rcases List.mem_append.mp hp with hp | hp
    · exact h.pushes p hp y hy
    · rw [List.mem_singleton.mp hp] at hy ⊢
      cases hy
      exact ⟨hmem, by dsimp only; omega⟩

theorem Steady.timeout
    (h : Steady start s) {w : ℕ} {event : TimerEvent} {time : ℤ}
    (hok : caughtUp s (.timeout w event time)) :
    Steady start (skynetTimeout s w event time) := by
  have hclock := h.current
  obtain ⟨hmax, hread⟩ := hok
  unfold skynetTimeout
  split
  · refine { h with pushes := ?_ }
    intro p hp x hx
    rcases List.mem_append.mp hp with hp | hp
    · exact h.pushes p hp x hx
    · rw [List.mem_singleton.mp hp] at hx
      cases hx
  · rename_i htime
    have hvalid : TimerWheel.validDelay s.wheel (.add event time.toNat) := by
      constructor
      · omega
      · omega
    have hadd : TimerWheel.step s.wheel (.add event time.toNat) =
      .next (TimerWheel.timerAdd s.wheel event time.toNat) := rfl
    refine
      { wheel := TimerWheel.step_invariant h.wheel hvalid hadd
        order := TimerWheel.step_inOrder h.wheel h.order hvalid hadd
        current := hclock
        asked := ?_
        requests := ?_
        pushes := ?_ }
    · simp [TimerWheel.timerAdd, h.asked]
    · intro x hx n hn
      rcases List.mem_append.mp hx with hx | hx
      · have hlt : x.serial < s.asked.length := by
          rw [h.asked]
          exact (h.wheel.nodes x hx).1
        rw [List.getElem?_append_left hlt] at hn
        exact h.requests x hx n hn
      · rw [List.mem_singleton.mp hx] at hn ⊢
        have hserial : (TimerWheel.newNode s.wheel event time.toNat).serial =
            s.asked.length := h.asked.symm
        rw [hserial, List.getElem?_concat_length] at hn
        have hbound := hread (by omega) n (Option.some.inj hn)
        change n ≤ start + s.wheel.ticks
        omega
    · intro p hp x hx
      obtain ⟨hmem, hdue⟩ := h.pushes p hp x hx
      exact ⟨List.mem_append_left _ hmem, hdue⟩

/-- Every step that meets the condition keeps the invariant. -/
theorem step_steady
    {l : Label} (h : Steady start s) (hok : caughtUp s l)
    (hs : step s l = .next s') : Steady start s' := by
  cases l with
  | updatetime cp =>
      simp only [step] at hs
      split at hs
      · rename_i hidle
        cases hs
        exact h.updatetime hidle.1 cp
      · cases hs
  | tick =>
      simp only [step] at hs
      split at hs
      · cases hs
      · rename_i hleft
        obtain ⟨wheel, hwheel, rfl⟩ := withWheel_eq hs
        exact h.tick hleft hwheel
  | deliver =>
      simp only [step] at hs
      split at hs
      · cases hs
      · rename_i x rest hcurrent
        obtain ⟨wheel, hwheel, rfl⟩ := withWheel_eq hs
        exact h.deliver hcurrent hwheel
  | now w =>
      cases hs
      exact { h with }
  | timeout w event time =>
      cases hs
      exact h.timeout hok

end Steps

/-! ## Delays by the clock -/

/-- In every run in which timeouts are requested only when the wheel has
caught up with the clock that the worker read, a message requested with a
positive delay is pushed only when the clock has advanced by that delay. -/
theorem timeouts_not_early
    {current point : ℕ} {s : State}
    (hrun : Reaches step caughtUp (skynetTimerInit current point) s)
    {p : Push} (hp : p ∈ s.pushes) {x : TimerNode} (hx : p.node = some x)
    {n : ℕ} (hn : s.asked[x.serial]? = some (some n)) :
    n + x.delay ≤ p.now := by
  have h : Steady current s := hrun.invariant (Steady current)
    (steady_init current point) fun _ _ _ h hok hs => step_steady h hok hs
  obtain ⟨hmem, hdue⟩ := h.pushes p hp x hx
  have hbound := h.requests x hmem n hn
  unfold TimerNode.due at hdue
  omega

/-- Dispatching the only node of the list. -/
theorem deliver_last
    {s : State} {x : TimerNode}
    (hphase : s.wheel.phase = .dispatching .second [x]) :
    ∃ wheel, step s .deliver = .next
      { s with
        pushes := s.pushes ++ [⟨x.event, s.current, some x⟩]
        wheel := wheel } := by
  have hcurrent : s.wheel.phase.current = [x] := by
    rw [hphase]
    rfl
  have hwheel : ∃ wheel, TimerWheel.step s.wheel .deliver = .next wheel := by
    simp only [TimerWheel.step, hphase]
    exact ⟨_, rfl⟩
  obtain ⟨wheel, hwheel⟩ := hwheel
  refine ⟨wheel, ?_⟩
  simp only [step, hcurrent, hwheel]
  rfl

/-- A worker that has read the clock requests a delay of one tick. -/
theorem timeouts_not_early_one_tick :
    ∃ s p x n, Reaches step caughtUp (skynetTimerInit 0 0) s ∧
      p ∈ s.pushes ∧ p.node = some x ∧
      s.asked[x.serial]? = some (some n) ∧ n + x.delay ≤ p.now := by
  let event : TimerEvent := ⟨16777224, 7⟩
  let s₁ := skynetTimeout
    { skynetTimerInit 0 0 with
      read := Function.update (fun _ => none) 0 (some 0) } 0 event 1
  let s₂ := skynetUpdatetime s₁ 1
  let s₃ : State :=
    { s₂ with left := 0, wheel := TimerWheel.executeFirst s₂.wheel }
  have hread : ∀ n : ℕ, some 0 = some n → n + 0 ≤ 0 := by
    intro n hn
    cases hn
    exact Nat.le_refl 0
  have hrun : Reaches step caughtUp (skynetTimerInit 0 0) s₃ :=
    .tail .tick (.tail (.updatetime 1) (.tail (.timeout 0 event 1)
      (.tail (.now 0) .refl trivial rfl) ⟨by decide, fun _ => hread⟩ rfl)
      trivial rfl) trivial rfl
  obtain ⟨wheel, hdeliver⟩ := deliver_last
    (by decide : s₃.wheel.phase =
      .dispatching .second [TimerWheel.newNode TimerWheel.init event 1])
  have hend := hrun.tail Label.deliver trivial hdeliver
  exact ⟨_, _, _, 0, hend, List.mem_concat_self, rfl, rfl,
    timeouts_not_early hend List.mem_concat_self rfl rfl⟩

/-- Two ticks have elapsed and the wheel has made none of them, when a worker
requests a delay of one tick: its message is pushed at once. -/
theorem timeout_early :
    ∃ s p x n, Reaches step validTime (skynetTimerInit 0 0) s ∧
      p ∈ s.pushes ∧ p.node = some x ∧
      s.asked[x.serial]? = some (some n) ∧ ¬ n + x.delay ≤ p.now := by
  let event : TimerEvent := ⟨16777224, 7⟩
  let s₁ := skynetTimeout
    { skynetUpdatetime (skynetTimerInit 0 0) 2 with
      read := Function.update (fun _ => none) 0 (some 2) } 0 event 1
  let s₂ : State :=
    { s₁ with left := 1, wheel := TimerWheel.executeFirst s₁.wheel }
  have hrun : Reaches step validTime (skynetTimerInit 0 0) s₂ :=
    .tail .tick (.tail (.timeout 0 event 1) (.tail (.now 0)
      (.tail (.updatetime 2) .refl trivial rfl) trivial rfl)
      (by decide : (1 : ℤ) ≤ TimerWheel.intMax) rfl) trivial rfl
  obtain ⟨wheel, hdeliver⟩ := deliver_last
    (by decide : s₂.wheel.phase =
      .dispatching .second [TimerWheel.newNode TimerWheel.init event 1])
  exact ⟨_, _, _, 2, hrun.tail .deliver trivial hdeliver,
    List.mem_concat_self, rfl, rfl, by decide⟩

end SkynetServer.TimerClock
