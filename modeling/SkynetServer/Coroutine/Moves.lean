import SkynetServer.Coroutine.Resumption

/-!
# What a proper step does

A step of a state that keeps the invariant is one of a few moves, in each of
which the suspension that ends is named.  Facts about runs are proved by cases
on the moves.
-/

namespace SkynetServer.Coroutine

open Transition

/-- The moves of a message. -/
inductive MessageMove (s : State) : Message → State → Prop
  | late {session : ℕ} :
      s.sessionIdCoroutine session = some .break →
      MessageMove s (.response session) { s with
        sessionIdCoroutine :=
          Function.update s.sessionIdCoroutine session none
        control := .forks }
  | unknown {session : ℕ} : s.sessionIdCoroutine session = none →
      MessageMove s (.response session) s.raise
  | resume {co : ℕ} {w : Wait} : s.status co = .waiting w →
      MessageMove s (.response w.session) { s with
        toThreads := s.resume co w none (.response w.session)
        control := .run co }
  | timer {co session : ℕ} : s.status co = .timer session →
      MessageMove s (.response session) { s with
        toThreads := { s.toThreads with
          sessionIdCoroutine :=
            Function.update s.sessionIdCoroutine session none }.setStatus
              co .running
        control := .run co }
  | request {co : ℕ} : s.canCreate co = true →
      MessageMove s (.request co) { s with
        toThreads := s.setStatus co .running
        control := .run co }
  | error {session : ℕ} {source : BitVec 32} {sessions : List ℕ} {co : ℕ} :
      s.canCreate co = true →
      MessageMove s (.error session source sessions co)
        { s.errorDispatch session sessions with
          toThreads := s.setStatus co .pooled
          control := .wakeup }
  | other : MessageMove s .other { s with control := .forks }

/-- The moves of an operation of the running coroutine. -/
inductive OpMove (s : State) (co : ℕ) : Op → State → Prop
  | wakeup {token : Token} {other : ℕ} {w : Wait} :
      s.status other = .waiting w → w.kind.token = some token →
      OpMove s co (.wakeup token) { s with
        wakeupQueue := s.wakeupQueue ++ [token]
        woken := s.woken ++ [w.serial] }
  | noWakeup {token : Token} : s.sleepSession token = none →
      OpMove s co (.wakeup token) s
  | fork {co' : ℕ} : s.canCreate co' = true →
      OpMove s co (.fork co') { s with
        toThreads := s.setStatus co' .ready
        forkQueue := s.forkQueue ++ [co'] }
  | timeout {session co' : ℕ} : s.canCreate co' = true →
      OpMove s co (.timeout session co') { s with
        toThreads := (s.setSession session co').setStatus co'
          (.timer session) }
  | sleep {session : ℕ} {token : Option Token} :
      s.sleepSession (token.getD (.thread co)) = none →
      OpMove s co (.sleep session token) { s with
        toThreads :=
          { s.setSession session co with
            sleepSession := Function.update s.sleepSession
              (token.getD (.thread co)) (some session) }.suspendIn co
                session (.sleep (token.getD (.thread co)))
        control := .wakeup }
  | wait {session : ℕ} {token : Option Token} :
      s.sleepSession (token.getD (.thread co)) = none →
      OpMove s co (.wait session token) { s with
        toThreads :=
          { s.setSession session co with
            sleepSession := Function.update s.sleepSession
              (token.getD (.thread co)) (some session) }.suspendIn co
                session (.wait (token.getD (.thread co)))
        control := .wakeup }
  | call {session : ℕ} {service : Address} {dest : BitVec 32} :
      OpMove s co (.call session service dest) { s with
        toThreads :=
          { s.setSession session co with
            watchingSession := Function.update s.watchingSession session
              (some service) }.suspendIn co session (.call service dest)
        control := .wakeup }
  | finish : OpMove s co .finish { s with
      toThreads := s.setStatus co .pooled
      control := .wakeup }
  | error {trigger : ℕ} : s.canCreate trigger = true →
      OpMove s co (.error trigger) { s with
        toThreads := (s.setStatus co .dead).setStatus trigger .empty
        forkQueue := s.forkQueue ++ [trigger]
        frames := 0
        control := .forks }
  | exit : OpMove s co .exit (State.suspendReturn { s with
      toThreads := s.setStatus co .quit
      forkQueue := [] })

/-- The moves of `suspend` and of the loop of `dispatch_message`. -/
inductive SchedulerMove (s : State) : State → Prop
  | noToken : s.control = .wakeup → s.wakeupQueue = [] →
      SchedulerMove s { s with control := .error }
  | stale {token : Token} {queue : List Token} : s.control = .wakeup →
      s.wakeupQueue = token :: queue → s.sleepSession token = none →
      SchedulerMove s { s with wakeupQueue := queue, control := .error }
  | wake {token : Token} {queue : List Token} {co : ℕ} {w : Wait} :
      s.control = .wakeup → s.wakeupQueue = token :: queue →
      s.status co = .waiting w → w.kind.token = some token →
      SchedulerMove s { s with
        toThreads := s.resume co w (some .break) (.wakeup token)
        wakeupQueue := queue
        control := .run co
        frames := s.frames + 1 }
  | noError : s.control = .error → s.errorQueue = [] →
      SchedulerMove s s.suspendReturn
  | gone {session : ℕ} {queue : List ℕ} : s.control = .error →
      s.errorQueue = session :: queue →
      s.sessionIdCoroutine session = none →
      SchedulerMove s { s with
        errorQueue := queue
        control := .forks
        frames := 0 }
  | fail {queue : List ℕ} {co : ℕ} {w : Wait} : s.control = .error →
      s.errorQueue = w.session :: queue → s.status co = .waiting w →
      w.kind.service ≠ none →
      SchedulerMove s { s with
        toThreads := s.resume co w none (.error w.session)
        errorQueue := queue
        control := .run co }
  | done : s.control = .forks → s.forkQueue = [] →
      SchedulerMove s { s with control := .idle }
  | start {co : ℕ} {queue : List ℕ} : s.control = .forks →
      s.forkQueue = co :: queue → s.status co = .ready →
      SchedulerMove s { s with
        toThreads := s.setStatus co .running
        forkQueue := queue
        control := .run co }
  | trigger {co : ℕ} {queue : List ℕ} : s.control = .forks →
      s.forkQueue = co :: queue → s.status co = .empty →
      SchedulerMove s { s with
        toThreads := s.setStatus co .pooled
        forkQueue := queue
        control := .wakeup }

inductive Move (s : State) : Label → State → Prop
  | message {message : Message} {s' : State} : s.control = .idle →
      MessageMove s message s' → Move s (.message message) s'
  | op {co : ℕ} {op : Op} {s' : State} : s.control = .run co →
      OpMove s co op s' → Move s (.op op) s'
  | scheduler {s' : State} : SchedulerMove s s' → Move s .scheduler s'

section Moves

variable {s s' : State}

theorem messageMove
    (hinv : Inv s) {message : Message}
    (hstep : s.rawDispatchMessage message = .next s') :
    MessageMove s message s' := by
  cases message with
  | response session =>
      rw [State.rawDispatchMessage] at hstep
      rcases hentry : s.sessionIdCoroutine session with _ | ⟨co | _⟩
      · rw [hentry] at hstep
        cases hstep
        exact .unknown hentry
      · rw [hentry] at hstep
        rcases hinv.linked.status_cases hentry with ⟨w, hw, rfl⟩ | htimer
        · cases (coroutineResume_waiting hw none _).symm.trans hstep
          exact .resume hw
        · cases (coroutineResume_timer htimer _ _).symm.trans hstep
          exact .timer htimer
      · rw [hentry] at hstep
        cases hstep
        exact .late hentry
  | request co =>
      rw [State.rawDispatchMessage] at hstep
      split at hstep
      · rename_i hcreate
        cases hstep
        exact .request hcreate
      · cases hstep
  | error session source sessions co =>
      rw [State.rawDispatchMessage] at hstep
      split at hstep
      · rename_i hcreate
        cases hstep
        exact .error hcreate
      · cases hstep
  | other =>
      cases hstep
      exact .other

theorem opMove
    (hinv : Inv s) {co : ℕ} (hrun : s.control = .run co) {op : Op}
    (hproper : proper s (.op op)) (hstep : s.runOp co op = .next s') :
    OpMove s co op s' := by
  cases op with
  | wakeup token =>
      cases hstep
      cases hsleep : s.sleepSession token with
      | none =>
          simp only [State.wakeup, hsleep]
          exact .noWakeup hsleep
      | some session =>
          obtain ⟨other, w, hw, _, htoken, _⟩ := hinv.linked.sleeper hsleep
          rw [wakeup_eq hinv hw htoken]
          exact .wakeup hw htoken
  | fork co' =>
      rw [State.runOp] at hstep
      split at hstep
      · rename_i hcreate
        cases hstep
        exact .fork hcreate
      · cases hstep
  | timeout session co' =>
      rw [State.runOp] at hstep
      split at hstep
      · rename_i hcreate
        cases hstep
        exact .timeout hcreate.1
      · cases hstep
  | sleep session token =>
      have hfree := hproper.2 co hrun
      simp only [State.runOp, State.suspendSleep, Threads.setSession, hfree,
        if_true] at hstep
      cases hstep
      exact .sleep hfree
  | wait session token =>
      have hfree := hproper.2 co hrun
      simp only [State.runOp, State.suspendSleep, Threads.setSession, hfree,
        if_true] at hstep
      cases hstep
      exact .wait hfree
  | call session service dest =>
      cases hstep
      exact .call
  | finish =>
      cases hstep
      exact .finish
  | error trigger =>
      rw [State.runOp] at hstep
      split at hstep
      · rename_i hcreate
        cases hstep
        exact .error hcreate
      · cases hstep
  | exit =>
      cases hstep
      exact .exit

theorem schedulerMove
    (hinv : Inv s) (hstep : step s .scheduler = .next s') :
    SchedulerMove s s' := by
  rw [step] at hstep
  cases hcontrol : s.control with
  | idle | run co =>
      rw [hcontrol] at hstep
      cases hstep
  | wakeup =>
      rw [hcontrol] at hstep
      rcases dispatchWakeup_cases hinv with
        hqueue | ⟨token, queue, hqueue, hsleep | ⟨co, w, hw, htoken⟩⟩
      · simp only [State.dispatchWakeup, hqueue] at hstep
        cases hstep
        rw [← hqueue]
        exact .noToken hcontrol hqueue
      · cases (dispatchWakeup_stale hqueue hsleep).symm.trans hstep
        exact .stale hcontrol hqueue hsleep
      · cases (dispatchWakeup_live hinv hqueue hw htoken).symm.trans hstep
        exact .wake hcontrol hqueue hw htoken
  | error =>
      rw [hcontrol] at hstep
      rcases dispatchErrorQueue_cases hinv with
        hqueue | ⟨session, queue, hqueue, hnone | ⟨co, w, hw, rfl, hservice⟩⟩
      · simp only [State.dispatchErrorQueue, hqueue] at hstep
        cases hstep
        exact .noError hcontrol hqueue
      · cases (dispatchErrorQueue_gone hqueue hnone).symm.trans hstep
        exact .gone hcontrol hqueue hnone
      · cases (dispatchErrorQueue_live hinv hw hqueue).symm.trans hstep
        exact .fail hcontrol hqueue hw hservice
  | forks =>
      rw [hcontrol] at hstep
      rcases hqueue : s.forkQueue with _ | ⟨co, queue⟩
      · simp only [State.dispatchForks, hqueue] at hstep
        cases hstep
        rw [← hqueue]
        exact .done hcontrol hqueue
      · have hmem : co ∈ s.forkQueue := by
          rw [hqueue]
          exact List.mem_cons_self
        rcases hinv.forks co hmem with hco | hco
        · cases (dispatchForks_ready hqueue hco).symm.trans hstep
          exact .start hcontrol hqueue hco
        · cases (dispatchForks_empty hqueue hco).symm.trans hstep
          exact .trigger hcontrol hqueue hco

/-- A proper step is a move. -/
theorem step_move
    (hinv : Inv s) {l : Label} (hproper : proper s l)
    (hstep : step s l = .next s') : Move s l s' := by
  cases l with
  | message message =>
      rw [step] at hstep
      cases hcontrol : s.control with
      | idle =>
          rw [hcontrol] at hstep
          exact .message hcontrol (messageMove hinv hstep)
      | run co | wakeup | error | forks =>
          rw [hcontrol] at hstep
          cases hstep
  | op op =>
      rw [step] at hstep
      cases hcontrol : s.control with
      | idle | wakeup | error | forks =>
          rw [hcontrol] at hstep
          cases hstep
      | run co =>
          rw [hcontrol] at hstep
          exact .op hcontrol (opMove hinv hcontrol hproper hstep)
  | scheduler => exact .scheduler (schedulerMove hinv hstep)

end Moves

end SkynetServer.Coroutine
