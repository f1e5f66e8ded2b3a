import SkynetServer.Coroutine.Invariant

/-!
# Every suspension ends once

In a proper run the scheduler resumes a coroutine only in the suspension that
the response, the wakeup or the error is for.  Both queues are empty when a
message has been handled, unless a coroutine calls `skynet.exit` or a token
that nobody sleeps with stops the loop of `dispatch_wakeup`.
-/

namespace SkynetServer.Coroutine

open Transition

/-! ## Runs -/

section Run

variable {s : State} {co : ℕ}

theorem coroutineResume_waiting
    {w : Wait} (h : s.status co = .waiting w)
    (entry : Option Entry) (cause : Cause) :
    State.coroutineResume { s with
        sessionIdCoroutine :=
          Function.update s.sessionIdCoroutine w.session entry } co cause =
      .next { s with
        toThreads := s.resume co w entry cause
        control := .run co } := by
  simp only [State.coroutineResume, h, Threads.resume]

theorem coroutineResume_timer
    {co session : ℕ} (h : s.status co = .timer session)
    (entries : ℕ → Option Entry) (cause : Cause) :
    State.coroutineResume { s with sessionIdCoroutine := entries } co
        cause =
      .next { s with
        toThreads := { s.toThreads with
          sessionIdCoroutine := entries }.setStatus co .running
        control := .run co } := by
  simp only [State.coroutineResume, h]

/-- A coroutine with a session is suspended or waits for its timer. -/
theorem Linked.status_cases
    {t : Threads} (h : Linked t) {session co : ℕ}
    (hentry : t.sessionIdCoroutine session = some (.co co)) :
    (∃ w, t.status co = .waiting w ∧ w.session = session) ∨
      t.status co = .timer session := by
  have hsession := (h.entry session co).mp hentry
  cases hstatus : t.status co with
  | waiting w =>
      rw [hstatus] at hsession
      exact .inl ⟨w, rfl, Option.some.inj hsession⟩
  | timer n =>
      rw [hstatus] at hsession
      rw [Option.some.inj hsession]
      exact .inr rfl
  | absent | ready | empty | running | pooled | dead | quit =>
      rw [hstatus] at hsession
      cases hsession

/-- A response resumes the coroutine of its session. -/
theorem resume_session
    (hinv : Inv s) (hstopped : s.control.Stopped) {session co : ℕ}
    (hentry : s.sessionIdCoroutine session = some (.co co))
    {errorQueue : List ℕ} (herrors : ∀ n ∈ errorQueue, n ∈ s.errorQueue)
    {cause : Cause} (hends : ∀ w, s.status co = .waiting w →
      w.session = session → cause.Ends w) :
    ∃ s', State.coroutineResume { s with
        errorQueue := errorQueue
        sessionIdCoroutine :=
          Function.update s.sessionIdCoroutine session none } co cause =
        .next s' ∧ Inv s' := by
  obtain ⟨t, ht⟩ : ∃ t : State, t = { s with errorQueue := errorQueue } :=
    ⟨_, rfl⟩
  have hstatus : t.status = s.status := by rw [ht]
  rcases hinv.linked.status_cases hentry with ⟨w, hw, rfl⟩ | htimer
  · have hkept := hinv.resume hstopped hw (.inl rfl) (hends w hw rfl)
      s.frames (fun _ h => .inl h) herrors
    have hstep := coroutineResume_waiting (hstatus ▸ hw) none cause
    rw [ht] at hstep
    exact ⟨_, hstep, hkept⟩
  · have hkept := hinv.startTimer hstopped htimer herrors
    have hstep := coroutineResume_timer (hstatus ▸ htimer)
      (Function.update s.sessionIdCoroutine session none) cause
    rw [ht] at hstep
    exact ⟨_, hstep, hkept⟩

theorem Control.Stopped.of_eq
    {control control' : Control} (h : control = control')
    (h' : control'.Stopped) : control.Stopped := h ▸ h'

theorem stopped_idle : Control.idle.Stopped := fun _ h => (by cases h)

theorem stopped_wakeup : Control.wakeup.Stopped := fun _ h => (by cases h)

theorem stopped_error : Control.error.Stopped := fun _ h => (by cases h)

theorem stopped_forks : Control.forks.Stopped := fun _ h => (by cases h)

/-- `dispatch_message` of a message. -/
theorem step_message
    (hinv : Inv s) (hcontrol : s.control = .idle) {message : Message}
    (hproper : proper s (.message message)) :
    s.rawDispatchMessage message = .blocked ∨
      ∃ s', s.rawDispatchMessage message = .next s' ∧ Inv s' := by
  have hstopped : s.control.Stopped := stopped_idle.of_eq hcontrol
  cases message with
  | response session =>
      right
      rw [State.rawDispatchMessage]
      rcases hentry : s.sessionIdCoroutine session with _ | ⟨co | _⟩
      · exact ⟨_, rfl, hinv.queues hstopped stopped_forks
          (fun _ h => .inl h) fun _ h => h⟩
      · exact resume_session hinv hstopped hentry (fun _ h => h)
          fun w _ hsession => hsession
      · exact ⟨_, rfl, hinv.unbreak hstopped hentry⟩
  | request co =>
      rw [State.rawDispatchMessage]
      cases hcreate : s.canCreate co with
      | false => exact .inl rfl
      | true =>
          right
          exact ⟨_, rfl, hinv.create hstopped hcreate (.inl ⟨rfl, rfl⟩)⟩
  | error session source sessions co =>
      rw [State.rawDispatchMessage]
      cases hcreate : s.canCreate co with
      | false => exact .inl rfl
      | true =>
          right
          refine ⟨_, rfl, ?_⟩
          have hdone := hinv.create hstopped hcreate
            (.inr ⟨rfl, stopped_wakeup⟩)
          rw [State.errorDispatch]
          by_cases hzero : session = 0
          · rw [if_pos hzero]
            apply hdone.addErrors
            intro n hn
            exact ⟨_, ((hproper hzero).2 n).mp hn⟩
          · rw [if_neg hzero]
            cases hwatch : s.watchingSession session with
            | none => exact hdone
            | some service =>
                apply hdone.addErrors
                intro n hn
                rw [List.mem_singleton.mp hn]
                exact ⟨service, hwatch⟩
  | other =>
      right
      rw [State.rawDispatchMessage]
      exact ⟨_, rfl, hinv.queues hstopped stopped_forks
        (fun _ h => .inl h) fun _ h => h⟩

/-- An operation of the running coroutine. -/
theorem step_op
    (hinv : Inv s) (hrun : s.control = .run co) {op : Op}
    (hproper : proper s (.op op)) :
    s.runOp co op = .blocked ∨
      ∃ s', s.runOp co op = .next s' ∧ Inv s' := by
  cases op with
  | wakeup token => exact .inr ⟨_, rfl, hinv.wakeup token⟩
  | fork co' =>
      rw [State.runOp]
      cases hcreate : s.canCreate co' with
      | false => exact .inl rfl
      | true => exact .inr ⟨_, rfl, hinv.fork hcreate (.inl rfl)⟩
  | timeout session co' =>
      rw [State.runOp]
      cases hcreate : s.canCreate co' with
      | false => exact .inl (if_neg fun h => (by cases h.1))
      | true =>
          exact .inr ⟨_, if_pos ⟨rfl, hproper.1⟩,
            hinv.setTimer hcreate hproper⟩
  | sleep session token | wait session token =>
      exact .inr ⟨_, rfl, hinv.suspendSleep hrun hproper.1
        (hproper.2 co hrun) rfl rfl⟩
  | call session service dest =>
      exact .inr ⟨_, rfl, hinv.suspendCall hrun hproper.1 service dest⟩
  | finish =>
      exact .inr ⟨_, rfl, hinv.stop hrun (.inl rfl) stopped_wakeup
        hinv.forks_nodup fun _ h => h⟩
  | error trigger =>
      rw [State.runOp]
      cases hcreate : s.canCreate trigger with
      | false => exact .inl rfl
      | true =>
          right
          refine ⟨_, rfl, ?_⟩
          have hdead : Inv { s with
              toThreads := s.setStatus co .dead
              control := .forks
              frames := 0 } :=
            hinv.stop hrun (.inr (.inl rfl)) stopped_forks hinv.forks_nodup
              fun _ h => h
          have hne : trigger ≠ co := by
            rintro rfl
            exact (hinv.idle_of_canCreate hcreate).1 hrun
          have hcreate' : State.canCreate { s with
              toThreads := s.setStatus co .dead
              control := .forks
              frames := 0 } trigger = true := by
            have hstatus : (s.setStatus co .dead).status trigger =
                s.status trigger := Function.update_of_ne hne _ _
            rw [State.canCreate] at hcreate ⊢
            dsimp only
            rw [hstatus]
            exact hcreate
          exact hdead.fork hcreate' (.inr rfl)
  | exit =>
      right
      refine ⟨_, rfl, ?_⟩
      rw [State.suspendReturn]
      cases s.frames with
      | zero =>
          exact hinv.stop hrun (.inr (.inr rfl)) stopped_forks
            List.nodup_nil fun _ h => (by cases h)
      | succ frames =>
          exact hinv.stop hrun (.inr (.inr rfl)) stopped_error
            List.nodup_nil fun _ h => (by cases h)

/-! ### The functions of the scheduler -/

theorem dispatchWakeup_stale
    {token : Token} {queue : List Token}
    (hqueue : s.wakeupQueue = token :: queue)
    (hsleep : s.sleepSession token = none) :
    s.dispatchWakeup =
      .next { s with wakeupQueue := queue, control := .error } := by
  simp only [State.dispatchWakeup, hqueue, hsleep]

theorem dispatchWakeup_live
    (hinv : Inv s) {token : Token} {queue : List Token}
    (hqueue : s.wakeupQueue = token :: queue) {w : Wait}
    (hw : s.status co = .waiting w) (htoken : w.kind.token = some token) :
    s.dispatchWakeup = .next { s with
      toThreads := s.resume co w (some .break) (.wakeup token)
      wakeupQueue := queue
      control := .run co
      frames := s.frames + 1 } := by
  have hsleep : s.sleepSession token = some w.session :=
    (hinv.linked.sleep token w.session).mpr ⟨co, w, hw, rfl, htoken⟩
  have hentry := hinv.linked.session_of_waiting hw
  obtain ⟨t, ht⟩ : ∃ t : State, t = { s with
      wakeupQueue := queue
      frames := s.frames + 1 } := ⟨_, rfl⟩
  have hstatus : t.status = s.status := by rw [ht]
  have hstep := coroutineResume_waiting (hstatus ▸ hw) (some .break)
    (.wakeup token)
  rw [ht] at hstep
  simp only [State.dispatchWakeup, hqueue, hsleep, hentry]
  exact hstep

/-- The coroutine that sleeps with the next token, if there is one. -/
theorem dispatchWakeup_cases
    (hinv : Inv s) :
    s.wakeupQueue = [] ∨ ∃ token queue, s.wakeupQueue = token :: queue ∧
      (s.sleepSession token = none ∨ ∃ co w, s.status co = .waiting w ∧
        w.kind.token = some token) := by
  rcases hqueue : s.wakeupQueue with _ | ⟨token, queue⟩
  · exact .inl rfl
  · refine .inr ⟨token, queue, rfl, ?_⟩
    cases hsleep : s.sleepSession token with
    | none => exact .inl rfl
    | some session =>
        obtain ⟨co, w, hw, _, htoken, _⟩ := hinv.linked.sleeper hsleep
        exact .inr ⟨co, w, hw, htoken⟩

variable {queue : List ℕ}

theorem dispatchErrorQueue_gone
    {session : ℕ} (hqueue : s.errorQueue = session :: queue)
    (hnone : s.sessionIdCoroutine session = none) :
    s.dispatchErrorQueue = .next { s with
      errorQueue := queue
      control := .forks
      frames := 0 } := by
  have hsame : Function.update s.sessionIdCoroutine session none =
      s.sessionIdCoroutine := by
    rw [← hnone, Function.update_eq_self]
  simp only [State.dispatchErrorQueue, hqueue, hnone, hsame, State.raise]

theorem dispatchErrorQueue_live
    (hinv : Inv s) {w : Wait}
    (hw : s.status co = .waiting w)
    (hqueue : s.errorQueue = w.session :: queue) :
    s.dispatchErrorQueue = .next { s with
      toThreads := s.resume co w none (.error w.session)
      errorQueue := queue
      control := .run co } := by
  have hentry := hinv.linked.session_of_waiting hw
  obtain ⟨t, ht⟩ : ∃ t : State, t = { s with errorQueue := queue } :=
    ⟨_, rfl⟩
  have hstatus : t.status = s.status := by rw [ht]
  have hstep := coroutineResume_waiting (hstatus ▸ hw) none
    (.error w.session)
  rw [ht] at hstep
  simp only [State.dispatchErrorQueue, hqueue, hentry]
  exact hstep

/-- The call of the next session in the error queue, if it waits still. -/
theorem dispatchErrorQueue_cases
    (hinv : Inv s) :
    s.errorQueue = [] ∨ ∃ session queue, s.errorQueue = session :: queue ∧
      (s.sessionIdCoroutine session = none ∨
        ∃ co w, s.status co = .waiting w ∧ w.session = session ∧
          w.kind.service ≠ none) := by
  rcases hqueue : s.errorQueue with _ | ⟨session, queue⟩
  · exact .inl rfl
  · refine .inr ⟨session, queue, rfl, ?_⟩
    have hmem : session ∈ s.errorQueue := by
      rw [hqueue]
      exact List.mem_cons_self
    rcases hinv.errors session hmem with hnone | ⟨service, hwatch⟩
    · exact .inl hnone
    · obtain ⟨co, w, hw, hsession, hservice⟩ :=
        (hinv.linked.watch session service).mp hwatch
      refine .inr ⟨co, w, hw, hsession, ?_⟩
      rw [hservice]
      exact fun h => (by cases h)

theorem dispatchForks_ready
    (hqueue : s.forkQueue = co :: queue)
    (hco : s.status co = .ready) :
    s.dispatchForks = .next { s with
      toThreads := s.setStatus co .running
      forkQueue := queue
      control := .run co } := by
  simp only [State.dispatchForks, hqueue, State.coroutineResume, hco]

theorem dispatchForks_empty
    (hqueue : s.forkQueue = co :: queue)
    (hco : s.status co = .empty) :
    s.dispatchForks = .next { s with
      toThreads := s.setStatus co .pooled
      forkQueue := queue
      control := .wakeup } := by
  simp only [State.dispatchForks, hqueue, State.coroutineResume, hco]

/-! ### Steps keep the invariant -/

/-- The next token is taken. -/
theorem step_wakeup
    (hinv : Inv s) (hcontrol : s.control = .wakeup) :
    ∃ s', s.dispatchWakeup = .next s' ∧ Inv s' := by
  have hstopped : s.control.Stopped := stopped_wakeup.of_eq hcontrol
  rcases dispatchWakeup_cases hinv with
    hqueue | ⟨token, queue, hqueue, hsleep | ⟨co, w, hw, htoken⟩⟩
  · refine ⟨{ s with control := .error }, ?_, ?_⟩
    · simp only [State.dispatchWakeup, hqueue]
    · exact hinv.queues hstopped stopped_error (fun _ h => .inl h)
        fun _ h => h
  · refine ⟨_, dispatchWakeup_stale hqueue hsleep,
      hinv.queues hstopped stopped_error ?_ fun _ h => h⟩
    intro other hother
    rw [hqueue] at hother
    rcases List.mem_cons.mp hother with rfl | h
    · exact .inr hsleep
    · exact .inl h
  · have hservice : w.kind.service = none := by
      rcases w with ⟨serial, session, kind⟩
      cases kind with
      | sleep _ | wait _ => rfl
      | call _ _ => cases htoken
    have hends : Cause.Ends w (.wakeup token) := htoken
    refine ⟨_, dispatchWakeup_live hinv hqueue hw htoken,
      hinv.resume hstopped hw (.inr ⟨rfl, hservice⟩) hends _ ?_
        fun _ h => h⟩
    intro other hother
    rw [hqueue] at hother
    rcases List.mem_cons.mp hother with rfl | h
    · exact .inr htoken
    · exact .inl h

/-- The next session with an error is taken. -/
theorem step_error
    (hinv : Inv s) (hcontrol : s.control = .error) :
    ∃ s', s.dispatchErrorQueue = .next s' ∧ Inv s' := by
  have hstopped : s.control.Stopped := stopped_error.of_eq hcontrol
  rcases dispatchErrorQueue_cases hinv with
    hqueue | ⟨session, queue, hqueue, hnone | ⟨co, w, hw, rfl, hservice⟩⟩
  · refine ⟨s.suspendReturn, ?_, ?_⟩
    · simp only [State.dispatchErrorQueue, hqueue]
    · rw [State.suspendReturn]
      cases s.frames with
      | zero =>
          exact hinv.queues hstopped stopped_forks (fun _ h => .inl h)
            fun _ h => h
      | succ frames =>
          exact hinv.queues hstopped stopped_error (fun _ h => .inl h)
            fun _ h => h
  · refine ⟨_, dispatchErrorQueue_gone hqueue hnone,
      hinv.queues hstopped stopped_forks (fun _ h => .inl h) ?_⟩
    intro n hn
    rw [hqueue]
    exact List.mem_cons_of_mem _ hn
  · have hends : Cause.Ends w (.error w.session) := ⟨rfl, hservice⟩
    refine ⟨_, dispatchErrorQueue_live hinv hw hqueue,
      hinv.resume hstopped hw (.inl rfl) hends _ (fun _ h => .inl h) ?_⟩
    intro n hn
    rw [hqueue]
    exact List.mem_cons_of_mem _ hn

/-- The next coroutine is started. -/
theorem step_forks
    (hinv : Inv s) (hcontrol : s.control = .forks) :
    ∃ s', s.dispatchForks = .next s' ∧ Inv s' := by
  have hstopped : s.control.Stopped := stopped_forks.of_eq hcontrol
  rcases hqueue : s.forkQueue with _ | ⟨co, queue⟩
  · refine ⟨{ s with control := .idle }, ?_, ?_⟩
    · simp only [State.dispatchForks, hqueue]
    · exact hinv.queues hstopped stopped_idle (fun _ h => .inl h)
        fun _ h => h
  · have hmem : co ∈ s.forkQueue := by
      rw [hqueue]
      exact List.mem_cons_self
    rcases hinv.forks co hmem with hco | hco
    · exact ⟨_, dispatchForks_ready hqueue hco,
        hinv.startFork hstopped hqueue (.inl ⟨rfl, rfl⟩)⟩
    · exact ⟨_, dispatchForks_empty hqueue hco,
        hinv.startFork hstopped hqueue (.inr ⟨rfl, stopped_wakeup⟩)⟩

/-- A proper step keeps the invariant and resumes only what is suspended. -/
theorem step_cases
    (hinv : Inv s) {l : Label} (hproper : proper s l) :
    step s l = .blocked ∨ ∃ s', step s l = .next s' ∧ Inv s' := by
  cases l with
  | message message =>
      rw [step]
      cases hcontrol : s.control with
      | idle => exact step_message hinv hcontrol hproper
      | run co | wakeup | error | forks => exact .inl rfl
  | op op =>
      rw [step]
      cases hcontrol : s.control with
      | idle => exact .inl rfl
      | run co => exact step_op hinv hcontrol hproper
      | wakeup | error | forks => exact .inl rfl
  | scheduler =>
      rw [step]
      cases hcontrol : s.control with
      | idle | run co => exact .inl rfl
      | wakeup => exact .inr (step_wakeup hinv hcontrol)
      | error => exact .inr (step_error hinv hcontrol)
      | forks => exact .inr (step_forks hinv hcontrol)

theorem inv_start (session co : ℕ) : Inv (start session co) := by
  have hstatus : ∀ other, (start session co).status other =
      if other = co then .timer session else .absent := by
    intro other
    simp only [start, Function.update_apply]
  have hfree : ∀ other w, (start session co).status other ≠ .waiting w := by
    intro other w
    rw [hstatus]
    split
    · exact fun h => (by cases h)
    · exact fun h => (by cases h)
  constructor
  · constructor
    · intro n other
      have hentry : (start session co).sessionIdCoroutine n =
          if n = session then some (.co co) else none := by
        simp only [start, Function.update_apply]
      rw [hentry, hstatus]
      by_cases hn : n = session
      · rw [if_pos hn]
        by_cases hother : other = co
        · rw [if_pos hother, hn, hother]
          exact iff_of_true rfl rfl
        · rw [if_neg hother]
          refine iff_of_false ?_ fun h => (by cases h)
          intro h
          cases h
          exact hother rfl
      · rw [if_neg hn]
        refine iff_of_false (fun h => (by cases h)) ?_
        split
        · intro h
          exact hn (Option.some.inj h).symm
        · exact fun h => (by cases h)
    · intro token n
      refine iff_of_false (fun h => (by cases h)) ?_
      rintro ⟨other, w, hw, _⟩
      exact hfree other w hw
    · intro n service
      refine iff_of_false (fun h => (by cases h)) ?_
      rintro ⟨other, w, hw, _⟩
      exact hfree other w hw
    · intro k
      refine iff_of_false (fun h => absurd h.1 (Nat.not_lt_zero k)) ?_
      rintro ⟨other, w, hw, _⟩
      exact hfree other w hw
    · exact fun other _ w _ hw => absurd hw (hfree other w)
    · exact fun _ h => (by cases h)
    · exact List.nodup_nil
    · exact fun _ h => (by cases h)
  · intro other
    rw [hstatus]
    refine iff_of_false ?_ fun h => (by cases h)
    split
    · exact fun h => (by cases h)
    · exact fun h => (by cases h)
  · exact List.nodup_nil
  · exact fun _ h => (by cases h)
  · exact fun _ h => (by cases h)
  · exact fun _ h => (by cases h)

theorem inv_step
    {l : Label} {s' : State} (hinv : Inv s) (hproper : proper s l)
    (hstep : step s l = .next s') : Inv s' := by
  rcases step_cases hinv hproper with hblocked | ⟨t, ht, hkept⟩
  · cases hblocked.symm.trans hstep
  · cases ht.symm.trans hstep
    exact hkept

theorem reaches_inv
    {session co : ℕ} (hrun : Reaches step proper (start session co) s) :
    Inv s :=
  hrun.invariant Inv (inv_start session co) fun _ _ _ hinv hproper hstep =>
    inv_step hinv hproper hstep

end Run

end SkynetServer.Coroutine
