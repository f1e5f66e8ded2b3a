import SkynetServer.Coroutine.Linked

/-!
# The invariant of a service

A run is proper if sessions are new when they are used and no token is used
for two sleeps at once.  For every change that a step makes there is a lemma
that it keeps the invariant.
-/

namespace SkynetServer.Coroutine

open Function Transition

/-! ## Proper steps -/

/-- The session leads nowhere. -/
def State.New (s : State) (session : ℕ) : Prop :=
  s.sessionIdCoroutine session = none ∧ session ∉ s.errorQueue

/-- The assertion of `suspend_sleep` holds. -/
def State.TokenFree (s : State) (token : Option Token) : Prop :=
  ∀ co, s.control = .run co →
    s.sleepSession (token.getD (.thread co)) = none

/-- Sessions are new and tokens are free, `pairs` goes over the whole table,
and a handle is the address of its service. -/
def proper (s : State) : Label → Prop
  | .message (.error session source sessions _) => session = 0 →
    sessions.Nodup ∧
      ∀ n, n ∈ sessions ↔ s.watchingSession n = some (.handle source)
  | .op (.sleep session token) => s.New session ∧ s.TokenFree token
  | .op (.wait session token) => s.New session ∧ s.TokenFree token
  | .op (.call session service dest) =>
    s.New session ∧ ∀ handle, service = .handle handle → dest = handle
  | .op (.timeout session _) => s.New session
  | _ => True

/-! ## The invariant -/

structure Inv (s : State) : Prop where
  linked : Linked s.toThreads
  running : ∀ co, s.status co = .running ↔ s.control = .run co
  forks_nodup : s.forkQueue.Nodup
  forks : ∀ co ∈ s.forkQueue,
    s.status co = .ready ∨ s.status co = .empty
  errors : ∀ n ∈ s.errorQueue, s.sessionIdCoroutine n = none ∨
    ∃ service, s.watchingSession n = some service
  woken : ∀ k ∈ s.woken, k ∈ serials s.resumed ∨
    ∃ token ∈ s.wakeupQueue, ∃ co w, s.status co = .waiting w ∧
      w.serial = k ∧ w.kind.token = some token

/-- No coroutine runs. -/
def Control.Stopped (control : Control) : Prop :=
  ∀ co, control ≠ .run co

section Inv

variable {s : State} {co : ℕ} {w : Wait} {control : Control}
  {errorQueue : List ℕ}

/-- The queues lose entries that mean nothing. -/
theorem Inv.queues
    (hinv : Inv s) {wakeupQueue : List Token}
    {frames : ℕ} (hstopped : s.control.Stopped)
    (hstopped' : control.Stopped)
    (hwakeups : ∀ token ∈ s.wakeupQueue,
      token ∈ wakeupQueue ∨ s.sleepSession token = none)
    (herrors : ∀ n ∈ errorQueue, n ∈ s.errorQueue) :
    Inv { s with
      wakeupQueue := wakeupQueue
      errorQueue := errorQueue
      control := control
      frames := frames } where
  linked := hinv.linked
  running co := by
    rw [hinv.running]
    exact iff_of_false (hstopped co) (hstopped' co)
  forks_nodup := hinv.forks_nodup
  forks := hinv.forks
  errors := fun n hn => hinv.errors n (herrors n hn)
  woken k hk := by
    rcases hinv.woken k hk with h | ⟨token, hmem, co, w, hw, hserial, htoken⟩
    · exact .inl h
    · right
      rcases hwakeups token hmem with h | h
      · exact ⟨token, h, co, w, hw, hserial, htoken⟩
      · have hsleep := (hinv.linked.sleep token w.session).mpr
          ⟨co, w, hw, rfl, htoken⟩
        rw [h] at hsleep
        cases hsleep

variable {status : Status} {forkQueue : List ℕ}

/-- A coroutine whose status leads nowhere gets another such status. -/
theorem Inv.setStatus
    (hinv : Inv s)
    {frames : ℕ} (hold : (s.status co).Free)
    (holdSession : (s.status co).session = none) (hnew : status.Free)
    (hnewSession : status.session = none)
    (hrunning : ∀ other, (update s.status co status) other =
      .running ↔ control = .run other)
    (hnodup : forkQueue.Nodup)
    (hforks : ∀ other ∈ forkQueue,
      update s.status co status other = .ready ∨
        update s.status co status other = .empty) :
    Inv { s with
      toThreads := s.setStatus co status
      forkQueue := forkQueue
      control := control
      frames := frames } where
  linked := hinv.linked.setStatus hold holdSession hnew hnewSession
  running := hrunning
  forks_nodup := hnodup
  forks := hforks
  errors := hinv.errors
  woken k hk := by
    rcases hinv.woken k hk with
      h | ⟨token, hmem, other, w, hw, hserial, htoken⟩
    · exact .inl h
    · have hne : other ≠ co := by
        rintro rfl
        exact hold w hw
      exact .inr ⟨token, hmem, other, w,
        (update_of_ne hne _ _).trans hw, hserial, htoken⟩

/-- A suspension ends and its coroutine runs. -/
theorem Inv.resume
    (hinv : Inv s) (hstopped : s.control.Stopped)
    (hco : s.status co = .waiting w) {entry : Option Entry}
    (hentry : entry = none ∨ entry = some .break ∧ w.kind.service = none)
    {cause : Cause} (hends : cause.Ends w) {wakeupQueue : List Token}
    (frames : ℕ)
    (hwakeups : ∀ token ∈ s.wakeupQueue,
      token ∈ wakeupQueue ∨ w.kind.token = some token)
    (herrors : ∀ n ∈ errorQueue, n ∈ s.errorQueue) :
    Inv { s with
      toThreads := s.resume co w entry cause
      wakeupQueue := wakeupQueue
      errorQueue := errorQueue
      control := .run co
      frames := frames } := by
  have hnotCo : ∀ other, entry ≠ some (.co other) := by
    rintro other rfl
    rcases hentry with h | ⟨h, _⟩
    · cases h
    · cases h
  have hlinked := hinv.linked.resume hco hnotCo hends
  have hstatus : ∀ other, other ≠ co →
      (s.resume co w entry cause).status other = s.status other := by
    intro other hne
    rw [Threads.resume_status, update_of_ne hne]
  constructor
  · exact hlinked
  · intro other
    by_cases hne : other = co
    · subst hne
      dsimp only
      rw [Threads.resume_status, update_self]
      exact iff_of_true rfl rfl
    · refine (Eq.congr_left (hstatus other hne)).trans ?_
      rw [hinv.running]
      refine iff_of_false (hstopped other) ?_
      intro h
      cases h
      exact hne rfl
  · exact hinv.forks_nodup
  · intro other hother
    have hne : other ≠ co := by
      rintro rfl
      rcases hinv.forks other hother with h | h
      · cases h.symm.trans hco
      · cases h.symm.trans hco
    rcases hinv.forks other hother with h | h
    · exact .inl ((hstatus other hne).trans h)
    · exact .inr ((hstatus other hne).trans h)
  · intro n hn
    have hold := hinv.errors n (herrors n hn)
    rcases w with ⟨serial, session, kind⟩
    by_cases heq : n = session
    · subst heq
      left
      rcases hentry with rfl | ⟨rfl, hservice⟩
      · cases kind with
        | sleep token | wait token | call service dest =>
            exact update_self _ _ _
      · -- a suspension with a token is not in the error queue
        rcases hold with hnone | ⟨service, hwatch⟩
        · have hsession := hinv.linked.session_of_waiting hco
          cases hnone.symm.trans hsession
        · obtain ⟨other, w', hw', hsession, hkind⟩ :=
            (hinv.linked.watch n service).mp hwatch
          obtain rfl := hinv.linked.waiting_unique hw' hco hsession
          rw [hco] at hw'
          cases hw'
          rw [hservice] at hkind
          cases hkind
    · rcases hold with hnone | ⟨service, hwatch⟩
      · left
        have hupdate (entries : ℕ → Option Entry)
            (hn : entries n = none) (value : Option Entry) :
            update entries session value n = none :=
          (update_of_ne heq _ _).trans hn
        cases kind with
        | sleep token | call service dest => exact hupdate _ hnone _
        | wait token => exact hupdate _ (hupdate _ hnone _) _
      · right
        refine ⟨service, ?_⟩
        cases kind with
        | sleep token | wait token => exact hwatch
        | call own dest => exact (update_of_ne heq _ _).trans hwatch
  · intro k hk
    have hserials : serials (s.resume co w entry cause).resumed =
        serials s.resumed ++ [w.serial] := List.map_append
    dsimp only
    rw [hserials]
    rcases hinv.woken k hk with
      h | ⟨token, hmem, other, w', hw', hserial, htoken⟩
    · exact .inl (List.mem_append_left _ h)
    · by_cases hne : other = co
      · subst hne
        rw [hco] at hw'
        cases hw'
        left
        rw [hserial]
        exact List.mem_append_right _ (List.mem_singleton_self k)
      · right
        have hsleep := (hinv.linked.sleep token w'.session).mpr
          ⟨other, w', hw', rfl, htoken⟩
        rcases hwakeups token hmem with h | h
        · exact ⟨token, h, other, w', (hstatus other hne).trans hw',
            hserial, htoken⟩
        · have hown := (hinv.linked.sleep token w.session).mpr
            ⟨co, w, hco, rfl, h⟩
          rw [hsleep] at hown
          exact absurd (hinv.linked.waiting_unique hw' hco
            (Option.some.inj hown)) hne

variable {session : ℕ}

/-- The running coroutine suspends. -/
theorem Inv.suspendIn
    (hinv : Inv s) (hrun : s.control = .run co)
    (hnew : s.New session) {kind : Kind} {sleepSession : Token → Option ℕ}
    {watchingSession : ℕ → Option Address}
    (hsleep : ∀ token n, sleepSession token = some n ↔
      s.sleepSession token = some n ∨
        session = n ∧ kind.token = some token)
    (hwatch : ∀ n service, watchingSession n = some service ↔
      s.watchingSession n = some service ∨
        session = n ∧ kind.service = some service) :
    Inv { s with
      toThreads := { s.setSession session co with
        sleepSession := sleepSession
        watchingSession := watchingSession }.suspendIn co session kind
      control := .wakeup } := by
  have hco : s.status co = .running := (hinv.running co).mpr hrun
  have hfree : (s.status co).Free := by
    rw [hco]
    exact fun _ h => (by cases h)
  have hsession : (s.status co).session = none := by
    rw [hco]
    rfl
  have hstatus : ∀ other, other ≠ co →
      (({ s.setSession session co with
        sleepSession := sleepSession
        watchingSession := watchingSession } : Threads).suspendIn co session
          kind).status other = s.status other :=
    fun other hne => update_of_ne hne _ _
  constructor
  · exact hinv.linked.suspendIn hfree hsession hnew.1 hsleep hwatch
  · intro other
    by_cases hne : other = co
    · subst hne
      refine iff_of_false ?_ (fun h => (by cases h))
      intro h
      cases (update_self _ _ _).symm.trans h
    · refine (Eq.congr_left (hstatus other hne)).trans ?_
      rw [hinv.running, hrun]
      refine iff_of_false ?_ (fun h => (by cases h))
      intro h
      cases h
      exact hne rfl
  · exact hinv.forks_nodup
  · intro other hother
    have hne : other ≠ co := by
      rintro rfl
      rcases hinv.forks other hother with h | h
      · cases h.symm.trans hco
      · cases h.symm.trans hco
    rcases hinv.forks other hother with h | h
    · exact .inl ((hstatus other hne).trans h)
    · exact .inr ((hstatus other hne).trans h)
  · intro n hn
    have hne : n ≠ session := by
      rintro rfl
      exact hnew.2 hn
    rcases hinv.errors n hn with h | ⟨service, h⟩
    · exact .inl ((update_of_ne hne _ _).trans h)
    · exact .inr ⟨service, (hwatch n service).mpr (.inl h)⟩
  · intro k hk
    rcases hinv.woken k hk with
      h | ⟨token, hmem, other, w, hw, hserial, htoken⟩
    · exact .inl h
    · have hne : other ≠ co := by
        rintro rfl
        exact hfree w hw
      exact .inr ⟨token, hmem, other, w, (hstatus other hne).trans hw,
        hserial, htoken⟩

theorem Inv.suspendSleep
    (hinv : Inv s) (hrun : s.control = .run co)
    (hnew : s.New session) {token : Token}
    (hfree : s.sleepSession token = none) {kind : Kind}
    (htoken : kind.token = some token) (hservice : kind.service = none) :
    Inv (s.suspendSleep co session token kind) := by
  rw [State.suspendSleep]
  dsimp only
  have hfree' : (s.setSession session co).sleepSession token = none := hfree
  rw [if_pos hfree']
  apply hinv.suspendIn hrun hnew
  · intro token' n
    have hself : (s.setSession session co).sleepSession = s.sleepSession :=
      rfl
    rw [hself]
    by_cases heq : token' = token
    · subst heq
      rw [update_self, hfree, htoken]
      constructor
      · intro h
        exact .inr ⟨Option.some.inj h, rfl⟩
      · rintro (h | ⟨rfl, _⟩)
        · cases h
        · rfl
    · rw [update_of_ne heq, htoken]
      constructor
      · exact .inl
      · rintro (h | ⟨_, h⟩)
        · exact h
        · exact absurd (Option.some.inj h).symm heq
  · intro n service
    rw [hservice]
    constructor
    · exact .inl
    · rintro (h | ⟨_, h⟩)
      · exact h
      · cases h

theorem Inv.suspendCall
    (hinv : Inv s) (hrun : s.control = .run co)
    (hnew : s.New session) (service : Address) (dest : BitVec 32) :
    Inv { s with
      toThreads :=
        { s.setSession session co with
          watchingSession := update s.watchingSession session
            (some service) }.suspendIn co session (.call service dest)
      control := .wakeup } := by
  apply hinv.suspendIn hrun hnew
  · intro token n
    constructor
    · exact .inl
    · rintro (h | ⟨_, h⟩)
      · exact h
      · cases h
  · intro n service'
    by_cases heq : n = session
    · subst heq
      rw [update_self, hinv.linked.watch_of_new hnew.1]
      constructor
      · exact fun h => .inr ⟨rfl, h⟩
      · rintro (h | ⟨_, h⟩)
        · cases h
        · exact h
    · rw [update_of_ne heq]
      constructor
      · exact .inl
      · rintro (h | ⟨h, _⟩)
        · exact h
        · exact absurd h.symm heq

theorem free_of_canCreate
    {co : ℕ} (h : s.canCreate co = true) :
    (s.status co).Free ∧ (s.status co).session = none := by
  rcases of_decide_eq_true h with h | h
  · rw [h]
    exact ⟨fun _ h => (by cases h), rfl⟩
  · rw [h]
    exact ⟨fun _ h => (by cases h), rfl⟩

/-- A coroutine that can be created neither runs nor waits to be started. -/
theorem Inv.idle_of_canCreate
    (hinv : Inv s) (h : s.canCreate co = true) :
    s.control ≠ .run co ∧ co ∉ s.forkQueue := by
  have hstatus := of_decide_eq_true h
  constructor
  · intro hrun
    rw [(hinv.running co).mpr hrun] at hstatus
    rcases hstatus with h | h
    · cases h
    · cases h
  · intro hmem
    rcases hinv.forks co hmem with h' | h'
    · rw [h'] at hstatus
      rcases hstatus with h | h
      · cases h
      · cases h
    · rw [h'] at hstatus
      rcases hstatus with h | h
      · cases h
      · cases h

/-- A status and the control are changed together, or neither runs. -/
theorem Inv.running_update
    (hinv : Inv s)
    (hold : s.control.Stopped ∨ s.control = .run co)
    (hnew : status = .running ∧ control = .run co ∨
      status ≠ .running ∧ control.Stopped) (other : ℕ) :
    update s.status co status other = .running ↔
      control = .run other := by
  by_cases heq : other = co
  · subst heq
    rw [update_self]
    rcases hnew with ⟨hs, hc⟩ | ⟨hs, hc⟩
    · exact iff_of_true hs hc
    · exact iff_of_false hs (hc other)
  · rw [update_of_ne heq, hinv.running]
    have hother : s.control ≠ .run other := by
      rcases hold with h | h
      · exact h other
      · rw [h]
        intro h'
        cases h'
        exact heq rfl
    refine iff_of_false hother ?_
    rcases hnew with ⟨_, hc⟩ | ⟨_, hc⟩
    · rw [hc]
      intro h
      cases h
      exact heq rfl
    · exact hc other

/-- Coroutines in the fork queue keep their status if another changes. -/
theorem Inv.forks_update
    (hinv : Inv s)
    (hforks : ∀ other ∈ forkQueue, other ∈ s.forkQueue) (hco : co ∉ forkQueue) :
    ∀ other ∈ forkQueue,
      update s.status co status other = .ready ∨
        update s.status co status other = .empty := by
  intro other hother
  have hne : other ≠ co := by
    rintro rfl
    exact hco hother
  rw [update_of_ne hne]
  exact hinv.forks other (hforks other hother)

/-- A new coroutine runs, or has finished already. -/
theorem Inv.create
    (hinv : Inv s) (hstopped : s.control.Stopped)
    (hcreate : s.canCreate co = true)
    (hnew : status = .running ∧ control = .run co ∨
      status = .pooled ∧ control.Stopped) :
    Inv { s with
      toThreads := s.setStatus co status
      control := control } := by
  obtain ⟨hfree, hsession⟩ := free_of_canCreate hcreate
  apply hinv.setStatus hfree hsession
  · rcases hnew with ⟨rfl, _⟩ | ⟨rfl, _⟩
    · exact fun _ h => (by cases h)
    · exact fun _ h => (by cases h)
  · rcases hnew with ⟨rfl, _⟩ | ⟨rfl, _⟩
    · rfl
    · rfl
  · apply hinv.running_update (.inl hstopped)
    rcases hnew with h | ⟨rfl, hc⟩
    · exact .inl h
    · exact .inr ⟨fun h => (by cases h), hc⟩
  · exact hinv.forks_nodup
  · exact hinv.forks_update (fun _ h => h) (hinv.idle_of_canCreate hcreate).2

/-- The running coroutine ends. -/
theorem Inv.stop
    (hinv : Inv s) (hrun : s.control = .run co)
    (hstatus : status = .pooled ∨ status = .dead ∨ status = .quit)
    (hstopped : control.Stopped) {frames : ℕ}
    (hnodup : forkQueue.Nodup)
    (hforks : ∀ other ∈ forkQueue, other ∈ s.forkQueue) :
    Inv { s with
      toThreads := s.setStatus co status
      forkQueue := forkQueue
      control := control
      frames := frames } := by
  have hco := (hinv.running co).mpr hrun
  have hmem : co ∉ s.forkQueue := by
    intro h
    rcases hinv.forks co h with h | h
    · cases h.symm.trans hco
    · cases h.symm.trans hco
  have hnew : status.Free ∧ status.session = none ∧ status ≠ .running := by
    rcases hstatus with rfl | rfl | rfl
    · exact ⟨fun _ h => (by cases h), rfl, fun h => (by cases h)⟩
    · exact ⟨fun _ h => (by cases h), rfl, fun h => (by cases h)⟩
    · exact ⟨fun _ h => (by cases h), rfl, fun h => (by cases h)⟩
  apply hinv.setStatus
  · rw [hco]
    exact fun _ h => (by cases h)
  · rw [hco]
    rfl
  · exact hnew.1
  · exact hnew.2.1
  · exact hinv.running_update (.inr hrun) (.inr ⟨hnew.2.2, hstopped⟩)
  · exact hnodup
  · exact hinv.forks_update hforks fun h => hmem (hforks co h)

/-- A new coroutine is put into the fork queue. -/
theorem Inv.fork
    (hinv : Inv s) (hcreate : s.canCreate co = true)
    (hstatus : status = .ready ∨ status = .empty) :
    Inv { s with
      toThreads := s.setStatus co status
      forkQueue := s.forkQueue ++ [co] } := by
  obtain ⟨hfree, hsession⟩ := free_of_canCreate hcreate
  obtain ⟨hrun, hmem⟩ := hinv.idle_of_canCreate hcreate
  apply hinv.setStatus hfree hsession
  · rcases hstatus with rfl | rfl
    · exact fun _ h => (by cases h)
    · exact fun _ h => (by cases h)
  · rcases hstatus with rfl | rfl
    · rfl
    · rfl
  · intro other
    by_cases heq : other = co
    · subst heq
      rw [update_self]
      refine iff_of_false ?_ hrun
      rcases hstatus with rfl | rfl
      · exact fun h => (by cases h)
      · exact fun h => (by cases h)
    · rw [update_of_ne heq, hinv.running]
  · refine List.nodup_append.mpr ⟨hinv.forks_nodup,
      List.pairwise_singleton _ _, ?_⟩
    intro other hother last hlast heq
    rw [heq, List.mem_singleton.mp hlast] at hother
    exact hmem hother
  · intro other hother
    rcases List.mem_append.mp hother with h | h
    · have hne : other ≠ co := by
        rintro rfl
        exact hmem h
      rw [update_of_ne hne]
      exact hinv.forks other h
    · rw [List.mem_singleton.mp h, update_self]
      exact hstatus

/-- A coroutine of the fork queue starts. -/
theorem Inv.startFork
    (hinv : Inv s) (hstopped : s.control.Stopped) {queue : List ℕ}
    (hqueue : s.forkQueue = co :: queue)
    (hnew : status = .running ∧ control = .run co ∨
      status = .pooled ∧ control.Stopped) :
    Inv { s with
      toThreads := s.setStatus co status
      forkQueue := queue
      control := control } := by
  have hnodup := hinv.forks_nodup
  rw [hqueue, List.nodup_cons] at hnodup
  have hco : s.status co = .ready ∨ s.status co = .empty := by
    apply hinv.forks
    rw [hqueue]
    exact List.mem_cons_self
  apply hinv.setStatus
  · rcases hco with h | h
    · rw [h]
      exact fun _ h => (by cases h)
    · rw [h]
      exact fun _ h => (by cases h)
  · rcases hco with h | h
    · rw [h]
      rfl
    · rw [h]
      rfl
  · rcases hnew with ⟨rfl, _⟩ | ⟨rfl, _⟩
    · exact fun _ h => (by cases h)
    · exact fun _ h => (by cases h)
  · rcases hnew with ⟨rfl, _⟩ | ⟨rfl, _⟩
    · rfl
    · rfl
  · apply hinv.running_update (.inl hstopped)
    rcases hnew with h | ⟨rfl, hc⟩
    · exact .inl h
    · exact .inr ⟨fun h => (by cases h), hc⟩
  · exact hnodup.2
  · apply hinv.forks_update
    · intro other hother
      rw [hqueue]
      exact List.mem_cons_of_mem _ hother
    · exact hnodup.1

/-- A coroutine waits for its timer. -/
theorem Inv.setTimer
    (hinv : Inv s) (hcreate : s.canCreate co = true)
    (hnew : s.New session) :
    Inv { s with
      toThreads := (s.setSession session co).setStatus co
        (.timer session) } := by
  obtain ⟨hfree, hsession⟩ := free_of_canCreate hcreate
  obtain ⟨hrun, hmem⟩ := hinv.idle_of_canCreate hcreate
  constructor
  · exact hinv.linked.setTimer hfree hsession hnew.1
  · intro other
    rw [Threads.setStatus]
    dsimp only
    by_cases heq : other = co
    · subst heq
      rw [update_self]
      exact iff_of_false (fun h => (by cases h)) hrun
    · rw [update_of_ne heq]
      exact hinv.running other
  · exact hinv.forks_nodup
  · exact hinv.forks_update (fun _ h => h) hmem
  · intro n hn
    have hne : n ≠ session := by
      rintro rfl
      exact hnew.2 hn
    rcases hinv.errors n hn with h | h
    · exact .inl ((update_of_ne hne _ _).trans h)
    · exact .inr h
  · intro k hk
    rcases hinv.woken k hk with
      h | ⟨token, hmem, other, w, hw, hserial, htoken⟩
    · exact .inl h
    · have hne : other ≠ co := by
        rintro rfl
        exact hfree w hw
      exact .inr ⟨token, hmem, other, w,
        (update_of_ne hne _ _).trans hw, hserial, htoken⟩

/-- A session leads nowhere any more. -/
theorem Inv.errors_update
    (hinv : Inv s) :
    ∀ n ∈ s.errorQueue,
      update s.sessionIdCoroutine session none n = none ∨
        ∃ service, s.watchingSession n = some service := by
  intro n hn
  by_cases heq : n = session
  · subst heq
    exact .inl (update_self _ _ _)
  · rw [update_of_ne heq]
    exact hinv.errors n hn

/-- The timer of a coroutine starts it. -/
theorem Inv.startTimer
    (hinv : Inv s) (hstopped : s.control.Stopped)
    (hco : s.status co = .timer session)
    (herrors : ∀ n ∈ errorQueue, n ∈ s.errorQueue) :
    Inv { s with
      toThreads := { s.toThreads with
        sessionIdCoroutine :=
          update s.sessionIdCoroutine session none }.setStatus co
            .running
      errorQueue := errorQueue
      control := .run co } := by
  constructor
  · exact hinv.linked.startTimer hco
  · exact hinv.running_update (.inl hstopped) (.inl ⟨rfl, rfl⟩)
  · exact hinv.forks_nodup
  · apply hinv.forks_update fun _ h => h
    intro h
    rcases hinv.forks co h with h | h
    · cases h.symm.trans hco
    · cases h.symm.trans hco
  · exact fun n hn => hinv.errors_update n (herrors n hn)
  · intro k hk
    rcases hinv.woken k hk with
      h | ⟨token, hmem, other, w, hw, hserial, htoken⟩
    · exact .inl h
    · have hne : other ≠ co := by
        rintro rfl
        cases hco.symm.trans hw
      exact .inr ⟨token, hmem, other, w,
        (update_of_ne hne _ _).trans hw, hserial, htoken⟩

/-- The late response to a sleep that was broken. -/
theorem Inv.unbreak
    (hinv : Inv s) (hstopped : s.control.Stopped)
    (hbreak : s.sessionIdCoroutine session = some .break) :
    Inv { s with
      sessionIdCoroutine :=
        update s.sessionIdCoroutine session none
      control := .forks } := by
  have hentries : ∀ n co,
      update s.sessionIdCoroutine session none n = some (.co co) ↔
        s.sessionIdCoroutine n = some (.co co) := by
    intro n co
    by_cases heq : n = session
    · subst heq
      rw [update_self, hbreak]
      exact iff_of_false (fun h => (by cases h)) fun h => (by cases h)
    · rw [update_of_ne heq]
  constructor
  · exact hinv.linked.entries hentries
  · intro other
    refine (hinv.running other).trans ?_
    exact iff_of_false (hstopped other) fun h => (by cases h)
  · exact hinv.forks_nodup
  · exact hinv.forks
  · exact hinv.errors_update
  · exact hinv.woken

/-- Sessions of calls are put into the error queue. -/
theorem Inv.addErrors
    (hinv : Inv s) {sessions : List ℕ}
    (hsessions : ∀ n ∈ sessions,
      ∃ service, s.watchingSession n = some service) :
    Inv { s with errorQueue := s.errorQueue ++ sessions } :=
  { hinv with
    errors := by
      intro n hn
      rcases List.mem_append.mp hn with h | h
      · exact hinv.errors n h
      · exact .inr (hsessions n h) }

/-- The sleeper with the token is woken. -/
theorem wakeup_eq
    (hinv : Inv s) {token : Token} (hw : s.status co = .waiting w)
    (htoken : w.kind.token = some token) :
    s.wakeup token = { s with
      wakeupQueue := s.wakeupQueue ++ [token]
      woken := s.woken ++ [w.serial] } := by
  have hsleep : s.sleepSession token = some w.session :=
    (hinv.linked.sleep token w.session).mpr ⟨co, w, hw, rfl, htoken⟩
  have hsleeper : s.sleeper w.session = some w.serial := by
    simp only [State.sleeper, hinv.linked.session_of_waiting hw, hw]
  simp only [State.wakeup, hsleep, hsleeper, Option.toList_some]

theorem Inv.wakeup
    (hinv : Inv s) (token : Token) : Inv (s.wakeup token) := by
  cases hsleep : s.sleepSession token with
  | none =>
      simp only [State.wakeup, hsleep]
      exact hinv
  | some session =>
      obtain ⟨co, w, hw, _, htoken, _⟩ := hinv.linked.sleeper hsleep
      rw [wakeup_eq hinv hw htoken]
      refine { hinv with woken := ?_ }
      intro k hk
      rcases List.mem_append.mp hk with h | h
      · rcases hinv.woken k h with h | ⟨token', hmem, hrest⟩
        · exact .inl h
        · exact .inr ⟨token', List.mem_append_left _ hmem, hrest⟩
      · exact .inr ⟨token,
          List.mem_append_right _ (List.mem_singleton_self token), co, w, hw,
          (List.mem_singleton.mp h).symm, htoken⟩

end Inv

end SkynetServer.Coroutine
