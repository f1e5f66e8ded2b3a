import SkynetServer.Coroutine.Moves

/-!
# Both queues are drained

`suspend` takes one token and then one session with an error, and so does the
`suspend` of every coroutine that it resumes.  The queues are drained if that
chain does not end early: it does when a coroutine calls `skynet.exit`, and
the tokens stay behind one that nobody sleeps with.
-/

namespace SkynetServer.Coroutine

open Transition

/-- A proper step by which the service does not exit. -/
def stays (s : State) (l : Label) : Prop :=
  proper s l ∧ l ≠ .op .exit

/-- Moreover, a token that nobody sleeps with is the last one when it is
taken. -/
def drains (s : State) (l : Label) : Prop :=
  stays s l ∧ (l = .scheduler → s.control = .wakeup →
    ∀ token queue, s.wakeupQueue = token :: queue →
      s.sleepSession token = none → queue = [])

/-! ## The error queue -/

/-- Every session in the error queue is that of a call which waits, and the
queue is empty unless the scheduler goes on to take from it. -/
structure ErrorsTaken (s : State) : Prop where
  nodup : s.errorQueue.Nodup
  watched : ∀ n ∈ s.errorQueue,
    ∃ service, s.watchingSession n = some service
  idle : s.control = .idle → s.errorQueue = []
  forks : s.control = .forks → s.forkQueue = [] → s.errorQueue = []

section Errors

variable {s : State}

theorem token_service
    {w : Wait} {token : Token} (h : w.kind.token = some token) :
    w.kind.service = none := by
  rcases w with ⟨serial, session, kind⟩
  cases kind with
  | sleep _ | wait _ => rfl
  | call _ _ => cases h

theorem nodup_of_eq_cons
    {α : Type*} {a : α} {l l' : List α} (h : l = a :: l') (hl : l.Nodup) :
    a ∉ l' ∧ l'.Nodup := by
  rw [h] at hl
  exact List.nodup_cons.mp hl

variable {s' : State}

theorem errorsTaken_message
    (herrors : ErrorsTaken s) (hidle : s.control = .idle)
    {message : Message} (hproper : proper s (.message message))
    (hmove : MessageMove s message s') : ErrorsTaken s' := by
  have hnil : s.errorQueue = [] := herrors.idle hidle
  have hempty (t : State) (h : t.errorQueue = []) : ErrorsTaken t := by
    constructor
    · rw [h]
      exact List.nodup_nil
    · rw [h]
      exact fun _ h => (by cases h)
    · exact fun _ => h
    · exact fun _ _ => h
  cases hmove with
  | late _ | unknown _ | resume _ | timer _ | request _ => exact hempty _ hnil
  | @error session source sessions co _ =>
      rw [State.errorDispatch]
      by_cases hzero : session = 0
      · rw [if_pos hzero, hnil]
        obtain ⟨hnodup, hall⟩ := hproper hzero
        constructor
        · exact hnodup
        · exact fun n hn => ⟨_, (hall n).mp hn⟩
        · exact fun h => (by cases h)
        · exact fun h => (by cases h)
      · rw [if_neg hzero]
        cases hwatch : s.watchingSession session with
        | none => exact hempty _ hnil
        | some service =>
            dsimp only
            rw [hnil]
            constructor
            · exact List.pairwise_singleton _ _
            · intro n hn
              rw [List.mem_singleton.mp hn]
              exact ⟨service, hwatch⟩
            · exact fun h => (by cases h)
            · exact fun h => (by cases h)
  | other => exact hempty _ hnil

theorem errorsTaken_op
    (herrors : ErrorsTaken s) {co : ℕ} (hrun : s.control = .run co) {op : Op}
    (hexit : op ≠ .exit) (hmove : OpMove s co op s') :
    ErrorsTaken s' := by
  -- The queue stays as it is, and the coroutine does not end the chain.
  have hkept (t : State) (hqueue : t.errorQueue = s.errorQueue)
      (hwatch : ∀ n service, s.watchingSession n = some service →
        ∃ service', t.watchingSession n = some service')
      (hidle : t.control ≠ .idle)
      (hforks : t.control = .forks → t.forkQueue ≠ []) : ErrorsTaken t := by
    constructor
    · rw [hqueue]
      exact herrors.nodup
    · rw [hqueue]
      intro n hn
      obtain ⟨service, h⟩ := herrors.watched n hn
      exact hwatch n service h
    · exact fun h => absurd h hidle
    · exact fun h h' => absurd h' (hforks h)
  have hsame (n : ℕ) (service : Address)
      (h : s.watchingSession n = some service) :
      ∃ service', s.watchingSession n = some service' := ⟨service, h⟩
  have hidle : s.control ≠ .idle := by
    rw [hrun]
    exact fun h => (by cases h)
  have hforks : s.control ≠ .forks := by
    rw [hrun]
    exact fun h => (by cases h)
  cases hmove with
  | wakeup _ _ | noWakeup _ | fork _ | timeout _ =>
      exact hkept _ rfl hsame hidle fun h => absurd h hforks
  | sleep _ | wait _ | finish =>
      exact hkept _ rfl hsame (fun h => (by cases h)) fun h => (by cases h)
  | @call session service dest =>
      refine hkept _ rfl ?_ (fun h => (by cases h)) fun h => (by cases h)
      intro n service' h
      by_cases heq : n = session
      · subst heq
        exact ⟨service, Function.update_self _ _ _⟩
      · exact ⟨service', (Function.update_of_ne heq _ _).trans h⟩
  | error _ =>
      exact hkept _ rfl hsame (fun h => (by cases h)) fun _ =>
        List.append_ne_nil_of_right_ne_nil _ (List.cons_ne_nil _ _)
  | exit => exact absurd rfl hexit

theorem errorsTaken_scheduler
    (hinv : Inv s) (herrors : ErrorsTaken s)
    (hmove : SchedulerMove s s') : ErrorsTaken s' := by
  cases hmove with
  | noToken _ _ | stale _ _ _ | start _ _ _ | trigger _ _ _ =>
      exact ⟨herrors.nodup, herrors.watched, fun h => (by cases h),
        fun h => (by cases h)⟩
  | @wake token queue co w _ _ _ htoken =>
      refine ⟨herrors.nodup, ?_, fun h => (by cases h),
        fun h => (by cases h)⟩
      intro n hn
      obtain ⟨service, h⟩ := herrors.watched n hn
      exact ⟨service, (Threads.resume_watching _ _ _ _ _
        (.inr (token_service htoken))).trans h⟩
  | noError _ hqueue =>
      have hqueue' : s.suspendReturn.errorQueue = [] := by
        rw [State.suspendReturn]
        cases s.frames with
        | zero | succ frames => exact hqueue
      constructor
      · rw [hqueue']
        exact List.nodup_nil
      · rw [hqueue']
        exact fun _ h => (by cases h)
      · exact fun _ => hqueue'
      · exact fun _ _ => hqueue'
  | @gone session queue _ hqueue hnone =>
      -- the call waits, so its session leads to it
      have hmem : session ∈ s.errorQueue := by
        rw [hqueue]
        exact List.mem_cons_self
      obtain ⟨service, hwatch⟩ := herrors.watched session hmem
      rw [hinv.linked.watch_of_new hnone] at hwatch
      cases hwatch
  | @fail queue co w _ hqueue hw hservice =>
      obtain ⟨hnotMem, hnodup⟩ := nodup_of_eq_cons hqueue herrors.nodup
      refine ⟨hnodup, ?_, fun h => (by cases h), fun h => (by cases h)⟩
      intro n hn
      have hne : n ≠ w.session := fun h => hnotMem (h ▸ hn)
      have hmem : n ∈ s.errorQueue := by
        rw [hqueue]
        exact List.mem_cons_of_mem _ hn
      obtain ⟨service, h⟩ := herrors.watched n hmem
      exact ⟨service,
        (Threads.resume_watching _ _ _ _ _ (.inl hne)).trans h⟩
  | done hcontrol hqueue =>
      have hnil := herrors.forks hcontrol hqueue
      exact ⟨herrors.nodup, herrors.watched, fun _ => hnil,
        fun h => (by cases h)⟩

theorem errorsTaken_step
    (hinv : Inv s) (herrors : ErrorsTaken s) {l : Label}
    (hstays : stays s l) (hstep : step s l = .next s') :
    ErrorsTaken s' := by
  cases step_move hinv hstays.1 hstep with
  | message hidle hmove =>
      exact errorsTaken_message herrors hidle hstays.1 hmove
  | @op co op _ hrun hmove =>
      apply errorsTaken_op herrors hrun _ hmove
      rintro rfl
      exact hstays.2 rfl
  | scheduler hmove => exact errorsTaken_scheduler hinv herrors hmove

/-- In a run in which the service does not exit, the error queue is empty
when a message has been handled. -/
theorem reaches_errorsTaken
    {session co : ℕ} (hrun : Reaches step stays (start session co) s) :
    Inv s ∧ ErrorsTaken s := by
  apply hrun.invariant fun s => Inv s ∧ ErrorsTaken s
  · refine ⟨inv_start session co, ?_⟩
    constructor
    · exact List.nodup_nil
    · exact fun _ h => (by cases h)
    · exact fun _ => rfl
    · exact fun _ _ => rfl
  · rintro s l s' ⟨hinv, herrors⟩ hstays hstep
    exact ⟨inv_step hinv hstays.1 hstep,
      errorsTaken_step hinv herrors hstays hstep⟩

end Errors

/-! ## The wakeup queue -/

/-- The wakeup queue is empty unless the scheduler goes on to take from
it. -/
structure TokensTaken (s : State) : Prop where
  idle : s.control = .idle → s.wakeupQueue = []
  error : s.control = .error → s.wakeupQueue = []
  forks : s.control = .forks → s.forkQueue = [] → s.wakeupQueue = []

section Tokens

variable {s : State}

theorem tokensTaken_of_ne
    (hidle : s.control ≠ .idle) (herror : s.control ≠ .error)
    (hforks : s.control = .forks → s.forkQueue ≠ []) : TokensTaken s where
  idle h := absurd h hidle
  error h := absurd h herror
  forks h h' := absurd h' (hforks h)

theorem tokensTaken_of_nil (h : s.wakeupQueue = []) : TokensTaken s where
  idle _ := h
  error _ := h
  forks _ _ := h

theorem tokensTaken_message
    (htokens : TokensTaken s) (hidle : s.control = .idle)
    {message : Message} {s' : State} (hmove : MessageMove s message s') :
    TokensTaken s' := by
  have hnil : s.wakeupQueue = [] := htokens.idle hidle
  cases hmove with
  | late _ | unknown _ | resume _ | timer _ | request _ | other =>
      exact tokensTaken_of_nil hnil
  | error _ =>
      exact tokensTaken_of_ne (fun h => (by cases h)) (fun h => (by cases h))
        fun h => (by cases h)

theorem tokensTaken_op
    {co : ℕ} (hrun : s.control = .run co) {op : Op} (hexit : op ≠ .exit)
    {s' : State} (hmove : OpMove s co op s') : TokensTaken s' := by
  have hkept (t : State) (h : t.control = s.control) : TokensTaken t := by
    apply tokensTaken_of_ne
    · rw [h, hrun]
      exact fun h => (by cases h)
    · rw [h, hrun]
      exact fun h => (by cases h)
    · rw [h, hrun]
      exact fun h => (by cases h)
  have hsuspended (t : State) (h : t.control = .wakeup) :
      TokensTaken t := by
    apply tokensTaken_of_ne
    · rw [h]
      exact fun h => (by cases h)
    · rw [h]
      exact fun h => (by cases h)
    · rw [h]
      exact fun h => (by cases h)
  cases hmove with
  | wakeup _ _ | noWakeup _ | fork _ | timeout _ => exact hkept _ rfl
  | sleep _ | wait _ | call | finish => exact hsuspended _ rfl
  | error _ =>
      exact tokensTaken_of_ne (fun h => (by cases h)) (fun h => (by cases h))
        fun _ => List.append_ne_nil_of_right_ne_nil _ (List.cons_ne_nil _ _)
  | exit => exact absurd rfl hexit

theorem tokensTaken_scheduler
    (htokens : TokensTaken s) (hdrains : drains s .scheduler)
    {s' : State} (hmove : SchedulerMove s s') : TokensTaken s' := by
  cases hmove with
  | noToken _ hqueue => exact tokensTaken_of_nil hqueue
  | stale hcontrol hqueue hsleep =>
      exact tokensTaken_of_nil (hdrains.2 rfl hcontrol _ _ hqueue hsleep)
  | wake _ _ _ _ | fail _ _ _ _ | start _ _ _ | trigger _ _ _ =>
      exact tokensTaken_of_ne (fun h => (by cases h)) (fun h => (by cases h))
        fun h => (by cases h)
  | noError hcontrol _ =>
      have hqueue : s.suspendReturn.wakeupQueue = s.wakeupQueue := by
        rw [State.suspendReturn]
        cases s.frames with
        | zero | succ frames => rfl
      exact tokensTaken_of_nil (hqueue.trans (htokens.error hcontrol))
  | gone hcontrol _ _ => exact tokensTaken_of_nil (htokens.error hcontrol)
  | done hcontrol hqueue =>
      exact tokensTaken_of_nil (htokens.forks hcontrol hqueue)

theorem reaches_tokensTaken
    {session co : ℕ} (hrun : Reaches step drains (start session co) s) :
    TokensTaken s := by
  have hboth : Inv s ∧ TokensTaken s := by
    apply hrun.invariant fun s => Inv s ∧ TokensTaken s
    · exact ⟨inv_start session co, tokensTaken_of_nil rfl⟩
    · rintro s l s' ⟨hinv, htokens⟩ hdrains hstep
      refine ⟨inv_step hinv hdrains.1.1 hstep, ?_⟩
      cases step_move hinv hdrains.1.1 hstep with
      | message hidle hmove =>
          exact tokensTaken_message htokens hidle hmove
      | @op co op _ hrun hmove =>
          apply tokensTaken_op hrun _ hmove
          rintro rfl
          exact hdrains.1.2 rfl
      | scheduler hmove =>
          exact tokensTaken_scheduler htokens hdrains hmove
  exact hboth.2

end Tokens

/-! ## Every suspension ends once -/

/-- A step that is proper in every state, by which the service does not
exit. -/
def Label.Plain (l : Label) : Prop := ∀ s, stays s l

theorem plain_request (co : ℕ) : Label.Plain (.message (.request co)) :=
  fun _ => ⟨trivial, fun h => (by cases h)⟩

theorem plain_wakeup (token : Token) : Label.Plain (.op (.wakeup token)) :=
  fun _ => ⟨trivial, fun h => (by cases h)⟩

theorem plain_finish : Label.Plain (.op .finish) :=
  fun _ => ⟨trivial, fun h => (by cases h)⟩

theorem plain_scheduler : Label.Plain .scheduler :=
  fun _ => ⟨trivial, fun h => (by cases h)⟩

theorem stays_wait
    {s : State} {co session : ℕ} (hrun : s.control = .run co)
    (hnew : s.sessionIdCoroutine session = none) (herrors : s.errorQueue = [])
    (hfree : s.sleepSession (.thread co) = none) :
    stays s (.op (.wait session none)) := by
  refine ⟨⟨⟨hnew, ?_⟩, ?_⟩, fun h => (by cases h)⟩
  · rw [herrors]
    exact List.not_mem_nil
  · intro other hother
    cases hrun.symm.trans hother
    exact hfree

/-- In a proper run no suspension ends twice, each ends by its own response,
wakeup or error, and no coroutine is resumed that is not suspended.  When a
message has been handled, the error queue is empty if the service did not
exit, and the wakeup queue is empty, with every suspension that was woken
ended, if no token that nobody sleeps with was taken before others. -/
theorem suspensions_end_once
    {session co : ℕ} {s : State}
    (hrun : Reaches step proper (start session co) s) :
    (serials s.resumed).Nodup ∧ (∀ r ∈ s.resumed, r.2.Ends r.1) ∧
      (∀ k, (k < s.waits ∧ k ∉ serials s.resumed) ↔
        ∃ co w, s.status co = .waiting w ∧ w.serial = k) ∧
      (∀ l, proper s l → ∀ failure, step s l ≠ .fault failure) ∧
      (Reaches step stays (start session co) s → s.control = .idle →
        s.errorQueue = []) ∧
      (Reaches step drains (start session co) s → s.control = .idle →
        s.wakeupQueue = [] ∧ ∀ k ∈ s.woken, k ∈ serials s.resumed) := by
  have hinv := reaches_inv hrun
  refine ⟨hinv.linked.resumed_nodup, hinv.linked.ends, hinv.linked.live,
    ?_, ?_, ?_⟩
  · intro l hproper failure hfault
    rcases step_cases hinv hproper with hblocked | ⟨t, ht, _⟩
    · cases hblocked.symm.trans hfault
    · cases ht.symm.trans hfault
  · intro hstays hidle
    exact (reaches_errorsTaken hstays).2.idle hidle
  · intro hdrains hidle
    have hnil := (reaches_tokensTaken hdrains).idle hidle
    refine ⟨hnil, ?_⟩
    intro k hk
    rcases hinv.woken k hk with h | ⟨token, hmem, _⟩
    · exact h
    · rw [hnil] at hmem
      cases hmem

/-- A coroutine waits and is woken. -/
theorem one_wakeup :
    ∃ s : State, Reaches step drains (start 1 0) s ∧ s.control = .idle ∧
      s.wakeupQueue = [] ∧ (serials s.resumed).Nodup ∧ s.resumed =
        [(⟨0, 2, .wait (.thread 1)⟩, .wakeup (.thread 1))] := by
  have hrun : Reaches step drains (start 1 0) _ := Reaches.refl
    |>.tail _ ⟨plain_request 1 _, nofun⟩ rfl
    |>.tail (.op (.wait 2 none)) ⟨stays_wait rfl rfl rfl rfl, nofun⟩ rfl
    |>.tail _ ⟨plain_scheduler _, nofun⟩ rfl
    |>.tail _ ⟨plain_scheduler _, fun _ _ _ _ h => nomatch h⟩ rfl
    |>.tail _ ⟨plain_scheduler _, nofun⟩ rfl
    |>.tail _ ⟨plain_request 2 _, nofun⟩ rfl
    |>.tail _ ⟨plain_wakeup (.thread 1) _, nofun⟩ rfl
    |>.tail _ ⟨plain_finish _, nofun⟩ rfl
    |>.tail _ ⟨plain_scheduler _, fun _ _ _ _ h _ => by cases h; rfl⟩ rfl
    |>.tail _ ⟨plain_finish _, nofun⟩ rfl
    |>.tail _ ⟨plain_scheduler _, fun _ _ _ _ h => nomatch h⟩ rfl
    |>.tail _ ⟨plain_scheduler _, nofun⟩ rfl
    |>.tail _ ⟨plain_scheduler _, nofun⟩ rfl
    |>.tail _ ⟨plain_scheduler _, nofun⟩ rfl
  have hends := suspensions_end_once (hrun.mono fun _ _ h => h.1.1)
  exact ⟨_, hrun, rfl, (hends.2.2.2.2.2 hrun rfl).1, hends.1, rfl⟩

/-- The second of two wakeups of one coroutine leaves the wakeup of another
in the queue, and so does `skynet.exit`. -/
theorem wakeup_left :
    (∃ s : State, Reaches step stays (start 1 0) s ∧ s.control = .idle ∧
      s.wakeupQueue = [.thread 2]) ∧
      ∃ s : State, Reaches step proper (start 1 0) s ∧ s.control = .idle ∧
        s.wakeupQueue = [.thread 1] := by
  -- Two coroutines wait, and a third one runs.
  have hthird : Reaches step stays (start 1 0) _ := Reaches.refl
    |>.tail _ (plain_request 1 _) rfl
    |>.tail (.op (.wait 2 none)) (stays_wait rfl rfl rfl rfl) rfl
    |>.tail _ (plain_scheduler _) rfl
    |>.tail _ (plain_scheduler _) rfl
    |>.tail _ (plain_scheduler _) rfl
    |>.tail _ (plain_request 2 _) rfl
    |>.tail (.op (.wait 3 none)) (stays_wait rfl rfl rfl rfl) rfl
    |>.tail _ (plain_scheduler _) rfl
    |>.tail _ (plain_scheduler _) rfl
    |>.tail _ (plain_scheduler _) rfl
    |>.tail _ (plain_request 3 _) rfl
  have htwice : Reaches step stays (start 1 0) _ := hthird
    |>.tail _ (plain_wakeup (.thread 1) _) rfl
    |>.tail _ (plain_wakeup (.thread 1) _) rfl
    |>.tail _ (plain_wakeup (.thread 2) _) rfl
    |>.tail _ (plain_finish _) rfl
    |>.tail _ (plain_scheduler _) rfl
    |>.tail _ (plain_finish _) rfl
    |>.tail _ (plain_scheduler _) rfl
    |>.tail _ (plain_scheduler _) rfl
    |>.tail _ (plain_scheduler _) rfl
    |>.tail _ (plain_scheduler _) rfl
  have hexit : Reaches step proper (start 1 0) _ :=
    hthird.mono (fun _ _ h => h.1)
    |>.tail _ (plain_wakeup (.thread 1) _).1 rfl
    |>.tail (Label.op .exit) trivial rfl
    |>.tail _ (plain_scheduler _).1 rfl
  exact ⟨⟨_, htwice, rfl, rfl⟩, ⟨_, hexit, rfl, rfl⟩⟩

end SkynetServer.Coroutine
