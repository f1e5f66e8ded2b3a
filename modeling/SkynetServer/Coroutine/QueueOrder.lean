import SkynetServer.Coroutine.Queue

/-!
# One coroutine at a time, in the order of the calls

At every point the queue belongs to the coroutine in `current_thread`: it is
inside, with one count of `ref` for each of its calls, or the queue was handed
over to it and its token is in the wakeup queue.  All others that called sleep
in `thread_queue`.
-/

namespace SkynetServer.Coroutine.Queue

open Function Transition

/-! ## Sleepers of a service -/

section Sleepers

variable {s s' : State} {co : ℕ} {w : Wait}

/-- The coroutine sleeps with itself as token. -/
def Asleep (s : State) (co : ℕ) : Prop :=
  ∃ w, s.status co = .waiting w ∧ w.kind = .wait (.thread co)

/-- A sleeper sleeps on, or its token is taken and it runs. -/
theorem asleep_move
    (hinv : Coroutine.Inv s) {l : Coroutine.Label} (hmove : Move s l s')
    (hco : s.status co = .waiting w) (hkind : w.kind = .wait (.thread co))
    (hresponse : l ≠ .message (.response w.session)) :
    s'.status co = .waiting w ∧
        (.thread co ∈ s.wakeupQueue → .thread co ∈ s'.wakeupQueue) ∨
      .thread co ∈ s.wakeupQueue ∧ s'.control = .run co := by
  have htoken : w.kind.token = some (.thread co) := by
    rw [hkind]
    rfl
  cases hmove with
  | message hcontrol hmove =>
      left
      cases hmove with
      | late _ | unknown _ | other => exact ⟨hco, fun h => h⟩
      | @resume other w' hw' =>
          have hne : co ≠ other := by
            rintro rfl
            cases hw'.symm.trans hco
            exact hresponse rfl
          refine ⟨?_, fun h => h⟩
          dsimp only
          rw [Threads.resume_status, update_of_ne hne]
          exact hco
      | @timer other session htimer =>
          have hne : co ≠ other := by
            rintro rfl
            cases htimer.symm.trans hco
          exact ⟨(update_of_ne hne _ _).trans hco, fun h => h⟩
      | request hcreate =>
          have hne := ne_of_canCreate hco hcreate
          exact ⟨(update_of_ne hne _ _).trans hco, fun h => h⟩
      | @error session source sessions other hcreate =>
          have hne := ne_of_canCreate hco hcreate
          refine ⟨(update_of_ne hne _ _).trans hco, ?_⟩
          intro h
          rw [State.errorDispatch]
          split
          · exact h
          · split
            · exact h
            · exact h
  | op hcontrol hmove =>
      left
      refine ⟨(opMove_waiting hinv hcontrol hmove hco).1, ?_⟩
      cases hmove with
      | wakeup _ _ => exact fun h => List.mem_append_left _ h
      | noWakeup _ | fork _ | timeout _ | sleep _ | wait _ | call | finish
      | error _ => exact fun h => h
      | exit =>
          intro h
          rw [State.suspendReturn]
          split
          · exact h
          · exact h
  | scheduler hmove =>
      cases hmove with
      | noToken _ _ | gone _ _ _ | done _ _ => exact .inl ⟨hco, fun h => h⟩
      | @stale token queue _ hqueue hsleep =>
          refine .inl ⟨hco, ?_⟩
          intro h
          rw [hqueue] at h
          rcases List.mem_cons.mp h with rfl | h
          · have hlinked := (hinv.linked.sleep _ w.session).mpr
              ⟨co, w, hco, rfl, htoken⟩
            rw [hsleep] at hlinked
            cases hlinked
          · exact h
      | @wake token queue other w' _ hqueue hw' htoken' =>
          by_cases hne : co = other
          · subst hne
            right
            cases hw'.symm.trans hco
            rw [htoken] at htoken'
            cases htoken'
            refine ⟨?_, rfl⟩
            rw [hqueue]
            exact List.mem_cons_self
          · refine .inl ⟨?_, ?_⟩
            · dsimp only
              rw [Threads.resume_status, update_of_ne hne]
              exact hco
            · intro h
              rw [hqueue] at h
              rcases List.mem_cons.mp h with rfl | h
              · have h₁ := (hinv.linked.sleep _ w.session).mpr
                  ⟨co, w, hco, rfl, htoken⟩
                have h₂ := (hinv.linked.sleep _ w'.session).mpr
                  ⟨other, w', hw', rfl, htoken'⟩
                rw [h₁] at h₂
                exact absurd (hinv.linked.waiting_unique hco hw'
                  (Option.some.inj h₂)) hne
              · exact h
      | noError _ _ =>
          left
          rw [State.suspendReturn]
          split
          · exact ⟨hco, fun h => h⟩
          · exact ⟨hco, fun h => h⟩
      | @fail queue other w' _ _ hw' hservice =>
          have hne : co ≠ other := by
            rintro rfl
            cases hw'.symm.trans hco
            exact hservice (token_service htoken)
          refine .inl ⟨?_, fun h => h⟩
          dsimp only
          rw [Threads.resume_status, update_of_ne hne]
          exact hco
      | @start other queue _ _ hready =>
          have hne : co ≠ other := by
            rintro rfl
            cases hready.symm.trans hco
          exact .inl ⟨(update_of_ne hne _ _).trans hco, fun h => h⟩
      | @trigger other queue _ _ hempty =>
          have hne : co ≠ other := by
            rintro rfl
            cases hempty.symm.trans hco
          exact .inl ⟨(update_of_ne hne _ _).trans hco, fun h => h⟩

/-- A token comes into the wakeup queue only by `skynet.wakeup`. -/
theorem notMem_move
    {l : Coroutine.Label} (hmove : Move s l s') {token : Token}
    (htoken : token ∉ s.wakeupQueue) (hwakeup : l ≠ .op (.wakeup token)) :
    token ∉ s'.wakeupQueue := by
  cases hmove with
  | message _ hmove =>
      cases hmove with
      | late _ | unknown _ | resume _ | timer _ | request _ => exact htoken
      | error _ =>
          rw [State.errorDispatch]
          split
          · exact htoken
          · split
            · exact htoken
            · exact htoken
      | other => exact htoken
  | op _ hmove =>
      cases hmove with
      | @wakeup other _ _ _ _ =>
          intro h
          rcases List.mem_append.mp h with h | h
          · exact htoken h
          · rw [List.mem_singleton.mp h] at hwakeup
            exact hwakeup rfl
      | noWakeup _ | fork _ | timeout _ | sleep _ | wait _ | call | finish
      | error _ => exact htoken
      | exit =>
          rw [State.suspendReturn]
          split
          · exact htoken
          · exact htoken
  | scheduler hmove =>
      have hrest {other : Token} {queue : List Token}
          (hqueue : s.wakeupQueue = other :: queue) : token ∉ queue := by
        intro h
        rw [hqueue] at htoken
        exact htoken (List.mem_cons_of_mem _ h)
      cases hmove with
      | noToken _ _ => exact htoken
      | stale _ hqueue _ | wake _ hqueue _ _ => exact hrest hqueue
      | noError _ _ =>
          rw [State.suspendReturn]
          split
          · exact htoken
          · exact htoken
      | gone _ _ _ | fail _ _ _ _ | done _ _ | start _ _ _ | trigger _ _ _ =>
          exact htoken

end Sleepers

/-! ## The invariant -/

/-- The calls of a coroutine that is inside `n` times. -/
def nested : ℕ → List Call
  | 0 => []
  | n + 1 => .inside n :: nested n

/-- The coroutine was woken, or runs already. -/
def Woken (s : State) (co : ℕ) : Prop :=
  (Asleep s co ∧ .thread co ∈ s.wakeupQueue) ∨ s.control = .run co

section Invariant

variable {α : Type*}

/-- The coroutine that has the queue is inside, or it waits and was woken. -/
inductive Owns (s : System α) (co : ℕ) : Prop
  | inside (n : ℕ) : s.lock.ref = n + 1 → s.calls co = nested (n + 1) →
      Owns s co
  | handed : s.lock.ref = 0 → s.calls co = [.waiting] →
      Woken s.service co → Owns s co

/-- The coroutine to which the queue is handed over. -/
def System.handed (s : System α) : List ℕ :=
  if s.lock.ref = 0 then s.lock.currentThread.toList else []

structure Inv (s : System α) : Prop where
  service : Coroutine.Inv s.service
  owner : ∀ co, s.lock.currentThread = some co → Owns s co
  free : s.lock.currentThread = none →
    s.lock.ref = 0 ∧ s.lock.threadQueue = []
  others : ∀ co, s.lock.currentThread ≠ some co →
    co ∉ s.lock.threadQueue → s.calls co = []
  nodup : s.lock.threadQueue.Nodup
  queued : ∀ co ∈ s.lock.threadQueue,
    s.lock.currentThread ≠ some co ∧ s.calls co = [.waiting] ∧
      Asleep s.service co ∧ .thread co ∉ s.service.wakeupQueue
  order : s.arrived = s.entered ++ s.handed ++ s.lock.threadQueue

theorem inv_start (session co : ℕ) : Inv (start α session co) where
  service := Coroutine.inv_start session co
  owner := fun _ h => (by cases h)
  free := fun _ => ⟨rfl, rfl⟩
  others := fun _ _ _ => rfl
  nodup := List.nodup_nil
  queued := fun _ h => (by cases h)
  order := rfl

/-! ## Steps of the service -/

variable {traceback : α → α} {s : System α} {co : ℕ}

/-- A running coroutine does not sleep. -/
theorem not_asleep_of_run
    {service : State} (hinv : Coroutine.Inv service)
    (hrun : service.control = .run co) : ¬ Asleep service co := by
  rintro ⟨w, hw, _⟩
  exact hinv.ne_of_run hw hrun rfl

/-- The running coroutine is not in `thread_queue`. -/
theorem Inv.notMem_of_run
    (hinv : Inv s) (hrun : s.service.control = .run co) :
    co ∉ s.lock.threadQueue :=
  fun h => not_asleep_of_run hinv.service hrun (hinv.queued co h).2.2.1

/-- A coroutine that runs in a call of the queue has the queue. -/
theorem Inv.owns_of_run
    (hinv : Inv s) (hrun : s.service.control = .run co)
    (hcalls : s.calls co ≠ []) :
    s.lock.currentThread = some co ∧ Owns s co := by
  have hcurrent : s.lock.currentThread = some co := by
    by_contra hne
    exact hcalls (hinv.others co hne (hinv.notMem_of_run hrun))
  exact ⟨hcurrent, hinv.owner co hcurrent⟩

variable {l : Coroutine.Label}

/-- What a step of the service needs and does. -/
theorem step_service
    {s' : System α}
    (hstep : step traceback s (.service l) = .next s') :
    s.runs l = true ∧ ∃ service, Coroutine.step s.service l = .next service ∧
      s' = { s with service := service } := by
  rw [step] at hstep
  split at hstep
  · rename_i hruns
    split at hstep
    · rename_i service hservice
      cases hstep
      exact ⟨hruns, service, hservice, rfl⟩
    · cases hstep
    · cases hstep
  · cases hstep

/-- A coroutine does nothing else before it enters. -/
theorem step_of_waiting
    (hrun : s.service.control = .run co) (hcalls : s.calls co = [.waiting])
    {service : State} (hruns : s.runs l = true)
    (hstep : Coroutine.step s.service l = .next service) : False := by
  cases l with
  | message message | scheduler =>
      rw [Coroutine.step, hrun] at hstep
      cases hstep
  | op op =>
      simp only [System.runs, hrun, hcalls] at hruns
      cases hruns

theorem inv_service
    (hinv : Inv s) (honly : only s (.service l))
    {s' : System α} (hstep : step traceback s (.service l) = .next s') :
    Inv s' := by
  obtain ⟨hruns, service, hservice, rfl⟩ := step_service hstep
  obtain ⟨hproper, hothers⟩ := honly
  have hmove := step_move hinv.service hproper hservice
  constructor
  · exact inv_step hinv.service hproper hservice
  · intro co hco
    cases hinv.owner co hco with
    | inside n href hcalls => exact .inside n href hcalls
    | handed href hcalls hwoken =>
        refine .handed href hcalls ?_
        rcases hwoken with ⟨⟨w, hw, hkind⟩, hmem⟩ | hrun
        · rcases asleep_move hinv.service hmove hw hkind
            ((hothers co hcalls).2 w hw) with ⟨hw', hmem'⟩ | ⟨_, hrun⟩
          · exact .inl ⟨⟨w, hw', hkind⟩, hmem' hmem⟩
          · exact .inr hrun
        · exact absurd hservice fun h =>
            step_of_waiting hrun hcalls hruns h
  · exact hinv.free
  · exact hinv.others
  · exact hinv.nodup
  · intro co hco
    obtain ⟨hcurrent, hcalls, ⟨w, hw, hkind⟩, hmem⟩ := hinv.queued co hco
    obtain ⟨hwakeup, hresponse⟩ := hothers co hcalls
    have hmem' := notMem_move hmove hmem hwakeup
    rcases asleep_move hinv.service hmove hw hkind (hresponse w hw) with
      ⟨hw', _⟩ | ⟨h, _⟩
    · exact ⟨hcurrent, hcalls, ⟨w, hw', hkind⟩, hmem'⟩
    · exact absurd h hmem
  · exact hinv.order

/-! ## Steps of the queue -/

/-- The coroutine sleeps in a call of the queue. -/
theorem suspendSleep_eq
    (service : State) {session : ℕ}
    (hfree : service.sleepSession (.thread co) = none) :
    service.suspendSleep co session (.thread co) (.wait (.thread co)) =
      { service with
        toThreads :=
          { service.setSession session co with
            sleepSession := update service.sleepSession
              (.thread co) (some session) }.suspendIn co session
                (.wait (.thread co))
        control := .wakeup } := by
  simp only [State.suspendSleep, Threads.setSession, hfree, if_true]

theorem inv_call_wait
    (hinv : Inv s) (hrun : s.service.control = .run co)
    (hwaits : s.Waits co) {session : ℕ} (hnew : s.service.New session)
    (hfree : s.service.sleepSession (.thread co) = none)
    (hmem : .thread co ∉ s.service.wakeupQueue) :
    Inv (s.call co session) := by
  obtain ⟨hsome, hne⟩ := hwaits
  obtain ⟨owner, howner⟩ := Option.ne_none_iff_exists'.mp hsome
  have hqueue := hinv.notMem_of_run hrun
  have hcalls : s.calls co = [] := hinv.others co hne hqueue
  have hownerNe : owner ≠ co := by
    rintro rfl
    exact hne howner
  have hservice : Coroutine.Inv (s.service.suspendSleep co session
      (.thread co) (.wait (.thread co))) :=
    hinv.service.suspendSleep hrun hnew hfree rfl rfl
  rw [System.call, if_pos ⟨hsome, hne⟩, hcalls]
  rw [suspendSleep_eq s.service hfree] at hservice ⊢
  have hasleep (other : ℕ) (h : other ≠ co)
      (hother : Asleep s.service other) :
      Asleep { s.service with
        toThreads :=
          { s.service.setSession session co with
            sleepSession := update s.service.sleepSession
              (.thread co) (some session) }.suspendIn co session
                (.wait (.thread co))
        control := .wakeup } other := by
    obtain ⟨w, hw, hkind⟩ := hother
    exact ⟨w, (update_of_ne h _ _).trans hw, hkind⟩
  constructor
  · exact hservice
  · intro c hc
    have hcNe : c ≠ co := by
      rintro rfl
      exact hne hc
    have hcallsC : update s.calls co [.waiting] c = s.calls c :=
      update_of_ne hcNe _ _
    cases hinv.owner c hc with
    | inside n href h => exact .inside n href (hcallsC.trans h)
    | handed href h hwoken =>
        refine .handed href (hcallsC.trans h) ?_
        rcases hwoken with ⟨hc', hmem'⟩ | hrun'
        · exact .inl ⟨hasleep c hcNe hc', hmem'⟩
        · rw [hrun] at hrun'
          cases hrun'
          exact absurd rfl hcNe
  · exact fun h => absurd h hsome
  · intro other hother hnotMem
    have hotherNe : other ≠ co := by
      rintro rfl
      exact hnotMem (List.mem_append_right _ (List.mem_singleton_self _))
    refine (update_of_ne hotherNe _ _).trans ?_
    exact hinv.others other hother
      fun h => hnotMem (List.mem_append_left _ h)
  · refine List.nodup_append.mpr ⟨hinv.nodup,
      List.pairwise_singleton _ _, ?_⟩
    intro other hother last hlast heq
    rw [heq, List.mem_singleton.mp hlast] at hother
    exact hqueue hother
  · intro other hother
    rcases List.mem_append.mp hother with h | h
    · have hotherNe : other ≠ co := by
        rintro rfl
        exact hqueue h
      obtain ⟨h₁, h₂, h₃, h₄⟩ := hinv.queued other h
      exact ⟨h₁, (update_of_ne hotherNe _ _).trans h₂,
        hasleep other hotherNe h₃, h₄⟩
    · rw [List.mem_singleton.mp h]
      exact ⟨hne, update_self _ _ _,
        ⟨_, update_self _ _ _, rfl⟩, hmem⟩
  · have horder := hinv.order
    dsimp only
    rw [horder, System.handed, System.handed, List.append_assoc]

/-- Nobody has the queue, or the coroutine itself. -/
theorem inv_call_run
    (hinv : Inv s) (hrun : s.service.control = .run co)
    (hwaits : ¬ s.Waits co) (hcalls : ∀ calls, s.calls co ≠ .waiting :: calls)
    (session : ℕ) : Inv (s.call co session) := by
  rw [System.call, if_neg hwaits]
  -- before the call the coroutine is inside `n` times
  obtain ⟨n, href, hnested, hhanded⟩ : ∃ n : ℕ, s.lock.ref = n ∧
      s.calls co = nested n ∧ s.handed = [] := by
    by_cases hnone : s.lock.currentThread = none
    · obtain ⟨href, _⟩ := hinv.free hnone
      refine ⟨0, href, ?_, ?_⟩
      · apply hinv.others co
        · rw [hnone]
          exact fun h => (by cases h)
        · exact hinv.notMem_of_run hrun
      · rw [System.handed, hnone]
        split
        · rfl
        · rfl
    · have hcurrent : s.lock.currentThread = some co := by
        by_contra hne
        exact hwaits ⟨hnone, hne⟩
      cases hinv.owner co hcurrent with
      | inside n href h =>
          refine ⟨n + 1, by rw [href]; rfl, h, ?_⟩
          rw [System.handed, if_neg (by omega)]
      | handed _ h _ => exact absurd h (hcalls [])
  have hcurrent : ∀ other, s.lock.currentThread = some other →
      other = co := by
    intro other hother
    by_contra hne
    apply hwaits
    rw [System.Waits, hother]
    exact ⟨fun h => (by cases h), fun h => hne (Option.some.inj h)⟩
  constructor
  · exact hinv.service
  · intro other hother
    cases hother
    refine .inside n ?_ ?_
    · dsimp only
      rw [href]
    · dsimp only
      rw [update_self, hnested, href]
      rfl
  · exact fun h => (by cases h)
  · intro other hother hnotMem
    have hne : other ≠ co := by
      rintro rfl
      exact hother rfl
    refine (update_of_ne hne _ _).trans ?_
    exact hinv.others other (fun h => hne (hcurrent other h)) hnotMem
  · exact hinv.nodup
  · intro other hother
    obtain ⟨_, h₂, h₃, h₄⟩ := hinv.queued other hother
    have hne : other ≠ co := by
      rintro rfl
      exact hinv.notMem_of_run hrun hother
    refine ⟨fun h => hne (Option.some.inj h).symm,
      (update_of_ne hne _ _).trans h₂, h₃, h₄⟩
  · have horder := hinv.order
    rw [hhanded] at horder
    dsimp only
    rw [horder, System.handed, if_neg (by dsimp only; omega)]

variable {calls : List Call}

/-- The coroutine that was woken has the queue, and nobody is inside. -/
theorem Inv.enter_spec
    (hinv : Inv s) (hrun : s.service.control = .run co)
    (hcalls : s.calls co = .waiting :: calls) :
    calls = [] ∧ s.lock.currentThread = some co ∧ s.lock.ref = 0 := by
  have hne : s.calls co ≠ [] := by
    rw [hcalls]
    exact List.cons_ne_nil _ _
  obtain ⟨hcurrent, howns⟩ := hinv.owns_of_run hrun hne
  cases howns with
  | inside n _ h =>
      rw [hcalls] at h
      cases h
  | handed href h _ =>
      rw [hcalls] at h
      cases h
      exact ⟨rfl, hcurrent, href⟩

theorem inv_enter
    (hinv : Inv s) (hrun : s.service.control = .run co)
    (hcalls : s.calls co = .waiting :: calls) :
    s.enter co calls = .next { s with
      lock := ⟨some co, 1, s.lock.threadQueue⟩
      calls := update s.calls co [.inside 0]
      entered := s.entered ++ [co] } ∧
    Inv { s with
      lock := ⟨some co, 1, s.lock.threadQueue⟩
      calls := update s.calls co [.inside 0]
      entered := s.entered ++ [co] } := by
  obtain ⟨rfl, hcurrent, href⟩ := hinv.enter_spec hrun hcalls
  have hqueue := hinv.notMem_of_run hrun
  refine ⟨?_, ?_⟩
  · rw [System.enter, if_pos href, href]
    rfl
  constructor
  · exact hinv.service
  · intro other hother
    cases hother
    exact .inside 0 rfl (update_self _ _ _)
  · exact fun h => (by cases h)
  · intro other hother hnotMem
    have hne : other ≠ co := by
      rintro rfl
      exact hother rfl
    refine (update_of_ne hne _ _).trans ?_
    apply hinv.others other _ hnotMem
    rw [hcurrent]
    exact hother
  · exact hinv.nodup
  · intro other hother
    obtain ⟨h₁, h₂, h₃, h₄⟩ := hinv.queued other hother
    rw [hcurrent] at h₁
    have hne : other ≠ co := by
      rintro rfl
      exact h₁ rfl
    exact ⟨h₁, (update_of_ne hne _ _).trans h₂, h₃, h₄⟩
  · have horder := hinv.order
    rw [System.handed, if_pos href, hcurrent] at horder
    have hone : ¬ (1 : ℤ) = 0 := by decide
    rw [horder, System.handed]
    dsimp only
    rw [if_neg hone, List.append_nil]
    rfl

/-- The calls of a coroutine that runs in the queue. -/
theorem Inv.leave_spec
    (hinv : Inv s) (hrun : s.service.control = .run co) {ref : ℤ}
    (hcalls : s.calls co = .inside ref :: calls) :
    s.lock.currentThread = some co ∧ ∃ n : ℕ, ref = n ∧
      s.lock.ref = n + 1 ∧ calls = nested n := by
  have hne : s.calls co ≠ [] := by
    rw [hcalls]
    exact List.cons_ne_nil _ _
  obtain ⟨hcurrent, howns⟩ := hinv.owns_of_run hrun hne
  refine ⟨hcurrent, ?_⟩
  cases howns with
  | inside n href h =>
      rw [hcalls] at h
      cases h
      exact ⟨n, rfl, href, rfl⟩
  | handed _ h _ =>
      rw [hcalls] at h
      cases h

theorem release_nested
    {lock : Lock} {n : ℕ} (href : lock.ref = n + 1) (hn : n ≠ 0) :
    lock.release = { lock with ref := n } ∧ lock.next = none := by
  have hsub : lock.ref - 1 = n := by omega
  have hne : ¬ lock.ref - 1 = 0 := by omega
  rw [Lock.release, Lock.next, if_neg hne, if_neg hne, hsub]
  exact ⟨rfl, rfl⟩

theorem release_last
    {lock : Lock} (href : lock.ref = 1) :
    lock.release = ⟨lock.threadQueue.head?, 0, lock.threadQueue.tail⟩ ∧
      lock.next = lock.threadQueue.head? := by
  have hsub : lock.ref - 1 = 0 := by omega
  rw [Lock.release, Lock.next, if_pos hsub, if_pos hsub, hsub]
  exact ⟨rfl, rfl⟩

/-- A nested call returns. -/
theorem inv_leave_nested
    (hinv : Inv s) (hcurrent : s.lock.currentThread = some co) {n : ℕ}
    (href : s.lock.ref = n + 1) (hn : n ≠ 0) {returned : List (ℕ × Result α)}
    (hrun : s.service.control = .run co) :
    Inv { s with
      lock := { s.lock with ref := n }
      calls := update s.calls co (nested n)
      returned := returned } := by
  constructor
  · exact hinv.service
  · intro other hother
    cases hcurrent.symm.trans hother
    obtain ⟨m, rfl⟩ := Nat.exists_eq_succ_of_ne_zero hn
    refine .inside m ?_ (update_self _ _ _)
    dsimp only
    omega
  · intro h
    cases hcurrent.symm.trans h
  · intro other hother hnotMem
    have hne : other ≠ co := by
      rintro rfl
      exact hother hcurrent
    exact (update_of_ne hne _ _).trans
      (hinv.others other hother hnotMem)
  · exact hinv.nodup
  · intro other hother
    obtain ⟨h₁, h₂, h₃, h₄⟩ := hinv.queued other hother
    have hne : other ≠ co := by
      rintro rfl
      exact h₁ hcurrent
    exact ⟨h₁, (update_of_ne hne _ _).trans h₂, h₃, h₄⟩
  · have horder := hinv.order
    rw [System.handed, if_neg (by omega)] at horder
    rw [System.handed, if_neg (by dsimp only; omega)]
    exact horder

/-- The last call returns and nobody waits. -/
theorem inv_leave_empty
    (hinv : Inv s) (hcurrent : s.lock.currentThread = some co)
    (href : s.lock.ref = 1) (hqueue : s.lock.threadQueue = [])
    {returned : List (ℕ × Result α)} :
    Inv { s with
      lock := ⟨none, 0, []⟩
      calls := update s.calls co []
      returned := returned } := by
  constructor
  · exact hinv.service
  · exact fun _ h => (by cases h)
  · exact fun _ => ⟨rfl, rfl⟩
  · intro other _ _
    by_cases heq : other = co
    · subst heq
      exact update_self _ _ _
    · refine (update_of_ne heq _ _).trans (hinv.others other ?_ ?_)
      · rw [hcurrent]
        exact fun h => heq (Option.some.inj h).symm
      · rw [hqueue]
        exact List.not_mem_nil
  · exact List.nodup_nil
  · exact fun _ h => (by cases h)
  · have horder := hinv.order
    rw [System.handed, if_neg (by omega), hqueue] at horder
    rw [System.handed]
    exact horder

/-- The last call returns and the first waiter gets the queue. -/
theorem inv_leave_next
    (hinv : Inv s) (hcurrent : s.lock.currentThread = some co)
    (href : s.lock.ref = 1) {next : ℕ} {queue : List ℕ}
    (hqueue : s.lock.threadQueue = next :: queue)
    (returned : List (ℕ × Result α)) :
    .thread next ∈ (s.service.wakeup (.thread next)).wakeupQueue ∧
    Inv { s with
      lock := ⟨some next, 0, queue⟩
      service := s.service.wakeup (.thread next)
      calls := update s.calls co []
      returned := returned } := by
  have hnodup := hinv.nodup
  rw [hqueue, List.nodup_cons] at hnodup
  have hmem : next ∈ s.lock.threadQueue := by
    rw [hqueue]
    exact List.mem_cons_self
  obtain ⟨hnextNe, hnextCalls, ⟨w, hw, hkind⟩, _⟩ := hinv.queued next hmem
  have hne : next ≠ co := by
    rintro rfl
    exact hnextNe hcurrent
  have hwoken := wakeup_eq hinv.service hw
    (show w.kind.token = some (.thread next) by rw [hkind]; rfl)
  have hservice := hinv.service.wakeup (.thread next)
  rw [hwoken] at hservice ⊢
  refine ⟨List.mem_append_right _ (List.mem_singleton_self _), ?_⟩
  constructor
  · exact hservice
  · intro other hother
    cases hother
    exact .handed rfl ((update_of_ne hne _ _).trans hnextCalls)
      (.inl ⟨⟨w, hw, hkind⟩,
        List.mem_append_right _ (List.mem_singleton_self _)⟩)
  · exact fun h => (by cases h)
  · intro other hother hnotMem
    by_cases heq : other = co
    · subst heq
      exact update_self _ _ _
    · refine (update_of_ne heq _ _).trans (hinv.others other ?_ ?_)
      · rw [hcurrent]
        exact fun h => heq (Option.some.inj h).symm
      · rw [hqueue]
        intro h
        rcases List.mem_cons.mp h with rfl | h
        · exact hother rfl
        · exact hnotMem h
  · exact hnodup.2
  · intro other hother
    have hmem' : other ∈ s.lock.threadQueue := by
      rw [hqueue]
      exact List.mem_cons_of_mem _ hother
    obtain ⟨h₁, h₂, h₃, h₄⟩ := hinv.queued other hmem'
    have hotherNext : other ≠ next := by
      rintro rfl
      exact hnodup.1 hother
    have hotherCo : other ≠ co := by
      rintro rfl
      exact h₁ hcurrent
    refine ⟨fun h => hotherNext (Option.some.inj h).symm,
      (update_of_ne hotherCo _ _).trans h₂, h₃, ?_⟩
    intro h
    rcases List.mem_append.mp h with h | h
    · exact h₄ h
    · cases List.mem_singleton.mp h
      exact hotherNext rfl
  · have horder := hinv.order
    rw [System.handed, if_neg (by omega), hqueue] at horder
    rw [System.handed, if_pos rfl]
    dsimp only
    rw [horder, List.append_nil, List.append_assoc]
    rfl

/-! ## Runs -/

theorem inv_leave
    (hinv : Inv s) (hrun : s.service.control = .run co) {ref : ℤ}
    (hcalls : s.calls co = .inside ref :: calls)
    (result : Result α) : Inv (s.leave traceback co calls result) := by
  obtain ⟨hcurrent, n, _, href, rfl⟩ := hinv.leave_spec hrun hcalls
  by_cases hn : n = 0
  · subst hn
    have hone : s.lock.ref = 1 := by rw [href]; rfl
    obtain ⟨hrelease, hnext⟩ := release_last hone
    rw [System.leave, hrelease, hnext]
    cases hqueue : s.lock.threadQueue with
    | nil => exact inv_leave_empty hinv hcurrent hone hqueue
    | cons next queue =>
        exact (inv_leave_next hinv hcurrent hone hqueue _).2
  · obtain ⟨hrelease, hnext⟩ := release_nested href hn
    rw [System.leave, hrelease, hnext]
    exact inv_leave_nested hinv hcurrent href hn hrun

/-- Every step keeps the invariant, and `assert(ref == 0)` does not fail. -/
theorem step_cases
    (hinv : Inv s) {l : Label α} (honly : only s l) :
    step traceback s l = .blocked ∨
      ∃ s', step traceback s l = .next s' ∧ Inv s' := by
  cases l with
  | service l =>
      cases hstep : step traceback s (.service l) with
      | next s' => exact .inr ⟨s', rfl, inv_service hinv honly hstep⟩
      | blocked => exact .inl rfl
      | fault failure =>
          rw [step] at hstep
          split at hstep
          · split at hstep
            · cases hstep
            · cases hstep
            · rename_i hfault
              rcases Coroutine.step_cases hinv.service honly.1 with
                h | ⟨t, ht, _⟩
              · cases h.symm.trans hfault
              · cases ht.symm.trans hfault
          · cases hstep
  | call session =>
      rw [step]
      split
      · rename_i co hrun
        split
        · exact .inl rfl
        · rename_i hcalls
          right
          refine ⟨_, rfl, ?_⟩
          by_cases hwaits : s.Waits co
          · obtain ⟨hnew, hfree, hmem⟩ := honly co hrun hwaits
            exact inv_call_wait hinv hrun hwaits hnew hfree hmem
          · exact inv_call_run hinv hrun hwaits hcalls session
      · exact .inl rfl
  | enter =>
      rw [step]
      split
      · rename_i co hrun
        split
        · rename_i calls hcalls
          obtain ⟨henter, hkept⟩ := inv_enter hinv hrun hcalls
          exact .inr ⟨_, henter, hkept⟩
        · exact .inl rfl
      · exact .inl rfl
  | leave result =>
      rw [step]
      split
      · rename_i co hrun
        split
        · rename_i ref calls hcalls
          exact .inr ⟨_, rfl, inv_leave hinv hrun hcalls result⟩
        · exact .inl rfl
      · exact .inl rfl

theorem reaches_inv
    {session first : ℕ}
    (hrun : Reaches (step traceback) only (start α session first) s) :
    Inv s := by
  apply hrun.invariant Inv (inv_start session first)
  intro s l s' hinv honly hstep
  rcases step_cases hinv honly with h | ⟨t, ht, hkept⟩
  · cases h.symm.trans hstep
  · cases ht.symm.trans hstep
    exact hkept

/-- Only the coroutine that has the queue is inside. -/
theorem Inv.inside_owner
    (hinv : Inv s) (hinside : s.Inside co) :
    s.lock.currentThread = some co ∧ s.lock.ref ≠ 0 := by
  obtain ⟨ref, calls, hcalls⟩ := hinside
  have hcurrent : s.lock.currentThread = some co := by
    by_contra hne
    by_cases hmem : co ∈ s.lock.threadQueue
    · have h := (hinv.queued co hmem).2.1
      rw [hcalls] at h
      cases h
    · have h := hinv.others co hne hmem
      rw [hcalls] at h
      cases h
  refine ⟨hcurrent, ?_⟩
  cases hinv.owner co hcurrent with
  | inside n href _ => omega
  | handed _ h _ =>
      rw [hcalls] at h
      cases h

/-- When the queue was handed over, only the new owner gets inside. -/
theorem enters_next
    (hinv : Inv s) (hcurrent : s.lock.currentThread = some co)
    (href : s.lock.ref = 0) {l : Label α} {s' : System α}
    (hstep : step traceback s l = .next s') {other : ℕ}
    (hinside : s'.Inside other) : other = co := by
  have hnobody (c : ℕ) : ¬ s.Inside c :=
    fun h => (hinv.inside_owner h).2 href
  have howns : s.calls co = [.waiting] := by
    cases hinv.owner co hcurrent with
    | inside n h _ => omega
    | handed _ h _ => exact h
  cases l with
  | service l =>
      obtain ⟨_, service, _, rfl⟩ := step_service hstep
      exact absurd hinside (hnobody other)
  | call session =>
      rw [step] at hstep
      split at hstep
      · rename_i c hrun
        split at hstep
        · cases hstep
        · rename_i hcalls
          cases hstep
          rw [System.Inside, System.call] at hinside
          split at hinside
          · obtain ⟨ref, calls, h⟩ := hinside
            by_cases heq : other = c
            · subst heq
              cases (update_self _ _ _).symm.trans h
            · exact absurd ⟨ref, calls,
                (update_of_ne heq _ _).symm.trans h⟩
                (hnobody other)
          · rename_i hwaits
            -- the owner waits, so it is not the one that calls
            exfalso
            apply hwaits
            rw [System.Waits, hcurrent]
            refine ⟨fun h => (by cases h), ?_⟩
            intro h
            cases h
            exact hcalls [] howns
      · cases hstep
  | enter =>
      rw [step] at hstep
      split at hstep
      · rename_i c hrun
        split at hstep
        · rename_i calls hcalls
          obtain ⟨henter, _⟩ := inv_enter hinv hrun hcalls
          have hc := (hinv.enter_spec hrun hcalls).2.1
          cases henter.symm.trans hstep
          obtain ⟨ref, rest, h⟩ := hinside
          by_cases heq : other = c
          · rw [heq]
            exact Option.some.inj (hc.symm.trans hcurrent)
          · exact absurd ⟨ref, rest,
              (update_of_ne heq _ _).symm.trans h⟩ (hnobody other)
        · cases hstep
      · cases hstep
  | leave result =>
      rw [step] at hstep
      split at hstep
      · split at hstep
        · rename_i ref calls hcalls
          exact absurd ⟨ref, calls, hcalls⟩ (hnobody _)
        · cases hstep
      · cases hstep

/-- What the end of a function in the queue does. -/
theorem leave_spec
    (hinv : Inv s) (hrun : s.service.control = .run co) {ref : ℤ}
    (hcalls : s.calls co = .inside ref :: calls)
    (result : Result α) :
    ∃ s', step traceback s (.leave result) = .next s' ∧
      s'.lock.ref = ref ∧ s'.calls co = calls ∧
      s'.returned = s.returned ++ [(co, xpcallRet traceback result)] ∧
      (ref ≠ 0 → s'.lock = { s.lock with ref := ref } ∧
        s'.service = s.service) ∧
      (ref = 0 →
        s'.lock.currentThread = s.lock.threadQueue.head? ∧
        s'.lock.threadQueue = s.lock.threadQueue.tail ∧
        ∀ next, s.lock.threadQueue.head? = some next →
          .thread next ∈ s'.service.wakeupQueue) := by
  obtain ⟨hcurrent, n, rfl, href, rfl⟩ := hinv.leave_spec hrun hcalls
  refine ⟨s.leave traceback co (nested n) result, ?_, ?_⟩
  · simp only [step, hrun, hcalls]
  by_cases hn : n = 0
  · subst hn
    have hone : s.lock.ref = 1 := by rw [href]; rfl
    obtain ⟨hrelease, hnext⟩ := release_last hone
    rw [System.leave, hrelease, hnext]
    refine ⟨rfl, update_self _ _ _, rfl, fun h => absurd rfl h,
      fun _ => ⟨rfl, rfl, ?_⟩⟩
    intro next hhead
    rw [hhead]
    cases hqueue : s.lock.threadQueue with
    | nil =>
        rw [hqueue] at hhead
        cases hhead
    | cons first queue =>
        rw [hqueue] at hhead
        cases hhead
        exact (inv_leave_next hinv hcurrent hone hqueue s.returned).1
  · obtain ⟨hrelease, hnext⟩ := release_nested href hn
    rw [System.leave, hrelease, hnext]
    refine ⟨rfl, update_self _ _ _, rfl, fun _ => ⟨rfl, rfl⟩, ?_⟩
    intro h
    exact absurd (by omega) hn

/-- In every run in which the waiting coroutines are woken by the queue only:
at most one coroutine is inside, those that waited enter in the order of their
calls, and no assertion fails.  The owner gets in at once when it calls again,
and so does the coroutine that was woken when it runs.  A function that ends
leaves the count of before its call and passes its result on, and with the
count 0 the first waiter is woken and the next one to get inside. -/
theorem critical_section
    {session first : ℕ}
    (hrun : Reaches (step traceback) only (start α session first) s) :
    (∀ co co', s.Inside co → s.Inside co' → co = co') ∧
      s.arrived = s.entered ++ s.handed ++ s.lock.threadQueue ∧
      (∀ l, only s l → ∀ failure, step traceback s l ≠ .fault failure) ∧
      (∀ co, s.service.control = .run co → s.Inside co → ∀ session,
        ∃ s', step traceback s (.call session) = .next s' ∧
          s'.service = s.service ∧ s'.Inside co ∧
          s'.lock.ref = s.lock.ref + 1) ∧
      (∀ co, s.service.control = .run co → s.Waiting co →
        ∃ s', step traceback s .enter = .next s' ∧ s'.Inside co) ∧
      (∀ co ref calls result, s.service.control = .run co →
        s.calls co = .inside ref :: calls →
        ∃ s', step traceback s (.leave result) = .next s' ∧
          s'.lock.ref = ref ∧ s'.calls co = calls ∧
          s'.returned =
            s.returned ++ [(co, xpcallRet traceback result)] ∧
          (ref ≠ 0 → s'.lock = { s.lock with ref := ref } ∧
            s'.service = s.service) ∧
          (ref = 0 →
            s'.lock.currentThread = s.lock.threadQueue.head? ∧
            s'.lock.threadQueue = s.lock.threadQueue.tail ∧
            ∀ next, s.lock.threadQueue.head? = some next →
              .thread next ∈ s'.service.wakeupQueue)) ∧
      (∀ co, s.lock.currentThread = some co → s.lock.ref = 0 →
        ∀ l s', step traceback s l = .next s' →
          ∀ other, s'.Inside other → other = co) := by
  have hinv := reaches_inv hrun
  refine ⟨?_, hinv.order, ?_, ?_, ?_, ?_, ?_⟩
  · intro co co' hco hco'
    have h := (hinv.inside_owner hco).1
    rw [(hinv.inside_owner hco').1] at h
    exact (Option.some.inj h).symm
  · intro l honly failure hfault
    rcases step_cases hinv honly with h | ⟨t, ht, _⟩
    · cases h.symm.trans hfault
    · cases ht.symm.trans hfault
  · intro co hco hinside session
    have hcurrent := (hinv.inside_owner hinside).1
    obtain ⟨ref, calls, hcalls⟩ := hinside
    have hwaits : ¬ s.Waits co := fun h => h.2 hcurrent
    refine ⟨s.call co session, by simp only [step, hco, hcalls], ?_⟩
    rw [System.call, if_neg hwaits]
    exact ⟨rfl, ⟨_, _, update_self _ _ _⟩, rfl⟩
  · intro co hco hwaiting
    obtain ⟨henter, _⟩ := inv_enter hinv hco hwaiting
    have hcalls : s.calls co = [.waiting] := hwaiting
    have hstep : step traceback s .enter = s.enter co [] := by
      simp only [step, hco, hcalls]
    exact ⟨_, hstep.trans henter, 0, [], update_self _ _ _⟩
  · intro co ref calls result hco hcalls
    exact leave_spec hinv hco hcalls result
  · intro co hcurrent href l s' hstep other hinside
    exact enters_next hinv hcurrent href hstep hinside

end Invariant

section Example

variable {α : Type*} {s : System α}

/-- A step of the service that wakes nobody. -/
theorem only_service
    {l : Coroutine.Label} (hproper : proper s.service l)
    (hwakeup : ∀ token, l ≠ .op (.wakeup token))
    (hresponse : ∀ session, l ≠ .message (.response session)) :
    only s (.service l) :=
  ⟨hproper, fun _ _ => ⟨hwakeup _, fun _ _ => hresponse _⟩⟩

theorem only_request (co : ℕ) :
    only s (.service (.message (.request co))) :=
  only_service trivial (fun _ h => (by cases h)) fun _ h => (by cases h)

theorem only_finish : only s (.service (.op .finish)) :=
  only_service trivial (fun _ h => (by cases h)) fun _ h => (by cases h)

theorem only_scheduler : only s (.service .scheduler) :=
  only_service trivial (fun _ h => (by cases h)) fun _ h => (by cases h)

/-- A coroutine calls the queue while another one is inside. -/
theorem only_call
    {co session : ℕ} (hrun : s.service.control = .run co)
    (hnew : s.service.sessionIdCoroutine session = none)
    (herrors : s.service.errorQueue = [])
    (hfree : s.service.sleepSession (.thread co) = none)
    (hwakeups : s.service.wakeupQueue = []) : only s (.call session) := by
  intro other hother _
  cases hrun.symm.trans hother
  refine ⟨⟨hnew, ?_⟩, hfree, ?_⟩
  · rw [herrors]
    exact List.not_mem_nil
  · rw [hwakeups]
    exact List.not_mem_nil

/-- A coroutine sleeps inside. -/
theorem only_sleep
    {co session : ℕ} (hrun : s.service.control = .run co)
    (hnew : s.service.sessionIdCoroutine session = none)
    (herrors : s.service.errorQueue = [])
    (hfree : s.service.sleepSession (.thread co) = none) :
    only s (.service (.op (.sleep session none))) := by
  refine only_service ⟨⟨hnew, ?_⟩, ?_⟩ (fun _ h => (by cases h))
    fun _ h => (by cases h)
  · rw [herrors]
    exact List.not_mem_nil
  · intro other hother
    cases hrun.symm.trans hother
    exact hfree

/-- A response for a coroutine other than the only one that waits. -/
theorem only_response
    {co session : ℕ} {w : Wait}
    (hwaiting : ∀ other, s.Waiting other → other = co)
    (hco : s.service.status co = .waiting w) (hne : session ≠ w.session) :
    only s (.service (.message (.response session))) := by
  refine ⟨trivial, ?_⟩
  intro other hother
  refine ⟨fun h => (by cases h), ?_⟩
  intro w' hw' heq
  rw [hwaiting other hother] at hw'
  cases hco.symm.trans hw'
  cases heq
  exact hne rfl

/-- One coroutine is inside and another one waits. -/
theorem waiting_eq
    {s : System α} {co co' other : ℕ} {ref : ℤ}
    (hcalls : s.calls = update (update (fun _ => []) co
      [.inside ref]) co' [.waiting]) (h : s.Waiting other) :
    other = co' := by
  rw [System.Waiting, hcalls, update_apply,
    update_apply] at h
  split at h
  · assumption
  · split at h
    · cases h
    · cases h

theorem only_leave (result : Result α) : only s (.leave result) :=
  trivial

theorem only_enter : only s .enter :=
  trivial

/-- The coroutine 2 calls while the coroutine 1 sleeps inside, and gets in
after it. -/
theorem second_enters :
    ∃ s : System ℕ, Reaches (step id) only (start ℕ 1 0) s ∧
      s.arrived = [2] ∧ s.Inside 2 ∧ ∀ co, s.Inside co → co = 2 := by
  have hcalled : Reaches (step id) only (start ℕ 1 0) _ := Reaches.refl
    |>.tail _ (only_request 1) rfl
    |>.tail (.call 2) (only_call rfl rfl rfl rfl rfl) rfl
    |>.tail (.service (.op (.sleep 3 none))) (only_sleep rfl rfl rfl rfl) rfl
    |>.tail _ only_scheduler rfl
    |>.tail _ only_scheduler rfl
    |>.tail _ only_scheduler rfl
    |>.tail _ (only_request 2) rfl
    |>.tail (.call 4) (only_call rfl rfl rfl rfl rfl) rfl
    |>.tail _ only_scheduler rfl
    |>.tail _ only_scheduler rfl
    |>.tail _ only_scheduler rfl
  have hresponse := hcalled.tail (.service (.message (.response 3)))
    (only_response (fun _ h => waiting_eq rfl h) rfl (by decide)) rfl
  have hrun := hresponse
    |>.tail _ (only_leave (.ok [])) rfl
    |>.tail _ only_finish rfl
    |>.tail _ only_scheduler rfl
    |>.tail _ only_enter rfl
  exact ⟨_, hrun, rfl, ⟨0, [], rfl⟩, fun co hco =>
    (critical_section hrun).1 co 2 hco ⟨0, [], rfl⟩⟩

end Example

end SkynetServer.Coroutine.Queue
