import SkynetServer.SocketChannel.Dispatching

/-!
# The steps of a channel

Every step of a fair run is blocked or goes on, with the invariant and without
a failed assertion.
-/

namespace SkynetServer.SocketChannel

open Transition

/-- The outcome is a state in which the invariant holds and what was closed
stays closed. -/
def Keeps {φ α : Type*} (s : System φ α)
    (outcome : Outcome Failure (System φ α)) : Prop :=
  ∃ s', outcome = .next s' ∧ Inv s' ∧ Later s s'

section Steps

variable {φ α : Type*} {s s' : System φ α} {co conn : ℕ} {call : Call φ}
  {written : Bool}

theorem Keeps.after
    {outcome : Outcome Failure (System φ α)} (h : Keeps s' outcome)
    (hlater : Later s s') : Keeps s outcome := by
  obtain ⟨s'', heq, hinv, hlater'⟩ := h
  exact ⟨s'', heq, hinv, hlater.trans hlater'⟩

/-! ## Calls -/

/-- The coroutine is outside or connects. -/
def Runs (s : System φ α) (co : ℕ) : Prop :=
  s.pc co = .free ∨ s.pc co = .connecting

theorem Inv.loose (h : Inv s) (hco : Runs s co) : Loose s co := by
  apply h.waits.loose
  · intro t ht
    rcases hco with hco | hco
    · cases hco.symm.trans ht
    · cases hco.symm.trans ht
  · intro call hcall
    rcases hco with hco | hco
    · cases hco.symm.trans hcall
    · cases hco.symm.trans hcall

theorem Runs.not_failing (hco : Runs s co) (c : ℕ) : s.pc co ≠ .failing c := by
  intro hc
  rcases hco with hco | hco
  · cases hco.symm.trans hc
  · cases hco.symm.trans hc

theorem Inv.outside (h : Inv s) (hco : s.pc co = .free) : Outside s co where
  toLoose := h.loose (.inl hco)
  not_failing := Runs.not_failing (.inl hco)
  not_connecting := by
    rintro k hk hne rfl
    cases hco.symm.trans (h.links.stage k hk hne).1

/-- What `check_connection` finds. -/
theorem checkConnection_cases (s : System φ α) (co : ℕ) :
    (s.checkConnection co = (some true, s) ∧ ∃ k, s.sock = some k) ∨
      s.checkConnection co = (some false, s) ∨
      ∃ s', s.checkConnection co = (none, s') ∧
        (s' = s.closeChannelSocket ∨
          s' = s ∧ (s.sock = none ∨ s.authcoroutine ≠ none)) := by
  have hclosed (hrest : s.sock = none ∨ s.authcoroutine ≠ none) :
      ((if s.closed then some false else none : Option Bool), s) =
          (some false, s) ∨
        ∃ s', ((if s.closed then some false else none : Option Bool), s) =
          (none, s') ∧ (s' = s.closeChannelSocket ∨
            s' = s ∧ (s.sock = none ∨ s.authcoroutine ≠ none)) := by
    cases s.closed with
    | true => exact .inl rfl
    | false => exact .inr ⟨s, rfl, .inr ⟨rfl, hrest⟩⟩
  rw [System.checkConnection]
  split
  · rename_i sock hsock
    split
    · exact .inr (.inr ⟨_, rfl, .inl rfl⟩)
    · split
      · exact .inl ⟨rfl, sock, hsock⟩
      · rename_i hauth
        exact .inr (hclosed (.inr fun hnone => hauth (.inl hnone)))
  · rename_i hsock
    exact .inr (hclosed (.inl hsock))

theorem keeps_free (h : Inv s) (hout : Outside s co) :
    Keeps s (.next (s.goto co .free)) :=
  ⟨_, rfl, h.goto hout .free (fun _ h => by cases h) (fun _ h => by cases h),
    later_goto _⟩

theorem keeps_runCall
    (h : Inv s) (hout : Outside s co) {sock : Sock}
    (hsock : s.sock = some sock) (call : Call φ) (written : Bool) :
    Keeps s (s.runCall co call written) := by
  cases call with
  | connect once => exact keeps_free h hout
  | response func =>
      obtain ⟨hinv, hlater⟩ := h.push hout hsock func
      simp only [System.runCall, hsock]
      exact ⟨_, rfl, hinv, hlater⟩
  | request response =>
      simp only [System.runCall, hsock]
      cases written with
      | true =>
          cases response with
          | none => exact keeps_free h hout
          | some func =>
              obtain ⟨hinv, hlater⟩ := h.push hout hsock func
              exact ⟨_, rfl, hinv, hlater⟩
      | false =>
          obtain ⟨phase, hd⟩ := h.links.sock_dispatch sock hsock
          have hout' : Outside s.closeChannelSocket co :=
            ⟨{ hout with }, hout.not_failing, hout.not_connecting⟩
          refine ⟨_, rfl, h.close.goto hout' (.failing sock.conn)
            (fun _ h => by cases h) ?_, later_close.trans (later_goto _)⟩
          intro c hc
          cases hc
          exact ⟨h.links.dispatch_opened _ hd, fun _ hk => (by cases hk)⟩

theorem keeps_endBlockConnect
    (h : Inv s) (hout : Outside s co) (call : Call φ) (written : Bool) :
    Keeps s (s.endBlockConnect co call written) := by
  rw [System.endBlockConnect]
  rcases checkConnection_cases s co with
    ⟨heq, sock, hsock⟩ | heq | ⟨s', heq, rfl | ⟨rfl, _⟩⟩
  · rw [heq]
    exact keeps_runCall h hout hsock call written
  · rw [heq]
    exact keeps_free h hout
  · rw [heq]
    have hout' : Outside s.closeChannelSocket co :=
      ⟨{ hout with }, hout.not_failing, hout.not_connecting⟩
    exact (keeps_free h.close hout').after later_close
  · rw [heq]
    exact keeps_free h hout

/-! ## Connecting -/

theorem endTryConnect_eq
    (hawaiting : ∀ co ∈ s.awaiting, ∃ call, s.pc co = .awaiting call) :
    s.endTryConnect co call written =
      System.endBlockConnect { s with
        wakeupQueue := s.wakeupQueue ++ s.awaiting.map .thread
        connecting := none
        awaiting := [] } co call written := by
  rw [System.endTryConnect, wakeAwaiting_eq hawaiting]

theorem keeps_endTryConnect
    (h : Inv s) (hco : Runs s co) (hauth : s.authcoroutine = none)
    (call : Call φ) (written : Bool) :
    Keeps s (s.endTryConnect co call written) := by
  rw [endTryConnect_eq fun co hmem => (h.waits.awaiting co hmem).1]
  have hwake := h.wakeAwaiting hauth
  have hout : Outside { s with
      wakeupQueue := s.wakeupQueue ++ s.awaiting.map .thread
      connecting := none
      awaiting := [] } co :=
    ⟨hwake.loose hco, hco.not_failing, fun _ hk => (by cases hk)⟩
  exact (keeps_endBlockConnect hwake hout call written).after
    (.of_eq rfl rfl rfl rfl)

theorem keeps_connectAt
    (h : Inv s) (hco : Runs s co) (call : Call φ) {stage : Stage}
    (hsock : s.sock = none)
    (hauth : stage ≠ .closing → s.authcoroutine = none) :
    Keeps s (.next (s.connectAt co call stage)) :=
  ⟨_, rfl, h.connectAt (h.loose hco) hco.not_failing call hsock hauth,
    later_connectAt _ _⟩

theorem keeps_connectFailed
    (h : Inv s) (hco : Runs s co) (hsock : s.sock = none)
    (hauth : s.authcoroutine = none) (call : Call φ) (written : Bool) :
    Keeps s (s.connectFailed co call written) := by
  rw [System.connectFailed]
  split
  · exact keeps_endTryConnect h hco hauth call written
  · exact keeps_connectAt h hco call hsock fun _ => hauth

theorem keeps_connectOnce
    (h : Inv s) (hco : Runs s co) (hsock : s.sock = none)
    (hauth : s.authcoroutine = none) (call : Call φ) (written : Bool) :
    Keeps s (s.connectOnce co call written) := by
  rw [System.connectOnce]
  split
  · exact keeps_connectFailed h hco hsock hauth call written
  · rw [if_neg]
    · have hterm := h.term hsock
      obtain ⟨items, queue, wait, heq⟩ := termDispatchThread_eq (s := s)
      refine Keeps.after (keeps_connectAt hterm ?_ call ?_ ?_) later_term
      · rw [heq]
        exact hco
      · rw [heq]
        exact hsock
      · intro _
        rw [heq]
        exact hauth
    · rw [hsock, hauth]
      exact fun h => h.elim (fun h => by cases h) fun h => by cases h

theorem keeps_tryConnect
    (h : Inv s) (hco : Runs s co) (hsock : s.sock = none)
    (hauth : s.authcoroutine = none) (call : Call φ) (written : Bool) :
    Keeps s (s.tryConnect co call written) := by
  rw [System.tryConnect]
  split
  · exact keeps_endTryConnect h hco hauth call written
  · exact keeps_connectOnce h hco hsock hauth call written

theorem Inv.no_auth (h : Inv s) (hnone : s.connecting = none) :
    s.authcoroutine = none := by
  by_contra hsome
  obtain ⟨co, hco⟩ := Option.ne_none_iff_exists'.mp hsome
  obtain ⟨k, hk, _⟩ := h.links.auth co hco
  cases hnone.symm.trans hk

theorem keeps_await (h : Inv s) (hco : s.pc co = .free) (call : Call φ) :
    Keeps s (.next { s.goto co (.awaiting call) with
      awaiting := s.awaiting ++ [co] }) :=
  ⟨_, rfl, h.await (h.outside hco) call, .of_eq rfl rfl rfl rfl⟩

theorem keeps_blockConnect
    (h : Inv s) (hco : s.pc co = .free) (call : Call φ) (written : Bool) :
    Keeps s (s.blockConnect co call written) := by
  rw [System.blockConnect]
  rcases checkConnection_cases s co with
    ⟨heq, sock, hsock⟩ | heq | ⟨s', heq, rfl | ⟨rfl, hsock⟩⟩
  · rw [heq]
    exact keeps_runCall h (h.outside hco) hsock call written
  · rw [heq]
    exact keeps_free h (h.outside hco)
  · rw [heq]
    refine Keeps.after ?_ later_close
    dsimp only
    split
    · exact keeps_await h.close hco call
    · rename_i hnone
      exact keeps_tryConnect h.close (.inl hco) rfl (h.close.no_auth hnone)
        call written
  · rw [heq]
    dsimp only
    split
    · exact keeps_await h hco call
    · rename_i hnone
      have hauth := h.no_auth hnone
      have hclosed := hsock.resolve_right fun hsome => hsome hauth
      exact keeps_tryConnect h (.inl hco) hclosed hauth call written

/-! ## A new connection -/

theorem keeps_setSock
    (h : Inv s) (hco : Runs s co) (hd : s.dispatch = none)
    (hitems : s.items = []) (hauth : s.authcoroutine = none) (auth : Bool)
    (call : Call φ) (connected written : Bool) :
    Keeps s (s.setSock auth co call connected written) := by
  have hnone : Inv { s with connecting := none } :=
    ⟨{ h.links with
        stage := fun _ hk => (by cases hk)
        auth := fun _ hco => (by cases hauth.symm.trans hco) },
      { h.waits with }⟩
  have hset := hnone.setSock hd hitems (fun _ hk => by cases hk) connected
  have hlater := later_setSock (s := s) connected
  rw [System.setSock]
  dsimp only
  split
  · have hloose := hset.loose hco
    have hlinks := hset.links.goto .free
      (fun c hpc => absurd hpc (hco.not_failing c)) (fun _ h => by cases h)
      fun _ hk => (by cases hk)
    have hwaits := hset.waits.goto hloose .free fun _ h => (by cases h)
    refine ⟨_, rfl, ⟨?_, { hwaits with }⟩, hlater.trans ?_⟩
    · exact
        { hlinks with
          stage := by
            intro k hk hne
            cases hk
            exact absurd rfl hne
          auth := fun _ _ => ⟨_, rfl, .inl rfl⟩ }
    · exact .of_eq rfl rfl rfl rfl
  · have hend := keeps_endTryConnect hset hco hauth call written
    rw [endTryConnect_eq fun co hmem => (hset.waits.awaiting co hmem).1]
      at hend
    rw [endTryConnect_eq]
    · exact hend.after ⟨hlater.pushed, hlater.closed⟩
    · exact fun co hmem => (h.waits.awaiting co hmem).1

theorem keeps_joinDispatch
    (h : Inv s) (hco : Runs s co) (hsock : s.sock = none)
    (hfair : s.dispatch = none → s.items = [])
    (hauth : s.authcoroutine = none) (auth : Bool) (call : Call φ)
    (connected written : Bool) :
    Keeps s (s.joinDispatch auth co call connected written) := by
  rw [System.joinDispatch]
  split
  · exact keeps_connectAt h hco call hsock fun _ => hauth
  · rename_i hd
    have hnone := Option.not_isSome_iff_eq_none.mp hd
    exact keeps_setSock h hco hnone (hfair hnone) hauth auth call connected
      written

theorem keeps_openReturn
    (h : Inv s) (hco : Runs s co) (hsock : s.sock = none) {ok : Bool}
    (hfair : ok = true → s.dispatch = none → s.items = [])
    (hauth : s.authcoroutine = none) (auth : Bool) (call : Call φ)
    (backups : Option ℕ) (written : Bool) :
    Keeps s (s.openReturn auth co call backups ok written) := by
  rw [System.openReturn]
  split
  · rename_i hok
    exact keeps_joinDispatch h hco hsock (hfair hok) hauth auth call true
      written
  · split
    · exact keeps_connectFailed h hco hsock hauth call written
    · exact keeps_connectAt h hco call hsock fun _ => hauth

theorem keeps_endAuth
    (h : Inv s) (hco : Runs s co) {ok : Bool}
    (hsock : ok = false → s.sock = none) (call : Call φ)
    (written : Bool) : Keeps s (s.endAuth co call ok written) := by
  have hinv : Inv { s with authcoroutine := none } :=
    ⟨{ h.links with
        stage := by
          intro k hk hne
          obtain ⟨hpc, hnone, _⟩ := h.links.stage k hk hne
          exact ⟨hpc, hnone, fun _ => rfl⟩
        auth := fun _ hco => (by cases hco) },
      { h.waits with }⟩
  have hlater : Later s { s with authcoroutine := none } :=
    .of_eq rfl rfl rfl rfl
  rw [System.endAuth]
  split
  · rename_i hok
    exact (keeps_connectFailed hinv hco (hsock hok) rfl call written).after
      hlater
  · split
    · rename_i hnone
      exact (keeps_connectOnce hinv hco hnone rfl call written).after hlater
    · exact (keeps_endTryConnect hinv hco rfl call written).after hlater

/-! ## Events -/

theorem keeps_disconnect (h : Inv s) :
    s.disconnect = .blocked ∨ Keeps s s.disconnect := by
  rw [System.disconnect]
  split
  · rename_i sock hsock
    right
    refine ⟨_, rfl, h.disconnect hsock, .of_sock (fun _ => List.prefix_rfl)
      rfl ?_ fun _ _ => rfl⟩
    intro k hk
    cases hk
    exact ⟨sock, hsock, rfl⟩
  · rename_i co call connected hsock hk
    right
    obtain ⟨hpc, _, hauth⟩ := h.links.stage _ hk fun h => (by cases h)
    have hnone := hauth fun h => (by cases h)
    refine ⟨_, rfl, ⟨?_, { h.waits with }⟩, .of_eq rfl rfl rfl rfl⟩
    exact
      { h.links with
        stage := by
          intro k' hk' _
          cases hk'
          exact ⟨hpc, hsock, fun _ => hnone⟩
        auth := fun _ hco => (by cases hnone.symm.trans hco) }
  · exact .inl rfl

theorem keeps_dispatchWakeup (h : Inv s) (written : Bool) :
    s.dispatchWakeup written = .blocked ∨
      Keeps s (s.dispatchWakeup written) := by
  rw [System.dispatchWakeup]
  split
  · exact .inl rfl
  · rename_i c queue hqueue
    right
    have hd := h.links.token c (by
      rw [hqueue]
      exact List.mem_cons_self)
    have hasleep : s.asleep (.dispatch c) = true := by
      rw [System.asleep, hd]
      exact decide_eq_true rfl
    rw [if_pos hasleep]
    obtain ⟨hinv, hlater⟩ := h.dispatchWoken hqueue
    exact ⟨_, rfl, hinv, hlater⟩
  · rename_i co queue hqueue
    right
    dsimp only
    have hmem : .thread co ∈ s.wakeupQueue := by
      rw [hqueue]
      exact List.mem_cons_self
    have hdispatch {c : ℕ} :
        .dispatch c ∈ queue ↔ .dispatch c ∈ s.wakeupQueue := by
      rw [hqueue, List.mem_cons]
      exact (or_iff_right fun h => (by cases h)).symm
    have hlinks : Links { s with wakeupQueue := queue } :=
      { h.links with
        waiting := by
          intro c hc
          obtain ⟨hd, hnil, hnot⟩ := h.links.waiting c hc
          exact ⟨hd, hnil, fun hmem => hnot (hdispatch.mp hmem)⟩
        popping := fun c hc =>
          (h.links.popping c hc).imp_right hdispatch.mpr
        token := fun c hc => h.links.token c (hdispatch.mp hc) }
    split
    · rename_i call hco
      have hwaits := h.waits.dequeue hqueue (by
        intro co' t heq ht
        cases heq
        cases hco.symm.trans ht)
      have hout : Outside { s with wakeupQueue := queue } co := by
        refine ⟨h.waits.loose_of_dequeue hqueue hco, ?_, ?_⟩
        · intro c hc
          cases hco.symm.trans hc
        · rintro k hk hne rfl
          cases hco.symm.trans (h.links.stage k hk hne).1
      have hinv : Inv { s with wakeupQueue := queue } :=
        ⟨hlinks, { hwaits with }⟩
      exact (keeps_endBlockConnect hinv hout call written).after
        (.of_eq rfl rfl rfl rfl)
    · rename_i turn hco
      obtain ⟨g, hresult, hdata, _, hwaits⟩ := h.waits.resume hqueue hco
      rw [hresult]
      dsimp only
      rw [hdata]
      refine ⟨_, rfl, ⟨?_, { hwaits with }⟩, .of_eq rfl rfl rfl rfl⟩
      have hgoto : Links (System.goto { s with wakeupQueue := queue } co
          .free) :=
        hlinks.goto .free (fun c hc => by cases hco.symm.trans hc)
          (fun _ h => by cases h) (by
            rintro k hk hne rfl
            cases hco.symm.trans (h.links.stage k hk hne).1)
      exact { hgoto with }
    · rename_i hawaiting hwaiting
      rcases h.waits.queue co hmem with ⟨t, ht⟩ | ⟨call, hcall⟩
      · exact absurd ht (hwaiting t)
      · exact absurd hcall (hawaiting call)

/-- A request whose write failed ends the waits on its connection. -/
theorem keeps_requestClosed
    (h : Inv s) {c : ℕ} (hco : s.pc co = .failing c)
    (hfair : ∀ i ∈ s.items, i.conn = c) :
    Keeps s (.next (System.wakeupAll none s.items (s.goto co .free))) := by
  have hloose : Loose s co := by
    apply h.waits.loose
    · intro t ht
      cases hco.symm.trans ht
    · intro call hcall
      cases hco.symm.trans hcall
  have hsock : s.sock = none ∨ s.items = [] := by
    by_contra hneither
    obtain ⟨hsome, hitems⟩ := not_or.mp hneither
    obtain ⟨k, hk⟩ := Option.ne_none_iff_exists'.mp hsome
    obtain ⟨phase, hd⟩ := h.links.sock_dispatch k hk
    obtain ⟨i, hi⟩ := List.exists_mem_of_ne_nil _ hitems
    apply (h.links.failing co c hco).2 k hk
    rw [← hfair i hi]
    exact (h.links.items_conn _ hd i hi).symm
  have hgoto := h.waits.goto hloose .free fun _ h => (by cases h)
  obtain ⟨result, resultData, queue, woken, heq, hqueue, hwaits⟩ :=
    wakeupAll_eq (s := s.goto co .free) none s.items hgoto
  have hstage : ∀ k, s.connecting = some k → k.stage ≠ .auth →
      k.co ≠ co := by
    rintro k hk hne rfl
    cases hco.symm.trans (h.links.stage k hk hne).1
  have hlinks := (h.links.wakeAll hsock hqueue result resultData woken).goto
    .free (fun _ _ => rfl) (fun _ h => by cases h) hstage
  have hcurrent : (System.wakeupAll none s.items (s.goto co .free)).current =
      inflight s.dispatch := by
    rw [heq, System.current]
    exact List.append_nil _
  refine ⟨_, rfl, ⟨?_, hcurrent ▸ hwaits⟩, ?_⟩
  · rw [heq]
    exact { hlinks with }
  · rw [heq]
    exact .of_eq rfl rfl rfl rfl

/-! ## Steps -/

theorem keeps_step
    (auth : Bool) (h : Inv s) {l : Label φ α} (hfair : fair s l) :
    step auth s l = .blocked ∨ Keeps s (step auth s l) := by
  cases l with
  | call co call written =>
      rw [step.eq_def]
      dsimp only
      split
      · rename_i hco
        right
        split
        · have hinv : Inv { s with closed := false } :=
            ⟨{ h.links with }, { h.waits with }⟩
          exact (keeps_blockConnect hinv hco _ written).after
            (.of_eq rfl rfl rfl rfl)
        · exact keeps_blockConnect h hco call written
      · exact .inl rfl
  | close =>
      right
      rw [step]
      split
      · exact ⟨s, rfl, h, .refl s⟩
      · refine ⟨_, rfl, ?_, ?_⟩
        · rw [close_term]
          have hterm := h.close.term rfl
          exact ⟨{ hterm.links with }, { hterm.waits with }⟩
        · exact (later_term.trans later_close).trans (.of_eq rfl rfl rfl rfl)
  | changehost =>
      right
      rw [step]
      split
      · exact ⟨s, rfl, h, .refl s⟩
      · exact ⟨_, rfl, h.close, later_close⟩
  | changebackup backup =>
      right
      exact ⟨_, rfl, ⟨{ h.links with }, { h.waits with }⟩,
        .of_eq rfl rfl rfl rfl⟩
  | disconnect => exact keeps_disconnect h
  | opened ok written =>
      rw [step]
      split
      · rename_i co call backups hk
        obtain ⟨hpc, hsock, hauth⟩ := h.links.stage _ hk fun h => (by cases h)
        exact .inr (keeps_openReturn h (.inr hpc) hsock hfair
          (hauth fun h => (by cases h)) auth call backups written)
      · exact .inl rfl
  | yielded written =>
      rw [step]
      split
      · rename_i co call connected hk
        obtain ⟨hpc, hsock, hauth⟩ := h.links.stage _ hk fun h => (by cases h)
        exact .inr (keeps_joinDispatch h (.inr hpc) hsock hfair
          (hauth fun h => (by cases h)) auth call connected written)
      · exact .inl rfl
  | slept written =>
      rw [step]
      split
      · rename_i co call hk
        obtain ⟨hpc, hsock, hauth⟩ := h.links.stage _ hk fun h => (by cases h)
        exact .inr (keeps_tryConnect h (.inr hpc) hsock
          (hauth fun h => (by cases h)) call written)
      · exact .inl rfl
  | authed ok written =>
      rw [step]
      split
      · rename_i co call hk
        split
        · rename_i hco
          right
          split
          · exact keeps_endAuth h (.inl hco) (fun h => by cases h) call
              written
          · exact (keeps_connectAt h.close (.inl hco) call rfl
              fun hne => absurd rfl hne).after later_close
        · exact .inl rfl
      · exact .inl rfl
  | authClosed written =>
      rw [step]
      split
      · rename_i co call hk
        obtain ⟨hpc, hsock, _⟩ := h.links.stage _ hk fun h => (by cases h)
        exact .inr (keeps_endAuth h (.inr hpc) (fun _ => hsock) call written)
      · exact .inl rfl
  | wakeup written => exact keeps_dispatchWakeup h written
  | start =>
      rw [step]
      split
      · rename_i c hd
        obtain ⟨hinv, hlater⟩ := h.dispatchByOrder hd hfair
        exact .inr ⟨_, rfl, hinv, hlater⟩
      · exact .inl rfl
  | returns ok data padding =>
      rw [step]
      split
      · rename_i c turn sock parts hd
        exact .inr (h.getResponse hd ok data padding hfair)
      · exact .inl rfl
  | raises error =>
      rw [step]
      split
      · rename_i c turn sock parts hd
        exact .inr ⟨_, rfl, h.raises hd error,
          later_close.trans (.of_eq rfl rfl rfl rfl)⟩
      · exact .inl rfl
  | dispatchClosed =>
      rw [step]
      split
      · rename_i c turn error hd
        obtain ⟨hinv, hlater, _⟩ := h.dispatchClosed hd
          (error.map Message.value)
        exact .inr ⟨_, rfl, hinv, hlater⟩
      · exact .inl rfl
  | requestClosed co =>
      rw [step]
      split
      · rename_i c hco
        exact .inr (keeps_requestClosed h hco (hfair c hco))
      · exact .inl rfl

end Steps

end SkynetServer.SocketChannel
