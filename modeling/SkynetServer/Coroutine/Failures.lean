import SkynetServer.Coroutine.Linked
import SkynetServer.Coroutine.Sessions

/-!
# Requests that fail

A coroutine that raises an error is never resumed, so its entries stay as
`suspend` leaves them.  The error is reported by its session, if that is still
in the table.  Nothing reports an error of `unpack`, which is called outside
of the coroutine.
-/

namespace SkynetServer.Coroutine

open Transition

/-! ## Dead coroutines -/

section Dead

/-- The coroutine in control runs. -/
def State.Runs (s : State) : Prop :=
  ∀ co, s.control = .run co → s.status co = .running

/-- What every step keeps. -/
structure Kept (s s' : State) : Prop where
  dead : ∀ co, s.status co = .dead → s'.status co = .dead
  runs : s'.Runs

variable {s s' : State}

theorem Kept.same (hruns : s.Runs) : Kept s s := ⟨fun _ h => h, hruns⟩

/-- No coroutine is in control. -/
theorem Kept.stopped
    (hstatus : s'.status = s.status)
    (hcontrol : ∀ co, s'.control ≠ .run co) : Kept s s' := by
  refine ⟨fun co hco => ?_, fun co hrun => absurd hrun (hcontrol co)⟩
  rw [hstatus, hco]

theorem dead_update
    {co : ℕ} {status : Status} (hco : s.status co ≠ .dead) :
    ∀ co', s.status co' = .dead →
      Function.update s.status co status co' = .dead := by
  intro co' hdead
  have hne : co' ≠ co := by
    rintro rfl
    exact hco hdead
  exact (Function.update_of_ne hne _ _).trans hdead

/-- The coroutine that changes is not in control afterwards, or runs. -/
theorem Kept.update
    {co : ℕ} {status : Status}
    (hstatus : s'.status = Function.update s.status co status)
    (hco : s.status co ≠ .dead)
    (hcontrol : ∀ co', s'.control = .run co' →
      co' = co ∧ status = .running ∨ co' ≠ co ∧ s.status co' = .running) :
    Kept s s' := by
  refine ⟨fun co' hdead => ?_, fun co' hrun => ?_⟩
  · rw [hstatus]
    exact dead_update hco co' hdead
  · rw [hstatus]
    rcases hcontrol co' hrun with ⟨rfl, hst⟩ | ⟨hne, hst⟩
    · rw [Function.update_self, hst]
    · rw [Function.update_of_ne hne, hst]

theorem ne_dead_of_canCreate
    {co : ℕ} (hcreate : s.canCreate co = true) :
    s.status co ≠ .dead ∧ s.status co ≠ .running := by
  have hstatus : s.status co = .absent ∨ s.status co = .pooled :=
    of_decide_eq_true hcreate
  rcases hstatus with h | h
  · rw [h]
    exact ⟨Status.noConfusion, Status.noConfusion⟩
  · rw [h]
    exact ⟨Status.noConfusion, Status.noConfusion⟩

/-- A coroutine that is not dead runs now. -/
theorem Kept.run
    {co : ℕ} (hstatus : s'.status = Function.update s.status co .running)
    (hco : s.status co ≠ .dead)
    (hcontrol : s'.control = .run co) : Kept s s' := by
  refine .update hstatus hco fun co' hrun => Or.inl ?_
  cases hcontrol.symm.trans hrun
  exact ⟨rfl, rfl⟩

/-- A coroutine that is not dead stops, and none is in control. -/
theorem Kept.stop
    {co : ℕ} {status : Status}
    (hstatus : s'.status = Function.update s.status co status)
    (hco : s.status co ≠ .dead)
    (hcontrol : ∀ co', s'.control ≠ .run co') : Kept s s' :=
  .update hstatus hco fun co' hrun => absurd hrun (hcontrol co')

/-- Only a suspended coroutine is resumed. -/
theorem coroutineResume_kept
    (hstatus : s'.status = s.status) (co : ℕ) (cause : Cause) :
    (s'.coroutineResume co cause).Ensures (fun _ => True) (Kept s) := by
  have hne : ∀ {status}, s.status co = status → status ≠ .dead →
      s.status co ≠ .dead := fun hco h => hco ▸ h
  rw [State.coroutineResume, hstatus]
  cases hco : s.status co with
  | waiting w =>
      refine Kept.run ?_ (hne hco Status.noConfusion) rfl
      change Function.update (s'.endWait w).status co .running = _
      rw [Threads.endWait_status, hstatus]
  | timer session | ready =>
      refine Kept.run ?_ (hne hco Status.noConfusion) rfl
      exact congrArg (Function.update · co .running) hstatus
  | empty =>
      have hpooled : Function.update s'.status co Status.pooled =
          Function.update s.status co .pooled := by
        rw [hstatus]
      exact Kept.stop hpooled (hne hco Status.noConfusion) fun _ =>
        Control.noConfusion
  | absent | running | pooled | dead | quit => exact trivial

theorem suspendReturn_control (s : State) (co : ℕ) :
    s.suspendReturn.control ≠ .run co ∧
      s.suspendReturn.status = s.status := by
  rw [State.suspendReturn]
  cases s.frames with
  | zero | succ frames => exact ⟨Control.noConfusion, rfl⟩

theorem suspendReturn_kept (hstatus : s'.status = s.status) :
    Kept s s'.suspendReturn := by
  refine .stopped ?_ fun co => (suspendReturn_control s' co).1
  exact (suspendReturn_control s' 0).2.trans hstatus

theorem dispatchWakeup_kept (s : State) :
    s.dispatchWakeup.Ensures (fun _ => True) (Kept s) := by
  rw [State.dispatchWakeup]
  split
  · exact Kept.stopped rfl fun _ => Control.noConfusion
  · dsimp only
    split
    · split
      · refine coroutineResume_kept ?_ _ _
        rfl
      · exact Kept.stopped rfl fun _ => Control.noConfusion
    · exact Kept.stopped rfl fun _ => Control.noConfusion

theorem dispatchErrorQueue_kept (s : State) :
    s.dispatchErrorQueue.Ensures (fun _ => True) (Kept s) := by
  rw [State.dispatchErrorQueue]
  split
  · exact suspendReturn_kept rfl
  · dsimp only
    split
    · refine coroutineResume_kept ?_ _ _
      rfl
    · exact Kept.stopped rfl fun _ => Control.noConfusion

theorem dispatchForks_kept (s : State) :
    s.dispatchForks.Ensures (fun _ => True) (Kept s) := by
  rw [State.dispatchForks]
  split
  · exact Kept.stopped rfl fun _ => Control.noConfusion
  · refine coroutineResume_kept ?_ _ _
    rfl

theorem rawDispatchMessage_kept (s : State) (message : Message) :
    (s.rawDispatchMessage message).Ensures (fun _ => True) (Kept s) := by
  cases message with
  | response session =>
      rw [State.rawDispatchMessage]
      split
      · exact Kept.stopped rfl fun _ => Control.noConfusion
      · exact Kept.stopped rfl fun _ => Control.noConfusion
      · refine coroutineResume_kept ?_ _ _
        rfl
  | request co =>
      rw [State.rawDispatchMessage]
      split
      next hcreate =>
        exact Kept.run rfl (ne_dead_of_canCreate hcreate).1 rfl
      · exact trivial
  | error session source sessions co =>
      rw [State.rawDispatchMessage]
      split
      next hcreate =>
        exact Kept.stop rfl (ne_dead_of_canCreate hcreate).1
          fun _ => Control.noConfusion
      · exact trivial
  | other => exact Kept.stopped rfl fun _ => Control.noConfusion

theorem runOp_kept
    {co : ℕ} (hruns : s.Runs) (hcontrol : s.control = .run co) (op : Op) :
    (s.runOp co op).Ensures (fun _ => True) (Kept s) := by
  have hco : s.status co ≠ .dead := by
    rw [hruns co hcontrol]
    exact Status.noConfusion
  have hother : ∀ {co' : ℕ}, s.canCreate co' = true → co ≠ co' := by
    rintro co' hcreate rfl
    exact (ne_dead_of_canCreate hcreate).2 (hruns co hcontrol)
  have hstay : ∀ {co' : ℕ}, s.canCreate co' = true → ∀ co'',
      s.control = .run co'' → co'' ≠ co' ∧ s.status co'' = .running := by
    intro co' hcreate co'' hrun
    cases hcontrol.symm.trans hrun
    exact ⟨hother hcreate, hruns co hcontrol⟩
  cases op with
  | wakeup token =>
      rw [State.runOp, State.wakeup]
      split
      · exact ⟨fun _ h => h, hruns⟩
      · exact Kept.same hruns
  | fork co' =>
      rw [State.runOp]
      split
      next hcreate =>
        exact Kept.update rfl (ne_dead_of_canCreate hcreate).1
          fun co'' hrun => Or.inr (hstay hcreate co'' hrun)
      · exact trivial
  | timeout session co' =>
      rw [State.runOp]
      split
      next h =>
        exact Kept.update rfl (ne_dead_of_canCreate h.1).1
          fun co'' hrun => Or.inr (hstay h.1 co'' hrun)
      · exact trivial
  | sleep session token | wait session token =>
      rw [State.runOp, State.suspendSleep]
      split
      · exact Kept.stop rfl hco fun _ => Control.noConfusion
      · exact ⟨fun _ h => h, hruns⟩
  | call session service dest | finish =>
      exact Kept.stop rfl hco fun _ => Control.noConfusion
  | error trigger =>
      rw [State.runOp]
      split
      next hcreate =>
        refine ⟨fun co' h => ?_, fun _ => Control.noConfusion⟩
        have hne : co' ≠ trigger := by
          rintro rfl
          exact (ne_dead_of_canCreate hcreate).1 h
        refine (Function.update_of_ne hne _ _).trans ?_
        exact dead_update hco co' h
      · exact trivial
  | exit =>
      have hquit : Kept s { s with
          toThreads := s.setStatus co .quit
          control := .idle } :=
        .stop rfl hco fun _ => Control.noConfusion
      refine ⟨fun co' h => ?_, fun co' h => ?_⟩
      · rw [(suspendReturn_control _ co').2]
        exact hquit.dead co' h
      · exact absurd h (suspendReturn_control _ co').1

/-- What a step keeps. -/
theorem step_kept
    (hruns : s.Runs) (l : Label) :
    (step s l).Ensures (fun _ => True) (Kept s) := by
  cases l with
  | message message =>
      rw [step]
      split
      · exact rawDispatchMessage_kept s message
      · exact trivial
  | op op =>
      rw [step]
      split
      next co hcontrol => exact runOp_kept hruns hcontrol op
      · exact trivial
  | scheduler =>
      rw [step]
      split
      · exact dispatchWakeup_kept s
      · exact dispatchErrorQueue_kept s
      · exact dispatchForks_kept s
      · exact trivial

end Dead

/-! ## The tables of failed requests -/

namespace Tables

section Entries

/-- Nothing was sent for the request. -/
def Silent (t : Tables) (n : ℕ) : Prop := ∀ m ∈ t.sent, m.request ≠ some n

/-- No function of `skynet.response` refers to the request. -/
def Closed (t : Tables) (n : ℕ) : Prop :=
  ∀ k c, t.unresponse k = some c → c.request ≠ some n

/-- There is no entry for the coroutine. -/
structure Clear (t : Tables) (co : ℕ) : Prop where
  id : t.sessionCoroutineId co = none
  address : t.sessionCoroutineAddress co = none
  tracetag : t.sessionCoroutineTracetag co = none

/-- What was sent for the request is one error message to its sender. -/
def Reported (t : Tables) (n : ℕ) (r : Request) : Prop :=
  t.sent.filter (·.request = some n) =
    [⟨some n, r.source, .error, r.session⟩]

/-- The tables refer to a request. -/
inductive Refers (t : Tables) (n : ℕ) : Prop
  | job (co : ℕ) (h : t.job co = some n)
  | sent (m : Sent) (h : m ∈ t.sent) (hm : m.request = some n)
  | closure (k : ℕ) (c : Closure) (h : t.unresponse k = some c)
      (hc : c.request = some n)
  | failed (h : n ∈ t.failed)

/-- The entries of a coroutine are those of its request. -/
def Addressed (t : Tables) : Prop :=
  ∀ co n r, t.job co = some n → t.requests[n]? = some r →
    t.sessionCoroutineAddress co = some r.source ∧
      ∀ session, t.sessionCoroutineId co = some session → session = r.session

/-- A request whose session is in the table was not answered yet, and one that
has failed was reported. -/
structure Sound (t : Tables) (dead : ℕ → Prop) : Prop where
  bound : ∀ n, t.Refers n → n < t.requests.length
  owner : ∀ co n r, t.job co = some n → t.requests[n]? = some r → r.co = co
  pending : t.exited = false → ∀ co n, t.job co = some n →
    t.sessionCoroutineId co ≠ none → t.Silent n ∧ t.Closed n
  failed : ∀ n ∈ t.failed, ∀ r, t.requests[n]? = some r → r.session ≠ 0 →
    dead r.co ∧ (∀ co, t.job co ≠ some n) ∧ t.Closed n ∧ t.Reported n r ∧
      t.Clear r.co

/-- Something may be sent for the request: it has not failed, and its session
is not in the table. -/
def Free (t : Tables) (request : Option ℕ) : Prop :=
  ∀ n, request = some n →
    n < t.requests.length ∧
    (n ∈ t.failed → ∀ r, t.requests[n]? = some r → r.session = 0) ∧
    (t.exited = false → ∀ co, t.job co = some n →
      t.sessionCoroutineId co = none)

variable {t t' : Tables} {dead : ℕ → Prop}

theorem Sound.mono
    {dead' : ℕ → Prop} (h : t.Sound dead)
    (hdead : ∀ co, dead co → dead' co) : t.Sound dead' := by
  refine ⟨h.bound, h.owner, h.pending, fun n hn r hr hsession => ?_⟩
  obtain ⟨hco, hrest⟩ := h.failed n hn r hr hsession
  exact ⟨hdead r.co hco, hrest⟩

theorem free_none : t.Free none := by
  intro n h
  cases h

/-- A coroutine whose session is not in the table may send. -/
theorem Sound.free_job
    (h : t.Sound dead) {co : ℕ}
    (hid : t.exited = false → t.sessionCoroutineId co = none) :
    t.Free (t.job co) := by
  intro n hn
  have hlt := h.bound n (.job co hn)
  refine ⟨hlt, fun hfailed r hr => ?_, fun hexited co' hco' => ?_⟩
  · by_contra hsession
    exact (h.failed n hfailed r hr hsession).2.1 co hn
  · have hr := List.getElem?_eq_getElem hlt
    rw [← h.owner co' n _ hco' hr, h.owner co n _ hn hr]
    exact hid hexited

/-- A function of `skynet.response` may send. -/
theorem Sound.free_closure
    (h : t.Sound dead) {k : ℕ} {c : Closure}
    (hc : t.unresponse k = some c) : t.Free c.request := by
  intro n hn
  refine ⟨h.bound n (.closure k c hc hn), fun hfailed r hr => ?_,
    fun hexited co hco => ?_⟩
  · by_contra hsession
    exact (h.failed n hfailed r hr hsession).2.2.1 k c hc hn
  · by_contra hid
    exact (h.pending hexited co n hco hid).2 k c hc hn

/-- A message for a request that may be sent. -/
theorem Sound.send
    (h : t.Sound dead) {request : Option ℕ} (hfree : t.Free request)
    (dest : Source) (prototype : Prototype) (session : ℕ) :
    (t.send request dest prototype session).Sound dead := by
  refine ⟨fun n hn => ?_, h.owner, fun hexited co n hco hid => ?_,
    fun n hn r hr hsession => ?_⟩
  · cases hn with
    | job co hco => exact h.bound n (.job co hco)
    | sent m hm hmn =>
        rcases List.mem_append.mp hm with hm | hm
        · exact h.bound n (.sent m hm hmn)
        · cases List.mem_singleton.mp hm
          exact (hfree n hmn).1
    | closure k c hc hcn => exact h.bound n (.closure k c hc hcn)
    | failed hn => exact h.bound n (.failed hn)
  · obtain ⟨hsilent, hclosed⟩ := h.pending hexited co n hco hid
    refine ⟨fun m hm hmn => ?_, hclosed⟩
    rcases List.mem_append.mp hm with hm | hm
    · exact hsilent m hm hmn
    · cases List.mem_singleton.mp hm
      exact hid ((hfree n hmn).2.2 hexited co hco)
  · obtain ⟨hdead, hjob, hclosed, hreported, hclear⟩ :=
      h.failed n hn r hr hsession
    refine ⟨hdead, hjob, hclosed, ?_, hclear.id, hclear.address,
      hclear.tracetag⟩
    have hne : request ≠ some n := by
      intro hrequest
      exact hsession ((hfree n hrequest).2.1 hn r hr)
    rw [Reported, Tables.send, List.filter_append, hreported,
      List.filter_cons_of_neg (by simpa using hne), List.filter_nil,
      List.append_nil]

/-- Functions of `skynet.response` go, or come for a request that may be
answered. -/
theorem Sound.closures
    (h : t.Sound dead) {unresponse : ℕ → Option Closure} {responses : ℕ}
    (hnew : ∀ k c, unresponse k = some c →
      t.unresponse k = some c ∨ t.Free c.request) :
    { t with
      unresponse := unresponse
      responses := responses : Tables }.Sound dead := by
  have hclosed : ∀ n, t.Closed n → ¬ t.Free (some n) → ∀ k c,
      unresponse k = some c → c.request ≠ some n := by
    intro n hn hfree k c hc hcn
    rcases hnew k c hc with hold | hnew
    · exact hn k c hold hcn
    · exact hfree (hcn ▸ hnew)
  refine ⟨fun n hn => ?_, h.owner, fun hexited co n hco hid => ?_,
    fun n hn r hr hsession => ?_⟩
  · cases hn with
    | job co hco => exact h.bound n (.job co hco)
    | sent m hm hmn => exact h.bound n (.sent m hm hmn)
    | closure k c hc hcn =>
        rcases hnew k c hc with hold | hnew
        · exact h.bound n (.closure k c hold hcn)
        · exact (hnew n hcn).1
    | failed hn => exact h.bound n (.failed hn)
  · obtain ⟨hsilent, hn⟩ := h.pending hexited co n hco hid
    refine ⟨hsilent, hclosed n hn fun hfree => ?_⟩
    exact hid ((hfree n rfl).2.2 hexited co hco)
  · obtain ⟨hdead, hjob, hn', hreported, hclear⟩ :=
      h.failed n hn r hr hsession
    refine ⟨hdead, hjob, hclosed n hn' fun hfree => ?_, hreported,
      hclear.id, hclear.address, hclear.tracetag⟩
    exact hsession ((hfree n rfl).2.1 hn r hr)

/-- Entries change, but no session comes back and a dead coroutine gets no
entry. -/
theorem Sound.entries
    (h : t.Sound dead) (hrequests : t'.requests = t.requests)
    (hsent : t'.sent = t.sent) (hclosures : t'.unresponse = t.unresponse)
    (hfailed : t'.failed = t.failed) (hexited : t'.exited = t.exited)
    (hjob : ∀ co n, t'.job co = some n → t.job co = some n)
    (hid : ∀ co, t.sessionCoroutineId co = none →
      t'.sessionCoroutineId co = none)
    (hclear : ∀ co, dead co → t.Clear co → t'.Clear co) :
    t'.Sound dead := by
  refine ⟨fun n hn => ?_, fun co n r hco hr => ?_, fun he co n hco hne => ?_,
    fun n hn r hr hsession => ?_⟩
  · rw [hrequests]
    cases hn with
    | job co hco => exact h.bound n (.job co (hjob co n hco))
    | sent m hm hmn => exact h.bound n (.sent m (hsent ▸ hm) hmn)
    | closure k c hc hcn =>
        exact h.bound n (.closure k c (hclosures ▸ hc) hcn)
    | failed hn => exact h.bound n (.failed (hfailed ▸ hn))
  · exact h.owner co n r (hjob co n hco) (hrequests ▸ hr)
  · rw [Silent, Closed, hsent, hclosures]
    exact h.pending (hexited ▸ he) co n (hjob co n hco)
      fun hnone => hne (hid co hnone)
  · rw [hfailed] at hn
    rw [hrequests] at hr
    obtain ⟨hdead, hnojob, hclosed, hreported, hold⟩ :=
      h.failed n hn r hr hsession
    rw [Closed, Reported, hsent, hclosures]
    exact ⟨hdead, fun co hco => hnojob co (hjob co n hco), hclosed, hreported,
      hclear r.co hdead hold⟩

theorem Addressed.entries
    (h : t.Addressed) (hrequests : t'.requests = t.requests)
    (hjob : ∀ co n, t'.job co = some n → t.job co = some n)
    (hid : ∀ co n, t'.job co = some n → ∀ session,
      t'.sessionCoroutineId co = some session →
        t.sessionCoroutineId co = some session)
    (haddress : ∀ co n, t'.job co = some n →
      t'.sessionCoroutineAddress co = t.sessionCoroutineAddress co) :
    t'.Addressed := by
  intro co n r hco hr
  obtain ⟨hsource, hsession⟩ := h co n r (hjob co n hco) (hrequests ▸ hr)
  refine ⟨(haddress co n hco).trans hsource, fun session hs => ?_⟩
  exact hsession session (hid co n hco session hs)

end Entries

/-! ## What a coroutine does -/

section Acts

variable {t : Tables} {dead : ℕ → Prop}

/-- What holds of the tables at every time. -/
structure Inv (t : Tables) (dead : ℕ → Prop) : Prop where
  sound : t.Sound dead
  addressed : t.Addressed

theorem update_none
    {α : Type} (f : ℕ → Option α) (co : ℕ) {co' : ℕ}
    (h : f co' = none) : Function.update f co none co' = none := by
  by_cases hco : co' = co
  · rw [hco, Function.update_self]
  · rw [Function.update_of_ne hco, h]

theorem of_update_none
    {α : Type} {f : ℕ → Option α} {co co' : ℕ} {v : α}
    (h : Function.update f co none co' = some v) :
    f co' = some v ∧ co' ≠ co := by
  by_cases hco : co' = co
  · rw [hco, Function.update_self] at h
    cases h
  · rw [Function.update_of_ne hco] at h
    exact ⟨h, hco⟩

theorem Inv.clearId
    (h : t.Inv dead) (co : ℕ) : (t.clearId co).Inv dead := by
  constructor
  · refine h.sound.entries rfl rfl rfl rfl rfl (fun _ _ h => h)
      (fun co' => update_none _ co) fun co' _ hclear => ?_
    exact ⟨update_none _ co hclear.id, hclear.address, hclear.tracetag⟩
  · exact h.addressed.entries rfl (fun _ _ h => h)
      (fun _ _ _ _ hs => (of_update_none hs).1) fun _ _ _ => rfl

theorem clearId_self (t : Tables) (co : ℕ) :
    (t.clearId co).sessionCoroutineId co = none := by
  simp [Tables.clearId]

theorem free_clearId
    (h : t.Inv dead) (co : ℕ) : (t.clearId co).Free (t.job co) :=
  (h.clearId co).sound.free_job fun _ => clearId_self t co

theorem Inv.send
    (h : t.Inv dead) {request : Option ℕ} (hfree : t.Free request)
    (dest : Source) (prototype : Prototype) (session : ℕ) :
    (t.send request dest prototype session).Inv dead :=
  ⟨h.sound.send hfree dest prototype session, h.addressed⟩

theorem Inv.reply
    (h : t.Inv dead) {request : Option ℕ} (hfree : t.Free request)
    (dest : Source) (session : ℕ) (result : SendResult) :
    (t.reply request dest session result).Inv dead := by
  cases result with
  | done =>
      have hsend := h.send hfree dest .response session
      refine ⟨?_, hsend.addressed⟩
      exact hsend.sound.entries rfl rfl rfl rfl rfl (fun _ _ h => h)
        (fun _ h => h) fun _ _ h => ⟨h.id, h.address, h.tracetag⟩
  | tooLarge =>
      have hsend := h.send hfree dest .error session
      refine ⟨?_, hsend.addressed⟩
      exact hsend.sound.entries rfl rfl rfl rfl rfl (fun _ _ h => h)
        (fun _ h => h) fun _ _ h => ⟨h.id, h.address, h.tracetag⟩
  | raised => exact h

theorem Inv.ret
    (h : t.Inv dead) (co : ℕ) (result : SendResult) :
    (t.ret co result).Inv dead := by
  rw [Tables.ret]
  split
  · split
    · exact h.clearId co
    · exact (h.clearId co).reply (free_clearId h co) _ _ result
  · exact h.clearId co

theorem Inv.closures
    (h : t.Inv dead) {unresponse : ℕ → Option Closure} {responses : ℕ}
    (hnew : ∀ k c, unresponse k = some c →
      t.unresponse k = some c ∨ t.Free c.request) :
    { t with
      unresponse := unresponse
      responses := responses : Tables }.Inv dead :=
  ⟨h.sound.closures hnew, h.addressed⟩

theorem Inv.response
    (h : t.Inv dead) (co : ℕ) : (t.response co).Inv dead := by
  rw [Tables.response]
  split
  · split
    · exact h.clearId co
    · refine (h.clearId co).closures fun k c hc => ?_
      by_cases hk : k = t.responses
      · rw [hk, Function.update_self] at hc
        cases hc
        exact Or.inr (free_clearId h co)
      · rw [Function.update_of_ne hk] at hc
        exact Or.inl hc
  · exact h.clearId co

theorem reply_unresponse
    (request : Option ℕ) (dest : Source) (session : ℕ) (result : SendResult) :
    (t.reply request dest session result).unresponse = t.unresponse := by
  cases result with
  | done | tooLarge | raised => rfl

theorem Inv.respond
    (h : t.Inv dead) (n : ℕ) (ok : Bool) (result : SendResult) :
    (t.respond n ok result).Inv dead := by
  rw [Tables.respond]
  split
  next c hc =>
    dsimp only
    generalize (if ok then result else SendResult.tooLarge) = sent
    split
    · exact h
    · refine (h.reply (h.sound.free_closure hc) _ _ _).closures
        fun k c' hc' => Or.inl ?_
      rw [reply_unresponse]
      exact (of_update_none hc').1
  · exact h

/-- A coroutine that is not dead gets a tag. -/
theorem Inv.tagged
    (h : t.Inv dead) {co : ℕ} (hco : ¬ dead co) (tag : Option Tag) (traceid : ℕ)
    (traceSource : Source → Option (List UInt8)) :
    { t with
      traceSource := traceSource
      traceid := traceid
      sessionCoroutineTracetag :=
        Function.update t.sessionCoroutineTracetag co tag : Tables }.Inv
      dead := by
  refine ⟨?_, h.addressed⟩
  refine h.sound.entries rfl rfl rfl rfl rfl (fun _ _ h => h)
    (fun _ h => h) fun co' hdead hclear => ?_
  have hne : co' ≠ co := by
    rintro rfl
    exact hco hdead
  exact ⟨hclear.id, hclear.address,
    (Function.update_of_ne hne _ _).trans hclear.tracetag⟩

theorem Inv.traceSource
    (h : t.Inv dead) (traceSource : Source → Option (List UInt8)) :
    { t with traceSource := traceSource : Tables }.Inv dead := by
  refine ⟨?_, h.addressed⟩
  exact h.sound.entries rfl rfl rfl rfl rfl (fun _ _ h => h)
    (fun _ h => h) fun _ _ h => ⟨h.id, h.address, h.tracetag⟩

theorem Inv.trace
    (h : t.Inv dead) {co : ℕ} (hco : ¬ dead co) : (t.trace co).Inv dead := by
  rw [Tables.trace]
  split
  · exact h
  · exact h.tagged hco _ _ _

theorem Inv.tag
    (h : t.Inv dead) {co : ℕ} (hco : ¬ dead co)
    (traceflag : Option Bool) (source : Source) :
    (t.tag traceflag co source).Inv dead := by
  rw [Tables.tag]
  split
  · exact h.tagged hco _ _ _
  · split
    · exact h.tagged hco _ _ _
    · split
      · exact h.trace hco
      · exact h

theorem Inv.unrespond
    (h : t.Inv dead) (source : Source) : (t.unrespond source).Inv dead :=
  h.closures fun _ _ hc => Or.inl (Option.filter_eq_some_iff.mp hc).1

/-- The number of a new request is referred to nowhere. -/
theorem Sound.fresh
    (h : t.Sound dead) : ¬ t.Refers t.requests.length := by
  intro hn
  exact Nat.lt_irrefl _ (h.bound _ hn)

/-- A coroutine that is not dead starts with a request. -/
theorem Inv.enter
    (h : t.Inv dead) {co : ℕ} (hco : ¬ dead co)
    (session : ℕ) (source : Source) : (t.enter co session source).Inv dead := by
  have hold : ∀ {co' n}, co' ≠ co →
      (t.enter co session source).job co' = some n →
      t.job co' = some n ∧ n < t.requests.length := by
    intro co' n hne hn
    have hjob := (Function.update_of_ne hne _ _).symm.trans hn
    exact ⟨hjob, h.sound.bound n (.job co' hjob)⟩
  have hnew : ∀ {n}, (t.enter co session source).job co = some n →
      n = t.requests.length := by
    intro n hn
    exact (Option.some.inj ((Function.update_self co _ _).symm.trans hn)).symm
  have hget : ∀ {n}, n < t.requests.length →
      (t.enter co session source).requests[n]? = t.requests[n]? :=
    fun hn => List.getElem?_append_left hn
  have hlast : (t.enter co session source).requests[t.requests.length]? =
      some ⟨co, session, source⟩ := by
    exact List.getElem?_concat_length
  constructor
  · refine ⟨fun n hn => ?_, fun co' n r hn hr => ?_,
      fun hexited co' n hn hid => ?_, fun n hn r hr hsession => ?_⟩
    · rw [Tables.enter, List.length_append, List.length_singleton]
      refine Nat.lt_succ_of_le ?_
      cases hn with
      | job co' hn =>
          by_cases hne : co' = co
          · exact Nat.le_of_eq (hnew (hne ▸ hn))
          · exact Nat.le_of_lt (hold hne hn).2
      | sent m hm hmn => exact Nat.le_of_lt (h.sound.bound n (.sent m hm hmn))
      | closure k c hc hcn =>
          exact Nat.le_of_lt (h.sound.bound n (.closure k c hc hcn))
      | failed hn => exact Nat.le_of_lt (h.sound.bound n (.failed hn))
    · by_cases hne : co' = co
      · subst hne
        rw [hnew hn, hlast] at hr
        cases hr
        rfl
      · rw [hget (hold hne hn).2] at hr
        exact h.sound.owner co' n r (hold hne hn).1 hr
    · by_cases hne : co' = co
      · subst hne
        have hfresh := h.sound.fresh
        rw [← hnew hn] at hfresh
        exact ⟨fun m hm hmn => hfresh (.sent m hm hmn),
          fun k c hc hcn => hfresh (.closure k c hc hcn)⟩
      · refine h.sound.pending hexited co' n (hold hne hn).1 ?_
        intro hnone
        exact hid ((Function.update_of_ne hne _ _).trans hnone)
    · have hlt := h.sound.bound n (.failed hn)
      rw [hget hlt] at hr
      obtain ⟨hdead, hjob, hclosed, hreported, hclear⟩ :=
        h.sound.failed n hn r hr hsession
      have hne : r.co ≠ co := by
        intro heq
        exact hco (heq ▸ hdead)
      refine ⟨hdead, fun co' hn' => ?_, hclosed, hreported, ?_, ?_,
        hclear.tracetag⟩
      · by_cases hco' : co' = co
        · exact Nat.ne_of_lt hlt (hnew (hco' ▸ hn'))
        · exact hjob co' (hold hco' hn').1
      · exact (Function.update_of_ne hne _ _).trans hclear.id
      · exact (Function.update_of_ne hne _ _).trans hclear.address
  · intro co' n r hn hr
    by_cases hne : co' = co
    · subst hne
      rw [hnew hn, hlast] at hr
      cases hr
      refine ⟨Function.update_self co' _ _, fun session' hs => ?_⟩
      exact (Option.some.inj
        ((Function.update_self co' _ _).symm.trans hs)).symm
    · rw [hget (hold hne hn).2] at hr
      obtain ⟨haddress, hid⟩ := h.addressed co' n r (hold hne hn).1 hr
      refine ⟨(Function.update_of_ne hne _ _).trans haddress, ?_⟩
      intro session' hs
      exact hid session' ((Function.update_of_ne hne _ _).symm.trans hs)

theorem Inv.dispatch
    (h : t.Inv dead) {co : ℕ} (hco : ¬ dead co)
    (traceflag : Option Bool) (session : ℕ) (source : Source) :
    (t.dispatch traceflag co session source).Inv dead :=
  (h.enter hco session source).tag hco traceflag source

theorem Inv.finish
    (h : t.Inv dead) (co : ℕ) : (t.finish co).Inv dead := by
  rw [Tables.finish]
  split
  · constructor
    · refine h.sound.entries rfl rfl rfl rfl rfl
        (fun _ _ hn => (of_update_none hn).1) (fun _ => update_none _ co)
        fun _ _ hclear => ?_
      exact ⟨update_none _ co hclear.id, update_none _ co hclear.address,
        update_none _ co hclear.tracetag⟩
    · refine h.addressed.entries rfl (fun _ _ hn => (of_update_none hn).1)
        (fun _ _ _ _ hs => (of_update_none hs).1) fun co' n hn => ?_
      exact Function.update_of_ne (of_update_none hn).2 _ _
  · constructor
    · refine h.sound.entries rfl rfl rfl rfl rfl
        (fun _ _ hn => (of_update_none hn).1) (fun _ h => h)
        fun _ _ hclear => ?_
      exact ⟨hclear.id, hclear.address, update_none _ co hclear.tracetag⟩
    · exact h.addressed.entries rfl (fun _ _ hn => (of_update_none hn).1)
        (fun _ _ _ _ hs => hs) fun _ _ _ => rfl

theorem Inv.errorDispatch
    (h : t.Inv dead) {co : ℕ} (hco : ¬ dead co)
    (session : ℕ) (source : Source) :
    (t.errorDispatch co session source).Inv dead := by
  have hstart := (h.dispatch hco none session source).clearId co
  rw [Tables.errorDispatch]
  split
  · exact (hstart.unrespond source).finish co
  · exact hstart.finish co

theorem Inv.exitSession
    (h : t.Inv dead) (hexited : t.exited = true) (co : ℕ) :
    (t.exitSession co).Inv dead ∧ (t.exitSession co).exited = true := by
  have hfree : t.Free (t.job co) := h.sound.free_job fun hnot => by
    rw [hexited] at hnot
    cases hnot
  rw [Tables.exitSession]
  split
  · split
    · exact ⟨h, hexited⟩
    · exact ⟨h.send hfree _ _ _, hexited⟩
  · exact ⟨h, hexited⟩

/-- After an exit, nothing is promised for sessions in the table. -/
theorem Inv.setExited (h : t.Inv dead) :
    { t with exited := true : Tables }.Inv dead := by
  refine ⟨⟨?_, h.sound.owner, fun hexited => ?_, ?_⟩, h.addressed⟩
  · intro n hn
    cases hn with
    | job co hn => exact h.sound.bound n (.job co hn)
    | sent m hm hmn => exact h.sound.bound n (.sent m hm hmn)
    | closure k c hc hcn => exact h.sound.bound n (.closure k c hc hcn)
    | failed hn => exact h.sound.bound n (.failed hn)
  · cases hexited
  · intro n hn r hr hsession
    obtain ⟨hdead, hjob, hclosed, hreported, hclear⟩ :=
      h.sound.failed n hn r hr hsession
    exact ⟨hdead, hjob, hclosed, hreported, hclear.id, hclear.address,
      hclear.tracetag⟩

theorem Inv.exit
    (h : t.Inv dead) (cos responses : List ℕ) :
    (t.exit cos responses).Inv dead := by
  have hcos : ∀ {t : Tables}, t.Inv dead → t.exited = true →
      (cos.foldl Tables.exitSession t).Inv dead := by
    induction cos with
    | nil => exact fun h _ => h
    | cons co cos ih =>
        intro t h hexited
        obtain ⟨hnext, hexited⟩ := h.exitSession hexited co
        exact ih hnext hexited
  have hresponses : ∀ {t : Tables}, t.Inv dead →
      (responses.foldl (fun t n => t.respond n false .done) t).Inv dead := by
    induction responses with
    | nil => exact fun h => h
    | cons n responses ih => exact fun h => ih (h.respond n false .done)
  exact hresponses (hcos h.setExited rfl)

end Acts

/-! ## Errors -/

section Errors

variable {t : Tables} {dead : ℕ → Prop}

/-- The coroutine may raise an error: its request was answered, or the session
of the request is still in the table. -/
def MayRaise (t : Tables) (co : ℕ) : Prop :=
  ∀ n r, t.job co = some n → t.requests[n]? = some r → r.session ≠ 0 →
    n ∉ t.answered → t.sessionCoroutineId co ≠ none ∧ t.exited = false

/-- A request fails that was answered, or reported. -/
theorem Sound.fail
    (h : t.Sound dead) {co : ℕ} (hco : dead co)
    (hreported : ∀ n r, t.job co = some n → t.requests[n]? = some r →
      r.session ≠ 0 → n ∉ t.answered →
        t.Closed n ∧ t.Reported n r ∧ t.Clear co) :
    (t.fail co).Sound dead := by
  rw [Tables.fail]
  split
  next n hn =>
    refine ⟨fun m hm => ?_, fun co' m r hm hr => ?_,
      fun hexited co' m hm hid => ?_, fun m hm r hr hsession => ?_⟩
    · cases hm with
      | job co' hm => exact h.bound m (.job co' (of_update_none hm).1)
      | sent a ha ham => exact h.bound m (.sent a ha ham)
      | closure k c hc hcm => exact h.bound m (.closure k c hc hcm)
      | failed hm =>
          dsimp only at hm
          split at hm
          · exact h.bound m (.failed hm)
          · rcases List.mem_cons.mp hm with rfl | hm
            · exact h.bound _ (.job co hn)
            · exact h.bound m (.failed hm)
    · exact h.owner co' m r (of_update_none hm).1 hr
    · exact h.pending hexited co' m (of_update_none hm).1 hid
    · have hold : m ∈ t.failed → dead r.co ∧
          (∀ co', Function.update t.job co none co' ≠ some m) ∧ t.Closed m ∧
            t.Reported m r ∧ t.Clear r.co := by
        intro hm
        obtain ⟨hdead, hjob, hrest⟩ := h.failed m hm r hr hsession
        refine ⟨hdead, fun co' hm => ?_, hrest⟩
        exact hjob co' (of_update_none hm).1
      have hall : dead r.co ∧
          (∀ co', Function.update t.job co none co' ≠ some m) ∧ t.Closed m ∧
            t.Reported m r ∧ t.Clear r.co := by
        dsimp only at hm
        split at hm
        · exact hold hm
        next hanswered =>
          rcases List.mem_cons.mp hm with rfl | hm
          · have hown := h.owner co m r hn hr
            obtain ⟨hclosed, hsent, hclear⟩ :=
              hreported m r hn hr hsession hanswered
            rw [hown]
            refine ⟨hco, fun co' hm => ?_, hclosed, hsent, hclear⟩
            obtain ⟨hm, hne⟩ := of_update_none hm
            exact hne ((h.owner co' m r hm hr).symm.trans hown)
          · exact hold hm
      obtain ⟨hdead, hjob, hclosed, hsent, hclear⟩ := hall
      exact ⟨hdead, hjob, hclosed, hsent, hclear.id, hclear.address,
        hclear.tracetag⟩
  · exact h

theorem fail_job (t : Tables) (co : ℕ) {co' n : ℕ}
    (hn : (t.fail co).job co' = some n) :
    t.job co' = some n ∧ co' ≠ co := by
  rw [Tables.fail] at hn
  split at hn
  · exact of_update_none hn
  next hnone =>
    refine ⟨hn, ?_⟩
    rintro rfl
    cases hnone.symm.trans hn

theorem fail_entries (t : Tables) (co : ℕ) :
    (t.fail co).requests = t.requests ∧
    (t.fail co).sessionCoroutineId = t.sessionCoroutineId ∧
    (t.fail co).sessionCoroutineAddress = t.sessionCoroutineAddress := by
  rw [Tables.fail]
  split
  · exact ⟨rfl, rfl, rfl⟩
  · exact ⟨rfl, rfl, rfl⟩

/-- The entries of a coroutine go. -/
def clear (t : Tables) (co : ℕ) : Tables :=
  { t.clearId co with
    sessionCoroutineAddress :=
      Function.update t.sessionCoroutineAddress co none
    sessionCoroutineTracetag :=
      Function.update t.sessionCoroutineTracetag co none }

theorem clear_clear (t : Tables) (co : ℕ) : (t.clear co).Clear co :=
  ⟨clearId_self t co, by simp [clear], by simp [clear]⟩

theorem Sound.clear
    (h : t.Sound dead) (co : ℕ) : (t.clear co).Sound dead := by
  refine h.entries rfl rfl rfl rfl rfl (fun _ _ h => h)
    (fun _ => update_none _ co) fun _ _ hclear => ?_
  exact ⟨update_none _ co hclear.id, update_none _ co hclear.address,
    update_none _ co hclear.tracetag⟩

/-- The session is in the table: the sender is told, unless it does not wait. -/
theorem suspendError_some
    {co session : ℕ} {address : Source}
    (hid : t.sessionCoroutineId co = some session)
    (haddress : t.sessionCoroutineAddress co = some address) :
    t.suspendError co =
      if session = 0 then t.clear co
      else (t.clear co).send (t.job co) address .error session := by
  rw [suspendError, hid, haddress]
  by_cases hzero : session = 0
  · rw [if_pos hzero]
    simp only [hzero, if_true]
    rfl
  · rw [if_neg hzero]
    simp only [hzero, if_false]
    rfl

theorem suspendError_cases (t : Tables) (co : ℕ) :
    t.suspendError co = t ∨ ∃ session address,
      t.sessionCoroutineId co = some session ∧
      t.sessionCoroutineAddress co = some address := by
  rw [suspendError]
  split
  next session address hid haddress =>
    exact Or.inr ⟨session, address, hid, haddress⟩
  · exact Or.inl rfl

theorem suspendError_fields (t : Tables) (co : ℕ) :
    (t.suspendError co).job = t.job ∧
    (t.suspendError co).requests = t.requests ∧
    (t.suspendError co).answered = t.answered ∧
    (∀ co' ≠ co,
      (t.suspendError co).sessionCoroutineId co' = t.sessionCoroutineId co' ∧
      (t.suspendError co).sessionCoroutineAddress co' =
        t.sessionCoroutineAddress co') := by
  have hclear : ∀ co' ≠ co,
      (t.clear co).sessionCoroutineId co' = t.sessionCoroutineId co' ∧
      (t.clear co).sessionCoroutineAddress co' =
        t.sessionCoroutineAddress co' := fun co' hne =>
    ⟨Function.update_of_ne hne _ _, Function.update_of_ne hne _ _⟩
  rcases suspendError_cases t co with h | ⟨session, address, hid, haddress⟩
  · rw [h]
    exact ⟨rfl, rfl, rfl, fun _ _ => ⟨rfl, rfl⟩⟩
  · rw [suspendError_some hid haddress]
    split
    · exact ⟨rfl, rfl, rfl, hclear⟩
    · exact ⟨rfl, rfl, rfl, hclear⟩

theorem Sound.suspendError
    (h : t.Sound dead) (co : ℕ) : (t.suspendError co).Sound dead := by
  rcases suspendError_cases t co with heq | ⟨session, address, hid, haddress⟩
  · rw [heq]
    exact h
  · rw [suspendError_some hid haddress]
    split
    · exact h.clear co
    · have hclear := h.clear co
      exact hclear.send (hclear.free_job fun _ => (clear_clear t co).id) _ _ _

/-- The request of a coroutine that may raise an error is reported. -/
theorem Inv.suspendError_reported
    (h : t.Inv dead) {co n : ℕ} {r : Request} (hn : t.job co = some n)
    (hr : t.requests[n]? = some r) (hsession : r.session ≠ 0)
    (hid : t.sessionCoroutineId co ≠ none) (hexited : t.exited = false) :
    (t.suspendError co).Closed n ∧ (t.suspendError co).Reported n r ∧
      (t.suspendError co).Clear co := by
  obtain ⟨session, hs⟩ := Option.ne_none_iff_exists'.mp hid
  obtain ⟨haddress, hown⟩ := h.addressed co n r hn hr
  obtain ⟨hsilent, hclosed⟩ := h.sound.pending hexited co n hn hid
  cases hown session hs
  rw [suspendError_some hs haddress, if_neg hsession, hn]
  have hclear := clear_clear t co
  refine ⟨hclosed, ?_, hclear.id, hclear.address, hclear.tracetag⟩
  have hnone : t.sent.filter (·.request = some n) = [] := by
    rw [List.filter_eq_nil_iff]
    intro m hm
    simpa using hsilent m hm
  change (t.sent ++ [_]).filter _ = _
  rw [List.filter_append, hnone]
  simp

/-- The coroutine raises an error and is dead now. -/
theorem Inv.raise
    (h : t.Inv dead) {co : ℕ} (hco : dead co)
    (hmay : t.MayRaise co) : ((t.suspendError co).fail co).Inv dead := by
  obtain ⟨hjob, hrequests, hanswered, hentries⟩ := suspendError_fields t co
  obtain ⟨hrequests', hid', haddress'⟩ := fail_entries (t.suspendError co) co
  constructor
  · refine (h.sound.suspendError co).fail hco fun n r hn hr hsession hnot => ?_
    rw [hjob] at hn
    rw [hrequests] at hr
    rw [hanswered] at hnot
    obtain ⟨hid, hexited⟩ := hmay n r hn hr hsession hnot
    exact h.suspendError_reported hn hr hsession hid hexited
  · refine h.addressed.entries (hrequests'.trans hrequests)
      (fun co' n hn => ?_) (fun co' n hn session hs => ?_) fun co' n hn => ?_
    · rw [← hjob]
      exact (fail_job _ co hn).1
    · rw [hid'] at hs
      rw [← (hentries co' (fail_job _ co hn).2).1]
      exact hs
    · rw [haddress']
      exact (hentries co' (fail_job _ co hn).2).2

/-- A request that fails in `unpack` must not expect an answer. -/
theorem Inv.failUnpack
    (h : t.Inv dead) {co : ℕ} (hco : dead co)
    (hzero : ∀ n r, t.job co = some n → t.requests[n]? = some r →
      r.session = 0) : (t.fail co).Inv dead := by
  obtain ⟨hrequests, hid, haddress⟩ := fail_entries t co
  constructor
  · refine h.sound.fail hco fun n r hn hr hsession => ?_
    exact absurd (hzero n r hn hr) hsession
  · refine h.addressed.entries hrequests (fun co' n hn => (fail_job t co hn).1)
      (fun co' n _ session hs => ?_) fun co' n _ => ?_
    · rw [← hid]
      exact hs
    · rw [haddress]

end Errors

end Tables

/-! ## Runs -/

namespace Service

section Runs

/-- The coroutine is dead. -/
def Dead (s : Service) (co : ℕ) : Prop := s.threads.status co = .dead

/-- What holds at every time. -/
structure Inv (s : Service) : Prop where
  runs : s.threads.Runs
  tables : s.tables.Inv s.Dead

/-- `unpack` does not raise an error for a request that expects an answer, and
no handler does that has given its session away without an answer, or after
`skynet.exit`. -/
def careful (s : Service) : Label → Prop
  | .request _ _ session _ unpacks => unpacks = false → session = 0
  | .act (.op (.error _)) =>
    ∀ co, s.threads.control = .run co → s.tables.MayRaise co
  | _ => True

/-- A failed request which expects an answer is reported to its sender, by one
error message, and its coroutine has no entries when the dispatcher is idle. -/
def FailuresReported (s : Service) : Prop :=
  ∀ n ∈ s.tables.failed, ∀ r, s.tables.requests[n]? = some r →
    r.session ≠ 0 →
      s.tables.Reported n r ∧
        (s.threads.control = .idle → s.tables.Clear r.co)

variable {s : Service} {tables : Tables}

theorem Inv.failuresReported (h : s.Inv) : s.FailuresReported := by
  intro n hn r hr hsession
  obtain ⟨-, -, -, hreported, hclear⟩ :=
    h.tables.sound.failed n hn r hr hsession
  exact ⟨hreported, fun _ => hclear⟩

/-- Coroutines that take a step, with tables that fit to the dead ones. -/
theorem inv_of_threads
    {o : Outcome Failure State}
    {f : State → Outcome Failure Service}
    (ho : o.Ensures (fun _ => True) (Kept s.threads))
    (hf : ∀ threads, o = .next threads → Kept s.threads threads →
      (f threads).Ensures (fun _ => True) Inv) :
    (o.bind f).Ensures (fun _ => True) Inv := by
  cases o with
  | next threads => exact hf threads rfl ho
  | blocked | fault e => exact trivial

theorem Inv.next
    {threads : State} (hkept : Kept s.threads threads)
    (htables : tables.Inv s.Dead) : Inv ⟨threads, tables⟩ :=
  ⟨hkept.runs, htables.sound.mono hkept.dead, htables.addressed⟩

theorem create_of_request
    {s threads : State} {co : ℕ}
    (hstep : Coroutine.step s (.message (.request co)) = .next threads) :
    s.canCreate co = true := by
  rw [Coroutine.step] at hstep
  split at hstep
  · rw [State.rawDispatchMessage] at hstep
    split at hstep
    next hcreate => exact hcreate
    · cases hstep
  · cases hstep

theorem create_of_error
    {s threads : State} {session co : ℕ} {source : BitVec 32}
    {sessions : List ℕ}
    (hstep : Coroutine.step s (.message (.error session source sessions co)) =
      .next threads) : s.canCreate co = true := by
  rw [Coroutine.step] at hstep
  split at hstep
  · rw [State.rawDispatchMessage] at hstep
    split at hstep
    next hcreate => exact hcreate
    · cases hstep
  · cases hstep

theorem dispatch_job
    (t : Tables) (traceflag : Option Bool) (co session : ℕ) (source : Source) :
    (t.dispatch traceflag co session source).job co =
        some t.requests.length ∧
      (t.dispatch traceflag co session source).requests =
        t.requests ++ [⟨co, session, source⟩] := by
  have henter : (t.enter co session source).job co =
      some t.requests.length := Function.update_self co _ _
  rw [Tables.dispatch, Tables.tag]
  split
  · exact ⟨henter, rfl⟩
  · split
    · exact ⟨henter, rfl⟩
    · split
      · rw [Tables.trace]
        split
        · exact ⟨henter, rfl⟩
        · exact ⟨henter, rfl⟩
      · exact ⟨henter, rfl⟩

theorem Inv.request
    (h : s.Inv) (traceflag : Option Bool) (co session : ℕ) (source : Source)
    {unpacks : Bool} (hunpack : unpacks = false → session = 0) :
    (s.step (.request traceflag co session source unpacks)).Ensures
      (fun _ => True) Inv := by
  refine inv_of_threads (step_kept h.runs _) fun threads hstep hkept => ?_
  have hcreate := create_of_request hstep
  have htables := h.tables.dispatch (ne_dead_of_canCreate hcreate).1
    traceflag session source
  cases unpacks with
  | true => exact Inv.next hkept htables
  | false =>
      have hlost : Kept s.threads (State.raise { threads with
          toThreads := threads.setStatus co .dead }) := by
        refine ⟨fun co' hdead => ?_, fun _ => Control.noConfusion⟩
        change Function.update threads.status co .dead co' = .dead
        by_cases hne : co' = co
        · rw [hne, Function.update_self]
        · rw [Function.update_of_ne hne, hkept.dead co' hdead]
      have hdead := htables.sound.mono hlost.dead
      obtain ⟨hjob, hrequests⟩ :=
        dispatch_job s.tables traceflag co session source
      refine ⟨hlost.runs, Tables.Inv.failUnpack ⟨hdead, htables.addressed⟩
        (Function.update_self co _ _) fun n r hn hr => ?_⟩
      cases hjob.symm.trans hn
      rw [hrequests, List.getElem?_concat_length] at hr
      cases hr
      exact hunpack rfl

/-- What an operation leaves in the tables fits to the coroutines after it. -/
theorem Inv.afterOp
    (h : s.Inv) {co : ℕ} (hcontrol : s.threads.control = .run co) {op : Op}
    (hok : s.careful (.act (.op op))) {threads : State}
    (hop : s.threads.runOp co op = .next threads)
    (hkept : Kept s.threads threads) :
    Inv ⟨threads, Service.afterOp s.tables co op⟩ := by
  cases op with
  | finish => exact Inv.next hkept (h.tables.finish co)
  | error trigger =>
      rw [State.runOp] at hop
      split at hop
      next hcreate =>
        have hne : co ≠ trigger := by
          rintro rfl
          exact (ne_dead_of_canCreate hcreate).2 (h.runs co hcontrol)
        cases hop
        refine ⟨hkept.runs, Tables.Inv.raise
          ⟨h.tables.sound.mono hkept.dead, h.tables.addressed⟩ ?_
          (hok co hcontrol)⟩
        refine (Function.update_of_ne hne _ _).trans ?_
        exact Function.update_self co _ _
      · cases hop
  | wakeup token | fork co' | timeout session co' | sleep session token
  | wait session token | call session service dest | exit =>
      exact Inv.next hkept h.tables

theorem runAct_op
    {co : ℕ} {op : Op} (hop : op ≠ .exit) :
    s.runAct co (.op op) = (s.threads.runOp co op).bind fun threads =>
      .next ⟨threads, Service.afterOp s.tables co op⟩ := by
  rw [Service.runAct]
  exact hop

theorem Inv.runAct
    (h : s.Inv) {co : ℕ} (hcontrol : s.threads.control = .run co) {act : Act}
    (hok : s.careful (.act act)) :
    (s.runAct co act).Ensures (fun _ => True) Inv := by
  have hstay := Kept.same h.runs
  have hco : ¬ s.Dead co := by
    rw [Dead, h.runs co hcontrol]
    exact Status.noConfusion
  cases act with
  | op op =>
      by_cases hexit : op = .exit
      · rw [hexit]
        exact trivial
      · rw [runAct_op hexit]
        refine inv_of_threads (runOp_kept h.runs hcontrol op) ?_
        exact fun threads hop hkept => h.afterOp hcontrol hok hop hkept
  | ret result => exact Inv.next hstay (h.tables.ret co result)
  | ignoreret => exact Inv.next hstay (h.tables.clearId co)
  | response => exact Inv.next hstay (h.tables.response co)
  | respond n ok result => exact Inv.next hstay (h.tables.respond n ok result)
  | trace => exact Inv.next hstay (h.tables.trace hco)
  | exit cos responses =>
      rw [Service.runAct]
      refine inv_of_threads (runOp_kept h.runs hcontrol .exit) ?_
      exact fun threads _ hkept =>
        Inv.next hkept (h.tables.exit cos responses)

/-- A careful step. -/
theorem Inv.step
    (h : s.Inv) (l : Label)
    (hok : s.careful l) : (s.step l).Ensures (fun _ => True) Inv := by
  cases l with
  | request traceflag co session source unpacks =>
      exact h.request traceflag co session source hok
  | error co session source sessions =>
      refine inv_of_threads (step_kept h.runs _) fun threads hstep hkept => ?_
      have hcreate := create_of_error hstep
      exact Inv.next hkept (h.tables.errorDispatch
        (ne_dead_of_canCreate hcreate).1 session source)
  | response session | scheduler =>
      refine inv_of_threads (step_kept h.runs _) fun threads _ hkept => ?_
      exact Inv.next hkept h.tables
  | trace source tag =>
      refine inv_of_threads (step_kept h.runs _) fun threads _ hkept => ?_
      exact Inv.next hkept (h.tables.traceSource _)
  | undispatched registered session source =>
      refine inv_of_threads (step_kept h.runs _) fun threads _ hkept => ?_
      have htables : (if registered then
          { s.tables with
            traceSource := Function.update s.tables.traceSource source none }
          else s.tables : Tables).Inv s.Dead := by
        split
        · exact h.tables.traceSource _
        · exact h.tables
      dsimp only
      split
      · exact Inv.next hkept htables
      · exact Inv.next hkept (htables.send Tables.free_none _ _ _)
  | act act =>
      rw [Service.step]
      split
      next co hcontrol => exact h.runAct hcontrol hok
      · exact trivial

theorem inv_start (session co : ℕ) : (start session co).Inv := by
  have hnone : ∀ {n}, ¬ (start session co).tables.Refers n := by
    intro n hn
    cases hn with
    | job co h | sent m h hm | closure k c h hc | failed h => cases h
  refine ⟨fun co' => Control.noConfusion, ⟨?_, ?_, ?_, ?_⟩, ?_⟩
  · exact fun n hn => absurd hn hnone
  · exact fun co' n r hn => absurd (.job co' hn) hnone
  · exact fun _ co' n hn => absurd (.job co' hn) hnone
  · exact fun n hn => absurd (.failed hn) hnone
  · exact fun co' n r hn => absurd (.job co' hn) hnone

/-- In a careful run every failed request is reported. -/
theorem failures_reported
    {session co : ℕ} {s : Service}
    (hreach : Reaches step careful (start session co) s) :
    s.FailuresReported := by
  have hinv : s.Inv := hreach.ensures Inv (inv_start session co)
    fun s l h hok => h.step l hok
  exact hinv.failuresReported

/-- A careful label, by the session that the table has. -/
def isCareful (s : Service) : Label → Bool
  | .request _ _ _ _ unpacks => unpacks
  | .act (.op (.error _)) =>
    match s.threads.control with
    | .run co => (s.tables.sessionCoroutineId co).isSome && !s.tables.exited
    | _ => true
  | _ => true

theorem careful_of_isCareful
    {l : Label} (hl : s.isCareful l = true) : s.careful l := by
  cases l with
  | request traceflag co session source unpacks =>
      intro hunpacks
      cases hunpacks.symm.trans hl
  | act act =>
      cases act with
      | op op =>
          cases op with
          | error trigger =>
              intro co hcontrol
              rw [isCareful, hcontrol] at hl
              obtain ⟨hid, hexited⟩ := Bool.and_eq_true_iff.mp hl
              intro n r _ _ _ _
              refine ⟨fun hnone => ?_, by simpa using hexited⟩
              rw [hnone] at hid
              cases hid
          | _ => exact trivial
      | _ => exact trivial
  | _ => exact trivial

/-- The handler of a request with the session 7 raises an error. -/
theorem handler_reported :
    ∃ s, Reaches step careful (start 1 1) s ∧
      s.tables.failed = [0] ∧
      s.tables.requests = [⟨2, 7, ⟨9, by decide⟩⟩] ∧
      s.threads.control = .idle ∧
      s.FailuresReported := by
  have hpasses : (execWhile step isCareful (start 1 1)
      [.request none 2 7 ⟨9, by decide⟩ true, .act (.op (.error 3)),
        .scheduler, .scheduler, .scheduler, .scheduler]).passes
      (fun s => s.tables.failed = [0] ∧
        s.tables.requests = [⟨2, 7, ⟨9, by decide⟩⟩] ∧
        s.threads.control = .idle) := by
    decide +kernel
  obtain ⟨s, hs, hfailed⟩ := Outcome.exists_of_passes hpasses
  have hreach : Reaches step careful (start 1 1) s :=
    reaches_of_execWhile (fun _ _ => careful_of_isCareful) hs
  obtain ⟨hfailed, hrequests, hcontrol⟩ := of_decide_eq_true hfailed
  exact ⟨s, hreach, hfailed, hrequests, hcontrol, failures_reported hreach⟩

/-- `unpack` raises an error: the sender is not told, and the entries stay. -/
theorem unpack_not_reported :
    ∃ s, Reaches step anyStep (start 1 1) s ∧
      s.tables.failed = [0] ∧
      s.tables.requests = [⟨2, 7, ⟨9, by decide⟩⟩] ∧
      s.threads.control = .idle ∧
      s.tables.sent = [] ∧
      s.tables.sessionCoroutineId 2 = some 7 ∧
      ¬ s.FailuresReported := by
  have hpasses : (exec step (start 1 1)
      [.request none 2 7 ⟨9, by decide⟩ false, .scheduler]).passes
      (fun s => s.tables.failed = [0] ∧
        s.tables.requests = [⟨2, 7, ⟨9, by decide⟩⟩] ∧
        s.threads.control = .idle ∧
        s.tables.sent = [] ∧
        s.tables.sessionCoroutineId 2 = some 7) := by
    decide +kernel
  obtain ⟨s, hs, hfailed⟩ := Outcome.exists_of_passes hpasses
  obtain ⟨hfailed, hrequests, hcontrol, hsent, hid⟩ :=
    of_decide_eq_true hfailed
  refine ⟨s, reaches_of_exec hs, hfailed, hrequests, hcontrol, hsent, hid, ?_⟩
  intro h
  have hclear := (h 0 (hfailed ▸ List.mem_singleton_self 0)
    ⟨2, 7, ⟨9, by decide⟩⟩ (by rw [hrequests]; rfl) (by decide)).2 hcontrol
  cases hid.symm.trans hclear.id

end Runs

end Service

end SkynetServer.Coroutine
