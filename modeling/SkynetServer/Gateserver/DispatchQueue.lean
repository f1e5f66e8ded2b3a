import SkynetServer.Coroutine.Scheduler
import SkynetServer.Netpack.Reassembly

/-!
# The queue of packages of the gate server, `snax/gateserver.lua`

A data message that completes several packages puts them into the queue of
`netpack`, from where `dispatch_queue` pops them.  The function of the handler
that a package is given to may wait, so that other coroutines run, and may raise
an error; `dispatch_queue` has forked another coroutine for itself before that.

A coroutine of the scheduler is in one of the functions of the gate server, or
does anything else.
-/

namespace SkynetServer.Gateserver.DispatchQueue

open Function Transition Netpack Framing

/-! ## Coroutines of the gate server -/

/-- What comes behind a call of `dispatch_msg`: the end of the coroutine, or the
loop of `dispatch_queue`, which takes the queue when it starts. -/
inductive After where
  | ended
  | first
  | loop (cap : ℕ)
  deriving DecidableEq, Repr

/-- Where a coroutine is.  In its loop `dispatch_queue` pops from the queue that
it has taken; a queue that has replaced another one has a greater `cap`. -/
inductive Place where
  | plain
  /-- `dispatch_queue` before its first `netpack.pop`. -/
  | pop
  /-- `dispatch_queue` before `skynet.fork`. -/
  | fork (np : Pack)
  /-- `dispatch_msg` -/
  | message (np : Pack) (after : After)
  /-- `handler.message` -/
  | handling (after : After)
  | loop (cap : ℕ)
  /-- The coroutine has nothing left to do. -/
  | ended
  deriving DecidableEq, Repr

/-- `log` holds the packages that `dispatch_msg` was called with, and whether
they were given to the handler.  `tail` are the bytes of an fd behind its last
complete package, and `due` the packages that are complete, in their order. -/
structure State where
  sched : Coroutine.State
  queue : Option Queue
  connected : Fd → Bool
  place : ℕ → Place
  exited : Bool
  log : List (Pack × Bool)
  tail : Fd → List UInt8
  due : List Pack

inductive Fault where
  | sched (f : Coroutine.Failure)
  | netpack
  deriving DecidableEq, Repr

inductive Label where
  /-- A data message. -/
  | data (co : ℕ) (c : Chunk)
  /-- The close of an fd, or an error of it. -/
  | closed (co : ℕ) (fd : Fd)
  | message (m : Coroutine.Message)
  | op (op : Coroutine.Op)
  /-- `connection[fd]` is set, by any function. -/
  | connect (fd : Fd) (connected : Bool)
  /-- A coroutine of the gate server goes on, or the handler returns. -/
  | go
  /-- `skynet.fork(dispatch_queue)` -/
  | fork (co : ℕ)
  | scheduler

/-- A new queue serves nobody yet. -/
def start (session co : ℕ) : State where
  sched := Coroutine.start session co
  queue := none
  connected := fun _ => false
  place := fun _ => .plain
  exited := false
  log := []
  tail := fun _ => []
  due := []

/-! ## Steps -/

/-- A step of the scheduler and what follows. -/
def schedule
    (t : Coroutine.State) (l : Coroutine.Label)
    (k : Coroutine.State → Outcome Fault State) : Outcome Fault State :=
  match Coroutine.step t l with
  | .next t => k t
  | .blocked => .blocked
  | .fault f => .fault (.sched f)

/-- The coroutine that a step creates. -/
def created : Coroutine.Label → Option ℕ
  | .message (.request co) => some co
  | .message (.error _ _ _ co) => some co
  | .op (.fork co) => some co
  | .op (.timeout _ co) => some co
  | .op (.error co) => some co
  | _ => none

/-- Where the coroutine of a data message begins. -/
def placeOf : Result → Place
  | .none => .ended
  | .data np => .message np .ended
  | .more => .pop

/-- The operations of a coroutine: any, but a function of the handler has to
return first. -/
def allows : Place → Coroutine.Op → Bool
  | .plain, _ => true
  | .handling _, op => op ≠ .finish
  | .ended, op => op = .finish
  | _, _ => false

namespace State

variable (s : State)

def goto (co : ℕ) (p : Place) : State :=
  { s with place := update s.place co p }

/-- A new coroutine does anything. -/
def fresh (l : Coroutine.Label) : ℕ → Place :=
  match created l with
  | some co => update s.place co .plain
  | none => s.place

def afterPlace : After → Place
  | .ended => .ended
  | .first =>
    match s.queue with
    | some q => .loop q.cap
    | none => .ended
  | .loop cap => .loop cap

/-- `netpack.pop` -/
def pop (co : ℕ) (next : Pack → Place) : Outcome Fault State :=
  match s.queue with
  | none => .next (s.goto co .ended)
  | some q =>
    match lpop q with
    | none => .fault .netpack
    | some (none, _) => .next (s.goto co .ended)
    | some (some np, q) =>
      .next ({ s with queue := some q }.goto co (next np))

/-- `dispatch_msg` -/
def dispatchMsg (co : ℕ) (np : Pack) (after : After) : State :=
  if s.connected np.id then
    { s with log := s.log ++ [(np, true)] }.goto co (.handling after)
  else
    { s with log := s.log ++ [(np, false)] }.goto co (s.afterPlace after)

/-- A coroutine goes on up to the next call. -/
def go (co : ℕ) : Outcome Fault State :=
  match s.place co with
  | .pop => s.pop co .fork
  | .message np after => .next (s.dispatchMsg co np after)
  | .handling after => .next (s.goto co (s.afterPlace after))
  | .loop cap =>
    -- a queue that was replaced is empty
    if s.queue.map (fun q => q.cap) = some cap then
      s.pop co fun np => .message np (.loop cap)
    else .next (s.goto co .ended)
  | _ => .blocked

/-- The `socket` protocol, for a data message. -/
def data (co : ℕ) (c : Chunk) (t : Coroutine.State) : Outcome Fault State :=
  match filterData s.queue c.fd c.bytes with
  | none => .fault .netpack
  | some (q, result) =>
    let parsed := parse (s.tail c.fd ++ c.bytes)
    .next { s with
      sched := t
      queue := q
      place := update s.place co (placeOf result)
      tail := update s.tail c.fd parsed.2
      due := s.due ++ parsed.1.map (Pack.of c.fd) }

end State

/-- One step of the gate server. -/
def step (s : State) : Label → Outcome Fault State
  | .data co c => schedule s.sched (.message (.request co)) (s.data co c)
  | .closed co fd =>
    schedule s.sched (.message (.request co)) fun t =>
      .next { s with
        sched := t
        queue := closeUncomplete s.queue fd
        place := update s.place co .plain
        tail := update s.tail fd [] }
  | .message m =>
    schedule s.sched (.message m) fun t =>
      .next { s with sched := t, place := s.fresh (.message m) }
  | .op op =>
    match s.sched.control with
    | .run co =>
      if allows (s.place co) op then
        schedule s.sched (.op op) fun t =>
          .next { s with
            sched := t
            place := s.fresh (.op op)
            exited := s.exited || op = .exit }
      else .blocked
    | _ => .blocked
  | .connect fd connected =>
    match s.sched.control with
    | .run _ =>
      .next { s with
        connected := update s.connected fd connected }
    | _ => .blocked
  | .go =>
    match s.sched.control with
    | .run co => s.go co
    | _ => .blocked
  | .fork co =>
    match s.sched.control with
    | .run c =>
      match s.place c with
      | .fork np =>
        schedule s.sched (.op (.fork co)) fun t =>
          .next { s with
            sched := t
            place := update (update s.place co .pop) c
              (.message np .first) }
      | _ => .blocked
    | _ => .blocked
  | .scheduler =>
    schedule s.sched .scheduler fun t => .next { s with sched := t }

/-! ## The scheduler -/

/-- What a step of the scheduler does to the coroutines that were forked: they
stay in the queue, or run. -/
structure Moved (t t' : Coroutine.State) : Prop where
  ready : ∀ c ∈ t.forkQueue, t.status c = .ready →
    c ∈ t'.forkQueue ∧ t'.status c = .ready ∨ t'.control = .run c
  runs : ∀ c, t'.control = .run c → t'.status c = .running
  idle : t'.control = .idle → t'.forkQueue = []

section Moved

open Coroutine

variable {t t' s : Coroutine.State} {co c : ℕ}

theorem ne_of_canCreate
    (h : t.canCreate co = true) (hc : t.status c = .ready ∨
      t.status c = .running) : c ≠ co := by
  rintro rfl
  rcases of_decide_eq_true h with h | h
  · rw [h] at hc
    rcases hc with hc | hc
    · cases hc
    · cases hc
  · rw [h] at hc
    rcases hc with hc | hc
    · cases hc
    · cases hc

/-- The status of one coroutine changes, of a forked one only when it runs. -/
theorem Moved.of_one
    {d : ℕ} (hfork : ∀ c ∈ t.forkQueue, c ≠ d → c ∈ t'.forkQueue)
    (hstatus : ∀ c, c ≠ d → t'.status c = t.status c)
    (hready : t.status d = .ready → t'.control = .run d)
    (hruns : ∀ c, t'.control = .run c → t'.status c = .running)
    (hidle : t'.control ≠ .idle) : Moved t t' := by
  refine ⟨fun c hc hst => ?_, hruns, fun h => absurd h hidle⟩
  by_cases hcd : c = d
  · rw [hcd] at hst ⊢
    exact .inr (hready hst)
  · exact .inl ⟨hfork c hc hcd, (hstatus c hcd).trans hst⟩

theorem status_endWait (w : Wait) : (t.endWait w).status = t.status := by
  rw [Threads.endWait]
  cases w.kind with
  | sleep token | wait token | call service dest => rfl

theorem coroutineResume_moved
    (hfork : ∀ c ∈ t.forkQueue, c ≠ co → c ∈ s.forkQueue)
    (hstatus : s.status = t.status) (cause : Cause) :
    (s.coroutineResume co cause).Ensures (fun _ => True) (Moved t) := by
  have hrun : ∀ u : Coroutine.State, u.forkQueue = s.forkQueue →
      u.control = .run co →
      u.status = update t.status co .running → Moved t u := by
    intro u hu hcontrol hust
    refine Moved.of_one (d := co) (fun c hc hne => hu ▸ hfork c hc hne)
      (fun c hne => ?_) (fun _ => hcontrol) (fun c hc => ?_) (fun h => ?_)
    · rw [hust, update_of_ne hne]
    · rw [hcontrol] at hc
      cases hc
      rw [hust, update_self]
    · rw [hcontrol] at h
      cases h
  rw [State.coroutineResume]
  split
  · rename_i w hw
    refine hrun _ rfl rfl ?_
    dsimp only [Threads.setStatus]
    rw [status_endWait, hstatus]
  · refine hrun _ rfl rfl ?_
    dsimp only [Threads.setStatus]
    rw [hstatus]
  · refine hrun _ rfl rfl ?_
    dsimp only [Threads.setStatus]
    rw [hstatus]
  · rename_i hempty
    refine Moved.of_one (d := co) (fun c hc hne => hfork c hc hne)
      (fun c hne => ?_) (fun hready => ?_) (fun c hc => ?_) (fun h => ?_)
    · dsimp only [Threads.setStatus]
      rw [update_of_ne hne, hstatus]
    · rw [← hstatus, hempty] at hready
      cases hready
    · cases hc
    · cases h
  · trivial

/-- Only the control changes. -/
theorem Moved.of_control
    (hfork : t'.forkQueue = t.forkQueue) (hstatus : t'.status = t.status)
    (hcontrol : ∀ c, t'.control ≠ .run c) (hidle : t'.control ≠ .idle) :
    Moved t t' :=
  ⟨fun _ hc hst => .inl ⟨hfork ▸ hc, hstatus ▸ hst⟩,
    fun c hc => absurd hc (hcontrol c), fun h => absurd h hidle⟩

theorem suspendReturn_moved
    (hfork : s.forkQueue = t.forkQueue) (hstatus : s.status = t.status) :
    Moved t s.suspendReturn := by
  rw [State.suspendReturn]
  split
  · exact Moved.of_control hfork hstatus (fun c h => by cases h)
      (fun h => by cases h)
  · exact Moved.of_control hfork hstatus (fun c h => by cases h)
      (fun h => by cases h)

theorem raise_moved
    (hfork : s.forkQueue = t.forkQueue) (hstatus : s.status = t.status) :
    Moved t s.raise :=
  Moved.of_control hfork hstatus (fun c h => by cases h) (fun h => by cases h)

theorem scheduler_moved :
    (Coroutine.step t .scheduler).Ensures (fun _ => True) (Moved t) := by
  rw [Coroutine.step]
  split
  · rw [State.dispatchWakeup]
    split
    · exact Moved.of_control rfl rfl (fun c h => by cases h)
        (fun h => by cases h)
    · dsimp only
      split
      · split
        · refine coroutineResume_moved (fun c hc _ => ?_) ?_ _
          · exact hc
          · rfl
        · exact raise_moved rfl rfl
      · exact Moved.of_control rfl rfl (fun c h => by cases h)
          (fun h => by cases h)
  · rw [State.dispatchErrorQueue]
    split
    · exact suspendReturn_moved rfl rfl
    · dsimp only
      split
      · refine coroutineResume_moved (fun c hc _ => ?_) ?_ _
        · exact hc
        · rfl
      · exact raise_moved rfl rfl
  · rw [State.dispatchForks]
    split
    · rename_i hnil
      refine ⟨fun c hc => ?_, fun c hc => (by cases hc), fun _ => hnil⟩
      rw [hnil] at hc
      exact (List.not_mem_nil hc).elim
    · rename_i co queue hqueue
      refine coroutineResume_moved (fun c hc hne => ?_) (by rfl) _
      rw [hqueue] at hc
      exact (List.mem_cons.mp hc).resolve_left hne
  · trivial

theorem message_moved (m : Message) :
    (Coroutine.step t (.message m)).Ensures (fun _ => True) (Moved t) := by
  rw [Coroutine.step]
  split
  · cases m with
    | response session =>
        rw [State.rawDispatchMessage]
        split
        · exact Moved.of_control rfl rfl (fun c h => by cases h)
            (fun h => by cases h)
        · exact raise_moved rfl rfl
        · refine coroutineResume_moved (fun c hc _ => ?_) ?_ _
          · exact hc
          · rfl
    | request co =>
        rw [State.rawDispatchMessage]
        split
        · rename_i hcreate
          refine Moved.of_one (d := co) (fun c hc _ => hc)
            (fun c hne => update_of_ne hne ..) (fun _ => rfl)
            (fun c hc => ?_) (fun h => by cases h)
          cases hc
          exact update_self ..
        · trivial
    | error session source sessions co =>
        rw [State.rawDispatchMessage]
        split
        · rename_i hcreate
          have hfork : (t.errorDispatch session sessions).forkQueue =
              t.forkQueue := by
            rw [State.errorDispatch]
            split
            · rfl
            · split
              · rfl
              · rfl
          refine Moved.of_one (d := co) (fun c hc _ => hfork ▸ hc)
            (fun c hne => update_of_ne hne ..)
            (fun hready => absurd rfl (ne_of_canCreate hcreate (.inl hready)))
            (fun c hc => by cases hc) (fun h => by cases h)
        · trivial
    | other =>
        exact Moved.of_control rfl rfl (fun c h => by cases h)
          (fun h => by cases h)
  · trivial

theorem op_moved
    (hruns : ∀ c, t.control = .run c → t.status c = .running) {op : Op}
    (hop : op ≠ .exit) :
    (Coroutine.step t (.op op)).Ensures (fun _ => True) (Moved t) := by
  rw [Coroutine.step]
  split
  swap
  · trivial
  rename_i co hcontrol
  have hrunning := hruns co hcontrol
  have hnotReady : t.status co = .ready → False := fun h => by
    rw [hrunning] at h
    cases h
  -- the coroutine leaves, in a status of its own
  have hleave : ∀ u : Coroutine.State, u.forkQueue = t.forkQueue →
      (∀ c, c ≠ co → u.status c = t.status c) → u.control = .wakeup →
      Moved t u := by
    intro u hfork hstatus hu
    refine Moved.of_one (d := co) (fun c hc _ => hfork ▸ hc) hstatus
      (fun h => (hnotReady h).elim) (fun c hc => ?_) (fun h => ?_)
    · rw [hu] at hc
      cases hc
    · rw [hu] at h
      cases h
  -- the coroutine stays, and another one is created
  have hcreate : ∀ (u : Coroutine.State) (co' : ℕ),
      t.canCreate co' = true → (∀ c ∈ t.forkQueue, c ∈ u.forkQueue) →
      (∀ c, c ≠ co' → u.status c = t.status c) → u.control = t.control →
      Moved t u := by
    intro u co' hco' hfork hstatus hu
    refine Moved.of_one (d := co') (fun c hc _ => hfork c hc) hstatus
      (fun h => absurd rfl (ne_of_canCreate hco' (.inl h))) (fun c hc => ?_)
      (fun h => ?_)
    · rw [hu] at hc
      have hrun := hruns c hc
      rw [hstatus c (ne_of_canCreate hco' (.inr hrun)), hrun]
    · rw [hu, hcontrol] at h
      cases h
  have hsame : ∀ u : Coroutine.State, u.forkQueue = t.forkQueue →
      u.status = t.status → u.control = t.control → Moved t u := by
    intro u hfork hstatus hu
    refine ⟨fun _ hc hst => .inl ⟨hfork ▸ hc, hstatus ▸ hst⟩, fun c hc => ?_,
      fun h => ?_⟩
    · rw [hstatus]
      exact hruns c (hu ▸ hc)
    · rw [hu, hcontrol] at h
      cases h
  have hsleep : ∀ (session : ℕ) (token : Token) (kind : Kind),
      Moved t (t.suspendSleep co session token kind) := by
    intro session token kind
    rw [State.suspendSleep]
    dsimp only
    split
    · exact hleave _ rfl (fun c hne => update_of_ne hne ..) rfl
    · exact hsame _ rfl rfl rfl
  cases op with
  | wakeup token =>
      rw [State.runOp, State.wakeup]
      split
      · exact hsame _ rfl rfl rfl
      · exact hsame _ rfl rfl rfl
  | fork co' =>
      rw [State.runOp]
      split
      · rename_i hco'
        exact hcreate _ co' hco' (fun c hc => List.mem_append_left _ hc)
          (fun c hne => update_of_ne hne ..) rfl
      · trivial
  | timeout session co' =>
      rw [State.runOp]
      split
      · rename_i hco'
        exact hcreate _ co' hco'.1 (fun c hc => hc)
          (fun c hne => update_of_ne hne ..) rfl
      · trivial
  | sleep session token | wait session token => exact hsleep ..
  | call session service dest | finish =>
      exact hleave _ rfl (fun c hne => update_of_ne hne ..) rfl
  | error trigger =>
      rw [State.runOp]
      split
      · rename_i htrigger
        refine ⟨fun c hc hst => .inl ⟨List.mem_append_left _ hc, ?_⟩,
          fun c hc => (by cases hc), fun h => (by cases h)⟩
        have hne := ne_of_canCreate htrigger (.inl hst)
        have hne' : c ≠ co := fun h => hnotReady (h ▸ hst)
        dsimp only [Threads.setStatus]
        rw [update_of_ne hne, update_of_ne hne', hst]
      · trivial
  | exit => exact absurd rfl hop

theorem canCreate_of_created
    {l : Coroutine.Label} (h : Coroutine.step t l = .next t')
    (hco : created l = some co) : t.canCreate co = true := by
  have hguard : ∀ {c : Prop} [Decidable c]
      {o : Outcome Failure Coroutine.State},
      (if c then o else .blocked) = .next t' → c := by
    intro c _ o h
    by_contra hc
    rw [if_neg hc] at h
    cases h
  cases l with
  | message m =>
      rw [Coroutine.step] at h
      split at h
      · cases m with
        | request co' | error session source sessions co' =>
            cases hco
            exact hguard h
        | response session | other => cases hco
      · cases h
  | op op =>
      rw [Coroutine.step] at h
      split at h
      · cases op with
        | fork co' | error trigger =>
            cases hco
            exact hguard h
        | timeout session co' =>
            cases hco
            exact (hguard h).1
        | wakeup token | sleep session token | wait session token
        | call session service dest | finish | exit => cases hco
      · cases h
  | scheduler => cases hco

end Moved

/-! ## What every step keeps -/

/-- The package that a coroutine has popped and not yet dispatched. -/
def Place.pack : Place → Option Pack
  | .fork np => some np
  | .message np _ => some np
  | _ => none

namespace State

variable (s : State)

def held : Option Pack :=
  match s.sched.control with
  | .run co => (s.place co).pack
  | _ => none

/-- Somebody will pop: a coroutine that was forked, or the one that runs and
forks. -/
def Drained : Prop :=
  (∃ c ∈ s.sched.forkQueue, s.place c = .pop ∧ s.sched.status c = .ready) ∨
    ∃ c, s.sched.control = .run c ∧
      (s.place c = .pop ∨ ∃ np, s.place c = .fork np)

/-- Every package that is complete was dispatched, is held by the coroutine that
runs, or is in the queue. -/
structure Kept : Prop where
  runs : ∀ c, s.sched.control = .run c → s.sched.status c = .running
  idle : s.sched.control = .idle → s.sched.forkQueue = []
  hand : ∀ c, (s.place c).pack ≠ none → s.sched.control = .run c
  ring : ∃ nps, Holds s.queue nps ∧
    s.log.map Prod.fst ++ s.held.toList ++ nps = s.due ∧
    (nps = [] ∨ s.Drained)
  own : ∀ fd, Keeps fd (records s.queue fd (hashFd fd)) (s.tail fd)
  other : ∀ fd h, h ≠ hashFd fd → records s.queue fd h = []

end State

open DispatchQueue.State

section Kept

variable {s : State} {co c : ℕ} {t : Coroutine.State}

theorem held_of_run {d : ℕ} (h : s.sched.control = .run d) :
    s.held = (s.place d).pack := by
  rw [held, h]

/-- The running coroutine holds what its place says. -/
theorem held_goto (h : s.sched.control = .run co) (p : Place) :
    (s.goto co p).held = p.pack := by
  have hrun : (s.goto co p).sched.control = .run co := h
  rw [held_of_run hrun]
  dsimp only [State.goto]
  rw [update_self]

theorem held_of_not_run (h : ∀ c, s.sched.control ≠ .run c) :
    s.held = none := by
  rw [held]
  split
  · rename_i c hc
    exact absurd hc (h c)
  · rfl

theorem holds_nil_unique
    {q : Option Queue} {nps : List Pack} (h : Holds q nps) (hnil : Holds q []) :
    nps = [] := by
  cases q with
  | none => exact h
  | some q =>
      exact (RingBuffer.Holds.head_eq_tail_iff h).mp
        ((RingBuffer.Holds.head_eq_tail_iff hnil).mpr rfl)

theorem kept_start (session co : ℕ) : (start session co).Kept where
  runs c h := by cases h
  idle _ := rfl
  hand c h := absurd rfl h
  ring := ⟨[], rfl, rfl, .inl rfl⟩
  own _ := .nothing
  other _ _ _ := rfl

theorem State.Kept.moved_refl (h : s.Kept) : Moved s.sched s.sched :=
  ⟨fun _ hc hst => .inl ⟨hc, hst⟩, h.runs, h.idle⟩

/-- The coroutine that runs is the only one that can pop without being
forked. -/
theorem State.Drained.forked
    (h : s.Drained) (hheld : s.held = none)
    (hpop : ∀ c, s.sched.control = .run c → s.place c ≠ .pop) :
    ∃ c ∈ s.sched.forkQueue, s.place c = .pop ∧ s.sched.status c = .ready := by
  rcases h with h | ⟨c, hc, hplace | ⟨np, hplace⟩⟩
  · exact h
  · exact absurd hplace (hpop c hc)
  · rw [held_of_run hc, hplace] at hheld
    cases hheld

/-- A step of the scheduler while no package is held. -/
theorem State.Kept.sched
    {place : ℕ → Place} (h : s.Kept) (hm : Moved s.sched t)
    (hheld : s.held = none)
    (hpop : Holds s.queue [] ∨
      ∀ c, s.sched.control = .run c → s.place c ≠ .pop)
    (hplace : ∀ c, place c = s.place c ∨
      (place c).pack = none ∧ s.sched.status c ≠ .ready) :
    State.Kept { s with sched := t, place := place } := by
  have hnone : ∀ c, (place c).pack = none := by
    intro c
    rcases hplace c with heq | ⟨hpack, -⟩
    · rw [heq]
      by_contra hpack
      have hrun := h.hand c hpack
      rw [held_of_run hrun] at hheld
      exact hpack hheld
    · exact hpack
  have hheld' : State.held { s with sched := t, place := place } = none := by
    rw [held]
    split
    · exact hnone _
    · rfl
  refine ⟨hm.runs, hm.idle, fun c hc => absurd (hnone c) hc, ?_, h.own,
    h.other⟩
  obtain ⟨nps, hholds, hdue, hdrained⟩ := h.ring
  rw [hheld] at hdue
  refine ⟨nps, hholds, by rw [hheld']; exact hdue, ?_⟩
  rcases hdrained with hnil | hdrained
  · exact .inl hnil
  rcases hpop with hempty | hpop
  · exact .inl (holds_nil_unique hholds hempty)
  obtain ⟨c, hc, hcpop, hready⟩ := hdrained.forked hheld hpop
  have hsame : place c = s.place c := (hplace c).resolve_right
    fun hne => hne.2 hready
  rcases hm.ready c hc hready with hstay | hrun
  · exact .inr (.inl ⟨c, hstay.1, hsame.trans hcpop, hstay.2⟩)
  · exact .inr (.inr ⟨c, hrun, .inl (hsame.trans hcpop)⟩)

/-- The running coroutine goes to another place. -/
theorem State.Kept.goto
    (h : s.Kept) (hrun : s.sched.control = .run co)
    (hpack : (s.place co).pack = none)
    (hpop : Holds s.queue [] ∨ s.place co ≠ .pop) {p : Place}
    (hp : p.pack = none) : (s.goto co p).Kept := by
  refine h.sched h.moved_refl ((held_of_run hrun).trans hpack)
    (hpop.imp_right fun hne c hc => ?_) fun c => ?_
  · cases hrun.symm.trans hc
    exact hne
  · by_cases hc : c = co
    · rw [hc, update_self]
      refine .inr ⟨hp, fun hready => ?_⟩
      rw [h.runs co hrun] at hready
      cases hready
    · exact .inl (update_of_ne hc ..)

theorem pack_afterPlace (s : State) (after : After) :
    (s.afterPlace after).pack = none := by
  cases after with
  | ended => rfl
  | first =>
      rw [afterPlace]
      split
      · rfl
      · rfl
  | loop cap => rfl

/-! ## Packages -/

theorem lpop_of_nil {q : Queue} (h : Holds (some q) []) :
    lpop q = some (none, q) := by
  rw [lpop, if_pos ((RingBuffer.Holds.head_eq_tail_iff h).mpr rfl)]

theorem lpop_of_cons
    {q : Queue} {np : Pack} {nps : List Pack} (h : Holds (some q) (np :: nps)) :
    ∃ q', lpop q = some (some np, q') ∧ Holds (some q') nps ∧
      ∀ fd i, records (some q') fd i = records (some q) fd i := by
  have hne : q.head ≠ q.tail := fun heq =>
    absurd ((RingBuffer.Holds.head_eq_tail_iff h).mp heq)
      (List.cons_ne_nil _ _)
  refine ⟨{ q with toRingBuffer := q.toRingBuffer.drop }, ?_,
    RingBuffer.Holds.drop h, fun _ _ => rfl⟩
  rw [lpop, if_neg hne, RingBuffer.Holds.first h]
  rfl

theorem State.Kept.hand_update
    (h : s.Kept) (hrun : s.sched.control = .run co) (p : Place) (c : ℕ)
    (hc : (update s.place co p c).pack ≠ none) :
    s.sched.control = .run c := by
  by_cases hco : c = co
  · rw [hco]
    exact hrun
  · rw [update_of_ne hco] at hc
    exact h.hand c hc

/-- A package is popped by a coroutine that forks before it goes on, or that
leaves the rest to one that was forked. -/
theorem State.Kept.pop
    (h : s.Kept) (hrun : s.sched.control = .run co)
    (hpack : (s.place co).pack = none) {next : Pack → Place}
    (hnext : ∀ np, (next np).pack = some np)
    (hleft : (∀ np, next np = .fork np) ∨ s.place co ≠ .pop) :
    (s.pop co next).Ensures (fun f => f ≠ .netpack) State.Kept := by
  obtain ⟨nps, hholds, hdue, hdrained⟩ := h.ring
  have hheld : s.held = none := (held_of_run hrun).trans hpack
  rw [State.pop]
  cases hq : s.queue with
  | none =>
      refine h.goto hrun hpack (.inl ?_) rfl
      rw [hq]
      rfl
  | some q =>
      rw [hq] at hholds
      cases nps with
      | nil =>
          dsimp only
          rw [lpop_of_nil hholds]
          exact h.goto hrun hpack (.inl (hq ▸ hholds)) rfl
      | cons np nps =>
          obtain ⟨q', hpop, hrest, hrecords⟩ := lpop_of_cons hholds
          dsimp only
          rw [hpop]
          have hheld' : State.held ({ s with queue := some q' }.goto co
              (next np)) = some np :=
            (held_goto (s := { s with queue := some q' }) hrun _).trans
              (hnext np)
          refine ⟨h.runs, h.idle, h.hand_update hrun _, ⟨nps, hrest, ?_, ?_⟩,
            fun fd => ?_, fun fd i hne => ?_⟩
          · rw [hheld, Option.toList_none, List.append_nil] at hdue
            rw [hheld', Option.toList_some, List.append_assoc]
            exact hdue
          · rcases hleft with hfork | hne
            · refine .inr (.inr ⟨co, hrun, .inr ⟨np, ?_⟩⟩)
              dsimp only [State.goto]
              rw [update_self, hfork]
            · obtain ⟨c, hc, hcpop, hready⟩ :=
                (hdrained.resolve_left (List.cons_ne_nil _ _)).forked hheld
                  fun c hc => by
                    cases hrun.symm.trans hc
                    exact hne
              refine .inr (.inl ⟨c, hc, ?_, hready⟩)
              dsimp only [State.goto]
              have hcne : c ≠ co := by
                rintro rfl
                exact hne hcpop
              rw [update_of_ne hcne]
              exact hcpop
          · dsimp only [State.goto]
            rw [hrecords, ← hq]
            exact h.own fd
          · dsimp only [State.goto]
            rw [hrecords, ← hq]
            exact h.other fd i hne

/-- The package that is held is dispatched. -/
theorem State.Kept.dispatchMsg
    (h : s.Kept) (hrun : s.sched.control = .run co) {np : Pack} {after : After}
    (hplace : s.place co = .message np after) :
    (s.dispatchMsg co np after).Kept := by
  obtain ⟨nps, hholds, hdue, hdrained⟩ := h.ring
  have hheld : s.held = some np := by
    rw [held_of_run hrun, hplace]
    rfl
  have hkept : ∀ (b : Bool) (p : Place), p.pack = none →
      State.Kept ({ s with log := s.log ++ [(np, b)] }.goto co p) := by
    intro b p hp
    have hheld' : State.held ({ s with log := s.log ++ [(np, b)] }.goto co
        p) = none :=
      (held_goto (s := { s with log := s.log ++ [(np, b)] }) hrun p).trans hp
    have hothers : ∀ c, c ≠ co → (State.goto { s with
        log := s.log ++ [(np, b)] } co p).place c = s.place c :=
      fun c hc => update_of_ne hc ..
    refine ⟨h.runs, h.idle, h.hand_update hrun p, ⟨nps, hholds, ?_, ?_⟩, h.own,
      h.other⟩
    · rw [hheld] at hdue
      rw [hheld', Option.toList_none, List.append_nil]
      refine Eq.trans ?_ hdue
      exact congrArg (· ++ nps) List.map_append
    · refine hdrained.imp_right fun hd => .inl ?_
      rcases hd with ⟨c, hc, hcpop, hready⟩ | ⟨c, hc, hcplace⟩
      · have hcne : c ≠ co := by
          rintro rfl
          rw [hplace] at hcpop
          cases hcpop
        exact ⟨c, hc, (hothers c hcne).trans hcpop, hready⟩
      · cases hrun.symm.trans hc
        rw [hplace] at hcplace
        rcases hcplace with hcplace | ⟨np', hcplace⟩
        · cases hcplace
        · cases hcplace
  rw [State.dispatchMsg]
  split
  · exact hkept true _ rfl
  · exact hkept false _ (pack_afterPlace s after)

theorem State.Kept.go
    (h : s.Kept) (hrun : s.sched.control = .run co) :
    (s.go co).Ensures (fun f => f ≠ .netpack) State.Kept := by
  rw [State.go]
  split
  · rename_i hplace
    exact h.pop hrun (by rw [hplace]; rfl) (fun _ => rfl)
      (.inl fun _ => rfl)
  · rename_i np after hplace
    exact h.dispatchMsg hrun hplace
  · rename_i after hplace
    exact h.goto hrun (by rw [hplace]; rfl)
      (.inr (by rw [hplace]; exact fun h => by cases h))
      (pack_afterPlace s after)
  · rename_i cap hplace
    have hne : s.place co ≠ .pop := by
      rw [hplace]
      exact fun h => by cases h
    split
    · exact h.pop hrun (by rw [hplace]; rfl) (fun _ => rfl) (.inr hne)
    · exact h.goto hrun (by rw [hplace]; rfl) (.inr hne) rfl
  · trivial

/-! ## Messages and operations -/

theorem schedule_ensures
    {l : Coroutine.Label} {k : Coroutine.State → Outcome Fault State}
    {P : State → Prop}
    (h : ∀ t', Coroutine.step t l = .next t' →
      (k t').Ensures (fun f => f ≠ .netpack) P) :
    (schedule t l k).Ensures (fun f => f ≠ .netpack) P := by
  rw [schedule]
  split
  · rename_i t' ht
    exact h t' ht
  · trivial
  · exact fun h => by cases h

theorem moved_of_ensures
    {t' : Coroutine.State} {l : Coroutine.Label}
    (h : (Coroutine.step t l).Ensures (fun _ => True) (Moved t))
    (hstep : Coroutine.step t l = .next t') : Moved t t' := by
  rw [hstep] at h
  exact h

/-- Only the coroutine that a step creates is elsewhere. -/
theorem fresh_cases
    {t' : Coroutine.State} {l : Coroutine.Label}
    (hstep : Coroutine.step s.sched l = .next t') (c : ℕ) :
    s.fresh l c = s.place c ∨
      (s.fresh l c).pack = none ∧ s.sched.status c ≠ .ready := by
  rw [State.fresh]
  cases hco : created l with
  | none => exact .inl rfl
  | some co =>
      dsimp only
      by_cases hc : c = co
      · rw [hc, update_self]
        refine .inr ⟨rfl, fun hready => ?_⟩
        exact ne_of_canCreate (canCreate_of_created hstep hco) (.inl hready)
          rfl
      · exact .inl (update_of_ne hc ..)

/-- A message arrives when nothing is left. -/
theorem State.Kept.at_message
    (h : s.Kept) {m : Coroutine.Message} {t' : Coroutine.State}
    (hstep : Coroutine.step s.sched (.message m) = .next t') :
    s.sched.control = .idle ∧ s.held = none ∧ Holds s.queue [] ∧
      s.log.map Prod.fst = s.due := by
  have hidle : s.sched.control = .idle := by
    rw [Coroutine.step] at hstep
    split at hstep
    · assumption
    · cases hstep
  have hheld : s.held = none := held_of_not_run fun c hc => by
    rw [hidle] at hc
    cases hc
  obtain ⟨nps, hholds, hdue, hdrained⟩ := h.ring
  have hnil : nps = [] := by
    refine hdrained.resolve_right ?_
    rintro (⟨c, hc, -⟩ | ⟨c, hc, -⟩)
    · rw [h.idle hidle] at hc
      exact List.not_mem_nil hc
    · rw [hidle] at hc
      cases hc
  subst hnil
  rw [hheld, Option.toList_none, List.append_nil, List.append_nil] at hdue
  exact ⟨hidle, hheld, hholds, hdue⟩

theorem State.Kept.message
    (h : s.Kept) (m : Coroutine.Message) :
    (step s (.message m)).Ensures (fun f => f ≠ .netpack) State.Kept := by
  refine schedule_ensures fun t hstep => ?_
  obtain ⟨hidle, hheld, hempty, -⟩ := h.at_message hstep
  exact h.sched (moved_of_ensures (message_moved m) hstep) hheld (.inl hempty)
    (fresh_cases hstep)

/-- The records of all fds when those of one fd have changed. -/
theorem State.Kept.files
    {q : Option Queue} {fd : Fd} {tail : List UInt8} (h : s.Kept)
    (hfiles : Files s.queue q fd tail) :
    (∀ fd', Keeps fd' (records q fd' (hashFd fd'))
      (update s.tail fd tail fd')) ∧
    ∀ fd' i, i ≠ hashFd fd' → records q fd' i = [] := by
  refine ⟨fun fd' => ?_, fun fd' i hne => ?_⟩
  · by_cases hfd : fd' = fd
    · rw [hfd, update_self]
      exact hfiles.own
    · rw [update_of_ne hfd, hfiles.other fd' _ (.inl hfd)]
      exact h.own fd'
  · by_cases hfd : fd' = fd
    · subst hfd
      rw [hfiles.other fd' i (.inr hne)]
      exact h.other fd' i hne
    · rw [hfiles.other fd' i (.inl hfd)]
      exact h.other fd' i hne

theorem State.Kept.closed
    (h : s.Kept) (co : ℕ) (fd : Fd) :
    (step s (.closed co fd)).Ensures (fun f => f ≠ .netpack) State.Kept := by
  refine schedule_ensures fun t hstep => ?_
  obtain ⟨hidle, hheld, hempty, -⟩ := h.at_message hstep
  have hk := h.sched (moved_of_ensures (message_moved _) hstep) hheld
    (.inl hempty) (fresh_cases hstep)
  obtain ⟨hown, hother⟩ := h.files (records_closeUncomplete _ _ (h.own fd))
  have hclosed : ∀ nps, Holds s.queue nps →
      Holds (closeUncomplete s.queue fd) nps := by
    intro nps hnps
    cases hrecords : records s.queue fd (hashFd fd) with
    | nil =>
        rw [closeUncomplete, findUncomplete_of_nil _ _ hrecords]
        exact hnps
    | cons uc ucs =>
        obtain ⟨q', hfind, -, -, hring⟩ := findUncomplete_of_cons _ _ hrecords
        rw [closeUncomplete, hfind]
        exact hring nps hnps
  obtain ⟨nps, hholds, hdue, hdrained⟩ := hk.ring
  exact ⟨hk.runs, hk.idle, hk.hand, ⟨nps, hclosed nps hholds, hdue, hdrained⟩,
    hown, hother⟩

/-- What the filter puts into the queue is popped by the new coroutine. -/
theorem State.Kept.data
    (h : s.Kept) (co : ℕ) (chunk : Chunk) :
    (step s (.data co chunk)).Ensures (fun f => f ≠ .netpack) State.Kept := by
  refine schedule_ensures fun t hstep => ?_
  obtain ⟨hidle, hheld, hempty, hdue⟩ := h.at_message hstep
  have hm := moved_of_ensures (message_moved _) hstep
  have hrun : t.control = .run co := by
    rw [Coroutine.step, hidle] at hstep
    dsimp only at hstep
    rw [Coroutine.State.rawDispatchMessage] at hstep
    split at hstep
    · cases hstep
      rfl
    · cases hstep
  obtain ⟨q', result, hfilter, hfiltered⟩ :=
    filterData_spec chunk.bytes chunk.nonempty (h.own chunk.fd) hempty
  rw [State.data, hfilter]
  dsimp only
  generalize parse (s.tail chunk.fd ++ chunk.bytes) = parsed at hfiltered ⊢
  have hnone : ∀ c, (s.place c).pack = none := fun c => by
    by_contra hc
    have hcontrol := h.hand c hc
    rw [hidle] at hcontrol
    cases hcontrol
  have hhand : ∀ c, (update s.place co (placeOf result) c).pack ≠
      none → t.control = .run c := by
    intro c hc
    by_cases hco : c = co
    · rw [hco]
      exact hrun
    · rw [update_of_ne hco] at hc
      exact absurd (hnone c) hc
  have hheld' : ∀ u : State, u.sched = t →
      u.place = update s.place co (placeOf result) →
      u.held = (placeOf result).pack := by
    intro u hu hplace
    rw [held_of_run (d := co) (hu ▸ hrun), hplace, update_self]
  cases hfiltered with
  | none q' tail hpushed =>
      obtain ⟨hown, hother⟩ := h.files hpushed.files
      refine ⟨hm.runs, hm.idle, hhand, ⟨[], hpushed.holds, ?_, .inl rfl⟩, hown,
        hother⟩
      rw [hheld' _ rfl rfl]
      exact (List.append_nil _).trans
        ((List.append_nil _).trans (hdue.trans (List.append_nil _).symm))
  | data q' body hpushed =>
      obtain ⟨hown, hother⟩ := h.files hpushed.files
      refine ⟨hm.runs, hm.idle, hhand, ⟨[], hpushed.holds, ?_, .inl rfl⟩, hown,
        hother⟩
      rw [hheld' _ rfl rfl, List.append_nil]
      exact congrArg (· ++ [Pack.of chunk.fd body]) hdue
  | more q' bodies tail hpushed =>
      obtain ⟨hown, hother⟩ := h.files hpushed.files
      refine ⟨hm.runs, hm.idle, hhand, ⟨bodies.map (Pack.of chunk.fd),
        hpushed.holds, ?_, .inr (.inr ⟨co, hrun, .inl ?_⟩)⟩, hown, hother⟩
      · rw [hheld' _ rfl rfl]
        refine congrArg (· ++ bodies.map (Pack.of chunk.fd)) ?_
        exact (List.append_nil _).trans hdue
      · exact update_self ..

theorem State.Kept.fork
    (h : s.Kept) (co : ℕ) :
    (step s (.fork co)).Ensures (fun f => f ≠ .netpack) State.Kept := by
  rw [step]
  split
  swap
  · trivial
  rename_i c hrun
  split
  swap
  · trivial
  rename_i np hplace
  refine schedule_ensures fun t hstep => ?_
  have hm := moved_of_ensures (op_moved h.runs (fun h => by cases h)) hstep
  have hne := ne_of_canCreate (canCreate_of_created hstep rfl)
    (.inr (h.runs c hrun))
  obtain ⟨hcontrol, hqueue, hready⟩ : t.control = .run c ∧
      co ∈ t.forkQueue ∧ t.status co = .ready := by
    rw [Coroutine.step, hrun] at hstep
    dsimp only at hstep
    rw [Coroutine.State.runOp] at hstep
    split at hstep
    · cases hstep
      exact ⟨hrun, List.mem_append_right _ List.mem_cons_self,
        update_self ..⟩
    · cases hstep
  obtain ⟨nps, hholds, hdue, -⟩ := h.ring
  refine ⟨hm.runs, hm.idle, fun c' hc' => ?_, ⟨nps, hholds, ?_,
    .inr (.inl ⟨co, hqueue, ?_, hready⟩)⟩, h.own, h.other⟩
  · dsimp only at hc'
    by_cases hc : c' = c
    · rw [hc]
      exact hcontrol
    · rw [update_of_ne hc] at hc'
      by_cases hco : c' = co
      · rw [hco, update_self] at hc'
        exact absurd rfl hc'
      · rw [update_of_ne hco] at hc'
        have hother := h.hand c' hc'
        rw [hrun] at hother
        cases hother
        exact absurd rfl hc
  · rw [held_of_run (d := c) hcontrol]
    dsimp only
    rw [update_self]
    rw [held_of_run hrun, hplace] at hdue
    exact hdue
  · dsimp only
    rw [update_of_ne hne.symm, update_self]

theorem State.Kept.op
    (h : s.Kept) (hrun : s.sched.control = .run co) {op : Coroutine.Op}
    (hallows : allows (s.place co) op = true) (hop : op ≠ .exit)
    (hstep : Coroutine.step s.sched (.op op) = .next t) :
    State.Kept { s with
      sched := t
      place := s.fresh (.op op) } := by
  have hm := moved_of_ensures (op_moved h.runs hop) hstep
  have hplace : (s.place co).pack = none ∧ s.place co ≠ .pop := by
    generalize s.place co = p at hallows
    cases p with
    | plain | handling after | ended => exact ⟨rfl, fun h => by cases h⟩
    | pop | fork np | message np after | loop cap => cases hallows
  refine h.sched hm ((held_of_run hrun).trans hplace.1)
    (.inr fun c hc => ?_) (fresh_cases hstep)
  cases hrun.symm.trans hc
  exact hplace.2

theorem State.Kept.scheduler (h : s.Kept) :
    (step s .scheduler).Ensures (fun f => f ≠ .netpack) State.Kept := by
  refine schedule_ensures fun t hstep => ?_
  have hnot : ∀ c, s.sched.control ≠ .run c := by
    intro c hc
    rw [Coroutine.step, hc] at hstep
    cases hstep
  exact h.sched (moved_of_ensures scheduler_moved hstep)
    (held_of_not_run hnot) (.inr fun c hc => absurd hc (hnot c))
    fun c => .inl rfl

/-- After `skynet.exit` nothing is kept. -/
def Exits (s : State) : Prop := s.exited = true

theorem exits_step (h : s.exited = true) (l : Label) :
    (step s l).Ensures (fun _ => True) Exits := by
  have hschedule : ∀ (l : Coroutine.Label) (k : Coroutine.State →
      Outcome Fault State), (∀ t, (k t).Ensures (fun _ => True) Exits) →
      (schedule s.sched l k).Ensures (fun _ => True) Exits := by
    intro l k hk
    rw [schedule]
    split
    · exact hk _
    · trivial
    · trivial
  have hpop : ∀ co next, (s.pop co next).Ensures (fun _ => True) Exits := by
    intro co next
    rw [State.pop]
    split
    · exact h
    · split
      · trivial
      · exact h
      · exact h
  cases l with
  | data co chunk =>
      refine hschedule _ _ fun t => ?_
      rw [State.data]
      split
      · trivial
      · exact h
  | closed co fd | message m | scheduler => exact hschedule _ _ fun t => h
  | op op =>
      rw [step]
      split
      · split
        · refine hschedule _ _ fun t => ?_
          exact Bool.or_eq_true_iff.mpr (.inl h)
        · trivial
      · trivial
  | connect fd connected =>
      rw [step]
      split
      · exact h
      · trivial
  | go =>
      rw [step]
      split
      · rw [State.go]
        split
        · exact hpop _ _
        · rw [State.dispatchMsg]
          split
          · exact h
          · exact h
        · exact h
        · split
          · exact hpop _ _
          · exact h
        · trivial
      · trivial
  | fork co =>
      rw [step]
      split
      · split
        · exact hschedule _ _ fun t => h
        · trivial
      · trivial

/-- A step keeps everything until the service exits, and reads no slot of the
queue that was not written. -/
theorem State.Kept.step
    (h : s.Kept) (l : Label) :
    (step s l).Ensures (fun f => f ≠ .netpack)
      fun s' => s'.exited = true ∨ s'.Kept := by
  cases l with
  | data co chunk => exact (h.data co chunk).mono fun _ => .inr
  | closed co fd => exact (h.closed co fd).mono fun _ => .inr
  | message m => exact (h.message m).mono fun _ => .inr
  | op op =>
      rw [DispatchQueue.step]
      split
      swap
      · trivial
      rename_i co hrun
      split
      swap
      · trivial
      rename_i hallows
      refine schedule_ensures fun t hstep => ?_
      by_cases hop : op = .exit
      · exact .inl (Bool.or_eq_true_iff.mpr (.inr (decide_eq_true hop)))
      · obtain ⟨hruns, hidle, hhand, hring, hown, hother⟩ :=
          h.op hrun hallows hop hstep
        exact .inr ⟨hruns, hidle, hhand, hring, hown, hother⟩
  | connect fd connected =>
      rw [DispatchQueue.step]
      split
      · exact .inr ⟨h.runs, h.idle, h.hand, h.ring, h.own, h.other⟩
      · trivial
  | go =>
      rw [DispatchQueue.step]
      split
      · rename_i co hrun
        exact (h.go hrun).mono fun _ => .inr
      · trivial
  | fork co => exact (h.fork co).mono fun _ => .inr
  | scheduler => exact h.scheduler.mono fun _ => .inr

theorem kept_of_reaches
    {session : ℕ} (h : Reaches step anyStep (start session co) s) :
    s.exited = true ∨ s.Kept := by
  refine h.invariant (fun s => s.exited = true ∨ s.Kept)
    (.inr (kept_start session co)) fun s l s' hs _ hstep => ?_
  rcases hs with hexited | hkept
  · have hensures := exits_step hexited l
    rw [hstep] at hensures
    exact .inl hensures
  · have hensures := hkept.step l
    rw [hstep] at hensures
    exact hensures

/-- Whatever the functions of the handler do, when a message has been handled
every package that is complete was dispatched, in the order of the packages, and
the queue is empty; no step reads a slot of the queue that was not written. -/
theorem all_dispatched
    {session : ℕ} (h : Reaches step anyStep (start session co) s)
    (hlive : s.exited = false) :
    (s.sched.control = .idle →
      s.log.map Prod.fst = s.due ∧ Holds s.queue [] ∧
        ∀ fd, Keeps fd (records s.queue fd (hashFd fd)) (s.tail fd)) ∧
      ∀ l, step s l ≠ .fault .netpack := by
  have hkept : s.Kept := (kept_of_reaches h).resolve_left fun hexited => by
    rw [hlive] at hexited
    cases hexited
  refine ⟨fun hidle => ?_, fun l hfault => ?_⟩
  · have hstep : Coroutine.step s.sched (.message .other) =
        .next { s.sched with control := .forks } := by
      rw [Coroutine.step, hidle]
      rfl
    obtain ⟨-, -, hempty, hdue⟩ := hkept.at_message hstep
    exact ⟨hdue, hempty, hkept.own⟩
  · have hensures := hkept.step l
    rw [hfault] at hensures
    exact hensures rfl

end Kept

/-- Two packages in one message; the client is connected before the second one
is dispatched, and the handler yields. -/
def twoPackages : List Label :=
  [.data 1 ⟨5, [0, 1, 65, 0, 1, 66], by decide⟩, .go, .fork 2, .go,
    .connect 5 true, .go, .go, .op (.sleep 1 none), .scheduler, .scheduler,
    .scheduler, .go, .op .finish, .scheduler, .scheduler, .scheduler]

theorem all_dispatched_two :
    ∃ s, Reaches step anyStep (start 0 0) s ∧
      s.log.map Prod.snd = [false, true] ∧ s.log.map Prod.fst = s.due := by
  have hpasses : (exec step (start 0 0) twoPackages).passes (fun s =>
      s.exited = false ∧ s.sched.control = .idle ∧
        s.log.map Prod.snd = [false, true]) = true := by
    decide +kernel
  obtain ⟨s, hs, hpass⟩ := Outcome.exists_of_passes hpasses
  obtain ⟨hlive, hidle, hlog⟩ := of_decide_eq_true hpass
  have hreach := reaches_of_exec hs
  exact ⟨s, hreach, hlog, ((all_dispatched hreach hlive).1 hidle).1⟩

end SkynetServer.Gateserver.DispatchQueue
