import SkynetServer.Support.Transition
import Mathlib.Data.Int.Notation
import Mathlib.Data.List.Nodup
import Mathlib.Data.List.Perm.Basic

/-!
# The clients of the watchdog

`watchdog.lua` starts an agent for every connection that the gate accepts, and
counts the connections in `ccnt`.  Its handlers run as coroutines: at every
`skynet.newservice` and `skynet.call` other handlers may run.

The gate sends one `open` for each fd it accepts, and one `close` or `error`
when it loses it.  The call `start` of a new agent makes the agent call
`forward` at the gate, which fails once the gate has lost the fd.
-/

namespace SkynetServer.Watchdog

open Transition

/-- A message of the gate. -/
inductive Mail where
  | open (fd : ℕ)
  | close (fd : ℕ)
  | error (fd : ℕ)
  deriving DecidableEq, Repr

/-- A handler, at the point where it waits. -/
inductive Handler where
  /-- `SOCKET.open` in `skynet.newservice`. -/
  | launch (fd : ℕ)
  /-- `SOCKET.open` in the call `start`, before `forward` reaches the gate. -/
  | start (fd : ℕ)
  /-- `SOCKET.open` in the call `start`, after `forward`. -/
  | forwarded (fd : ℕ)
  /-- `SOCKET.open` in the call `start`, which has failed. -/
  | failing (fd : ℕ)
  /-- `close_agent` in the call `kick`. -/
  | kick (fd agent : ℕ)
  deriving DecidableEq, Repr

/-- The gate and the watchdog. -/
structure State where
  /-- The fds which the gate has a connection for. -/
  connection : ℕ → Bool
  /-- The fds which the gate has accepted. -/
  accepted : List ℕ
  mailbox : List Mail
  agent : ℕ → Option ℕ
  ccnt : ℤ
  handlers : List Handler
  /-- The fds with which `SOCKET.open` has been called. -/
  opened : List ℕ
  /-- The fds of these with which `close_agent` has been called. -/
  closed : ℕ → Bool

inductive Label where
  /-- The gate accepts an fd. -/
  | accept (fd : ℕ)
  /-- The gate loses an fd, by an error if `failed`. -/
  | hangup (fd : ℕ) (failed : Bool)
  /-- The watchdog handles the first message of the gate. -/
  | dispatch
  /-- `CMD.close` -/
  | close (fd : ℕ)
  /-- The handler at position `i` goes on; a new agent gets the handle
  `agent`. -/
  | run (i agent : ℕ)
  /-- What the handler at position `i` waits for fails. -/
  | fail (i : ℕ)

namespace State

def create : State where
  connection := fun _ => false
  accepted := []
  mailbox := []
  agent := fun _ => none
  ccnt := 0
  handlers := []
  opened := []
  closed := fun _ => false

/-- `close_agent` up to the call `kick`. -/
def closeAgent (s : State) (fd : ℕ) : State :=
  let s' :=
    { s with
      agent := Function.update s.agent fd none
      closed := if fd ∈ s.opened then Function.update s.closed fd true
        else s.closed }
  match s.agent fd with
  | some a => { s' with handlers := s.handlers ++ [.kick fd a] }
  | none => s'

/-- A message of the gate is handled. -/
def dispatch (s : State) : Mail → State
  | .open fd =>
    { s with
      handlers := s.handlers ++ [.launch fd]
      opened := s.opened ++ [fd] }
  | .close fd => s.closeAgent fd
  | .error fd => s.closeAgent fd

/-- A handler goes on: its state after the step, and where it is then. -/
def resume (s : State) (agent : ℕ) : Handler → State × List Handler
  | .launch fd =>
    ({ s with agent := Function.update s.agent fd (some agent) }, [.start fd])
  | .start fd => (s, [if s.connection fd then .forwarded fd else .failing fd])
  | .forwarded _ => ({ s with ccnt := s.ccnt + 1 }, [])
  | .failing _ => (s, [])
  | .kick _ _ => ({ s with ccnt := s.ccnt - 1 }, [])

/-- Whether what the handler waits for may fail. -/
def fails : Handler → Bool
  | .launch _ | .forwarded _ => true
  | _ => false

def step (s : State) : Label → Outcome Empty State
  | .accept fd =>
    if fd ∈ s.accepted then .blocked
    else
      .next
        { s with
          connection := Function.update s.connection fd true
          accepted := s.accepted ++ [fd]
          mailbox := s.mailbox ++ [.open fd] }
  | .hangup fd failed =>
    if s.connection fd then
      .next
        { s with
          connection := Function.update s.connection fd false
          mailbox := s.mailbox ++ [if failed then .error fd else .close fd] }
    else .blocked
  | .dispatch =>
    match s.mailbox with
    | m :: rest => .next (State.dispatch { s with mailbox := rest } m)
    | [] => .blocked
  | .close fd => .next (s.closeAgent fd)
  | .run i agent =>
    match s.handlers[i]? with
    | some h =>
      let r := s.resume agent h
      .next { r.1 with handlers := s.handlers.eraseIdx i ++ r.2 }
    | none => .blocked
  | .fail i =>
    match s.handlers[i]? with
    | some h =>
      if fails h then .next { s with handlers := s.handlers.eraseIdx i }
      else .blocked
    | none => .blocked

/-- `close_agent` is not called while the agent is being launched, and the
launch and the start of the agent succeed: the gate still has the connection
when `forward` comes. -/
def Steady (s : State) (l : Label) : Prop :=
  (∀ fd rest, s.mailbox = .close fd :: rest ∨ s.mailbox = .error fd :: rest →
    l = .dispatch → .launch fd ∉ s.handlers) ∧
  (∀ fd, l = .close fd → .launch fd ∉ s.handlers) ∧
  (∀ i agent fd, l = .run i agent → s.handlers[i]? = some (.start fd) →
    s.connection fd = true) ∧
  ∀ i, l ≠ .fail i

end State

/-! ## The invariant -/

/-- `SOCKET.open` before it counts. -/
def Handler.opening : Handler → Bool
  | .launch _ | .start _ | .forwarded _ => true
  | _ => false

/-- `close_agent` before it counts. -/
def Handler.closing : Handler → Bool
  | .kick _ _ => true
  | _ => false

/-- The fd of an `open`. -/
def Mail.opens : Mail → Option ℕ
  | .open fd => some fd
  | _ => none

/-- The counter is right once the handlers have finished. -/
structure Sound (s : State) : Prop where
  accepted : s.opened ++ s.mailbox.filterMap Mail.opens = s.accepted
  nodup : s.accepted.Nodup
  launching : ∀ fd, .launch fd ∈ s.handlers →
    fd ∈ s.opened ∧ s.closed fd = false ∧ s.agent fd = none
  once : ∀ fd, s.handlers.count (.launch fd) ≤ 1
  agent : ∀ fd, s.agent fd ≠ none → fd ∈ s.opened ∧ s.closed fd = false
  attended : ∀ fd ∈ s.opened, s.closed fd = false →
    s.agent fd ≠ none ∨ .launch fd ∈ s.handlers
  fresh : ∀ fd, s.closed fd = true → fd ∈ s.opened
  succeeding : ∀ fd, .failing fd ∉ s.handlers
  count : s.ccnt + s.handlers.countP Handler.opening =
    (s.opened.countP fun fd => !s.closed fd : ℕ) +
      s.handlers.countP Handler.closing

theorem sound_create : Sound State.create := by
  refine ⟨rfl, List.nodup_nil, ?_, fun fd => Nat.zero_le 1, ?_, ?_, ?_, ?_,
    rfl⟩
  · intro fd h
    cases h
  · intro fd h
    exact absurd rfl h
  · intro fd h
    cases h
  · intro fd h
    cases h
  · intro fd h
    cases h

/-- A handler is taken out. -/
theorem perm_eraseIdx
    {hs : List Handler} {i : ℕ} {h : Handler} (hi : hs[i]? = some h) :
    (h :: hs.eraseIdx i).Perm hs := by
  obtain ⟨hlt, rfl⟩ := List.getElem?_eq_some_iff.mp hi
  exact List.getElem_cons_eraseIdx_perm hlt

/-- One more fd is closed. -/
theorem countP_close
    {opened : List ℕ} {closed : ℕ → Bool} {fd : ℕ} (hnodup : opened.Nodup)
    (hmem : fd ∈ opened) (hopen : closed fd = false) :
    opened.countP (fun x => !closed x) =
      opened.countP (fun x => !Function.update closed fd true x) + 1 := by
  have hperm := List.perm_cons_erase hmem
  have hnot : fd ∉ opened.erase fd := hnodup.not_mem_erase
  rw [hperm.countP_eq, hperm.countP_eq, List.countP_cons, List.countP_cons]
  have hrest : (opened.erase fd).countP (fun x => !closed x) =
      (opened.erase fd).countP
        (fun x => !Function.update closed fd true x) := by
    apply List.countP_congr
    intro x hx
    have hne : x ≠ fd := by
      rintro rfl
      exact hnot hx
    rw [Function.update_of_ne hne]
  rw [hrest]
  simp [hopen]

namespace Sound

variable {s : State}

theorem opened_nodup (h : Sound s) : s.opened.Nodup := by
  have hnodup := h.nodup
  rw [← h.accepted] at hnodup
  exact (List.nodup_append.mp hnodup).1

theorem launchFree {fd : ℕ} (h : Sound s) (ha : s.agent fd ≠ none) :
    .launch fd ∉ s.handlers :=
  fun hl => ha (h.launching fd hl).2.2

/-- `close_agent` on an fd without an agent, which is not being launched. -/
theorem close_none
    (h : Sound s) {fd : ℕ} (hlaunch : .launch fd ∉ s.handlers)
    (hagent : s.agent fd = none) : Sound (s.closeAgent fd) := by
  have hclosed : (s.closeAgent fd).closed = s.closed := by
    unfold State.closeAgent
    rw [hagent]
    simp only
    split
    · rename_i hmem
      have hold : s.closed fd = true := by
        by_contra hopen
        rcases h.attended fd hmem (Bool.eq_false_iff.mpr hopen) with ha | hl
        · exact ha hagent
        · exact hlaunch hl
      rw [← hold, Function.update_eq_self]
    · rfl
  have hstate : s.closeAgent fd = s := by
    have hupdate : Function.update s.agent fd none = s.agent := by
      rw [← hagent, Function.update_eq_self]
    unfold State.closeAgent at hclosed ⊢
    rw [hagent] at hclosed ⊢
    simp only at hclosed ⊢
    rw [hclosed, hupdate]
  rw [hstate]
  exact h

/-- `close_agent` on an fd with an agent. -/
theorem close_some
    (h : Sound s) {fd a : ℕ} (hagent : s.agent fd = some a) :
    Sound (s.closeAgent fd) := by
  have hsome : s.agent fd ≠ none := by
    rw [hagent]
    exact Option.some_ne_none a
  obtain ⟨hmem, hopen⟩ := h.agent fd hsome
  have hstate : s.closeAgent fd =
      { s with
        agent := Function.update s.agent fd none
        closed := Function.update s.closed fd true
        handlers := s.handlers ++ [.kick fd a] } := by
    unfold State.closeAgent
    rw [hagent, if_pos hmem]
  rw [hstate]
  have hlaunch {x : ℕ} (hx : .launch x ∈ s.handlers ++ [.kick fd a]) :
      .launch x ∈ s.handlers ∧ x ≠ fd := by
    rcases List.mem_append.mp hx with hx | hx
    · refine ⟨hx, fun hfd => ?_⟩
      rw [hfd] at hx
      exact h.launchFree hsome hx
    · cases List.mem_singleton.mp hx
  refine ⟨h.accepted, h.nodup, ?_, ?_, ?_, ?_, ?_, ?_, ?_⟩
  · intro x hx
    obtain ⟨hx, hne⟩ := hlaunch hx
    simp only [Function.update_of_ne hne]
    exact h.launching x hx
  · intro x
    rw [List.count_append]
    exact h.once x
  · intro x hx
    have hne : x ≠ fd := by
      rintro rfl
      exact hx (Function.update_self ..)
    simp only [Function.update_of_ne hne] at hx ⊢
    exact h.agent x hx
  · intro x hx hc
    have hne : x ≠ fd := by
      rintro rfl
      simp only [Function.update_self] at hc
      cases hc
    simp only [Function.update_of_ne hne] at hc ⊢
    rcases h.attended x hx hc with ha | hl
    · exact .inl ha
    · exact .inr (List.mem_append_left _ hl)
  · intro x hc
    by_cases hne : x = fd
    · rw [hne]
      exact hmem
    · simp only [Function.update_of_ne hne] at hc
      exact h.fresh x hc
  · intro x hx
    rcases List.mem_append.mp hx with hx | hx
    · exact h.succeeding x hx
    · cases List.mem_singleton.mp hx
  · have hcount := h.count
    rw [countP_close h.opened_nodup hmem hopen] at hcount
    simp only [List.countP_append, List.countP_singleton, Handler.opening,
      Handler.closing, Bool.false_eq_true, if_false, if_true]
    omega

theorem close
    (h : Sound s) {fd : ℕ} (hlaunch : .launch fd ∉ s.handlers) :
    Sound (s.closeAgent fd) := by
  cases hagent : s.agent fd with
  | none => exact h.close_none hlaunch hagent
  | some a => exact h.close_some hagent

/-- A message that is not an `open` is taken from the mailbox. -/
theorem pop
    (h : Sound s) {m : Mail} {rest : List Mail} (hm : s.mailbox = m :: rest)
    (hopens : m.opens = none) : Sound { s with mailbox := rest } := by
  refine ⟨?_, h.nodup, h.launching, h.once, h.agent, h.attended, h.fresh,
    h.succeeding, h.count⟩
  have haccepted := h.accepted
  rw [hm, List.filterMap_cons, hopens] at haccepted
  exact haccepted

/-- `SOCKET.open` begins. -/
theorem opens
    (h : Sound s) {fd : ℕ} {rest : List Mail}
    (hm : s.mailbox = .open fd :: rest) :
    Sound (State.dispatch { s with mailbox := rest } (.open fd)) := by
  have haccepted := h.accepted
  rw [hm] at haccepted
  simp only [List.filterMap_cons, Mail.opens] at haccepted
  have hnew : fd ∉ s.opened := by
    have hnodup := h.nodup
    rw [← haccepted, List.nodup_append] at hnodup
    exact fun hmem => hnodup.2.2 fd hmem fd List.mem_cons_self rfl
  have hopen : s.closed fd = false := by
    by_contra hc
    rw [Bool.not_eq_false] at hc
    exact hnew (h.fresh fd hc)
  have hagent : s.agent fd = none := by
    by_contra ha
    exact hnew (h.agent fd ha).1
  have hlaunch : .launch fd ∉ s.handlers := fun hl => hnew (h.launching fd hl).1
  refine ⟨?_, h.nodup, ?_, ?_, ?_, ?_, ?_, ?_, ?_⟩
  · simp only [State.dispatch, List.append_assoc]
    exact haccepted
  · intro x hx
    rcases List.mem_append.mp hx with hx | hx
    · obtain ⟨hmem, hx⟩ := h.launching x hx
      exact ⟨List.mem_append_left _ hmem, hx⟩
    · cases List.mem_singleton.mp hx
      exact ⟨List.mem_append_right _ (List.mem_singleton.mpr rfl), hopen,
        hagent⟩
  · intro x
    simp only [State.dispatch, List.count_append]
    by_cases hx : x = fd
    · subst hx
      have hone : List.count (Handler.launch x) [.launch x] = 1 :=
        List.count_singleton_self
      have hzero := List.count_eq_zero_of_not_mem hlaunch
      omega
    · have hne : List.count (Handler.launch x) [.launch fd] = 0 := by
        apply List.count_eq_zero_of_not_mem
        intro hmem
        cases List.mem_singleton.mp hmem
        exact hx rfl
      rw [hne]
      exact h.once x
  · intro x hx
    obtain ⟨hmem, hc⟩ := h.agent x hx
    exact ⟨List.mem_append_left _ hmem, hc⟩
  · intro x hx hc
    rcases List.mem_append.mp hx with hx | hx
    · rcases h.attended x hx hc with ha | hl
      · exact .inl ha
      · exact .inr (List.mem_append_left _ hl)
    · cases List.mem_singleton.mp hx
      exact .inr (List.mem_append_right _ (List.mem_singleton.mpr rfl))
  · intro x hc
    exact List.mem_append_left _ (h.fresh x hc)
  · intro x hx
    rcases List.mem_append.mp hx with hx | hx
    · exact h.succeeding x hx
    · cases List.mem_singleton.mp hx
  · have hcount := h.count
    simp only [State.dispatch, List.countP_append, List.countP_singleton,
      Handler.opening, Handler.closing, hopen, Bool.not_false,
      Bool.false_eq_true, if_false, if_true]
    omega

/-- The handler at position `i` goes on without touching the tables. -/
theorem move
    (h : Sound s) {i : ℕ} {hd : Handler} {new : List Handler} {ccnt : ℤ}
    (hi : s.handlers[i]? = some hd) (hold : ∀ fd, hd ≠ .launch fd)
    (hnew : ∀ fd, .launch fd ∉ new ∧ .failing fd ∉ new)
    (hcount : ccnt + new.countP Handler.opening +
        (if hd.closing then 1 else 0) =
      s.ccnt + new.countP Handler.closing + if hd.opening then 1 else 0) :
    Sound { s with ccnt, handlers := s.handlers.eraseIdx i ++ new } := by
  have hperm := perm_eraseIdx hi
  have hkeep (fd : ℕ) : .launch fd ∈ s.handlers.eraseIdx i ++ new ↔
      .launch fd ∈ s.handlers := by
    rw [List.mem_append, or_iff_left (hnew fd).1, ← hperm.mem_iff,
      List.mem_cons, or_iff_right (hold fd).symm]
  refine ⟨h.accepted, h.nodup, ?_, ?_, h.agent, ?_, h.fresh, ?_, ?_⟩
  · intro x hx
    exact h.launching x ((hkeep x).mp hx)
  · intro x
    have honce := h.once x
    rw [← hperm.count_eq, List.count_cons] at honce
    simp only [List.count_append, List.count_eq_zero_of_not_mem (hnew x).1]
    omega
  · intro x hx hc
    rcases h.attended x hx hc with ha | hl
    · exact .inl ha
    · exact .inr ((hkeep x).mpr hl)
  · intro x hx
    rcases List.mem_append.mp hx with hx | hx
    · exact h.succeeding x (hperm.mem_iff.mp (List.mem_cons_of_mem _ hx))
    · exact (hnew x).2 hx
  · have hold := h.count
    rw [← hperm.countP_eq, ← hperm.countP_eq, List.countP_cons,
      List.countP_cons] at hold
    simp only [List.countP_append]
    push_cast at hold ⊢
    split at hold <;> split at hold <;> simp_all <;> omega

/-- `skynet.newservice` returns. -/
theorem launched
    (h : Sound s) {i fd agent : ℕ} (hi : s.handlers[i]? = some (.launch fd)) :
    Sound
      { s with
        agent := Function.update s.agent fd (some agent)
        handlers := s.handlers.eraseIdx i ++ [.start fd] } := by
  have hperm := perm_eraseIdx hi
  obtain ⟨hmem, hopen, -⟩ := h.launching fd (List.mem_of_getElem? hi)
  have hgone : .launch fd ∉ s.handlers.eraseIdx i := by
    have honce := h.once fd
    rw [← hperm.count_eq, List.count_cons_self] at honce
    exact List.count_eq_zero.mp (by omega)
  have hrest {x : ℕ} (hx : .launch x ∈ s.handlers.eraseIdx i ++ [.start fd]) :
      .launch x ∈ s.handlers ∧ x ≠ fd := by
    rcases List.mem_append.mp hx with hx | hx
    · refine ⟨hperm.mem_iff.mp (List.mem_cons_of_mem _ hx), fun hfd => ?_⟩
      rw [hfd] at hx
      exact hgone hx
    · cases List.mem_singleton.mp hx
  refine ⟨h.accepted, h.nodup, ?_, ?_, ?_, ?_, h.fresh, ?_, ?_⟩
  · intro x hx
    obtain ⟨hx, hne⟩ := hrest hx
    simp only [Function.update_of_ne hne]
    exact h.launching x hx
  · intro x
    have honce := h.once x
    rw [← hperm.count_eq, List.count_cons] at honce
    have hstart : List.count (Handler.launch x) [.start fd] = 0 := by
      apply List.count_eq_zero_of_not_mem
      intro hx
      cases List.mem_singleton.mp hx
    simp only [List.count_append, hstart]
    omega
  · intro x hx
    by_cases hne : x = fd
    · rw [hne]
      exact ⟨hmem, hopen⟩
    · simp only [Function.update_of_ne hne] at hx
      exact h.agent x hx
  · intro x hx hc
    by_cases hne : x = fd
    · refine .inl ?_
      simp only [hne, Function.update_self]
      exact Option.some_ne_none agent
    · simp only [Function.update_of_ne hne]
      rcases h.attended x hx hc with ha | hl
      · exact .inl ha
      · refine .inr (List.mem_append_left _ ?_)
        rcases List.mem_cons.mp (hperm.mem_iff.mpr hl) with he | he
        · cases he
          exact absurd rfl hne
        · exact he
  · intro x hx
    rcases List.mem_append.mp hx with hx | hx
    · exact h.succeeding x (hperm.mem_iff.mp (List.mem_cons_of_mem _ hx))
    · cases List.mem_singleton.mp hx
  · have hold := h.count
    rw [← hperm.countP_eq, ← hperm.countP_eq, List.countP_cons,
      List.countP_cons] at hold
    simp only [Handler.opening, Handler.closing, Bool.false_eq_true, if_false,
      if_true] at hold
    simp only [List.countP_append, List.countP_singleton, Handler.opening,
      Handler.closing, Bool.false_eq_true, if_false, if_true]
    omega

theorem run
    (h : Sound s) {i agent : ℕ} {hd : Handler} (hi : s.handlers[i]? = some hd)
    (hok : ∀ fd, hd = .start fd → s.connection fd = true) :
    Sound { (s.resume agent hd).1 with
      handlers := s.handlers.eraseIdx i ++ (s.resume agent hd).2 } := by
  cases hd with
  | launch fd => exact h.launched hi
  | start fd =>
      have hforward : s.resume agent (.start fd) = (s, [.forwarded fd]) := by
        simp [State.resume, hok fd rfl]
      rw [hforward]
      refine h.move hi nofun (fun x => ⟨?_, ?_⟩) ?_
      · intro hx
        cases List.mem_singleton.mp hx
      · intro hx
        cases List.mem_singleton.mp hx
      · simp [Handler.opening, Handler.closing]
  | forwarded fd | kick fd a =>
      refine h.move hi nofun (fun x => ⟨List.not_mem_nil, List.not_mem_nil⟩) ?_
      simp [State.resume, Handler.opening, Handler.closing]
  | failing fd =>
      exact absurd (List.mem_of_getElem? hi) (h.succeeding fd)

theorem step
    (h : Sound s) {s' : State} {l : Label} (hok : s.Steady l)
    (hs : s.step l = .next s') : Sound s' := by
  obtain ⟨hmail, hcommand, hforward, hfail⟩ := hok
  cases l with
  | accept fd =>
      simp only [State.step] at hs
      split at hs
      · cases hs
      · rename_i hnew
        cases hs
        refine ⟨?_, ?_, h.launching, h.once, h.agent, h.attended, h.fresh,
          h.succeeding, h.count⟩
        · simp only [List.filterMap_append, ← List.append_assoc, h.accepted]
          rfl
        · rw [List.nodup_append]
          refine ⟨h.nodup, List.nodup_singleton fd, ?_⟩
          intro x hx y hy
          rw [List.mem_singleton.mp hy]
          rintro rfl
          exact hnew hx
  | hangup fd failed =>
      simp only [State.step] at hs
      split at hs
      · cases hs
        refine ⟨?_, h.nodup, h.launching, h.once, h.agent, h.attended, h.fresh,
          h.succeeding, h.count⟩
        have hnone : List.filterMap Mail.opens
            [if failed = true then Mail.error fd else Mail.close fd] = [] := by
          cases failed <;> rfl
        simp only [List.filterMap_append, hnone, List.append_nil]
        exact h.accepted
      · cases hs
  | dispatch =>
      simp only [State.step] at hs
      split at hs
      · rename_i m rest hm
        cases hs
        cases m with
        | «open» fd => exact h.opens hm
        | close fd =>
            exact (h.pop hm rfl).close (hmail fd rest (.inl hm) rfl)
        | error fd =>
            exact (h.pop hm rfl).close (hmail fd rest (.inr hm) rfl)
      · cases hs
  | close fd =>
      cases hs
      exact h.close (hcommand fd rfl)
  | run i agent =>
      simp only [State.step] at hs
      split at hs
      · rename_i hd hi
        cases hs
        refine h.run hi fun fd he => ?_
        rw [he] at hi
        exact hforward i agent fd rfl hi
      · cases hs
  | fail i => exact absurd rfl (hfail i)

end Sound

namespace State

/-- In every run in which `close_agent` is not called while the agent is being
launched and no agent fails to start: whenever no handler is in progress,
`ccnt` is the number of the fds opened and not yet closed, and exactly these
have an entry in `agent`. -/
theorem clients_counted
    {s : State} (h : Reaches step Steady create s) (hquiet : s.handlers = []) :
    s.ccnt = (s.opened.filter fun fd => !s.closed fd).length ∧
      ∀ fd, s.agent fd ≠ none ↔ fd ∈ s.opened ∧ s.closed fd = false := by
  have hsound : Sound s :=
    h.invariant Sound sound_create fun _ _ _ hI hok hs => hI.step hok hs
  refine ⟨?_, fun fd => ⟨hsound.agent fd, ?_⟩⟩
  · have hcount := hsound.count
    rw [hquiet] at hcount
    rw [← List.countP_eq_length_filter]
    simpa using hcount
  · rintro ⟨hmem, hopen⟩
    rcases hsound.attended fd hmem hopen with ha | hl
    · exact ha
    · rw [hquiet] at hl
      cases hl

/-! ## Runs with one fd -/

def steadyTest (s : State) : Label → Bool
  | .dispatch =>
    match s.mailbox with
    | .close fd :: _ | .error fd :: _ => !s.handlers.contains (.launch fd)
    | _ => true
  | .close fd => !s.handlers.contains (.launch fd)
  | .run i _ =>
    match s.handlers[i]? with
    | some (.start fd) => s.connection fd
    | _ => true
  | .fail _ => false
  | _ => true

theorem steady_of_test (s : State) (l : Label) (h : s.steadyTest l = true) :
    s.Steady l := by
  refine ⟨?_, ?_, ?_, ?_⟩
  · rintro fd rest (hm | hm) rfl hl <;>
      simp [steadyTest, hm, hl] at h
  · rintro fd rfl hl
    simp [steadyTest, hl] at h
  · rintro i agent fd rfl hi
    simpa [steadyTest, hi] using h
  · rintro i rfl
    cases h

/-- The theorem above for an fd that stays and one that is closed. -/
theorem clients_counted_after_close :
    ∃ s : State, s.opened = [1, 2] ∧ s.closed 1 = true ∧
      s.closed 2 = false ∧
      s.ccnt = (s.opened.filter fun fd => !s.closed fd).length := by
  refine ⟨_, rfl, rfl, rfl, (clients_counted
    (reaches_of_execWhile steady_of_test
      (show execWhile step steadyTest create
        [.accept 1, .dispatch, .run 0 10, .run 0 0, .run 0 0, .accept 2,
          .dispatch, .run 0 11, .hangup 1 false, .dispatch, .run 0 0,
          .run 0 0, .run 0 0] = .next _ from rfl)) rfl).1⟩

/-- The gate loses an fd while its agent is started: `SOCKET.close` counts down
and `SOCKET.open` fails before it counts up.  And when it is lost while the
agent is launched, the agent's entry stays for ever. -/
theorem clients_miscounted :
    (∃ s : State,
      exec step create
        [.accept 1, .dispatch, .run 0 10, .hangup 1 false, .dispatch, .run 0 0,
          .run 1 0, .run 0 0] = .next s ∧
      s.mailbox = [] ∧ s.handlers = [] ∧ s.closed 1 = true ∧ s.ccnt = -1) ∧
    ∃ s : State,
      exec step create
        [.accept 1, .dispatch, .hangup 1 false, .dispatch, .run 0 10, .run 0 0,
          .run 0 0] = .next s ∧
      s.mailbox = [] ∧ s.handlers = [] ∧ s.closed 1 = true ∧
      s.agent 1 = some 10 := by
  exact ⟨⟨_, rfl, rfl, rfl, rfl, rfl⟩, ⟨_, rfl, rfl, rfl, rfl, rfl⟩⟩

end State

end SkynetServer.Watchdog
