import Mathlib.Data.List.Infix
import SkynetServer.SocketChannel.Waits

/-!
# The connections of a channel

The socket, the dispatch coroutine and the entries that are queued belong to
one connection.  The responses that were read from it, the one that is being
read and those that are queued are the waits on it in their order.
-/

namespace SkynetServer.SocketChannel

open Transition

/-- The entries, the dispatch coroutine and the coroutine that connects fit to
the socket. -/
structure Links {φ α : Type*} (s : System φ α) : Prop where
  sock_dispatch : ∀ k, s.sock = some k →
    ∃ phase, s.dispatch = some ⟨k.conn, phase⟩
  order : ∀ k, s.sock = some k →
    s.pushed k.conn = (s.read k.conn).map Prod.fst ++ s.current
  read_pushed : ∀ c, (s.read c).map Prod.fst <+: s.pushed c
  items_conn : ∀ d, s.dispatch = some d → ∀ i ∈ s.items, i.conn = d.conn
  turns_conn : ∀ d, s.dispatch = some d → ∀ t ∈ d.phase.turns,
    t.conn = d.conn
  left : s.dispatch = none → ∀ i ∈ s.items,
    ∃ co, s.pc co = .failing i.conn
  signal : ∀ c, .signal c ∈ s.items → s.sock = none
  reading : ∀ (c : ℕ) (t : Turn φ) (sock : Option ℕ) (parts : List α),
    s.dispatch = some ⟨c, .reading t sock parts⟩ →
      sock = some c ∨ sock = none ∧ s.sock = none
  closing : ∀ (c : ℕ) (t : Turn φ) (error : Option α),
    s.dispatch = some ⟨c, .closing t error⟩ → s.sock = none
  waiting : ∀ c, s.waitResponse = some c →
    s.dispatch = some ⟨c, .popping⟩ ∧ s.items = [] ∧
      .dispatch c ∉ s.wakeupQueue
  popping : ∀ c, s.dispatch = some ⟨c, .popping⟩ →
    s.waitResponse = some c ∨ .dispatch c ∈ s.wakeupQueue
  token : ∀ c, .dispatch c ∈ s.wakeupQueue →
    s.dispatch = some ⟨c, .popping⟩
  dispatch_opened : ∀ d, s.dispatch = some d → d.conn < s.opened
  pushed_opened : ∀ c, s.opened ≤ c → s.pushed c = []
  failing : ∀ co c, s.pc co = .failing c →
    c < s.opened ∧ ∀ k, s.sock = some k → k.conn ≠ c
  applied : ∀ p ∈ s.applied, p.2 = some p.1 ∨ p.2 = none
  stage : ∀ k, s.connecting = some k → k.stage ≠ .auth →
    s.pc k.co = .connecting ∧ s.sock = none ∧
      (k.stage ≠ .closing → s.authcoroutine = none)
  auth : ∀ co, s.authcoroutine = some co → ∃ k, s.connecting = some k ∧
    (k.stage = .auth ∨ k.stage = .closing)

/-- The invariant of the runs. -/
structure Inv {φ α : Type*} (s : System φ α) : Prop where
  links : Links s
  waits : Waits s s.current

/-- The connection was closed. -/
def Closed {φ α : Type*} (s : System φ α) (c : ℕ) : Prop :=
  c < s.opened ∧ ∀ k, s.sock = some k → k.conn ≠ c

/-- A closed connection stays closed, and no response is read from it. -/
structure Later {φ α : Type*} (s s' : System φ α) : Prop where
  pushed : ∀ c, s.pushed c <+: s'.pushed c
  closed : ∀ c, Closed s c → Closed s' c ∧ s'.read c = s.read c

section Later

variable {φ α : Type*} {s s' s'' : System φ α}

theorem Later.refl (s : System φ α) : Later s s :=
  ⟨fun _ => List.prefix_rfl, fun _ h => ⟨h, rfl⟩⟩

theorem Later.trans (h : Later s s') (h' : Later s' s'') : Later s s'' := by
  refine ⟨fun c => (h.pushed c).trans (h'.pushed c), ?_⟩
  intro c hclosed
  obtain ⟨hclosed', hread⟩ := h.closed c hclosed
  obtain ⟨hclosed'', hread'⟩ := h'.closed c hclosed'
  exact ⟨hclosed'', hread'.trans hread⟩

/-- The socket is closed or kept. -/
theorem Later.of_sock
    (hpushed : ∀ c, s.pushed c <+: s'.pushed c) (hopened : s.opened = s'.opened)
    (hsock : ∀ k', s'.sock = some k' → ∃ k, s.sock = some k ∧
      k.conn = k'.conn)
    (hread : ∀ c, Closed s c → s'.read c = s.read c) : Later s s' := by
  refine ⟨hpushed, ?_⟩
  intro c hclosed
  refine ⟨⟨hopened ▸ hclosed.1, ?_⟩, hread c hclosed⟩
  intro k' hk'
  obtain ⟨k, hk, heq⟩ := hsock k' hk'
  rw [← heq]
  exact hclosed.2 k hk

/-- The socket, its responses and the waits stay. -/
theorem Later.of_eq
    (hpushed : s'.pushed = s.pushed) (hopened : s.opened = s'.opened)
    (hsock : s'.sock = s.sock) (hread : s'.read = s.read) : Later s s' := by
  refine Later.of_sock ?_ hopened ?_ ?_
  · intro c
    rw [hpushed]
  · intro k' hk'
    exact ⟨k', hsock ▸ hk', rfl⟩
  · intro c _
    rw [hread]

end Later

section Steps

variable {φ α : Type*} {s s' : System φ α} {co conn : ℕ}

/-! ## Closing -/

theorem Inv.close (h : Inv s) : Inv s.closeChannelSocket where
  links :=
    { h.links with
      sock_dispatch := fun _ hk => (by cases hk)
      order := fun _ hk => (by cases hk)
      signal := fun _ _ => rfl
      reading := fun c t sock parts hd =>
        (h.links.reading c t sock parts hd).imp_right fun ⟨hnone, _⟩ =>
          ⟨hnone, rfl⟩
      closing := fun _ _ _ _ => rfl
      failing := fun co c hpc =>
        ⟨(h.links.failing co c hpc).1, fun _ hk => (by cases hk)⟩
      stage := fun k hk hne =>
        (h.links.stage k hk hne).imp_right fun ⟨_, hauth⟩ => ⟨rfl, hauth⟩ }
  waits := { h.waits with }

theorem later_close : Later s s.closeChannelSocket :=
  Later.of_sock (fun _ => List.prefix_rfl) rfl (fun _ hk => (by cases hk))
    fun _ _ => rfl

/-- The peer closes the socket. -/
theorem Inv.disconnect (h : Inv s) {sock : Sock} (hsock : s.sock = some sock) :
    Inv { s with sock := some { sock with connected := false } } where
  links :=
    { h.links with
      sock_dispatch := by
        intro k hk
        cases hk
        exact h.links.sock_dispatch sock hsock
      order := by
        intro k hk
        cases hk
        exact h.links.order sock hsock
      signal := fun c hc => (by cases hsock.symm.trans (h.links.signal c hc))
      reading := fun c t fd parts hd =>
        (h.links.reading c t fd parts hd).imp_right fun ⟨_, hnone⟩ =>
          (by cases hsock.symm.trans hnone)
      closing := fun c t error hd =>
        (by cases hsock.symm.trans (h.links.closing c t error hd))
      failing := by
        intro co c hpc
        obtain ⟨hlt, hne⟩ := h.links.failing co c hpc
        refine ⟨hlt, ?_⟩
        intro k hk
        cases hk
        exact hne sock hsock
      stage := fun k hk hne =>
        (by cases hsock.symm.trans (h.links.stage k hk hne).2.1) }
  waits := { h.waits with }

/-! ## New entries -/

/-- What `push_response` does. -/
theorem pushResponse_cases
    (hwait : ∀ c, s.waitResponse = some c →
      s.dispatch = some ⟨c, .popping⟩) (item : Item φ) :
    (∃ c, s.waitResponse = some c ∧ s.pushResponse item = { s with
        items := s.items ++ [item]
        wakeupQueue := s.wakeupQueue ++ [.dispatch c]
        waitResponse := none }) ∨
      s.waitResponse = none ∧
        s.pushResponse item = { s with items := s.items ++ [item] } := by
  rw [System.pushResponse]
  dsimp only
  split
  · rename_i c hcase
    have hasleep :
        System.asleep { s with items := s.items ++ [item] } (.dispatch c) =
          true := by
      rw [System.asleep, hwait c hcase]
      exact decide_eq_true rfl
    left
    refine ⟨c, hcase, ?_⟩
    rw [System.wakeup, if_pos hasleep]
  · rename_i hcase
    exact .inr ⟨hcase, rfl⟩

/-- An entry for the dispatch coroutine, a response function with its wait
among the calls. -/
theorem Links.push
    (h : Links s) (item : Item φ) {d : Dispatch φ α}
    (hd : s.dispatch = some d) (hconn : item.conn = d.conn)
    (pushed : ℕ → List (Turn φ)) (pc : ℕ → Pc φ)
    (hgrown : ∀ c, s.pushed c <+: pushed c)
    (horder : ∀ k, s.sock = some k → pushed k.conn =
      (s.read k.conn).map Prod.fst ++ (s.current ++ item.turns))
    (hopened : ∀ c, s.opened ≤ c → pushed c = [])
    (hsignal : ∀ c, item = .signal c → s.sock = none)
    (hfailing : ∀ co c, pc co = .failing c → s.pc co = .failing c)
    (hstage : ∀ k, s.connecting = some k → k.stage ≠ .auth →
      pc k.co = .connecting) :
    Links (System.pushResponse { s with pushed := pushed, pc := pc } item) := by
  have hcurrent : inflight s.dispatch ++ turns (s.items ++ [item]) =
      s.current ++ item.turns := by
    rw [turns, List.flatMap_append, List.flatMap_singleton,
      ← List.append_assoc]
    rfl
  have hitems : Links { s with
      pushed := pushed
      pc := pc
      items := s.items ++ [item]
      waitResponse := none
      wakeupQueue := s.wakeupQueue ++
        (s.waitResponse.map Token.dispatch).toList } :=
    { h with
      order := by
        intro k hk
        rw [System.current]
        dsimp only
        rw [hcurrent]
        exact horder k hk
      read_pushed := fun c => (h.read_pushed c).trans (hgrown c)
      items_conn := by
        intro d' hd' i hi
        cases hd.symm.trans hd'
        rcases List.mem_append.mp hi with hi | hi
        · exact h.items_conn d hd i hi
        · cases List.mem_singleton.mp hi
          exact hconn
      left := fun hnone => (by cases hd.symm.trans hnone)
      signal := by
        intro c hc
        rcases List.mem_append.mp hc with hc | hc
        · exact h.signal c hc
        · exact hsignal c (List.mem_singleton.mp hc).symm
      waiting := fun _ hc => (by cases hc)
      popping := by
        intro c hc
        right
        rcases h.popping c hc with hwait | hmem
        · dsimp only
          rw [hwait]
          exact List.mem_append_right _ (List.mem_singleton_self _)
        · exact List.mem_append_left _ hmem
      token := by
        intro c hc
        rcases List.mem_append.mp hc with hc | hc
        · exact h.token c hc
        · rw [Option.mem_toList, Option.map_eq_some_iff] at hc
          obtain ⟨c', hwait, heq⟩ := hc
          cases heq
          exact (h.waiting c hwait).1
      pushed_opened := hopened
      failing := fun co c hpc => h.failing co c (hfailing co c hpc)
      stage := fun k hk hne =>
        ⟨hstage k hk hne, (h.stage k hk hne).2⟩ }
  rcases pushResponse_cases (s := { s with pushed := pushed, pc := pc })
    (fun c hc => (h.waiting c hc).1) item with ⟨c, hwait, heq⟩ | ⟨hwait, heq⟩
  · have hwait' : s.waitResponse = some c := hwait
    rw [heq]
    rw [hwait'] at hitems
    exact hitems
  · have hwait' : s.waitResponse = none := hwait
    rw [heq]
    rw [hwait', Option.map_none, Option.toList_none, List.append_nil]
      at hitems
    dsimp only
    rw [hwait']
    exact hitems

/-- `push_response` changes only the entries and the wakeup queue. -/
theorem Waits.pushResponse
    {current : List (Turn φ)} (h : Waits s current)
    (hwait : ∀ c, s.waitResponse = some c →
      s.dispatch = some ⟨c, .popping⟩ ∧ .dispatch c ∉ s.wakeupQueue)
    (item : Item φ) : Waits (s.pushResponse item) current := by
  rcases pushResponse_cases (fun c hc => (hwait c hc).1) item with
    ⟨c, hc, heq⟩ | ⟨_, heq⟩
  · rw [heq]
    exact { h.queueDispatch (hwait c hc).2 with }
  · rw [heq]
    exact { h with }

theorem pushResponse_eq (item : Item φ) :
    ∃ queue wait, s.pushResponse item = { s with
      items := s.items ++ [item]
      wakeupQueue := queue
      waitResponse := wait } := by
  rw [System.pushResponse]
  dsimp only
  split
  · rw [System.wakeup]
    split
    · exact ⟨_, _, rfl⟩
    · exact ⟨_, _, rfl⟩
  · exact ⟨_, _, rfl⟩

theorem turns_append (items : List (Item φ)) (item : Item φ) :
    turns (items ++ [item]) = turns items ++ item.turns := by
  rw [turns, List.flatMap_append, List.flatMap_singleton]
  rfl

theorem pushResponse_current (item : Item φ) :
    (s.pushResponse item).current = s.current ++ item.turns := by
  obtain ⟨queue, wait, heq⟩ := pushResponse_eq (s := s) item
  rw [heq, System.current]
  dsimp only
  rw [turns_append, ← List.append_assoc]
  rfl

/-- The close signal is sent to a dispatch coroutine whose socket was
closed. -/
theorem Inv.term (h : Inv s) (hsock : s.sock = none) :
    Inv s.termDispatchThread := by
  rw [System.termDispatchThread]
  split
  · rename_i d hd
    have hlinks := h.links.push (.signal d.conn) hd rfl s.pushed s.pc
      (fun _ => List.prefix_rfl)
      (fun k hk => by cases hsock.symm.trans hk) h.links.pushed_opened
      (fun _ _ => hsock) (fun _ _ hpc => hpc)
      fun k hk hne => (h.links.stage k hk hne).1
    refine ⟨hlinks, ?_⟩
    rw [pushResponse_current, Item.turns, List.append_nil]
    exact h.waits.pushResponse (fun c hc =>
      ⟨(h.links.waiting c hc).1, (h.links.waiting c hc).2.2⟩) _
  · exact h

theorem termDispatchThread_eq :
    ∃ items queue wait, s.termDispatchThread = { s with
      items := items
      wakeupQueue := queue
      waitResponse := wait } := by
  rw [System.termDispatchThread]
  split
  · obtain ⟨queue, wait, heq⟩ := pushResponse_eq (s := s) (.signal _)
    exact ⟨_, queue, wait, heq⟩
  · exact ⟨_, _, _, rfl⟩

theorem later_term : Later s s.termDispatchThread := by
  obtain ⟨items, queue, wait, heq⟩ := termDispatchThread_eq (s := s)
  rw [heq]
  exact .of_eq rfl rfl rfl rfl

theorem wakeup_close (token : Token) :
    (s.wakeup token).closeChannelSocket =
      s.closeChannelSocket.wakeup token := by
  have hasleep : s.closeChannelSocket.asleep token = s.asleep token := by
    cases token with
    | dispatch c | thread co => rfl
  rw [System.wakeup, System.wakeup, hasleep]
  split
  · rfl
  · rfl

/-- `channel:close` sends the close signal before it closes the socket. -/
theorem close_term :
    s.termDispatchThread.closeChannelSocket =
      s.closeChannelSocket.termDispatchThread := by
  rw [System.termDispatchThread, System.termDispatchThread]
  dsimp only [System.closeChannelSocket]
  split
  · rename_i d _
    rw [System.pushResponse, System.pushResponse]
    dsimp only
    split
    · rename_i c _
      exact congrArg (fun s : System φ α => { s with waitResponse := none })
        (wakeup_close
          (s := { s with items := s.items ++ [.signal d.conn] }) (.dispatch c))
    · rfl
  · rfl

/-! ## Places of the coroutines -/

/-- A coroutine that is outside the channel, and does not connect but for its
function for `auth`. -/
structure Outside (s : System φ α) (co : ℕ) : Prop extends Loose s co where
  not_failing : ∀ c, s.pc co ≠ .failing c
  not_connecting : ∀ k, s.connecting = some k → k.stage ≠ .auth → k.co ≠ co

theorem Links.goto
    (h : Links s) {co : ℕ} (pc : Pc φ)
    (hleft : ∀ c, s.pc co = .failing c → s.items = [])
    (hfailing : ∀ c, pc = .failing c → Closed s c)
    (hstage : ∀ k, s.connecting = some k → k.stage ≠ .auth → k.co ≠ co) :
    Links (s.goto co pc) :=
  { h with
    left := by
      intro hd i hi
      obtain ⟨co', hpc⟩ := h.left hd i hi
      refine ⟨co', (Function.update_of_ne ?_ _ _).trans hpc⟩
      rintro rfl
      have hnil := hleft _ hpc
      have hmem : i ∈ s.items := hi
      rw [hnil] at hmem
      cases hmem
    failing := by
      intro co' c hpc
      rw [System.goto] at hpc
      dsimp only at hpc
      rw [Function.update_apply] at hpc
      split at hpc
      · exact hfailing c hpc
      · exact h.failing co' c hpc
    stage := by
      intro k hk hne
      obtain ⟨hpc, hrest⟩ := h.stage k hk hne
      exact ⟨(Function.update_of_ne (hstage k hk hne) _ _).trans hpc, hrest⟩ }

/-- A coroutine goes on outside, or fails. -/
theorem Inv.goto
    (h : Inv s) (hout : Outside s co) (pc : Pc φ) (hnew : ∀ t, pc ≠ .waiting t)
    (hfailing : ∀ c, pc = .failing c → Closed s c) : Inv (s.goto co pc) where
  links := h.links.goto pc (fun c hpc => absurd hpc (hout.not_failing c))
    hfailing hout.not_connecting
  waits := h.waits.goto hout.toLoose pc hnew

theorem later_goto (pc : Pc φ) : Later s (s.goto co pc) :=
  .of_eq rfl rfl rfl rfl

theorem Inv.await (h : Inv s) (hout : Outside s co) (call : Call φ) :
    Inv { s.goto co (.awaiting call) with awaiting := s.awaiting ++ [co] } where
  links :=
    { h.links.goto (.awaiting call)
        (fun c hpc => absurd hpc (hout.not_failing c))
        (fun _ hpc => (by cases hpc)) hout.not_connecting with }
  waits := h.waits.await hout.toLoose call

/-- The coroutine that connects is at a stage other than `auth`. -/
theorem Inv.connectAt
    (h : Inv s) (hloose : Loose s co) (hfailing : ∀ c, s.pc co ≠ .failing c)
    (call : Call φ) {stage : Stage} (hsock : s.sock = none)
    (hauth : stage ≠ .closing → s.authcoroutine = none) :
    Inv (s.connectAt co call stage) where
  links :=
    { h.links with
      left := by
        intro hd i hi
        obtain ⟨co', hpc⟩ := h.links.left hd i hi
        refine ⟨co', (Function.update_of_ne ?_ _ _).trans hpc⟩
        rintro rfl
        exact hfailing _ hpc
      failing := by
        intro co' c hpc
        rw [System.connectAt, System.goto] at hpc
        dsimp only at hpc
        rw [Function.update_apply] at hpc
        split at hpc
        · cases hpc
        · exact h.links.failing co' c hpc
      stage := by
        intro k hk _
        cases hk
        exact ⟨Function.update_self _ _ _, hsock, hauth⟩
      auth := by
        intro co' hco'
        refine ⟨_, rfl, .inr ?_⟩
        by_contra hclosing
        cases (hauth hclosing).symm.trans hco' }
  waits := { h.waits.goto hloose .connecting
    fun _ h => (by cases h) with }

theorem later_connectAt (call : Call φ) (stage : Stage) :
    Later s (s.connectAt co call stage) :=
  .of_eq rfl rfl rfl rfl

/-- The coroutines that wait for the one that connects are woken. -/
theorem Inv.wakeAwaiting
    (h : Inv s) (hauth : s.authcoroutine = none) :
    Inv { s with
      wakeupQueue := s.wakeupQueue ++ s.awaiting.map .thread
      connecting := none
      awaiting := [] } where
  links :=
    have hdispatch {c : ℕ} :
        .dispatch c ∈ s.wakeupQueue ++ s.awaiting.map Token.thread ↔
          .dispatch c ∈ s.wakeupQueue := by
      rw [List.mem_append]
      refine or_iff_left ?_
      intro hmem
      obtain ⟨_, _, heq⟩ := List.mem_map.mp hmem
      cases heq
    { h.links with
      waiting := fun c hc =>
        (h.links.waiting c hc).imp_right
          (And.imp_right fun hnot hmem => hnot (hdispatch.mp hmem))
      popping := fun c hc => (h.links.popping c hc).imp_right hdispatch.mpr
      token := fun c hc => h.links.token c (hdispatch.mp hc)
      stage := fun _ hk => (by cases hk)
      auth := fun _ hco => (by cases hauth.symm.trans hco) }
  waits := h.waits.wakeAwaiting

/-- A new wait on the connection. -/
theorem Inv.push
    (h : Inv s) (hout : Outside s co) {sock : Sock}
    (hsock : s.sock = some sock) (func : φ) :
    Inv (s.waitForResponse co sock.conn func) ∧
      Later s (s.waitForResponse co sock.conn func) := by
  obtain ⟨phase, hd⟩ := h.links.sock_dispatch sock hsock
  obtain ⟨turn, hturn⟩ : ∃ turn : Turn φ,
    turn = ⟨sock.conn, (s.pushed sock.conn).length, co, func⟩ := ⟨_, rfl⟩
  have hconn : turn.conn = sock.conn := by rw [hturn]
  rw [System.waitForResponse, ← hturn]
  have hgrown (c : ℕ) : s.pushed c <+:
      Function.update s.pushed sock.conn (s.pushed sock.conn ++ [turn]) c := by
    rw [Function.update_apply]
    split
    · rename_i heq
      rw [heq]
      exact List.prefix_append _ _
    · exact List.prefix_rfl
  have hlinks := h.links.push (.response turn) hd hconn
    (Function.update s.pushed sock.conn (s.pushed sock.conn ++ [turn]))
    (Function.update s.pc co (.waiting turn)) hgrown (by
      intro k hk
      cases hsock.symm.trans hk
      rw [Function.update_self, h.links.order sock hsock, List.append_assoc]
      rfl) (by
      intro c hc
      have hlt := h.links.dispatch_opened _ hd
      dsimp only at hlt
      rw [Function.update_of_ne (by omega)]
      exact h.links.pushed_opened c hc) (fun _ h => (by cases h)) (by
      intro co' c hpc
      rw [Function.update_apply] at hpc
      split at hpc
      · cases hpc
      · exact hpc) (by
      intro k hk hne
      rw [Function.update_of_ne (hout.not_connecting k hk hne)]
      exact (h.links.stage k hk hne).1)
  have hwaits := h.waits.push hout.toLoose sock.conn func hturn
  refine ⟨⟨hlinks, ?_⟩, ?_⟩
  · rw [pushResponse_current]
    exact hwaits.pushResponse (fun c hc =>
      ⟨(h.links.waiting c hc).1, (h.links.waiting c hc).2.2⟩) _
  · obtain ⟨queue, wait, heq⟩ := pushResponse_eq
      (s := { s with
        pushed := Function.update s.pushed sock.conn
          (s.pushed sock.conn ++ [turn])
        pc := Function.update s.pc co (.waiting turn) }) (.response turn)
    rw [heq]
    exact .of_sock hgrown rfl (fun k hk => ⟨k, hk, rfl⟩) fun _ _ => rfl

/-- A new connection is set up. -/
theorem Inv.setSock
    (h : Inv s) (hd : s.dispatch = none) (hitems : s.items = [])
    (hstage : ∀ k, s.connecting = some k → k.stage = .auth) (connected : Bool) :
    Inv { s with
      sock := some ⟨s.opened, connected⟩
      opened := s.opened + 1
      dispatch := some ⟨s.opened, .forked⟩ } where
  links := by
    have hcurrent : turns s.items = [] := by
      rw [hitems]
      rfl
    have hread : s.read s.opened = [] := by
      have hgrown := h.links.read_pushed s.opened
      rw [h.links.pushed_opened _ (Nat.le_refl _)] at hgrown
      exact List.map_eq_nil_iff.mp (List.prefix_nil.mp hgrown)
    have hnone {c : ℕ} {phase : Phase φ α} :
        s.dispatch ≠ some ⟨c, phase⟩ := by
      rw [hd]
      exact fun h => (by cases h)
    exact
      { h.links with
        sock_dispatch := by
          intro k hk
          cases hk
          exact ⟨_, rfl⟩
        order := by
          intro k hk
          cases hk
          rw [System.current]
          dsimp only
          rw [hcurrent, hread, h.links.pushed_opened _ (Nat.le_refl _)]
          rfl
        items_conn := by
          intro d _ i hi
          have hmem : i ∈ s.items := hi
          rw [hitems] at hmem
          cases hmem
        turns_conn := by
          intro d hd' t ht
          cases hd'
          cases ht
        left := fun hd' => (by cases hd')
        signal := by
          intro c hc
          have hmem : .signal c ∈ s.items := hc
          rw [hitems] at hmem
          cases hmem
        reading := fun _ _ _ _ hd' => (by cases hd')
        closing := fun _ _ _ hd' => (by cases hd')
        waiting := fun c hc => absurd (h.links.waiting c hc).1 hnone
        popping := fun _ hd' => (by cases hd')
        token := fun c hc => absurd (h.links.token c hc) hnone
        dispatch_opened := by
          intro d hd'
          cases hd'
          exact Nat.lt_succ_self _
        pushed_opened := fun c hc =>
          h.links.pushed_opened c (Nat.le_of_succ_le hc)
        failing := by
          intro co c hpc
          have hlt := (h.links.failing co c hpc).1
          refine ⟨Nat.lt_succ_of_lt hlt, ?_⟩
          intro k hk
          cases hk
          exact Nat.ne_of_gt hlt
        stage := fun k hk hne => absurd (hstage k hk) hne }
  waits := by
    have hcurrent : s.current = turns s.items := by
      rw [System.current, hd]
      rfl
    have hwaits := h.waits
    rw [hcurrent] at hwaits
    exact { hwaits with }

theorem later_setSock (connected : Bool) :
    Later s { s with
      sock := some ⟨s.opened, connected⟩
      opened := s.opened + 1
      dispatch := some ⟨s.opened, .forked⟩ } := by
  refine ⟨fun _ => List.prefix_rfl, ?_⟩
  intro c hclosed
  refine ⟨⟨Nat.lt_succ_of_lt hclosed.1, ?_⟩, rfl⟩
  intro k hk
  cases hk
  exact Nat.ne_of_gt hclosed.1

end Steps

end SkynetServer.SocketChannel
