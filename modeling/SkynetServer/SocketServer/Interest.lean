import SkynetServer.SocketServer.Knowledge

/-!
# Write interest

While a connected socket has unsent data, its fd has write interest in the poll
set, or a thread is just about to turn it on.  The exception is
`report_connect`: its `sp_write(..., false)` does not hold the lock, and may
come after the `sp_write(..., true)` of a direct write that it has not seen.
-/

namespace SkynetServer.SocketServer

open Transition

variable {τ : Type*}

/-- A non-empty send list, or a buffer left by a direct write. -/
def Socket.Unsent (k : Socket τ) : Prop :=
  k.high ≠ [] ∨ k.low ≠ [] ∨ k.dw ≠ none

theorem Socket.not_unsent
    {k : Socket τ} (hd : k.Drained) (hdw : k.dw = none) : ¬ k.Unsent := by
  rintro (h | h | h)
  · exact h hd.1
  · exact h hd.2
  · exact h hdw

/-- The types whose unsent data wait for a write event. -/
def SocketType.connects : SocketType → Bool
  | .connecting | .connected => true
  | _ => false

/-- A worker before its `sp_write(..., true)`. -/
def WPc.enabling : WPc τ → Bool
  | .enable _ => true
  | _ => false

theorem WPc.locked_of_enabling {p : WPc τ} (h : p.enabling = true) :
    p.locked = true := by
  cases p <;> first | rfl | cases h

/-- The socket thread before an `sp_write(..., true)`. -/
def SPc.enabling : SPc τ → Bool
  | .openEnable _ | .sendEnable _ _ => true
  | _ => false

/-- Positions in `force_close` before the type is set. -/
def SPc.closing : SPc τ → Bool
  | .freeHigh _ _ _ | .freeLow _ _ _ | .del _ _ _ | .closeLock _ _ _
  | .invalidate _ _ => true
  | _ => false

def Caller.closes : Caller → Bool
  | .event _ _ => false
  | .close _ _ => true

/-- Positions in `close_socket`. -/
def SPc.inClose : SPc τ → Bool
  | .closeTest _ _ _ _ | .halfclose _ => true
  | .sendBuffer f | .takeDw f | .sendList f _ | .raise f | .turnOff f
  | .sent f | .unlock f _ => f.closes
  | _ => false

/-- The tests of `nomore_sending_data` which `report_connect` has passed. -/
def SPc.passed : SPc τ → DataTest → Bool
  | .connectTest _ .low, t => t = .high
  | .connectTest _ .dw, t => t = .high || t = .low
  | .connectTest _ .sending, t => t ≠ .sending
  | .connectOff _, _ => true
  | _, _ => false

/-- The position behind `sp_add` in `start_socket`. -/
def SPc.starting : SPc τ → Bool
  | .startType _ => true
  | _ => false

/-- No worker turns the write interest on between the test of `s->dw_buffer`
in `report_connect` and its `sp_write(..., false)`. -/
def SparesInterest : Condition τ := fun _ p ws t =>
  ∀ w, t = some w → (ws w).enabling = true → p.passed .dw = false

/-- Unsent data are attended to. -/
structure Attended (k : Socket τ) (p : SPc τ) (ws : τ → WPc τ) : Prop where
  registered : k.type.connects = true → k.poll ≠ none ∨ p.closing = true
  started : p.starting = true → k.poll ≠ none
  interest : k.type.connects = true → k.Unsent →
    k.poll = some true ∨ p.enabling = true ∨
      (∃ w, (ws w).enabling = true) ∨ p.closing = true
  connecting : k.type = .connecting →
    k.poll = some true ∨ p.enabling = true ∨ p.closing = true ∨
      p.inClose = true
  high : p.passed .high = true → k.high = []
  low : p.passed .low = true → k.low = []
  dw : p.passed .dw = true → k.dw = none ∨ ∃ w, (ws w).enabling = true

/-! ## Steps of a worker -/

theorem wstep_enabling
    {k k' : Socket τ} {p p' : WPc τ} (h : WStep k p k' p')
    (hp : p.enabling = true) : k'.poll = k.poll.map fun _ => true := by
  cases h <;> first | rfl | cases hp

theorem wstep_connects
    {k k' : Socket τ} {p p' : WPc τ} (h : WStep k p k' p')
    (htype : k'.type.connects = true) : k'.type = k.type := by
  rcases wstep_type h with ht | ⟨-, ht⟩
  · exact ht
  · rw [ht] at htype
    cases htype

theorem wstep_poll_true
    {k k' : Socket τ} {p p' : WPc τ} (h : WStep k p k' p')
    (hpoll : k.poll = some true) : k'.poll = some true := by
  rcases wstep_poll h with hk | ⟨-, -, hk⟩ <;> rw [hk, hpoll]
  rfl

theorem wstep_poll_some
    {k k' : Socket τ} {p p' : WPc τ} (h : WStep k p k' p')
    (hpoll : k.poll ≠ none) : k'.poll ≠ none := by
  rcases wstep_poll h with hk | ⟨-, -, hk⟩ <;> rw [hk]
  · exact hpoll
  · simpa using hpoll

section Worker

variable [DecidableEq τ] {k k' : Socket τ} {p : SPc τ} {ws : τ → WPc τ} {w : τ}
  {q : WPc τ}

/-- Other workers that turn the interest on are still there after a step. -/
theorem enabling_update
    {v : τ} (hv : (ws v).enabling = true) (hvw : v ≠ w) :
    ∃ v, (Function.update ws w q.home v).enabling = true :=
  ⟨v, by rwa [Function.update_of_ne hvw]⟩

/-- A worker that has just stored its buffer turns the interest on. -/
theorem enabling_of_setDw
    {c : Call τ} (hq : q = .enable c.id) :
    ∃ v, (Function.update ws w q.home v).enabling = true := by
  refine ⟨w, ?_⟩
  rw [Function.update_self, hq]
  rfl

theorem Attended.workerStep
    (h : Attended k p ws) (hok : SparesInterest k p ws (some w))
    (hs : WStep k (ws w) k' q) :
    Attended k' p (Function.update ws w q.home) where
  registered := by
    intro htype
    rcases h.registered (wstep_connects hs htype ▸ htype) with hpoll | hp
    · exact .inl (wstep_poll_some hs hpoll)
    · exact .inr hp
  started := fun hp => wstep_poll_some hs (h.started hp)
  interest := by
    intro htype hunsent
    have hold := wstep_connects hs htype ▸ htype
    obtain ⟨hhigh, hlow⟩ := wstep_lists hs
    rcases wstep_dw hs with hdw | ⟨c, n, -, hq⟩
    · have hunsent : k.Unsent := by
        unfold Socket.Unsent at hunsent ⊢
        rwa [hhigh, hlow, hdw] at hunsent
      rcases h.interest hold hunsent with hpoll | hp | ⟨v, hv⟩ | hp
      · exact .inl (wstep_poll_true hs hpoll)
      · exact .inr (.inl hp)
      · by_cases hvw : v = w
        · subst hvw
          rcases h.registered hold with hpoll | hp
          · refine .inl ?_
            rw [wstep_enabling hs hv]
            obtain ⟨b, hb⟩ := Option.ne_none_iff_exists'.mp hpoll
            rw [hb]
            rfl
          · exact .inr (.inr (.inr hp))
        · exact .inr (.inr (.inl (enabling_update hv hvw)))
      · exact .inr (.inr (.inr hp))
    · exact .inr (.inr (.inl (enabling_of_setDw hq)))
  connecting := by
    intro htype
    have hold : k'.type = k.type := wstep_connects hs (by rw [htype]; rfl)
    rcases h.connecting (hold ▸ htype) with hpoll | hp
    · exact .inl (wstep_poll_true hs hpoll)
    · exact .inr hp
  high := fun hp => (wstep_lists hs).1.trans (h.high hp)
  low := fun hp => (wstep_lists hs).2.trans (h.low hp)
  dw := by
    intro hp
    rcases wstep_dw hs with hdw | ⟨c, n, -, hq⟩
    · rcases h.dw hp with hnone | ⟨v, hv⟩
      · exact .inl (hdw.trans hnone)
      · by_cases hvw : v = w
        · rw [hok w rfl (hvw ▸ hv)] at hp
          cases hp
        · exact .inr (enabling_update hv hvw)
    · exact .inr (enabling_of_setDw hq)

end Worker

/-! ## Steps of the socket thread -/

section Server

variable {k k' : Socket τ} {p p' : SPc τ}

/-- What a step does to the poll set. -/
inductive PollStep (k k' : Socket τ) (p p' : SPc τ) : Prop
  | same (h : k'.poll = k.poll)
  | enable (hp : p.enabling = true) (h : k'.poll = k.poll.map fun _ => true)
  | add (id : Id) (h : k'.poll ≠ none) (hp : p = .startAdd id)
  | off (f : Caller) (hp : p = .turnOff f) (hp' : p' = .sent f)
      (hd : k'.Drained) (hdw : k'.dw = k.dw) (htype : k'.type = k.type)
      (h : k'.poll = k.poll.map fun _ => false)
  | connectOff (i : ℕ) (hp : p = .connectOff i)
      (hlists : k'.high = k.high ∧ k'.low = k.low ∧ k'.dw = k.dw)
      (htype : k'.type = k.type) (h : k'.poll = k.poll.map fun _ => false)
  | del (hp : p'.home.closing = true)
  | newFd (h : k'.type = .reserve)

theorem sstep_poll (h : SStep k p k' p') : PollStep k k' p p' := by
  cases h
  case queueFirst | queue =>
    apply PollStep.same
    unfold Socket.warn Socket.append
    split <;> split <;> rfl
  case newFd id n htype _ => exact .newFd htype
  case openEnable id => exact .enable rfl rfl
  case startAdd id => exact .add id (Option.some_ne_none false) rfl
  case sendEnable c r => exact .enable rfl rfl
  case takeDw f =>
    apply PollStep.same
    unfold Socket.takeDw
    split <;> rfl
  case sendAll f low b rest _ _ | sendPart f low b rest n _ _ _
      | udpSend f low b rest _ _ | udpDrop f low b rest _ _ =>
    cases low <;> exact .same rfl
  case turnOff f hempty _ =>
    exact .off f rfl rfl (Socket.drained_of_sendBufferEmpty hempty) rfl rfl rfl
  case del i held f => exact .del rfl
  case connectOff i r => exact .connectOff i rfl ⟨rfl, rfl, rfl⟩ rfl rfl
  case reserve h => cases h <;> exact .same rfl
  all_goals exact .same rfl

/-- How a socket becomes one whose unsent data wait for an event. -/
inductive ConnectStep (k k' : Socket τ) (p p' : SPc τ) : Prop
  | same (h : k'.type = k.type)
  | setType (n : NewFd) (hp : p.fresh = some n) (hadd : n.add = true)
      (hlists : k'.high = k.high ∧ k'.low = k.low ∧ k'.dw = k.dw)
      (hpoll : k'.poll = k.poll)
      (hp' : k'.type = .connecting → p'.home.enabling = true)
  | start (hp : p.starting = true) (htype : k.type = .paccept)
      (hlists : k'.high = k.high ∧ k'.low = k.low ∧ k'.dw = k.dw)
      (hpoll : k'.poll = k.poll) (htype' : k'.type = .connected)
  | connect (i : ℕ) (id : Id) (hp : p = .connect i id)
      (hpoll : k'.poll = k.poll) (htype' : k'.type = .connected)

theorem sstep_connects
    (h : SStep k p k' p') (htype : k'.type.connects = true) :
    ConnectStep k k' p p' := by
  cases sstep_type h with
  | same hsame => exact .same hsame
  | setType id n hp hk hp' =>
      subst hp hk hp'
      cases n with
      | «open» connected =>
          refine .setType _ rfl rfl ⟨rfl, rfl, rfl⟩ rfl fun hc => ?_
          cases connected
          · rfl
          · cases hc
      | udp v6 => exact .setType _ rfl rfl ⟨rfl, rfl, rfl⟩ rfl nofun
      | _ => cases htype
  | startType id hp hk =>
      subst hp hk
      simp only at htype
      split at htype
      · rename_i hold
        exact .start rfl hold ⟨rfl, rfl, rfl⟩ rfl (if_pos hold)
      · cases htype
  | connect i id hp hk =>
      subst hk
      exact .connect i id hp rfl rfl
  | newFdFails _ _ _ _ hk | openFailed _ _ _ _ hk | halfclose _ _ hk
  | invalidate _ _ _ hk | cas _ _ _ _ _ hk =>
      rw [hk] at htype
      cases htype

/-- How a socket comes to have unsent data. -/
inductive DataStep (k : Socket τ) (p p' : SPc τ) : Prop
  | same (h : k.Unsent)
  | first (hp : p'.home.enabling = true)
  | queue (c : Command τ) (hp : p = .cmd c) (htype : k.type ≠ .connected)

theorem sstep_unsent (h : SStep k p k' p') (hunsent : k'.Unsent) :
    DataStep k p p' := by
  have hlist {low : Bool} {b : WriteBuffer τ} {rest : List (WriteBuffer τ)}
      (hl : k.list low = b :: rest) : k.Unsent := by
    cases low with
    | false =>
        refine .inl fun he => ?_
        rw [Socket.list, if_neg Bool.false_ne_true, he] at hl
        cases hl
    | true =>
        refine .inr (.inl fun he => ?_)
        rw [Socket.list, if_pos rfl, he] at hl
        cases hl
  cases h
  case queueFirst => exact .first rfl
  case queue c address r hid htype hused _ =>
    by_cases hc : k.type = .connected
    · refine .same ?_
      by_contra hnone
      have hempty : k.sendBufferEmpty = true := by
        have hhigh : k.high = [] := by
          by_contra he
          exact hnone (.inl he)
        have hlow : k.low = [] := by
          by_contra he
          exact hnone (.inr (.inl he))
        simp [Socket.sendBufferEmpty, hhigh, hlow]
      rw [hused hc] at hempty
      cases hempty
    · exact .queue _ rfl hc
  case newFd | freeDw =>
    refine .same ?_
    rcases hunsent with h | h | h
    · exact .inl h
    · exact .inr (.inl h)
    · exact absurd rfl h
  case takeDw f =>
    refine .same ?_
    unfold Socket.takeDw at hunsent
    split at hunsent
    · exact hunsent
    · rename_i b hb
      refine .inr (.inr ?_)
      rw [hb]
      exact Option.some_ne_none b
  case sendAll hl | sendPart hl _ | udpSend hl | udpDrop hl =>
    exact .same (hlist hl)
  case raise f b rest _ hlow =>
    refine .same (.inr (.inl ?_))
    rw [hlow]
    exact List.cons_ne_nil b rest
  case freeHigh =>
    refine .same ?_
    rcases hunsent with h | h
    · exact absurd rfl h
    · exact .inr h
  case freeLow =>
    refine .same ?_
    rcases hunsent with h | h | h
    · exact .inl h
    · exact absurd rfl h
    · exact .inr (.inr h)
  case del =>
    refine .same ?_
    unfold stepDel at hunsent
    split at hunsent <;> exact hunsent
  case reserve h =>
    cases h <;> exact .same hunsent
  all_goals exact .same hunsent

/-- `force_close` goes on until the socket is invalid. -/
theorem sstep_closing
    (h : SStep k p k' p') (hp : p.closing = true) :
    p'.home.closing = true ∨ k'.type = .invalid := by
  cases h
  case freeInvalid h | freeInvalidHeld h => exact .inr h
  case invalidate => exact .inr rfl
  all_goals first | exact .inl rfl | cases hp

/-- `close_socket` half-closes or closes the socket. -/
theorem sstep_inClose
    (h : SStep k p k' p') (hp : p.inClose = true) :
    p'.home.inClose = true ∨ p'.home.closing = true ∨
      k'.type = .halfclose := by
  have hbuffer (f : Caller) (r : Option Report) (hf : f.closes = true) :
      (afterBuffer (τ := τ) f r).home.inClose = true ∨
        (afterBuffer (τ := τ) f r).home.closing = true := by
    rcases afterBuffer_cases (τ := τ) f r with ⟨_, _, rfl, -⟩ | ⟨_, _, -, h | h⟩
    · cases hf
    · rw [h]
      exact .inl rfl
    · rw [h]
      exact .inr rfl
  have hlist (k : Socket τ) (f : Caller) (low : Bool)
      (hf : f.closes = true) : (afterList k f low).home.inClose = true :=
    afterList_role SPc.inClose k f low hf hf hf hf
  cases h
  case closeForce | listFails | sentClose => exact .inr (.inl rfl)
  case halfclose => exact .inr (.inr rfl)
  case busy f =>
    rcases hbuffer f none hp with h | h
    · exact .inl h
    · exact .inr (.inl h)
  case listEnd f low => exact .inl (hlist k f low hp)
  case sendPart f low b rest n _ _ _ | udpDrop f low b rest _ _ =>
    exact .inl (hlist _ f low hp)
  case unlock f r =>
    rcases hbuffer f r hp with h | h
    · exact .inl h
    · exact .inr (.inl h)
  all_goals first | exact .inl hp | exact .inl rfl | cases hp

/-- `report_connect` comes to know a field by its test. -/
theorem sstep_passed
    (h : SStep k p k' p') {t : DataTest} (hp : p'.home.passed t = true) :
    k' = k ∧ (p.passed t = true ∨ k.noData t = true) := by
  have hends {q : SPc τ} (hq : q.Ends) : q.home.passed t = false :=
    hq.role (SPc.passed · t) rfl
  have hsend (c : Call τ) (r : Option Report) :
      (afterSend c r).home.passed t = false :=
    afterSend_role (SPc.passed · t) c r rfl rfl
  have hbuffer (f : Caller) (r : Option Report) :
      (afterBuffer (τ := τ) f r).home.passed t = false :=
    afterBuffer_role (SPc.passed · t) f r rfl (fun _ => rfl) fun _ => rfl
  have hlist (k : Socket τ) (f : Caller) (low : Bool) :
      (afterList k f low).home.passed t = false :=
    afterList_role (SPc.passed · t) k f low rfl rfl rfl rfl
  cases h
  case cmdEnd hq => simp [hends hq] at hp
  case drop c r | queue c _ r _ _ _ _ => simp [hsend] at hp
  case setType id n =>
    have hout : (afterType (τ := τ) id n).home.passed t = false :=
      afterType_role (SPc.passed · t) id n rfl rfl rfl
    simp [hout] at hp
  case openFailed hq => simp [hends hq] at hp
  case sendEnable c r => simp [hsend] at hp
  case decOther c r _ | dec c r _ _ | decUdp c r _ =>
    simp [hends (ends_finish r)] at hp
  case busy f => simp [hbuffer] at hp
  case listEnd f low | sendPart f low b rest m _ _ _
      | udpDrop f low b rest _ _ => simp [hlist] at hp
  case unlock f r => simp [hbuffer] at hp
  case freeInvalid i f _ | closeUnlock i f =>
    simp [hends (ends_afterClose f)] at hp
  case connectPass i u u' hpass hu =>
    refine ⟨rfl, ?_⟩
    cases u <;> cases hu <;> cases t <;>
      first | exact .inl rfl | exact .inr hpass | cases hp
  case connectIdle i u hpass hu =>
    refine ⟨rfl, ?_⟩
    cases u <;> cases hu
    cases t <;> first | exact .inl rfl | exact .inr hpass
  case acceptEnd hq => simp [hends hq] at hp
  case reserve out _ => rcases out with r | m | id <;> cases hp
  all_goals cases hp

theorem sstep_starting
    (h : SStep k p k' p') (hp : p'.home.starting = true) :
    k'.poll ≠ none := by
  have hends {q : SPc τ} (hq : q.Ends) : q.home.starting = false :=
    hq.role SPc.starting rfl
  have hsend (c : Call τ) (r : Option Report) :
      (afterSend c r).home.starting = false :=
    afterSend_role SPc.starting c r rfl rfl
  have hbuffer (f : Caller) (r : Option Report) :
      (afterBuffer (τ := τ) f r).home.starting = false :=
    afterBuffer_role SPc.starting f r rfl (fun _ => rfl) fun _ => rfl
  have hlist (k : Socket τ) (f : Caller) (low : Bool) :
      (afterList k f low).home.starting = false :=
    afterList_role SPc.starting k f low rfl rfl rfl rfl
  cases h
  case cmdEnd hq => simp [hends hq] at hp
  case drop c r | queue c _ r _ _ _ _ => simp [hsend] at hp
  case setType id n =>
    have hout : (afterType (τ := τ) id n).home.starting = false :=
      afterType_role SPc.starting id n rfl rfl rfl
    simp [hout] at hp
  case openFailed hq => simp [hends hq] at hp
  case startAdd id => exact Option.some_ne_none false
  case sendEnable c r => simp [hsend] at hp
  case decOther c r _ | dec c r _ _ | decUdp c r _ =>
    simp [hends (ends_finish r)] at hp
  case busy f => simp [hbuffer] at hp
  case listEnd f low | sendPart f low b rest m _ _ _
      | udpDrop f low b rest _ _ => simp [hlist] at hp
  case unlock f r => simp [hbuffer] at hp
  case freeInvalid i f _ | closeUnlock i f =>
    simp [hends (ends_afterClose f)] at hp
  case acceptEnd hq => simp [hends hq] at hp
  case reserve out _ => rcases out with r | m | id <;> cases hp
  all_goals cases hp

variable {ws : τ → WPc τ}

/-- A socket that is not open, and not being closed, has no buffer left by a
direct write. -/
theorem Informed.dw_none
    (h : Informed k p ws) (htype : k.type.opened = false)
    (hp : ∀ i f, p ≠ .freeDw i f) : k.dw = none := by
  by_contra hdw
  rcases h.dw hdw with ho | ⟨i, f, hf⟩
  · rw [htype] at ho
    cases ho
  · exact hp i f hf

theorem Informed.connecting_of_connect
    (h : Informed k p ws) {i : ℕ} {id : Id} (hp : p = .connect i id) :
    k.type = .connecting := by
  have hexp := h.expected
  rw [hp] at hexp
  exact of_decide_eq_true hexp

theorem Attended.server_registered
    (hi : Informed k p ws) (h : Attended k p ws) (hs : SStep k p k' p')
    (htype : k'.type.connects = true) :
    k'.poll ≠ none ∨ p'.home.closing = true := by
  have hkeep (hold : k'.type = k.type) (hpoll : k.poll ≠ none → k'.poll ≠ none) :
      k'.poll ≠ none ∨ p'.home.closing = true := by
    rcases h.registered (hold ▸ htype) with hp | hp
    · exact .inl (hpoll hp)
    · rcases sstep_closing hs hp with hp | hinvalid
      · exact .inr hp
      · rw [hinvalid] at htype
        cases htype
  cases sstep_connects hs htype with
  | same hold =>
      cases sstep_poll hs with
      | same hpoll => exact hkeep hold fun hp => hpoll ▸ hp
      | enable _ hpoll | off f _ _ _ _ _ hpoll | connectOff i _ _ _ hpoll =>
          refine hkeep hold fun hp => ?_
          rw [hpoll]
          simpa using hp
      | add _ hpoll => exact .inl hpoll
      | del hp => exact .inr hp
      | newFd hreserve =>
          rw [hreserve] at htype
          cases htype
  | setType n hp hadd _ hpoll _ =>
      rw [hpoll]
      exact .inl ((hi.fresh n hp).2 hadd)
  | start hp _ _ hpoll _ =>
      rw [hpoll]
      exact .inl (h.started hp)
  | connect i id hp hpoll _ =>
      have hold := hi.connecting_of_connect hp
      rw [hpoll]
      rcases h.registered (by rw [hold]; rfl) with hreg | hclosing
      · exact .inl hreg
      · rw [hp] at hclosing
        cases hclosing

/-- The interest of a socket with unsent data outlives a step after which
there is still work for the thread that was to turn it on. -/
theorem Attended.server_keeps_interest
    (h : Attended k p ws) (hs : SStep k p k' p')
    (hold : k.type.connects = true) (hunsent : k.Unsent)
    (hnew : k'.type.connects = true) (hpoll : k'.poll = k.poll) :
    k'.poll = some true ∨ p.enabling = true ∨
      (∃ w, (ws w).enabling = true) ∨ p'.home.closing = true := by
  rcases h.interest hold hunsent with hp | hp | hp | hp
  · exact .inl (hpoll.trans hp)
  · exact .inr (.inl hp)
  · exact .inr (.inr (.inl hp))
  · rcases sstep_closing hs hp with hp | hinvalid
    · exact .inr (.inr (.inr hp))
    · rw [hinvalid] at hnew
      cases hnew

/-- A step that does not touch the poll set is not one that turns the interest
on. -/
theorem sstep_enabling
    (h : SStep k p k' p') (hp : p.enabling = true) :
    k'.poll = k.poll.map fun _ => true := by
  cases h <;> first | rfl | cases hp

theorem Attended.server_interest
    (hi : Informed k p ws) (h : Attended k p ws) (hs : SStep k p k' p')
    (htype : k'.type.connects = true) (hunsent : k'.Unsent) :
    k'.poll = some true ∨ p'.home.enabling = true ∨
      (∃ w, (ws w).enabling = true) ∨ p'.home.closing = true := by
  -- the poll set after an `sp_write(..., true)`
  have henable (hp : p.enabling = true) :
      k'.poll = some true ∨ p'.home.enabling = true ∨
        (∃ w, (ws w).enabling = true) ∨ p'.home.closing = true := by
    rcases h.server_registered hi hs htype with hreg | hclosing
    · refine .inl ?_
      rw [sstep_enabling hs hp] at hreg ⊢
      cases hk : k.poll with
      | none => simp [hk] at hreg
      | some b => rfl
    · exact .inr (.inr (.inr hclosing))
  cases sstep_connects hs htype with
  | setType n hp _ hlists _ _ =>
      have hd := (hi.fresh n hp).1
      have hreserve : k.type = .reserve := by
        have hexp := hi.expected
        cases p <;> cases hp
        exact of_decide_eq_true hexp
      have hdw := hi.dw_none (by rw [hreserve]; rfl)
        (by rintro i f rfl; cases hp)
      exact absurd hunsent (Socket.not_unsent
        ⟨hlists.1.trans hd.1, hlists.2.1.trans hd.2⟩ (hlists.2.2.trans hdw))
  | start hp hold hlists _ _ =>
      have hd := hi.waiting hold
      have hdw := hi.dw_none (by rw [hold]; rfl) (by rintro i f rfl; cases hp)
      exact absurd hunsent (Socket.not_unsent
        ⟨hlists.1.trans hd.1, hlists.2.1.trans hd.2⟩ (hlists.2.2.trans hdw))
  | connect i id hp hpoll _ =>
      rcases h.connecting (hi.connecting_of_connect hp) with hc | hc | hc | hc
      · exact .inl (hpoll.trans hc)
      all_goals
        rw [hp] at hc
        cases hc
  | same hsame =>
      have hold : k.type.connects = true := hsame ▸ htype
      cases sstep_poll hs with
      | enable hp _ => exact henable hp
      | add id _ hp =>
          have hexp := hi.expected
          rw [hp] at hexp
          rcases Bool.or_eq_true_iff.mp hexp with ht | ht <;>
            rw [of_decide_eq_true ht] at hold <;> cases hold
      | off f hp _ hd hdw _ _ =>
          refine absurd hunsent (Socket.not_unsent hd (hdw.trans ?_))
          exact hi.swept (by rw [hp]; rfl)
      | connectOff i hp hlists _ _ =>
          have hh := h.high (by rw [hp]; rfl)
          have hl := h.low (by rw [hp]; rfl)
          rcases h.dw (by rw [hp]; rfl) with hdw | hw
          · exact absurd hunsent (Socket.not_unsent
              ⟨hlists.1.trans hh, hlists.2.1.trans hl⟩ (hlists.2.2.trans hdw))
          · exact .inr (.inr (.inl hw))
      | del hp => exact .inr (.inr (.inr hp))
      | newFd hreserve =>
          rw [hreserve] at htype
          cases htype
      | same hpoll =>
          cases sstep_unsent hs hunsent with
          | first hp => exact .inr (.inl hp)
          | same hdata =>
              rcases h.server_keeps_interest hs hold hdata htype hpoll with
                hp | hp | hp | hp
              · exact .inl hp
              · exact henable hp
              · exact .inr (.inr (.inl hp))
              · exact .inr (.inr (.inr hp))
          | queue c hp hne =>
              have hconnecting : k.type = .connecting := by
                cases hk : k.type <;> rw [hk] at hold hne <;>
                  first | rfl | exact absurd rfl hne | cases hold
              rcases h.connecting hconnecting with hc | hc | hc | hc
              · exact .inl (hpoll.trans hc)
              all_goals
                rw [hp] at hc
                cases hc

theorem Attended.server_connecting
    (hi : Informed k p ws) (h : Attended k p ws) (hs : SStep k p k' p')
    (htype : k'.type = .connecting) :
    k'.poll = some true ∨ p'.home.enabling = true ∨ p'.home.closing = true ∨
      p'.home.inClose = true := by
  have hconnects : k'.type.connects = true := by
    rw [htype]
    rfl
  cases sstep_connects hs hconnects with
  | setType n hp _ _ _ hp' => exact .inr (.inl (hp' htype))
  | start _ _ _ _ htype' | connect _ _ _ _ htype' =>
      rw [htype'] at htype
      cases htype
  | same hsame =>
      have hold : k.type = .connecting := hsame ▸ htype
      have hmap (hp : p.enabling = true) :
          k'.poll = some true ∨ p'.home.enabling = true ∨
            p'.home.closing = true ∨ p'.home.inClose = true := by
        rcases h.server_registered hi hs hconnects with hreg | hclosing
        · refine .inl ?_
          rw [sstep_enabling hs hp] at hreg ⊢
          cases hk : k.poll with
          | none => simp [hk] at hreg
          | some b => rfl
        · exact .inr (.inr (.inl hclosing))
      have hkeep (hpoll : k'.poll = k.poll) :
          k'.poll = some true ∨ p'.home.enabling = true ∨
            p'.home.closing = true ∨ p'.home.inClose = true := by
        rcases h.connecting hold with hc | hc | hc | hc
        · exact .inl (hpoll.trans hc)
        · exact hmap hc
        · rcases sstep_closing hs hc with hp | hinvalid
          · exact .inr (.inr (.inl hp))
          · rw [hinvalid] at htype
            cases htype
        · rcases sstep_inClose hs hc with hp | hp | hhalf
          · exact .inr (.inr (.inr hp))
          · exact .inr (.inr (.inl hp))
          · rw [hhalf] at htype
            cases htype
      have hexp := hi.expected
      rw [hold] at hexp
      cases sstep_poll hs with
      | same hpoll => exact hkeep hpoll
      | enable hp _ => exact hmap hp
      | add id _ hp | connectOff i hp _ _ _ =>
          rw [hp] at hexp
          cases hexp
      | off f hp hp' _ _ _ _ =>
          -- an event of a connecting socket does not lead here
          rw [hp] at hexp
          rw [hp']
          cases f with
          | event i id => cases hexp
          | close id shutdown => exact .inr (.inr (.inr rfl))
      | del hp => exact .inr (.inr (.inl hp))
      | newFd hreserve =>
          rw [hreserve] at htype
          cases htype

theorem Attended.serverStep
    (hi : Informed k p ws) (h : Attended k p ws) (hs : SStep k p k' p') :
    Attended k' p'.home ws where
  registered := h.server_registered hi hs
  started := sstep_starting hs
  interest := h.server_interest hi hs
  connecting := h.server_connecting hi hs
  high := by
    intro hp
    obtain ⟨rfl, hp | hpass⟩ := sstep_passed hs hp
    · exact h.high hp
    · exact List.isEmpty_iff.mp hpass
  low := by
    intro hp
    obtain ⟨rfl, hp | hpass⟩ := sstep_passed hs hp
    · exact h.low hp
    · exact List.isEmpty_iff.mp hpass
  dw := by
    intro hp
    obtain ⟨rfl, hp | hpass⟩ := sstep_passed hs hp
    · exact h.dw hp
    · exact .inl (Option.isNone_iff_eq_none.mp hpass)

end Server

/-! ## Every run -/

/-- What is known of every slot. -/
def Known (k : Socket τ) (p : SPc τ) (ws : τ → WPc τ) : Prop :=
  Exclusive k p ws ∧ Informed k p ws

/-- The conditions under which unsent data are attended to. -/
def SparesConnect : Condition τ := fun k p ws t =>
  SparesOpen k p ws t ∧ SparesInterest k p ws t

section Runs

variable [DecidableEq τ]

theorem stable_known : Stable SparesOpen (Known (τ := τ)) :=
  (stable_exclusive SparesOpen).and stable_informed fun _ _ _ _ h => h

theorem stable_attended :
    StableUnder Known SparesConnect (Attended (τ := τ)) where
  worker := fun _ h hok hs => h.workerStep hok.2 hs
  server := fun hknown h _ hs => h.serverStep hknown.2 hs
  workerEnters := by
    intro k p ws w p' h hw hp
    have hview (v : τ) :
        (Function.update ws w p' v).enabling = (ws v).enabling := by
      by_cases hv : v = w
      · rw [hv, Function.update_self, hw]
        cases hp <;> rfl
      · rw [Function.update_of_ne hv]
    refine ⟨h.registered, h.started, ?_, h.connecting, h.high, h.low, ?_⟩
    · simpa only [hview] using h.interest
    · simpa only [hview] using h.dw
  serverEnters := by
    intro k p' ws h hp
    cases hp <;> exact ⟨h.registered, h.started, h.interest, h.connecting,
      h.high, h.low, h.dw⟩

omit [DecidableEq τ] in
theorem attended_create (i : ℕ) :
    (State.create : State τ).At (fun k p ws => Known k p ws ∧ Attended k p ws)
      i := by
  refine ⟨⟨exclusive_create i, informed_create i⟩, ?_⟩
  have hpoll : (State.create : State τ).serverAt i = .poll :=
    SPc.seen_of_ne (Option.some_ne_none i).symm
  rw [hpoll]
  refine ⟨fun h => ?_, fun h => ?_, fun h => ?_, fun h => ?_, fun h => ?_,
    fun h => ?_, fun h => ?_⟩ <;> cases h

namespace State

theorem attended_of_reaches
    {s : State τ} (h : Reaches step (Meets SparesConnect) create s) (i : ℕ) :
    s.At (fun k p ws => Known k p ws ∧ Attended k p ws) i :=
  reaches_at (stable_known.and stable_attended fun _ _ _ _ h => h.1)
    attended_create h i

/-- In every run in which no `sp_write(..., true)` of a worker falls between
the tests of `report_connect` and its `sp_write(..., false)`, and in which the
failure branch of `open_socket` meets no open socket: a connected socket with
unsent data has write interest whenever the socket thread is not at work on it
and no worker is inside its lock. -/
theorem unsent_data_attended
    {s : State τ} (h : Reaches step (Meets SparesConnect) create s) (i : ℕ)
    (htype : (s.slot i).type = .connected) (hunsent : (s.slot i).Unsent)
    (hserver : s.server.slot ≠ some i)
    (hworker : ∀ w, (s.worker w).slot = some i →
      (s.worker w).locked = false) :
    (s.slot i).poll = some true := by
  obtain ⟨-, hattended⟩ := attended_of_reaches h i
  have hpoll : s.serverAt i = .poll := SPc.seen_of_ne hserver
  rw [hpoll] at hattended
  rcases hattended.interest (by rw [htype]; rfl) hunsent with
    hp | hp | ⟨w, hw⟩ | hp
  · exact hp
  · cases hp
  · by_cases hslot : (s.worker w).slot = some i
    · rw [workersAt, WPc.seen_of_slot hslot] at hw
      have hout := hworker w hslot
      rw [WPc.locked_of_enabling hw] at hout
      cases hout
    · rw [workersAt, WPc.seen_of_ne hslot] at hw
      cases hw
  · cases hp

end State

end Runs

/-! ## A run in which an interest is lost -/

namespace State

/-- The worker calls `socket_server_connect`, which returns the id `1`. -/
def callConnect : List (Option Unit × Act) :=
  (some (), .call (.open .connect)) :: List.replicate 7 (some (), .go)

/-- The worker calls `socket_server_send`, of whose byte the direct write takes
none. -/
def callSend : List (Option Unit × Act) :=
  (some (), .call (.send 1 .send [7])) :: List.replicate 17 (some (), .go) ++
    (some (), .bytes 0) :: List.replicate 3 (some (), .go)

/-- Steps of the socket thread at which both conditions hold for want of a
failed `open_socket` or a `report_connect`. -/
def plainServer (s : State Unit) (_ : Option Unit × Act) : Bool :=
  match s.server with
  | .openFailed _ _ _ | .connectTest _ _ | .connectOff _ => false
  | _ => true

theorem meets_of_plainServer
    (s : State Unit) (l : Option Unit × Act) (h : s.plainServer l = true) :
    s.Meets SparesConnect l := by
  have hpassed (i : ℕ) : (s.serverAt i).passed .dw = false := by
    unfold serverAt SPc.seen
    split
    · cases hp : s.server <;> first | rfl | (rw [plainServer, hp] at h; cases h)
    · rfl
  have hopen (i : ℕ) (id : Id) (again : Bool) (r : Option Report) :
      s.serverAt i ≠ .openFailed id again r := by
    intro he
    unfold serverAt SPc.seen at he
    split at he
    · rw [plainServer, he] at h
      cases h
    · cases he
  unfold Meets
  split
  · intro i _
    exact ⟨nofun, fun w _ _ => hpassed i⟩
  · intro i _
    exact ⟨fun _ id again r he => absurd he (hopen i id again r), nofun⟩

/-- The theorem above for a connection on which a direct write left its
byte. -/
theorem unsent_data_attended_after_send :
    ∃ s : State Unit, (s.slot 1).type = .connected ∧ (s.slot 1).Unsent ∧
      (s.slot 1).poll = some true := by
  refine ⟨_, rfl, ?_, unsent_data_attended
    (reaches_of_execWhile meets_of_plainServer
      (show execWhile step plainServer create
        (callConnect ++ List.replicate 5 (none, .go) ++ callSend) = .next _
        from rfl)) 1 rfl ?_ nofun nofun⟩
  · exact .inr (.inr (Option.some_ne_none _))
  · exact .inr (.inr (Option.some_ne_none _))

/-- The worker writes between the tests of `report_connect` and its
`sp_write(..., false)`: the write interest is off, with a byte unsent and no
thread at work. -/
theorem connect_loses_interest :
    ∃ s : State Unit,
      exec step create
        (callConnect ++
          [(none, .go), (none, .again), (none, .go), (none, .go), (none, .go),
            (none, .go), (none, .ready [⟨some 1, 0, false, true, false, false⟩]),
            (none, .go), (none, .go), (none, .go), (none, .go), (none, .go),
            (none, .go), (none, .go)] ++
          callSend ++ [(none, .go)]) = .next s ∧
      (s.slot 1).type = .connected ∧ (s.slot 1).protocol = .tcp ∧
      (s.slot 1).dw ≠ none ∧ s.server.slot = none ∧ s.worker () = .idle ∧
      (s.slot 1).poll = some false := by
  exact ⟨_, rfl, rfl, rfl, Option.some_ne_none _, rfl, rfl, rfl⟩

end State

end SkynetServer.SocketServer
