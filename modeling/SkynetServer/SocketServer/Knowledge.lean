import SkynetServer.SocketServer.Locks

/-!
# What the threads know about a socket

The types that a socket can have at the positions of the socket thread, and
where the buffer of a direct write can be found.  A worker that has passed its
tests inside the lock finds the socket open until it leaves the lock.

All this rests on the slot being in one pair of hands: the failure branch of
`open_socket` and `add_udp_socket` stores `SOCKET_TYPE_INVALID` into whatever
the slot holds by then.
-/

namespace SkynetServer.SocketServer

open Transition

variable {τ : Type*}

/-! ## Effects of a worker -/

section Effects

variable {k k' : Socket τ} {p p' : WPc τ}

theorem wstep_lists (h : WStep k p k' p') :
    k'.high = k.high ∧ k'.low = k.low := by
  cases h
  case reserve h => cases h <;> exact ⟨rfl, rfl⟩
  all_goals exact ⟨rfl, rfl⟩

theorem wstep_type (h : WStep k p k' p') :
    k'.type = k.type ∨ k.type = .invalid ∧ k'.type = .reserve := by
  cases h
  case reserve h =>
    cases h
    case cas h => exact .inr ⟨h, rfl⟩
    all_goals exact .inl rfl
  all_goals exact .inl rfl

theorem wstep_dw (h : WStep k p k' p') :
    k'.dw = k.dw ∨ ∃ c n, p = .setDw c n ∧ p' = .enable c.id := by
  cases h
  case reserve h => cases h <;> exact .inl rfl
  case setDw c n => exact .inr ⟨c, n, rfl, rfl⟩
  all_goals exact .inl rfl

theorem wstep_poll (h : WStep k p k' p') :
    k'.poll = k.poll ∨
      ∃ id, p = .enable id ∧ k'.poll = k.poll.map fun _ => true := by
  cases h
  case reserve h => cases h <;> exact .inl rfl
  case enable id => exact .inr ⟨id, rfl, rfl⟩
  all_goals exact .inl rfl

/-- Positions of a worker that has passed the tests of `can_direct_write`
inside the lock, up to the test of the type. -/
def WPc.direct : WPc τ → Bool
  | .check locked _ t => locked && t = .udpconnecting
  | .write _ | .setDw _ _ | .enable _ => true
  | _ => false

theorem WPc.locked_of_direct (h : p.direct = true) : p.locked = true := by
  cases p with
  | check locked c t => exact (Bool.and_eq_true_iff.mp h).1
  | write c | setDw c n | enable id => rfl
  | _ => cases h

theorem wstep_direct (h : WStep k p k' p') (hdirect : p'.home.direct = true) :
    p.direct = true ∨ k.type = .connected := by
  have hqueue (c : Call τ) : (queue c).home.direct = false := by
    rcases queue_home c with h | h <;> rw [h] <;> rfl
  cases h
  case reserve o r out h =>
    rcases out with r | n | id <;> cases hdirect
  case accept c h =>
    rcases afterEntry_cases c with hc | hc <;> rw [hc] at hdirect <;>
      cases hdirect
  case pass locked c t h =>
    cases locked <;> cases t
    case true.type => exact .inr (of_decide_eq_true h)
    case true.udpconnecting => exact .inl rfl
    all_goals cases hdirect
  case fail c t | busy c | retry c => simp [hqueue c] at hdirect
  case write c n _ _ _ | sendto c n _ | setDw c n => exact .inl rfl
  all_goals cases hdirect

end Effects

/-! ## Types at the positions of the socket thread -/

/-- The types which `send_buffer` meets: no event of a connecting socket leads
there. -/
def Caller.expects : Caller → SocketType → Bool
  | .event _ _, t => t ≠ .connecting
  | .close _ _, _ => true

/-- The types which the socket thread meets at a position. -/
def SPc.expects : SPc τ → SocketType → Bool
  | .setType _ _, t => t = .reserve
  | .startAdd _, t => t = .paccept || t = .plisten
  | .startType _, t => t = .paccept || t = .plisten
  | .connect _ _, t => t = .connecting
  | .connectTest _ _, t => t = .connected
  | .connectOff _, t => t = .connected
  | .sendBuffer f, t => f.expects t
  | .takeDw f, t => f.expects t
  | .sendList f _, t => f.expects t
  | .raise f, t => f.expects t
  | .turnOff f, t => f.expects t
  | .sent f, t => f.expects t
  | .unlock f _, t => f.expects t
  | .freeLow _ _ _, t => t ≠ .invalid && t ≠ .reserve
  | .del _ _ _, t => t ≠ .invalid && t ≠ .reserve
  | .closeLock _ _ _, t => t ≠ .invalid && t ≠ .reserve
  | .invalidate _ _, t => t ≠ .invalid && t ≠ .reserve
  | .freeDw _ _, t => t = .invalid || t = .reserve
  | .closeUnlock _ _, t => t = .invalid || t = .reserve
  | _, _ => true

/-- Positions behind the point at which `send_buffer` takes the buffer of a
direct write. -/
def SPc.sweeping : SPc τ → Bool
  | .sendList _ _ | .raise _ | .turnOff _ | .sent _ => true
  | _ => false

/-- The position behind `new_fd`. -/
def SPc.fresh : SPc τ → Option NewFd
  | .setType _ n => some n
  | _ => none

/-- The position at which `send_buffer` takes the buffer of a direct write. -/
def SPc.taking : SPc τ → Bool
  | .takeDw _ => true
  | _ => false

theorem SPc.locked_of_sweeping {p : SPc τ} (h : p.sweeping = true) :
    p.locked = true := by
  cases p <;> first | rfl | cases h

/-- The socket is open to direct writes, or was until it was half-closed. -/
def SocketType.opened : SocketType → Bool
  | .connected | .halfclose => true
  | _ => false

/-- The failure branch of `open_socket` does not meet an open socket. -/
def SparesOpen : Condition τ := fun k p _ t =>
  t = none → ∀ id again r, p = .openFailed id again r →
    k.type = .invalid ∨ k.type = .reserve

theorem SPc.expects_reserve {p : SPc τ} (h : p.expects .invalid = true) :
    p.expects .reserve = true := by
  cases p
  case sendBuffer f | takeDw f | sendList f _ | raise f | turnOff f | sent f
      | unlock f _ => cases f <;> rfl
  all_goals first | rfl | cases h

section ServerEffects

variable {k k' : Socket τ} {p p' : SPc τ}

theorem append_warn_type (k : Socket τ) (low : Bool) (b : WriteBuffer τ) :
    (k.append low b).warn.type = k.type := by
  unfold Socket.warn Socket.append
  split <;> split <;> rfl

theorem setList_type (k : Socket τ) (low : Bool) (l : List (WriteBuffer τ))
    (n : ℕ) : (k.setList low l n).type = k.type := by
  cases low <;> rfl

/-- What a step does to the type. -/
inductive TypeStep (k k' : Socket τ) (p p' : SPc τ) : Prop
  | same (h : k'.type = k.type)
  | setType (id : Id) (n : NewFd) (hp : p = .setType id n)
      (hk : k' = { k with type := newType n }) (hp' : p' = afterType id n)
  | newFdFails (id : Id) (n : NewFd) (hp : p = .newFd id n)
      (h : k.type = .reserve) (hk : k' = { k with type := .invalid })
  | openFailed (id : Id) (again : Bool) (r : Option Report)
      (hp : p = .openFailed id again r) (hk : k' = { k with type := .invalid })
      (hp' : p'.Ends)
  | startType (id : Id) (hp : p = .startType id)
      (hk : k' =
        { k with type := if k.type = .paccept then .connected else .listen })
      (hp' : p' = .ret ⟨.open, id, 0⟩)
  | halfclose (id : Id) (hp : p = .halfclose id)
      (hk : k' = { k with type := .halfclose }) (hp' : p' = .poll)
  | invalidate (i : ℕ) (f : Closing) (hp : p = .invalidate i f)
      (hk : k' = { k with type := .invalid }) (hp' : p' = .freeDw i f)
  | connect (i : ℕ) (id : Id) (hp : p = .connect i id)
      (hk : k' = { k with type := .connected })
      (hp' : p' = .connectTest i .high)
  | cas (listener : Id) (n : ℕ) (id : Id)
      (hp : p = .acceptReserve listener (.cas n id)) (h : k.type = .invalid)
      (hk : k' = { k with type := .reserve })
      (hp' : p' = .acceptReserve listener (.setId id))

theorem sstep_type (h : SStep k p k' p') : TypeStep k k' p p' := by
  cases h
  case queueFirst | queue => exact .same (append_warn_type k _ _)
  case newFdBind id n r htype | newFdFails id n r htype =>
    exact .newFdFails id n rfl htype rfl
  case setType id n => exact .setType id n rfl rfl rfl
  case openFailed id again r hends =>
    exact .openFailed id again r rfl rfl hends
  case startType id => exact .startType id rfl rfl rfl
  case halfclose id => exact .halfclose id rfl rfl rfl
  case takeDw f =>
    apply TypeStep.same
    unfold Socket.takeDw
    split <;> rfl
  case sendAll f low b rest _ _ | sendPart f low b rest n _ _ _
      | udpSend f low b rest _ _ | udpDrop f low b rest _ _ =>
    cases low <;> exact .same rfl
  case del i held f =>
    apply TypeStep.same
    unfold stepDel
    split <;> rfl
  case invalidate i f => exact .invalidate i f rfl rfl rfl
  case connect i id => exact .connect i id rfl rfl rfl
  case reserve listener r out h =>
    cases h
    case cas n id htype => exact .cas listener n id rfl htype rfl rfl
    all_goals exact .same rfl
  all_goals exact .same rfl

theorem sstep_expects (hexp : p.expects k.type = true) (h : SStep k p k' p') :
    p'.home.expects k'.type = true := by
  have hends {q : SPc τ} (hq : q.Ends) (t : SocketType) :
      q.home.expects t = true := hq.role (SPc.expects · t) rfl
  have hsend (c : Call τ) (r : Option Report) (t : SocketType) :
      (afterSend c r).home.expects t = true :=
    afterSend_role (SPc.expects · t) c r rfl rfl
  have hbuffer (f : Caller) (r : Option Report) (t : SocketType) :
      (afterBuffer (τ := τ) f r).home.expects t = true :=
    afterBuffer_role (SPc.expects · t) f r rfl (fun _ => rfl) fun _ => rfl
  have hlist (k : Socket τ) (f : Caller) (low : Bool) (t : SocketType)
      (hf : f.expects t = true) : (afterList k f low).home.expects t = true :=
    afterList_role (SPc.expects · t) k f low hf hf hf hf
  cases h
  case dispatchConnect e i _ h => exact decide_eq_true h
  case dispatchWrite e i _ h =>
    cases htype : k.type <;> rw [htype] at h <;> first | rfl | cases h
  case cmdStart id _ h =>
    rcases h with h | h <;> rw [h] <;> rfl
  case cmdEnd hq | openFailed hq | acceptEnd hq => exact hends hq _
  case drop c r | queue c _ r _ _ _ _ => exact hsend c r _
  case newFd id n htype _ => exact decide_eq_true htype
  case setType id n => exact afterType_role (SPc.expects · _) id n rfl rfl rfl
  case sendEnable c r => exact hsend c r _
  case decOther c r _ | dec c r _ _ | decUdp c r _ =>
    exact hends (ends_finish r) _
  case busy f => exact hbuffer f none _
  case takeDw f =>
    have h : k.takeDw.type = k.type := by
      unfold Socket.takeDw
      split <;> rfl
    rw [h]
    exact hexp
  case listEnd f low => exact hlist k f low _ hexp
  case sendAll f low b rest _ _ => cases low <;> exact hexp
  case sendPart f low b rest n _ _ _ | udpDrop f low b rest _ _ =>
    refine hlist _ f low _ ?_
    cases low <;> exact hexp
  case udpSend f low b rest _ _ => cases low <;> exact hexp
  case unlock f r => exact hbuffer f r _
  case freeHigh i held f h1 h2 =>
    exact Bool.and_eq_true_iff.mpr ⟨decide_eq_true h1, decide_eq_true h2⟩
  case freeInvalid i f _ | closeUnlock i f => exact hends (ends_afterClose f) _
  case freeInvalidHeld i f h => exact Bool.or_eq_true_iff.mpr (.inl (decide_eq_true h))
  case del i held f =>
    unfold stepDel
    split <;> exact hexp
  case reserve listener r out h =>
    rcases out with r | n | id <;> rfl
  all_goals first | rfl | exact hexp

/-- An open socket stays open until its type is set under the lock. -/
theorem sstep_opened
    {ws : τ → WPc τ} (hok : SparesOpen k p ws none)
    (hexp : p.expects k.type = true) (hopen : k.type.opened = true)
    (h : SStep k p k' p') :
    k'.type.opened = true ∨ ∃ i f, p = .invalidate i f ∧ p' = .freeDw i f := by
  cases sstep_type h with
  | same hsame =>
      rw [hsame]
      exact .inl hopen
  | setType id n hp =>
      rw [hp] at hexp
      rw [show k.type = .reserve from of_decide_eq_true hexp] at hopen
      cases hopen
  | newFdFails id n _ htype | cas _ _ _ _ htype =>
      rw [htype] at hopen
      cases hopen
  | openFailed id again r hp =>
      rcases hok rfl id again r hp with h | h <;> rw [h] at hopen <;>
        cases hopen
  | startType id hp =>
      rw [hp] at hexp
      rcases Bool.or_eq_true_iff.mp hexp with h | h <;>
        rw [of_decide_eq_true h] at hopen <;> cases hopen
  | halfclose id _ hk | connect i id _ hk =>
      rw [hk]
      exact .inl rfl
  | invalidate i f hp _ hp' => exact .inr ⟨i, f, hp, hp'⟩

theorem sstep_dw (h : SStep k p k' p') : k'.dw = k.dw ∨ k'.dw = none := by
  cases h
  case queueFirst c low _ _ _ _ _ _ _ | queue c _ _ _ _ _ _ =>
    unfold Socket.warn Socket.append
    split <;> split <;> exact .inl rfl
  case takeDw f =>
    unfold Socket.takeDw
    split
    · exact .inl rfl
    · exact .inr rfl
  case sendAll f low b rest _ _ | sendPart f low b rest n _ _ _
      | udpSend f low b rest _ _ | udpDrop f low b rest _ _ =>
    cases low <;> exact .inl rfl
  case del i held f =>
    unfold stepDel
    split <;> exact .inl rfl
  case reserve h => cases h <;> exact .inl rfl
  all_goals first | exact .inl rfl | exact .inr rfl

/-- The buffer of a direct write has been taken before a sweep. -/
theorem sstep_sweeping
    (h : SStep k p k' p') (hp : p'.home.sweeping = true) :
    p.sweeping = true ∨ k'.dw = none := by
  have hends {q : SPc τ} (hq : q.Ends) : q.home.sweeping = false :=
    hq.role SPc.sweeping rfl
  have hsend (c : Call τ) (r : Option Report) :
      (afterSend c r).home.sweeping = false :=
    afterSend_role SPc.sweeping c r rfl rfl
  have hbuffer (f : Caller) (r : Option Report) :
      (afterBuffer (τ := τ) f r).home.sweeping = false :=
    afterBuffer_role SPc.sweeping f r rfl (fun _ => rfl) fun _ => rfl
  cases h
  case cmdEnd hq | openFailed hq | acceptEnd hq => simp [hends hq] at hp
  case drop c r | queue c _ r _ _ _ _ => simp [hsend] at hp
  case setType id n =>
    have hout : (afterType (τ := τ) id n).home.sweeping = false :=
      afterType_role SPc.sweeping id n rfl rfl rfl
    rw [hout] at hp
    cases hp
  case sendEnable c r => simp [hsend] at hp
  case decOther c r _ | dec c r _ _ | decUdp c r _ =>
    simp [hends (ends_finish r)] at hp
  case busy f => simp [hbuffer] at hp
  case takeDw f =>
    unfold Socket.takeDw
    split
    · exact .inr ‹_›
    · exact .inr rfl
  case unlock f r => simp [hbuffer] at hp
  case freeInvalid i f _ | closeUnlock i f =>
    simp [hends (ends_afterClose f)] at hp
  case reserve out _ => rcases out with r | n | id <;> cases hp
  all_goals first | exact .inl rfl | cases hp

end ServerEffects

/-! ## The invariant -/

/-- The lists are empty. -/
def Socket.Drained (k : Socket τ) : Prop := k.high = [] ∧ k.low = []

theorem Socket.drained_of_sendBufferEmpty
    {k : Socket τ} (h : k.sendBufferEmpty = true) : k.Drained := by
  obtain ⟨hh, hl⟩ := Bool.and_eq_true_iff.mp h
  exact ⟨List.isEmpty_iff.mp hh, List.isEmpty_iff.mp hl⟩

section ServerLists

variable {k k' : Socket τ} {p p' : SPc τ}

theorem sstep_fresh
    (h : SStep k p k' p') {n : NewFd} (hp : p'.home.fresh = some n) :
    k'.Drained ∧ (n.add = true → k'.poll ≠ none) := by
  have hends {q : SPc τ} (hq : q.Ends) : q.home.fresh = none :=
    hq.role SPc.fresh rfl
  have hsend (c : Call τ) (r : Option Report) :
      (afterSend c r).home.fresh = none :=
    afterSend_role SPc.fresh c r rfl rfl
  have hbuffer (f : Caller) (r : Option Report) :
      (afterBuffer (τ := τ) f r).home.fresh = none :=
    afterBuffer_role SPc.fresh f r rfl (fun _ => rfl) fun _ => rfl
  have hlist (k : Socket τ) (f : Caller) (low : Bool) :
      (afterList k f low).home.fresh = none :=
    afterList_role SPc.fresh k f low rfl rfl rfl rfl
  cases h
  case cmdEnd hq => simp [hends hq] at hp
  case drop c r | queue c _ r _ _ _ _ => simp [hsend] at hp
  case newFd id m _ hempty =>
    cases hp
    refine ⟨Socket.drained_of_sendBufferEmpty hempty, fun hadd => ?_⟩
    simp [Socket.newFd, hadd]
  case setType id m =>
    have hout : (afterType (τ := τ) id m).home.fresh = none :=
      afterType_role SPc.fresh id m rfl rfl rfl
    simp [hout] at hp
  case openFailed hq => simp [hends hq] at hp
  case sendEnable c r => simp [hsend] at hp
  case decOther c r _ | dec c r _ _ | decUdp c r _ =>
    simp [hends (ends_finish r)] at hp
  case busy f => simp [hbuffer] at hp
  case listEnd f low | sendPart f low b rest m _ _ _
      | udpDrop f low b rest _ _ => simp [hlist] at hp
  case unlock f r => simp [hbuffer] at hp
  case freeInvalid i f _ | closeUnlock i f =>
    simp [hends (ends_afterClose f)] at hp
  case acceptEnd hq => simp [hends hq] at hp
  case reserve out _ => rcases out with r | m | id <;> cases hp
  all_goals cases hp

/-- The lists of a socket to which nobody sends stay empty. -/
theorem sstep_drained
    (hd : k.Drained) (hdw : p.taking = true → k.dw = none)
    (hdeaf : k.type.deaf = true) (h : SStep k p k' p') : k'.Drained := by
  have hnone {low : Bool} {b : WriteBuffer τ} {rest : List (WriteBuffer τ)}
      (hlist : k.list low = b :: rest) : False := by
    unfold Socket.list at hlist
    split at hlist
    · rw [hd.2] at hlist
      cases hlist
    · rw [hd.1] at hlist
      cases hlist
  cases h
  case queueFirst htype _ _ _ | queue htype _ _ =>
    rw [htype] at hdeaf
    cases hdeaf
  case takeDw f =>
    unfold Socket.takeDw
    rw [hdw rfl]
    exact hd
  case sendAll hlist | sendPart hlist _ | udpSend hlist | udpDrop hlist =>
    exact (hnone hlist).elim
  case raise hlow =>
    rw [hd.2] at hlow
    cases hlow
  case freeHigh => exact ⟨rfl, hd.2⟩
  case freeLow => exact ⟨hd.1, rfl⟩
  case del i held f =>
    unfold stepDel
    split <;> exact hd
  case reserve h => cases h <;> exact hd
  all_goals exact hd

theorem sstep_paccept
    (h : SStep k p k' p') (hold : k.type ≠ .paccept)
    (hnew : k'.type = .paccept) :
    ∃ n, p.fresh = some n ∧ k'.high = k.high ∧ k'.low = k.low := by
  cases sstep_type h with
  | same hsame => exact absurd (hsame ▸ hnew) hold
  | setType id n hp hk =>
      rw [hp, hk]
      exact ⟨n, rfl, rfl, rfl⟩
  | startType id _ hk =>
      rw [hk] at hnew
      simp only at hnew
      split at hnew <;> cases hnew
  | newFdFails _ _ _ _ hk | openFailed _ _ _ _ hk | halfclose _ _ hk
  | invalidate _ _ _ hk | connect _ _ _ hk | cas _ _ _ _ _ hk =>
      rw [hk] at hnew
      cases hnew

end ServerLists

/-- What the threads know about the socket. -/
structure Informed (k : Socket τ) (p : SPc τ) (ws : τ → WPc τ) : Prop where
  direct : ∀ w, (ws w).direct = true → k.type.opened = true
  dw : k.dw ≠ none → k.type.opened = true ∨ ∃ i f, p = .freeDw i f
  swept : p.sweeping = true → k.dw = none
  expected : p.expects k.type = true
  fresh : ∀ n, p.fresh = some n →
    k.Drained ∧ (n.add = true → k.poll ≠ none)
  waiting : k.type = .paccept → k.Drained

section Stability

variable [DecidableEq τ] {k k' : Socket τ} {p : SPc τ} {ws : τ → WPc τ} {w : τ}

theorem Informed.workerStep
    (hlock : Exclusive k p ws) (h : Informed k p ws) {q : WPc τ}
    (hs : WStep k (ws w) k' q) :
    Informed k' p (Function.update ws w q.home) where
  direct := by
    have htype (ho : k.type.opened = true) : k'.type.opened = true := by
      rcases wstep_type hs with ht | ⟨ht, -⟩
      · rwa [ht]
      · rw [ht] at ho
        cases ho
    intro v hv
    by_cases hvw : v = w
    · subst hvw
      rw [Function.update_self] at hv
      apply htype
      rcases wstep_direct hs hv with hd | hc
      · exact h.direct v hd
      · rw [hc]
        rfl
    · rw [Function.update_of_ne hvw] at hv
      exact htype (h.direct v hv)
  dw := by
    intro hdw
    rcases wstep_dw hs with hk | ⟨c, n, hp, -⟩
    · rw [hk] at hdw
      rcases h.dw hdw with ho | hp
      · rcases wstep_type hs with ht | ⟨ht, -⟩
        · exact .inl (by rwa [ht])
        · rw [ht] at ho
          cases ho
      · exact .inr hp
    · have ho := h.direct w (by rw [hp]; rfl)
      rcases wstep_type hs with ht | ⟨ht, -⟩
      · exact .inl (by rwa [ht])
      · rw [ht] at ho
        cases ho
  swept := by
    intro hp
    rcases wstep_dw hs with hk | ⟨c, n, hw, -⟩
    · rw [hk]
      exact h.swept hp
    · have hout := (hlock.worker w (by rw [hw]; rfl)).2
      rw [SPc.locked_of_sweeping hp] at hout
      cases hout
  expected := by
    rcases wstep_type hs with ht | ⟨ht, ht'⟩
    · rw [ht]
      exact h.expected
    · rw [ht']
      exact SPc.expects_reserve (ht ▸ h.expected)
  fresh := by
    intro n hp
    obtain ⟨hd, hpoll⟩ := h.fresh n hp
    obtain ⟨hh, hl⟩ := wstep_lists hs
    refine ⟨⟨hh.trans hd.1, hl.trans hd.2⟩, fun hadd => ?_⟩
    rcases wstep_poll hs with hk | ⟨_, _, hk⟩
    · rw [hk]
      exact hpoll hadd
    · rw [hk]
      simpa using hpoll hadd
  waiting := by
    intro ht
    obtain ⟨hh, hl⟩ := wstep_lists hs
    rcases wstep_type hs with hk | ⟨-, hk⟩
    · have hd := h.waiting (hk ▸ ht)
      exact ⟨hh.trans hd.1, hl.trans hd.2⟩
    · rw [hk] at ht
      cases ht

omit [DecidableEq τ] in
theorem Informed.serverStep
    (hlock : Exclusive k p ws) (h : Informed k p ws)
    (hok : SparesOpen k p ws none) {q : SPc τ} (hs : SStep k p k' q) :
    Informed k' q.home ws where
  direct := by
    intro v hv
    rcases sstep_opened hok h.expected (h.direct v hv) hs with ho |
      ⟨i, f, hp, -⟩
    · exact ho
    · have hout := hlock.worker_outside (by rw [hp]; rfl) v
      rw [WPc.locked_of_direct hv] at hout
      cases hout
  dw := by
    intro hdw
    have hk : k'.dw = k.dw := by
      rcases sstep_dw hs with hk | hk
      · exact hk
      · exact absurd hk hdw
    rcases h.dw (hk ▸ hdw) with ho | ⟨i, f, rfl⟩
    · rcases sstep_opened hok h.expected ho hs with ho | ⟨i, f, -, rfl⟩
      · exact .inl ho
      · exact .inr ⟨i, f, rfl⟩
    · cases hs
      exact absurd rfl hdw
  swept := by
    intro hp
    rcases sstep_sweeping hs hp with hp | hk
    · rcases sstep_dw hs with hk | hk
      · rw [hk]
        exact h.swept hp
      · exact hk
    · exact hk
  expected := sstep_expects h.expected hs
  fresh := fun n hp => sstep_fresh hs hp
  waiting := by
    intro ht
    by_cases hold : k.type = .paccept
    · refine sstep_drained (h.waiting hold) ?_ (by rw [hold]; rfl) hs
      intro hp
      by_contra hdw
      rcases h.dw hdw with ho | ⟨i, f, rfl⟩
      · rw [hold] at ho
        cases ho
      · cases hp
    · obtain ⟨n, hp, hh, hl⟩ := sstep_paccept hs hold ht
      obtain ⟨hd, -⟩ := h.fresh n hp
      exact ⟨hh.trans hd.1, hl.trans hd.2⟩

theorem stable_informed :
    StableUnder Exclusive SparesOpen (Informed (τ := τ)) where
  worker := fun hlock h _ hs => h.workerStep hlock hs
  server := fun hlock h hok hs => h.serverStep hlock hok hs
  workerEnters := by
    intro k p ws w p' h hw hp
    refine ⟨fun v hv => ?_, h.dw, h.swept, h.expected, h.fresh, h.waiting⟩
    by_cases hvw : v = w
    · rw [hvw, Function.update_self] at hv
      cases hp <;> cases hv
    · rw [Function.update_of_ne hvw] at hv
      exact h.direct v hv
  serverEnters := by
    intro k p' ws h hp
    refine ⟨h.direct, fun hdw => ?_, fun hs => ?_, ?_, fun n hn => ?_,
      h.waiting⟩
    · rcases h.dw hdw with ho | ⟨i, f, hf⟩
      · exact .inl ho
      · cases hf
    · cases hp <;> cases hs
    · cases hp <;> rfl
    · cases hp <;> cases hn

end Stability

theorem informed_create (i : ℕ) :
    (State.create : State τ).At Informed i := by
  have hidle (w : τ) : (State.create : State τ).workersAt i w = .idle :=
    WPc.seen_of_ne (Option.some_ne_none i).symm
  have hpoll : (State.create : State τ).serverAt i = .poll :=
    SPc.seen_of_ne (Option.some_ne_none i).symm
  unfold State.At
  rw [hpoll]
  refine ⟨fun w hw => ?_, fun hdw => absurd rfl hdw, fun hs => ?_, rfl,
    fun n hn => ?_, fun ht => ?_⟩
  · rw [hidle] at hw
    cases hw
  · cases hs
  · cases hn
  · cases ht

end SkynetServer.SocketServer
