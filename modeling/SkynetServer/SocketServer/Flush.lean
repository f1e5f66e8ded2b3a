import SkynetServer.SocketServer.Interest

/-!
# Packages in the send lists

`send_socket` turns the write interest on only for a connected socket whose
lists are empty.  In the other cases it counts on the interest being on
already, which is so for a socket that is being connected and for one that has
something in its lists.  It is not so for a socket of type `SOCKET_TYPE_BIND`,
nor for a slot that is reserved.
-/

namespace SkynetServer.SocketServer

open Transition

variable {τ : Type*}

/-- The types whose send lists are written to the fd. -/
def SocketType.sends : SocketType → Bool
  | .connecting | .connected | .halfclose => true
  | _ => false

/-- The position of `force_close` between the high list and the low list. -/
def SPc.freeing : SPc τ → Bool
  | .freeLow _ _ _ => true
  | _ => false

/-- Positions of `force_close` behind the lists. -/
def SPc.freed : SPc τ → Bool
  | .del _ _ _ | .closeLock _ _ _ | .invalidate _ _ => true
  | _ => false

/-- No package is sent to a bound socket, or to a reserved slot. -/
def SparesBound : Condition τ := fun k p _ t => t = none →
  ∀ c : Call τ, p = .cmd (.send c.id c.package) → k.id = c.id →
    k.type ≠ .bind ∧ k.type ≠ .reserve

/-- The conditions under which the packages in the send lists are flushed. -/
def SparesQueue : Condition τ := fun k p ws t =>
  SparesConnect k p ws t ∧ SparesBound k p ws t

/-- The socket is in the poll set for its packages. -/
structure Flushed (k : Socket τ) (p : SPc τ) (ws : τ → WPc τ) : Prop where
  typed : ¬k.Drained → k.type.sends = true
  freeing : p.freeing = true → k.high = []
  freed : p.freed = true → k.Drained
  enabling : p.enabling = true → k.type.connects = true
  lists : ¬k.Drained → k.poll = some true ∨ p.enabling = true
  kept : k.type = .halfclose →
    k.dw ≠ none ∨ (∃ w, (ws w).direct = true) →
      k.poll ≠ none ∨ p.closing = true
  halfclosed : k.type = .halfclose → k.dw ≠ none →
    k.poll = some true ∨ (∃ w, (ws w).enabling = true) ∨ p.closing = true

/-! ## Steps of a worker -/

section Worker

variable [DecidableEq τ] {k k' : Socket τ} {p : SPc τ} {ws : τ → WPc τ} {w : τ}
  {q : WPc τ}

omit [DecidableEq τ] in
theorem wstep_drained {q' : WPc τ} (h : WStep k q' k' q) :
    k'.Drained ↔ k.Drained := by
  obtain ⟨hhigh, hlow⟩ := wstep_lists h
  rw [Socket.Drained, Socket.Drained, hhigh, hlow]

omit [DecidableEq τ] in
/-- A worker changes no type but that of a free slot. -/
theorem wstep_type_eq
    {q' : WPc τ} (h : WStep k q' k' q) (htype : k.type ≠ .invalid) :
    k'.type = k.type := by
  rcases wstep_type h with ht | ⟨ht, -⟩
  · exact ht
  · exact absurd ht htype

omit [DecidableEq τ] in
theorem wstep_halfclose
    {q' : WPc τ} (h : WStep k q' k' q) (htype : k'.type = .halfclose) :
    k.type = .halfclose := by
  rcases wstep_type h with ht | ⟨-, ht⟩
  · rw [← ht, htype]
  · rw [ht] at htype
    cases htype

theorem Flushed.workerStep
    (h : Flushed k p ws) (hs : WStep k (ws w) k' q) :
    Flushed k' p (Function.update ws w q.home) where
  typed := by
    intro hd
    have hold := h.typed fun hk => hd ((wstep_drained hs).mpr hk)
    have htype : k.type ≠ .invalid := by
      intro hk
      rw [hk] at hold
      cases hold
    rw [wstep_type_eq hs htype]
    exact hold
  freeing := fun hp => (wstep_lists hs).1.trans (h.freeing hp)
  freed := fun hp => (wstep_drained hs).mpr (h.freed hp)
  enabling := by
    intro hp
    have hold := h.enabling hp
    have htype : k.type ≠ .invalid := by
      intro hk
      rw [hk] at hold
      cases hold
    rw [wstep_type_eq hs htype]
    exact hold
  lists := by
    intro hd
    rcases h.lists fun hk => hd ((wstep_drained hs).mpr hk) with hpoll | hp
    · exact .inl (wstep_poll_true hs hpoll)
    · exact .inr hp
  kept := by
    intro htype hor
    have hold := wstep_halfclose hs htype
    have hbefore : k.dw ≠ none ∨ ∃ v, (ws v).direct = true := by
      rcases hor with hdw | ⟨v, hv⟩
      · rcases wstep_dw hs with hk | ⟨c, n, hw, -⟩
        · exact .inl (hk ▸ hdw)
        · exact .inr ⟨w, by rw [hw]; rfl⟩
      · by_cases hvw : v = w
        · rw [hvw, Function.update_self] at hv
          rcases wstep_direct hs hv with hd | hc
          · exact .inr ⟨w, hd⟩
          · rw [hold] at hc
            cases hc
        · rw [Function.update_of_ne hvw] at hv
          exact .inr ⟨v, hv⟩
    rcases h.kept hold hbefore with hpoll | hp
    · exact .inl (wstep_poll_some hs hpoll)
    · exact .inr hp
  halfclosed := by
    intro htype hdw
    have hold := wstep_halfclose hs htype
    rcases wstep_dw hs with hk | ⟨c, n, -, hq⟩
    · rcases h.halfclosed hold (hk ▸ hdw) with hpoll | ⟨v, hv⟩ | hp
      · exact .inl (wstep_poll_true hs hpoll)
      · by_cases hvw : v = w
        · subst hvw
          rcases h.kept hold (.inl (hk ▸ hdw)) with hpoll | hp
          · refine .inl ?_
            rw [wstep_enabling hs hv]
            obtain ⟨b, hb⟩ := Option.ne_none_iff_exists'.mp hpoll
            rw [hb]
            rfl
          · exact .inr (.inr hp)
        · exact .inr (.inl (enabling_update hv hvw))
      · exact .inr (.inr hp)
    · exact .inr (.inl (enabling_of_setDw hq))

end Worker

/-! ## Steps of the socket thread -/

section Server

variable {k k' : Socket τ} {p p' : SPc τ}

/-- How packages come to be in the lists. -/
inductive ListStep (k k' : Socket τ) (p p' : SPc τ) : Prop
  | same (h : ¬k.Drained)
  | first (hp : p'.home.enabling = true) (htype : k.type = .connected)
      (htype' : k'.type = k.type)
  | queue (c : Call τ) (hp : p = .cmd (.send c.id c.package))
      (hid : k.id = c.id) (htype : k.type.deaf = false)
      (hne : k.type ≠ .connected) (htype' : k'.type = k.type)
      (hpoll : k'.poll = k.poll)
  | take (f : Caller) (hp : p = .takeDw f) (hdw : k.dw ≠ none)
      (htype' : k'.type = k.type) (hpoll : k'.poll = k.poll)

theorem not_drained_of_list
    {low : Bool} {b : WriteBuffer τ} {rest : List (WriteBuffer τ)}
    (h : k.list low = b :: rest) : ¬k.Drained := by
  rintro ⟨hhigh, hlow⟩
  cases low with
  | false =>
      rw [Socket.list, if_neg Bool.false_ne_true, hhigh] at h
      cases h
  | true =>
      rw [Socket.list, if_pos rfl, hlow] at h
      cases h

theorem sstep_lists (h : SStep k p k' p') (hd : ¬k'.Drained) :
    ListStep k k' p p' := by
  cases h
  case queueFirst c low address r hid htype _ _ _ =>
    exact .first rfl htype (append_warn_type k _ _)
  case queue c address r hid htype hused _ =>
    by_cases hc : k.type = .connected
    · refine .same fun hk => ?_
      have hempty := hused hc
      rw [Socket.sendBufferEmpty, hk.1, hk.2] at hempty
      cases hempty
    · refine .queue c rfl hid htype hc (append_warn_type k _ _) ?_
      unfold Socket.warn Socket.append
      split <;> split <;> rfl
  case takeDw f =>
    by_cases hdw : k.dw = none
    · refine .same ?_
      unfold Socket.takeDw at hd
      rw [hdw] at hd
      exact hd
    · refine .take f rfl hdw ?_ ?_ <;> unfold Socket.takeDw <;> split <;> rfl
  case sendAll hl | sendPart hl _ | udpSend hl | udpDrop hl =>
    exact .same (not_drained_of_list hl)
  case raise f b rest _ hlow =>
    refine .same fun hk => ?_
    rw [hk.2] at hlow
    cases hlow
  case freeHigh => exact .same fun hk => hd ⟨rfl, hk.2⟩
  case freeLow => exact .same fun hk => hd ⟨hk.1, rfl⟩
  case del =>
    refine .same ?_
    unfold stepDel at hd
    split at hd <;> exact hd
  case reserve h => cases h <;> exact .same hd
  all_goals exact .same hd

/-- What a step that leaves packages in the lists does to the poll set. -/
inductive KeepStep (k k' : Socket τ) (p : SPc τ) : Prop
  | same (h : k'.poll = k.poll)
  | enable (hp : p.enabling = true) (h : k'.poll = k.poll.map fun _ => true)
  | add (id : Id) (hp : p = .startAdd id)
  | connectOff (i : ℕ) (hp : p = .connectOff i)
  | newFd (htype : k.type = .reserve)

theorem sstep_keep
    (hfreed : p.freed = true → k.Drained) (h : SStep k p k' p')
    (hd : ¬k'.Drained) : KeepStep k k' p := by
  cases h
  case queueFirst | queue =>
    apply KeepStep.same
    unfold Socket.warn Socket.append
    split <;> split <;> rfl
  case newFd id n htype _ => exact .newFd htype
  case openEnable id => exact .enable rfl rfl
  case startAdd id => exact .add id rfl
  case sendEnable c r => exact .enable rfl rfl
  case takeDw f =>
    apply KeepStep.same
    unfold Socket.takeDw
    split <;> rfl
  case sendAll f low b rest _ _ | sendPart f low b rest n _ _ _
      | udpSend f low b rest _ _ | udpDrop f low b rest _ _ =>
    cases low <;> exact .same rfl
  case turnOff f hempty _ =>
    exact absurd (Socket.drained_of_sendBufferEmpty hempty) hd
  case del i held f =>
    have hold := hfreed rfl
    refine absurd ?_ hd
    unfold stepDel
    split <;> exact hold
  case connectOff i r => exact .connectOff i rfl
  case reserve h => cases h <;> exact .same rfl
  all_goals exact .same rfl

/-- The interest is turned on for a socket that waits for it. -/
theorem sstep_to_enabling
    (h : SStep k p k' p') (hp : p'.home.enabling = true) :
    k'.type.connects = true := by
  have hends {q : SPc τ} (hq : q.Ends) : q.home.enabling = false :=
    hq.role SPc.enabling rfl
  have hsend (c : Call τ) (r : Option Report) :
      (afterSend c r).home.enabling = false :=
    afterSend_role SPc.enabling c r rfl rfl
  have hbuffer (f : Caller) (r : Option Report) :
      (afterBuffer (τ := τ) f r).home.enabling = false :=
    afterBuffer_role SPc.enabling f r rfl (fun _ => rfl) fun _ => rfl
  have hlist (k : Socket τ) (f : Caller) (low : Bool) :
      (afterList k f low).home.enabling = false :=
    afterList_role SPc.enabling k f low rfl rfl rfl rfl
  cases h
  case cmdEnd hq => simp [hends hq] at hp
  case drop c r | queue c _ r _ _ _ _ | sendEnable c r => simp [hsend] at hp
  case queueFirst c low address r hid htype _ _ _ =>
    rw [append_warn_type, htype]
    rfl
  case setType id n =>
    cases n with
    | «open» connected =>
        cases connected
        · rfl
        · cases hp
    | _ => cases hp
  case openFailed hq => simp [hends hq] at hp
  case decOther c r _ | dec c r _ _ | decUdp c r _ =>
    simp [hends (ends_finish r)] at hp
  case busy f => simp [hbuffer] at hp
  case listEnd f low | sendPart f low b rest m _ _ _
      | udpDrop f low b rest _ _ => simp [hlist] at hp
  case unlock f r => simp [hbuffer] at hp
  case freeInvalid i f _ | closeUnlock i f =>
    simp [hends (ends_afterClose f)] at hp
  case acceptEnd hq => simp [hends hq] at hp
  case reserve out _ => rcases out with r | m | id <;> cases hp
  all_goals cases hp

theorem sstep_freeing
    (h : SStep k p k' p') (hp : p'.home.freeing = true) : k'.high = [] := by
  have hends {q : SPc τ} (hq : q.Ends) : q.home.freeing = false :=
    hq.role SPc.freeing rfl
  have hsend (c : Call τ) (r : Option Report) :
      (afterSend c r).home.freeing = false :=
    afterSend_role SPc.freeing c r rfl rfl
  have hbuffer (f : Caller) (r : Option Report) :
      (afterBuffer (τ := τ) f r).home.freeing = false :=
    afterBuffer_role SPc.freeing f r rfl (fun _ => rfl) fun _ => rfl
  have hlist (k : Socket τ) (f : Caller) (low : Bool) :
      (afterList k f low).home.freeing = false :=
    afterList_role SPc.freeing k f low rfl rfl rfl rfl
  cases h
  case cmdEnd hq => simp [hends hq] at hp
  case drop c r | queue c _ r _ _ _ _ => simp [hsend] at hp
  case setType id n =>
    have hout : (afterType (τ := τ) id n).home.freeing = false :=
      afterType_role SPc.freeing id n rfl rfl rfl
    simp [hout] at hp
  case openFailed hq => simp [hends hq] at hp
  case sendEnable c r => simp [hsend] at hp
  case decOther c r _ | dec c r _ _ | decUdp c r _ =>
    simp [hends (ends_finish r)] at hp
  case busy f => simp [hbuffer] at hp
  case listEnd f low | sendPart f low b rest m _ _ _
      | udpDrop f low b rest _ _ => simp [hlist] at hp
  case unlock f r => simp [hbuffer] at hp
  case freeHigh => rfl
  case freeInvalid i f _ | closeUnlock i f =>
    simp [hends (ends_afterClose f)] at hp
  case acceptEnd hq => simp [hends hq] at hp
  case reserve out _ => rcases out with r | m | id <;> cases hp
  all_goals cases hp

/-- `force_close` goes on with empty lists. -/
theorem sstep_freed
    (h : SStep k p k' p') (hp : p'.home.freed = true) :
    (p.freeing = true ∧ k'.high = k.high ∧ k'.low = []) ∨
      p.freed = true ∧ k'.high = k.high ∧ k'.low = k.low := by
  have hends {q : SPc τ} (hq : q.Ends) : q.home.freed = false :=
    hq.role SPc.freed rfl
  have hsend (c : Call τ) (r : Option Report) :
      (afterSend c r).home.freed = false :=
    afterSend_role SPc.freed c r rfl rfl
  have hbuffer (f : Caller) (r : Option Report) :
      (afterBuffer (τ := τ) f r).home.freed = false :=
    afterBuffer_role SPc.freed f r rfl (fun _ => rfl) fun _ => rfl
  have hlist (k : Socket τ) (f : Caller) (low : Bool) :
      (afterList k f low).home.freed = false :=
    afterList_role SPc.freed k f low rfl rfl rfl rfl
  cases h
  case cmdEnd hq => simp [hends hq] at hp
  case drop c r | queue c _ r _ _ _ _ => simp [hsend] at hp
  case setType id n =>
    have hout : (afterType (τ := τ) id n).home.freed = false :=
      afterType_role SPc.freed id n rfl rfl rfl
    simp [hout] at hp
  case openFailed hq => simp [hends hq] at hp
  case sendEnable c r => simp [hsend] at hp
  case decOther c r _ | dec c r _ _ | decUdp c r _ =>
    simp [hends (ends_finish r)] at hp
  case busy f => simp [hbuffer] at hp
  case listEnd f low | sendPart f low b rest m _ _ _
      | udpDrop f low b rest _ _ => simp [hlist] at hp
  case unlock f r => simp [hbuffer] at hp
  case freeLow => exact .inl ⟨rfl, rfl, rfl⟩
  case del i held f =>
    refine .inr ⟨rfl, ?_⟩
    unfold stepDel
    split <;> exact ⟨rfl, rfl⟩
  case freeInvalid i f _ | closeUnlock i f =>
    simp [hends (ends_afterClose f)] at hp
  case acceptEnd hq => simp [hends hq] at hp
  case reserve out _ => rcases out with r | m | id <;> cases hp
  all_goals first | exact .inr ⟨rfl, rfl, rfl⟩ | cases hp

variable {ws : τ → WPc τ}

/-- A buffer of a direct write on a socket that is still open. -/
theorem Informed.opened_of_dw
    (h : Informed k p ws) (hdw : k.dw ≠ none) (hp : ∀ i f, p ≠ .freeDw i f) :
    k.type.opened = true := by
  by_contra ho
  exact hdw (h.dw_none (Bool.eq_false_iff.mpr ho) hp)

theorem SocketType.sends_of_opened {t : SocketType} (h : t.opened = true) :
    t.sends = true := by
  cases t <;> first | rfl | cases h

/-- The socket is connected, or it is half-closed. -/
theorem SocketType.opened_cases {t : SocketType} (h : t.opened = true) :
    t = .connected ∨ t = .halfclose := by
  cases t
  case connected => exact .inl rfl
  case halfclose => exact .inr rfl
  all_goals cases h

/-- `send_socket` queues a package for a type that is not connected. -/
theorem SocketType.connecting_of_queue
    {t : SocketType} (hdeaf : t.deaf = false) (hne : t ≠ .connected)
    (hbound : t ≠ .bind ∧ t ≠ .reserve) : t = .connecting := by
  cases t
  case connecting => rfl
  case connected => exact absurd rfl hne
  case bind => exact absurd rfl hbound.1
  case reserve => exact absurd rfl hbound.2
  all_goals cases hdeaf

theorem Flushed.server_typed
    (hi : Informed k p ws) (h : Flushed k p ws)
    (hok : SparesQueue k p ws none) (hs : SStep k p k' p')
    (hd : ¬k'.Drained) : k'.type.sends = true := by
  cases sstep_lists hs hd with
  | first _ htype htype' =>
      rw [htype', htype]
      rfl
  | queue c hp hid hdeaf hne htype' _ =>
      rw [htype', SocketType.connecting_of_queue hdeaf hne (hok.2 rfl c hp hid)]
      rfl
  | take f hp hdw htype' _ =>
      rw [htype']
      refine SocketType.sends_of_opened (hi.opened_of_dw hdw ?_)
      rintro i f' rfl
      cases hp
  | same hold =>
      have hsends := h.typed hold
      cases sstep_type hs with
      | same ht => rwa [ht]
      | setType id n hp =>
          exact absurd (hi.fresh n (by rw [hp]; rfl)).1 hold
      | newFdFails _ _ _ htype | cas _ _ _ _ htype =>
          rw [htype] at hsends
          cases hsends
      | openFailed id again r hp =>
          rcases hok.1.1 rfl id again r hp with ht | ht <;>
            rw [ht] at hsends <;> cases hsends
      | startType id hp =>
          have hexp := hi.expected
          rw [hp] at hexp
          rcases Bool.or_eq_true_iff.mp hexp with ht | ht <;>
            rw [of_decide_eq_true ht] at hsends <;> cases hsends
      | halfclose id _ hk | connect i id _ hk =>
          rw [hk]
          rfl
      | invalidate i f hp => exact absurd (h.freed (by rw [hp]; rfl)) hold

theorem SPc.not_closing_of_enabling {p : SPc τ} (h : p.enabling = true) :
    p.closing = false := by
  cases p
  case openEnable | sendEnable => rfl
  all_goals cases h

theorem Flushed.server_lists
    (hlock : Exclusive k p ws) (hi : Informed k p ws) (ha : Attended k p ws)
    (h : Flushed k p ws) (hok : SparesQueue k p ws none)
    (hs : SStep k p k' p') (hd : ¬k'.Drained) :
    k'.poll = some true ∨ p'.home.enabling = true := by
  cases sstep_lists hs hd with
  | first hp _ _ => exact .inr hp
  | queue c hp hid hdeaf hne _ hpoll =>
      have htype :=
        SocketType.connecting_of_queue hdeaf hne (hok.2 rfl c hp hid)
      rcases ha.connecting htype with hc | hc | hc | hc
      · exact .inl (hpoll.trans hc)
      all_goals
        rw [hp] at hc
        cases hc
  | take f hp hdw _ hpoll =>
      have hworker (w : τ) : (ws w).enabling ≠ true := by
        intro hw
        have hout := hlock.worker_outside (by rw [hp]; rfl) w
        rw [WPc.locked_of_enabling hw] at hout
        cases hout
      have hopen := hi.opened_of_dw hdw (by rintro i f' rfl; cases hp)
      rcases SocketType.opened_cases hopen with ht | ht
      · rcases ha.interest (by rw [ht]; rfl) (.inr (.inr hdw)) with
          hc | hc | ⟨w, hw⟩ | hc
        · exact .inl (hpoll.trans hc)
        · rw [hp] at hc
          cases hc
        · exact absurd hw (hworker w)
        · rw [hp] at hc
          cases hc
      · rcases h.halfclosed ht hdw with hc | ⟨w, hw⟩ | hc
        · exact .inl (hpoll.trans hc)
        · exact absurd hw (hworker w)
        · rw [hp] at hc
          cases hc
  | same hold =>
      have hsends := h.typed hold
      have hmap (hp : p.enabling = true) : k'.poll = some true := by
        rw [sstep_enabling hs hp]
        rcases ha.registered (h.enabling hp) with hreg | hclosing
        · obtain ⟨b, hb⟩ := Option.ne_none_iff_exists'.mp hreg
          rw [hb]
          rfl
        · rw [SPc.not_closing_of_enabling hp] at hclosing
          cases hclosing
      cases sstep_keep h.freed hs hd with
      | same hpoll =>
          rcases h.lists hold with hp | hp
          · exact .inl (hpoll.trans hp)
          · exact .inl (hmap hp)
      | enable hp _ => exact .inl (hmap hp)
      | add id hp =>
          have hexp := hi.expected
          rw [hp] at hexp
          rcases Bool.or_eq_true_iff.mp hexp with ht | ht <;>
            rw [of_decide_eq_true ht] at hsends <;> cases hsends
      | connectOff i hp =>
          have hhigh := ha.high (by rw [hp]; rfl)
          have hlow := ha.low (by rw [hp]; rfl)
          exact absurd ⟨hhigh, hlow⟩ hold
      | newFd htype =>
          rw [htype] at hsends
          cases hsends

/-- How a socket comes to be half-closed. -/
theorem sstep_halfclose
    (h : SStep k p k' p') (htype : k'.type = .halfclose) :
    k.type = .halfclose ∨ ∃ id, p = .halfclose id ∧
      k' = { k with type := .halfclose } := by
  cases sstep_type h with
  | same ht => exact .inl (ht ▸ htype)
  | halfclose id hp hk => exact .inr ⟨id, hp, hk⟩
  | setType id n _ hk =>
      rw [hk] at htype
      cases n with
      | «open» connected => cases connected <;> cases htype
      | _ => cases htype
  | startType id _ hk =>
      rw [hk] at htype
      dsimp only at htype
      split at htype <;> cases htype
  | newFdFails _ _ _ _ hk | openFailed _ _ _ _ hk | invalidate _ _ _ hk
  | connect _ _ _ hk | cas _ _ _ _ _ hk =>
      rw [hk] at htype
      cases htype

theorem Flushed.server_kept
    (hi : Informed k p ws) (ha : Attended k p ws) (h : Flushed k p ws)
    (hs : SStep k p k' p') (htype : k'.type = .halfclose)
    (hor : k'.dw ≠ none ∨ ∃ w, (ws w).direct = true) :
    k'.poll ≠ none ∨ p'.home.closing = true := by
  have hor : k.dw ≠ none ∨ ∃ w, (ws w).direct = true := by
    refine hor.imp_left fun hdw => ?_
    rcases sstep_dw hs with hk | hk
    · rwa [← hk]
    · exact absurd hk hdw
  rcases sstep_halfclose hs htype with hold | ⟨id, hp, hk⟩
  · rcases h.kept hold hor with hpoll | hclosing
    · cases sstep_poll hs with
      | same heq =>
          rw [heq]
          exact .inl hpoll
      | enable _ heq | off _ _ _ _ _ _ heq | connectOff _ _ _ _ heq =>
          rw [heq]
          exact .inl (by simpa using hpoll)
      | add _ hne => exact .inl hne
      | del hp => exact .inr hp
      | newFd hreserve =>
          rw [hreserve] at htype
          cases htype
    · rcases sstep_closing hs hclosing with hp | hinvalid
      · exact .inr hp
      · rw [hinvalid] at htype
        cases htype
  · have hopen : k.type.opened = true := by
      rcases hor with hdw | ⟨w, hw⟩
      · exact hi.opened_of_dw hdw (by rintro i f rfl; cases hp)
      · exact hi.direct w hw
    have hpoll : k.poll ≠ none ∨ p.closing = true := by
      rcases SocketType.opened_cases hopen with ht | ht
      · exact ha.registered (by rw [ht]; rfl)
      · exact h.kept ht hor
    rcases hpoll with hpoll | hclosing
    · rw [hk]
      exact .inl hpoll
    · rw [hp] at hclosing
      cases hclosing

theorem Flushed.server_halfclosed
    (hi : Informed k p ws) (ha : Attended k p ws) (h : Flushed k p ws)
    (hs : SStep k p k' p') (htype : k'.type = .halfclose) (hdw : k'.dw ≠ none) :
    k'.poll = some true ∨ (∃ w, (ws w).enabling = true) ∨
      p'.home.closing = true := by
  have hold : k.dw ≠ none := by
    rcases sstep_dw hs with hk | hk
    · rwa [← hk]
    · exact absurd hk hdw
  rcases sstep_halfclose hs htype with ht | ⟨id, hp, hk⟩
  · have hexp := hi.expected
    rw [ht] at hexp
    rcases h.halfclosed ht hold with hpoll | hw | hclosing
    · cases sstep_poll hs with
      | same heq => exact .inl (heq.trans hpoll)
      | enable hp heq =>
          have hconnects := h.enabling hp
          rw [ht] at hconnects
          cases hconnects
      | add id _ hp | connectOff i hp =>
          rw [hp] at hexp
          cases hexp
      | off f hp => exact absurd (hi.swept (by rw [hp]; rfl)) hold
      | del hp => exact .inr (.inr hp)
      | newFd hreserve =>
          rw [hreserve] at htype
          cases htype
    · exact .inr (.inl hw)
    · rcases sstep_closing hs hclosing with hp | hinvalid
      · exact .inr (.inr hp)
      · rw [hinvalid] at htype
        cases htype
  · have hinterest : k.poll = some true ∨ (∃ w, (ws w).enabling = true) := by
      have hopen := hi.opened_of_dw hold (by rintro i f rfl; cases hp)
      rcases SocketType.opened_cases hopen with ht | ht
      · rcases ha.interest (by rw [ht]; rfl) (.inr (.inr hold)) with
          hc | hc | hc | hc
        · exact .inl hc
        · rw [hp] at hc
          cases hc
        · exact .inr hc
        · rw [hp] at hc
          cases hc
      · rcases h.halfclosed ht hold with hc | hc | hc
        · exact .inl hc
        · exact .inr hc
        · rw [hp] at hc
          cases hc
    rcases hinterest with hpoll | hw
    · rw [hk]
      exact .inl hpoll
    · exact .inr (.inl hw)

theorem Flushed.serverStep
    (hlock : Exclusive k p ws) (hi : Informed k p ws) (ha : Attended k p ws)
    (h : Flushed k p ws) (hok : SparesQueue k p ws none)
    (hs : SStep k p k' p') : Flushed k' p'.home ws where
  typed := h.server_typed hi hok hs
  freeing := sstep_freeing hs
  freed := by
    intro hp
    rcases sstep_freed hs hp with ⟨hold, hhigh, hlow⟩ | ⟨hold, hhigh, hlow⟩
    · exact ⟨hhigh.trans (h.freeing hold), hlow⟩
    · have hd := h.freed hold
      exact ⟨hhigh.trans hd.1, hlow.trans hd.2⟩
  enabling := sstep_to_enabling hs
  lists := h.server_lists hlock hi ha hok hs
  kept := h.server_kept hi ha hs
  halfclosed := h.server_halfclosed hi ha hs

end Server

/-! ## Every run -/

section Runs

variable [DecidableEq τ]

theorem stable_flushed :
    StableUnder (fun k p ws => Known k p ws ∧ Attended k p ws) SparesQueue
      (Flushed (τ := τ)) where
  worker := fun _ h _ hs => h.workerStep hs
  server := fun hknown h hok hs =>
    h.serverStep hknown.1.1 hknown.1.2 hknown.2 hok hs
  workerEnters := by
    intro k p ws w p' h hw hp
    have hview (v : τ) :
        (Function.update ws w p' v).enabling = (ws v).enabling ∧
          (Function.update ws w p' v).direct = (ws v).direct := by
      by_cases hv : v = w
      · rw [hv, Function.update_self, hw]
        cases hp <;> exact ⟨rfl, rfl⟩
      · rw [Function.update_of_ne hv]
        exact ⟨rfl, rfl⟩
    refine ⟨h.typed, h.freeing, h.freed, h.enabling, h.lists, ?_, ?_⟩
    · simpa only [hview] using h.kept
    · simpa only [hview] using h.halfclosed
  serverEnters := by
    intro k p' ws h hp
    cases hp <;> exact ⟨h.typed, h.freeing, h.freed, h.enabling, h.lists,
      h.kept, h.halfclosed⟩

omit [DecidableEq τ] in
theorem flushed_create (i : ℕ) :
    (State.create : State τ).At
      (fun k p ws => (Known k p ws ∧ Attended k p ws) ∧ Flushed k p ws) i := by
  refine ⟨attended_create i, ?_⟩
  have hpoll : (State.create : State τ).serverAt i = .poll :=
    SPc.seen_of_ne (Option.some_ne_none i).symm
  rw [hpoll]
  refine ⟨fun h => absurd ⟨rfl, rfl⟩ h, fun h => ?_, fun h => ?_, fun h => ?_,
    fun h => absurd ⟨rfl, rfl⟩ h, fun h => ?_, fun h => ?_⟩ <;> cases h

namespace State

/-- In every run in which no package is sent to a bound socket or to a reserved
slot, and which meets the conditions for direct writes: as long as there is a
package in a send list, the fd has write interest, except before the
`sp_write(..., true)` of `send_socket`. -/
theorem queued_packages_attended
    {s : State τ} (h : Reaches step (Meets SparesQueue) create s) (i : ℕ)
    (hlist : (s.slot i).high ≠ [] ∨ (s.slot i).low ≠ [])
    (hserver : s.server.slot = some i → s.server.enabling = false) :
    (s.slot i).poll = some true := by
  have hstable : Stable SparesQueue fun (k : Socket τ) p ws =>
      (Known k p ws ∧ Attended k p ws) ∧ Flushed k p ws :=
    Stable.and (stable_known.and stable_attended fun _ _ _ _ h => h.1)
      stable_flushed fun _ _ _ _ h => h.1
  obtain ⟨-, hflushed⟩ := reaches_at hstable flushed_create h i
  have hd : ¬(s.slot i).Drained := by
    rintro ⟨hhigh, hlow⟩
    exact hlist.elim (fun he => he hhigh) fun he => he hlow
  rcases hflushed.lists hd with hpoll | hp
  · exact hpoll
  · by_cases hslot : s.server.slot = some i
    · rw [serverAt, SPc.seen_of_slot hslot, hserver hslot] at hp
      cases hp
    · rw [serverAt, SPc.seen_of_ne hslot] at hp
      cases hp

end State

end Runs

/-! ## Runs with one package -/

namespace State

/-- The worker opens a socket, which gets the id `1`. -/
def callOpen (o : Opening) : List (Option Unit × Act) :=
  (some (), .call (.open o)) :: List.replicate 7 (some (), .go)

/-- The worker calls `socket_server_send`, which sends a command. -/
def callQueue : List (Option Unit × Act) :=
  (some (), .call (.send 1 .send [7])) :: List.replicate 11 (some (), .go)

/-- Steps that meet the conditions because the socket thread is not at one of
the positions they are about. -/
def plainQueue (s : State Unit) (l : Option Unit × Act) : Bool :=
  s.plainServer l &&
    match s.server with
    | .cmd (.send id _) =>
      (s.slot (hashId id)).type ≠ .bind && (s.slot (hashId id)).type ≠ .reserve
    | _ => true

theorem meets_of_plainQueue
    (s : State Unit) (l : Option Unit × Act) (h : s.plainQueue l = true) :
    s.Meets SparesQueue l := by
  rw [plainQueue, Bool.and_eq_true] at h
  have hconnect := meets_of_plainServer s l h.1
  unfold Meets at hconnect ⊢
  split
  · rename_i w hw
    rw [hw] at hconnect
    exact fun i hi => ⟨hconnect i hi, nofun⟩
  · rename_i hw
    rw [hw] at hconnect
    intro i hi
    refine ⟨hconnect i hi, fun _ c hp _ => ?_⟩
    rw [serverAt, SPc.seen_of_slot hi] at hp
    have hbound := h.2
    rw [hp] at hi hbound
    cases hi
    rw [Bool.and_eq_true] at hbound
    exact ⟨of_decide_eq_true hbound.1, of_decide_eq_true hbound.2⟩

/-- One package is queued on the socket, the socket thread waits for events
and the worker is idle. -/
def holdsPackage (t : SocketType) (poll : Option Bool) (s : State Unit) : Bool :=
  decide ((s.slot 1).type = t) && !(s.slot 1).high.isEmpty &&
    decide ((s.slot 1).poll = poll) && s.pipe.isEmpty &&
    (match s.server with
      | .poll => true
      | _ => false) &&
    (match s.worker () with
      | .idle => true
      | _ => false)

theorem holdsPackage_eq_true
    {t : SocketType} {poll : Option Bool} {s : State Unit}
    (h : s.holdsPackage t poll = true) :
    (s.slot 1).type = t ∧ (s.slot 1).high ≠ [] ∧ (s.slot 1).poll = poll ∧
      s.pipe = [] ∧ s.server = .poll ∧ s.worker () = .idle := by
  simp only [holdsPackage, Bool.and_eq_true] at h
  obtain ⟨⟨⟨⟨⟨htype, hhigh⟩, hpoll⟩, hpipe⟩, hserver⟩, hworker⟩ := h
  refine ⟨of_decide_eq_true htype, fun he => ?_, of_decide_eq_true hpoll,
    List.isEmpty_iff.mp hpipe, ?_, ?_⟩
  · rw [he] at hhigh
    cases hhigh
  · split at hserver
    · assumption
    · cases hserver
  · split at hworker
    · assumption
    · cases hworker

/-- The theorem above for a package sent while the connection is being
established. -/
theorem queued_packages_attended_of_connecting :
    ∃ s : State Unit, (s.slot 1).type = .connecting ∧ (s.slot 1).high ≠ [] ∧
      (s.slot 1).poll = some true := by
  obtain ⟨s, hrun, htest⟩ := Outcome.exists_of_passes
    (show (execWhile step plainQueue create
      (callOpen .connect ++
        [(none, .go), (none, .again), (none, .go), (none, .go), (none, .go)] ++
        callQueue ++
        [(none, .go), (none, .go), (none, .go), (none, .go)])).passes
          (holdsPackage .connecting (some true)) = true from
      by decide +kernel)
  obtain ⟨htype, hhigh, -, -, hserver, -⟩ := holdsPackage_eq_true htest
  refine ⟨s, htype, hhigh, queued_packages_attended
    (reaches_of_execWhile meets_of_plainQueue hrun) 1 (.inl hhigh) fun _ => ?_⟩
  rw [hserver]
  rfl

/-- A package for a bound socket stays in its list: there is no write
interest. -/
theorem bound_package_forgotten :
    ∃ s : State Unit,
      exec step create
        (callOpen .bind ++
          [(none, .go), (none, .go), (none, .go), (none, .go),
            (none, .go)] ++
          callQueue ++
          [(none, .go), (none, .go), (none, .go), (none, .go)]) = .next s ∧
      (s.slot 1).type = .bind ∧ (s.slot 1).high ≠ [] ∧
      (s.slot 1).poll = some false ∧ s.pipe = [] ∧ s.server = .poll ∧
      s.worker () = .idle := by
  obtain ⟨s, hrun, htest⟩ := Outcome.exists_of_passes
    (show (exec step create
      (callOpen .bind ++
        [(none, .go), (none, .go), (none, .go), (none, .go), (none, .go)] ++
        callQueue ++
        [(none, .go), (none, .go), (none, .go), (none, .go)])).passes
          (holdsPackage .bind (some false)) = true from
      by decide +kernel)
  exact ⟨s, hrun, holdsPackage_eq_true htest⟩

end State

end SkynetServer.SocketServer
