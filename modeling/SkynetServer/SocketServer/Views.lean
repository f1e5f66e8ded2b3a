import SkynetServer.SocketServer.Moves

/-!
# The system seen from one slot

A thread is seen from slot `i` as long as its next step concerns slot `i`;
otherwise it is seen idle.  A property of a socket and the threads seen from
its slot that survives every step at the socket, and every arrival of a
thread, holds of all slots in all reachable states: `local_step`.
-/

namespace SkynetServer.SocketServer

open Transition

variable {τ : Type*}

/-! ## Positions keep to their slot -/

/-- The position, as seen from its slot. -/
def WPc.home (p : WPc τ) : WPc τ := if p.slot = none then .idle else p

/-- The position, as seen from its slot. -/
def SPc.home (p : SPc τ) : SPc τ := if p.slot = none then .poll else p

variable {p : SPc τ}

theorem SPc.Ends.slot (h : p.Ends) : p.slot = none := by
  cases h <;> rfl

theorem finish_slot (r : Option Report) : (finish r : SPc τ).slot = none :=
  (ends_finish r).slot

theorem SPc.Ends.home (h : p.Ends) : p.home = .poll :=
  if_pos h.slot

theorem finish_home (r : Option Report) : (finish r : SPc τ).home = .poll :=
  (ends_finish r).home

theorem afterClose_home (f : Closing) : (afterClose f : SPc τ).home = .poll :=
  (ends_afterClose f).home

/-- A call that does not write directly goes on, as seen from its slot. -/
theorem queue_home (c : Call τ) :
    (queue c).home = .protocol c ∨ (queue c).home = .idle := by
  unfold queue
  split
  · exact .inr rfl
  · exact .inl rfl

theorem afterEntry_cases (c : Call τ) :
    afterEntry c = .protocol c ∨ afterEntry c = .check false c .id := by
  unfold afterEntry
  split
  · exact .inl rfl
  · exact .inr rfl

theorem afterWrite_cases (c : Call τ) (n : ℕ) :
    afterWrite c n = .unlock c.id ∨ afterWrite c n = .setDw c n := by
  unfold afterWrite
  split
  · exact .inl rfl
  · exact .inr rfl

theorem afterTest_cases (locked : Bool) (c : Call τ) (t : Test) :
    (∃ t', t.next = some t' ∧ afterTest locked c t = .check locked c t') ∨
      t = .udpconnecting ∧
        afterTest locked c t = if locked then .write c else .trylock c := by
  cases t
  case udpconnecting => exact .inr ⟨rfl, rfl⟩
  all_goals exact .inl ⟨_, rfl, rfl⟩

theorem afterSend_cases (c : Call τ) (r : Option Report) :
    afterSend c r = .decId c r ∨ afterSend c r = finish r := by
  unfold afterSend
  split
  · exact .inr rfl
  · exact .inl rfl

theorem afterBuffer_cases (f : Caller) (r : Option Report) :
    (∃ i id, f = .event i id ∧ afterBuffer (τ := τ) f r = finish r) ∨
      (∃ id shutdown, f = .close id shutdown ∧
        (afterBuffer (τ := τ) f r = .closeTest id false true .high ∨
          afterBuffer (τ := τ) f r =
            .freeHigh (hashId id) false ⟨true, ⟨.close, id, 0⟩⟩)) := by
  cases f with
  | event i id => exact .inl ⟨i, id, rfl, rfl⟩
  | close id shutdown =>
      refine .inr ⟨id, shutdown, rfl, ?_⟩
      cases shutdown
      · exact .inl rfl
      · exact .inr rfl

theorem afterList_cases (k : Socket τ) (f : Caller) (low : Bool) :
    (low = true ∧ k.lowUncomplete = true ∧ afterList k f low = .raise f) ∨
      (low = false ∧ k.high = [] ∧ k.low ≠ [] ∧
        afterList k f low = .sendList f true) ∨
      (k.low = [] ∧ (low = true ∨ k.high = []) ∧
        afterList k f low = .turnOff f) ∨
      ((if low then k.low ≠ [] ∧ k.lowUncomplete = false else k.high ≠ []) ∧
        afterList k f low = .unlock f none) := by
  cases low with
  | true =>
      unfold afterList
      by_cases hu : k.lowUncomplete = true
      · simp [hu]
      · have hu := Bool.eq_false_iff.mpr hu
        by_cases hl : k.low = [] <;> simp [hu, hl]
  | false =>
      unfold afterList
      by_cases hh : k.high = [] <;> by_cases hl : k.low = [] <;>
        simp [hh, hl]

/-! ## What can be read off the next position -/

section Roles

variable {α : Type*} (R : SPc τ → α) {x : α}

theorem SPc.Ends.role {p : SPc τ} (h : p.Ends) (hpoll : R .poll = x) :
    R p.home = x := by
  rw [h.home, hpoll]

theorem afterSend_role
    (c : Call τ) (r : Option Report) (hdec : R (.decId c r) = x)
    (hpoll : R .poll = x) : R (afterSend c r).home = x := by
  rcases afterSend_cases c r with h | h <;> rw [h]
  · exact hdec
  · exact (ends_finish r).role R hpoll

theorem afterBuffer_role
    (f : Caller) (r : Option Report) (hpoll : R .poll = x)
    (htest : ∀ id, R (.closeTest id false true .high) = x)
    (hfree : ∀ id, R (.freeHigh (hashId id) false ⟨true, ⟨.close, id, 0⟩⟩) = x) :
    R (afterBuffer f r).home = x := by
  rcases afterBuffer_cases (τ := τ) f r with ⟨_, _, -, h⟩ | ⟨id, _, -, h | h⟩
  · rw [h]
    exact (ends_finish r).role R hpoll
  · rw [h]
    exact htest id
  · rw [h]
    exact hfree id

theorem afterList_role
    (k : Socket τ) (f : Caller) (low : Bool) (hraise : R (.raise f) = x)
    (hlow : R (.sendList f true) = x) (hoff : R (.turnOff f) = x)
    (hunlock : R (.unlock f none) = x) : R (afterList k f low).home = x := by
  rcases afterList_cases k f low with ⟨-, -, h⟩ | ⟨-, -, -, h⟩ | ⟨-, -, h⟩ |
    ⟨-, h⟩ <;> rw [h] <;> assumption

theorem afterType_role
    (id : Id) (n : NewFd) (hpoll : R .poll = x)
    (henable : R (.openEnable id) = x) (hudp : R (.udpAddress id) = x) :
    R (afterType id n).home = x := by
  cases n with
  | «open» connected => cases connected <;> assumption
  | udp v6 => exact hudp
  | _ => exact hpoll

end Roles

theorem rstep_id
    {k k' : Socket τ} {r : Reserve} {out : Reserve ⊕ Alloc ⊕ Id}
    (h : RStep k r k' out) :
    (∃ r', out = .inl r' ∧ r'.id = r.id) ∨ (∃ n, out = .inr (.inl n)) ∨
      out = .inr (.inr r.id) := by
  cases h
  case used n id | lost n id => exact .inr (.inl ⟨_, rfl⟩)
  case setUdp id => exact .inr (.inr rfl)
  all_goals exact .inl ⟨_, rfl, rfl⟩

variable {i : ℕ}

theorem wstep_slot
    {k k' : Socket τ} {p p' : WPc τ} (h : WStep k p k' p')
    (hp : p.slot = some i) : p'.slot = some i ∨ p'.slot = none := by
  cases h
  case reserve o r out h =>
    rcases rstep_id h with ⟨r', rfl, hr⟩ | ⟨n, rfl⟩ | rfl
    · refine .inl ?_
      rw [← hp]
      exact congrArg (fun id => some (hashId id)) hr
    · exact .inr rfl
    · exact .inr rfl
  case accept c h =>
    rcases afterEntry_cases c with hc | hc <;> rw [hc] <;> exact .inl hp
  case pass locked c t h =>
    rcases afterTest_cases locked c t with ⟨t', -, ht⟩ | ⟨-, ht⟩
    · rw [ht]
      exact .inl hp
    · rw [ht]
      cases locked <;> exact .inl hp
  case write c n _ _ _ | sendto c n _ =>
    rcases afterWrite_cases c n with hc | hc <;> rw [hc] <;> exact .inl hp
  case fail c t | busy c | retry c =>
    unfold queue
    split
    · exact .inr rfl
    · exact .inl hp
  all_goals first | exact .inl hp | exact .inr rfl

theorem sstep_slot
    {k k' : Socket τ} {p p' : SPc τ} (h : SStep k p k' p')
    (hp : p.slot = some i) : p'.slot = some i ∨ p'.slot = none := by
  have hsend (c : Call τ) (r : Option Report) (hc : hashId c.id = i) :
      (afterSend c r).slot = some i ∨ (afterSend c r).slot = none := by
    rcases afterSend_cases c r with h | h <;> rw [h]
    · exact .inl (congrArg some hc)
    · exact .inr (ends_finish r).slot
  have hlist (k : Socket τ) (f : Caller) (low : Bool)
      (hf : f.slot = i) : (afterList k f low).slot = some i := by
    rcases afterList_cases k f low with ⟨-, -, h⟩ | ⟨-, -, -, h⟩ | ⟨-, -, h⟩ |
      ⟨-, h⟩ <;> rw [h] <;> exact congrArg some hf
  have hbuffer (f : Caller) (r : Option Report) (hf : f.slot = i) :
      (afterBuffer (τ := τ) f r).slot = some i ∨
        (afterBuffer (τ := τ) f r).slot = none := by
    rcases afterBuffer_cases (τ := τ) f r with ⟨_, _, -, heq⟩ |
      ⟨id, _, rfl, heq | heq⟩
    · rw [heq]
      exact .inr (ends_finish r).slot
    · rw [heq]
      exact .inl (congrArg some hf)
    · rw [heq]
      exact .inl (congrArg some hf)
  cases h
  case dispatchConnect e j hj _ | dispatchAccept e j hj _
      | dispatchRead e j hj _ | dispatchWrite e j hj _
      | dispatchClose e j r hj _ => exact .inl (hj.symm.trans hp)
  case cmdNew c id n hc =>
    cases c <;> cases hc <;> exact .inl hp
  case cmdEnd c _ _ hends | openFailed id again r hends | acceptEnd id hends =>
    exact .inr hends.slot
  case drop c r | queue c _ r _ _ _ _ | sendEnable c r =>
    exact hsend c r (Option.some.inj hp)
  case setType id n =>
    cases n with
    | «open» connected =>
        cases connected
        · exact .inl hp
        · exact .inr rfl
    | udp v6 => exact .inl hp
    | _ => exact .inr rfl
  case decOther c r _ | dec c r _ _ | decUdp c r _ =>
    exact .inr (ends_finish r).slot
  case busy f => exact hbuffer f none (Option.some.inj hp)
  case unlock f r => exact hbuffer f r (Option.some.inj hp)
  case listEnd f low => exact .inl (hlist k f low (Option.some.inj hp))
  case sendPart f low b rest n _ _ _ | udpDrop f low b rest _ _ =>
    exact .inl (hlist _ f low (Option.some.inj hp))
  case freeInvalid f _ | closeUnlock f => exact .inr (ends_afterClose f).slot
  case reserve listener r out h =>
    rcases rstep_id h with ⟨r', rfl, hr⟩ | ⟨n, rfl⟩ | rfl
    · refine .inl ?_
      rw [← hp]
      exact congrArg (fun id => some (hashId id)) hr
    · exact .inr rfl
    · exact .inl hp
  all_goals first | exact .inl hp | exact .inr rfl

/-! ## Views -/

/-- The positions at which a worker comes to a slot. -/
inductive WPc.Entry : WPc τ → Prop
  | entryId (c : Call τ) : Entry (.entryId c)
  | udpConnect (id : Id) : Entry (.udpConnect id .testId)
  | probe (o : Opening) (n : ℕ) (id : Id) : Entry (.reserve o (.probe n id))

/-- The positions at which the socket thread comes to a slot. -/
inductive SPc.Entry : SPc τ → Prop
  | cmd (c : Command τ) : Entry (.cmd c)
  | dispatch (e : Event) : Entry (.dispatch e)
  | probe (listener : Id) (n : ℕ) (id : Id) :
      Entry (.acceptReserve listener (.probe n id))

theorem enter_entry (w : τ) (api : Api) :
    (enter w api).slot = none ∨ (enter w api).Entry := by
  cases api with
  | send id kind data => exact .inr (.entryId _)
  | udpConnect id => exact .inr (.udpConnect id)
  | _ => exact .inl rfl

theorem allocStep_cases (allocId : Id) (n : Alloc) :
    (allocStep allocId n).2 = none ∨
      (∃ n', (allocStep allocId n).2 = some (.inl n')) ∨
      ∃ m id, (allocStep allocId n).2 = some (.inr (.probe m id)) := by
  cases n with
  | inc i =>
      simp only [allocStep]
      split
      · exact .inl rfl
      · cases (allocId + 1).msb
        · exact .inr (.inr ⟨i, allocId + 1, rfl⟩)
        · exact .inr (.inl ⟨.mask i, rfl⟩)
  | mask i => exact .inr (.inr ⟨_, _, rfl⟩)

theorem afterAlloc_entry (o : Opening) (allocId : Id) (n : Alloc) :
    (WPc.afterAlloc (τ := τ) o (allocStep allocId n).2).slot = none ∨
      (WPc.afterAlloc (τ := τ) o (allocStep allocId n).2).Entry := by
  rcases allocStep_cases allocId n with h | ⟨_, h⟩ | ⟨_, _, h⟩ <;> rw [h]
  · exact .inl rfl
  · exact .inl rfl
  · exact .inr (.probe _ _ _)

theorem acceptAlloc_entry (listener allocId : Id) (n : Alloc) :
    (SPc.afterAlloc (τ := τ) listener (allocStep allocId n).2).slot = none ∨
      (SPc.afterAlloc (τ := τ) listener (allocStep allocId n).2).Entry := by
  rcases allocStep_cases allocId n with h | ⟨_, h⟩ | ⟨_, _, h⟩ <;> rw [h]
  · exact .inl rfl
  · exact .inl rfl
  · exact .inr (.probe _ _ _)

/-- The position as it is seen from slot `i`. -/
def WPc.seen (i : ℕ) (p : WPc τ) : WPc τ :=
  if p.slot = some i then p else .idle

/-- The position as it is seen from slot `i`. -/
def SPc.seen (i : ℕ) (p : SPc τ) : SPc τ :=
  if p.slot = some i then p else .poll

namespace State

/-- The workers as they are seen from slot `i`. -/
def workersAt (s : State τ) (i : ℕ) : τ → WPc τ := fun w =>
  (s.worker w).seen i

/-- The socket thread as it is seen from slot `i`. -/
def serverAt (s : State τ) (i : ℕ) : SPc τ := s.server.seen i

end State

theorem WPc.seen_of_slot {p : WPc τ} (h : p.slot = some i) :
    p.seen i = p := if_pos h

theorem WPc.seen_of_ne {p : WPc τ} (h : p.slot ≠ some i) :
    p.seen i = .idle := if_neg h

theorem SPc.seen_of_slot (h : p.slot = some i) :
    p.seen i = p := if_pos h

theorem SPc.seen_of_ne (h : p.slot ≠ some i) :
    p.seen i = .poll := if_neg h

theorem WPc.seen_eq_home {p : WPc τ}
    (h : p.slot = some i ∨ p.slot = none) : p.seen i = p.home := by
  rcases h with h | h
  · rw [seen_of_slot h, home, if_neg (by rw [h]; exact Option.some_ne_none i)]
  · rw [seen_of_ne (by rw [h]; exact (Option.some_ne_none i).symm), home,
      if_pos h]

theorem SPc.seen_eq_home
    (h : p.slot = some i ∨ p.slot = none) : p.seen i = p.home := by
  rcases h with h | h
  · rw [seen_of_slot h, home, if_neg (by rw [h]; exact Option.some_ne_none i)]
  · rw [seen_of_ne (by rw [h]; exact (Option.some_ne_none i).symm), home,
      if_pos h]

/-- A position that has been left or kept is not seen from elsewhere. -/
theorem WPc.seen_elsewhere {i j : ℕ} {p : WPc τ} (hij : j ≠ i)
    (h : p.slot = some i ∨ p.slot = none) : p.seen j = .idle := by
  apply seen_of_ne
  rcases h with h | h <;> rw [h]
  · exact fun he => hij (Option.some.inj he).symm
  · exact (Option.some_ne_none j).symm

theorem SPc.seen_elsewhere {i j : ℕ} (hij : j ≠ i)
    (h : p.slot = some i ∨ p.slot = none) : p.seen j = .poll := by
  apply seen_of_ne
  rcases h with h | h <;> rw [h]
  · exact fun he => hij (Option.some.inj he).symm
  · exact (Option.some_ne_none j).symm

/-! ## Local properties -/

section Local

variable [DecidableEq τ]

/-- A property of a socket and the threads seen from its slot. -/
abbrev Property (τ : Type*) := Socket τ → SPc τ → (τ → WPc τ) → Prop

/-- A property of the step of one thread at a socket. -/
abbrev Condition (τ : Type*) :=
  Socket τ → SPc τ → (τ → WPc τ) → Option τ → Prop

/-- The property `Good` survives all steps at its socket which meet `ok`,
given that `Known` holds before them. -/
structure StableUnder (Known : Property τ) (ok : Condition τ)
    (Good : Property τ) : Prop where
  worker {k k' : Socket τ} {p : SPc τ} {ws : τ → WPc τ} {w : τ} {p' : WPc τ}
      (hknown : Known k p ws) (h : Good k p ws) (hok : ok k p ws (some w))
      (hs : WStep k (ws w) k' p') :
      Good k' p (Function.update ws w p'.home)
  server {k k' : Socket τ} {p p' : SPc τ} {ws : τ → WPc τ}
      (hknown : Known k p ws) (h : Good k p ws) (hok : ok k p ws none)
      (hs : SStep k p k' p') : Good k' p'.home ws
  workerEnters {k : Socket τ} {p : SPc τ} {ws : τ → WPc τ} {w : τ} {p' : WPc τ}
      (h : Good k p ws) (hw : ws w = .idle) (hp : p'.Entry) :
      Good k p (Function.update ws w p')
  serverEnters {k : Socket τ} {p' : SPc τ} {ws : τ → WPc τ}
      (h : Good k .poll ws) (hp : p'.Entry) : Good k p' ws

/-- The property survives all steps at its socket which meet `ok`. -/
abbrev Stable (ok : Condition τ) (Good : Property τ) : Prop :=
  StableUnder (fun _ _ _ => True) ok Good

/-- A property stable by itself, and one stable under it. -/
theorem Stable.and
    {ok ok' : Condition τ} {Known Good : Property τ}
    (hknown : Stable ok Known) (hgood : StableUnder Known ok' Good)
    (hok : ∀ k p ws t, ok' k p ws t → ok k p ws t) :
    Stable ok' fun k p ws => Known k p ws ∧ Good k p ws where
  worker := fun _ h ho hs =>
    ⟨hknown.worker trivial h.1 (hok _ _ _ _ ho) hs,
      hgood.worker h.1 h.2 ho hs⟩
  server := fun _ h ho hs =>
    ⟨hknown.server trivial h.1 (hok _ _ _ _ ho) hs,
      hgood.server h.1 h.2 ho hs⟩
  workerEnters := fun h hw hp =>
    ⟨hknown.workerEnters h.1 hw hp, hgood.workerEnters h.2 hw hp⟩
  serverEnters := fun h hp =>
    ⟨hknown.serverEnters h.1 hp, hgood.serverEnters h.2 hp⟩

namespace State

/-- The property holds of slot `i`. -/
def At (s : State τ) (Good : Property τ) (i : ℕ) : Prop :=
  Good (s.slot i) (s.serverAt i) (s.workersAt i)

/-- The step meets the condition at the slot it concerns. -/
def Meets (ok : Condition τ) (s : State τ) (l : Option τ × Act) : Prop :=
  match l.1 with
  | some w => ∀ i, (s.worker w).slot = some i →
    ok (s.slot i) (s.serverAt i) (s.workersAt i) (some w)
  | none => ∀ i, s.server.slot = some i →
    ok (s.slot i) (s.serverAt i) (s.workersAt i) none

variable {s s' : State τ} {ok : Condition τ} {Good : Property τ}

theorem workersAt_goto (s : State τ) (w : τ) (p : WPc τ) (i : ℕ) :
    (s.goto w p).workersAt i =
      Function.update (s.workersAt i) w (p.seen i) := by
  funext v
  by_cases hv : v = w
  · subst hv
    rw [Function.update_self]
    simp only [workersAt, goto, Function.update_self]
  · rw [Function.update_of_ne hv]
    simp only [workersAt, goto, Function.update_of_ne hv]

/-- A worker moves on without touching a slot. -/
theorem at_goto
    (hstable : Stable ok Good) (h : ∀ i, s.At Good i) {w : τ} {p : WPc τ}
    (hslot : (s.worker w).slot = none) (hp : p.slot = none ∨ p.Entry)
    (i : ℕ) : (s.goto w p).At Good i := by
  have hidle : s.workersAt i w = .idle :=
    WPc.seen_of_ne (by rw [hslot]; exact (Option.some_ne_none i).symm)
  have hview := workersAt_goto s w p i
  unfold At
  rw [hview]
  by_cases hi : p.slot = some i
  · rw [WPc.seen_of_slot hi]
    rcases hp with hp | hp
    · rw [hp] at hi
      cases hi
    · exact hstable.workerEnters (h i) hidle hp
  · rw [WPc.seen_of_ne hi, ← hidle, Function.update_eq_self]
    exact h i

/-- The socket thread moves on without touching a slot. -/
theorem at_serve
    (hstable : Stable ok Good) (h : ∀ i, s.At Good i) {p : SPc τ}
    (hslot : s.server.slot = none) (hp : p.slot = none ∨ p.Entry)
    (i : ℕ) : (s.serve p).At Good i := by
  have hidle : s.serverAt i = .poll :=
    SPc.seen_of_ne (by rw [hslot]; exact (Option.some_ne_none i).symm)
  have hi := h i
  unfold At at hi ⊢
  rw [hidle] at hi
  change Good (s.slot i) (p.seen i) (s.workersAt i)
  by_cases hpi : p.slot = some i
  · rw [SPc.seen_of_slot hpi]
    rcases hp with hp | hp
    · rw [hp] at hpi
      cases hpi
    · exact hstable.serverEnters hi hp
  · rw [SPc.seen_of_ne hpi]
    exact hi

theorem at_worker
    (hstable : Stable ok Good) (h : ∀ i, s.At Good i) {w : τ} {i : ℕ}
    {k : Socket τ} {p : WPc τ} (hi : (s.worker w).slot = some i)
    (hok : ok (s.slot i) (s.serverAt i) (s.workersAt i) (some w))
    (hs : WStep (s.slot i) (s.worker w) k p) (j : ℕ) :
    ((s.setSlot i k).goto w p).At Good j := by
  have hp := wstep_slot hs hi
  unfold At
  rw [workersAt_goto]
  by_cases hij : j = i
  · subst hij
    have hw : s.workersAt j w = s.worker w := WPc.seen_of_slot hi
    rw [WPc.seen_eq_home hp]
    have hslot : ((s.setSlot j k).goto w p).slot j = k :=
      Function.update_self ..
    rw [hslot]
    rw [← hw] at hs
    exact hstable.worker trivial (h j) hok hs
  · have hslot : ((s.setSlot i k).goto w p).slot j = s.slot j :=
      Function.update_of_ne hij ..
    have hw : s.workersAt j w = .idle :=
      WPc.seen_of_ne (by rw [hi]; exact fun he => hij (Option.some.inj he).symm)
    rw [WPc.seen_elsewhere hij hp, hslot]
    change Good (s.slot j) (s.serverAt j)
      (Function.update (s.workersAt j) w .idle)
    rw [← hw, Function.update_eq_self]
    exact h j

theorem at_server
    (hstable : Stable ok Good) (h : ∀ i, s.At Good i) {i : ℕ}
    {k : Socket τ} {p : SPc τ} (hi : s.server.slot = some i)
    (hok : ok (s.slot i) (s.serverAt i) (s.workersAt i) none)
    (hs : SStep (s.slot i) s.server k p) (j : ℕ) :
    ((s.setSlot i k).serve p).At Good j := by
  have hp := sstep_slot hs hi
  change Good (Function.update s.slot i k j) (p.seen j) (s.workersAt j)
  by_cases hij : j = i
  · subst hij
    have hw : s.serverAt j = s.server := SPc.seen_of_slot hi
    rw [SPc.seen_eq_home hp, Function.update_self]
    exact hstable.server trivial (h j) hok (by rwa [hw])
  · have hw : s.serverAt j = .poll :=
      SPc.seen_of_ne (by rw [hi]; exact fun he => hij (Option.some.inj he).symm)
    have hj := h j
    unfold At at hj
    rw [hw] at hj
    rw [SPc.seen_elsewhere hij hp, Function.update_of_ne hij]
    exact hj

/-- A stable property survives every step. -/
theorem local_step
    (hstable : Stable ok Good) (h : ∀ i, s.At Good i) {l : Option τ × Act}
    (hok : s.Meets ok l) (hs : s.step l = .next s') : ∀ i, s'.At Good i := by
  cases move_of_step hs with
  | worker w a i hi hw => exact at_worker hstable h hi (hok i hi) hw
  | enter w api hpc =>
      exact at_goto hstable h (by rw [hpc]; rfl) (enter_entry w api)
  | push w a c hpc =>
      exact at_goto (s := { s with pipe := s.pipe ++ [c] }) hstable h
        (by rw [hpc]; rfl) (.inl rfl)
  | alloc w a o n hpc =>
      exact at_goto (s := { s with allocId := (allocStep s.allocId n).1 })
        hstable h (by rw [hpc]; rfl) (afterAlloc_entry ..)
  | server a i hi hw => exact at_server hstable h hi (hok i hi) hw
  | take a c rest hpc _ =>
      exact at_serve (s := { s with pipe := rest }) hstable h
        (by rw [hpc]; rfl) (.inr (.cmd c))
  | events a check hpc =>
      exact at_serve (s := { s with checkctrl := check }) hstable h
        (by rw [hpc]; rfl) (.inl rfl)
  | ret a r hpc => exact at_serve hstable h (by rw [hpc]; rfl) (.inl rfl)
  | next a e rest hpc _ =>
      exact at_serve (s := { s with ev := rest }) hstable h
        (by rw [hpc]; rfl) (.inr (.dispatch e))
  | wait events hpc _ _ hp =>
      refine at_serve
        (s := { s with ev := events.map s.stamp, checkctrl := true })
        hstable h (by rw [hpc]; rfl) (.inl ?_)
      rcases hp with rfl | rfl <;> rfl
  | dispatchNull a e hpc hslot | exit a c hpc hslot =>
      exact at_serve hstable h (by rw [hpc]; exact hslot) (.inl rfl)
  | clear a r hpc =>
      exact at_serve (s := { s with ev := s.clearClosedEvent r.id s.ev })
        hstable h (by rw [hpc]; rfl) (.inl rfl)
  | acceptAlloc a listener n hpc =>
      exact at_serve (s := { s with allocId := (allocStep s.allocId n).1 })
        hstable h (by rw [hpc]; rfl) (acceptAlloc_entry ..)
  | kept a e r hpc =>
      exact at_serve (s := { s with ev := e.toList ++ s.ev }) hstable h
        (by rw [hpc]; rfl) (.inl (finish_slot r))

/-- A stable property that holds at first holds in every reached state. -/
theorem reaches_at
    (hstable : Stable ok Good) {s₀ : State τ} (hinit : ∀ i, s₀.At Good i)
    (h : Reaches step (Meets ok) s₀ s) : ∀ i, s.At Good i :=
  h.invariant (fun s => ∀ i, s.At Good i) hinit fun _ _ _ hgood hok hs =>
    local_step hstable hgood hok hs

end State

end Local

end SkynetServer.SocketServer
