import SkynetServer.SocketServer.Server

/-!
# What a step does

The steps at one socket, one by one, with the tests they have passed: `RStep`
for `reserve_id`, `WStep` for a worker and `SStep` for the socket thread.
`Move` adds the few steps that concern no slot.  All properties of runs are
proved from these lists.
-/

namespace SkynetServer.SocketServer

open Transition

variable {τ : Type*}

/-! ## Steps of `reserve_id` -/

/-- A step of `reserve_id` at the socket `k`, and where it goes on. -/
inductive RStep (k : Socket τ) :
    Reserve → Socket τ → Reserve ⊕ Alloc ⊕ Id → Prop
  | free (n : ℕ) (id : Id) (h : k.type = .invalid) :
      RStep k (.probe n id) k (.inl (.cas n id))
  | used (n : ℕ) (id : Id) :
      RStep k (.probe n id) k (.inr (.inl (.inc (n + 1))))
  | cas (n : ℕ) (id : Id) (h : k.type = .invalid) :
      RStep k (.cas n id) { k with type := .reserve } (.inl (.setId id))
  | lost (n : ℕ) (id : Id) : RStep k (.cas n id) k (.inr (.inl (.inc n)))
  | setId (id : Id) :
      RStep k (.setId id) { k with id } (.inl (.setProtocol id))
  | setProtocol (id : Id) :
      RStep k (.setProtocol id) { k with protocol := .unknown }
        (.inl (.setUdp id))
  | setUdp (id : Id) :
      RStep k (.setUdp id) { k with udpconnecting := 0 } (.inr (.inr id))

theorem rstep_reserveStep (k : Socket τ) (r : Reserve) :
    RStep k r (reserveStep k r).1 (reserveStep k r).2 := by
  cases r with
  | probe n id =>
      rw [reserveStep]
      split
      · exact .free n id ‹_›
      · exact .used n id
  | cas n id =>
      rw [reserveStep]
      split
      · exact .cas n id ‹_›
      · exact .lost n id
  | setId id => exact .setId id
  | setProtocol id => exact .setProtocol id
  | setUdp id => exact .setUdp id

/-- Where a worker is after a step of `reserve_id`. -/
def WPc.afterReserve (o : Opening) : Reserve ⊕ Alloc ⊕ Id → WPc τ
  | .inl r => .reserve o r
  | .inr (.inl n) => .alloc o n
  | .inr (.inr id) => .request (o.command id)

/-- Where the socket thread is after a step of `reserve_id`. -/
def SPc.afterReserve (listener : Id) : Reserve ⊕ Alloc ⊕ Id → SPc τ
  | .inl r => .acceptReserve listener r
  | .inr (.inl n) => .acceptAlloc listener n
  | .inr (.inr id) => .newFd id (.accept listener)

/-! ## Steps of a worker -/

/-- Positions of `socket_server_udp_connect` inside the lock. -/
def UdpConnect.locked : UdpConnect → Bool
  | .testIdLocked | .testTypeLocked | .inc | .unlock | .unlockInvalid => true
  | _ => false

/-- A step of a worker at the socket `k`. -/
inductive WStep (k : Socket τ) : WPc τ → Socket τ → WPc τ → Prop
  | reserve (o : Opening) {r : Reserve} {k' : Socket τ}
      {out : Reserve ⊕ Alloc ⊕ Id} (h : RStep k r k' out) :
      WStep k (.reserve o r) k' (.afterReserve o out)
  | entryId (c : Call τ) (h : k.id = c.id) :
      WStep k (.entryId c) k (.entryType c)
  | wrongId (c : Call τ) : WStep k (.entryId c) k .idle
  | reject (c : Call τ) : WStep k (.entryType c) k .idle
  | accept (c : Call τ) (h : k.type ≠ .invalid) :
      WStep k (.entryType c)
        { k with
          accepted := if k.id = c.id then k.accepted ++ [c.package]
            else k.accepted }
        (afterEntry c)
  | pass (locked : Bool) (c : Call τ) (t : Test) (h : k.passes c.id t) :
      WStep k (.check locked c t) k (afterTest locked c t)
  | fail (c : Call τ) (t : Test) : WStep k (.check false c t) k (queue c)
  | failLocked (c : Call τ) (t : Test) :
      WStep k (.check true c t) k (.retry c)
  | trylock (c : Call τ) (h : k.lock = false) :
      WStep k (.trylock c) { k with lock := true } (.check true c .id)
  | busy (c : Call τ) : WStep k (.trylock c) k (queue c)
  | write (c : Call τ) (n : ℕ) (hkind : c.package.kind = .send)
      (hprotocol : k.protocol = .tcp) (hn : n ≤ c.package.data.length) :
      WStep k (.write c) { k with wire := k.wire ++ c.package.data.take n }
        (afterWrite c n)
  | sendto (c : Call τ) (n : ℕ) (hprotocol : k.protocol ≠ .tcp) :
      WStep k (.write c) k (afterWrite c n)
  | sentto (c : Call τ) : WStep k (.write c) k (.unlock c.id)
  | sendtoFails (c : Call τ) : WStep k (.write c) k (.retry c)
  | setDw (c : Call τ) (n : ℕ) :
      WStep k (.setDw c n) { k with dw := some ⟨c.package, n, none⟩ }
        (.enable c.id)
  | enable (id : Id) : WStep k (.enable id) (k.spWrite true) (.unlock id)
  | unlock (id : Id) : WStep k (.unlock id) { k with lock := false } .idle
  | retry (c : Call τ) :
      WStep k (.retry c) { k with lock := false } (queue c)
  | tcp (c : Call τ) : WStep k (.protocol c) k (.inc c)
  | notTcp (c : Call τ) (h : k.protocol ≠ .tcp) :
      WStep k (.protocol c) k (.request (.send c.id c.package))
  | inc (c : Call τ) (htag : k.sending / 65536 = idTag16 c.id)
      (hmax : k.sending % 65536 ≠ 0xffff) :
      WStep k (.inc c) { k with sending := k.sending + 1 }
        (.request (.send c.id c.package))
  | otherTag (c : Call τ) (htag : k.sending / 65536 ≠ idTag16 c.id) :
      WStep k (.inc c) k (.request (.send c.id c.package))
  | udpQuiet (id : Id) (u u' : UdpConnect) (h : u'.locked = u.locked) :
      WStep k (.udpConnect id u) k (.udpConnect id u')
  | udpLock (id : Id) (h : k.lock = false) :
      WStep k (.udpConnect id .lock) { k with lock := true }
        (.udpConnect id .testIdLocked)
  | udpInc (id : Id) (n : ℕ) :
      WStep k (.udpConnect id .inc) { k with udpconnecting := n }
        (.udpConnect id .unlock)
  | udpUnlock (id : Id) (u : UdpConnect) (h : u.locked = true) :
      WStep k (.udpConnect id u) { k with lock := false }
        (.udpConnect id .resolve)
  | udpUnlockReturn (id : Id) (u : UdpConnect) (h : u.locked = true) :
      WStep k (.udpConnect id u) { k with lock := false } .idle
  | udpReturn (id : Id) (u : UdpConnect) (h : u.locked = false) :
      WStep k (.udpConnect id u) k .idle
  | udpRequest (id : Id) (address : Address) :
      WStep k (.udpConnect id .resolve) k (.request (.setUdp id address))

theorem wstep_stepWrite
    {k k' : Socket τ} {p' : WPc τ} {c : Call τ} {a : Act}
    (h : stepWrite k c a = .next (k', p')) : WStep k (.write c) k' p' := by
  unfold stepWrite at h
  split at h
  · cases h
  · rename_i hkind
    split at h
    · rename_i hprotocol
      cases hn : written c.package.data.length a with
      | none => simp [hn] at h
      | some n =>
          rw [hn] at h
          cases h
          refine .write c n hkind hprotocol ?_
          cases a with
          | bytes m =>
              simp only [written] at hn
              split at hn
              · cases hn
                assumption
              · cases hn
          | intr | again | failed =>
              cases hn
              exact Nat.zero_le _
          | _ => cases hn
    · rename_i hprotocol
      split at h
      · cases hn : written c.package.data.length a with
        | none => simp [hn] at h
        | some n =>
            rw [hn] at h
            cases h
            exact .sendto c n hprotocol
      · cases h
        exact .sentto c
  · split at h
    · cases a <;> cases h
      · exact .sentto c
      · exact .sendtoFails c
      · exact .sendtoFails c
      · exact .sendtoFails c
    · cases h
      exact .sentto c

theorem wstep_stepUdpConnect
    {k k' : Socket τ} {p' : WPc τ} {id : Id} {u : UdpConnect} {a : Act}
    (h : stepUdpConnect k id u a = .next (k', p')) :
    WStep k (.udpConnect id u) k' p' := by
  cases u with
  | testId =>
      cases h
      split
      · exact .udpQuiet id _ _ rfl
      · exact .udpReturn id _ rfl
  | testType =>
      cases h
      split
      · exact .udpReturn id _ rfl
      · exact .udpQuiet id _ _ rfl
  | lock =>
      simp only [stepUdpConnect] at h
      split at h
      · cases h
      · cases h
        exact .udpLock id (Bool.eq_false_iff.mpr ‹_›)
  | testIdLocked | testTypeLocked =>
      cases h
      split <;> exact .udpQuiet id _ _ rfl
  | inc =>
      cases h
      exact .udpInc id _
  | unlock =>
      cases h
      exact .udpUnlock id _ rfl
  | unlockInvalid =>
      cases h
      exact .udpUnlockReturn id _ rfl
  | resolve =>
      cases a <;> cases h
      · exact .udpReturn id _ rfl
      · exact .udpRequest id _

theorem wstep_workerLocal
    {k k' : Socket τ} {p p' : WPc τ} {a : Act}
    (h : workerLocal k p a = .next (k', p')) : WStep k p k' p' := by
  cases p with
  | idle | alloc _ _ | request _ => cases h
  | reserve o r =>
      have hr := rstep_reserveStep k r
      have hp : (k', p') = ((reserveStep k r).1,
          WPc.afterReserve o (reserveStep k r).2) := by
        simp only [workerLocal, Outcome.next.injEq] at h
        rw [← h]
        obtain ⟨k₁, out⟩ := reserveStep k r
        rcases out with r | n | id <;> rfl
      cases hp
      exact .reserve o hr
  | entryId c =>
      cases h
      split
      · exact .entryId c ‹_›
      · exact .wrongId c
  | entryType c =>
      simp only [workerLocal, stepEntry, Outcome.next.injEq] at h
      split at h
      · cases h
        exact .reject c
      · split at h
        · cases h
          exact .accept c ‹_›
        · cases h
          exact .reject c
  | check locked c t =>
      cases h
      unfold stepCheck
      split
      · exact .pass locked c t ‹_›
      · cases locked
        · exact .fail c t
        · exact .failLocked c t
  | trylock c =>
      simp only [workerLocal] at h
      split at h
      · cases h
        exact .busy c
      · cases h
        exact .trylock c (Bool.eq_false_iff.mpr ‹_›)
  | write c => exact wstep_stepWrite h
  | setDw c n =>
      cases h
      exact .setDw c n
  | enable id =>
      cases h
      exact .enable id
  | unlock id =>
      cases h
      exact .unlock id
  | retry c =>
      cases h
      exact .retry c
  | protocol c =>
      cases h
      split
      · exact .tcp c
      · exact .notTcp c ‹_›
  | inc c =>
      simp only [workerLocal, stepInc] at h
      split at h
      · split at h
        · cases h
        · cases h
          exact .inc c ‹_› ‹_›
      · cases h
        exact .otherTag c ‹_›
  | udpConnect id u => exact wstep_stepUdpConnect h

/-! ## Steps of the socket thread -/

/-- The id of a socket that a command opens. -/
def Command.opens : Command τ → Option Id
  | .open id | .listen id | .bind id | .udp id _ => some id
  | _ => none

/-- The package of a command, with its socket. -/
def Command.call : Command τ → Option (Call τ)
  | .send id package => some ⟨id, package⟩
  | _ => none

/-- `socket_server_poll` goes on or returns. -/
inductive SPc.Ends : SPc τ → Prop
  | poll : Ends .poll
  | ret (r : Report) : Ends (.ret r)
  | clear (r : Report) : Ends (.clear r)

theorem ends_finish (r : Option Report) : (finish r : SPc τ).Ends := by
  cases r with
  | none => exact .poll
  | some r => exact .ret r

theorem ends_afterClose (f : Closing) : (afterClose f : SPc τ).Ends := by
  unfold afterClose
  split
  · exact .clear _
  · exact .ret _

/-- The types of which no event is dispatched to the send and read functions. -/
def SocketType.special : SocketType → Bool
  | .connecting | .listen | .invalid => true
  | _ => false

/-- The types of which `send_socket` drops all packages. -/
def SocketType.deaf : SocketType → Bool
  | .invalid | .halfclose | .paccept | .plisten | .listen => true
  | _ => false

/-- A step of the socket thread at the socket `k`. -/
inductive SStep (k : Socket τ) : SPc τ → Socket τ → SPc τ → Prop
  | dispatchPoll (e : Event) : SStep k (.dispatch e) k .poll
  | dispatchConnect (e : Event) (i : ℕ) (hi : e.slot = some i)
      (h : k.type = .connecting) :
      SStep k (.dispatch e) k (.connect i e.id)
  | dispatchAccept (e : Event) (i : ℕ) (hi : e.slot = some i)
      (h : k.type = .listen) :
      SStep k (.dispatch e) k (.accept i e.id)
  | dispatchRead (e : Event) (i : ℕ) (hi : e.slot = some i)
      (h : k.type.special = false) :
      SStep k (.dispatch e) k (.read e i)
  | dispatchWrite (e : Event) (i : ℕ) (hi : e.slot = some i)
      (h : k.type.special = false) :
      SStep k (.dispatch e) k (.sendBuffer (.event i e.id))
  | dispatchClose (e : Event) (i : ℕ) (r : Report) (hi : e.slot = some i)
      (h : k.type.special = false) :
      SStep k (.dispatch e) k (.freeHigh i false ⟨false, r⟩)
  | cmdNew (c : Command τ) (id : Id) (n : NewFd) (h : c.opens = some id) :
      SStep k (.cmd c) k (.newFd id n)
  | cmdFailed (id : Id) (r : Option Report) :
      SStep k (.cmd (.open id)) k (.openFailed id false r)
  | cmdStart (id : Id) (hid : k.id = id)
      (htype : k.type = .paccept ∨ k.type = .plisten) :
      SStep k (.cmd (.start id)) k (.startAdd id)
  | cmdClose (id : Id) (shutdown : Bool) (htype : k.type ≠ .invalid)
      (hid : k.id = id) :
      SStep k (.cmd (.close id shutdown)) k
        (.closeTest id shutdown false .high)
  | cmdEnd (c : Command τ) {p : SPc τ} (hopens : c.opens = none)
      (hcall : c.call = none) (h : p.Ends) : SStep k (.cmd c) k p
  | cmdPeer (id : Id) (address : Address) (n : ℕ) :
      SStep k (.cmd (.setUdp id address))
        { k with peer := address, udpconnecting := n } .poll
  | drop (c : Call τ) (r : Option Report) :
      SStep k (.cmd (.send c.id c.package)) k (afterSend c r)
  | queueFirst (c : Call τ) (low : Bool) (address : Option Address)
      (r : Option Report) (hid : k.id = c.id) (htype : k.type = .connected)
      (hempty : k.sendBufferEmpty) (hlow : k.protocol = .tcp → low = false)
      (haddress : k.protocol ≠ .tcp →
        address = some (c.package.kind.address.getD k.peer)) :
      SStep k (.cmd (.send c.id c.package))
        (k.append low ⟨c.package, 0, address⟩).warn (.sendEnable c r)
  | queue (c : Call τ) (address : Option Address) (r : Option Report)
      (hid : k.id = c.id) (htype : k.type.deaf = false)
      (hused : k.type = .connected → k.sendBufferEmpty = false)
      (haddress : k.protocol ≠ .tcp →
        address = some (c.package.kind.address.getD k.peer)) :
      SStep k (.cmd (.send c.id c.package))
        (k.append (c.package.kind = .lowpriority)
          ⟨c.package, 0, address⟩).warn
        (afterSend c r)
  | newFd (id : Id) (n : NewFd) (htype : k.type = .reserve)
      (hempty : k.sendBufferEmpty) :
      SStep k (.newFd id n) (k.newFd id n.protocol n.add) (.setType id n)
  | newFdBind (id : Id) (n : NewFd) (r : Report) (htype : k.type = .reserve) :
      SStep k (.newFd id n) { k with type := .invalid } (.clear r)
  | newFdFails (id : Id) (n : NewFd) (r : Option Report)
      (htype : k.type = .reserve) :
      SStep k (.newFd id n) { k with type := .invalid } (.openFailed id true r)
  | setType (id : Id) (n : NewFd) :
      SStep k (.setType id n) { k with type := newType n } (afterType id n)
  | openFailed (id : Id) (again : Bool) (r : Option Report) {p : SPc τ}
      (h : p.Ends) :
      SStep k (.openFailed id again r) { k with type := .invalid } p
  | udpAddress (id : Id) :
      SStep k (.udpAddress id) { k with peer := ⟨0, []⟩ } .poll
  | openEnable (id : Id) : SStep k (.openEnable id) (k.spWrite true) .poll
  | startAdd (id : Id) :
      SStep k (.startAdd id) { k with poll := some false } (.startType id)
  | startAddFails (id : Id) :
      SStep k (.startAdd id) k
        (.freeHigh (hashId id) false ⟨true, ⟨.err, id, 0⟩⟩)
  | startType (id : Id) :
      SStep k (.startType id)
        { k with type := if k.type = .paccept then .connected else .listen }
        (.ret ⟨.open, id, 0⟩)
  | sendEnable (c : Call τ) (r : Option Report) :
      SStep k (.sendEnable c r) (k.spWrite true) (afterSend c r)
  | decId (c : Call τ) (r : Option Report) (h : k.id = c.id) :
      SStep k (.decId c r) k (.dec c r)
  | decOther (c : Call τ) (r : Option Report) (h : k.id ≠ c.id) :
      SStep k (.decId c r) k (finish r)
  | dec (c : Call τ) (r : Option Report) (hprotocol : k.protocol = .tcp)
      (h : k.sending % 65536 ≠ 0) :
      SStep k (.dec c r) { k with sending := k.sending - 1 } (finish r)
  | decUdp (c : Call τ) (r : Option Report) (hprotocol : k.protocol ≠ .tcp) :
      SStep k (.dec c r) k (finish r)
  | closePass (id : Id) (shutdown again : Bool) (t t' : DataTest) :
      SStep k (.closeTest id shutdown again t) k
        (.closeTest id shutdown again t')
  | closeSecond (id : Id) (t : DataTest) :
      SStep k (.closeTest id false false t) k (.closeTest id false true .high)
  | closeForce (id : Id) (shutdown again : Bool) (t : DataTest) :
      SStep k (.closeTest id shutdown again t) k
        (.freeHigh (hashId id) false ⟨true, ⟨.close, id, 0⟩⟩)
  | closeFlush (id : Id) (shutdown : Bool) (t : DataTest) :
      SStep k (.closeTest id shutdown false t) k
        (.sendBuffer (.close id shutdown))
  | closeHalf (id : Id) (shutdown : Bool) (t : DataTest) :
      SStep k (.closeTest id shutdown true t) k (.halfclose id)
  | halfclose (id : Id) :
      SStep k (.halfclose id) { k with type := .halfclose } .poll
  | busy (f : Caller) : SStep k (.sendBuffer f) k (afterBuffer f none)
  | lock (f : Caller) (h : k.lock = false) :
      SStep k (.sendBuffer f) { k with lock := true } (.takeDw f)
  | takeDw (f : Caller) :
      SStep k (.takeDw f) k.takeDw (.sendList f false)
  | listEnd (f : Caller) (low : Bool) :
      SStep k (.sendList f low) k (afterList k f low)
  | listRetry (f : Caller) (low : Bool) :
      SStep k (.sendList f low) k (.sendList f low)
  | listFails (f : Caller) (low : Bool) :
      SStep k (.sendList f low) k (.freeHigh f.slot true (closingOf f k.id))
  | sendAll (f : Caller) (low : Bool) (b : WriteBuffer τ)
      (rest : List (WriteBuffer τ)) (hprotocol : k.protocol = .tcp)
      (hlist : k.list low = b :: rest) :
      SStep k (.sendList f low)
        { k.setList low rest b.sz with
          wire := k.wire ++ (b.package.data.drop b.offset).take b.sz }
        (.sendList f low)
  | sendPart (f : Caller) (low : Bool) (b : WriteBuffer τ)
      (rest : List (WriteBuffer τ)) (n : ℕ) (hprotocol : k.protocol = .tcp)
      (hlist : k.list low = b :: rest) (hn : n < b.sz) :
      SStep k (.sendList f low)
        { k.setList low ({ b with offset := b.offset + n } :: rest) n with
          wire := k.wire ++ (b.package.data.drop b.offset).take n }
        (afterList
          (k.setList low ({ b with offset := b.offset + n } :: rest) n) f low)
  | udpSend (f : Caller) (low : Bool) (b : WriteBuffer τ)
      (rest : List (WriteBuffer τ)) (hprotocol : k.protocol ≠ .tcp)
      (hlist : k.list low = b :: rest) :
      SStep k (.sendList f low) (k.setList low rest b.sz) (.sendList f low)
  | udpDrop (f : Caller) (low : Bool) (b : WriteBuffer τ)
      (rest : List (WriteBuffer τ)) (hprotocol : k.protocol ≠ .tcp)
      (hlist : k.list low = b :: rest) :
      SStep k (.sendList f low) (k.setList low rest b.sz)
        (afterList (k.setList low rest b.sz) f low)
  | raise (f : Caller) (b : WriteBuffer τ) (rest : List (WriteBuffer τ))
      (hhigh : k.high = []) (hlow : k.low = b :: rest) :
      SStep k (.raise f) { k with high := [b], low := rest } (.unlock f none)
  | turnOff (f : Caller) (hempty : k.sendBufferEmpty) (hsize : k.wbSize = 0) :
      SStep k (.turnOff f) (k.spWrite false) (.sent f)
  | sentClose (f : Caller) (h : k.type = .halfclose) :
      SStep k (.sent f) k (.freeHigh f.slot true (closingOf f k.id))
  | sent (f : Caller) (n : ℤ) (r : Option Report) (h : k.type ≠ .halfclose) :
      SStep k (.sent f) { k with warnSize := n } (.unlock f r)
  | unlock (f : Caller) (r : Option Report) :
      SStep k (.unlock f r) { k with lock := false } (afterBuffer f r)
  | freeHigh (i : ℕ) (held : Bool) (f : Closing) (hinvalid : k.type ≠ .invalid)
      (hreserve : k.type ≠ .reserve) :
      SStep k (.freeHigh i held f) { k with high := [] } (.freeLow i held f)
  | freeInvalid (i : ℕ) (f : Closing) (h : k.type = .invalid) :
      SStep k (.freeHigh i false f) k (afterClose f)
  | freeInvalidHeld (i : ℕ) (f : Closing) (h : k.type = .invalid) :
      SStep k (.freeHigh i true f) k (.closeUnlock i f)
  | freeLow (i : ℕ) (held : Bool) (f : Closing) :
      SStep k (.freeLow i held f) { k with low := [] } (.del i held f)
  | del (i : ℕ) (held : Bool) (f : Closing) :
      SStep k (.del i held f) (stepDel k) (.closeLock i held f)
  | closeHeld (i : ℕ) (f : Closing) :
      SStep k (.closeLock i true f) k (.invalidate i f)
  | closeLock (i : ℕ) (f : Closing) (h : k.lock = false) :
      SStep k (.closeLock i false f) { k with lock := true } (.invalidate i f)
  | invalidate (i : ℕ) (f : Closing) :
      SStep k (.invalidate i f) { k with type := .invalid } (.freeDw i f)
  | freeDw (i : ℕ) (f : Closing) :
      SStep k (.freeDw i f) { k with dw := none } (.closeUnlock i f)
  | closeUnlock (i : ℕ) (f : Closing) :
      SStep k (.closeUnlock i f) { k with lock := false } (afterClose f)
  | connect (i : ℕ) (id : Id) :
      SStep k (.connect i id) { k with type := .connected }
        (.connectTest i .high)
  | connectFails (i : ℕ) (id : Id) (r : Report) :
      SStep k (.connect i id) k (.freeHigh i false ⟨false, r⟩)
  | connectPass (i : ℕ) (t t' : DataTest) (h : k.noData t)
      (ht : t.next = some t') :
      SStep k (.connectTest i t) k (.connectTest i t')
  | connectIdle (i : ℕ) (t : DataTest) (h : k.noData t)
      (ht : t.next = none) :
      SStep k (.connectTest i t) k (.connectOff i)
  | connectBusy (i : ℕ) (t : DataTest) (r : Report) :
      SStep k (.connectTest i t) k (.ret r)
  | connectOff (i : ℕ) (r : Report) :
      SStep k (.connectOff i) (k.spWrite false) (.ret r)
  | acceptEnd (i : ℕ) (id : Id) {p : SPc τ} (h : p.Ends) :
      SStep k (.accept i id) k p
  | accept (i : ℕ) (id : Id) :
      SStep k (.accept i id) k (.acceptAlloc k.id (.inc 0))
  | reserve (listener : Id) {r : Reserve} {k' : Socket τ}
      {out : Reserve ⊕ Alloc ⊕ Id} (h : RStep k r k' out) :
      SStep k (.acceptReserve listener r) k' (.afterReserve listener out)
  | readClose (e : Event) (i : ℕ) (r : Report) :
      SStep k (.read e i) k (.freeHigh i false ⟨false, r⟩)
  | readKept (e : Event) (i : ℕ) (kept : Option Event) (r : Option Report)
      (h : ∀ e' ∈ kept, e'.slot = e.slot ∧ e'.id = e.id) :
      SStep k (.read e i) k (.kept kept r)

section Inversion

variable {k k' : Socket τ} {p' : SPc τ} {a : Act}

theorem sstep_sendSocket
    {c : Call τ} (h : sendSocket k c a = .next (k', p')) :
    SStep k (.cmd (.send c.id c.package)) k' p' := by
  unfold sendSocket at h
  simp only at h
  split at h
  · cases h
    exact .drop c none
  · rename_i hdeaf
    push Not at hdeaf
    obtain ⟨h1, hid, h2, h3, h4, h5⟩ := hdeaf
    have hdeaf : k.type.deaf = false := by
      cases htype : k.type <;> first | rfl | contradiction
    split at h
    · rename_i hfirst
      split at h
      · rename_i hprotocol
        cases h
        exact .queueFirst c false none _ hid hfirst.2 hfirst.1 (fun _ => rfl)
          fun hp => absurd hprotocol hp
      · rename_i hprotocol
        split at h
        · cases hn : written c.package.data.length a with
          | none => simp [hn] at h
          | some n =>
              rw [hn] at h
              simp only at h
              split at h
              · cases h
                exact .drop c none
              · cases h
                exact .queueFirst c _ _ _ hid hfirst.2 hfirst.1
                  (fun hp => absurd hp hprotocol) fun _ => rfl
        · cases h
          exact .drop c none
    · rename_i hused
      have hused : k.type = .connected → k.sendBufferEmpty = false := by
        intro htype
        rw [← Bool.not_eq_true]
        exact fun he => hused ⟨he, htype⟩
      split at h
      · rename_i hprotocol
        cases h
        exact .queue c none _ hid hdeaf hused fun hp => absurd hprotocol hp
      · cases h
        exact .queue c _ _ hid hdeaf hused fun _ => rfl

theorem sstep_stepNewFd
    {id : Id} {n : NewFd} (h : stepNewFd k id n a = .next (k', p')) :
    SStep k (.newFd id n) k' p' := by
  unfold stepNewFd at h
  split at h
  · cases h
  · rename_i htype
    rw [not_not] at htype
    split at h
    · cases n <;> cases h
      · exact .newFdFails id _ _ htype
      · exact .newFdFails id _ _ htype
      · exact .newFdBind id _ _ htype
      · exact .newFdFails id _ _ htype
      · exact .newFdFails id _ _ htype
    · split at h
      · cases h
        exact .newFd id n htype ‹_›
      · cases h

theorem sstep_stepCmd
    {c : Command τ} (h : stepCmd k c a = .next (k', p')) :
    SStep k (.cmd c) k' p' := by
  cases c with
  | «open» id =>
      cases h
      split
      · exact .cmdFailed id _
      · exact .cmdNew _ id _ rfl
      · exact .cmdNew _ id _ rfl
  | listen id | bind id | udp id _ =>
      cases h
      exact .cmdNew _ id _ rfl
  | start id =>
      cases h
      unfold stepStart
      split
      · exact .cmdEnd _ rfl rfl (.clear _)
      · rename_i hlive
        push Not at hlive
        split
        · exact .cmdStart id hlive.2 ‹_›
        · split
          · exact .cmdEnd _ rfl rfl (.ret _)
          · exact .cmdEnd _ rfl rfl .poll
  | close id shutdown =>
      cases h
      unfold stepClose
      split
      · exact .cmdEnd _ rfl rfl (.clear _)
      · rename_i hlive
        push Not at hlive
        exact .cmdClose id shutdown hlive.1 hlive.2
  | send id package => exact sstep_sendSocket h
  | setUdp id address =>
      simp only [stepCmd, stepSetUdp, Outcome.next.injEq] at h
      split at h
      · cases h
        exact .cmdEnd _ rfl rfl .poll
      · split at h
        · cases h
          exact .cmdEnd _ rfl rfl (.clear _)
        · cases h
          exact .cmdPeer id address _
  | setopt id =>
      cases h
      exact .cmdEnd _ rfl rfl .poll
  | exit => cases h

theorem sstep_stepSendTcp
    {f : Caller} {low : Bool} (hprotocol : k.protocol = .tcp)
    (h : stepSendTcp k f low a = .next (k', p')) :
    SStep k (.sendList f low) k' p' := by
  unfold stepSendTcp at h
  split at h
  · cases h
    exact .listEnd f low
  · rename_i b rest hlist
    cases a with
    | bytes n =>
        simp only at h
        split at h
        · rename_i hn
          cases h
          subst hn
          exact .sendAll f low b rest hprotocol hlist
        · split at h
          · rename_i hn
            cases h
            have hstep := SStep.sendPart f low b rest n hprotocol hlist hn
            cases low <;> exact hstep
          · cases h
    | intr =>
        cases h
        exact .listRetry f low
    | again =>
        cases h
        exact .listEnd f low
    | failed =>
        cases h
        exact .listFails f low
    | _ => cases h

theorem sstep_stepSendUdp
    {f : Caller} {low : Bool} (hprotocol : k.protocol ≠ .tcp)
    (h : stepSendUdp k f low a = .next (k', p')) :
    SStep k (.sendList f low) k' p' := by
  unfold stepSendUdp at h
  split at h
  · cases h
    exact .listEnd f low
  · rename_i b rest hlist
    simp only at h
    split at h
    · cases h
      exact .udpDrop f low b rest hprotocol hlist
    · cases a <;> cases h
      · exact .udpSend f low b rest hprotocol hlist
      · exact .listEnd f low
      · exact .listEnd f low
      · exact .udpDrop f low b rest hprotocol hlist

theorem sstep_stepDispatch
    {e : Event} {i : ℕ} (hi : e.slot = some i) :
    SStep k (.dispatch e) k (stepDispatch k e i) := by
  have hdefault (h : k.type.special = false) :
      SStep k (.dispatch e) k
        (if e.read then .read e i
        else if e.write then .sendBuffer (.event i e.id)
        else if e.error then .freeHigh i false ⟨false, ⟨.err, k.id, 0⟩⟩
        else if e.eof then .freeHigh i false ⟨false, ⟨.close, k.id, 0⟩⟩
        else .poll) := by
    split
    · exact .dispatchRead e i hi h
    · split
      · exact .dispatchWrite e i hi h
      · split
        · exact .dispatchClose e i _ hi h
        · split
          · exact .dispatchClose e i _ hi h
          · exact .dispatchPoll e
  unfold stepDispatch
  cases htype : k.type with
  | connecting => exact .dispatchConnect e i hi htype
  | listen => exact .dispatchAccept e i hi htype
  | invalid => exact .dispatchPoll e
  | _ => exact hdefault (by rw [htype]; rfl)

theorem sstep_stepRead
    {e : Event} {i : ℕ} (h : stepRead k e i a = .next p') :
    SStep k (.read e i) k p' := by
  have hkeep : ∀ e' ∈ keep e, e'.slot = e.slot ∧ e'.id = e.id := by
    intro e' he'
    unfold keep at he'
    split at he'
    · cases he'
      exact ⟨rfl, rfl⟩
    · cases he'
  have hself : ∀ e' ∈ some e, e'.slot = e.slot ∧ e'.id = e.id := by
    intro e' he'
    cases he'
    exact ⟨rfl, rfl⟩
  cases a with
  | bytes n =>
      simp only [stepRead] at h
      split at h
      · split at h
        · cases h
          exact .readClose e i _
        · split at h
          · cases h
            exact .readKept e i _ none hkeep
          · cases h
            exact .readKept e i _ _ hkeep
      · cases h
        exact .readKept e i _ _ hself
  | intr | again | mismatch =>
      cases h
      exact .readKept e i _ none hkeep
  | failed =>
      cases h
      exact .readClose e i _
  | _ => cases h

theorem sstep_stepCloseTest
    {id : Id} {shutdown again : Bool} {t : DataTest} :
    SStep k (.closeTest id shutdown again t) k
      (stepCloseTest k id shutdown again t) := by
  unfold stepCloseTest
  split
  · split
    · exact .closePass id shutdown again t _
    · split
      · exact .closeForce id shutdown again t
      · rename_i hagain
        rw [Bool.eq_false_iff.mpr hagain]
        cases shutdown
        · exact .closeSecond id t
        · exact .closeForce id true false t
  · cases again
    · exact .closeFlush id shutdown t
    · exact .closeHalf id shutdown t

theorem sstep_serverLocal
    {p : SPc τ} (h : serverLocal k p a = .next (k', p')) :
    SStep k p k' p' := by
  cases p with
  | poll | ret _ | events | clear _ | acceptAlloc _ _ | kept _ _ => cases h
  | dispatch e =>
      cases hi : e.slot with
      | none => simp [serverLocal, hi] at h
      | some i =>
          simp only [serverLocal, hi] at h
          cases h
          exact sstep_stepDispatch hi
  | cmd c => exact sstep_stepCmd h
  | newFd id n => exact sstep_stepNewFd h
  | setType id n =>
      cases h
      exact .setType id n
  | openFailed id again r =>
      cases h
      refine .openFailed id again r ?_
      cases r with
      | none => exact .poll
      | some r => exact .clear r
  | udpAddress id =>
      cases h
      exact .udpAddress id
  | openEnable id =>
      cases h
      exact .openEnable id
  | startAdd id =>
      simp only [serverLocal] at h
      split at h
      · cases h
        exact .startAddFails id
      · cases h
        exact .startAdd id
  | startType id =>
      cases h
      exact .startType id
  | sendEnable c r =>
      cases h
      exact .sendEnable c r
  | decId c r =>
      cases h
      split
      · exact .decId c r ‹_›
      · exact .decOther c r ‹_›
  | dec c r =>
      simp only [serverLocal, stepDec] at h
      split at h
      · split at h
        · cases h
        · cases h
          exact .dec c r ‹_› ‹_›
      · cases h
        exact .decUdp c r ‹_›
  | closeTest id shutdown again t =>
      cases h
      exact sstep_stepCloseTest
  | halfclose id =>
      cases h
      exact .halfclose id
  | sendBuffer f =>
      simp only [serverLocal] at h
      split at h
      · cases h
        exact .busy f
      · cases h
        exact .lock f (Bool.eq_false_iff.mpr ‹_›)
  | takeDw f =>
      simp only [serverLocal, stepTakeDw] at h
      split at h
      · cases h
      · cases h
        exact .takeDw f
  | sendList f low =>
      simp only [serverLocal, stepSendList] at h
      split at h
      · exact sstep_stepSendTcp ‹_› h
      · exact sstep_stepSendUdp ‹_› h
  | raise f =>
      simp only [serverLocal, stepRaise] at h
      split at h
      · rename_i b rest hhigh hlow
        cases h
        exact .raise f b rest hhigh hlow
      · cases h
  | turnOff f =>
      simp only [serverLocal, stepTurnOff] at h
      split at h
      · rename_i hempty
        cases h
        exact .turnOff f hempty.1 hempty.2
      · cases h
  | sent f =>
      simp only [serverLocal, stepSent, Outcome.next.injEq] at h
      split at h
      · cases h
        exact .sentClose f ‹_›
      · split at h
        · cases h
          exact .sent f 0 _ ‹_›
        · cases h
          exact .sent f k.warnSize none ‹_›
  | unlock f r =>
      cases h
      exact .unlock f r
  | freeHigh i held f =>
      simp only [serverLocal, stepFreeHigh] at h
      split at h
      · cases h
        cases held
        · exact .freeInvalid i f ‹_›
        · exact .freeInvalidHeld i f ‹_›
      · split at h
        · cases h
        · cases h
          exact .freeHigh i held f ‹_› ‹_›
  | freeLow i held f =>
      cases h
      exact .freeLow i held f
  | del i held f =>
      cases h
      exact .del i held f
  | closeLock i held f =>
      simp only [serverLocal, stepCloseLock] at h
      split at h
      · rename_i hheld
        cases h
        rw [hheld]
        exact .closeHeld i f
      · rename_i hheld
        split at h
        · cases h
        · cases h
          rw [Bool.eq_false_iff.mpr hheld]
          exact .closeLock i f (Bool.eq_false_iff.mpr ‹_›)
  | invalidate i f =>
      cases h
      exact .invalidate i f
  | freeDw i f =>
      cases h
      exact .freeDw i f
  | closeUnlock i f =>
      cases h
      exact .closeUnlock i f
  | connect i id =>
      simp only [serverLocal] at h
      split at h
      · cases h
        exact .connectFails i id _
      · cases h
        exact .connect i id
  | connectTest i t =>
      cases h
      unfold stepConnectTest
      split
      · split
        · exact .connectPass i t _ ‹_› ‹_›
        · exact .connectIdle i t ‹_› ‹_›
      · exact .connectBusy i t _
  | connectOff i =>
      cases h
      exact .connectOff i _
  | accept i id =>
      cases h
      cases a
      case failed => exact .acceptEnd i id (.ret _)
      case again => exact .acceptEnd i id .poll
      all_goals exact .accept i id
  | acceptReserve listener r =>
      have hr := rstep_reserveStep k r
      have hp : (k', p') = ((reserveStep k r).1,
          SPc.afterReserve listener (reserveStep k r).2) := by
        simp only [serverLocal, Outcome.next.injEq] at h
        rw [← h]
        obtain ⟨k₁, out⟩ := reserveStep k r
        rcases out with r | n | id <;> rfl
      cases hp
      exact .reserve listener hr
  | read e i =>
      simp only [serverLocal] at h
      split at h
      · rename_i p hp
        cases h
        exact sstep_stepRead hp
      · cases h
      · cases h

end Inversion

/-! ## Steps of the system -/

/-- Where a worker is after a step at `alloc_id`. -/
def WPc.afterAlloc (o : Opening) : Option (Alloc ⊕ Reserve) → WPc τ
  | some (.inl n) => .alloc o n
  | some (.inr r) => .reserve o r
  | none => .idle

/-- Where the socket thread is after a step at `alloc_id`. -/
def SPc.afterAlloc (listener : Id) : Option (Alloc ⊕ Reserve) → SPc τ
  | some (.inl n) => .acceptAlloc listener n
  | some (.inr r) => .acceptReserve listener r
  | none => .poll

/-- A step of the system. -/
inductive Move [DecidableEq τ] (s : State τ) :
    Option τ × Act → State τ → Prop
  | worker (w : τ) (a : Act) (i : ℕ) {k : Socket τ} {p : WPc τ}
      (hi : (s.worker w).slot = some i)
      (h : WStep (s.slot i) (s.worker w) k p) :
      Move s (some w, a) ((s.setSlot i k).goto w p)
  | enter (w : τ) (api : Api) (hpc : s.worker w = .idle) :
      Move s (some w, .call api) (s.goto w (enter w api))
  | push (w : τ) (a : Act) (c : Command τ) (hpc : s.worker w = .request c) :
      Move s (some w, a) (State.goto { s with pipe := s.pipe ++ [c] } w .idle)
  | alloc (w : τ) (a : Act) (o : Opening) (n : Alloc)
      (hpc : s.worker w = .alloc o n) :
      Move s (some w, a)
        (State.goto { s with allocId := (allocStep s.allocId n).1 } w
          (.afterAlloc o (allocStep s.allocId n).2))
  | server (a : Act) (i : ℕ) {k : Socket τ} {p : SPc τ}
      (hi : s.server.slot = some i) (h : SStep (s.slot i) s.server k p) :
      Move s (none, a) ((s.setSlot i k).serve p)
  | take (a : Act) (c : Command τ) (rest : List (Command τ))
      (hpc : s.server = .poll) (hpipe : s.pipe = c :: rest) :
      Move s (none, a) (State.serve { s with pipe := rest } (.cmd c))
  | events (a : Act) (check : Bool) (hpc : s.server = .poll) :
      Move s (none, a) (State.serve { s with checkctrl := check } .events)
  | ret (a : Act) (r : Report) (hpc : s.server = .ret r) :
      Move s (none, a) (s.serve .poll)
  | next (a : Act) (e : Event) (rest : List Event)
      (hpc : s.server = .events) (hev : s.ev = e :: rest) :
      Move s (none, a) (State.serve { s with ev := rest } (.dispatch e))
  | wait (events : List Event) {p : SPc τ} (hpc : s.server = .events)
      (hev : s.ev = []) (hready : s.canBeReady events)
      (hp : p = .poll ∨ p = .events) :
      Move s (none, .ready events)
        (State.serve { s with ev := events.map s.stamp, checkctrl := true } p)
  | dispatchNull (a : Act) (e : Event) (hpc : s.server = .dispatch e)
      (hslot : e.slot = none) : Move s (none, a) (s.serve .poll)
  | exit (a : Act) (c : Command τ) (hpc : s.server = .cmd c)
      (hslot : c.slot = none) :
      Move s (none, a) (s.serve (.ret ⟨.exit, 0, 0⟩))
  | clear (a : Act) (r : Report) (hpc : s.server = .clear r) :
      Move s (none, a)
        (State.serve { s with ev := s.clearClosedEvent r.id s.ev } (.ret r))
  | acceptAlloc (a : Act) (listener : Id) (n : Alloc)
      (hpc : s.server = .acceptAlloc listener n) :
      Move s (none, a)
        (State.serve { s with allocId := (allocStep s.allocId n).1 }
          (.afterAlloc listener (allocStep s.allocId n).2))
  | kept (a : Act) (e : Option Event) (r : Option Report)
      (hpc : s.server = .kept e r) :
      Move s (none, a)
        (State.serve { s with ev := e.toList ++ s.ev } (finish r))

/-- A step changes at most one slot, by a step of a thread there. -/
theorem Move.slot_cases
    [DecidableEq τ] {s s' : State τ} {l : Option τ × Act} (h : Move s l s') (i : ℕ) :
    s'.slot i = s.slot i ∨
      (∃ w a p, l = (some w, a) ∧ (s.worker w).slot = some i ∧
        WStep (s.slot i) (s.worker w) (s'.slot i) p) ∨
      ∃ a p, l = (none, a) ∧ s.server.slot = some i ∧
        SStep (s.slot i) s.server (s'.slot i) p := by
  cases h with
  | @worker w a j k p hj hw =>
      by_cases hij : i = j
      · subst hij
        refine .inr (.inl ⟨w, a, p, rfl, hj, ?_⟩)
        simpa [State.setSlot, State.goto] using hw
      · exact .inl (Function.update_of_ne hij ..)
  | @server a j k p hj hs =>
      by_cases hij : i = j
      · subst hij
        refine .inr (.inr ⟨a, p, rfl, hj, ?_⟩)
        simpa [State.setSlot, State.serve] using hs
      · exact .inl (Function.update_of_ne hij ..)
  | _ => exact .inl rfl

namespace State

variable [DecidableEq τ] {s s' : State τ}

theorem move_of_workerGlobal
    {w : τ} {a : Act} (h : s.workerGlobal w a = .next s') :
    Move s (some w, a) s' := by
  cases hpc : s.worker w with
  | idle =>
      cases a with
      | call api =>
          simp only [workerGlobal, hpc] at h
          cases h
          exact .enter w api hpc
      | _ => simp [workerGlobal, hpc] at h
  | request c =>
      simp only [workerGlobal, hpc] at h
      cases h
      exact .push w a c hpc
  | alloc o n =>
      simp only [workerGlobal, hpc] at h
      cases h
      exact .alloc w a o n hpc
  | _ => simp [workerGlobal, hpc] at h

theorem move_of_serverGlobal
    {a : Act} (hslot : s.server.slot = none)
    (h : s.serverGlobal a = .next s') : Move s (none, a) s' := by
  cases hpc : s.server with
  | poll =>
      simp only [serverGlobal, hpc] at h
      split at h
      · split at h
        · cases h
          exact .take a _ _ hpc ‹_›
        · cases h
          exact .events a false hpc
      · cases h
        exact .events a s.checkctrl hpc
  | ret r =>
      simp only [serverGlobal, hpc] at h
      cases h
      exact .ret a r hpc
  | events =>
      simp only [serverGlobal, hpc] at h
      split at h
      · cases h
        exact .next a _ _ hpc ‹_›
      · cases a with
        | ready events =>
            simp only at h
            split at h
            · cases h
              refine .wait events hpc ‹_› ‹_› ?_
              split
              · exact .inl rfl
              · exact .inr rfl
            · cases h
        | _ => cases h
  | dispatch e =>
      rw [hpc] at hslot
      simp only [serverGlobal, hpc] at h
      cases h
      exact .dispatchNull a e hpc hslot
  | cmd c =>
      rw [hpc] at hslot
      simp only [serverGlobal, hpc] at h
      cases h
      exact .exit a c hpc hslot
  | clear r =>
      simp only [serverGlobal, hpc] at h
      cases h
      exact .clear a r hpc
  | acceptAlloc listener n =>
      simp only [serverGlobal, hpc] at h
      cases h
      exact .acceptAlloc a listener n hpc
  | kept e r =>
      simp only [serverGlobal, hpc] at h
      cases h
      exact .kept a e r hpc
  | _ => simp [serverGlobal, hpc] at h

/-- Every step is one of the list. -/
theorem move_of_step
    {l : Option τ × Act} (h : s.step l = .next s') : Move s l s' := by
  obtain ⟨t, a⟩ := l
  cases t with
  | some w =>
      simp only [step, workerStep] at h
      split at h
      · rename_i i hi
        split at h
        · rename_i k p hlocal
          cases h
          exact .worker w a i hi (wstep_workerLocal hlocal)
        · cases h
        · cases h
      · exact move_of_workerGlobal h
  | none =>
      simp only [step, serverStep] at h
      split at h
      · rename_i i hi
        split at h
        · rename_i k p hlocal
          cases h
          exact .server a i hi (sstep_serverLocal hlocal)
        · cases h
        · cases h
      · rename_i hslot
        exact move_of_serverGlobal hslot h

end State

end SkynetServer.SocketServer
