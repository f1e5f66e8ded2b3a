import SkynetServer.Harbor.Service
import SkynetServer.Support.Integers

/-!
# Delivery of remote messages

Every message that was accepted is sent once, to the harbor of its handle and
with its handle in the header, in the order of acceptance for one source and
one handle.

The exception is `dispatch_name_queue`.  When the link to the harbor of a
handle does not exist, the messages that wait for its name go to the queue of
the link without their handle; when the link waits for a handshake, they
overtake the messages in that queue.
-/

namespace SkynetServer.Harbor

open Function Transition

/-- The message of a request to a handle. -/
def Request.message (r : Request) (handle : Handle) (ticket : ℕ) :
    HarborMsg :=
  ⟨⟨r.source, typeBits r.type ||| (handle &&& handleMask), r.session⟩,
    r.msg, ticket⟩

/-- A package on the wire. -/
structure Sent where
  fd : ℤ
  msg : HarborMsg

/-- A package is sent whole if its size, an `int`, is not too large. -/
def Output.sent : Output → Option Sent
  | .remote fd m =>
    if (BitVec.ofNat 32 (m.buffer.length + 16)).toInt = m.buffer.length + 16
    then some ⟨fd, m⟩
    else none
  | _ => none

/-- The requests with these tickets are from one source and to one handle. -/
def Conflict (rs : List Request) (i j : ℕ) : Prop :=
  ∃ r r', rs[i]? = some r ∧ rs[j]? = some r' ∧ r.source = r'.source ∧
    r.handle ≠ none ∧ r.handle = r'.handle

namespace State

variable (h : State)

/-- The packages on the wires, in the order in which they were sent. -/
def wire : List Sent := h.out.filterMap Output.sent

/-- The link to a harbor is up. -/
def Up (k : ℕ) : Prop :=
  (h.s k).fd ≠ 0 ∧ (h.s k).status ≠ .handshake ∧ (h.s k).status ≠ .down

/-- Every message leaves once, as it was accepted and in order. -/
structure Delivered : Prop where
  /-- No message is sent twice. -/
  once : (h.wire.map fun e => e.msg.ticket).Nodup
  /-- What is sent is a message that was accepted, with the handle in its
  header, and goes to the harbor of the handle. -/
  whole : ∀ e ∈ h.wire, ∃ r handle, h.requests[e.msg.ticket]? = some r ∧
    r.handle = some handle ∧ e.fd = (h.s (harborId handle)).fd ∧
    e.msg = r.message handle e.msg.ticket
  /-- A message to a name that is bound has a handle. -/
  bound : ∀ r ∈ h.requests, ∀ name, r.name = some name →
    (h.map name).value ≠ 0 → r.handle ≠ none
  /-- A message to a remote handle is sent when the link is up. -/
  complete : ∀ i r handle, h.requests[i]? = some r →
    r.handle = some handle → harborId handle ≠ h.id →
    h.Up (harborId handle) → ∃ e ∈ h.wire, e.msg.ticket = i
  /-- Messages from one source to one handle leave in order. -/
  order : (h.wire.map fun e => e.msg.ticket).Pairwise fun i j =>
    Conflict h.requests i j → i < j

/-- No link goes down at the step. -/
def KeepsLinks : Label → Prop
  | .data fd first received => ∀ k, h.slaveOf fd = some k →
      ((h.s k).status = .handshake → first.toNat = k) ∧ received ≠ .tooLong
  | .close fd => h.slaveOf fd = none
  | _ => True

/-- The messages that wait for a name can leave when it is bound to a remote
handle: the harbor of the handle has an fd, and every message of the same
source to the handle was accepted before and has left. -/
def MayLeave (name : Name) (handle : Handle) : Prop :=
  (h.s (harborId handle)).fd ≠ 0 ∧
  ∀ m ∈ (h.map name).queue.getD [], ∀ j r, h.requests[j]? = some r →
    r.handle = some handle → r.source = m.header.source →
    j < m.ticket ∧ ∃ e ∈ h.wire, e.msg.ticket = j

/-- No message is too large for a package, and no name is bound while
messages wait for it that cannot leave. -/
def Spares : Label → Prop
  | .system _ _ _ _ _ msg => msg.length + 16 < 2 ^ 31
  | .name name handle => (h.map name).queue = none ∨
      (harborId handle = h.id ∧ (h.s h.id).fd = 0) ∨ h.MayLeave name handle
  | _ => True

end State

/-! ## Requests that wait for a name -/

section Waiting

variable (rs : List Request) (name : Name)

/-- The message of a request that waits for the name. -/
def Request.waiting (r : Request) (i : ℕ) : Option HarborMsg :=
  if r.name = some name ∧ r.handle = none then some (r.message 0 i) else none

/-- The messages that wait for the name, in the order of their tickets. -/
def waiting : List HarborMsg :=
  rs.zipIdx.filterMap fun p => p.1.waiting name p.2

theorem mem_waiting {m : HarborMsg} :
    m ∈ waiting rs name ↔ ∃ r, rs[m.ticket]? = some r ∧
      r.name = some name ∧ r.handle = none ∧ m = r.message 0 m.ticket := by
  rw [waiting, List.mem_filterMap]
  constructor
  · rintro ⟨⟨r, i⟩, hmem, hwaiting⟩
    rw [Request.waiting] at hwaiting
    split at hwaiting
    · rename_i hr
      cases hwaiting
      exact ⟨r, List.mem_zipIdx_iff_getElem?.1 hmem, hr.1, hr.2, rfl⟩
    · cases hwaiting
  · rintro ⟨r, hr, hname, hhandle, hm⟩
    refine ⟨(r, m.ticket), List.mem_zipIdx_iff_getElem?.2 hr, ?_⟩
    rw [Request.waiting, if_pos ⟨hname, hhandle⟩, ← hm]

theorem waiting_pairwise :
    (waiting rs name).Pairwise fun m m' => m.ticket < m'.ticket := by
  have hzip : rs.zipIdx.Pairwise fun p p' => p.2 < p'.2 := by
    rw [← List.pairwise_map, List.zipIdx_map_snd]
    exact List.pairwise_lt_range'
  refine List.Pairwise.filterMap _ ?_ hzip
  intro p p' hlt m hm m' hm'
  rw [Request.waiting] at hm hm'
  split at hm
  · split at hm'
    · cases hm
      cases hm'
      exact hlt
    · cases hm'
  · cases hm

theorem waiting_append (r : Request) :
    waiting (rs ++ [r]) name =
      waiting rs name ++ (r.waiting name rs.length).toList := by
  rw [waiting, List.zipIdx_append, List.filterMap_append, ← waiting]
  congr 1
  rw [Nat.zero_add, List.zipIdx_singleton, List.filterMap_cons]
  cases r.waiting name rs.length <;> rfl

theorem waiting_bind (handle : Handle) (name' : Name) :
    waiting (rs.map (Request.bind name handle)) name' =
      if name' = name then [] else waiting rs name' := by
  have hpoint : ∀ (r : Request) i,
      (r.bind name handle).waiting name' i =
        if name' = name then none else r.waiting name' i := by
    intro r i
    unfold Request.bind Request.waiting
    by_cases hr : r.name = some name ∧ r.handle = none
    · rw [if_pos hr, if_neg (by simp)]
      by_cases hname : name' = name
      · rw [if_pos hname]
      · rw [if_neg hname, if_neg]
        rintro ⟨hname', -⟩
        exact hname (Option.some.inj (hname'.symm.trans hr.1))
    · rw [if_neg hr]
      by_cases hname : name' = name
      · rw [if_pos hname, hname, if_neg hr]
      · rw [if_neg hname]
  have hmap : waiting (rs.map (Request.bind name handle)) name' =
      rs.zipIdx.filterMap fun p =>
        if name' = name then none else p.1.waiting name' p.2 := by
    rw [waiting, List.zipIdx_map, List.filterMap_map]
    exact List.filterMap_congr fun p _ => hpoint p.1 p.2
  rw [hmap]
  split
  · exact List.filterMap_none _
  · rfl

end Waiting

/-! ## Messages on their way -/

/-- A request that has a handle keeps its place. -/
def Keeps (rs rs' : List Request) : Prop :=
  ∀ (i : ℕ) (r : Request) (handle : Handle), rs[i]? = some r →
    r.handle = some handle → rs'[i]? = some r

theorem keeps_append (rs : List Request) (r : Request) :
    Keeps rs (rs ++ [r]) := by
  intro i r' handle hr' _
  rw [List.getElem?_append_left (List.getElem?_eq_some_iff.1 hr').1, hr']

theorem keeps_bind (rs : List Request) (name : Name) (handle : Handle) :
    Keeps rs (rs.map (Request.bind name handle)) := by
  intro i r handle' hr hhandle
  rw [List.getElem?_map, hr, Option.map_some, Request.bind, if_neg]
  rintro ⟨-, hnone⟩
  rw [hhandle] at hnone
  cases hnone

/-- The message is that of a request to a handle of the harbor. -/
def Fits (rs : List Request) (k : ℕ) (m : HarborMsg) : Prop :=
  ∃ r handle, rs[m.ticket]? = some r ∧ r.handle = some handle ∧
    harborId handle = k ∧ m = r.message handle m.ticket

/-- The first ticket may leave before the second one. -/
def Before (rs : List Request) (i j : ℕ) : Prop :=
  i ≠ j ∧ (Conflict rs i j → i < j)

/-- The messages on the wires and in the queues of the harbors. -/
structure Outgoing (rs : List Request) (wire : List Sent)
    (queue : ℕ → List HarborMsg) (fd : ℕ → ℤ) : Prop where
  sent : ∀ e ∈ wire, ∃ k, Fits rs k e.msg ∧ e.fd = fd k ∧ fd k ≠ 0
  queued : ∀ k, ∀ m ∈ queue k, Fits rs k m
  order : ∀ k, (wire.map Sent.msg ++ queue k).Pairwise fun m m' =>
    Before rs m.ticket m'.ticket

section Messages

variable {rs rs' : List Request} {wire : List Sent}
  {queue : ℕ → List HarborMsg} {fd : ℕ → ℤ} {k k' : ℕ} {m m' : HarborMsg}

theorem Fits.mono (h : Fits rs k m) (hkeeps : Keeps rs rs') :
    Fits rs' k m := by
  obtain ⟨r, handle, hr, hhandle, hk, hm⟩ := h
  exact ⟨r, handle, hkeeps _ r handle hr hhandle, hhandle, hk, hm⟩

theorem Conflict.of_keeps
    (h : Conflict rs' m.ticket m'.ticket) (hkeeps : Keeps rs rs')
    (hm : Fits rs k m) (hm' : Fits rs k' m') :
    Conflict rs m.ticket m'.ticket := by
  obtain ⟨r, handle, hr, hhandle, -⟩ := hm
  obtain ⟨r', handle', hr', hhandle', -⟩ := hm'
  obtain ⟨r₁, r₁', hr₁, hr₁', hsource, hne, heq⟩ := h
  rw [hkeeps _ r handle hr hhandle] at hr₁
  rw [hkeeps _ r' handle' hr' hhandle'] at hr₁'
  cases hr₁
  cases hr₁'
  exact ⟨r, r', hr, hr', hsource, hne, heq⟩

theorem Conflict.symm {i j : ℕ} (h : Conflict rs i j) : Conflict rs j i := by
  obtain ⟨r, r', hr, hr', hsource, hne, heq⟩ := h
  exact ⟨r', r, hr', hr, hsource.symm, heq ▸ hne, heq.symm⟩

/-- Messages to two harbors may leave in any order. -/
theorem before_of_ne (hm : Fits rs k m) (hm' : Fits rs k' m') (hne : k ≠ k') :
    Before rs m.ticket m'.ticket := by
  obtain ⟨r, handle, hr, hhandle, hk, -⟩ := hm
  obtain ⟨r', handle', hr', hhandle', hk', -⟩ := hm'
  have hhandles : ∀ r₁ r₁', rs[m.ticket]? = some r₁ →
      rs[m'.ticket]? = some r₁' → r₁.handle ≠ r₁'.handle := by
    intro r₁ r₁' hr₁ hr₁' heq
    rw [hr] at hr₁
    rw [hr'] at hr₁'
    cases hr₁
    cases hr₁'
    rw [hhandle, hhandle'] at heq
    cases heq
    exact hne (hk.symm.trans hk')
  refine ⟨fun heq => ?_, fun hconflict => ?_⟩
  · rw [heq] at hhandles
    exact hhandles r' r' hr' hr' rfl
  · obtain ⟨r₁, r₁', hr₁, hr₁', -, -, heq⟩ := hconflict
    exact (hhandles r₁ r₁' hr₁ hr₁' heq).elim

theorem Outgoing.fits_of_mem
    (h : Outgoing rs wire queue fd) (k : ℕ)
    (hm : m ∈ wire.map Sent.msg ++ queue k) : ∃ k', Fits rs k' m := by
  rcases List.mem_append.1 hm with hm | hm
  · obtain ⟨e, he, rfl⟩ := List.mem_map.1 hm
    obtain ⟨k', hfits, -⟩ := h.sent e he
    exact ⟨k', hfits⟩
  · exact ⟨k, h.queued k m hm⟩

theorem Outgoing.mono
    (h : Outgoing rs wire queue fd) (hkeeps : Keeps rs rs') :
    Outgoing rs' wire queue fd := by
  refine ⟨fun e he => ?_, fun k m hm => (h.queued k m hm).mono hkeeps,
    fun k => ?_⟩
  · obtain ⟨k, hfits, hfd⟩ := h.sent e he
    exact ⟨k, hfits.mono hkeeps, hfd⟩
  · refine (h.order k).imp_of_mem ?_
    intro m m' hm hm' hbefore
    obtain ⟨c, hfits⟩ := h.fits_of_mem k hm
    obtain ⟨c', hfits'⟩ := h.fits_of_mem k hm'
    exact ⟨hbefore.1, fun hconflict =>
      hbefore.2 (hconflict.of_keeps hkeeps hfits hfits')⟩

/-- The queue of a harbor gets a message. -/
theorem Outgoing.enqueue
    (h : Outgoing rs wire queue fd) (hm : Fits rs k m)
    (hlast : ∀ m' ∈ wire.map Sent.msg ++ queue k,
      Before rs m'.ticket m.ticket) :
    Outgoing rs wire (update queue k (queue k ++ [m])) fd := by
  refine ⟨h.sent, fun c m' hm' => ?_, fun c => ?_⟩
  · by_cases hc : c = k
    · subst hc
      rw [update_self] at hm'
      rcases List.mem_append.1 hm' with hm' | hm'
      · exact h.queued c m' hm'
      · rw [List.mem_singleton.1 hm']
        exact hm
    · rw [update_of_ne hc] at hm'
      exact h.queued c m' hm'
  · by_cases hc : c = k
    · subst hc
      rw [update_self, ← List.append_assoc, List.pairwise_append]
      refine ⟨h.order c, List.pairwise_singleton _ _, fun m' hm' m₁ hm₁ => ?_⟩
      rw [List.mem_singleton.1 hm₁]
      exact hlast m' hm'
    · rw [update_of_ne hc]
      exact h.order c

/-- The queue of a harbor is dropped. -/
theorem Outgoing.clear (h : Outgoing rs wire queue fd) (k : ℕ) :
    Outgoing rs wire (update queue k []) fd := by
  refine ⟨h.sent, fun c m hm => ?_, fun c => ?_⟩
  · by_cases hc : c = k
    · subst hc
      rw [update_self] at hm
      cases hm
    · rw [update_of_ne hc] at hm
      exact h.queued c m hm
  · by_cases hc : c = k
    · subst hc
      rw [update_self, List.append_nil]
      exact (List.pairwise_append.1 (h.order c)).1
    · rw [update_of_ne hc]
      exact h.order c

/-- Messages are sent to a harbor. -/
theorem Outgoing.send
    (h : Outgoing rs wire queue fd) {ms : List HarborMsg}
    (hms : ∀ m ∈ ms, Fits rs k m) (hfd : fd k ≠ 0)
    (hwire : ∀ e ∈ wire, ∀ m ∈ ms, Before rs e.msg.ticket m.ticket)
    (hpair : ms.Pairwise fun m m' => Before rs m.ticket m'.ticket)
    (hqueue : ∀ m ∈ ms, ∀ m' ∈ queue k, Before rs m.ticket m'.ticket) :
    Outgoing rs (wire ++ ms.map fun m => ⟨fd k, m⟩) queue fd := by
  refine ⟨fun e he => ?_, h.queued, fun c => ?_⟩
  · rcases List.mem_append.1 he with he | he
    · exact h.sent e he
    · obtain ⟨m, hm, rfl⟩ := List.mem_map.1 he
      exact ⟨k, hms m hm, rfl, hfd⟩
  · have hmsgs : (wire ++ ms.map fun m => (⟨fd k, m⟩ : Sent)).map Sent.msg =
        wire.map Sent.msg ++ ms := by
      rw [List.map_append, List.map_map]
      exact congrArg _ (List.map_id ms)
    obtain ⟨hfirst, hsecond, hcross⟩ := List.pairwise_append.1 (h.order c)
    rw [hmsgs, List.append_assoc, List.pairwise_append, List.pairwise_append]
    refine ⟨hfirst, ⟨hpair, hsecond, fun m hm m' hm' => ?_⟩,
      fun m hm m' hm' => ?_⟩
    · by_cases hc : c = k
      · subst hc
        exact hqueue m hm m' hm'
      · exact before_of_ne (hms m hm) (h.queued c m' hm') (Ne.symm hc)
    · rcases List.mem_append.1 hm' with hm' | hm'
      · obtain ⟨e, he, rfl⟩ := List.mem_map.1 hm
        exact hwire e he m' hm'
      · exact hcross m hm m' hm'

/-- A harbor that had no fd gets one. -/
theorem Outgoing.link
    (h : Outgoing rs wire queue fd) (hfd : fd k = 0) (x : ℤ) :
    Outgoing rs wire queue (update fd k x) := by
  refine ⟨fun e he => ?_, h.queued, h.order⟩
  obtain ⟨c, hfits, heq, hne⟩ := h.sent e he
  have hc : c ≠ k := fun hc => hne (hc ▸ hfd)
  refine ⟨c, hfits, ?_, ?_⟩
  · rw [update_of_ne hc]
    exact heq
  · rw [update_of_ne hc]
    exact hne

end Messages

/-! ## The invariant -/

namespace State

/-- The queue of the link to a harbor. -/
def queueOf (h : State) (k : ℕ) : List HarborMsg := (h.s k).queue.getD []

def fdOf (h : State) (k : ℕ) : ℤ := (h.s k).fd

/-- What holds in every state, also while a queue is being sent. -/
structure Core (h : State) : Prop where
  outgoing : Outgoing h.requests h.wire h.queueOf h.fdOf
  /-- The queue of a name holds the messages that wait for it. -/
  named : ∀ name, (h.map name).queue.getD [] = waiting h.requests name
  bound : ∀ name, (h.map name).value ≠ 0 → waiting h.requests name = []
  /-- A message to a remote handle is sent or waits for the link. -/
  complete : ∀ i r handle, h.requests[i]? = some r →
    r.handle = some handle → harborId handle ≠ h.id →
    ∃ m ∈ h.wire.map Sent.msg ++ h.queueOf (harborId handle), m.ticket = i
  unlinked : ∀ k, h.fdOf k = 0 → (h.s k).status = .wait
  alive : ∀ k, (h.s k).status ≠ .down
  small : ∀ r ∈ h.requests, r.msg.length + 16 < 2 ^ 31
  slave : harborId h.slave = h.id

/-- What holds between two messages. -/
structure Inv (h : State) : Prop extends Core h where
  flushed : ∀ k, h.fdOf k ≠ 0 → (h.s k).status ≠ .handshake →
    h.queueOf k = []

theorem inv_init (slave : Handle) : (init slave).Inv where
  outgoing := ⟨fun e he => (by cases he), fun k m hm => (by cases hm),
    fun k => List.Pairwise.nil⟩
  named _ := rfl
  bound _ _ := rfl
  complete i r handle hr := by cases hr
  unlinked _ _ := rfl
  alive _ hdown := by cases hdown
  small r hr := by cases hr
  slave := rfl
  flushed _ _ _ := rfl

/-- The invariant gives what was promised. -/
theorem Inv.delivered {h : State} (hinv : h.Inv) : h.Delivered where
  once := by
    have horder := (List.pairwise_append.1 (hinv.outgoing.order 0)).1
    have hne := List.pairwise_map.1 horder
    exact List.pairwise_map.2 (hne.imp fun hbefore => hbefore.1)
  whole e he := by
    obtain ⟨k, ⟨r, handle, hr, hhandle, hk, hm⟩, hfd, -⟩ :=
      hinv.outgoing.sent e he
    exact ⟨r, handle, hr, hhandle, hk ▸ hfd, hm⟩
  bound r hr name hname hvalue hnone := by
    obtain ⟨i, hi⟩ := List.getElem?_of_mem hr
    have hmem : r.message 0 i ∈ waiting h.requests name :=
      (mem_waiting _ _).2 ⟨r, hi, hname, hnone, rfl⟩
    rw [hinv.bound name hvalue] at hmem
    cases hmem
  complete i r handle hr hhandle hremote hup := by
    obtain ⟨m, hm, rfl⟩ := hinv.complete i r handle hr hhandle hremote
    rw [hinv.flushed _ hup.1 hup.2.1, List.append_nil] at hm
    obtain ⟨e, he, rfl⟩ := List.mem_map.1 hm
    exact ⟨e, he, rfl⟩
  order := by
    have horder := (List.pairwise_append.1 (hinv.outgoing.order 0)).1
    have hne := List.pairwise_map.1 horder
    exact List.pairwise_map.2 (hne.imp fun hbefore => hbefore.2)

/-! ## Outputs -/

section Outputs

variable (h : State)

theorem wire_emit (os : List Output) :
    (h.emit os).wire = h.wire ++ os.filterMap Output.sent :=
  List.filterMap_append

theorem sent_sendRemote
    {fd : ℤ} {ms : List HarborMsg}
    (hsmall : ∀ m ∈ ms, m.buffer.length + 16 < 2 ^ 31) :
    (ms.flatMap (sendRemote fd)).filterMap Output.sent =
      ms.map fun m => ⟨fd, m⟩ := by
  induction ms with
  | nil => rfl
  | cons m ms ih =>
      have hm := hsmall m List.mem_cons_self
      have hremote : sendRemote fd m = [.remote fd m] := by
        rw [sendRemote, if_neg (by omega)]
      have hsent : Output.sent (.remote fd m) = some ⟨fd, m⟩ :=
        if_pos (Integers.toInt_ofNat_of_lt (by omega))
      rw [List.flatMap_cons, hremote, List.filterMap_append,
        ih fun m' hm' => hsmall m' (List.mem_cons_of_mem _ hm'),
        List.filterMap_cons, hsent]
      rfl

@[simp] theorem setSlave_self (k : ℕ) (s : Slave) :
    (h.setSlave k s).s k = s := by
  simp only [setSlave, update_self]

theorem setSlave_of_ne {k c : ℕ} (hc : c ≠ k) (s : Slave) :
    (h.setSlave k s).s c = h.s c := by
  simp only [setSlave, update_of_ne hc]

@[simp] theorem setNode_self (name : Name) (node : KeyValue) :
    (h.setNode name node).map name = node := by
  simp only [setNode, update_self]

theorem setNode_of_ne {name name' : Name} (hne : name' ≠ name)
    (node : KeyValue) : (h.setNode name node).map name' = h.map name' := by
  simp only [setNode, update_of_ne hne]

theorem queueOf_setSlave (k : ℕ) (s : Slave) :
    (h.setSlave k s).queueOf =
      update h.queueOf k (s.queue.getD []) := by
  funext c
  by_cases hc : c = k
  · subst hc
    rw [update_self, queueOf, setSlave_self]
  · rw [update_of_ne hc, queueOf, setSlave_of_ne h hc]
    rfl

theorem fdOf_setSlave (k : ℕ) (s : Slave) :
    (h.setSlave k s).fdOf = update h.fdOf k s.fd := by
  funext c
  by_cases hc : c = k
  · subst hc
    rw [update_self, fdOf, setSlave_self]
  · rw [update_of_ne hc, fdOf, setSlave_of_ne h hc]
    rfl

/-- The fd and the status of the links stay. -/
def SameLinks (h h' : State) : Prop :=
  ∀ k, (h'.s k).fd = (h.s k).fd ∧ (h'.s k).status = (h.s k).status

theorem sameLinks_setQueue (k : ℕ) (queue : Option (List HarborMsg)) :
    SameLinks h (h.setSlave k { h.s k with queue }) := by
  intro c
  by_cases hc : c = k
  · subst hc
    rw [setSlave_self]
    exact ⟨rfl, rfl⟩
  · rw [setSlave_of_ne h hc]
    exact ⟨rfl, rfl⟩

theorem SameLinks.fdOf {h h' : State} (hlinks : SameLinks h h') :
    h'.fdOf = h.fdOf :=
  funext fun k => (hlinks k).1

end Outputs

/-! ## Steps -/

section Accept

variable {h : State}

/-- A new message may leave behind all others. -/
theorem before_last
    {rs : List Request} {k : ℕ} {m : HarborMsg} (hm : Fits rs k m)
    (r : Request) : Before (rs ++ [r]) m.ticket rs.length := by
  obtain ⟨r', -, hr', -⟩ := hm
  have hlt : m.ticket < rs.length := (List.getElem?_eq_some_iff.1 hr').1
  exact ⟨Nat.ne_of_lt hlt, fun _ => hlt⟩

/-- A request that has a handle was accepted: what is left to show is that
its message is on its way. -/
theorem Inv.accept
    (hinv : h.Inv) {r : Request} {handle : Handle}
    (hr : r.handle = some handle) (hsmall : r.msg.length + 16 < 2 ^ 31)
    {h' : State} (hrequests : h'.requests = h.requests ++ [r])
    (hmap : h'.map = h.map) (hid : h'.id = h.id) (hslave : h'.slave = h.slave)
    (hlinks : SameLinks h h')
    (houtgoing : Outgoing h'.requests h'.wire h'.queueOf h'.fdOf)
    (hwire : ∀ k, ∀ m ∈ h.wire.map Sent.msg ++ h.queueOf k,
      m ∈ h'.wire.map Sent.msg ++ h'.queueOf k)
    (hnew : harborId handle ≠ h.id →
      ∃ m ∈ h'.wire.map Sent.msg ++ h'.queueOf (harborId handle),
        m.ticket = h.requests.length)
    (hflushed : ∀ k, h.fdOf k ≠ 0 → (h.s k).status ≠ .handshake →
      h'.queueOf k = []) :
    h'.Inv := by
  have hwaiting : ∀ name, waiting h'.requests name =
      waiting h.requests name := by
    intro name
    have hnone : r.waiting name h.requests.length = none := by
      rw [Request.waiting, if_neg]
      rintro ⟨-, hhandle⟩
      rw [hr] at hhandle
      cases hhandle
    rw [hrequests, waiting_append, hnone]
    exact List.append_nil _
  refine ⟨⟨houtgoing, fun name => ?_, fun name hvalue => ?_,
    fun i r' handle' hr' hhandle' hremote => ?_, fun k hfd => ?_,
    fun k => ?_, fun r' hr' => ?_, ?_⟩, fun k hfd hstatus => ?_⟩
  · rw [hmap, hwaiting]
    exact hinv.named name
  · rw [hmap] at hvalue
    rw [hwaiting]
    exact hinv.bound name hvalue
  · rw [hid] at hremote
    rw [hrequests] at hr'
    by_cases hi : i < h.requests.length
    · rw [List.getElem?_append_left hi] at hr'
      obtain ⟨m, hm, hticket⟩ := hinv.complete i r' handle' hr' hhandle' hremote
      exact ⟨m, hwire _ m hm, hticket⟩
    · have hlt := (List.getElem?_eq_some_iff.1 hr').1
      rw [List.length_append, List.length_singleton] at hlt
      have hi : i = h.requests.length := by omega
      subst hi
      rw [List.getElem?_concat_length] at hr'
      cases hr'
      rw [hr] at hhandle'
      cases hhandle'
      exact hnew hremote
  · rw [(hlinks k).2]
    exact hinv.unlinked k ((hlinks k).1.symm.trans hfd)
  · rw [(hlinks k).2]
    exact hinv.alive k
  · rw [hrequests] at hr'
    rcases List.mem_append.1 hr' with hr' | hr'
    · exact hinv.small r' hr'
    · rw [List.mem_singleton.1 hr']
      exact hsmall
  · rw [hslave, hid]
    exact hinv.slave
  · rw [(hlinks k).2] at hstatus
    exact hflushed k (fun hzero => hfd ((hlinks k).1.trans hzero)) hstatus

/-- `remote_send_handle` of a request that was just accepted. -/
theorem Inv.remoteSendHandle
    (hinv : h.Inv) {r : Request} {handle : Handle} (hr : r.handle = some handle)
    (hsmall : r.msg.length + 16 < 2 ^ 31) :
    (State.remoteSendHandle { h with requests := h.requests ++ [r] } r.source
      handle r.type r.session r.msg h.requests.length).Inv := by
  have hkept := hinv.outgoing.mono (keeps_append h.requests r)
  have hfits : Fits (h.requests ++ [r]) (harborId handle)
      (r.message handle h.requests.length) :=
    ⟨r, handle, List.getElem?_concat_length, hr, rfl, rfl⟩
  have hlast : ∀ k, ∀ m ∈ h.wire.map Sent.msg ++ h.queueOf k,
      Before (h.requests ++ [r]) m.ticket h.requests.length := by
    intro k m hm
    obtain ⟨c, hm⟩ := hinv.outgoing.fits_of_mem k hm
    exact before_last hm r
  have hmessage : (⟨⟨r.source, typeBits r.type ||| (handle &&& handleMask),
      r.session⟩, r.msg, h.requests.length⟩ : HarborMsg) =
      r.message handle h.requests.length := rfl
  unfold State.remoteSendHandle
  simp only [hmessage]
  generalize hk : harborId handle = k at *
  split
  · rename_i hlocal
    refine hinv.accept hr hsmall rfl rfl rfl rfl (fun _ => ⟨rfl, rfl⟩) ?_
      ?_ (fun hremote => absurd (hk.trans hlocal) hremote) hinv.flushed
    · rw [wire_emit]
      exact (List.append_nil h.wire).symm ▸ hkept
    · intro c m hm
      rw [wire_emit]
      exact (List.append_nil h.wire).symm ▸ hm
  · split
    · rename_i hwait
      rw [if_neg (hinv.alive _)]
      have hqueue := queueOf_setSlave { h with requests := h.requests ++ [r] }
        k { h.s k with
          queue := pushQueue (h.s k).queue
            (r.message handle h.requests.length) }
      have hlinks := sameLinks_setQueue
        { h with requests := h.requests ++ [r] } k
        (pushQueue (h.s k).queue (r.message handle h.requests.length))
      refine hinv.accept hr hsmall rfl rfl rfl rfl hlinks ?_ ?_ ?_ ?_
      · rw [hqueue, hlinks.fdOf]
        exact hkept.enqueue hfits (hlast k)
      · intro c m hm
        rw [hqueue]
        rcases List.mem_append.1 hm with hm | hm
        · exact List.mem_append_left _ hm
        · refine List.mem_append_right _ ?_
          by_cases hc : c = k
          · subst hc
            rw [update_self]
            exact List.mem_append_left _ hm
          · rw [update_of_ne hc]
            exact hm
      · intro _
        refine ⟨r.message handle h.requests.length,
          List.mem_append_right _ ?_, rfl⟩
        rw [hk, hqueue, update_self]
        exact List.mem_append_right _ List.mem_cons_self
      · intro c hfd hstatus
        have hc : c ≠ k := by
          rintro rfl
          rcases hwait with hwait | hwait
          · exact hfd hwait
          · exact hstatus hwait
        rw [hqueue, update_of_ne hc]
        exact hinv.flushed c hfd hstatus
    · rename_i hup
      obtain ⟨hfd, hstatus⟩ := not_or.1 hup
      have hsent : ([r.message handle h.requests.length].flatMap
          (sendRemote (h.s k).fd)).filterMap Output.sent =
          [r.message handle h.requests.length].map fun m => ⟨(h.s k).fd, m⟩ :=
        sent_sendRemote fun m hm => List.mem_singleton.1 hm ▸ hsmall
      rw [List.flatMap_singleton] at hsent
      refine hinv.accept hr hsmall rfl rfl rfl rfl (fun _ => ⟨rfl, rfl⟩) ?_
        ?_ ?_ hinv.flushed
      · rw [wire_emit, hsent]
        refine hkept.send (k := k) ?_ hfd ?_ (List.pairwise_singleton _ _) ?_
        · intro m hm
          rw [List.mem_singleton.1 hm]
          exact hfits
        · intro e he m hm
          rw [List.mem_singleton.1 hm]
          exact hlast k e.msg (List.mem_append_left _ (List.mem_map_of_mem he))
        · intro m _ m' hm'
          rw [hinv.flushed k hfd hstatus] at hm'
          cases hm'
      · intro c m hm
        rw [wire_emit, List.map_append]
        rcases List.mem_append.1 hm with hm | hm
        · exact List.mem_append_left _ (List.mem_append_left _ hm)
        · exact List.mem_append_right _ hm
      · intro _
        refine ⟨r.message handle h.requests.length,
          List.mem_append_left _ ?_, rfl⟩
        rw [wire_emit, hsent, List.map_append]
        exact List.mem_append_right _ List.mem_cons_self

/-- A message waits for a name that is not bound. -/
theorem Inv.remoteSendName
    (hinv : h.Inv) {r : Request} {name : Name}
    (hname : r.name = some name) (hr : r.handle = none)
    (hvalue : (h.map name).value = 0) (hsmall : r.msg.length + 16 < 2 ^ 31) :
    (State.remoteSendName { h with requests := h.requests ++ [r] } r.source
      name r.type r.session r.msg h.requests.length).Inv := by
  have hkept := hinv.outgoing.mono (keeps_append h.requests r)
  have hmessage : (⟨⟨r.source, typeBits r.type, r.session⟩, r.msg,
      h.requests.length⟩ : HarborMsg) = r.message 0 h.requests.length := by
    simp [Request.message]
  unfold State.remoteSendName
  simp only [hvalue, if_true, hmessage]
  have hwaiting : ∀ name', waiting (h.requests ++ [r]) name' =
      waiting h.requests name' ++
        if name' = name then [r.message 0 h.requests.length] else [] := by
    intro name'
    rw [waiting_append, Request.waiting]
    by_cases hc : name' = name
    · subst hc
      rw [if_pos ⟨hname, hr⟩, if_pos rfl]
      rfl
    · rw [if_neg hc, if_neg]
      · rfl
      · rintro ⟨hname', -⟩
        exact hc (Option.some.inj (hname'.symm.trans hname))
  generalize hnode : (⟨0, pushQueue (h.map name).queue
    (r.message 0 h.requests.length)⟩ : KeyValue) = node
  refine ⟨⟨?_, fun name' => ?_, fun name' hvalue' => ?_,
    fun i r' handle' hr' hhandle' hremote => ?_, hinv.unlinked,
    hinv.alive, fun r' hr' => ?_, hinv.slave⟩, hinv.flushed⟩
  · rw [wire_emit]
    exact (List.append_nil h.wire).symm ▸ hkept
  · by_cases hc : name' = name
    · subst hc
      change (State.map (setNode _ name' node) name').queue.getD [] =
        waiting (h.requests ++ [r]) name'
      rw [setNode_self, hwaiting, if_pos rfl, ← hinv.named, ← hnode]
      rfl
    · change (State.map (setNode _ name node) name').queue.getD [] =
        waiting (h.requests ++ [r]) name'
      rw [setNode_of_ne _ hc, hwaiting, if_neg hc, List.append_nil]
      exact hinv.named name'
  · change (State.map (setNode _ name node) name').value ≠ 0 at hvalue'
    change waiting (h.requests ++ [r]) name' = []
    by_cases hc : name' = name
    · subst hc
      rw [setNode_self, ← hnode] at hvalue'
      exact absurd rfl hvalue'
    · rw [setNode_of_ne _ hc] at hvalue'
      rw [hwaiting, if_neg hc, List.append_nil]
      exact hinv.bound name' hvalue'
  · change (h.requests ++ [r])[i]? = some r' at hr'
    by_cases hi : i < h.requests.length
    · rw [List.getElem?_append_left hi] at hr'
      rw [wire_emit]
      exact (List.append_nil h.wire).symm ▸
        hinv.complete i r' handle' hr' hhandle' hremote
    · rw [List.getElem?_append_right (Nat.le_of_not_lt hi)] at hr'
      rw [List.mem_singleton.1 (List.mem_of_getElem? hr'), hr] at hhandle'
      cases hhandle'
  · rcases List.mem_append.1 hr' with hr' | hr'
    · exact hinv.small r' hr'
    · rw [List.mem_singleton.1 hr']
      exact hsmall

end Accept

section Bind

variable {h : State} {name : Name} {handle : Handle} {rs : List Request}

/-- A request behind `update_name`: it waited for the name, or it stays. -/
theorem bind_cases
    {i : ℕ} {r : Request}
    (hr : (rs.map (Request.bind name handle))[i]? = some r) :
    (∃ m ∈ waiting rs name, m.ticket = i ∧ r.handle = some handle ∧
      r.source = m.header.source ∧ fillHandle handle m = r.message handle i) ∨
    rs[i]? = some r := by
  rw [List.getElem?_map] at hr
  obtain ⟨r₀, hr₀, rfl⟩ := Option.map_eq_some_iff.1 hr
  by_cases hwait : r₀.name = some name ∧ r₀.handle = none
  · refine .inl ⟨r₀.message 0 i, ?_, rfl, ?_, ?_, ?_⟩
    · exact (mem_waiting _ _).2 ⟨r₀, hr₀, hwait.1, hwait.2, rfl⟩
    · rw [Request.bind, if_pos hwait]
    · rw [Request.bind, if_pos hwait]
      rfl
    · rw [Request.bind, if_pos hwait]
      simp [Request.message, fillHandle]
  · refine .inr ?_
    rw [Request.bind, if_neg hwait]
    exact hr₀

/-- The message of a request that waited gets its handle. -/
theorem fits_fillHandle
    {m : HarborMsg} (hm : m ∈ waiting rs name) :
    Fits (rs.map (Request.bind name handle)) (harborId handle)
      (fillHandle handle m) := by
  obtain ⟨r, hr, hname, hnone, hmsg⟩ := (mem_waiting _ _).1 hm
  refine ⟨r.bind name handle, handle, ?_, ?_, rfl, ?_⟩
  · change (rs.map (Request.bind name handle))[m.ticket]? = _
    rw [List.getElem?_map, hr]
    rfl
  · rw [Request.bind, if_pos ⟨hname, hnone⟩]
  · rw [Request.bind, if_pos ⟨hname, hnone⟩]
    change fillHandle handle m = Request.message _ handle m.ticket
    rw [hmsg]
    simp [Request.message, fillHandle]

/-- A message that waits for a name is neither sent nor in the queue of a
link. -/
theorem ticket_ne_of_waiting
    {k : ℕ} {m m' : HarborMsg} (hm : Fits rs k m)
    (hm' : m' ∈ waiting rs name) : m.ticket ≠ m'.ticket := by
  obtain ⟨r, c, hr, hhandle, -⟩ := hm
  obtain ⟨r', hr', -, hnone, -⟩ := (mem_waiting _ _).1 hm'
  intro heq
  rw [heq, hr'] at hr
  cases hr
  rw [hnone] at hhandle
  cases hhandle

/-- The messages that waited for a name are sent. -/
theorem Inv.outgoing_bind
    (hinv : h.Inv) (hleave : h.MayLeave name handle) :
    Outgoing (h.requests.map (Request.bind name handle))
      (h.wire ++ ((waiting h.requests name).map (fillHandle handle)).map
        fun m => ⟨h.fdOf (harborId handle), m⟩) h.queueOf h.fdOf := by
  have hkeeps := keeps_bind h.requests name handle
  have hbefore : ∀ m ∈ waiting h.requests name, ∀ k m₁,
      Fits h.requests k m₁ →
      Conflict (h.requests.map (Request.bind name handle)) m₁.ticket m.ticket →
      m₁.ticket < m.ticket ∧ ∃ e ∈ h.wire, e.msg.ticket = m₁.ticket := by
    intro m hm k m₁ ⟨r₁, handle₁, hr₁, hhandle₁, _⟩ hconflict
    obtain ⟨r, r', hr, hr', hsource, -, heq⟩ := hconflict
    rw [hkeeps _ r₁ handle₁ hr₁ hhandle₁] at hr
    cases hr
    obtain ⟨r₀, hr₀, hname, hnone, hmsg⟩ := (mem_waiting _ _).1 hm
    have hbound : r₀.bind name handle = { r₀ with handle := some handle } := by
      rw [Request.bind, if_pos ⟨hname, hnone⟩]
    rw [List.getElem?_map, hr₀, Option.map_some, hbound] at hr'
    cases hr'
    have hqueued : m ∈ (h.map name).queue.getD [] := by
      rw [hinv.named]
      exact hm
    refine hleave.2 m hqueued m₁.ticket r₁ hr₁ heq ?_
    rw [hsource, hmsg]
    rfl
  refine (hinv.outgoing.mono hkeeps).send (k := harborId handle) ?_ hleave.1
    ?_ ?_ ?_
  · intro m' hm'
    obtain ⟨m, hm, rfl⟩ := List.mem_map.1 hm'
    exact fits_fillHandle hm
  · intro e he m' hm'
    obtain ⟨m, hm, rfl⟩ := List.mem_map.1 hm'
    obtain ⟨k, hfits, -⟩ := hinv.outgoing.sent e he
    have hne : e.msg.ticket ≠ m.ticket := ticket_ne_of_waiting hfits hm
    exact ⟨hne, fun hconflict => (hbefore m hm k _ hfits hconflict).1⟩
  · refine List.pairwise_map.2 ((waiting_pairwise _ _).imp ?_)
    intro m m' hlt
    exact ⟨Nat.ne_of_lt hlt, fun _ => hlt⟩
  · intro m' hm' m₁ hm₁
    obtain ⟨m, hm, rfl⟩ := List.mem_map.1 hm'
    have hfits := hinv.outgoing.queued _ m₁ hm₁
    have hne : m₁.ticket ≠ m.ticket := ticket_ne_of_waiting hfits hm
    refine ⟨hne.symm, fun hconflict => ?_⟩
    obtain ⟨-, e, he, hticket⟩ :=
      hbefore m hm _ m₁ hfits hconflict.symm
    have horder := hinv.outgoing.order (harborId handle)
    have hdistinct := (List.pairwise_append.1 horder).2.2 e.msg
      (List.mem_map_of_mem he) m₁ hm₁
    exact absurd hticket hdistinct.1

/-- The state after a name was bound, before the messages that waited for
it are handled. -/
theorem Core.bind
    (hcore : h.Core) {h' : State}
    (hrequests : h'.requests = h.requests.map (Request.bind name handle))
    (hmap : h'.map = update h.map name ⟨handle, none⟩)
    (hid : h'.id = h.id) (hslave : h'.slave = h.slave) (hlinks : SameLinks h h')
    (houtgoing : Outgoing h'.requests h'.wire h'.queueOf h'.fdOf)
    (hwire : ∀ k ≠ h.id, ∀ m ∈ h.wire.map Sent.msg ++ h.queueOf k,
      m ∈ h'.wire.map Sent.msg ++ h'.queueOf k)
    (hnew : harborId handle ≠ h.id → ∀ m ∈ waiting h.requests name,
      ∃ m' ∈ h'.wire.map Sent.msg ++ h'.queueOf (harborId handle),
        m'.ticket = m.ticket) :
    h'.Core := by
  refine ⟨houtgoing, fun name' => ?_, fun name' hvalue => ?_,
    fun i r handle' hr hhandle' hremote => ?_, fun k hfd => ?_, fun k => ?_,
    fun r hr => ?_, ?_⟩
  · rw [hrequests, waiting_bind, hmap]
    by_cases hc : name' = name
    · subst hc
      rw [update_self, if_pos rfl]
      rfl
    · rw [update_of_ne hc, if_neg hc]
      exact hcore.named name'
  · rw [hrequests, waiting_bind]
    by_cases hc : name' = name
    · rw [if_pos hc]
    · rw [hmap, update_of_ne hc] at hvalue
      rw [if_neg hc]
      exact hcore.bound name' hvalue
  · rw [hid] at hremote
    rw [hrequests] at hr
    rcases bind_cases hr with ⟨m, hm, rfl, hhandle, -, -⟩ | hr
    · rw [hhandle] at hhandle'
      cases hhandle'
      exact hnew hremote m hm
    · obtain ⟨m, hm, hticket⟩ := hcore.complete i r handle' hr hhandle' hremote
      exact ⟨m, hwire _ hremote m hm, hticket⟩
  · rw [(hlinks k).2]
    exact hcore.unlinked k ((hlinks k).1.symm.trans hfd)
  · rw [(hlinks k).2]
    exact hcore.alive k
  · rw [hrequests] at hr
    obtain ⟨r₀, hr₀, rfl⟩ := List.mem_map.1 hr
    have hmsg : (r₀.bind name handle).msg = r₀.msg := by
      unfold Request.bind
      split <;> rfl
    rw [hmsg]
    exact hcore.small r₀ hr₀
  · rw [hslave, hid]
    exact hcore.slave

/-- The messages that waited for a local name are sent to it. -/
theorem Inv.updateName_local
    (hinv : h.Inv) (hlocal : harborId handle = h.id) {h' : State}
    (hrequests : h'.requests = h.requests.map (Request.bind name handle))
    (hmap : h'.map = update h.map name ⟨handle, none⟩)
    (hid : h'.id = h.id) (hslave : h'.slave = h.slave)
    (hwire : h'.wire = h.wire) (hs : h'.s = h.s) :
    (h'.setSlave (harborId handle)
      { h'.s (harborId handle) with queue := none }).Inv := by
  have hkept := hinv.outgoing.mono (keeps_bind h.requests name handle)
  have hlinks : SameLinks h (h'.setSlave (harborId handle)
      { h'.s (harborId handle) with queue := none }) := by
    intro c
    rw [← hs]
    exact sameLinks_setQueue h' (harborId handle) none c
  have hqueue : (h'.setSlave (harborId handle)
      { h'.s (harborId handle) with queue := none }).queueOf =
      update h.queueOf (harborId handle) [] := by
    rw [queueOf_setSlave]
    unfold queueOf
    rw [hs]
    rfl
  have hout : (h'.setSlave (harborId handle)
      { h'.s (harborId handle) with queue := none }).wire = h.wire := hwire
  refine ⟨hinv.toCore.bind hrequests hmap hid hslave hlinks ?_ ?_
    (fun hremote => absurd hlocal hremote), fun c hfd hstatus => ?_⟩
  · rw [hout, hqueue, hlinks.fdOf]
    exact hrequests ▸ hkept.clear (harborId handle)
  · intro c hc m hm
    rw [hout, hqueue, update_of_ne (hlocal ▸ hc)]
    exact hm
  · rw [hqueue]
    by_cases hc : c = harborId handle
    · rw [hc, update_self]
    · rw [hlinks.fdOf] at hfd
      rw [(hlinks c).2] at hstatus
      rw [update_of_ne hc]
      exact hinv.flushed c hfd hstatus

/-- The messages that waited for a remote name are sent. -/
theorem Inv.updateName_remote
    (hinv : h.Inv) (hleave : h.MayLeave name handle) {h' : State}
    (hrequests : h'.requests = h.requests.map (Request.bind name handle))
    (hmap : h'.map = update h.map name ⟨handle, none⟩)
    (hid : h'.id = h.id) (hslave : h'.slave = h.slave)
    (hwire : h'.wire = h.wire ++
      ((waiting h.requests name).map (fillHandle handle)).map
        fun m => ⟨h.fdOf (harborId handle), m⟩) (hs : h'.s = h.s) :
    h'.Inv := by
  have hqueue : h'.queueOf = h.queueOf := by
    unfold queueOf
    rw [hs]
  have hlinks : SameLinks h h' := by
    intro c
    rw [hs]
    exact ⟨rfl, rfl⟩
  refine ⟨hinv.toCore.bind hrequests hmap hid hslave hlinks ?_ ?_ ?_,
    fun c hfd hstatus => ?_⟩
  · rw [hwire, hqueue, hlinks.fdOf, hrequests]
    exact hinv.outgoing_bind hleave
  · intro c _ m hm
    rw [hwire, hqueue, List.map_append]
    rcases List.mem_append.1 hm with hm | hm
    · exact List.mem_append_left _ (List.mem_append_left _ hm)
    · exact List.mem_append_right _ hm
  · intro _ m hm
    refine ⟨fillHandle handle m, List.mem_append_left _ ?_, rfl⟩
    rw [hwire, List.map_append, List.map_map]
    refine List.mem_append_right _ ?_
    exact List.mem_map.2
      ⟨fillHandle handle m, List.mem_map_of_mem hm, rfl⟩
  · rw [hqueue]
    rw [hlinks.fdOf] at hfd
    rw [(hlinks c).2] at hstatus
    exact hinv.flushed c hfd hstatus

theorem Inv.updateName
    (hinv : h.Inv) (hspares : h.Spares (.name name handle)) :
    (h.updateName name handle).Inv := by
  have hkept := hinv.outgoing.mono (keeps_bind h.requests name handle)
  have hwaiting := hinv.named name
  unfold State.updateName
  dsimp only
  cases hqueue : (h.map name).queue with
  | none =>
      rw [hqueue] at hwaiting
      refine ⟨hinv.toCore.bind rfl rfl rfl rfl (fun _ => ⟨rfl, rfl⟩) hkept
        (fun _ _ _ hm => hm) fun _ m hm => ?_, hinv.flushed⟩
      rw [← hwaiting] at hm
      cases hm
  | some queue =>
      rw [hqueue] at hwaiting
      change queue = waiting h.requests name at hwaiting
      rcases hspares with hnone | ⟨hlocal, hfd⟩ | hleave
      · rw [hqueue] at hnone
        cases hnone
      · have hfd' : (h.s (harborId handle)).fd = 0 := by
          rw [hlocal]
          exact hfd
        have hslave : harborId handle = harborId h.slave :=
          hlocal.trans hinv.slave.symm
        unfold dispatchNameQueue
        dsimp only
        split
        · split
          · rename_i hdown
            exact absurd hdown (hinv.alive _)
          · split
            · refine hinv.updateName_local hlocal rfl rfl rfl rfl ?_ rfl
              rw [wire_emit, List.filterMap_map, List.filterMap_eq_nil_iff.2]
              · exact List.append_nil _
              · exact fun _ _ => rfl
            · rename_i hremote
              exact absurd hslave hremote
        · rename_i hne
          exact absurd hfd' hne
      · unfold dispatchNameQueue
        dsimp only
        split
        · rename_i hzero
          exact absurd hzero hleave.1
        · refine hinv.updateName_remote hleave rfl rfl rfl rfl ?_ rfl
          have hsmall : ∀ m ∈ queue.map (fillHandle handle),
              m.buffer.length + 16 < 2 ^ 31 := by
            intro m' hm'
            obtain ⟨m, hm, rfl⟩ := List.mem_map.1 hm'
            rw [hwaiting] at hm
            obtain ⟨r, hr, -, -, hmsg⟩ := (mem_waiting _ _).1 hm
            rw [hmsg]
            exact hinv.small r (List.mem_of_getElem? hr)
          rw [wire_emit, ← List.flatMap_map, sent_sendRemote hsmall, hwaiting]
          rfl

end Bind

section Links

variable {h : State} {k : ℕ}

/-- Messages move between the queues and the wires, and links change. -/
theorem Core.move
    (hcore : h.Core) {h' : State} (hrequests : h'.requests = h.requests)
    (hmap : h'.map = h.map) (hid : h'.id = h.id) (hslave : h'.slave = h.slave)
    (houtgoing : Outgoing h.requests h'.wire h'.queueOf h'.fdOf)
    (hwire : ∀ c, ∀ m ∈ h.wire.map Sent.msg ++ h.queueOf c,
      m ∈ h'.wire.map Sent.msg ++ h'.queueOf c)
    (hunlinked : ∀ c, h'.fdOf c = 0 → (h'.s c).status = .wait)
    (halive : ∀ c, (h'.s c).status ≠ .down) :
    h'.Core := by
  refine ⟨hrequests ▸ houtgoing, ?_, ?_, ?_, hunlinked, halive, ?_, ?_⟩
  · rw [hrequests, hmap]
    exact hcore.named
  · rw [hrequests, hmap]
    exact hcore.bound
  · intro i r handle hr hhandle hremote
    rw [hrequests] at hr
    rw [hid] at hremote
    obtain ⟨m, hm, hticket⟩ := hcore.complete i r handle hr hhandle hremote
    exact ⟨m, hwire _ m hm, hticket⟩
  · rw [hrequests]
    exact hcore.small
  · rw [hslave, hid]
    exact hcore.slave

theorem sameLinks_dispatchQueue (h : State) (k : ℕ) :
    SameLinks h (h.dispatchQueue k) := by
  unfold State.dispatchQueue
  dsimp only
  split
  · exact fun _ => ⟨rfl, rfl⟩
  · exact sameLinks_setQueue (h.emit _) k none

/-- `dispatch_queue` sends what waits for the link. -/
theorem Core.dispatchQueue (hcore : h.Core) (hfd : h.fdOf k ≠ 0) :
    (h.dispatchQueue k).Core ∧
      (h.dispatchQueue k).queueOf = update h.queueOf k [] := by
  have hlinks := sameLinks_dispatchQueue h k
  unfold State.dispatchQueue at *
  dsimp only at hlinks ⊢
  cases hqueue : (h.s k).queue with
  | none =>
      refine ⟨hcore, ?_⟩
      have hempty : h.queueOf k = [] := by
        rw [queueOf, hqueue]
        rfl
      rw [← hempty, update_eq_self]
  | some queue =>
      have hqueueOf : h.queueOf k = queue := by
        rw [queueOf, hqueue]
        rfl
      have hsmall : ∀ m ∈ queue, m.buffer.length + 16 < 2 ^ 31 := by
        intro m hm
        obtain ⟨r, c, hr, -, -, hmsg⟩ :=
          hcore.outgoing.queued k m (hqueueOf ▸ hm)
        rw [hmsg]
        exact hcore.small r (List.mem_of_getElem? hr)
      rw [hqueue] at hlinks
      dsimp only at hlinks ⊢
      generalize hh' : (h.emit (queue.flatMap (sendRemote (h.s k).fd))).setSlave
        k { h.s k with queue := none } = h' at hlinks
      have hcleared : h'.queueOf = update h.queueOf k [] := by
        rw [← hh', queueOf_setSlave]
        rfl
      have hwire : h'.wire = h.wire ++ queue.map fun m => ⟨h.fdOf k, m⟩ := by
        rw [← hh']
        change (h.emit (queue.flatMap (sendRemote (h.s k).fd))).wire = _
        rw [wire_emit, sent_sendRemote hsmall]
        rfl
      refine ⟨hcore.move (by rw [← hh']; rfl) (by rw [← hh']; rfl)
        (by rw [← hh']; rfl) (by rw [← hh']; rfl) ?_ ?_ ?_ ?_, hcleared⟩
      · obtain ⟨-, hpair, hcross⟩ :=
          List.pairwise_append.1 (hcore.outgoing.order k)
        rw [hqueueOf] at hpair hcross
        rw [hwire, hcleared, hlinks.fdOf]
        refine (hcore.outgoing.clear k).send ?_ hfd ?_ hpair ?_
        · intro m hm
          exact hcore.outgoing.queued k m (hqueueOf ▸ hm)
        · intro e he m hm
          exact hcross e.msg (List.mem_map_of_mem he) m hm
        · intro m _ m' hm'
          rw [update_self] at hm'
          cases hm'
      · intro c m hm
        rw [hwire, hcleared, List.map_append, List.map_map]
        rcases List.mem_append.1 hm with hm | hm
        · exact List.mem_append_left _ (List.mem_append_left _ hm)
        · by_cases hc : c = k
          · subst hc
            rw [hqueueOf] at hm
            refine List.mem_append_left _ (List.mem_append_right _ ?_)
            exact List.mem_map.2 ⟨m, hm, rfl⟩
          · refine List.mem_append_right _ ?_
            rw [update_of_ne hc]
            exact hm
      · intro c hzero
        rw [(hlinks c).2]
        exact hcore.unlinked c ((hlinks c).1.symm.trans hzero)
      · intro c
        rw [(hlinks c).2]
        exact hcore.alive c

/-- A link gets a status and, if it had none, an fd. -/
theorem Inv.setStatus
    (hinv : h.Inv) {fd : ℤ} {status : Status}
    (hfd : h.fdOf k = 0 ∨ h.fdOf k = fd) (hne : fd ≠ 0)
    (halive : status ≠ .down) :
    (h.setSlave k { h.s k with fd, status }).Core := by
  have hqueue : (h.setSlave k { h.s k with fd, status }).queueOf =
      h.queueOf := by
    rw [queueOf_setSlave]
    exact update_eq_self k h.queueOf
  refine hinv.toCore.move rfl rfl rfl rfl ?_ ?_ ?_ ?_
  · rw [hqueue, fdOf_setSlave]
    rcases hfd with hfd | hfd
    · exact hinv.outgoing.link hfd fd
    · rw [← hfd, update_eq_self]
      exact hinv.outgoing
  · intro c m hm
    rw [hqueue]
    exact hm
  · intro c hzero
    rw [fdOf_setSlave] at hzero
    by_cases hc : c = k
    · rw [hc, update_self] at hzero
      exact absurd hzero hne
    · rw [update_of_ne hc] at hzero
      rw [setSlave_of_ne h hc]
      exact hinv.unlinked c hzero
  · intro c
    by_cases hc : c = k
    · rw [hc, setSlave_self]
      exact halive
    · rw [setSlave_of_ne h hc]
      exact hinv.alive c

/-- A link comes up: what waits for it is sent. -/
theorem Inv.up
    (hinv : h.Inv) {fd : ℤ} (hfd : h.fdOf k = 0 ∨ h.fdOf k = fd)
    (hne : fd ≠ 0) :
    ((h.setSlave k { h.s k with fd, status := .header }).dispatchQueue
      k).Inv := by
  have halive : Status.header ≠ .down := by decide
  have hcore := hinv.setStatus hfd hne halive
  have hfd' : (h.setSlave k { h.s k with fd, status := .header }).fdOf k ≠
      0 := by
    rw [fdOf_setSlave, update_self]
    exact hne
  obtain ⟨hcore', hqueue⟩ := hcore.dispatchQueue hfd'
  have hlinks := sameLinks_dispatchQueue
    (h.setSlave k { h.s k with fd, status := .header }) k
  refine ⟨hcore', fun c hfdc hstatus => ?_⟩
  rw [hqueue]
  by_cases hc : c = k
  · rw [hc, update_self]
  · rw [hlinks.fdOf, fdOf_setSlave, update_of_ne hc] at hfdc
    rw [(hlinks c).2, setSlave_of_ne h hc] at hstatus
    rw [update_of_ne hc, queueOf, setSlave_of_ne h hc]
    exact hinv.flushed c hfdc hstatus

/-- A link waits for a handshake. -/
theorem Inv.handshake
    (hinv : h.Inv) {fd : ℤ} (hfd : h.fdOf k = 0) (hne : fd ≠ 0) :
    (h.setSlave k { h.s k with fd, status := .handshake }).Inv := by
  refine ⟨hinv.setStatus (.inl hfd) hne (by decide), fun c hfdc hstatus => ?_⟩
  by_cases hc : c = k
  · rw [hc, setSlave_self] at hstatus
    exact absurd rfl hstatus
  · rw [fdOf_setSlave, update_of_ne hc] at hfdc
    rw [setSlave_of_ne h hc] at hstatus
    rw [queueOf, setSlave_of_ne h hc]
    exact hinv.flushed c hfdc hstatus

/-- Data of a link that is up. -/
theorem Inv.receiving
    (hinv : h.Inv) (hfd : h.fdOf k ≠ 0)
    (hup : (h.s k).status ≠ .handshake) {status : Status}
    (hstatus : status ≠ .down) :
    (h.setSlave k { h.s k with status }).Inv := by
  have hcore := hinv.setStatus (.inr rfl) hfd hstatus
  refine ⟨hcore, fun c hfdc hstatusc => ?_⟩
  by_cases hc : c = k
  · rw [hc, queueOf, setSlave_self]
    exact hinv.flushed k hfd hup
  · rw [fdOf_setSlave, update_of_ne hc] at hfdc
    rw [setSlave_of_ne h hc] at hstatusc
    rw [queueOf, setSlave_of_ne h hc]
    exact hinv.flushed c hfdc hstatusc

/-- Outputs that go to local services or to the slave. -/
theorem Inv.emit
    (hinv : h.Inv) {os : List Output} (hos : os.filterMap Output.sent = []) :
    (h.emit os).Inv := by
  have hwire : (h.emit os).wire = h.wire := by
    rw [wire_emit, hos, List.append_nil]
  refine ⟨hinv.toCore.move rfl rfl rfl rfl ?_ ?_ hinv.unlinked hinv.alive,
    hinv.flushed⟩
  · rw [hwire]
    exact hinv.outgoing
  · intro c m hm
    rw [hwire]
    exact hm

theorem Inv.link (hinv : h.Inv) (accept : Bool) (fd id : ℤ) :
    (h.link accept fd id).Inv := by
  unfold State.link
  split
  · exact hinv
  · rename_i hvalid
    have hne : fd ≠ 0 := fun hzero => hvalid (.inl hzero)
    dsimp only
    split
    · exact hinv
    · rename_i hfree
      have hfd : h.fdOf id.toNat = 0 := not_not.1 hfree
      have hinv' : (h.emit [.handshake fd]).Inv := hinv.emit rfl
      split
      · exact hinv'.up (.inl hfd) hne
      · exact hinv'.handshake hfd hne

theorem Inv.receive
    (hinv : h.Inv) (hfd : h.fdOf k ≠ 0)
    (hup : (h.s k).status ≠ .handshake) {received : Received}
    (hreceived : received ≠ .tooLong) :
    (h.receive k received).Inv := by
  cases received with
  | header | content => exact hinv.receiving hfd hup (by decide)
  | tooLong => exact absurd rfl hreceived

theorem Inv.pushSocketData
    (hinv : h.Inv) {fd : ℤ} {first : UInt8} {received : Received}
    (hkeeps : h.KeepsLinks (.data fd first received)) :
    (h.pushSocketData fd first received).Inv := by
  unfold State.pushSocketData
  split
  · exact hinv
  · rename_i k hk
    obtain ⟨hfirst, hreceived⟩ := hkeeps k hk
    have hfd : ∀ status, (h.s k).status = status → status ≠ .wait →
        h.fdOf k ≠ 0 := by
      intro status hstatus hwait hzero
      exact hwait (hstatus.symm.trans (hinv.unlinked k hzero))
    split
    · rename_i hstatus
      have hfdk := hfd _ hstatus (by decide)
      rw [if_neg (not_not.2 (hfirst hstatus))]
      have hup : ((h.setSlave k { h.s k with
          status := .header }).dispatchQueue k).Inv :=
        hinv.up (.inr rfl) hfdk
      have hlinks := sameLinks_dispatchQueue
        (h.setSlave k { h.s k with status := .header }) k
      refine hup.receive ?_ ?_ hreceived
      · rw [hlinks.fdOf, fdOf_setSlave, update_self]
        exact hfdk
      · rw [(hlinks k).2, setSlave_self]
        intro hstatus'
        cases hstatus'
    · rename_i hstatus
      exact hinv.receive (hfd _ hstatus (by decide))
        (by rw [hstatus]; decide) hreceived
    · rename_i hstatus
      exact hinv.receive (hfd _ hstatus (by decide))
        (by rw [hstatus]; decide) hreceived
    · exact hinv
    · exact hinv

end Links

theorem inv_step
    {h h' : State} {l : Label} (hinv : h.Inv) (hkeeps : h.KeepsLinks l)
    (hspares : h.Spares l) (hstep : h.step l = .next h') : h'.Inv := by
  cases l with
  | system source handle name type session msg =>
      rw [step] at hstep
      split at hstep
      · rename_i hzero
        cases hstep
        have hname : (h.request source handle name type session msg).name =
            some name := if_pos hzero
        by_cases hvalue : (h.map name).value = 0
        · have hr : (h.request source handle name type session msg).handle =
              none := by
            rw [request, if_neg (not_not.2 hzero), if_neg (not_not.2 hvalue)]
          exact hinv.remoteSendName hname hr hvalue hspares
        · have hr : (h.request source handle name type session msg).handle =
              some (h.map name).value := by
            rw [request, if_neg (not_not.2 hzero), if_pos hvalue]
          unfold remoteSendName
          dsimp only
          rw [if_neg hvalue]
          exact hinv.remoteSendHandle hr hspares
      · rename_i hne
        cases hstep
        have hr : (h.request source handle name type session msg).handle =
            some handle := if_pos hne
        exact hinv.remoteSendHandle hr hspares
  | name name handle =>
      rw [step] at hstep
      split at hstep
      · cases hstep
      · split at hstep
        · cases hstep
          exact hinv
        · cases hstep
          exact hinv.updateName hspares
  | link accept fd id =>
      cases hstep
      exact hinv.link accept fd id
  | data fd first received =>
      cases hstep
      exact hinv.pushSocketData hkeeps
  | close fd =>
      rw [step] at hstep
      split at hstep
      · cases hstep
        exact hinv.emit rfl
      · cases hstep
        exact hinv

/-- In a run in which no link goes down and no name is bound while messages
wait for it that cannot leave, every message is sent once, to the harbor of
its handle and as it was accepted, as soon as its handle is known and the
link is up, and in order for one source and one handle. -/
theorem messages_delivered
    {slave : Handle} {h : State}
    (hreach : Reaches step (fun h l => h.KeepsLinks l ∧ h.Spares l)
      (init slave) h) : h.Delivered :=
  (hreach.invariant Inv (inv_init slave) fun _ _ _ hinv hok hstep =>
    inv_step hinv hok.1 hok.2 hstep).delivered

/-- A link comes up, a message goes to a handle, another one waits for the
name of the handle, and the name is bound. -/
theorem messages_delivered_once_bound :
    ∃ h, Reaches step (fun h l => h.KeepsLinks l ∧ h.Spares l)
      (init 0x01000001#32) h ∧
      h.wire.map (fun e => (e.fd, e.msg.header.destination)) =
        [(7, 0x0a000005#32), (7, 0x0a000005#32)] ∧ h.Delivered := by
  have hstart : Reaches step (fun h l => h.KeepsLinks l ∧ h.Spares l)
      (init 0x01000001#32) (init 0x01000001#32) := .refl
  have hlink := hstart.tail (Label.link true 7 2) ⟨trivial, trivial⟩ rfl
  have hhandle := hlink.tail
    (Label.system 0x01000009#32 0x02000005#32 [] 10#8 0#32 [1])
    ⟨trivial, by show _ < _; decide⟩ rfl
  have hname := hhandle.tail
    (Label.system 0x01000009#32 0#32 [120] 10#8 0#32 [2])
    ⟨trivial, by show _ < _; decide⟩ rfl
  have hbind := hname.tail (Label.name [120] 0x02000005#32)
    ⟨trivial, .inr (.inr ?_)⟩ rfl
  · exact ⟨_, hbind, by decide, messages_delivered hbind⟩
  · refine ⟨by decide, fun m hm j r hr hhandle hsource => ?_⟩
    have hm' : m = ⟨⟨0x01000009#32, 0x0a000000#32, 0#32⟩, [2], 1⟩ :=
      List.mem_singleton.1 hm
    match j with
    | 0 =>
        subst hm'
        exact ⟨by decide, _, List.mem_cons_self, rfl⟩
    | 1 =>
        cases hr
        cases hhandle
    | j + 2 => cases hr

/-- A message waits for a name, the name is bound, and then the link comes
up: the message is sent without its handle. -/
theorem message_loses_handle :
    ∃ h, Reaches step KeepsLinks (init 0x01000001#32) h ∧ ¬ h.Delivered := by
  have hstart : Reaches step KeepsLinks (init 0x01000001#32)
      (init 0x01000001#32) := .refl
  have hname := hstart.tail
    (Label.system 0x01000009#32 0#32 [120] 10#8 0#32 [2]) trivial rfl
  have hbind := hname.tail (Label.name [120] 0x02000005#32) trivial rfl
  have hlink := hbind.tail (Label.link true 7 2) trivial rfl
  refine ⟨_, hlink, fun hdelivered => ?_⟩
  obtain ⟨r, handle, hr, hhandle, -, hmsg⟩ :=
    hdelivered.whole _ List.mem_cons_self
  cases hr
  cases hhandle
  exact absurd hmsg (by decide)

end State

end SkynetServer.Harbor
