import SkynetServer.Send.Message
import SkynetServer.Support.Census

/-!
# Every message buffer has one owner

A buffer that becomes a message is held by the runtime until it is freed, or
handed over to a callback or to the harbor.  While a call is in progress it has
the buffer of its message in its hand, and may use the number of the call once
for a copy and once for a message.
-/

namespace SkynetServer.Send

open Transition

/-! ## The type in the size -/

section Size

variable {sz : BitVec 64} {type : BitVec 32}

theorem getLsbD_messageTypeMask (i : ℕ) :
    messageTypeMask.getLsbD i = decide (i < 56) := by
  rcases Nat.lt_or_ge i 64 with hlt | hge
  · revert i
    decide
  · rw [BitVec.getLsbD_of_ge _ _ hge, decide_eq_false (by omega)]

theorem getLsbD_typeMask (i : ℕ) : (0xff#32).getLsbD i = decide (i < 8) := by
  rcases Nat.lt_or_ge i 32 with hlt | hge
  · revert i
    decide
  · rw [BitVec.getLsbD_of_ge _ _ hge, decide_eq_false (by omega)]

/-- The bits of a size that is not too large. -/
theorem getLsbD_of_fits
    (h : sz &&& messageTypeMask = sz) {i : ℕ} (hi : 56 ≤ i) :
    sz.getLsbD i = false := by
  rw [← h, BitVec.getLsbD_and, getLsbD_messageTypeMask,
    decide_eq_false (Nat.not_lt.mpr hi), Bool.and_false]

theorem typeOf_withType (h : sz &&& messageTypeMask = sz) :
    typeOf (withType sz type) = type &&& 0xff#32 := by
  apply BitVec.eq_of_getLsbD_eq
  intro i hi
  have hhigh := getLsbD_of_fits h (Nat.le_add_right 56 i)
  simp only [typeOf, withType, BitVec.getLsbD_setWidth,
    BitVec.getLsbD_ushiftRight, BitVec.getLsbD_or, BitVec.getLsbD_shiftLeft,
    BitVec.getLsbD_and, getLsbD_typeMask]
  grind

theorem sizeOfMessage_withType (h : sz &&& messageTypeMask = sz) :
    sizeOfMessage (withType sz type) = sz := by
  apply BitVec.eq_of_getLsbD_eq
  intro i hi
  have hhigh : 56 ≤ i → sz.getLsbD i = false := getLsbD_of_fits h
  simp only [sizeOfMessage, withType, BitVec.getLsbD_or,
    BitVec.getLsbD_shiftLeft, BitVec.getLsbD_and, getLsbD_messageTypeMask]
  grind

end Size

/-! ## Where buffers are -/

def Message.items (m : Message) : Multiset Item :=
  (item m.call m.data : List Item)

/-- The buffer that a call has before it makes a copy. -/
def Call.given (k : ℕ) (a : Call) : Multiset Item :=
  if a.Dontcopy then (item k a.data : List Item) else 0

/-- A call that copies may use its number for a buffer. -/
def Call.copies (k : ℕ) (a : Call) : Multiset ℕ :=
  if a.Dontcopy then 0 else {k}

namespace State

variable (s : State)

/-- The messages in the queues. -/
def waiting : Multiset Message :=
  (s.contexts.map fun c => (c.queue : Multiset Message)).sum

/-- The buffers that the runtime holds. -/
def held : Multiset Item :=
  (s.waiting + (s.running : Multiset Message)).bind Message.items

/-- The buffers that were handed over to the harbor. -/
def harborItems : Multiset Item :=
  (s.harbor : Multiset RemoteMessage).bind fun m =>
    (item m.call m.message : List Item)

/-- The calls whose messages wait or were received. -/
def sentCalls : Multiset ℕ :=
  s.waiting.map Message.call + (s.received.map Received.call : List ℕ) +
    (s.harbor.map RemoteMessage.call : List ℕ)

/-- The buffer of the call is its argument, or a copy of it. -/
def BufferOf (e : Item) : Prop :=
  ∃ a, s.calls[e.1]? = some a ∧
    if a.Dontcopy then a.data = some e.2
    else ∃ q, a.data = some q ∧ q ≠ e.2

/-- A message of the type and the size was sent by the call. -/
def SentAs
    (call : ℕ) (type : BitVec 32) (sz : BitVec 64) (data : Option Ptr) :
    Prop :=
  ∃ a, s.calls[call]? = some a ∧ type = a.type &&& 0xff#32 ∧ sz = a.sz ∧
    data.isSome = a.data.isSome

/-- How often the runtime holds a buffer with the owner. -/
def holders : Option Owner → ℕ
  | some .runtime => 1
  | _ => 0

theorem holders_of_ne {o : Option Owner} (h : o ≠ some .runtime) :
    holders o = 0 := by
  cases o with
  | none => rfl
  | some owner =>
      cases owner with
      | service => rfl
      | runtime => exact absurd rfl h

/-- Between two steps nothing is in a hand.  A call in progress has the buffers
`hand`, and the numbers of calls in `sending` and `copying` are not used. -/
structure Inv
    (s : State) (hand : Multiset Item) (sending copying : Multiset ℕ) :
    Prop where
  ledger : (s.taken : Multiset Item) =
    s.freed + s.reserved + s.harborItems + (s.held + hand)
  heap : ∀ p, ((s.held + hand).map Prod.snd).count p = holders (s.owner p)
  once : ((s.taken.map Prod.fst : List ℕ) + copying).Nodup
  taken : ∀ e ∈ s.taken, s.BufferOf e
  dontcopy : ∀ k a p, s.calls[k]? = some a → a.Dontcopy → a.data = some p →
    (k, p) ∈ s.taken ∨ k ∈ copying
  sent : (s.sentCalls + sending).Nodup
  waiting : ∀ m ∈ s.waiting,
    s.SentAs m.call (typeOf m.sz) (sizeOfMessage m.sz) m.data
  received : ∀ r ∈ s.received, s.SentAs r.call r.type r.sz r.data
  harbor : ∀ m ∈ s.harbor, s.SentAs m.call m.type m.sz m.message

section Moves

variable {s : State} {hand : Multiset Item} {sending copying : Multiset ℕ}
  {k : ℕ} {p : Ptr} {data : Option Ptr} {hand : Multiset Item}

/-- The number of a call need not be used for a message. -/
theorem Inv.mono
    (h : s.Inv hand sending copying) :
    s.Inv hand 0 copying :=
  { h with
    sent := Multiset.nodup_of_le
      (Multiset.add_le_add_left (Multiset.zero_le _)) h.sent }

/-- It need not be used for a buffer when the caller gives none away. -/
theorem Inv.settle
    {a : Call} (h : s.Inv hand sending {k})
    (ha : s.calls[k]? = some a) (hkeep : a.Dontcopy → a.data = none) :
    s.Inv hand sending 0 :=
  { h with
    once := Multiset.nodup_of_le
      (Multiset.add_le_add_left (Multiset.zero_le _)) h.once
    dontcopy := by
      intro c a' q hc ha' hq
      rcases h.dontcopy c a' q hc ha' hq with hmem | hk
      · exact .inl hmem
      · rw [Multiset.mem_singleton.mp hk, ha] at hc
        cases hc
        rw [hkeep ha'] at hq
        cases hq }

/-- A buffer becomes a message. -/
theorem Inv.take
    (h : s.Inv hand sending {k}) (hbuffer : s.BufferOf (k, p))
    (howner : s.owner p ≠ some .runtime) :
    (s.take k p).Inv (hand + {(k, p)}) sending 0 where
  ledger := by
    change ((s.taken ++ [(k, p)] : List Item) : Multiset Item) =
      s.freed + s.reserved + s.harborItems + (s.held + (hand + {(k, p)}))
    rw [← Multiset.coe_add, h.ledger, Multiset.coe_singleton]
    ac_rfl
  heap q := by
    change ((s.held + (hand + {(k, p)})).map Prod.snd).count q =
      holders (Function.update s.owner p (some .runtime) q)
    rw [← add_assoc, Multiset.map_add, Multiset.count_add, h.heap q,
      Multiset.map_singleton, Multiset.count_singleton]
    by_cases hq : q = p
    · subst hq
      rw [holders_of_ne howner, if_pos rfl, Function.update_self]
      rfl
    · rw [if_neg hq, Function.update_of_ne hq, Nat.add_zero]
  once := by
    change (((s.taken ++ [(k, p)]).map Prod.fst : List ℕ) + 0 :
      Multiset ℕ).Nodup
    rw [List.map_append, ← Multiset.coe_add, add_zero]
    exact h.once
  taken e he := by
    rcases List.mem_append.mp he with he | he
    · exact h.taken e he
    · rw [List.mem_singleton.mp he]
      exact hbuffer
  dontcopy c a q hc ha hq := by
    rcases h.dontcopy c a q hc ha hq with hmem | hk
    · exact .inl (List.mem_append_left _ hmem)
    · have hck := Multiset.mem_singleton.mp hk
      obtain ⟨a', ha', hdata⟩ := hbuffer
      rw [hck] at hc
      have hsame : a = a' := Option.some.inj (hc.symm.trans ha')
      rw [← hsame, if_pos ha, hq] at hdata
      cases hdata
      rw [hck]
      exact .inl (List.mem_append_right _ (.head _))
  sent := h.sent
  waiting := h.waiting
  received := h.received
  harbor := h.harbor

/-- A buffer in a hand is held by the runtime, and by nobody else. -/
theorem Inv.owner_hand (h : s.Inv {(k, p)} sending copying) :
    s.owner p = some .runtime ∧ (s.held.map Prod.snd).count p = 0 := by
  have hcount := h.heap p
  rw [Multiset.map_add, Multiset.count_add, Multiset.map_singleton,
    Multiset.count_singleton, if_pos rfl] at hcount
  have howner : s.owner p = some .runtime := by
    by_contra hne
    rw [holders_of_ne hne] at hcount
    exact absurd hcount (Nat.succ_ne_zero _)
  rw [howner] at hcount
  exact ⟨howner, Nat.succ.inj hcount⟩

/-- The buffer in the hand gets another owner. -/
theorem Inv.heap_release
    {o : Option Owner} (h : s.Inv {(k, p)} sending copying)
    (ho : o ≠ some .runtime) (q : Ptr) :
    ((s.held + 0).map Prod.snd).count q =
      holders (Function.update s.owner p o q) := by
  rw [add_zero]
  by_cases hq : q = p
  · subst hq
    rw [Function.update_self, holders_of_ne ho]
    exact h.owner_hand.2
  · have hcount := h.heap q
    rw [Multiset.map_add, Multiset.count_add, Multiset.map_singleton,
      Multiset.count_singleton, if_neg hq] at hcount
    rw [Function.update_of_ne hq]
    exact hcount

/-- The runtime may free what it has in its hand. -/
theorem Inv.skynetFree
    (h : s.Inv (item k data : List Item) sending copying) :
    (s.skynetFree k data).Ensures (· ≠ .badFree)
      fun s' => s'.Inv 0 sending copying := by
  cases data with
  | none => exact h
  | some p =>
      have hp : s.Inv {(k, p)} sending copying := h
      rw [State.skynetFree, if_pos hp.owner_hand.1]
      refine { hp with ledger := ?_, heap := ?_ }
      · change (s.taken : Multiset Item) =
          (s.freed ++ [(k, p)] : List Item) + s.reserved + s.harborItems +
            (s.held + 0)
        rw [hp.ledger, ← Multiset.coe_add, Multiset.coe_singleton]
        ac_rfl
      · exact hp.heap_release (by rintro ⟨⟩)

/-- A callback that reserves the buffer owns it. -/
theorem Inv.reserve
    (h : s.Inv (item k data : List Item) sending copying) :
    { s.handOver data with
      reserved := s.reserved ++ item k data }.Inv 0 sending copying := by
  cases data with
  | none =>
      have hnone : s.reserved ++ item k none = s.reserved :=
        List.append_nil _
      rw [hnone]
      exact h
  | some p =>
      have hp : s.Inv {(k, p)} sending copying := h
      refine { hp with ledger := ?_, heap := ?_ }
      · change (s.taken : Multiset Item) =
          s.freed + (s.reserved ++ [(k, p)] : List Item) + s.harborItems +
            (s.held + 0)
        rw [hp.ledger, ← Multiset.coe_add, Multiset.coe_singleton]
        ac_rfl
      · exact hp.heap_release (by rintro ⟨⟩)

/-- The harbor owns the buffer of a remote message. -/
theorem Inv.harborSend
    {m : RemoteMessage}
    (h : s.Inv (item m.call m.message : List Item) {m.call} copying)
    (hsent : s.SentAs m.call m.type m.sz m.message) :
    (s.harborSend m).Ensures (· ≠ .badFree) fun s' => s'.Inv 0 0 copying := by
  rw [State.harborSend]
  split_ifs
  · exact BufferFault.noConfusion
  · have hharbor : ∀ r ∈ s.harbor ++ [m],
        s.SentAs r.call r.type r.sz r.message := by
      intro r hr
      rcases List.mem_append.mp hr with hr | hr
      · exact h.harbor r hr
      · rw [List.mem_singleton.mp hr]
        exact hsent
    have hcalls : (s.waiting.map Message.call +
        (s.received.map Received.call : List ℕ) +
          ((s.harbor ++ [m]).map RemoteMessage.call : List ℕ) + 0 :
            Multiset ℕ).Nodup := by
      rw [List.map_append, ← Multiset.coe_add, add_zero, ← add_assoc]
      exact h.sent
    have hitems : ((s.harbor ++ [m] : List RemoteMessage) :
        Multiset RemoteMessage).bind (fun m =>
          ((item m.call m.message : List Item) : Multiset Item)) =
        s.harborItems + (item m.call m.message : List Item) := by
      rw [← Multiset.coe_add, Multiset.add_bind, Multiset.coe_singleton,
        Multiset.singleton_bind]
      rfl
    have hledger : (s.taken : Multiset Item) = s.freed + s.reserved +
        (s.harborItems + (item m.call m.message : List Item)) +
          (s.held + 0) := by
      rw [h.ledger]
      ac_rfl
    rw [← hitems] at hledger
    cases hdata : m.message with
    | none =>
        rw [hdata] at h
        exact { h with
          ledger := hledger
          sent := hcalls
          harbor := hharbor }
    | some p =>
        have hp : s.Inv {(m.call, p)} {m.call} copying := by
          rw [hdata] at h
          exact h
        exact { hp with
          ledger := hledger
          heap := hp.heap_release (by rintro ⟨⟩)
          sent := hcalls
          harbor := hharbor }

/-! ### Queues -/

variable {c : Ctx}

theorem waiting_modify
    {ctx : Context} (hc : s.contexts[c]? = some ctx)
    (f : Context → Context) :
    waiting { s with contexts := s.contexts.modify c f } +
        (ctx.queue : Multiset Message) =
      s.waiting + ((f ctx).queue : Multiset Message) :=
  Census.sum_map_modify hc _ f

/-- A message is pushed. -/
theorem waiting_mqPush
    {ctx : Context} (hc : s.contexts[c]? = some ctx) (m : Message) :
    (s.mqPush c m).waiting = s.waiting + {m} := by
  have hmodify := waiting_modify hc fun ctx =>
    { ctx with queue := ctx.queue ++ [m] }
  dsimp only at hmodify
  rw [← Multiset.coe_add, Multiset.coe_singleton, ← add_assoc,
    add_right_comm] at hmodify
  exact add_right_cancel hmodify

variable {m : Message} {s' : State}

/-- A message is popped. -/
theorem waiting_mqPop
    (h : s.mqPop c = some (m, s')) :
    s.waiting = s'.waiting + {m} ∧ ∃ contexts, s' = { s with contexts } := by
  rw [mqPop] at h
  split at h
  · cases h
  · rename_i ctx hc
    split at h
    · cases h
    · rename_i m' rest hqueue
      cases h
      refine ⟨?_, _, rfl⟩
      have hmodify := waiting_modify hc fun ctx =>
        { ctx with queue := ctx.queue.tail }
      dsimp only at hmodify
      have hsplit : ((m :: rest : List Message) : Multiset Message) =
          {m} + rest := (Multiset.singleton_add m rest).symm
      rw [hqueue, List.tail_cons, hsplit, ← add_assoc] at hmodify
      exact (add_right_cancel hmodify).symm

theorem held_of_waiting
    (hwaiting : s'.waiting = s.waiting + {m})
    (hrunning : s'.running = s.running) :
    s'.held = s.held + (item m.call m.data : List Item) := by
  rw [held, hwaiting, hrunning, add_right_comm, Multiset.add_bind,
    Multiset.singleton_bind]
  rfl

theorem sentCalls_of_waiting
    (hwaiting : s'.waiting = s.waiting + {m})
    (hreceived : s'.received = s.received) (hharbor : s'.harbor = s.harbor) :
    s'.sentCalls = s.sentCalls + {m.call} := by
  rw [sentCalls, sentCalls, hwaiting, hreceived, hharbor, Multiset.map_add,
    Multiset.map_singleton]
  ac_rfl

/-- The contexts, the names and the harbor change, but no queue does. -/
theorem Inv.elsewhere
    (h : s.Inv hand sending copying)
    {contexts : List Context} (names : Name → Handle) (HARBOR : BitVec 32)
    (REMOTE : Bool) (hwaiting : State.waiting { s with contexts } = s.waiting) :
    ({ s with contexts, names, HARBOR, REMOTE } : State).Inv hand sending
      copying := by
  have hheld : held { s with contexts } = s.held := by
    rw [held, hwaiting]
    rfl
  have hcalls : sentCalls { s with contexts } = s.sentCalls := by
    rw [sentCalls, hwaiting]
    rfl
  refine { h with ledger := ?_, heap := ?_, sent := ?_, waiting := ?_ }
  · rw [h.ledger, ← hheld]
    rfl
  · intro p
    rw [← h.heap p, ← hheld]
    rfl
  · have hsent := h.sent
    rw [← hcalls] at hsent
    exact hsent
  · intro m hm
    exact h.waiting m (hwaiting ▸ hm)

/-- A message is pushed to the queue of a context. -/
theorem Inv.mqPush
    {ctx : Context}
    (h : s.Inv (item m.call m.data : List Item) {m.call} copying)
    (hc : s.contexts[c]? = some ctx)
    (hsent : s.SentAs m.call (typeOf m.sz) (sizeOfMessage m.sz) m.data) :
    (s.mqPush c m).Inv 0 0 copying := by
  have hwaiting := waiting_mqPush hc m
  have hheld : (s.mqPush c m).held =
      s.held + (item m.call m.data : List Item) := held_of_waiting hwaiting rfl
  have hcalls : (s.mqPush c m).sentCalls = s.sentCalls + {m.call} :=
    sentCalls_of_waiting hwaiting rfl rfl
  refine { h with ledger := ?_, heap := ?_, sent := ?_, waiting := ?_ }
  · rw [hheld, add_zero]
    exact h.ledger
  · rw [hheld, add_zero]
    exact h.heap
  · rw [hcalls, add_zero]
    exact h.sent
  · intro r hr
    rw [hwaiting, Multiset.mem_add] at hr
    rcases hr with hr | hr
    · exact h.waiting r hr
    · rw [Multiset.mem_singleton.mp hr]
      exact hsent

/-- A message is popped and is in the hand. -/
theorem Inv.mqPop
    (h : s.Inv 0 0 0)
    (hpop : s.mqPop c = some (m, s')) :
    s'.Inv (item m.call m.data : List Item) {m.call} 0 ∧
      s'.SentAs m.call (typeOf m.sz) (sizeOfMessage m.sz) m.data := by
  obtain ⟨hwaiting, contexts, rfl⟩ := waiting_mqPop hpop
  have hheld : s.held =
      held { s with contexts } + (item m.call m.data : List Item) :=
    held_of_waiting hwaiting rfl
  have hcalls : s.sentCalls = sentCalls { s with contexts } + {m.call} :=
    sentCalls_of_waiting hwaiting rfl rfl
  constructor
  · refine { h with ledger := ?_, heap := ?_, sent := ?_, waiting := ?_ }
    · have hledger := h.ledger
      rw [hheld, add_zero] at hledger
      exact hledger
    · have hheap := h.heap
      rw [hheld, add_zero] at hheap
      exact hheap
    · have hsent := h.sent
      rw [hcalls, add_zero] at hsent
      exact hsent
    · intro r hr
      exact h.waiting r (hwaiting ▸ Multiset.mem_add.mpr (.inl hr))
  · exact h.waiting m
      (hwaiting ▸ Multiset.mem_add.mpr (.inr (Multiset.mem_singleton_self m)))

/-! ### Sending -/

/-- The call `k` with the arguments `a` is in progress. -/
structure Calling (s : State) (k : ℕ) (a : Call) (fresh : Ptr) : Prop where
  inv : s.Inv (Call.given k a) {k} (Call.copies k a)
  call : s.calls[k]? = some a
  buffers : ∀ p, a.data = some p → s.owner p ≠ none ∧ s.owner fresh = none

/-- The call `k` has the buffer of its message. -/
structure Filtered.Ready (r : Filtered) (k : ℕ) : Prop where
  inv : r.state.Inv (item k r.data : List Item) {k} 0
  sent : r.state.SentAs k (typeOf r.sz) (sizeOfMessage r.sz) r.data

section Sending

variable {a : Call} {fresh : Ptr} {context : Option Ctx} {session : BitVec 32}
  {source destination : Handle}

theorem waiting_setContext
    {f : Context → Context} (hf : ∀ ctx, (f ctx).queue = ctx.queue) (c : Ctx) :
    State.waiting { s with contexts := s.contexts.modify c f } = s.waiting :=
  Census.sum_map_modify_of_eq (fun ctx => by rw [hf ctx]) _ c

/-- A new session changes no queue. -/
theorem filterSession_spec (type : BitVec 32) :
    (s.filterSession context type session).Ensures (· ≠ .badFree) fun r =>
      ∃ contexts, r.1 = { s with contexts } ∧
        State.waiting { s with contexts } = s.waiting := by
  unfold State.filterSession
  split_ifs
  · exact BufferFault.noConfusion
  · cases context with
    | none => exact BufferFault.noConfusion
    | some c =>
        dsimp only
        rw [newSession]
        split
        · exact BufferFault.noConfusion
        · refine ⟨_, rfl, waiting_setContext ?_ c⟩
          exact fun _ => rfl
  · exact ⟨s.contexts, rfl, rfl⟩

theorem Calling.elsewhere
    {contexts : List Context} (h : s.Calling k a fresh)
    (hwaiting : State.waiting { s with contexts } = s.waiting) :
    Calling { s with contexts } k a fresh :=
  ⟨h.inv.elsewhere s.names s.HARBOR s.REMOTE hwaiting, h.call, h.buffers⟩

/-- After `_filter_args` the call has its buffer, and the type is in the
size. -/
theorem Calling.filterArgs
    (h : s.Calling k a fresh) (hfits : a.sz &&& messageTypeMask = a.sz) :
    (s.filterArgs k context a.type session a.data a.sz fresh).Ensures
      (· ≠ .badFree) fun r => r.Ready k := by
  refine (filterSession_spec a.type).bind fun r hr => ?_
  obtain ⟨contexts, hcontexts, hwaiting⟩ := hr
  have hcalling := h.elsewhere hwaiting
  rw [← hcontexts] at hcalling
  have hinv := hcalling.inv
  have hsent : ∀ data, data.isSome = a.data.isSome → SentAs r.1 k
      (typeOf (withType a.sz a.type)) (sizeOfMessage (withType a.sz a.type))
        data :=
    fun data hdata => ⟨a, hcalling.call, typeOf_withType hfits,
      sizeOfMessage_withType hfits, hdata⟩
  dsimp only
  by_cases hcopy : a.type &&& tagDontcopy = 0
  · have hno : ¬ a.Dontcopy := not_not.mpr hcopy
    rw [Call.given, Call.copies, if_neg hno, if_neg hno] at hinv
    rw [if_pos hcopy]
    cases hdata : a.data with
    | none =>
        exact ⟨hinv.settle hcalling.call fun _ => hdata,
          hsent none (by rw [hdata])⟩
    | some q =>
        obtain ⟨howned, hfresh⟩ := hcalling.buffers q hdata
        have hne : q ≠ fresh := by
          rintro rfl
          exact howned hfresh
        have hbuffer : r.1.BufferOf (k, fresh) := by
          refine ⟨a, hcalling.call, ?_⟩
          rw [if_neg hno]
          exact ⟨q, hdata, hne⟩
        have hfree : r.1.owner fresh ≠ some .runtime := by
          rw [hfresh]
          rintro ⟨⟩
        have htake := hinv.take hbuffer hfree
        rw [zero_add] at htake
        exact ⟨htake, hsent (some fresh) (by rw [hdata]; rfl)⟩
  · have hyes : a.Dontcopy := hcopy
    rw [Call.given, Call.copies, if_pos hyes, if_pos hyes] at hinv
    rw [if_neg hcopy]
    exact ⟨hinv, hsent a.data rfl⟩

/-- A call that ends before it makes a copy frees the buffer it was given. -/
theorem Calling.refuse (h : s.Calling k a fresh) (result : BitVec 32) :
    (if a.type &&& tagDontcopy ≠ 0 then
        (s.skynetFree k a.data).bind fun s => .next (s, result)
      else .next (s, result)).Ensures (· ≠ .badFree)
        fun (r : State × BitVec 32) => r.1.Inv 0 0 0 := by
  have hinv := h.inv
  rw [Call.given, Call.copies] at hinv
  split_ifs with hcopy
  · have hyes : a.Dontcopy := hcopy
    rw [if_pos hyes, if_pos hyes] at hinv
    exact hinv.skynetFree.bind fun s' hs' => hs'.mono
  · have hno : ¬ a.Dontcopy := hcopy
    rw [if_neg hno, if_neg hno] at hinv
    exact (hinv.settle h.call fun hyes => absurd hyes hno).mono

theorem origin_spec (s : State) (context : Option Ctx) (source : Handle) :
    (s.origin context source).Ensures (· ≠ .badFree) fun _ => True := by
  unfold State.origin
  split_ifs
  · split
    · exact BufferFault.noConfusion
    · trivial
  · trivial

theorem isRemote_spec (s : State) (handle : Handle) :
    (s.isRemote handle).Ensures (· ≠ .badFree) fun _ => True := by
  unfold State.isRemote
  split_ifs
  · exact BufferFault.noConfusion
  · trivial

/-- A handle of a context that can be grabbed. -/
theorem contexts_of_handleGrab
    {c : Ctx} (h : s.handleGrab destination = some c) :
    ∃ ctx, s.contexts[c]? = some ctx := by
  obtain ⟨hlt, -⟩ := List.findIdx?_eq_some_iff_getElem.mp h
  exact ⟨_, List.getElem?_eq_getElem hlt⟩

/-- After a call of `skynet_send` nothing is left in its hand. -/
theorem Calling.skynetSend (h : s.Calling k a fresh) :
    (s.skynetSend k context source destination a.type session a.data a.sz
      fresh).Ensures (· ≠ .badFree) fun r => r.1.Inv 0 0 0 := by
  unfold State.skynetSend
  by_cases hlarge : a.sz &&& messageTypeMask ≠ a.sz
  · rw [if_pos hlarge]
    exact h.refuse _
  · rw [if_neg hlarge]
    refine (h.filterArgs (not_not.mp hlarge)).bind fun r hr => ?_
    refine (origin_spec r.state context source).bind fun source' _ => ?_
    by_cases hzero : destination = 0
    · rw [if_pos hzero]
      split
      · exact hr.inv.skynetFree.bind fun s' hs' => hs'.mono
      · rename_i hnone
        have hinv := hr.inv
        rw [hnone] at hinv
        exact hinv.mono
    · rw [if_neg hzero]
      refine (isRemote_spec r.state destination).bind fun remote _ => ?_
      cases remote with
      | true => exact (hr.inv.harborSend hr.sent).bind fun s' hs' => hs'
      | false =>
          rw [if_neg Bool.false_ne_true]
          split
          · rename_i c hgrab
            obtain ⟨ctx, hc⟩ := contexts_of_handleGrab hgrab
            exact hr.inv.mqPush hc hr.sent
          · exact hr.inv.skynetFree.bind fun s' hs' => hs'.mono

/-- The same holds of `skynet_sendname`. -/
theorem Calling.skynetSendname {addr : Address} (h : s.Calling k a fresh) :
    (s.skynetSendname k context source addr a.type session a.data a.sz
      fresh).Ensures (· ≠ .badFree) fun r => r.1.Inv 0 0 0 := by
  unfold State.skynetSendname
  refine (origin_spec s context source).bind fun source' _ => ?_
  cases addr with
  | handle destination | number destination => exact h.skynetSend
  | localName name =>
      dsimp only
      by_cases hunknown : s.names name = 0
      · rw [if_pos hunknown]
        exact h.refuse _
      · rw [if_neg hunknown]
        exact h.skynetSend
  | globalName name =>
      dsimp only
      by_cases hlarge : a.sz &&& messageTypeMask ≠ a.sz
      · rw [if_pos hlarge]
        exact h.refuse _
      · rw [if_neg hlarge]
        refine (h.filterArgs (not_not.mp hlarge)).bind fun r hr => ?_
        exact (hr.inv.harborSend hr.sent).bind fun s' hs' => hs'

theorem getElem?_append
    {l : List Call} (h : l[k]? = some a) (l' : List Call) :
    (l ++ l')[k]? = some a := by
  obtain ⟨hlt, -⟩ := List.getElem?_eq_some_iff.mp h
  rw [List.getElem?_append_left hlt]
  exact h

theorem SentAs.lt
    {type : BitVec 32} {sz : BitVec 64} (h : s.SentAs k type sz data) :
    k < s.calls.length := by
  obtain ⟨a, ha, -⟩ := h
  exact (List.getElem?_eq_some_iff.mp ha).1

theorem SentAs.extend
    {type : BitVec 32} {sz : BitVec 64} (h : s.SentAs k type sz data)
    (b : Call) :
    SentAs { s with calls := s.calls ++ [b] } k type sz data := by
  obtain ⟨a, ha, hsent⟩ := h
  exact ⟨a, getElem?_append ha [b], hsent⟩

/-- Only calls that were made have sent a message. -/
theorem Inv.lt_of_sentCalls
    {hand : Multiset Item} (h : s.Inv hand sending copying)
    (hk : k ∈ s.sentCalls) : k < s.calls.length := by
  rw [sentCalls, Multiset.mem_add, Multiset.mem_add, Multiset.mem_map] at hk
  rcases hk with (⟨m, hm, rfl⟩ | hk) | hk
  · exact (h.waiting m hm).lt
  · obtain ⟨r, hr, rfl⟩ := List.mem_map.mp (Multiset.mem_coe.mp hk)
    exact (h.received r hr).lt
  · obtain ⟨m, hm, rfl⟩ := List.mem_map.mp (Multiset.mem_coe.mp hk)
    exact (h.harbor m hm).lt

/-- The number of a new call was not used. -/
theorem Inv.extend (h : s.Inv 0 0 0) (a : Call) :
    ({ s with calls := s.calls ++ [a] } : State).Inv 0 {s.calls.length}
      {s.calls.length} where
  ledger := h.ledger
  heap := h.heap
  once := by
    have honce := h.once
    rw [add_zero] at honce
    rw [Multiset.nodup_add]
    refine ⟨honce, Multiset.nodup_singleton _, ?_⟩
    rw [Multiset.disjoint_singleton]
    intro hmem
    obtain ⟨e, he, hlast⟩ := List.mem_map.mp (Multiset.mem_coe.mp hmem)
    obtain ⟨b, hb, -⟩ := h.taken e he
    have hlt := (List.getElem?_eq_some_iff.mp hb).1
    omega
  taken e he := by
    obtain ⟨b, hb, hdata⟩ := h.taken e he
    exact ⟨b, getElem?_append hb [a], hdata⟩
  dontcopy c b q hc hb hq := by
    rcases Nat.lt_or_ge c s.calls.length with hlt | hge
    · change (s.calls ++ [a])[c]? = some b at hc
      rw [List.getElem?_append_left hlt] at hc
      exact .inl ((h.dontcopy c b q hc hb hq).resolve_right
        (Multiset.notMem_zero c))
    · have hlt := (List.getElem?_eq_some_iff.mp hc).1
      rw [List.length_append, List.length_singleton] at hlt
      exact .inr (Multiset.mem_singleton.mpr (by omega))
  sent := by
    have hsent := h.sent
    rw [add_zero] at hsent
    rw [Multiset.nodup_add]
    refine ⟨hsent, Multiset.nodup_singleton _, ?_⟩
    rw [Multiset.disjoint_singleton]
    intro hmem
    exact absurd (h.lt_of_sentCalls hmem) (Nat.lt_irrefl _)
  waiting m hm := (h.waiting m hm).extend a
  received r hr := (h.received r hr).extend a
  harbor m hm := (h.harbor m hm).extend a

/-- A call begins. -/
theorem Inv.accept
    (h : s.Inv 0 0 0) (hbuffers : ∀ p, a.data = some p →
      s.owner p = some .service ∧ s.owner fresh = none) :
    (s.accept a).Calling s.calls.length a fresh := by
  have hextend := h.extend a
  have hlast : (s.calls ++ [a])[s.calls.length]? = some a :=
    List.getElem?_concat_length
  have hallocated : ∀ p, a.data = some p →
      s.owner p ≠ none ∧ s.owner fresh = none := by
    intro p hp
    refine ⟨?_, (hbuffers p hp).2⟩
    rw [(hbuffers p hp).1]
    rintro ⟨⟩
  by_cases hyes : a.Dontcopy
  · have hgiven : Call.given s.calls.length a =
        (item s.calls.length a.data : List Item) := if_pos hyes
    have hcopies : Call.copies s.calls.length a = 0 := if_pos hyes
    cases hdata : a.data with
    | none =>
        have haccept : s.accept a = { s with calls := s.calls ++ [a] } := by
          rw [State.accept, hdata]
        rw [haccept]
        refine ⟨?_, hlast, hallocated⟩
        rw [hgiven, hcopies, hdata]
        exact hextend.settle hlast fun _ => hdata
    | some p =>
        have haccept : s.accept a =
            State.take { s with calls := s.calls ++ [a] } s.calls.length
              p := by
          rw [State.accept, hdata]
          exact if_pos hyes
        have hservice : s.owner p ≠ some .runtime := by
          rw [(hbuffers p hdata).1]
          rintro ⟨⟩
        have hbuffer : BufferOf { s with calls := s.calls ++ [a] }
            (s.calls.length, p) := by
          refine ⟨a, hlast, ?_⟩
          rw [if_pos hyes]
          exact hdata
        have htake := hextend.take hbuffer hservice
        rw [zero_add] at htake
        rw [haccept]
        refine ⟨?_, hlast, fun q hq => ⟨?_, ?_⟩⟩
        · rw [hgiven, hcopies, hdata]
          exact htake
        · rw [hdata] at hq
          cases hq
          intro hnone
          exact Option.some_ne_none _
            ((Function.update_self p _ s.owner).symm.trans hnone)
        · refine (Function.update_of_ne ?_ _ _).trans (hbuffers p hdata).2
          rintro rfl
          exact (hallocated fresh hdata).1 (hbuffers fresh hdata).2
  · have haccept : s.accept a = { s with calls := s.calls ++ [a] } := by
      rw [State.accept]
      split
      · rfl
      · exact if_neg hyes
    rw [haccept]
    refine ⟨?_, hlast, hallocated⟩
    rw [Call.given, Call.copies, if_neg hyes, if_neg hyes]
    exact hextend

theorem Inv.call
    (h : s.Inv 0 0 0) (hbuffers : ∀ p, a.data = some p →
      s.owner p = some .service ∧ s.owner fresh = none) :
    (s.call a fresh).Ensures (· ≠ .badFree) fun r => r.1.Inv 0 0 0 := by
  have hcalling := h.accept hbuffers
  unfold State.call
  dsimp only
  split
  · exact hcalling.skynetSend
  · exact hcalling.skynetSendname

end Sending

/-! ### Receiving -/

/-- The number of the call is used for a message that is received. -/
theorem Inv.receive
    {r : Received} (h : s.Inv hand {r.call} copying)
    (hsent : s.SentAs r.call r.type r.sz r.data) :
    ({ s with received := s.received ++ [r] } : State).Inv hand 0 copying := by
  refine { h with sent := ?_, received := ?_ }
  · have hcalls : sentCalls { s with received := s.received ++ [r] } =
        s.sentCalls + {r.call} := by
      have hmap : (((s.received ++ [r]).map Received.call : List ℕ) :
          Multiset ℕ) = (s.received.map Received.call : List ℕ) + {r.call} := by
        rw [List.map_append, ← Multiset.coe_add]
        rfl
      change s.waiting.map Message.call +
        (((s.received ++ [r]).map Received.call : List ℕ) : Multiset ℕ) +
          (s.harbor.map RemoteMessage.call : List ℕ) = s.sentCalls + {r.call}
      rw [hmap, sentCalls]
      ac_rfl
    rw [hcalls, add_zero]
    exact h.sent
  · intro r' hr'
    rcases List.mem_append.mp hr' with hr' | hr'
    · exact h.received r' hr'
    · rw [List.mem_singleton.mp hr']
      exact hsent

theorem held_of_running
    (hwaiting : s'.waiting = s.waiting)
    (hrunning : (s'.running : Multiset Message) =
      (s.running : Multiset Message) + {m}) :
    s'.held = s.held + (item m.call m.data : List Item) := by
  rw [held, hwaiting, hrunning, ← add_assoc, Multiset.add_bind,
    Multiset.singleton_bind]
  rfl

/-- A callback that will return 0 leaves the buffer to the runtime. -/
theorem Inv.run
    (h : s.Inv (item m.call m.data : List Item) sending copying) :
    ({ s with running := s.running ++ [m] } : State).Inv 0 sending
      copying := by
  have hheld : held { s with running := s.running ++ [m] } =
      s.held + (item m.call m.data : List Item) :=
    held_of_running rfl (Multiset.coe_add _ _).symm
  refine { h with ledger := ?_, heap := ?_ }
  · rw [hheld, add_zero]
    exact h.ledger
  · rw [hheld, add_zero]
    exact h.heap

/-- A callback gets a message. -/
theorem Inv.dispatchMessage
    (h : s.Inv (item m.call m.data : List Item) {m.call} 0)
    (hsent : s.SentAs m.call (typeOf m.sz) (sizeOfMessage m.sz) m.data)
    (c : Ctx) (reserve : Bool) : (s.dispatchMessage c m reserve).Inv 0 0 0 := by
  unfold State.dispatchMessage
  dsimp only
  have hreceived := h.receive (r :=
    { context := c, type := typeOf m.sz, session := m.session
      source := m.source, data := m.data, sz := sizeOfMessage m.sz
      call := m.call }) hsent
  split_ifs
  · exact hreceived.reserve
  · exact hreceived.run

/-- The buffer of a callback that returned 0 is freed. -/
theorem Inv.callbackReturn (h : s.Inv 0 0 0) (i : ℕ) :
    (s.callbackReturn i).Ensures (· ≠ .badFree) fun s' => s'.Inv 0 0 0 := by
  unfold State.callbackReturn
  split
  · trivial
  · rename_i m hm
    obtain ⟨hlt, rfl⟩ := List.getElem?_eq_some_iff.mp hm
    have hrunning : (s.running : Multiset Message) =
        (s.running.eraseIdx i : List Message) + {s.running[i]} := by
      rw [← Multiset.coe_eq_coe.mpr (List.getElem_cons_eraseIdx_perm hlt),
        add_comm]
      rfl
    have hheld : s.held = held { s with running := s.running.eraseIdx i } +
        (item s.running[i].call s.running[i].data : List Item) :=
      held_of_running rfl hrunning
    have hinv : ({ s with running := s.running.eraseIdx i } : State).Inv
        (item s.running[i].call s.running[i].data : List Item) 0 0 := by
      have hledger := h.ledger
      have hheap := h.heap
      rw [hheld, add_zero] at hledger hheap
      exact { h with ledger := hledger, heap := hheap }
    exact hinv.skynetFree

theorem Inv.dispatch (h : s.Inv 0 0 0) (c : Ctx) (reserve : Bool) :
    (s.dispatch c reserve).Ensures (· ≠ .badFree) fun s' => s'.Inv 0 0 0 := by
  unfold State.dispatch
  split
  · trivial
  · split_ifs
    · trivial
    · split
      · trivial
      · rename_i m s' hpop
        obtain ⟨hinv, hsent⟩ := h.mqPop hpop
        exact hinv.dispatchMessage hsent c reserve
    · split
      · trivial
      · rename_i m s' hpop
        exact (h.mqPop hpop).1.skynetFree.mono fun _ hs' => hs'.mono

/-- A message is dropped, and its source gets an error. -/
theorem Inv.drop (h : s.Inv 0 0 0) (c : Ctx) :
    (s.drop c).Ensures (· ≠ .badFree) fun s' => s'.Inv 0 0 0 := by
  unfold State.drop
  split
  · trivial
  · rename_i ctx hc
    split_ifs
    · split
      · trivial
      · rename_i m s' hpop
        refine (h.mqPop hpop).1.skynetFree.bind fun t ht => ?_
        exact BufferFault.noConfusion
    · split
      · trivial
      · rename_i m s' hpop
        refine (h.mqPop hpop).1.skynetFree.bind fun t ht => ?_
        refine Outcome.Ensures.bind (ht.mono.call ?_) fun r hr => hr
        rintro p ⟨⟩
    · trivial

/-! ### Steps -/

/-- Services allocate and free their own buffers. -/
theorem Inv.setOwner
    {o : Option Owner} (h : s.Inv 0 0 0) (hp : s.owner p ≠ some .runtime)
    (ho : o ≠ some .runtime) : (s.setOwner p o).Inv 0 0 0 := by
  refine { h with heap := ?_ }
  intro q
  change _ = holders (Function.update s.owner p o q)
  by_cases hq : q = p
  · subst hq
    rw [Function.update_self, holders_of_ne ho, ← holders_of_ne hp]
    exact h.heap q
  · rw [Function.update_of_ne hq]
    exact h.heap q

theorem inv_init : init.Inv 0 0 0 where
  ledger := rfl
  heap _ := rfl
  once := Multiset.nodup_zero
  taken _ he := absurd he List.not_mem_nil
  dontcopy _ _ _ hc := by cases hc
  sent := Multiset.nodup_zero
  waiting _ hm := absurd hm (Multiset.notMem_zero _)
  received _ hr := absurd hr List.not_mem_nil
  harbor _ hm := absurd hm List.not_mem_nil

theorem inv_step (h : s.Inv 0 0 0) (l : Label) :
    (s.step l).Ensures (· ≠ .badFree) fun s' => s'.Inv 0 0 0 := by
  cases l with
  | malloc p | free p =>
      rw [step]
      split_ifs with hp
      · refine h.setOwner ?_ (by rintro ⟨⟩)
        rw [hp]
        rintro ⟨⟩
      · trivial
  | send a fresh =>
      rw [step]
      split_ifs with henabled
      · obtain ⟨howned, -, hfresh⟩ := henabled
        exact (h.call fun p hp => ⟨howned p hp, hfresh⟩).bind fun r hr => hr
      · trivial
  | dispatch c reserve => exact h.dispatch c reserve
  | callbackReturn i => exact h.callbackReturn i
  | drop c => exact h.drop c
  | new handle =>
      refine h.elsewhere _ _ _ ?_
      rw [State.waiting, State.waiting, List.map_append, List.sum_append]
      exact add_zero _
  | callback c cb | retire c =>
      exact h.elsewhere _ _ _ (waiting_setContext (by intro ctx; rfl) c)
  | delete c =>
      rw [step]
      split
      · trivial
      · split_ifs
        · trivial
        · exact h.elsewhere _ _ _ (waiting_setContext (by intro ctx; rfl) c)
  | name name handle | harborInit harbor | harborStart =>
      exact h.elsewhere _ _ _ rfl

end Moves

/-! ## Runs -/

/-- Every buffer that became a message has one owner, and what is received is
what was sent. -/
structure Owned (s : State) : Prop where
  /-- Each buffer is held by the runtime, or was freed once, or was handed over
  once to a callback or to the harbor. -/
  ledger : (s.taken : Multiset Item) =
    s.freed + s.reserved + s.harborItems + s.held
  /-- A call makes a message of at most one buffer. -/
  once : (s.taken.map Prod.fst).Nodup
  /-- It is the argument with `PTYPE_TAG_DONTCOPY`, and a copy otherwise. -/
  taken : ∀ e ∈ s.taken, s.BufferOf e
  dontcopy : ∀ k a p, s.calls[k]? = some a → a.Dontcopy → a.data = some p →
    (k, p) ∈ s.taken
  kept : ∀ k a p, s.calls[k]? = some a → ¬ a.Dontcopy → a.data = some p →
    (k, p) ∉ s.freed
  /-- The runtime owns what it holds, and holds it once. -/
  heap : ∀ p, (s.held.map Prod.snd).count p = holders (s.owner p)
  /-- A message is received once. -/
  sent : s.sentCalls.Nodup
  received : ∀ r ∈ s.received, s.SentAs r.call r.type r.sz r.data
  harbor : ∀ m ∈ s.harbor, s.SentAs m.call m.type m.sz m.message

theorem Inv.toOwned {s : State} (h : s.Inv 0 0 0) : s.Owned where
  ledger := by
    have hledger := h.ledger
    rw [add_zero] at hledger
    exact hledger
  once := by
    have honce := h.once
    rw [add_zero] at honce
    exact honce
  taken := h.taken
  dontcopy k a p hk ha hp :=
    (h.dontcopy k a p hk ha hp).resolve_right (Multiset.notMem_zero k)
  kept k a p hk ha hp hfreed := by
    have hmem : (k, p) ∈ (s.taken : Multiset Item) := by
      rw [h.ledger]
      simp only [Multiset.mem_add, Multiset.mem_coe]
      exact .inl (.inl (.inl hfreed))
    obtain ⟨b, hb, hdata⟩ := h.taken (k, p) (Multiset.mem_coe.mp hmem)
    have hsame : a = b := Option.some.inj (hk.symm.trans hb)
    rw [← hsame, if_neg ha, hp] at hdata
    obtain ⟨q, hq, hne⟩ := hdata
    exact hne (Option.some.inj hq).symm
  heap p := by
    have hheap := h.heap p
    rw [add_zero] at hheap
    exact hheap
  sent := by
    have hsent := h.sent
    rw [add_zero] at hsent
    exact hsent
  received := h.received
  harbor := h.harbor

/-- In every run, every message buffer has one owner, and the runtime frees no
buffer that it does not own. -/
theorem one_owner {s : State} (h : Reaches step anyStep init s) :
    s.Owned ∧ ∀ l, s.step l ≠ .fault .badFree := by
  have hinv : s.Inv 0 0 0 :=
    h.ensures (fun s => s.Inv 0 0 0) inv_init fun s l hs _ => inv_step hs l
  refine ⟨hinv.toOwned, fun l hl => ?_⟩
  have hensures := inv_step hinv l
  rw [hl] at hensures
  exact hensures rfl

/-- A copy is dispatched and freed, and a buffer for a dead service is freed by
the call. -/
theorem one_owner_of_copy :
    ∃ s : State, Reaches step anyStep init s ∧ s.Owned ∧
      s.freed = [(0, 6), (1, 5)] ∧
      s.received.map (fun r => (r.type, r.sz)) = [(10#32, 3#64)] := by
  obtain ⟨s, hexec, hfreed, hreceived⟩ : ∃ s,
      exec step init
        [.harborInit 0, .new 0x00000001#32, .callback 0 true, .malloc 5,
          .send ⟨some 0, 0, .handle 0x00000001#32, 10#32, 0, some 5, 3#64⟩ 6,
          .dispatch 0 false, .callbackReturn 0,
          .send ⟨some 0, 0, .handle 0x00000002#32, 0x1000a#32, 0, some 5,
            3#64⟩ 7] = .next s ∧
        s.freed = [(0, 6), (1, 5)] ∧
        s.received.map (fun r => (r.type, r.sz)) = [(10#32, 3#64)] :=
    ⟨_, rfl, rfl, rfl⟩
  have hrun := reaches_of_exec hexec
  exact ⟨s, hrun, (one_owner hrun).1, hfreed, hreceived⟩

end State

end SkynetServer.Send
