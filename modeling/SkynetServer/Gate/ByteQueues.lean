import SkynetServer.Gate.PoolNodes

/-!
# Buffers that share a pool are byte queues

Each buffer, with the chunks in its nodes, stands for a `Gate.Databuffer`, a list
of chunks, and this one for the bytes that are not read.  The count of these
bytes is kept in an `int`.
-/

namespace SkynetServer.Gate.Pool

open Function Links Transition

variable {κ : Type}

/-! ## The count -/

theorem int_natCast_iff (n : ℕ) : int n = n ↔ n < 0x80000000 := by
  rw [int, Int.bmod_def]
  split <;> omega

theorem int_natCast_le (n : ℕ) : int n ≤ n := by
  rw [int, Int.bmod_def]
  split <;> omega

/-! ## What a buffer stands for -/

/-- The buffer has these chunks, read up to the same place. -/
structure Databuffer.StandsFor
    (db : Databuffer) (l : List (ℕ × List UInt8)) (d : Gate.Databuffer) :
    Prop where
  ok : d.Ok
  messages : chunks l = d.messages
  offset : db.offset = d.offset
  size : db.size = int d.size

/-- The state is that of the queues. -/
def State.Agrees (s : State κ) (q : Queues κ) : Prop :=
  ∃ frees chain, ∃ d : κ → Gate.Databuffer, s.Holds frees chain [] ∧
    (∀ k, (s.buffer k).StandsFor (chain k) (d k)) ∧
    (∀ k, (d k).contents = q.queue k) ∧ s.reads = q.reads

theorem ok_clear : Gate.Databuffer.clear.Ok := ⟨Nat.le_refl 0, rfl⟩

theorem standsFor_zero :
    Databuffer.zero.StandsFor [] Gate.Databuffer.clear where
  ok := ok_clear
  messages := rfl
  offset := rfl
  size := ((int_natCast_iff 0).mpr (by decide)).symm

theorem agrees_init : (State.init : State κ).Agrees Queues.empty :=
  ⟨[], fun _ => [], fun _ => .clear, holds_init,
    fun _ => standsFor_zero, fun _ => rfl, rfl⟩

section Steps

variable [DecidableEq κ] {s : State κ} {q : Queues κ} {k : κ}

theorem State.Agrees.push (h : s.Agrees q) (k : κ) (data : List UInt8) :
    ∃ s', s.push k data = some s' ∧ s'.Agrees (q.step (.push k data)) := by
  obtain ⟨frees, chain, d, hholds, hstands, hcontents, hreads⟩ := h
  obtain ⟨frees', hout, hbuffer, hreads₁⟩ := hholds.freeMessage
  generalize hm : s.freeMessage.1 = m at hout
  generalize hs : s.freeMessage.2 = s₁ at hout hbuffer hreads₁
  have hnode := hout.setNode ⟨some data, data.length, none⟩
  have hsized := hnode.setSize k (int ((s₁.buffer k).size + data.length))
  generalize hs₂ : ({ s₁ with
    node := update s₁.node m ⟨some data, data.length, none⟩ } : State κ).setSize
      k (int ((s₁.buffer k).size + data.length)) = s₂ at hsized
  have hself : s₂.node m = ⟨some data, data.length, none⟩ := by
    rw [← hs₂]
    exact update_self ..
  have hchunk : s₂.HasChunk (m, data) := ⟨by rw [hself], by rw [hself]⟩
  have hnone : s₂.next m = none := by
    rw [State.next, hself]
  obtain ⟨s', happend, hholds', hoffset, hsize, hreads₂⟩ :=
    hsized.append hchunk hnone k
  have hoffset' : ∀ k', (s'.buffer k').offset = (s.buffer k').offset := by
    intro k'
    rw [hoffset k', ← hs₂, setSize_offset, ← hbuffer]
  refine ⟨s', ?_, frees', _, update d k ((d k).push data), hholds',
    fun k' => ?_, fun k' => ?_, ?_⟩
  · rw [State.push, hm, hs]
    dsimp only
    rw [hs₂, happend]
  · have hold := hstands k'
    by_cases hk' : k' = k
    · subst hk'
      rw [update_self, update_self]
      refine ⟨hold.ok.push data, ?_, (hoffset' k').trans hold.offset, ?_⟩
      · have hmessages := hold.messages
        rw [chunks] at hmessages ⊢
        rw [List.map_append, hmessages]
        rfl
      · have hnat : (((d k').push data).size : ℤ) =
            (d k').size + data.length := Int.natCast_add _ _
        rw [hsize k', ← hs₂, setSize_self, hbuffer, hold.size, hnat]
        exact Int.bmod_add_bmod
    · rw [update_of_ne hk', update_of_ne hk']
      refine ⟨hold.ok, hold.messages, (hoffset' k').trans hold.offset, ?_⟩
      rw [hsize k', ← hs₂, setSize_of_ne hk', ← hold.size, ← hbuffer]
  · by_cases hk' : k' = k
    · subst hk'
      rw [update_self, (hstands k').ok.contents_push, hcontents]
      exact (update_self k' (q.queue k' ++ data) q.queue).symm
    · rw [update_of_ne hk', hcontents]
      exact (update_of_ne hk' (q.queue k ++ data) q.queue).symm
  · rw [hreads₂, ← hs₂]
    exact hreads₁.trans hreads

theorem readMessages_of_read
    {d d' : Gate.Databuffer} {sz : ℕ} {bytes : List UInt8}
    (h : d.read sz = some (bytes, d')) :
    readMessages d.messages d.offset sz = some (bytes, d'.messages, d'.offset) ∧
      d'.size = d.size - sz ∧ sz ≤ d.size := by
  rw [Gate.Databuffer.read] at h
  split at h
  · cases h
  · split at h
    · cases h
    · rename_i hread
      cases h
      exact ⟨hread, rfl, by omega⟩

theorem State.Agrees.read
    (h : s.Agrees q) {k : κ} {sz : ℕ} (hpos : 0 < sz)
    (hsz : (sz : ℤ) ≤ (s.buffer k).size) :
    ∃ s', s.read k sz = some ((q.queue k).take sz, s') ∧
      { s' with reads := s'.reads ++ [(k, (q.queue k).take sz)] }.Agrees
        (q.step (.read k sz)) := by
  obtain ⟨frees, chain, d, hholds, hstands, hcontents, hreads⟩ := h
  have hk := hstands k
  have hle : sz ≤ (d k).contents.length := by
    have hint := int_natCast_le (d k).size
    rw [← hk.size] at hint
    rw [← hk.ok.size]
    omega
  obtain ⟨d', hread, hok, hdrop, -⟩ := hk.ok.read hpos hle
  obtain ⟨hmessages, hsize, hfits⟩ := readMessages_of_read hread
  rw [← hk.messages] at hmessages
  have ho : (d k).offset ≤ ((chunks (chain k)).headD []).length := by
    rw [hk.messages]
    exact hk.ok.offset
  have hsized := hholds.setSize k (int ((s.buffer k).size - sz))
  obtain ⟨s', frees', l', hloop, hholds', hchunks, hoffset, hkept⟩ :=
    hsized.readLoop rfl ((setSize_offset k _ k).trans hk.offset) ho
      (hholds.length_le k) [] hmessages
  rw [hcontents, List.nil_append] at hloop
  refine ⟨s', ?_, frees', _, update d k d', hholds'.congr rfl rfl rfl
    (fun _ => rfl) fun _ => rfl, fun k' => ?_, fun k' => ?_, ?_⟩
  · rw [State.read, if_neg (by omega)]
    exact hloop
  · by_cases hk' : k' = k
    · subst hk'
      rw [update_self, update_self]
      refine ⟨hok, hchunks, hoffset, ?_⟩
      have hnat : ((d k').size : ℤ) - sz = d'.size := by omega
      show (s'.buffer k').size = _
      rw [hkept.size, setSize_self, hk.size, ← hnat]
      exact Int.bmod_sub_bmod
    · have hold := hstands k'
      rw [update_of_ne hk', update_of_ne hk']
      refine ⟨hold.ok, hold.messages, ?_, ?_⟩
      · show (s'.buffer k').offset = _
        rw [hkept.offset k' hk', setSize_offset, hold.offset]
      · show (s'.buffer k').size = _
        rw [hkept.size, setSize_of_ne hk', hold.size]
  · by_cases hk' : k' = k
    · subst hk'
      rw [update_self, hdrop, hcontents]
      exact (update_self k' ((q.queue k').drop sz) q.queue).symm
    · rw [update_of_ne hk', hcontents]
      exact (update_of_ne hk' ((q.queue k).drop sz) q.queue).symm
  · show s'.reads ++ _ = q.reads ++ _
    rw [hkept.reads]
    exact congrArg (· ++ _) hreads

theorem State.Agrees.clear (h : s.Agrees q) (k : κ) :
    ∃ s', s.clear k = some s' ∧ s'.Agrees (q.step (.clear k)) := by
  obtain ⟨frees, chain, d, hholds, hstands, hcontents, hreads⟩ := h
  obtain ⟨s', frees', hloop, hholds', hkept⟩ :=
    hholds.clearLoop rfl (hholds.length_le k)
  have hpath := hholds'.path k
  have htail := hholds'.tail k
  rw [update_self] at hpath htail
  refine ⟨s'.setBuffer k .zero, ?_, frees', _, update d k .clear,
    hholds'.congr rfl rfl rfl (fun k' => ?_) (fun k' => ?_), fun k' => ?_,
    fun k' => ?_, hkept.reads.trans hreads⟩
  · rw [State.clear, hloop, Option.map_some]
  · refine field_update Databuffer.head ?_ k'
    exact hpath.symm
  · refine field_update Databuffer.tail ?_ k'
    exact htail.symm
  · rw [State.setBuffer]
    dsimp only
    by_cases hk' : k' = k
    · rw [hk', update_self, update_self, update_self]
      exact standsFor_zero
    · have hold := hstands k'
      rw [update_of_ne hk', update_of_ne hk', update_of_ne hk']
      exact ⟨hold.ok, hold.messages, (hkept.offset k' hk').trans hold.offset,
        (hkept.size k').trans hold.size⟩
  · by_cases hk' : k' = k
    · subst hk'
      rw [update_self]
      exact (update_self k' [] q.queue).symm
    · rw [update_of_ne hk', hcontents]
      exact (update_of_ne hk' [] q.queue).symm

/-- A call keeps the agreement, and does nothing undefined. -/
theorem State.Agrees.step (h : s.Agrees q) (op : Op κ) :
    (s.step op).Ensures (fun _ => False) fun s' => s'.Agrees (q.step op) := by
  cases op with
  | push k data =>
      rw [State.step]
      split
      · trivial
      · obtain ⟨s', hpush, hagrees⟩ := h.push k data
        rw [hpush]
        exact hagrees
  | read k sz =>
      rw [State.step]
      split
      · rename_i hsz
        obtain ⟨n, rfl⟩ := Int.eq_ofNat_of_zero_le (Int.le_of_lt hsz.1)
        obtain ⟨s', hread, hagrees⟩ := h.read (by omega) hsz.2
        rw [hread]
        exact hagrees
      · trivial
  | clear k =>
      obtain ⟨s', hclear, hagrees⟩ := h.clear k
      rw [State.step, hclear]
      exact hagrees

end Steps

/-! ## Runs -/

/-- A place for a node: in the free list, or in the list of a buffer. -/
abbrev Place (κ : Type) := Option κ × ℕ

/-- The node at a place. -/
def nodeAt (frees : List ℕ) (chain : κ → List ℕ) : Place κ → Option ℕ
  | (none, i) => frees[i]?
  | (some k, i) => (chain k)[i]?

/-- Following the pointers from the free list and from the head of each buffer
comes to each node of the pool, and at one place only; the tail of a buffer is
its last node. -/
def State.Placed (s : State κ) : Prop :=
  ∃ frees chain, Path s.next s.freelist frees ∧
    (∀ k, Path s.next (s.buffer k).head (chain k)) ∧
    (∀ k, (s.buffer k).tail = (chain k).getLast?) ∧
    ∀ m, (m < s.top → ∃! p, nodeAt frees chain p = some m) ∧
      ∀ p, nodeAt frees chain p = some m → m < s.top

/-- The buffers are the queues. -/
structure State.Right (s : State κ) (q : Queues κ) : Prop where
  reads : s.reads = q.reads
  size : ∀ k, (s.buffer k).size = (q.queue k).length
  placed : s.Placed

section Right

variable {s : State κ} {q : Queues κ}

theorem eq_of_getElem?
    {l : List ℕ} (hl : l.Nodup) {i j m : ℕ} (hi : l[i]? = some m)
    (hj : l[j]? = some m) : i = j := by
  obtain ⟨hlt, hi⟩ := List.getElem?_eq_some_iff.mp hi
  obtain ⟨hlt', hj⟩ := List.getElem?_eq_some_iff.mp hj
  exact hl.getElem_inj_iff.mp (hi.trans hj.symm)

theorem State.Holds.placed
    {frees : List ℕ} {chain : κ → List (ℕ × List UInt8)}
    (h : s.Holds frees chain []) : s.Placed := by
  refine ⟨frees, fun k => addresses (chain k), h.free, h.path, h.tail,
    fun m => ⟨fun hm => ?_, ?_⟩⟩
  · rcases (h.covers m).mp hm with hm | hm | ⟨k, hm⟩
    · cases hm
    · obtain ⟨i, hi⟩ := List.getElem?_of_mem hm
      refine ⟨(none, i), hi, ?_⟩
      rintro ⟨_ | k, j⟩ hj
      · rw [eq_of_getElem? h.free.nodup hj hi]
      · exact absurd hm (h.apart k m (List.mem_of_getElem? hj))
    · obtain ⟨i, hi⟩ := List.getElem?_of_mem hm
      refine ⟨(some k, i), hi, ?_⟩
      rintro ⟨_ | k', j⟩ hj
      · exact absurd (List.mem_of_getElem? hj) (h.apart k m hm)
      · obtain rfl := h.distinct k' k m (List.mem_of_getElem? hj) hm
        rw [eq_of_getElem? (h.path k').nodup hj hi]
  · rintro ⟨_ | k, i⟩ hp
    · exact (h.covers m).mpr (Or.inr (Or.inl (List.mem_of_getElem? hp)))
    · exact (h.covers m).mpr
        (Or.inr (Or.inr ⟨k, List.mem_of_getElem? hp⟩))

theorem State.Agrees.size (h : s.Agrees q) (k : κ) :
    (s.buffer k).size = int (q.queue k).length := by
  obtain ⟨frees, chain, d, -, hstands, hcontents, -⟩ := h
  rw [(hstands k).size, (hstands k).ok.size, hcontents]

theorem State.Agrees.right_iff (h : s.Agrees q) :
    s.Right q ↔ ∀ k, (q.queue k).length < 0x80000000 := by
  have hsize := h.size
  obtain ⟨frees, chain, d, hholds, -, -, hreads⟩ := h
  constructor
  · intro hright k
    rw [← int_natCast_iff, ← hsize k]
    exact hright.size k
  · intro hsmall
    refine ⟨hreads, fun k => ?_, hholds.placed⟩
    rw [hsize k]
    exact (int_natCast_iff _).mpr (hsmall k)

variable [DecidableEq κ]

theorem State.Agrees.exec (h : s.Agrees q) (ops : List (Op κ)) :
    (exec State.step s ops).Ensures (fun _ => False)
      fun s' => s'.Agrees (ops.foldl Queues.step q) := by
  induction ops generalizing s q with
  | nil => exact h
  | cons op ops ih =>
      have hstep := h.step op
      rw [Transition.exec]
      cases hs : s.step op with
      | next s₁ =>
          rw [hs] at hstep
          exact ih hstep
      | blocked => trivial
      | fault f =>
          rw [hs] at hstep
          exact hstep

end Right

/-- Calls never come to anything undefined, and the buffers are the queues if and
only if no queue has 2 ^ 31 bytes or more. -/
theorem buffers_are_queues_iff [DecidableEq κ] (ops : List (Op κ)) :
    (exec State.step State.init ops).Ensures (fun _ => False) fun s =>
      s.Right (Queues.run ops) ↔
        ∀ k, ((Queues.run ops).queue k).length < 0x80000000 :=
  (agrees_init.exec ops).mono fun _ h => h.right_iff

theorem twoPushes_overflow_of_length
    {data : List UInt8} (hdata : data.length = 0x40000000) :
    ∃ s : State Unit,
      exec State.step State.init [.push () data, .push () data] = .next s ∧
      (s.buffer ()).size = -0x80000000 ∧
      ¬s.Right (Queues.run [.push () data, .push () data]) := by
  have hallowed : ¬(data = [] ∨ 0x80000000 ≤ data.length) := by
    rw [← List.length_eq_zero_iff, hdata]
    omega
  obtain ⟨s₁, hpush₁, h₁⟩ := agrees_init.push () data
  obtain ⟨s₂, hpush₂, h₂⟩ := h₁.push () data
  have hfull : ((Queues.run [.push () data, .push () data]).queue ()).length =
      0x80000000 := by
    show ((data ++ data).length) = _
    rw [List.length_append, hdata]
  refine ⟨s₂, ?_, ?_, fun hright => ?_⟩
  · rw [exec, State.step, if_neg hallowed, hpush₁]
    show exec State.step s₁ _ = _
    rw [exec, State.step, if_neg hallowed, hpush₂]
    rfl
  · rw [h₂.size ()]
    show int ((Queues.run [.push () data, .push () data]).queue ()).length = _
    rw [hfull]
    decide
  · have hsmall := h₂.right_iff.mp hright ()
    have hlt : ((Queues.run [.push () data, .push () data]).queue ()).length <
        0x80000000 := hsmall
    omega

/-- Two pushes of 2 ^ 30 bytes each. -/
def twoPushes : List (Op Unit) :=
  [.push () (List.replicate 0x40000000 0),
    .push () (List.replicate 0x40000000 0)]

/-- The count is negative then. -/
theorem twoPushes_overflow :
    ∃ s, exec State.step State.init twoPushes = .next s ∧
      (s.buffer ()).size = -0x80000000 ∧
      ¬s.Right (Queues.run twoPushes) :=
  twoPushes_overflow_of_length List.length_replicate

end SkynetServer.Gate.Pool
