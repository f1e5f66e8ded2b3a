import SkynetServer.MsgServer.Sessions

/-!
# Requests repeated on a later connection

A session may be used again on the same connection, so `do_request` compares
the version in the entry of the session with the version of the user.  The
entry takes its version when the handler returns.  When the user has
authenticated again in the meantime, the entry looks as if its request had been
made on the new connection, and the request that is repeated there runs the
handler a second time.

As long as no request finds an entry with the version of the user, the handler
runs once for a session, every request that is repeated waits for the response
of this run or is answered with it, and the entries that have a response are
older than the user's index.
-/

namespace SkynetServer.MsgServer

open Function Transition

variable {V : Type*}

namespace State

/-- What repeated requests rely on. -/
structure HandledOnce (s : State V) : Prop where
  /-- the handler ran at most once since the entry last expired -/
  once : ∀ k, s.runs k ≤ 1
  /-- an answer is the response in the entry -/
  answered : ∀ a ∈ s.answers, (s.entries a.entry).response = some a.response
  /-- a request without answer will get the response of its session, which is
  not ready -/
  asked : ∀ k fd, s.asked k = some fd →
    ∃ id, s.response k = some id ∧ (s.entries id).response = none ∧
      (s.entries id).fd = some fd
  /-- `p[4] < u.index` for the entries that have a response -/
  older : ∀ k id b, s.response k = some id →
    (s.entries id).response = some b →
      ∃ i, (s.entries id).index = some i ∧ i < s.index

/-- No request of the step finds an entry with the version of the user. -/
def Fresh (s : State V) : Label V → Prop
  | .request fd message _ =>
    s.client fd = some true → s.handshake fd = false →
      s.connection fd = true → ∀ k id, unpackSession message = some k →
        s.response k = some id → (s.entries id).version ≠ some s.version
  | _ => True

/-- The client sends no session twice on a connection. -/
def ClientOnce (s : State V) : Label V → Prop
  | .request fd message _ =>
    ∀ k, unpackSession message = some k → k ∉ s.sent fd
  | _ => True

instance (s : State V) : DecidablePred s.ClientOnce
  | .request fd message _ =>
    decidable_of_iff ((unpackSession message).all (· ∉ s.sent fd) = true)
      (by simp [ClientOnce, Option.all_eq_true])
  | .openClient _ | .auth _ _ _ | .complete _ _ _ | .disconnect _ =>
    .isTrue trivial

/-! ## The invariant -/

/-- The entry `busy` has its response, but this is not sent yet. -/
structure Kept (s : State V) (busy : Option ℕ) : Prop where
  stored : ∀ k id, s.response k = some id →
    id < s.next ∧ (s.entries id).session = k ∧ k ∈ s.keys
  runs_none : ∀ k, s.response k = none → s.runs k = 0
  runs_some : ∀ k id, s.response k = some id → s.runs k = 1
  handling_nodup : (s.handling.map Handling.entry).Nodup
  handled : ∀ h ∈ s.handling,
    s.response h.session = some h.entry ∧
      (s.entries h.entry).response = none
  waits : ∀ k id, s.response k = some id →
    (s.entries id).response = none → (s.entries id).fd ≠ none
  ready : ∀ k id b, s.response k = some id →
    (s.entries id).response = some b →
      (s.entries id).index ≠ none ∧
        (busy ≠ some id → (s.entries id).fd = none)
  asked : ∀ k fd, s.asked k = some fd →
    s.connection fd = true ∧ ∃ id, s.response k = some id ∧
      (s.entries id).fd = some fd
  answered : ∀ a ∈ s.answers,
    a.entry < s.next ∧ (s.entries a.entry).response = some a.response

/-- The entries of the table are older than the index. -/
def Older (s : State V) : Prop :=
  ∀ k id b i, s.response k = some id → (s.entries id).response = some b →
    (s.entries id).index = some i → i < s.index

theorem HandledOnce.of_kept
    {s : State V} (h : s.Kept none) (holder : s.Older) : s.HandledOnce where
  once k := by
    cases hk : s.response k with
    | none => simp [h.runs_none k hk]
    | some id => simp [h.runs_some k id hk]
  answered a ha := (h.answered a ha).2
  asked k fd hk := by
    obtain ⟨-, id, hid, hfd⟩ := h.asked k fd hk
    refine ⟨id, hid, ?_, hfd⟩
    cases hb : (s.entries id).response with
    | none => rfl
    | some b =>
        have hnone := (h.ready k id b hid hb).2 (by simp)
        rw [hnone] at hfd
        cases hfd
  older k id b hid hb := by
    cases hi : (s.entries id).index with
    | none => exact absurd hi (h.ready k id b hid hb).1
    | some i => exact ⟨i, rfl, holder k id b i hid hb hi⟩

section Fields

variable {s : State V} {busy : Option ℕ} {id : ℕ}

theorem Kept.inj
    (h : s.Kept busy) {k k' : Session} (hk : s.response k = some id)
    (hk' : s.response k' = some id) : k = k' := by
  rw [← (h.stored k id hk).2.1, (h.stored k' id hk').2.1]

theorem Kept.closeclient (h : s.Kept busy) (fd : Fd) :
    (s.closeclient fd).Kept busy := by
  rw [State.closeclient]
  split_ifs
  · exact { h with }
  · exact h

theorem Kept.failed (h : s.Kept busy) (fd : Fd) :
    (s.failed fd).Kept busy := by
  rw [State.failed]
  split_ifs
  · exact h.closeclient fd
  · exact h

theorem Kept.disconnect (h : s.Kept none) (fd : Fd) :
    (s.disconnect fd).Kept none := by
  refine { h with asked := fun k fd' hk => ?_ }
  simp only [State.disconnect] at hk
  split_ifs at hk with hfd
  obtain ⟨hconn, hid⟩ := h.asked k fd' hk
  have hne : fd' ≠ fd := by
    rintro rfl
    exact hfd hk
  refine ⟨?_, hid⟩
  simpa only [State.disconnect, update_of_ne hne] using hconn

theorem Older.closeclient (h : s.Older) (fd : Fd) :
    (s.closeclient fd).Older := by
  rw [State.closeclient]
  split_ifs
  · exact h
  · exact h

theorem Older.failed (h : s.Older) (fd : Fd) : (s.failed fd).Older := by
  rw [State.failed]
  split_ifs
  · exact h.closeclient fd
  · exact h

theorem Kept.of_none (h : s.Kept none) : s.Kept busy :=
  { h with
    ready := fun k id b hid hb => by
      obtain ⟨hindex, hfd⟩ := h.ready k id b hid hb
      exact ⟨hindex, fun _ => hfd (by simp)⟩ }

/-- The busy entry has no response yet, or nobody to send it to. -/
theorem Kept.idle
    (h : s.Kept (some id))
    (hid : (s.entries id).response = none ∨ (s.entries id).fd = none) :
    s.Kept none :=
  { h with
    ready := fun k id' b hid' hb => by
      obtain ⟨hindex, hfd⟩ := h.ready k id' b hid' hb
      refine ⟨hindex, fun _ => ?_⟩
      by_cases hne : id' = id
      · subst hne
        rcases hid with hnone | hnone
        · rw [hnone] at hb
          cases hb
        · exact hnone
      · exact hfd (by simp [Ne.symm hne]) }

theorem failed_frame (s : State V) (fd : Fd) :
    (s.failed fd).response = s.response ∧ (s.failed fd).asked = s.asked := by
  rw [State.failed, State.closeclient]
  split_ifs
  · exact ⟨rfl, rfl⟩
  · exact ⟨rfl, rfl⟩
  · exact ⟨rfl, rfl⟩

variable {k : Session}

/-- An entry of the table is changed.  It keeps its session, and it may get a
response when no handler is at work for it. -/
theorem Kept.setEntry
    (h : s.Kept busy) {p : Entry V}
    (hid : s.response k = some id)
    (hsession : p.session = (s.entries id).session)
    (hresponse : p.response = (s.entries id).response ∨
      (s.entries id).response = none ∧ ∀ g ∈ s.handling, g.entry ≠ id)
    (hwaits : p.response = none → p.fd ≠ none)
    (hready : p.response ≠ none → p.index ≠ none ∧
      (busy ≠ some id → p.fd = none))
    (hasked : ∀ fd, s.asked k = some fd → p.fd = some fd) :
    (s.setEntry id p).Kept busy where
  stored k' id' hk' := by
    obtain ⟨hlt, heq, hkey⟩ := h.stored k' id' hk'
    refine ⟨hlt, ?_, hkey⟩
    by_cases hne : id' = id
    · subst hne
      simp only [State.setEntry, update_self]
      rw [hsession, heq]
    · simp only [State.setEntry, update_of_ne hne]
      exact heq
  runs_none := h.runs_none
  runs_some := h.runs_some
  handling_nodup := h.handling_nodup
  handled g hg := by
    obtain ⟨hk', hnone⟩ := h.handled g hg
    refine ⟨hk', ?_⟩
    by_cases hne : g.entry = id
    · simp only [State.setEntry, hne, update_self]
      rcases hresponse with heq | ⟨-, hfree⟩
      · rw [heq, ← hne, hnone]
      · exact absurd hne (hfree g hg)
    · simp only [State.setEntry, update_of_ne hne]
      exact hnone
  waits k' id' hk' := by
    by_cases hne : id' = id
    · simp only [State.setEntry, hne, update_self]
      exact hwaits
    · simp only [State.setEntry, update_of_ne hne]
      exact h.waits k' id' hk'
  ready k' id' b hk' := by
    by_cases hne : id' = id
    · simp only [State.setEntry, hne, update_self]
      intro hb
      exact hready (by simp [hb])
    · simp only [State.setEntry, update_of_ne hne]
      exact h.ready k' id' b hk'
  asked k' fd hk' := by
    obtain ⟨hfd, id', hid', hfd'⟩ := h.asked k' fd hk'
    refine ⟨hfd, id', hid', ?_⟩
    by_cases hne : id' = id
    · have heq : k' = k := h.inj (hne ▸ hid') hid
      simp only [State.setEntry, hne, update_self]
      exact hasked fd (heq ▸ hk')
    · simp only [State.setEntry, update_of_ne hne]
      exact hfd'
  answered a ha := by
    obtain ⟨hlt, hb⟩ := h.answered a ha
    refine ⟨hlt, ?_⟩
    by_cases hne : a.entry = id
    · simp only [State.setEntry, hne, update_self]
      rcases hresponse with heq | ⟨hnone, -⟩
      · rw [heq, ← hne, hb]
      · rw [hne, hnone] at hb
        cases hb
    · simp only [State.setEntry, update_of_ne hne]
      exact hb

/-- The entry of a session is the new one, or it is older. -/
theorem Kept.entry_of_start
    (h : s.Kept none) {fd : Fd} {content : List UInt8} {k' : Session} {id' : ℕ}
    (hk' : ((s.ask fd k).start fd k content).response k' = some id') :
    (k' = k ∧ id' = s.next ∧
      ((s.ask fd k).start fd k content).entries id' =
        ⟨k, some fd, none, none, none⟩) ∨
    (s.response k' = some id' ∧ id' < s.next ∧
      ((s.ask fd k).start fd k content).entries id' = s.entries id') := by
  simp only [State.start, State.store, State.setEntry, State.ask] at hk' ⊢
  by_cases hne : k' = k
  · rw [hne, update_self] at hk'
    cases hk'
    exact .inl ⟨hne, rfl, update_self _ _ _⟩
  · rw [update_of_ne hne] at hk'
    have hlt := (h.stored k' id' hk').1
    exact .inr ⟨hk', hlt, update_of_ne (Nat.ne_of_lt hlt) _ _⟩

/-- A handler is called for a session without entry. -/
theorem Kept.start
    (h : s.Kept none) {fd : Fd} (hk : s.response k = none)
    (hfd : s.connection fd = true) (content : List UInt8) :
    ((s.ask fd k).start fd k content).Kept none where
  stored k' id' hk' := by
    rcases h.entry_of_start hk' with
      ⟨rfl, rfl, hentry⟩ | ⟨hold, hlt, hentry⟩
    · rw [hentry]
      simp [State.start, State.store, State.setEntry, State.ask]
    · obtain ⟨-, heq, hkey⟩ := h.stored k' id' hold
      rw [hentry]
      exact ⟨Nat.lt_succ_of_lt hlt, heq, List.mem_append_left _ hkey⟩
  runs_none k' hk' := by
    by_cases hne : k' = k
    · subst hne
      simp [State.start, State.store] at hk'
    · simp only [State.start, State.store, State.setEntry, State.ask,
        update_of_ne hne] at hk' ⊢
      exact h.runs_none k' hk'
  runs_some k' id' hk' := by
    by_cases hne : k' = k
    · subst hne
      simp only [State.start, State.store, State.setEntry, State.ask,
        update_self]
      rw [h.runs_none k' hk]
    · simp only [State.start, State.store, State.setEntry, State.ask,
        update_of_ne hne] at hk' ⊢
      exact h.runs_some k' id' hk'
  handling_nodup := by
    simp only [State.start, State.store, State.setEntry, State.ask,
      List.map_append, List.map_cons, List.map_nil]
    refine List.Nodup.append h.handling_nodup (List.nodup_singleton _) ?_
    intro id hid hid'
    obtain ⟨g, hg, rfl⟩ := List.mem_map.mp hid
    have hlt := (h.stored _ _ (h.handled g hg).1).1
    rw [List.mem_singleton] at hid'
    omega
  handled g hg := by
    simp only [State.start, State.store, State.setEntry, State.ask,
      List.mem_append, List.mem_singleton] at hg ⊢
    rcases hg with hg | rfl
    · obtain ⟨hresponse, hnone⟩ := h.handled g hg
      have hlt := (h.stored _ _ hresponse).1
      have hne : g.session ≠ k := by
        rintro heq
        rw [heq, hk] at hresponse
        cases hresponse
      have hid : g.entry ≠ s.next := by omega
      rw [update_of_ne hne, update_of_ne hid]
      exact ⟨hresponse, hnone⟩
    · simp
  waits k' id' hk' := by
    rcases h.entry_of_start hk' with ⟨-, -, hentry⟩ | ⟨hold, -, hentry⟩
    · rw [hentry]
      exact fun _ => Option.some_ne_none fd
    · rw [hentry]
      exact h.waits k' id' hold
  ready k' id' b hk' := by
    rcases h.entry_of_start hk' with ⟨-, -, hentry⟩ | ⟨hold, -, hentry⟩
    · rw [hentry]
      exact nofun
    · rw [hentry]
      exact h.ready k' id' b hold
  asked k' fd' hk' := by
    by_cases hne : k' = k
    · subst hne
      simp only [State.start, State.store, State.setEntry, State.ask,
        update_self, Option.some.injEq] at hk' ⊢
      subst hk'
      exact ⟨hfd, s.next, rfl, by rw [update_self]⟩
    · simp only [State.start, State.store, State.setEntry, State.ask,
        update_of_ne hne] at hk' ⊢
      obtain ⟨hfd', id', hid', heq⟩ := h.asked k' fd' hk'
      have hlt := (h.stored k' id' hid').1
      have hid : id' ≠ s.next := by omega
      exact ⟨hfd', id', hid', by rw [update_of_ne hid, heq]⟩
  answered a ha := by
    obtain ⟨hlt, hb⟩ := h.answered a ha
    have hid : a.entry ≠ s.next := by omega
    simp only [State.start, State.store, State.setEntry, State.ask,
      update_of_ne hid]
    exact ⟨by omega, hb⟩

/-- A request finds an entry with another version. -/
theorem Kept.stamp
    (h : s.Kept none) {fd : Fd}
    (hk : s.response k = some id) (hfd : s.connection fd = true)
    (version : Option V) (index : ℤ) :
    ((s.ask fd k).setEntry id
      { s.entries id with
        fd := some fd, version := version, index := some index }).Kept
      (some id) := by
  have hforget :
      ({ s with asked := update s.asked k none } : State V).Kept
        none :=
    { h with
      asked := fun k' fd' hk' => by
        by_cases hne : k' = k
        · subst hne
          simp at hk'
        · simp only [update_of_ne hne] at hk'
          exact h.asked k' fd' hk' }
  have hbusy :
      ({ s with asked := update s.asked k none } : State V).Kept
        (some id) := hforget.of_none
  have hset := hbusy.setEntry
    (p := { s.entries id with
      fd := some fd, version := version, index := some index })
    hk rfl (.inl rfl) (by simp) (by simp) (by simp)
  refine { hset with asked := fun k' fd' hk' => ?_ }
  by_cases hne : k' = k
  · subst hne
    simp only [State.setEntry, State.ask, update_self,
      Option.some.injEq] at hk' ⊢
    exact ⟨hk' ▸ hfd, id, hk, by rw [update_self, hk']⟩
  · refine hset.asked k' fd' ?_
    simp only [State.setEntry, State.ask, update_of_ne hne] at hk' ⊢
    exact hk'

theorem Kept.send
    (h : s.Kept busy) (hk : s.response k = some id)
    (fd : Fd) : (s.send fd id (s.entries id)).Kept busy := by
  rw [State.send]
  split
  · exact h
  · rename_i bytes hbytes
    refine { h with
      asked := fun k' fd' hk' => ?_
      answered := fun a ha => ?_ }
    · refine h.asked k' fd' ?_
      dsimp only at hk'
      split_ifs at hk' with hasked
      · by_cases hne : k' = (s.entries id).session
        · simp [hne] at hk'
        · rwa [update_of_ne hne] at hk'
      · exact hk'
    · rcases List.mem_append.mp ha with ha | ha
      · exact h.answered a ha
      · obtain rfl := List.mem_singleton.mp ha
        exact ⟨(h.stored k id hk).1, hbytes⟩

theorem Kept.asked_fd
    (h : s.Kept busy) (hk : s.response k = some id)
    {fd : Fd} (hfd : s.asked k = some fd) :
    s.connection fd = true ∧ (s.entries id).fd = some fd := by
  obtain ⟨hconn, id', hid', heq⟩ := h.asked k fd hfd
  rw [hk] at hid'
  cases hid'
  exact ⟨hconn, heq⟩

/-- `p[1] = nil` for an entry with a response which no request waits for. -/
theorem Kept.detach
    (h : s.Kept (some id)) {b : List UInt8}
    (hk : s.response k = some id) {p : Entry V} (hp : p = s.entries id)
    (hb : p.response = some b) (hasked : s.asked k = none) :
    (s.setEntry id { p with fd := none }).Kept none := by
  subst hp
  have hready := h.ready k id b hk hb
  have hset := h.setEntry (p := { s.entries id with fd := none })
    hk rfl (.inl rfl) (by simp [hb]) (fun _ => ⟨hready.1, by simp⟩)
    (by simp [hasked])
  exact hset.idle (.inr (by simp [State.setEntry]))

theorem Kept.deliver
    (h : s.Kept (some id)) {b : List UInt8}
    (hk : s.response k = some id) (hb : (s.entries id).response = some b) :
    (s.deliver id).Kept none := by
  have hindex : ({ s with index := s.index + 1 } : State V).Kept (some id) :=
    { h with }
  have hsession := (h.stored k id hk).2.1
  rw [State.deliver]
  cases hp : (s.entries id).fd with
  | none =>
      dsimp only
      refine hindex.detach hk rfl hb ?_
      cases hasked : s.asked k with
      | none => rfl
      | some fd =>
          have hfd := (h.asked_fd hk hasked).2
          rw [hp] at hfd
          cases hfd
  | some fd =>
      dsimp only
      split_ifs with hconn
      · refine (hindex.send hk fd).detach (k := k) ?_ ?_ hb ?_
        · simp [State.send, hb, hk]
        · simp [State.send, hb]
        · simp only [State.send, hb, hsession]
          split_ifs with hasked
          · exact update_self ..
          · cases hasked' : s.asked k with
            | none => rfl
            | some fd' =>
                have hfd := (h.asked_fd hk hasked').2
                rw [hp] at hfd
                exact absurd (hasked'.trans hfd.symm) hasked
      · refine hindex.detach hk rfl hb ?_
        cases hasked : s.asked k with
        | none => rfl
        | some fd' =>
            obtain ⟨hconn', hfd⟩ := h.asked_fd hk hasked
            rw [hp] at hfd
            cases hfd
            exact absurd hconn' hconn

/-- A session whose entry was sent expires. -/
theorem Kept.expire
    (h : s.Kept none) {b : List UInt8}
    (hk : s.response k = some id) (hb : (s.entries id).response = some b) :
    (s.expire k).Kept none where
  stored k' id' hk' := by
    by_cases hne : k' = k
    · subst hne
      simp [State.expire, State.remove] at hk'
    · simp only [State.expire, State.remove,
        update_of_ne hne] at hk' ⊢
      obtain ⟨hlt, heq, hkey⟩ := h.stored k' id' hk'
      exact ⟨hlt, heq, (List.mem_erase_of_ne hne).mpr hkey⟩
  runs_none k' hk' := by
    by_cases hne : k' = k
    · simp [State.expire, hne]
    · simp only [State.expire, State.remove,
        update_of_ne hne] at hk' ⊢
      exact h.runs_none k' hk'
  runs_some k' id' hk' := by
    by_cases hne : k' = k
    · subst hne
      simp [State.expire, State.remove] at hk'
    · simp only [State.expire, State.remove,
        update_of_ne hne] at hk' ⊢
      exact h.runs_some k' id' hk'
  handling_nodup := h.handling_nodup
  handled g hg := by
    obtain ⟨hresponse, hnone⟩ := h.handled g hg
    have hne : g.session ≠ k := by
      rintro heq
      rw [heq, hk] at hresponse
      cases hresponse
      rw [hb] at hnone
      cases hnone
    simp only [State.expire, State.remove, update_of_ne hne]
    exact ⟨hresponse, hnone⟩
  waits k' id' hk' := by
    by_cases hne : k' = k
    · subst hne
      simp [State.expire, State.remove] at hk'
    · simp only [State.expire, State.remove, update_of_ne hne] at hk'
      exact h.waits k' id' hk'
  ready k' id' b' hk' := by
    by_cases hne : k' = k
    · subst hne
      simp [State.expire, State.remove] at hk'
    · simp only [State.expire, State.remove, update_of_ne hne] at hk'
      exact h.ready k' id' b' hk'
  asked k' fd hk' := by
    obtain ⟨hconn, id', hid', hfd⟩ := h.asked k' fd hk'
    have hne : k' ≠ k := by
      rintro rfl
      rw [hk] at hid'
      cases hid'
      rw [(h.ready k' id b hk hb).2 (by simp)] at hfd
      cases hfd
    refine ⟨hconn, id', ?_, hfd⟩
    simp only [State.expire, State.remove, update_of_ne hne]
    exact hid'
  answered := h.answered

end Fields

/-! ## The index -/

/-- The entries of the sessions have no index above `max`. -/
def Below (s : State V) (max : ℤ) (ok : Session → Prop) : Prop :=
  ∀ k id b i, ok k → s.response k = some id →
    (s.entries id).response = some b → (s.entries id).index = some i →
      i ≤ max

section Index

variable {s : State V} {max : ℤ} {ok : Session → Prop} {k : Session}

/-- An entry gets an index, the other sessions keep theirs. -/
theorem Below.setEntry
    (h : s.Below max ok) {id : ℕ} {p : Entry V} {i : ℤ}
    {ok' : Session → Prop} (hid : s.response k = some id)
    (hok : ∀ k', ok' k' → k' = k ∨ ok k') (hindex : p.index = some i)
    {max' : ℤ} (hle : max ≤ max') (hi : i ≤ max') :
    (s.setEntry id p).Below max' ok' := by
  intro k' id' b i' hk' hid' hb hi'
  have hresponse : s.response k' = some id' := hid'
  by_cases hne : id' = id
  · simp only [State.setEntry, hne, update_self] at hi'
    rw [hindex] at hi'
    cases hi'
    exact hi
  · simp only [State.setEntry, update_of_ne hne] at hb hi'
    rcases hok k' hk' with rfl | hk
    · rw [hid] at hresponse
      cases hresponse
      exact absurd rfl hne
    · exact (h k' id' b i' hk hresponse hb hi').trans hle

theorem Below.expire
    (h : s.Below max ok) {ok' : Session → Prop}
    (hok : ∀ k', ok' k' → k' = k ∨ ok k') :
    (s.expire k).Below max ok' := by
  intro k' id' b i' hk' hid' hb hi'
  by_cases hne : k' = k
  · subst hne
    simp [State.expire, State.remove] at hid'
  · simp only [State.expire, State.remove,
      update_of_ne hne] at hid'
    exact h k' id' b i' ((hok k' hk').resolve_left hne) hid' hb hi'

/-- The loop does not fail, and `max` bounds the entries that it has met. -/
theorem retireLoop_ensures
    (expired : ℤ) (ks : List Session) (h : s.Kept none)
    (hbelow : s.Below max (· ∉ ks)) :
    (retireLoop expired ks s max).Ensures (fun _ => False)
      fun r => r.1.Kept none ∧ r.1.Below r.2 fun _ => True := by
  induction ks generalizing s max with
  | nil =>
      refine ⟨h, fun k id b i _ hid hb hi => ?_⟩
      exact hbelow k id b i List.not_mem_nil hid hb hi
  | cons k ks ih =>
      have hmem : ∀ k', k' ∉ ks → k' = k ∨ k' ∉ k :: ks := by
        intro k' hk'
        by_cases hne : k' = k
        · exact .inl hne
        · exact .inr (by simp [hne, hk'])
      rw [retireLoop]
      split
      · rename_i hk
        refine ih h fun k' id b i hk' hid hb hi => ?_
        rcases hmem k' hk' with rfl | hk'
        · rw [hk] at hid
          cases hid
        · exact hbelow k' id b i hk' hid hb hi
      · rename_i id hk
        dsimp only
        split_ifs with hfd
        · have hb : ∃ b, (s.entries id).response = some b := by
            cases hb : (s.entries id).response with
            | none => exact absurd hfd (h.waits k id hk hb)
            | some b => exact ⟨b, rfl⟩
          obtain ⟨b, hb⟩ := hb
          split
          · rename_i hindex
            exact absurd hindex (h.ready k id b hk hb).1
          · rename_i i hindex
            split_ifs with hlt hgt
            · exact ih (h.expire hk hb) (hbelow.expire hmem)
            · refine ih (h.setEntry hk rfl (.inl rfl) ?_ ?_ ?_)
                (hbelow.setEntry hk hmem rfl hgt.lt.le le_rfl)
              · simp [hb]
              · simp [hfd]
              · exact fun fd hasked => (h.asked_fd hk hasked).2
            · refine ih (h.setEntry hk rfl (.inl rfl) ?_ ?_ ?_)
                (hbelow.setEntry hk hmem rfl le_rfl (not_lt.mp hgt))
              · simp [hb]
              · simp [hfd]
              · exact fun fd hasked => (h.asked_fd hk hasked).2
        · refine ih h fun k' id' b i hk' hid hb hi => ?_
          rcases hmem k' hk' with rfl | hk'
          · rw [hk] at hid
            cases hid
            exact absurd ((h.ready k' id b hk hb).2 (by simp)) hfd
          · exact hbelow k' id' b i hk' hid hb hi

theorem retireResponse_ensures
    (expired : ℤ) (order : List Session) (h : s.Kept none) (holder : s.Older) :
    (s.retireResponse expired order).Ensures (fun _ => False)
      fun s => s.Kept none ∧ s.Older := by
  rw [retireResponse]
  split_ifs with hindex hperm
  · have hperm := List.isPerm_iff.mp hperm
    refine Outcome.Ensures.bind (retireLoop_ensures expired order h ?_) ?_
    · intro k id b i hk hid
      exact absurd (hperm.mem_iff.mpr (h.stored k id hid).2.2) hk
    · rintro ⟨t, max⟩ ⟨hkept, hbelow⟩
      refine ⟨{ hkept with }, fun k id b i hid hb hi => ?_⟩
      exact Int.lt_add_one_of_le (hbelow k id b i trivial hid hb hi)
  · trivial
  · exact ⟨h, holder⟩

theorem send_frame (s : State V) (fd : Fd) (id : ℕ) (p : Entry V) :
    (s.send fd id p).response = s.response ∧
      (s.send fd id p).entries = s.entries ∧
      (s.send fd id p).index = s.index := by
  rw [State.send]
  split
  · exact ⟨rfl, rfl, rfl⟩
  · exact ⟨rfl, rfl, rfl⟩

/-- The connection of the entry goes, and the index is one more. -/
theorem deliver_frame (s : State V) (id : ℕ) :
    (s.deliver id).response = s.response ∧
      (s.deliver id).entries =
        update s.entries id { s.entries id with fd := none } ∧
      (s.deliver id).index = s.index + 1 := by
  rw [State.deliver]
  cases (s.entries id).fd with
  | none => exact ⟨rfl, rfl, rfl⟩
  | some fd =>
      dsimp only
      split_ifs
      · obtain ⟨hresponse, hentries, hindex⟩ :=
          send_frame { s with index := s.index + 1 } fd id (s.entries id)
        simp only [State.setEntry]
        exact ⟨hresponse, by rw [hentries], hindex⟩
      · exact ⟨rfl, rfl, rfl⟩

theorem finish_ensures
    (expired : ℤ) (order : List Session) {id : ℕ}
    {b : List UInt8} (h : s.Kept (some id)) (hk : s.response k = some id)
    (hb : (s.entries id).response = some b)
    (hbelow : s.Below s.index fun _ => True) :
    (s.finish expired order id).Ensures (fun _ => False)
      fun s => s.Kept none ∧ s.Older := by
  refine retireResponse_ensures expired order (h.deliver hk hb) ?_
  obtain ⟨hresponse, hentries, hindex⟩ := s.deliver_frame id
  intro k' id' b' i hid' hb' hi'
  rw [hresponse] at hid'
  rw [hentries] at hb' hi'
  rw [hindex]
  refine Int.lt_add_one_of_le ?_
  by_cases hne : id' = id
  · subst hne
    rw [update_self] at hb' hi'
    exact hbelow k' id' b' i trivial hid' hb' hi'
  · rw [update_of_ne hne] at hb' hi'
    exact hbelow k' id' b' i trivial hid' hb' hi'

theorem Older.below (h : s.Older) : s.Below s.index fun _ => True :=
  fun k id b i _ hid hb hi => (h k id b i hid hb hi).le

/-- An entry with a response has the index of the user. -/
theorem Older.setEntry
    (h : s.Older) {id : ℕ} {p : Entry V}
    (hid : s.response k = some id) (hindex : p.index = some s.index) :
    (s.setEntry id p).Below s.index fun _ => True :=
  h.below.setEntry hid (fun _ _ => .inr trivial) hindex le_rfl le_rfl

end Index

/-! ## Steps -/

section Steps

variable [LinearOrder V] {s : State V}

theorem request_ensures
    (expired : ℤ) (order : List Session) (h : s.Kept none)
    (holder : s.Older) {fd : Fd} {message : List UInt8}
    (hfresh : s.connection fd = true →
      ∀ k id, unpackSession message = some k → s.response k = some id →
        (s.entries id).version ≠ some s.version) :
    (s.request expired order fd message).Ensures (fun _ => False)
      fun s => s.Kept none ∧ s.Older := by
  rw [State.request]
  split_ifs with hconn
  · split
    · exact ⟨h.failed fd, holder.failed fd⟩
    · rename_i k hsession
      dsimp only
      split
      · rename_i hk
        refine ⟨h.start hk hconn _, fun k' id b i hid hb hi => ?_⟩
        by_cases hne : k' = k
        · subst hne
          simp only [State.start, State.store, State.setEntry, State.ask,
            update_self, Option.some.injEq] at hid
          subst hid
          simp [State.start, State.store, State.setEntry, State.ask] at hb
        · simp only [State.start, State.store, State.setEntry, State.ask,
            update_of_ne hne] at hid hb hi ⊢
          have hlt := (h.stored k' id hid).1
          have hne' : id ≠ s.next := by omega
          rw [update_of_ne hne'] at hb hi
          exact holder k' id b i hid hb hi
      · rename_i id hid
        have hk : s.response k = some id := hid
        split_ifs with hversion
        · exact absurd hversion (hfresh hconn k id hsession hk)
        have hkept := h.stamp hk hconn (some s.version) s.index
        have hbelow := holder.setEntry (p := { s.entries id with
          fd := some fd, version := some s.version, index := some s.index })
          hk rfl
        split
        · rename_i hb
          refine ⟨hkept.idle (.inl ?_), fun k' id' b i hid' hb' hi' => ?_⟩
          · simp only [State.setEntry, update_self]
            exact hb
          · by_cases hne : id' = id
            · simp only [State.setEntry, hne, update_self] at hb'
              rw [hb] at hb'
              cases hb'
            · simp only [State.setEntry, update_of_ne hne] at hb' hi'
              exact holder k' id' b i hid' hb' hi'
        · rename_i b hb
          refine finish_ensures (b := b) expired order hkept hk ?_ hbelow
          simp only [State.setEntry, update_self]
          exact hb
  · exact ⟨h, holder⟩

omit [LinearOrder V] in
theorem complete_ensures
    (expired : ℤ) (order : List Session) (h : s.Kept none)
    (holder : s.Older) (i : ℕ) (result : Result) :
    (s.complete expired order i result).Ensures (fun _ => False)
      fun s => s.Kept none ∧ s.Older := by
  rw [State.complete]
  split
  · trivial
  · rename_i g hg
    obtain ⟨hi, hget⟩ := List.getElem?_eq_some_iff.mp hg
    obtain ⟨hresponse, hnone⟩ := h.handled g (List.mem_of_getElem? hg)
    have hsublist := List.eraseIdx_sublist s.handling i
    have herase :
        ({ s with handling := s.handling.eraseIdx i } : State V).Kept none :=
      { h with
        handling_nodup := h.handling_nodup.sublist (hsublist.map _)
        handled := fun g hg => h.handled g (hsublist.mem hg) }
    have hfree : ∀ g' ∈ s.handling.eraseIdx i, g'.entry ≠ g.entry := by
      intro g' hg' heq
      obtain ⟨j, hne, hj⟩ := List.mem_eraseIdx_iff_getElem?.mp hg'
      obtain ⟨hj', hgetj⟩ := List.getElem?_eq_some_iff.mp hj
      have hjm : j < (s.handling.map Handling.entry).length := by
        rwa [List.length_map]
      have him : i < (s.handling.map Handling.entry).length := by
        rwa [List.length_map]
      have hmap : (s.handling.map Handling.entry)[j] =
          (s.handling.map Handling.entry)[i] := by
        simp only [List.getElem_map, hget, hgetj, heq]
      exact hne (h.handling_nodup.getElem_inj_iff.mp hmap)
    dsimp only
    split
    · exact ⟨herase.failed g.fd, Older.failed (s := { s with
        handling := s.handling.eraseIdx i }) holder g.fd⟩
    · rename_i b hb
      have hbusy : ({ s with handling := s.handling.eraseIdx i } :
          State V).Kept (some g.entry) := herase.of_none
      have hset := hbusy.setEntry
        (p := { s.entries g.entry with
          response := some b
          version := some s.version
          index := some s.index })
        hresponse rfl (.inr ⟨hnone, hfree⟩) (by simp) (by simp) ?_
      · refine finish_ensures (b := b) expired order hset hresponse ?_ ?_
        · simp [State.setEntry]
        · exact Older.setEntry (s := { s with
            handling := s.handling.eraseIdx i }) holder hresponse rfl
      · exact fun fd hasked => (h.asked_fd hresponse hasked).2

theorem doAuth_ok
    {fd : Fd} {index : Option V} {hmac : Bool} {t : State V}
    (h : s.doAuth fd index hmac = .ok t) :
    ∃ idx : V, t = { s with
      version := idx
      connection := update s.connection fd true } := by
  cases index with
  | none => cases h
  | some idx =>
      simp only [State.doAuth] at h
      split_ifs at h
      cases h
      exact ⟨idx, rfl⟩

theorem Kept.auth
    (h : s.Kept none) (fd : Fd) (index : Option V) (hmac : Bool) :
    (s.auth fd index hmac).Kept none := by
  have hauth : ∀ t, s.doAuth fd index hmac = .ok t → t.Kept none := by
    intro t ht
    obtain ⟨idx, rfl⟩ := doAuth_ok ht
    refine { h with asked := fun k fd' hk => ?_ }
    obtain ⟨hconn, hid⟩ := h.asked k fd' hk
    refine ⟨?_, hid⟩
    by_cases hne : fd' = fd
    · simp [hne]
    · simpa only [update_of_ne hne] using hconn
  rw [State.auth]
  split
  · rename_i t ht
    exact { hauth t ht with }
  · exact { h.closeclient fd with }

theorem Older.auth
    (h : s.Older) (fd : Fd) (index : Option V) (hmac : Bool) :
    (s.auth fd index hmac).Older := by
  have hauth : ∀ t, s.doAuth fd index hmac = .ok t → t.Older := by
    intro t ht
    obtain ⟨idx, rfl⟩ := doAuth_ok ht
    exact h
  rw [State.auth]
  split
  · rename_i t ht
    exact hauth t ht
  · exact h.closeclient fd

/-- A step without a request of the excluded kind keeps the invariant, and no
step fails. -/
theorem step_ensures
    (expired : ℤ) (h : s.Kept none) (holder : s.Older) {l : Label V}
    (hfresh : s.Fresh l) :
    (s.step expired l).Ensures (fun _ => False)
      fun s => s.Kept none ∧ s.Older := by
  cases l with
  | openClient fd =>
      rw [State.step]
      split_ifs
      · exact ⟨{ h with }, holder⟩
      · trivial
  | auth fd index hmac =>
      rw [State.step]
      split_ifs
      · exact ⟨h.auth fd index hmac, holder.auth fd index hmac⟩
      · trivial
  | request fd message order =>
      rw [State.step]
      split_ifs with hopen
      · exact request_ensures expired order h holder
          (hfresh hopen.1 (by simpa using hopen.2))
      · trivial
  | complete i result order =>
      exact complete_ensures expired order h holder i result
  | disconnect fd => exact ⟨h.disconnect fd, holder⟩

/-- A request which finds an entry with the version of the user runs the
handler a second time or gets no answer. -/
theorem not_handledOnce_of_not_fresh
    (expired : ℤ) (h : s.Kept none) {l : Label V} (hfresh : ¬s.Fresh l) :
    ∃ t, s.step expired l = .next t ∧ ¬t.HandledOnce := by
  cases l with
  | request fd message order =>
      simp only [State.Fresh, not_forall, not_not] at hfresh
      obtain ⟨hclient, hhandshake, hconn, k, id, hsession, hk, hversion⟩ :=
        hfresh
      have hid : (s.ask fd k).response k = some id := hk
      rw [State.step, if_pos ⟨hclient, by simp [hhandshake]⟩, State.request,
        if_pos hconn, hsession]
      dsimp only
      rw [hid]
      dsimp only
      rw [if_pos (show ((s.ask fd k).entries id).version =
        some (s.ask fd k).version from hversion)]
      split
      · refine ⟨_, rfl, fun hgood => ?_⟩
        obtain ⟨hresponse, hasked⟩ :=
          ((s.ask fd k).remove k).failed_frame fd
        obtain ⟨id', hid', -⟩ := hgood.asked k fd (by
          rw [hasked]
          exact update_self ..)
        rw [hresponse] at hid'
        simp [State.remove] at hid'
      · refine ⟨_, rfl, fun hgood => ?_⟩
        have hruns := hgood.once k
        simp only [State.start, State.store, State.setEntry, State.remove,
          State.ask, update_self] at hruns
        rw [h.runs_some k id hk] at hruns
        omega
  | openClient fd | auth fd index hmac | complete i result order
  | disconnect fd => exact absurd trivial hfresh

/-! ## Runs -/

omit [LinearOrder V] in
theorem login_kept (first : V) : (login first).Kept none where
  stored _ _ h := by cases h
  runs_none _ _ := rfl
  runs_some _ _ h := by cases h
  handling_nodup := List.nodup_nil
  handled _ h := by cases h
  waits _ _ h := by cases h
  ready _ _ _ h := by cases h
  asked _ _ h := by cases h
  answered _ h := by cases h

/-- In a run, requests are handled once, repeated requests are answered and the
entries are older than the index, if and only if no request finds an entry with
the version of the user. -/
theorem requests_handled_once_iff
    (expired : ℤ) (first : V) (ls : List (Label V)) :
    EveryStep (State.step expired) (login first) Fresh ls ↔
      EveryState (State.step expired) (login first) HandledOnce ls := by
  refine everyStep_iff_everyState (fun s => s.Kept none ∧ s.Older)
    ⟨login_kept first, fun k id b i h => by cases h⟩
    (fun s h => .of_kept h.1 h.2) ?_ ?_ ls
  · rintro s l s' ⟨h, holder⟩ hfresh hs
    have hensures := step_ensures expired h holder hfresh
    rw [hs] at hensures
    exact hensures
  · rintro s l ⟨h, -⟩ hfresh
    exact not_handledOnce_of_not_fresh expired h hfresh

end Steps

/-- The user authenticates again while the handler is at work, and repeats its
request after it: the handler runs a second time. -/
theorem handled_twice :
    ∃ ls : List (Label ℕ),
      EveryStep (State.step 128) (login 0) ClientOnce ls ∧
        ¬EveryState (State.step 128) (login 0) HandledOnce ls := by
  let ls : List (Label ℕ) :=
    [.openClient 10, .auth 10 (some 1) true, .request 10 [0, 0, 0, 7] [],
      .disconnect 10, .openClient 11, .auth 11 (some 2) true,
      .complete 0 (.returned none) [], .request 11 [0, 0, 0, 7] []]
  have hpasses :
      (execWhile (State.step 128) (fun s l => decide (s.ClientOnce l))
        (login 0) ls).passes (fun s => s.runs 7 == 2) = true := by
    decide +kernel
  obtain ⟨s, h, hruns⟩ := Outcome.exists_of_passes hpasses
  obtain ⟨hsteps, hexec⟩ :=
    everyStep_of_execWhile (fun _ _ htest => of_decide_eq_true htest) h
  refine ⟨ls, hsteps, fun hstates => ?_⟩
  have hgood := hstates ls [] s (List.append_nil ls).symm hexec
  have honce := hgood.once 7
  rw [beq_iff_eq.mp hruns] at honce
  omega

end State

end SkynetServer.MsgServer
