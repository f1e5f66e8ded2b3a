import SkynetServer.SocketServer.Interest

/-!
# Who holds a slot

From `ATOM_CAS` of `reserve_id` until the type of the new socket is set, a slot
is held for its id: first by the thread in `reserve_id`, then by the command
that opens the socket, and last by the socket thread which executes it.  Each
slot is held for one id at most, and `s->id` is that id as soon as `reserve_id`
has stored it.

Two steps of the socket thread do not respect this.  The failure branch of
`open_socket` and `add_udp_socket` sets the type to `SOCKET_TYPE_INVALID` for a
second time, and `close_socket` may meet a slot that is reserved again before
its former id has been replaced.
-/

namespace SkynetServer.SocketServer

open Function Transition

variable {τ : Type*}

/-- Positions in `reserve_id` behind the successful `ATOM_CAS`. -/
def Reserve.won : Reserve → Bool
  | .setId _ | .setProtocol _ | .setUdp _ => true
  | _ => false

/-- The id for which a worker holds a slot. -/
def WPc.holds : WPc τ → Option Id
  | .reserve _ r => if r.won then some r.id else none
  | .request c => c.opens
  | _ => none

/-- The id for which the socket thread holds a slot. -/
def SPc.holds : SPc τ → Option Id
  | .acceptReserve _ r => if r.won then some r.id else none
  | .cmd c => c.opens
  | .newFd id _ | .setType id _ | .openFailed id false _ => some id
  | _ => none

/-- The position before `s->id = id` of `reserve_id`. -/
def WPc.storing : WPc τ → Bool
  | .reserve _ (.setId _) => true
  | _ => false

/-- The position before `s->id = id` of `reserve_id`. -/
def SPc.storing : SPc τ → Bool
  | .acceptReserve _ (.setId _) => true
  | _ => false

/-- The second store of `SOCKET_TYPE_INVALID` finds the slot as the first one
left it, and no close command finds its id in a slot that is reserved. -/
def SparesReserved : Condition τ := fun k p _ t => t = none →
  (∀ id r, p = .openFailed id true r → k.type = .invalid) ∧
    ∀ id shutdown, p = .cmd (.close id shutdown) → k.type = .reserve →
      k.id ≠ id

/-! ## Steps at a slot -/

section Steps

variable {k k' : Socket τ}

theorem SPc.holds_home (p : SPc τ) : p.home.holds = p.holds := by
  unfold SPc.home
  split
  · rename_i hslot
    cases p with
    | cmd c => cases c <;> first | rfl | cases hslot
    | newFd id n | setType id n | openFailed id again r
    | acceptReserve listener r => cases hslot
    | _ => rfl
  · rfl

theorem SPc.slot_of_holds {p : SPc τ} {id : Id} (h : p.holds = some id) :
    p.slot = some (hashId id) := by
  cases p with
  | acceptReserve listener r =>
      cases r <;> cases h <;> rfl
  | cmd c => cases c <;> cases h <;> rfl
  | newFd id n | setType id n => cases h; rfl
  | openFailed id again r =>
      cases again <;> cases h
      rfl
  | _ => cases h

theorem WPc.slot_of_holds {p : WPc τ} {id : Id} (h : p.holds = some id)
    (hslot : p.slot.isSome) : p.slot = some (hashId id) := by
  cases p with
  | reserve o r =>
      cases r <;> cases h <;> rfl
  | request c => cases hslot
  | _ => cases h

/-- A worker keeps what it holds, or takes a slot that is free. -/
theorem wstep_holds
    {p p' : WPc τ} (h : WStep k p k' p') :
    (p'.holds = p.holds ∧ k'.type = k.type) ∨
      ∃ o n id, p = .reserve o (.cas n id) ∧ p' = .reserve o (.setId id) ∧
        k.type = .invalid ∧ k'.type = .reserve := by
  cases h
  case reserve o r out h =>
    cases h
    case cas n id htype => exact .inr ⟨o, n, id, rfl, rfl, htype, rfl⟩
    case setUdp id => cases o <;> exact .inl ⟨rfl, rfl⟩
    all_goals exact .inl ⟨rfl, rfl⟩
  case accept c h =>
    rcases afterEntry_cases c with hc | hc <;> rw [hc] <;> exact .inl ⟨rfl, rfl⟩
  case pass locked c t h =>
    rcases afterTest_cases locked c t with ⟨t', -, ht⟩ | ⟨-, ht⟩
    · rw [ht]
      exact .inl ⟨rfl, rfl⟩
    · rw [ht]
      cases locked <;> exact .inl ⟨rfl, rfl⟩
  case write c n _ _ _ | sendto c n _ =>
    rcases afterWrite_cases c n with hc | hc <;> rw [hc] <;>
      exact .inl ⟨rfl, rfl⟩
  case fail c t | busy c | retry c =>
    unfold queue
    split <;> exact .inl ⟨rfl, rfl⟩
  all_goals exact .inl ⟨rfl, rfl⟩

/-- What a step of the socket thread does to the slot it holds. -/
inductive HoldStep (k k' : Socket τ) (p p' : SPc τ) : Prop
  | keeps (h : p'.holds = p.holds)
      (htype : k'.type = .reserve ↔ k.type = .reserve)
  | takes (listener : Id) (n : ℕ) (id : Id)
      (hp : p = .acceptReserve listener (.cas n id))
      (hp' : p' = .acceptReserve listener (.setId id))
      (htype : k.type = .invalid) (htype' : k'.type = .reserve)
  | leaves (id : Id) (h : p.holds = some id) (h' : p'.holds = none)
      (htype' : k'.type ≠ .reserve)

theorem sstep_holds
    {p p' : SPc τ} {ws : τ → WPc τ} (hexp : p.expects k.type = true)
    (hclose : p.inClose = true → k.type ≠ .reserve)
    (hok : SparesReserved k p ws none) (h : SStep k p k' p') :
    HoldStep k k' p p' := by
  have hends {q : SPc τ} (hq : q.Ends) : q.holds = none :=
    q.holds_home.symm.trans (hq.role SPc.holds rfl)
  have hsend (c : Call τ) (r : Option Report) :
      (afterSend c r).holds = none :=
    (SPc.holds_home _).symm.trans (afterSend_role SPc.holds c r rfl rfl)
  have hbuffer (f : Caller) (r : Option Report) :
      (afterBuffer (τ := τ) f r).holds = none :=
    (SPc.holds_home _).symm.trans
      (afterBuffer_role SPc.holds f r rfl (fun _ => rfl) fun _ => rfl)
  have hlist (k : Socket τ) (f : Caller) (low : Bool) :
      (afterList k f low).holds = none :=
    (SPc.holds_home _).symm.trans
      (afterList_role SPc.holds k f low rfl rfl rfl rfl)
  have hsame {q q' : SPc τ} {k₁ : Socket τ} (hq : q'.holds = q.holds)
      (ht : k₁.type = k.type) : HoldStep k k₁ q q' := by
    refine .keeps hq ?_
    rw [ht]
  cases h
  case cmdNew c id n hc => exact hsame hc.symm rfl
  case cmdEnd c hopens hcall hq =>
    exact hsame ((hends hq).trans hopens.symm) rfl
  case drop c r | sendEnable c r => exact hsame (hsend c r) rfl
  case queueFirst => exact hsame rfl (append_warn_type k _ _)
  case queue c _ r _ _ _ _ => exact hsame (hsend c r) (append_warn_type k _ _)
  case newFdBind id n r _ | newFdFails id n r _ =>
    exact .leaves id rfl rfl (by simp)
  case setType id n =>
    refine .leaves id rfl ((SPc.holds_home _).symm.trans
      (afterType_role SPc.holds id n rfl rfl rfl)) ?_
    cases n with
    | «open» connected => cases connected <;> simp [newType]
    | _ => simp [newType]
  case openFailed id again r hq =>
    cases again with
    | false => exact .leaves id rfl (hends hq) (by simp)
    | true =>
        have htype := (hok rfl).1 id r rfl
        exact hsame (hends hq) htype.symm
  case startType id =>
    refine .keeps rfl ?_
    have htype : k.type ≠ .reserve := by
      intro h
      rw [h] at hexp
      cases hexp
    refine ⟨fun h => ?_, fun h => absurd h htype⟩
    dsimp only at h
    split at h <;> cases h
  case decOther c r _ | dec c r _ _ | decUdp c r _ =>
    exact hsame (hends (ends_finish r)) rfl
  case halfclose id =>
    exact .keeps rfl ⟨nofun, fun h => absurd h (hclose rfl)⟩
  case busy f => exact hsame (hbuffer f none) rfl
  case takeDw f =>
    refine hsame rfl ?_
    unfold Socket.takeDw
    split <;> rfl
  case listEnd f low => exact hsame (hlist k f low) rfl
  case sendAll f low b rest _ _ => cases low <;> exact hsame rfl rfl
  case sendPart f low b rest n _ _ _ =>
    exact hsame (hlist _ f low) (setList_type k low _ n)
  case udpSend f low b rest _ _ => exact hsame rfl (setList_type k low _ _)
  case udpDrop f low b rest _ _ =>
    exact hsame (hlist _ f low) (setList_type k low _ _)
  case unlock f r => exact hsame (hbuffer f r) rfl
  case freeInvalid f _ | closeUnlock f =>
    exact hsame (hends (ends_afterClose f)) rfl
  case del i held f =>
    refine hsame rfl ?_
    unfold stepDel
    split <;> rfl
  case invalidate i f | connect i id =>
    refine .keeps rfl ⟨nofun, fun h => ?_⟩
    rw [h] at hexp
    cases hexp
  case acceptEnd id hq => exact hsame (hends hq) rfl
  case reserve listener r out h =>
    cases h
    case cas n id htype => exact .takes listener n id rfl rfl htype rfl
    all_goals exact hsame rfl rfl
  all_goals exact hsame rfl rfl

/-- `s->id` changes in `reserve_id` and `new_fd` only. -/
theorem wstep_id
    {p p' : WPc τ} (h : WStep k p k' p') :
    k'.id = k.id ∨ ∃ o id, p = .reserve o (.setId id) ∧ k'.id = id := by
  cases h
  case reserve o r out h =>
    cases h
    case setId id => exact .inr ⟨o, id, rfl, rfl⟩
    all_goals exact .inl rfl
  all_goals exact .inl rfl

theorem sstep_id
    {p p' : SPc τ} (h : SStep k p k' p') :
    k'.id = k.id ∨
      (∃ listener id, p = .acceptReserve listener (.setId id) ∧ k'.id = id) ∨
      ∃ id n, p = .newFd id n ∧ k'.id = id := by
  cases h
  case queueFirst | queue =>
    apply Or.inl
    unfold Socket.warn Socket.append
    split <;> split <;> rfl
  case newFd id n _ _ => exact .inr (.inr ⟨id, n, rfl, rfl⟩)
  case takeDw f =>
    apply Or.inl
    unfold Socket.takeDw
    split <;> rfl
  case sendAll f low b rest _ _ | sendPart f low b rest n _ _ _
      | udpSend f low b rest _ _ | udpDrop f low b rest _ _ =>
    cases low <;> exact .inl rfl
  case del i held f =>
    apply Or.inl
    unfold stepDel
    split <;> rfl
  case reserve listener r out h =>
    cases h
    case setId id => exact .inr (.inl ⟨listener, id, rfl, rfl⟩)
    all_goals exact .inl rfl
  all_goals exact .inl rfl

end Steps

/-- A thread that holds a slot stores its id there. -/
theorem wstep_stored
    {k k' : Socket τ} {p p' : WPc τ} {id : Id} (h : WStep k p k' p')
    (hp : p.holds = some id) :
    k'.id = id ∨ k'.id = k.id ∧ p.storing = false := by
  cases h
  case reserve o r out h =>
    cases h
    case setId => exact .inl (Option.some.inj hp)
    case setProtocol | setUdp => exact .inr ⟨rfl, rfl⟩
    all_goals cases hp
  all_goals cases hp

theorem sstep_stored
    {k k' : Socket τ} {p p' : SPc τ} {id : Id} (h : SStep k p k' p')
    (hp : p.holds = some id) :
    k'.id = id ∨ k'.id = k.id ∧ p.storing = false := by
  rcases sstep_id h with hid | ⟨listener, id', rfl, hid⟩ | ⟨id', n, rfl, hid⟩
  · by_cases hstoring : p.storing = true
    · cases h
      case reserve listener r out h =>
        cases h
        case setId => exact .inl (Option.some.inj hp)
        all_goals cases hstoring
      all_goals cases hstoring
    · exact .inr ⟨hid, Bool.eq_false_iff.mpr hstoring⟩
  · exact .inl (hid.trans (Option.some.inj hp))
  · exact .inl (hid.trans (Option.some.inj hp))

/-! ## `close_socket` -/

/-- The socket that `close_socket` works on is open. -/
def Unclosed (k : Socket τ) (p : SPc τ) (_ : τ → WPc τ) : Prop :=
  p.inClose = true → k.type ≠ .invalid ∧ k.type ≠ .reserve

/-- `close_socket` begins with its command. -/
theorem sstep_inClose_start
    {k k' : Socket τ} {p p' : SPc τ} (h : SStep k p k' p')
    (hp : p'.home.inClose = true) :
    p.inClose = true ∨ ∃ id shutdown, p = .cmd (.close id shutdown) ∧
      k.type ≠ .invalid ∧ k.id = id ∧ k' = k := by
  have hends {q : SPc τ} (hq : q.Ends) : q.home.inClose = false :=
    hq.role SPc.inClose rfl
  have hsend (c : Call τ) (r : Option Report) :
      (afterSend c r).home.inClose = false :=
    afterSend_role SPc.inClose c r rfl rfl
  have hbuffer (f : Caller) (r : Option Report)
      (h : (afterBuffer (τ := τ) f r).home.inClose = true) :
      f.closes = true := by
    rcases afterBuffer_cases (τ := τ) f r with ⟨_, _, -, heq⟩ | ⟨_, _, rfl, -⟩
    · rw [heq, hends (ends_finish r)] at h
      cases h
    · rfl
  have hlist (k : Socket τ) (f : Caller) (low : Bool) :
      (afterList k f low).home.inClose = f.closes :=
    afterList_role SPc.inClose k f low rfl rfl rfl rfl
  cases h
  case cmdClose id shutdown htype hid =>
    exact .inr ⟨id, shutdown, rfl, htype, hid, rfl⟩
  case cmdEnd hq | openFailed hq =>
    rw [hends hq] at hp
    cases hp
  case drop c r | queue c _ r _ _ _ _ | sendEnable c r =>
    rw [hsend] at hp
    cases hp
  case setType id n =>
    rw [afterType_role SPc.inClose id n rfl rfl rfl] at hp
    cases hp
  case decOther c r _ | dec c r _ _ | decUdp c r _ =>
    rw [hends (ends_finish r)] at hp
    cases hp
  case busy f => exact .inl (hbuffer f none hp)
  case listEnd f low | sendPart f low b rest n _ _ _
      | udpDrop f low b rest _ _ =>
    rw [hlist] at hp
    exact .inl hp
  case unlock f r => exact .inl (hbuffer f r hp)
  case freeInvalid f _ | closeUnlock f =>
    rw [hends (ends_afterClose f)] at hp
    cases hp
  case acceptEnd hq =>
    rw [hends hq] at hp
    cases hp
  case reserve out _ => rcases out with r | n | id <;> cases hp
  all_goals first | exact .inl hp | exact .inl rfl | cases hp

section Stability

variable [DecidableEq τ]

theorem stable_unclosed :
    StableUnder (Known (τ := τ))
      (fun k p ws t => SparesOpen k p ws t ∧ SparesReserved k p ws t)
      (Unclosed (τ := τ)) where
  worker := by
    intro k k' p ws w q _ h _ hs hp
    obtain ⟨hinv, hres⟩ := h hp
    rcases wstep_type hs with ht | ⟨ht, -⟩
    · rw [ht]
      exact ⟨hinv, hres⟩
    · exact absurd ht hinv
  server := by
    intro k k' p q ws _ h hok hs hp
    rcases sstep_inClose_start hs hp with hin |
      ⟨id, shutdown, rfl, hinv, hid, rfl⟩
    · obtain ⟨hinv, hres⟩ := h hin
      cases sstep_type hs with
      | same ht =>
          rw [ht]
          exact ⟨hinv, hres⟩
      | halfclose id _ hk =>
          rw [hk]
          exact ⟨nofun, nofun⟩
      | setType _ _ hpos | newFdFails _ _ hpos | openFailed _ _ _ hpos
      | startType _ hpos | invalidate _ _ hpos | connect _ _ hpos
      | cas _ _ _ hpos =>
          rw [hpos] at hin
          cases hin
    · refine ⟨hinv, fun hres => ?_⟩
      exact (hok.2 rfl).2 id shutdown rfl hres hid
  workerEnters := fun h _ _ => h
  serverEnters := by
    intro k p ws _ hp hin
    cases hp <;> cases hin

end Stability

/-! ## One holder for each slot -/

/-- The slots are held by the workers and by the ids of a list, each of them
once. -/
structure HeldOnce (reserved : ℕ → Prop) (held : τ → Option Id)
    (waiting : List Id) : Prop where
  byWorker : ∀ w id, held w = some id → reserved (hashId id)
  inList : ∀ id ∈ waiting, reserved (hashId id)
  distinct : ∀ v w a b, held v = some a → held w = some b →
    hashId a = hashId b → v = w
  apart : ∀ w a, held w = some a → ∀ b ∈ waiting, hashId a ≠ hashId b
  nodup : (waiting.map hashId).Nodup

namespace HeldOnce

variable [DecidableEq τ] {reserved reserved' : ℕ → Prop} {held : τ → Option Id}
  {waiting : List Id} {n : Id} {w : τ}

omit [DecidableEq τ] in
theorem congr
    (h : HeldOnce reserved held waiting) {held' : τ → Option Id}
    (hheld : ∀ v, held' v = held v) (hr : ∀ i, reserved' i ↔ reserved i) :
    HeldOnce reserved' held' waiting := by
  have heq : held' = held := funext hheld
  have hreserved : reserved' = reserved := funext fun i => propext (hr i)
  rw [heq, hreserved]
  exact h

/-- A worker takes a slot that is free. -/
theorem take
    (h : HeldOnce reserved held waiting) (hfree : ¬reserved (hashId n))
    (hsub : ∀ i, reserved i → reserved' i) (hnew : reserved' (hashId n)) :
    HeldOnce reserved' (update held w (some n)) waiting where
  byWorker := by
    intro v a hv
    by_cases hvw : v = w
    · rw [hvw, update_self] at hv
      cases hv
      exact hnew
    · rw [update_of_ne hvw] at hv
      exact hsub _ (h.byWorker v a hv)
  inList := fun a ha => hsub _ (h.inList a ha)
  distinct := by
    have hother (v : τ) (hvw : v ≠ w) (a : Id) (hv : held v = some a) :
        hashId a ≠ hashId n := by
      intro heq
      exact hfree (heq ▸ h.byWorker v a hv)
    intro u v a b hu hv heq
    by_cases huw : u = w
    · by_cases hvw : v = w
      · rw [huw, hvw]
      · rw [huw, update_self] at hu
        cases hu
        rw [update_of_ne hvw] at hv
        exact absurd heq.symm (hother v hvw b hv)
    · rw [update_of_ne huw] at hu
      by_cases hvw : v = w
      · rw [hvw, update_self] at hv
        cases hv
        exact absurd heq (hother u huw a hu)
      · rw [update_of_ne hvw] at hv
        exact h.distinct u v a b hu hv heq
  apart := by
    intro v a hv b hb
    by_cases hvw : v = w
    · rw [hvw, update_self] at hv
      cases hv
      intro heq
      exact hfree (heq ▸ h.inList b hb)
    · rw [update_of_ne hvw] at hv
      exact h.apart v a hv b hb
  nodup := h.nodup

/-- A worker hands what it holds to the list. -/
theorem push
    (h : HeldOnce reserved held waiting) :
    HeldOnce reserved (update held w none)
      (waiting ++ (held w).toList) where
  byWorker := by
    intro v a hv
    by_cases hvw : v = w
    · rw [hvw, update_self] at hv
      cases hv
    · rw [update_of_ne hvw] at hv
      exact h.byWorker v a hv
  inList := by
    intro a ha
    rcases List.mem_append.mp ha with ha | ha
    · exact h.inList a ha
    · exact h.byWorker w a (Option.mem_toList.mp ha)
  distinct := by
    intro u v a b hu hv heq
    by_cases huw : u = w
    · rw [huw, update_self] at hu
      cases hu
    · by_cases hvw : v = w
      · rw [hvw, update_self] at hv
        cases hv
      · rw [update_of_ne huw] at hu
        rw [update_of_ne hvw] at hv
        exact h.distinct u v a b hu hv heq
  apart := by
    intro v a hv b hb heq
    by_cases hvw : v = w
    · rw [hvw, update_self] at hv
      cases hv
    · rw [update_of_ne hvw] at hv
      rcases List.mem_append.mp hb with hb | hb
      · exact h.apart v a hv b hb heq
      · exact hvw (h.distinct v w a b hv (Option.mem_toList.mp hb) heq)
  nodup := by
    rw [List.map_append, List.nodup_append]
    refine ⟨h.nodup, ?_, ?_⟩
    · cases held w with
      | none => exact List.nodup_nil
      | some a => exact List.pairwise_singleton _ _
    · intro i hi j hj heq
      obtain ⟨a, ha, rfl⟩ := List.mem_map.mp hi
      obtain ⟨b, hb, rfl⟩ := List.mem_map.mp hj
      exact h.apart w b (Option.mem_toList.mp hb) a ha heq.symm

omit [DecidableEq τ] in
/-- An id that takes a free slot comes to the front of the list. -/
theorem cons
    (h : HeldOnce reserved held waiting) (hfree : ¬reserved (hashId n))
    (hsub : ∀ i, reserved i → reserved' i) (hnew : reserved' (hashId n)) :
    HeldOnce reserved' held (n :: waiting) where
  byWorker := fun v a hv => hsub _ (h.byWorker v a hv)
  inList := by
    intro a ha
    rcases List.mem_cons.mp ha with rfl | ha
    · exact hnew
    · exact hsub _ (h.inList a ha)
  distinct := h.distinct
  apart := by
    intro v a hv b hb heq
    rcases List.mem_cons.mp hb with rfl | hb
    · exact hfree (heq ▸ h.byWorker v a hv)
    · exact h.apart v a hv b hb heq
  nodup := by
    rw [List.map_cons, List.nodup_cons]
    refine ⟨fun hmem => ?_, h.nodup⟩
    obtain ⟨a, ha, heq⟩ := List.mem_map.mp hmem
    exact hfree (heq ▸ h.inList a ha)

omit [DecidableEq τ] in
/-- The slot of the first id of the list is given up. -/
theorem tail
    (h : HeldOnce reserved held (n :: waiting))
    (hother : ∀ i, i ≠ hashId n → reserved i → reserved' i) :
    HeldOnce reserved' held waiting where
  byWorker := fun v a hv => hother _
    (h.apart v a hv n List.mem_cons_self) (h.byWorker v a hv)
  inList := by
    intro a ha
    have hnot : hashId a ≠ hashId n := by
      intro heq
      have hnodup := h.nodup
      rw [List.map_cons, List.nodup_cons] at hnodup
      exact hnodup.1 (heq ▸ List.mem_map_of_mem ha)
    exact hother _ hnot (h.inList a (List.mem_cons_of_mem n ha))
  distinct := h.distinct
  apart := fun v a hv b hb => h.apart v a hv b (List.mem_cons_of_mem n hb)
  nodup := by
    have hnodup := h.nodup
    rw [List.map_cons, List.nodup_cons] at hnodup
    exact hnodup.2

end HeldOnce

namespace State

/-- The ids whose slots are held by the socket thread or by a command. -/
def waiting (s : State τ) : List Id :=
  s.server.holds.toList ++ s.pipe.filterMap Command.opens

/-- Every slot that is held is reserved and held once. -/
def Held (s : State τ) : Prop :=
  HeldOnce (fun i => (s.slot i).type = .reserve)
    (fun w => (s.worker w).holds) s.waiting

section Held

variable [DecidableEq τ] {s s' : State τ}

theorem holds_goto (s : State τ) (w : τ) (p : WPc τ) :
    (fun v => ((s.goto w p).worker v).holds) =
      update (fun v => (s.worker v).holds) w p.holds := by
  funext v
  by_cases hvw : v = w
  · rw [hvw, update_self]
    exact congrArg WPc.holds (update_self ..)
  · rw [update_of_ne hvw]
    exact congrArg WPc.holds (update_of_ne hvw ..)

omit [DecidableEq τ] in
theorem enter_holds (w : τ) (api : Api) : (enter w api).holds = none := by
  cases api <;> rfl

omit [DecidableEq τ] in
theorem slot_setSlot_self (s : State τ) (i : ℕ) (k : Socket τ) :
    (s.setSlot i k).slot i = k := update_self ..

omit [DecidableEq τ] in
theorem slot_setSlot_of_ne
    (s : State τ) (k : Socket τ) {i j : ℕ} (hij : j ≠ i) :
    (s.setSlot i k).slot j = s.slot j := update_of_ne hij ..

variable {k : Socket τ}

omit [DecidableEq τ] in
theorem reserved_setSlot
    {i : ℕ}
    (h : k.type = .reserve ↔ (s.slot i).type = .reserve) (j : ℕ) :
    ((s.setSlot i k).slot j).type = .reserve ↔ (s.slot j).type = .reserve := by
  by_cases hij : j = i
  · rw [hij, slot_setSlot_self]
    exact h
  · rw [slot_setSlot_of_ne s k hij]

omit [DecidableEq τ] in
theorem reserved_of_setSlot
    {i : ℕ} (h : k.type = .reserve) (j : ℕ)
    (hj : (s.slot j).type = .reserve) :
    ((s.setSlot i k).slot j).type = .reserve := by
  by_cases hij : j = i
  · rw [hij, slot_setSlot_self]
    exact h
  · rwa [slot_setSlot_of_ne s k hij]

/-- A worker moves on with what it holds. -/
theorem Held.goto
    (h : s.Held) {w : τ} {p : WPc τ} (hp : p.holds = (s.worker w).holds) :
    (s.goto w p).Held := by
  unfold Held
  rw [holds_goto, hp, update_eq_self]
  exact h

omit [DecidableEq τ] in
/-- The socket thread moves on with what it holds. -/
theorem Held.serve
    (h : s.Held) {p : SPc τ} (hp : p.holds = s.server.holds) :
    (s.serve p).Held := by
  unfold Held waiting State.serve
  dsimp only
  rw [hp]
  exact h

theorem Held.worker_step
    (h : s.Held) {w : τ} {i : ℕ} {p : WPc τ}
    (hi : (s.worker w).slot = some i) (hs : WStep (s.slot i) (s.worker w) k p) :
    ((s.setSlot i k).goto w p).Held := by
  rcases wstep_holds hs with ⟨hp, ht⟩ | ⟨o, n, id, hp, rfl, hinv, hres⟩
  · refine Held.goto (s := s.setSlot i k) ?_ hp
    exact h.congr (fun _ => rfl) (reserved_setSlot (by rw [ht]))
  · have hid : hashId id = i := by
      rw [hp] at hi
      exact Option.some.inj hi
    unfold Held
    rw [holds_goto]
    refine h.take ?_ (reserved_of_setSlot hres) ?_
    · intro hold
      change (s.slot (hashId id)).type = .reserve at hold
      rw [hid, hinv] at hold
      cases hold
    · change ((s.setSlot i k).slot (hashId id)).type = .reserve
      rw [hid, slot_setSlot_self]
      exact hres

omit [DecidableEq τ] in
theorem Held.server_step
    (h : s.Held) {i : ℕ} {p : SPc τ} {ws : τ → WPc τ}
    (hi : s.server.slot = some i)
    (hexp : s.server.expects (s.slot i).type = true)
    (hclose : s.server.inClose = true → (s.slot i).type ≠ .reserve)
    (hok : SparesReserved (s.slot i) s.server ws none)
    (hs : SStep (s.slot i) s.server k p) :
    ((s.setSlot i k).serve p).Held := by
  have hslot := slot_setSlot_self s i k
  cases sstep_holds hexp hclose hok hs with
  | keeps hp htype =>
      refine Held.serve (s := s.setSlot i k) ?_ hp
      exact h.congr (fun _ => rfl) (reserved_setSlot htype)
  | takes listener n id hp hp' hinv hres =>
      have hid : hashId id = i := by
        rw [hp] at hi
        exact Option.some.inj hi
      have hnone : s.server.holds = none := by
        rw [hp]
        rfl
      unfold Held waiting at h
      rw [hnone] at h
      rw [hp']
      refine h.cons (n := id) ?_ (reserved_of_setSlot hres) ?_
      · change (s.slot (hashId id)).type ≠ .reserve
        rw [hid, hinv]
        exact nofun
      · change ((s.setSlot i k).slot (hashId id)).type = .reserve
        rw [hid, hslot]
        exact hres
  | leaves id hp hp' htype =>
      have hid : hashId id = i :=
        Option.some.inj ((SPc.slot_of_holds hp).symm.trans hi)
      unfold Held waiting at h
      rw [hp] at h
      have heq : ((s.setSlot i k).serve p).waiting =
          s.pipe.filterMap Command.opens := by
        change p.holds.toList ++ _ = _
        rw [hp']
        rfl
      unfold Held
      rw [heq]
      refine HeldOnce.tail (n := id) h fun j hj hres => ?_
      change ((s.setSlot i k).slot j).type = .reserve
      rw [slot_setSlot_of_ne s k (hid ▸ hj)]
      exact hres

theorem Held.step
    (hknown : ∀ i, s.At Known i) (hunclosed : ∀ i, s.At Unclosed i)
    (h : s.Held) {l : Option τ × Act} (hok : s.Meets SparesReserved l)
    (hmove : Move s l s') : s'.Held := by
  cases hmove with
  | worker w a i hi hs => exact h.worker_step hi hs
  | enter w api hpc =>
      refine h.goto ?_
      rw [hpc]
      exact enter_holds w api
  | push w a c hpc =>
      have hheld : (s.worker w).holds = c.opens := by
        rw [hpc]
        rfl
      have hpush := HeldOnce.push (w := w) h
      rw [hheld] at hpush
      unfold Held
      rw [holds_goto]
      have heq : s.waiting ++ c.opens.toList =
          (State.goto { s with pipe := s.pipe ++ [c] } w .idle).waiting := by
        unfold waiting
        dsimp only [State.goto]
        rw [List.filterMap_append, List.append_assoc]
        cases c <;> rfl
      rw [← heq]
      exact hpush
  | alloc w a o n hpc =>
      refine Held.goto
        (s := { s with allocId := (allocStep s.allocId n).1 }) h ?_
      dsimp only
      rw [hpc]
      rcases allocStep_cases s.allocId n with h | ⟨_, h⟩ | ⟨_, _, h⟩ <;>
        rw [h] <;> rfl
  | server a i hi hs =>
      have hat : s.serverAt i = s.server := SPc.seen_of_slot hi
      have hi' := hknown i
      have hclose := hunclosed i
      have hok' := hok i hi
      unfold At at hi' hclose
      rw [hat] at hi' hclose hok'
      exact h.server_step hi hi'.2.expected (fun hin => (hclose hin).2) hok' hs
  | take a c rest hpc hpipe =>
      unfold Held waiting at h ⊢
      rw [hpc, hpipe] at h
      have heq : (SPc.poll : SPc τ).holds.toList ++
          (c :: rest).filterMap Command.opens =
            (SPc.cmd c).holds.toList ++ rest.filterMap Command.opens := by
        cases c <;> rfl
      rw [heq] at h
      exact h
  | events a check hpc =>
      refine Held.serve (s := { s with checkctrl := check }) h ?_
      dsimp only
      rw [hpc]
      rfl
  | ret a r hpc | dispatchNull a e hpc _ =>
      refine h.serve ?_
      rw [hpc]
      rfl
  | next a e rest hpc _ =>
      refine Held.serve (s := { s with ev := rest }) h ?_
      dsimp only
      rw [hpc]
      rfl
  | wait events hpc _ _ hp =>
      refine Held.serve
        (s := { s with ev := events.map s.stamp, checkctrl := true }) h ?_
      dsimp only
      rw [hpc]
      rcases hp with rfl | rfl <;> rfl
  | exit a c hpc hslot =>
      refine h.serve ?_
      rw [hpc]
      cases c <;> first | rfl | cases hslot
  | clear a r hpc =>
      refine Held.serve
        (s := { s with ev := s.clearClosedEvent r.id s.ev }) h ?_
      dsimp only
      rw [hpc]
      rfl
  | acceptAlloc a listener n hpc =>
      refine Held.serve
        (s := { s with allocId := (allocStep s.allocId n).1 }) h ?_
      dsimp only
      rw [hpc]
      rcases allocStep_cases s.allocId n with h | ⟨_, h⟩ | ⟨_, _, h⟩ <;>
        rw [h] <;> rfl
  | kept a e r hpc =>
      refine Held.serve (s := { s with ev := e.toList ++ s.ev }) h ?_
      rw [show s.server.holds = none by rw [hpc]; rfl]
      cases r <;> rfl

end Held

/-! ## The ids of slots that are held -/

/-- The id of a slot that is held is the one it is held for, as soon as it has
been stored. -/
structure Named (s : State τ) : Prop where
  byWorker : ∀ w id, (s.worker w).holds = some id →
    (s.worker w).storing = false → (s.slot (hashId id)).id = id
  byServer : ∀ id, s.server.holds = some id → s.server.storing = false →
    (s.slot (hashId id)).id = id
  inPipe : ∀ id ∈ s.pipe.filterMap Command.opens,
    (s.slot (hashId id)).id = id

section Named

variable [DecidableEq τ] {s s' : State τ} {k : Socket τ}

omit [DecidableEq τ] in
/-- The id of a slot changes by a step of the thread that holds it. -/
theorem id_setSlot_worker
    {w : τ} {i : ℕ} {p : WPc τ}
    (hi : (s.worker w).slot = some i) (hs : WStep (s.slot i) (s.worker w) k p)
    (j : ℕ) :
    ((s.setSlot i k).slot j).id = (s.slot j).id ∨
      ∃ id, (s.worker w).holds = some id ∧ hashId id = j := by
  by_cases hij : j = i
  · subst hij
    rw [slot_setSlot_self]
    rcases wstep_id hs with hid | ⟨o, id, hp, -⟩
    · exact .inl hid
    · refine .inr ⟨id, ?_, ?_⟩
      · rw [hp]
        rfl
      · rw [hp] at hi
        exact Option.some.inj hi
  · rw [slot_setSlot_of_ne s k hij]
    exact .inl rfl

omit [DecidableEq τ] in
theorem id_setSlot_server
    {i : ℕ} {p : SPc τ}
    (hi : s.server.slot = some i) (hs : SStep (s.slot i) s.server k p) (j : ℕ) :
    ((s.setSlot i k).slot j).id = (s.slot j).id ∨
      ∃ id, s.server.holds = some id ∧ hashId id = j := by
  by_cases hij : j = i
  · subst hij
    rw [slot_setSlot_self]
    have hholds (id : Id) (h : s.server.holds = some id) : hashId id = j :=
      Option.some.inj ((SPc.slot_of_holds h).symm.trans hi)
    rcases sstep_id hs with hid | ⟨listener, id, hp, -⟩ | ⟨id, n, hp, -⟩
    · exact .inl hid
    · have h : s.server.holds = some id := by
        rw [hp]
        rfl
      exact .inr ⟨id, h, hholds id h⟩
    · have h : s.server.holds = some id := by
        rw [hp]
        rfl
      exact .inr ⟨id, h, hholds id h⟩
  · rw [slot_setSlot_of_ne s k hij]
    exact .inl rfl

theorem Named.worker_step
    (hheld : s.Held) (h : s.Named) {w : τ} {i : ℕ} {p : WPc τ}
    (hi : (s.worker w).slot = some i) (hs : WStep (s.slot i) (s.worker w) k p) :
    ((s.setSlot i k).goto w p).Named where
  byWorker := by
    intro v id hv hstoring
    by_cases hvw : v = w
    · subst hvw
      have hself : ((s.setSlot i k).goto v p).worker v = p :=
        update_self ..
      rw [hself] at hv hstoring
      rcases wstep_holds hs with ⟨hp, -⟩ | ⟨o, n, id', hp, rfl, -, -⟩
      · rw [hp] at hv
        have hslot := WPc.slot_of_holds hv (by rw [hi]; rfl)
        have hid : hashId id = i := Option.some.inj (hslot.symm.trans hi)
        change ((s.setSlot i k).slot (hashId id)).id = id
        rw [hid, slot_setSlot_self]
        rcases wstep_stored hs hv with hk | ⟨hk, hold⟩
        · exact hk
        · rw [hk, ← hid]
          exact h.byWorker v id hv hold
      · cases hstoring
    · have hother : ((s.setSlot i k).goto w p).worker v = s.worker v :=
        update_of_ne hvw ..
      rw [hother] at hv hstoring
      rcases id_setSlot_worker hi hs (hashId id) with heq | ⟨id', hw, hid⟩
      · exact heq.trans (h.byWorker v id hv hstoring)
      · exact absurd (hheld.distinct v w id id' hv hw hid.symm) hvw
  byServer := by
    intro id hserver hstoring
    rcases id_setSlot_worker hi hs (hashId id) with heq | ⟨id', hw, hid⟩
    · exact heq.trans (h.byServer id hserver hstoring)
    · refine absurd hid (hheld.apart w id' hw id ?_)
      exact List.mem_append_left _ (Option.mem_toList.mpr hserver)
  inPipe := by
    intro id hmem
    rcases id_setSlot_worker hi hs (hashId id) with heq | ⟨id', hw, hid⟩
    · exact heq.trans (h.inPipe id hmem)
    · exact absurd hid (hheld.apart w id' hw id (List.mem_append_right _ hmem))

omit [DecidableEq τ] in
theorem Named.server_step
    (hheld : s.Held) (h : s.Named) {i : ℕ} {p : SPc τ}
    (hi : s.server.slot = some i) (hholds : HoldStep (s.slot i) k s.server p)
    (hs : SStep (s.slot i) s.server k p) :
    ((s.setSlot i k).serve p).Named where
  byWorker := by
    intro w id hw hstoring
    rcases id_setSlot_server hi hs (hashId id) with heq | ⟨id', hserver, hid⟩
    · exact heq.trans (h.byWorker w id hw hstoring)
    · refine absurd hid.symm (hheld.apart w id hw id' ?_)
      exact List.mem_append_left _ (Option.mem_toList.mpr hserver)
  byServer := by
    intro id hp hstoring
    cases hholds with
    | keeps heq =>
        have hserver : s.server.holds = some id := heq.symm.trans hp
        have hid : hashId id = i :=
          Option.some.inj ((SPc.slot_of_holds hserver).symm.trans hi)
        change ((s.setSlot i k).slot (hashId id)).id = id
        rw [hid, slot_setSlot_self]
        rcases sstep_stored hs hserver with hk | ⟨hk, hold⟩
        · exact hk
        · rw [hk, ← hid]
          exact h.byServer id hserver hold
    | takes listener n id' _ hp' =>
        rw [hp'] at hstoring
        cases hstoring
    | leaves id' _ hnone =>
        rw [show p.holds = some id from hp] at hnone
        cases hnone
  inPipe := by
    intro id hmem
    rcases id_setSlot_server hi hs (hashId id) with heq | ⟨id', hserver, hid⟩
    · exact heq.trans (h.inPipe id hmem)
    · have hnodup := hheld.nodup
      rw [waiting, List.map_append, List.nodup_append] at hnodup
      have h' : hashId id' ∈ (s.server.holds.toList).map hashId :=
        List.mem_map_of_mem (Option.mem_toList.mpr hserver)
      exact absurd hid (hnodup.2.2 _ h' _ (List.mem_map_of_mem hmem))

/-- A worker that comes to hold nothing moves on. -/
theorem Named.goto
    (h : s.Named) {w : τ} {p : WPc τ} (hp : p.holds = none) :
    (s.goto w p).Named where
  byWorker := by
    intro v id hv hstoring
    by_cases hvw : v = w
    · rw [hvw, show (s.goto w p).worker w = p from update_self ..,
        hp] at hv
      cases hv
    · rw [show (s.goto w p).worker v = s.worker v from
        update_of_ne hvw ..] at hv hstoring
      exact h.byWorker v id hv hstoring
  byServer := h.byServer
  inPipe := h.inPipe

omit [DecidableEq τ] in
/-- The socket thread moves on with what it comes to hold. -/
theorem Named.serve
    (h : s.Named) {p : SPc τ}
    (hp : ∀ id, p.holds = some id → (s.slot (hashId id)).id = id) :
    (s.serve p).Named where
  byWorker := h.byWorker
  byServer := fun id hid _ => hp id hid
  inPipe := h.inPipe

theorem Named.step
    (hknown : ∀ i, s.At Known i) (hunclosed : ∀ i, s.At Unclosed i)
    (hheld : s.Held) (h : s.Named) {l : Option τ × Act}
    (hok : s.Meets SparesReserved l) (hmove : Move s l s') : s'.Named := by
  have hnone {t : State τ} (ht : t.Named) {p : SPc τ} (hp : p.holds = none) :
      (t.serve p).Named := ht.serve fun id hid => by
    rw [hp] at hid
    cases hid
  cases hmove with
  | worker w a i hi hs => exact h.worker_step hheld hi hs
  | enter w api hpc => exact h.goto (enter_holds w api)
  | push w a c hpc =>
      refine Named.goto (s := { s with pipe := s.pipe ++ [c] })
        ⟨h.byWorker, h.byServer, fun id hid => ?_⟩ rfl
      dsimp only at hid
      rw [List.filterMap_append, List.mem_append] at hid
      rcases hid with hid | hid
      · exact h.inPipe id hid
      · have hopens : c.opens = some id := by
          simpa using hid
        exact h.byWorker w id (by rw [hpc]; exact hopens) (by rw [hpc]; rfl)
  | alloc w a o n hpc =>
      refine Named.goto (s := { s with allocId := (allocStep s.allocId n).1 })
        ⟨h.byWorker, h.byServer, h.inPipe⟩ ?_
      rcases allocStep_cases s.allocId n with h | ⟨_, h⟩ | ⟨_, _, h⟩ <;>
        rw [h] <;> rfl
  | server a i hi hs =>
      have hat : s.serverAt i = s.server := SPc.seen_of_slot hi
      have hi' := hknown i
      have hclose := hunclosed i
      have hok' := hok i hi
      unfold At at hi' hclose
      rw [hat] at hi' hclose hok'
      exact h.server_step hheld hi
        (sstep_holds hi'.2.expected (fun hin => (hclose hin).2) hok' hs) hs
  | take a c rest hpc hpipe =>
      have hall (id : Id) (hid : id ∈ (c :: rest).filterMap Command.opens) :
          (s.slot (hashId id)).id = id := h.inPipe id (by rwa [hpipe])
      refine Named.serve (s := { s with pipe := rest })
        ⟨h.byWorker, h.byServer, fun id hid => hall id ?_⟩
        fun id hid => hall id ?_
      · rw [List.filterMap_cons]
        cases c.opens with
        | none => exact hid
        | some id' => exact List.mem_cons_of_mem id' hid
      · rw [List.filterMap_cons, show c.opens = some id from hid]
        exact List.mem_cons_self
  | events a check hpc =>
      exact hnone (t := { s with checkctrl := check })
        ⟨h.byWorker, h.byServer, h.inPipe⟩ rfl
  | ret a r hpc => exact hnone h rfl
  | next a e rest hpc _ =>
      exact hnone (t := { s with ev := rest })
        ⟨h.byWorker, h.byServer, h.inPipe⟩ rfl
  | wait events hpc _ _ hp =>
      refine hnone
        (t := { s with ev := events.map s.stamp, checkctrl := true })
        ⟨h.byWorker, h.byServer, h.inPipe⟩ ?_
      rcases hp with rfl | rfl <;> rfl
  | dispatchNull a e hpc _ | exit a c hpc hslot => exact hnone h rfl
  | clear a r hpc =>
      exact hnone (t := { s with ev := s.clearClosedEvent r.id s.ev })
        ⟨h.byWorker, h.byServer, h.inPipe⟩ rfl
  | acceptAlloc a listener n hpc =>
      refine hnone (t := { s with allocId := (allocStep s.allocId n).1 })
        ⟨h.byWorker, h.byServer, h.inPipe⟩ ?_
      rcases allocStep_cases s.allocId n with h | ⟨_, h⟩ | ⟨_, _, h⟩ <;>
        rw [h] <;> rfl
  | kept a e r hpc =>
      refine hnone (t := { s with ev := e.toList ++ s.ev })
        ⟨h.byWorker, h.byServer, h.inPipe⟩ ?_
      cases r <;> rfl

end Named

/-! ## Every run -/

/-- What holds of the slots when no step disturbs a reserved one. -/
structure Settled (s : State τ) : Prop where
  known : ∀ i, s.At Known i
  unclosed : ∀ i, s.At Unclosed i
  held : s.Held
  named : s.Named

section Settled

variable [DecidableEq τ] {s s' : State τ}

omit [DecidableEq τ] in
theorem settled_create : (create : State τ).Settled where
  known := fun i => ⟨exclusive_create i, informed_create i⟩
  unclosed := by
    intro i hin
    have hpoll : (create : State τ).serverAt i = .poll :=
      SPc.seen_of_ne (Option.some_ne_none i).symm
    rw [hpoll] at hin
    cases hin
  held := ⟨nofun, nofun, nofun, nofun, List.nodup_nil⟩
  named := ⟨nofun, nofun, nofun⟩

omit [DecidableEq τ] in
/-- The failure branch which still holds its slot finds it reserved. -/
theorem Settled.spares_open
    (h : s.Settled) {l : Option τ × Act} (hok : s.Meets SparesReserved l) :
    s.Meets (fun k p ws t => SparesOpen k p ws t ∧ SparesReserved k p ws t)
      l := by
  unfold Meets at hok ⊢
  split
  · rename_i w hw
    rw [hw] at hok
    exact fun i hi => ⟨nofun, hok i hi⟩
  · rename_i hw
    rw [hw] at hok
    intro i hi
    refine ⟨fun _ id again r hp => ?_, hok i hi⟩
    cases again with
    | true => exact .inl ((hok i hi rfl).1 id r hp)
    | false =>
        rw [serverAt, SPc.seen_of_slot hi] at hp
        have hholds : s.server.holds = some id := by
          rw [hp]
          rfl
        have hid : hashId id = i :=
          Option.some.inj ((SPc.slot_of_holds hholds).symm.trans hi)
        have hres := h.held.inList id
          (List.mem_append_left _ (Option.mem_toList.mpr hholds))
        exact .inr (hid ▸ hres)

theorem Settled.step
    (h : s.Settled) {l : Option τ × Act} (hok : s.Meets SparesReserved l)
    (hs : s.step l = .next s') : s'.Settled := by
  have hstable : Stable
      (fun k p ws t => SparesOpen k p ws t ∧ SparesReserved k p ws t)
      fun (k : Socket τ) p ws => Known k p ws ∧ Unclosed k p ws :=
    Stable.and stable_known stable_unclosed fun _ _ _ _ hok => hok.1
  have hlocal := local_step hstable
    (fun i => ⟨h.known i, h.unclosed i⟩) (h.spares_open hok) hs
  have hmove := move_of_step hs
  exact
    { known := fun i => (hlocal i).1
      unclosed := fun i => (hlocal i).2
      held := h.held.step h.known h.unclosed hok hmove
      named := h.named.step h.known h.unclosed h.held hok hmove }

end Settled

end State

end SkynetServer.SocketServer
