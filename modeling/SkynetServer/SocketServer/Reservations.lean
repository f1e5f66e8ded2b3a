import SkynetServer.SocketServer.Holders

/-!
# The ids that `reserve_id` returns

`alloc_id` is incremented by all threads and wraps.  While the threads respect
reserved slots, an id that is returned belongs to its slot, differs from the
ids of all other sockets, and stays the only id there until the slot is
released.  It is positive, unless the wrapped counter comes to `0` while slot
`0` is free.

A run also records, for every thread, the slots that its call of `reserve_id`
has found in use: `MAX_SOCKET` of them before it returns `-1`.
-/

namespace SkynetServer.SocketServer

open Transition

variable {τ : Type*}

/-! ## Positions in `reserve_id` -/

/-- The position in `reserve_id`. -/
def WPc.reserving : WPc τ → Option (Alloc ⊕ Reserve)
  | .alloc _ n => some (.inl n)
  | .reserve _ r => some (.inr r)
  | _ => none

/-- The position in `reserve_id`. -/
def SPc.reserving : SPc τ → Option (Alloc ⊕ Reserve)
  | .acceptAlloc _ n => some (.inl n)
  | .acceptReserve _ r => some (.inr r)
  | _ => none

/-- The round of the loop. -/
def roundOf : Alloc ⊕ Reserve → Option ℕ
  | .inl (.inc i) | .inl (.mask i) | .inr (.probe i _) | .inr (.cas i _) =>
    some i
  | _ => none

/-- Where `reserve_id` goes on after a step at its slot. -/
def afterReserveStep : Reserve ⊕ Alloc ⊕ Id → Option (Alloc ⊕ Reserve)
  | .inl r => some (.inr r)
  | .inr (.inl n) => some (.inl n)
  | .inr (.inr _) => none

namespace State

/-- The position of a thread in `reserve_id`. -/
def reserving (s : State τ) : Option τ → Option (Alloc ⊕ Reserve)
  | some w => (s.worker w).reserving
  | none => s.server.reserving

/-- The id for which a thread holds a slot. -/
def heldBy (s : State τ) : Option τ → Option Id
  | some w => (s.worker w).holds
  | none => s.server.holds

/-- The slot that the next step of a thread finds in use. -/
def probed (s : State τ) (t : Option τ) : Option ℕ :=
  match s.reserving t with
  | some (.inr (.probe _ id)) =>
    if (s.slot (hashId id)).type = .invalid then none else some (hashId id)
  | _ => none

/-- The id `0` does not come upon a free slot. -/
def SparesZero (s : State τ) (l : Option τ × Act) : Prop :=
  ∀ i, s.reserving l.1 = some (.inr (.cas i 0)) → (s.slot 0).type ≠ .invalid

/-- What a step of the thread `t` returns from `reserve_id`; `none` is `-1`. -/
def Returns (s s' : State τ) (t : Option τ) : Option Id → Prop
  | some id => s.reserving t = some (.inr (.setUdp id))
  | none => (∃ n, s.reserving t = some (.inl n)) ∧ s'.reserving t = none

end State

/-- A state, and the slots which the calls of `reserve_id` in progress have
found in use. -/
structure Recorded (τ : Type*) where
  state : State τ
  used : Option τ → List ℕ

namespace Recorded

def create : Recorded τ := ⟨.create, fun _ => []⟩

def step [DecidableEq τ] (r : Recorded τ) (l : Option τ × Act) :
    Outcome Fault (Recorded τ) :=
  (r.state.step l).bind fun s => .next
    { state := s
      used := Function.update r.used l.1
        (if (r.state.reserving l.1).isSome then
          r.used l.1 ++ (r.state.probed l.1).toList
        else []) }

end Recorded

/-! ## Steps -/

section Steps

variable {k k' : Socket τ}

theorem wstep_reserving
    {p p' : WPc τ} (h : WStep k p k' p') (hp : p.reserving = none) :
    p'.reserving = none := by
  cases h
  case reserve => cases hp
  case accept c h => rcases afterEntry_cases c with hc | hc <;> rw [hc] <;> rfl
  case pass locked c t h =>
    rcases afterTest_cases locked c t with ⟨t', -, ht⟩ | ⟨-, ht⟩
    · rw [ht]
      rfl
    · rw [ht]
      cases locked <;> rfl
  case write c n _ _ _ | sendto c n _ =>
    rcases afterWrite_cases c n with hc | hc <;> rw [hc] <;> rfl
  case fail c t | busy c | retry c =>
    unfold queue
    split <;> rfl
  all_goals rfl

theorem sstep_reserving
    {p p' : SPc τ} (h : SStep k p k' p') (hp : p.reserving = none) :
    p'.reserving = none ∨ p'.reserving = some (.inl (.inc 0)) := by
  have hends {q : SPc τ} (hq : q.Ends) : q.reserving = none := by
    cases hq <;> rfl
  have hsend (c : Call τ) (r : Option Report) :
      (afterSend c r).reserving = none := by
    rcases afterSend_cases c r with h | h <;> rw [h]
    · rfl
    · exact hends (ends_finish r)
  have hbuffer (f : Caller) (r : Option Report) :
      (afterBuffer (τ := τ) f r).reserving = none := by
    rcases afterBuffer_cases (τ := τ) f r with ⟨_, _, -, h⟩ |
      ⟨_, _, -, h | h⟩ <;> rw [h]
    · exact hends (ends_finish r)
    · rfl
    · rfl
  have hlist (k : Socket τ) (f : Caller) (low : Bool) :
      (afterList k f low).reserving = none := by
    rcases afterList_cases k f low with ⟨-, -, h⟩ | ⟨-, -, -, h⟩ | ⟨-, -, h⟩ |
      ⟨-, h⟩ <;> rw [h] <;> rfl
  cases h
  case cmdEnd hq | openFailed hq | acceptEnd hq => exact .inl (hends hq)
  case drop c r | queue c _ r _ _ _ _ => exact .inl (hsend c r)
  case setType id n =>
    cases n with
    | «open» connected => cases connected <;> exact .inl rfl
    | _ => exact .inl rfl
  case sendEnable c r => exact .inl (hsend c r)
  case decOther c r _ | dec c r _ _ | decUdp c r _ =>
    exact .inl (hends (ends_finish r))
  case busy f => exact .inl (hbuffer f none)
  case listEnd f low => exact .inl (hlist k f low)
  case sendPart f low b rest n _ _ _ | udpDrop f low b rest _ _ =>
    exact .inl (hlist _ f low)
  case unlock f r => exact .inl (hbuffer f r)
  case freeInvalid f _ | closeUnlock f => exact .inl (hends (ends_afterClose f))
  case accept => exact .inr rfl
  case reserve => cases hp
  all_goals exact .inl rfl

end Steps

namespace State

variable [DecidableEq τ] {s s' : State τ} {l : Option τ × Act}

theorem move_other
    (h : Move s l s') {t : Option τ} (ht : t ≠ l.1) :
    s'.reserving t = s.reserving t ∧ s'.heldBy t = s.heldBy t := by
  have hgoto (s : State τ) (w : τ) (p : WPc τ) (hw : t ≠ some w) :
      (s.goto w p).reserving t = s.reserving t ∧
        (s.goto w p).heldBy t = s.heldBy t := by
    cases t with
    | none => exact ⟨rfl, rfl⟩
    | some v =>
        have hv : (s.goto w p).worker v = s.worker v :=
          Function.update_of_ne (fun h => hw (congrArg some h)) ..
        exact ⟨congrArg WPc.reserving hv, congrArg WPc.holds hv⟩
  have hserve (s : State τ) (p : SPc τ) (hs : t ≠ none) :
      (s.serve p).reserving t = s.reserving t ∧
        (s.serve p).heldBy t = s.heldBy t := by
    cases t with
    | none => exact absurd rfl hs
    | some v => exact ⟨rfl, rfl⟩
  cases h with
  | worker w a i | enter w api | push w a c | alloc w a o n =>
      exact hgoto _ w _ ht
  | _ => exact hserve _ _ ht

theorem step_alloc
    {n : Alloc} (h : s.reserving l.1 = some (.inl n))
    (hs : s.step l = .next s') :
    s'.slot = s.slot ∧ s'.reserving l.1 = (allocStep s.allocId n).2 := by
  obtain ⟨t, a⟩ := l
  have hout := allocStep_cases s.allocId n
  cases t with
  | some w =>
      cases hpc : s.worker w with
      | alloc o n' =>
          simp only [reserving, hpc, WPc.reserving, Option.some.injEq,
            Sum.inl.injEq] at h
          subst h
          simp only [step, workerStep, hpc, WPc.slot, workerGlobal] at hs
          cases hs
          refine ⟨rfl, ?_⟩
          simp only [reserving, goto, Function.update_self]
          rcases hout with h | ⟨_, h⟩ | ⟨_, _, h⟩ <;> rw [h] <;> rfl
      | reserve o r | _ => simp [reserving, hpc, WPc.reserving] at h
  | none =>
      cases hpc : s.server with
      | acceptAlloc listener n' =>
          simp only [reserving, hpc, SPc.reserving, Option.some.injEq,
            Sum.inl.injEq] at h
          subst h
          simp only [step, serverStep, hpc, SPc.slot, serverGlobal] at hs
          cases hs
          refine ⟨rfl, ?_⟩
          simp only [reserving, serve]
          rcases hout with h | ⟨_, h⟩ | ⟨_, _, h⟩ <;> rw [h] <;> rfl
      | _ => simp [reserving, hpc, SPc.reserving] at h

theorem step_reserve
    {r : Reserve} (h : s.reserving l.1 = some (.inr r))
    (hs : s.step l = .next s') :
    s'.slot = Function.update s.slot (hashId r.id)
        (reserveStep (s.slot (hashId r.id)) r).1 ∧
      s'.reserving l.1 =
        afterReserveStep (reserveStep (s.slot (hashId r.id)) r).2 := by
  obtain ⟨t, a⟩ := l
  cases t with
  | some w =>
      cases hpc : s.worker w with
      | reserve o r' =>
          simp only [reserving, hpc, WPc.reserving, Option.some.injEq,
            Sum.inr.injEq] at h
          subst h
          simp only [step, workerStep, hpc, WPc.slot, workerLocal] at hs
          cases hout : (reserveStep (s.slot (hashId r'.id)) r') with
          | mk k out =>
              rw [hout] at hs
              rcases out with r'' | n | id <;> cases hs <;>
                refine ⟨rfl, ?_⟩ <;>
                simp only [reserving, goto, Function.update_self] <;> rfl
      | _ => simp [reserving, hpc, WPc.reserving] at h
  | none =>
      cases hpc : s.server with
      | acceptReserve listener r' =>
          simp only [reserving, hpc, SPc.reserving, Option.some.injEq,
            Sum.inr.injEq] at h
          subst h
          simp only [step, serverStep, hpc, SPc.slot, serverLocal] at hs
          cases hout : (reserveStep (s.slot (hashId r'.id)) r') with
          | mk k out =>
              rw [hout] at hs
              rcases out with r'' | n | id <;> cases hs <;> exact ⟨rfl, rfl⟩
      | _ => simp [reserving, hpc, SPc.reserving] at h

theorem step_reserving
    (h : s.reserving l.1 = none) (hs : s.step l = .next s') :
    s'.reserving l.1 = none ∨ s'.reserving l.1 = some (.inl (.inc 0)) := by
  have hgoto {s : State τ} {w : τ} {p : WPc τ} (hp : p.reserving = none) :
      (s.goto w p).reserving (some w) = none := by
    rw [reserving, show (s.goto w p).worker w = p from Function.update_self ..]
    exact hp
  cases move_of_step hs with
  | worker w a i hi hw => exact .inl (hgoto (wstep_reserving hw h))
  | enter w api hpc =>
      rw [reserving, show (s.goto w (enter w api)).worker w = enter w api from
        Function.update_self ..]
      cases api with
      | «open» o => exact .inr rfl
      | _ => exact .inl rfl
  | push w a c hpc => exact .inl (hgoto rfl)
  | alloc w a o n hpc | acceptAlloc a listener n hpc =>
      rw [reserving, hpc] at h
      cases h
  | server a i hi hw => exact sstep_reserving hw h
  | wait events hpc _ _ hp => rcases hp with rfl | rfl <;> exact .inl rfl
  | kept a e r hpc => cases r <;> exact .inl rfl
  | _ => exact .inl rfl

/-! ## Ids -/

/-- The ids in `reserve_id` are not negative, and those for which a slot is
taken are positive. -/
def Positive (s : State τ) : Prop :=
  ∀ t r, s.reserving t = some (.inr r) →
    r.id.msb = false ∧ (r.won = true → r.id ≠ 0)

theorem msb_mask (n : Id) : (n &&& 0x7fffffff).msb = false := by
  rw [BitVec.msb_and]
  exact Bool.and_false _

/-- A probe is for an id that is not negative. -/
theorem allocStep_probe
    {allocId : Id} {n : Alloc} {r : Reserve}
    (h : (allocStep allocId n).2 = some (.inr r)) :
    r.id.msb = false ∧ r.won = false := by
  cases n with
  | inc i =>
      simp only [allocStep] at h
      split at h
      · cases h
      · by_cases hmsb : (allocId + 1).msb = true
        · rw [if_pos hmsb] at h
          cases h
        · rw [if_neg hmsb] at h
          cases h
          exact ⟨Bool.eq_false_iff.mpr hmsb, rfl⟩
  | mask i =>
      cases h
      exact ⟨msb_mask allocId, rfl⟩

theorem Positive.step
    (h : s.Positive) (hzero : s.SparesZero l) (hs : s.step l = .next s') :
    s'.Positive := by
  intro t r ht
  by_cases htl : t = l.1
  · subst htl
    cases hpos : s.reserving l.1 with
    | none =>
        rcases step_reserving hpos hs with h' | h' <;> rw [h'] at ht <;>
          cases ht
    | some pos =>
        cases pos with
        | inl n =>
            rw [(step_alloc hpos hs).2] at ht
            obtain ⟨hmsb, hwon⟩ := allocStep_probe ht
            refine ⟨hmsb, fun hr => ?_⟩
            rw [hwon] at hr
            cases hr
        | inr r' =>
            obtain ⟨hmsb, hne⟩ := h l.1 r' hpos
            rw [(step_reserve hpos hs).2] at ht
            have hr := rstep_reserveStep (s.slot (hashId r'.id)) r'
            generalize reserveStep (s.slot (hashId r'.id)) r' = out at ht hr
            obtain ⟨k, out⟩ := out
            cases hr with
            | free n id _ =>
                cases ht
                exact ⟨hmsb, nofun⟩
            | cas n id htype =>
                cases ht
                refine ⟨hmsb, fun _ hid => ?_⟩
                change id = 0 at hid
                subst hid
                exact hzero n hpos htype
            | setId id | setProtocol id =>
                cases ht
                exact ⟨hmsb, fun _ => hne rfl⟩
            | used | lost | setUdp => cases ht
  · rw [(move_other (move_of_step hs) htl).1] at ht
    exact h t r ht

theorem toInt_pos {n : Id} (hmsb : n.msb = false) (hne : n ≠ 0) :
    0 < n.toInt := by
  rw [BitVec.toInt_eq_toNat_of_msb hmsb]
  have hpos : n.toNat ≠ 0 := fun h => hne (BitVec.eq_of_toNat_eq h)
  omega

/-- The id of a slot is one for this slot, or has not been set. -/
def Hashed (s : State τ) : Prop :=
  ∀ i, (s.slot i).id = 0 ∨ hashId (s.slot i).id = i

theorem Hashed.step
    (h : s.Hashed) (hs : s.step l = .next s') : s'.Hashed := by
  intro i
  rcases (move_of_step hs).slot_cases i with heq | ⟨w, a, p, -, hi, hw⟩ |
    ⟨a, p, -, hi, hw⟩
  · rw [heq]
    exact h i
  · rcases wstep_id hw with hid | ⟨o, id, hp, hid⟩
    · rw [hid]
      exact h i
    · rw [hp] at hi
      rw [hid]
      exact .inr (Option.some.inj hi)
  · rcases sstep_id hw with hid | ⟨listener, id, hp, hid⟩ | ⟨id, n, hp, hid⟩
    · rw [hid]
      exact h i
    · rw [hp] at hi
      rw [hid]
      exact .inr (Option.some.inj hi)
    · rw [hp] at hi
      rw [hid]
      exact .inr (Option.some.inj hi)

/-! ## Holders -/

omit [DecidableEq τ] in
theorem heldBy_of_reserving
    {t : Option τ} {r : Reserve} (h : s.reserving t = some (.inr r))
    (hwon : r.won = true) : s.heldBy t = some r.id := by
  cases t with
  | some w =>
      rw [reserving] at h
      cases hpc : s.worker w with
      | reserve o r' =>
          rw [hpc] at h
          cases h
          rw [heldBy, hpc, WPc.holds, if_pos hwon]
      | _ =>
          rw [hpc] at h
          cases h
  | none =>
      rw [reserving] at h
      cases hpc : s.server with
      | acceptReserve listener r' =>
          rw [hpc] at h
          cases h
          rw [heldBy, hpc, SPc.holds, if_pos hwon]
      | _ =>
          rw [hpc] at h
          cases h

omit [DecidableEq τ] in
theorem Held.reserved
    (h : s.Held) {t : Option τ} {id : Id} (ht : s.heldBy t = some id) :
    (s.slot (hashId id)).type = .reserve := by
  cases t with
  | some w => exact h.byWorker w id ht
  | none =>
      exact h.inList id (List.mem_append_left _ (Option.mem_toList.mpr ht))

omit [DecidableEq τ] in
theorem Held.eq_of_heldBy
    (h : s.Held) {t u : Option τ} {a b : Id} (ht : s.heldBy t = some a)
    (hu : s.heldBy u = some b) (heq : hashId a = hashId b) : t = u := by
  have hserver {b : Id} (hb : s.server.holds = some b) : b ∈ s.waiting :=
    List.mem_append_left _ (Option.mem_toList.mpr hb)
  cases t with
  | some v =>
      cases u with
      | some w => rw [h.distinct v w a b ht hu heq]
      | none => exact absurd heq (h.apart v a ht b (hserver hu))
  | none =>
      cases u with
      | some w => exact absurd heq.symm (h.apart w b hu a (hserver ht))
      | none => rfl

/-! ## The lifetime of an id -/

/-- The id has been returned, and its slot has not been released. -/
structure Alive (s : State τ) (n : Id) : Prop where
  used : (s.slot (hashId n)).type ≠ .invalid
  id_eq : (s.slot (hashId n)).id = n
  returned : ∀ t r, s.reserving t = some (.inr r) → r.won = true →
    hashId r.id ≠ hashId n

theorem Alive.id_step
    (hset : s.Settled) {n : Id} (h : s.Alive n) (hs : s.step l = .next s') :
    (s'.slot (hashId n)).id = n := by
  rcases (move_of_step hs).slot_cases (hashId n) with heq |
    ⟨w, a, p, -, hi, hw⟩ | ⟨a, p, -, hi, hw⟩
  · rw [heq]
    exact h.id_eq
  · rcases wstep_id hw with hid | ⟨o, id, hp, hid⟩
    · exact hid.trans h.id_eq
    · have hpos : s.reserving (some w) = some (.inr (.setId id)) := by
        rw [reserving, hp]
        rfl
      rw [hp] at hi
      exact absurd (Option.some.inj hi) (h.returned _ _ hpos rfl)
  · rcases sstep_id hw with hid | ⟨listener, id, hp, hid⟩ | ⟨id, m, hp, hid⟩
    · exact hid.trans h.id_eq
    · have hpos : s.reserving none = some (.inr (.setId id)) := by
        rw [reserving, hp]
        rfl
      rw [hp] at hi
      exact absurd (Option.some.inj hi) (h.returned _ _ hpos rfl)
    · have hslot : hashId id = hashId n := by
        rw [hp] at hi
        exact Option.some.inj hi
      have hname := hset.named.byServer id (by rw [hp]; rfl) (by rw [hp]; rfl)
      rw [hslot, h.id_eq] at hname
      rw [hid, hname]

theorem Alive.step
    (hset : s.Settled) {n : Id} (h : s.Alive n) (hs : s.step l = .next s')
    (hused : (s'.slot (hashId n)).type ≠ .invalid) : s'.Alive n := by
  refine ⟨hused, h.id_step hset hs, fun t r ht hwon => ?_⟩
  by_cases htl : t = l.1
  · subst htl
    cases hpos : s.reserving l.1 with
    | none =>
        rcases step_reserving hpos hs with h' | h' <;> rw [h'] at ht <;>
          cases ht
    | some pos =>
        cases pos with
        | inl m =>
            rw [(step_alloc hpos hs).2] at ht
            rw [(allocStep_probe ht).2] at hwon
            cases hwon
        | inr r' =>
            rw [(step_reserve hpos hs).2] at ht
            have hr := rstep_reserveStep (s.slot (hashId r'.id)) r'
            generalize reserveStep (s.slot (hashId r'.id)) r' = out at ht hr
            obtain ⟨k, out⟩ := out
            cases hr with
            | free m id _ =>
                cases ht
                cases hwon
            | cas m id htype =>
                cases ht
                intro heq
                change hashId id = hashId n at heq
                change (s.slot (hashId id)).type = .invalid at htype
                rw [heq] at htype
                exact h.used htype
            | setId id | setProtocol id =>
                cases ht
                have hother := h.returned l.1 _ hpos rfl
                exact hother
            | used | lost | setUdp => cases ht
  · rw [(move_other (move_of_step hs) htl).1] at ht
    exact h.returned t r ht hwon

/-- The id is positive and the only one of its slot until that is released. -/
structure Grants (s : State τ) (n : Id) : Prop where
  pos : 0 < n.toInt
  type : (s.slot (hashId n)).type = .reserve
  id_eq : (s.slot (hashId n)).id = n
  unique : ∀ i, i ≠ hashId n → (s.slot i).type ≠ .invalid → (s.slot i).id ≠ n
  tag : ∀ m, hashId m = hashId n → idTag16 m = idTag16 n → m = n
  lifetime : ∀ s', Reaches State.step (fun t l =>
      t.Meets SparesReserved l ∧ (t.slot (hashId n)).type ≠ .invalid) s s' →
    (s'.slot (hashId n)).type ≠ .invalid →
      (s'.slot (hashId n)).id = n ∧
        ∀ t s'' m, s'.Returns s'' t (some m) → hashId m ≠ hashId n

/-- Slot and tag determine the id. -/
theorem eq_of_hashId_of_idTag16
    {m n : Id} (hhash : hashId m = hashId n) (htag : idTag16 m = idTag16 n) :
    m = n := by
  have hm := m.isLt
  have hn := n.isLt
  unfold hashId at hhash
  unfold idTag16 at htag
  apply BitVec.eq_of_toNat_eq
  omega

/-- Until the slot of a living id is released, the id lives. -/
theorem alive_of_reaches
    (hset : s.Settled) {n : Id} (h : s.Alive n)
    (hreach : Reaches State.step (fun t l =>
      t.Meets SparesReserved l ∧ (t.slot (hashId n)).type ≠ .invalid) s s')
    (hused : (s'.slot (hashId n)).type ≠ .invalid) : s'.Alive n := by
  have hinv : s'.Settled ∧
      ((s'.slot (hashId n)).type ≠ .invalid → s'.Alive n) := by
    refine hreach.invariant (fun s' => s'.Settled ∧
      ((s'.slot (hashId n)).type ≠ .invalid → s'.Alive n)) ⟨hset, fun _ => h⟩ ?_
    rintro t l t' ⟨ht, halive⟩ ⟨hok, hlive⟩ hs
    exact ⟨ht.step hok hs, fun hused => (halive hlive).step ht hs hused⟩
  exact hinv.2 hused

theorem grants_of_returns
    (hset : s.Settled) (hpositive : s.Positive) (hhashed : s'.Hashed)
    (hok : s.Meets SparesReserved l) (hs : s.step l = .next s') {n : Id}
    (hret : s.Returns s' l.1 (some n)) : s'.Grants n := by
  obtain ⟨hmsb, hne⟩ := hpositive l.1 _ hret
  have hheld := heldBy_of_reserving hret rfl
  have htype : (s.slot (hashId n)).type = .reserve := hset.held.reserved hheld
  have hid : (s.slot (hashId n)).id = n := by
    cases hl : l.1 with
    | some w =>
        rw [hl] at hheld hret
        refine hset.named.byWorker w n hheld ?_
        cases hpc : s.worker w <;> simp [Returns, reserving, hpc, WPc.reserving]
          at hret
        subst hret
        rfl
    | none =>
        rw [hl] at hheld hret
        refine hset.named.byServer n hheld ?_
        cases hpc : s.server <;> simp [Returns, reserving, hpc, SPc.reserving]
          at hret
        subst hret
        rfl
  obtain ⟨hslot, hpos⟩ := step_reserve hret hs
  have hself : s'.slot (hashId n) =
      { s.slot (hashId n) with udpconnecting := 0 } := by
    rw [hslot]
    exact Function.update_self ..
  have htype' : (s'.slot (hashId n)).type = .reserve := by rw [hself, htype]
  have hused : (s'.slot (hashId n)).type ≠ .invalid := by
    rw [htype']
    exact nofun
  have hid' : (s'.slot (hashId n)).id = n := by rw [hself, hid]
  have halive : s'.Alive n := by
    refine ⟨hused, hid', fun t r ht hwon heq => ?_⟩
    by_cases htl : t = l.1
    · rw [htl, hpos] at ht
      cases ht
    · rw [(move_other (move_of_step hs) htl).1] at ht
      exact htl (hset.held.eq_of_heldBy (heldBy_of_reserving ht hwon) hheld heq)
  refine ⟨toInt_pos hmsb (hne rfl), htype', hid', fun i hi _ heq => ?_,
    fun m => eq_of_hashId_of_idTag16, fun t hreach hlive => ?_⟩
  · rcases hhashed i with h0 | hh
    · exact hne rfl (heq.symm.trans h0)
    · exact hi (by rw [← hh, heq])
  · have hfinal := alive_of_reaches (hset.step hok hs) halive hreach hlive
    exact ⟨hfinal.id_eq, fun u _ m hm => hfinal.returned u _ hm rfl⟩

end State

/-! ## The rounds of a call -/

namespace Recorded

variable [DecidableEq τ] {r r' : Recorded τ} {l : Option τ × Act}

theorem step_state (h : r.step l = .next r') :
    r.state.step l = .next r'.state ∧
      r'.used = Function.update r.used l.1
        (if (r.state.reserving l.1).isSome then
          r.used l.1 ++ (r.state.probed l.1).toList
        else []) := by
  rw [step] at h
  cases hs : r.state.step l with
  | next s =>
      rw [hs] at h
      cases h
      exact ⟨rfl, rfl⟩
  | blocked | fault f =>
      rw [hs] at h
      cases h

/-- A call in round `i` has found `i` slots in use. -/
def Counted (r : Recorded τ) : Prop :=
  ∀ t pos i, r.state.reserving t = some pos → roundOf pos = some i →
    (r.used t).length = i ∧ i ≤ maxSocket ∧
      (i = maxSocket → pos = .inl (.inc i))

/-- A step at `alloc_id` does not change the round. -/
theorem roundOf_allocStep
    {allocId : Id} {n : Alloc} {pos : Alloc ⊕ Reserve} {i : ℕ}
    (h : (allocStep allocId n).2 = some pos) (hpos : roundOf pos = some i) :
    roundOf (.inl n) = some i ∧ (n = .inc i → i < maxSocket) := by
  cases n with
  | inc m =>
      simp only [allocStep] at h
      split at h
      · cases h
      · rename_i hlt
        have hm : m = i := by
          cases hmsb : (allocId + 1).msb <;> rw [hmsb] at h <;> cases h <;>
            exact Option.some.inj hpos
        subst hm
        exact ⟨rfl, fun _ => Nat.lt_of_not_le hlt⟩
  | mask m =>
      cases h
      cases hpos
      refine ⟨rfl, fun heq => ?_⟩
      cases heq

omit [DecidableEq τ] in
/-- What a step at the slot does to the round and to the slots found in use. -/
theorem roundOf_reserveStep
    {k : Socket τ} {c : Reserve} {pos : Alloc ⊕ Reserve} {i : ℕ}
    (h : afterReserveStep (reserveStep k c).2 = some pos)
    (hpos : roundOf pos = some i) :
    (roundOf (.inr c) = some i ∧ ∀ m id, c = .probe m id → k.type = .invalid) ∨
      ∃ m id, c = .probe m id ∧ k.type ≠ .invalid ∧ i = m + 1 ∧
        pos = .inl (.inc i) := by
  cases c with
  | probe m id =>
      rw [reserveStep] at h
      split at h
      · rename_i htype
        cases h
        exact .inl ⟨hpos, fun _ _ _ => htype⟩
      · rename_i htype
        cases h
        cases hpos
        exact .inr ⟨m, id, rfl, htype, rfl, rfl⟩
  | cas m id =>
      rw [reserveStep] at h
      split at h
      · cases h
        cases hpos
      · cases h
        refine .inl ⟨hpos, fun _ _ heq => ?_⟩
        cases heq
  | setId id | setProtocol id =>
      cases h
      cases hpos
  | setUdp id => cases h

theorem Counted.step
    (h : r.Counted) (hs : r.step l = .next r') : r'.Counted := by
  obtain ⟨hstep, hused⟩ := step_state hs
  intro t pos i ht hround
  by_cases htl : t = l.1
  · subst htl
    rw [hused, Function.update_self]
    cases hpos : r.state.reserving l.1 with
    | none =>
        rcases State.step_reserving hpos hstep with h' | h' <;> rw [h'] at ht
        · cases ht
        · cases ht
          cases hround
          exact ⟨rfl, Nat.zero_le _, nofun⟩
    | some old =>
        rw [if_pos Option.isSome_some, State.probed, hpos]
        cases old with
        | inl n =>
            rw [(State.step_alloc hpos hstep).2] at ht
            obtain ⟨hold, hlt⟩ := roundOf_allocStep ht hround
            obtain ⟨hlen, hle, hinc⟩ := h l.1 _ i hpos hold
            refine ⟨?_, hle, fun hmax => ?_⟩
            · dsimp only
              rw [Option.toList_none, List.append_nil]
              exact hlen
            · exact absurd hmax
                (Nat.ne_of_lt (hlt (Sum.inl.inj (hinc hmax))))
        | inr c =>
            rw [(State.step_reserve hpos hstep).2] at ht
            rcases roundOf_reserveStep ht hround with ⟨hold, hfree⟩ |
              ⟨m, id, rfl, hin, rfl, rfl⟩
            · obtain ⟨hlen, hle, hinc⟩ := h l.1 _ i hpos hold
              refine ⟨?_, hle, fun hmax => ?_⟩
              · rw [← hlen]
                cases c with
                | probe m id =>
                    have htype : (r.state.slot (hashId id)).type = .invalid :=
                      hfree m id rfl
                    dsimp only
                    rw [if_pos htype, Option.toList_none, List.append_nil]
                | _ =>
                    dsimp only
                    rw [Option.toList_none, List.append_nil]
              · cases hinc hmax
            · obtain ⟨hlen, hle, hinc⟩ := h l.1 _ m hpos rfl
              have hne : m ≠ maxSocket := by
                intro hmax
                cases hinc hmax
              have hused : (r.state.slot (hashId id)).type ≠ .invalid := hin
              refine ⟨?_, by omega, fun _ => rfl⟩
              dsimp only
              rw [if_neg hused, Option.toList_some, List.length_append, hlen]
              rfl
  · rw [(State.move_other (State.move_of_step hstep) htl).1] at ht
    rw [hused, Function.update_of_ne htl]
    exact h t pos i ht hround

/-- `-1` is returned after `MAX_SOCKET` slots have been found in use. -/
theorem used_of_returns
    (h : r.Counted) (hs : r.step l = .next r')
    (hret : r.state.Returns r'.state l.1 none) :
    (r.used l.1).length = maxSocket := by
  obtain ⟨⟨n, hpos⟩, hnone⟩ := hret
  rw [(State.step_alloc hpos (step_state hs).1).2] at hnone
  cases n with
  | inc i =>
      obtain ⟨hlen, hle, -⟩ := h l.1 _ i hpos rfl
      simp only [allocStep] at hnone
      split at hnone
      · omega
      · cases hnone
  | mask i => cases hnone

/-! ## Every run -/

/-- The id `0` does not come upon a free slot, and reserved slots are
respected. -/
def SparesIds (r : Recorded τ) (l : Option τ × Act) : Prop :=
  r.state.SparesZero l ∧ r.state.Meets SparesReserved l

/-- In every run, `reserve_id` returns an id which is positive, belongs to its
slot, differs from those of all other sockets, and is the only one that is
returned for this slot until it is released; or it returns `-1`, having found
`MAX_SOCKET` slots in use. -/
theorem ids_reserved
    {n : Option Id} (h : Reaches Recorded.step SparesIds .create r)
    (hok : r.SparesIds l) (hs : r.step l = .next r')
    (hret : r.state.Returns r'.state l.1 n) :
    match n with
    | some n => r'.state.Grants n
    | none => (r.used l.1).length = maxSocket := by
  have hinv : r.state.Settled ∧ r.state.Positive ∧ r.state.Hashed ∧
      r.Counted := by
    refine h.invariant (fun r => r.state.Settled ∧ r.state.Positive ∧
      r.state.Hashed ∧ r.Counted) ⟨State.settled_create, ?_, ?_, ?_⟩ ?_
    · intro t c ht
      cases t <;> cases ht
    · exact fun i => .inl rfl
    · intro t pos i ht
      cases t <;> cases ht
    · rintro r l r' ⟨hset, hpositive, hhashed, hcounted⟩ ⟨hzero, hok⟩ hs
      obtain ⟨hstep, -⟩ := step_state hs
      exact ⟨hset.step hok hstep, hpositive.step hzero hstep,
        hhashed.step hstep, hcounted.step hs⟩
  obtain ⟨hset, hpositive, hhashed, hcounted⟩ := hinv
  obtain ⟨hstep, -⟩ := step_state hs
  cases n with
  | some n =>
      exact State.grants_of_returns hset hpositive (hhashed.step hstep) hok.2
        hstep hret
  | none => exact used_of_returns hcounted hs hret

/-- Steps of a worker that do not take a slot for the id `0`. -/
def positiveCas (r : Recorded Unit) (l : Option Unit × Act) : Bool :=
  match l.1, r.state.reserving l.1 with
  | some _, some (.inr (.cas _ id)) => id ≠ 0
  | some _, _ => true
  | none, _ => false

theorem sparesIds_of_positiveCas
    (r : Recorded Unit) (l : Option Unit × Act)
    (h : r.positiveCas l = true) : r.SparesIds l := by
  obtain ⟨t, a⟩ := l
  cases t with
  | none => cases h
  | some w =>
      refine ⟨fun i hpos => ?_, fun i hi => nofun⟩
      rw [positiveCas, hpos] at h
      cases h

/-- `reserve_id` returns `1` in the next step of the worker. -/
def returnsOne (r : Recorded Unit) : Bool :=
  r.positiveCas (some (), .go) &&
    decide (r.state.reserving (some ()) = some (.inr (.setUdp 1))) &&
    (r.step (some (), .go)).passes fun _ => true

/-- The theorem above for the first connection. -/
theorem ids_reserved_of_first :
    ∃ r r' : Recorded Unit, r.step (some (), .go) = .next r' ∧
      r'.state.Grants 1 := by
  obtain ⟨r, hrun, htest⟩ := Outcome.exists_of_passes
    (show (execWhile step positiveCas create
      ((some (), .call (.open .connect)) ::
        List.replicate 5 (some (), .go))).passes returnsOne = true from
      by decide +kernel)
  rw [returnsOne, Bool.and_eq_true, Bool.and_eq_true] at htest
  obtain ⟨⟨hcas, hpos⟩, hnext⟩ := htest
  obtain ⟨r', hstep, -⟩ := Outcome.exists_of_passes hnext
  have hret : r.state.reserving (some ()) = some (.inr (.setUdp 1)) :=
    of_decide_eq_true hpos
  exact ⟨r, r', hstep, ids_reserved (n := some 1)
    (reaches_of_execWhile sparesIds_of_positiveCas hrun)
    (sparesIds_of_positiveCas r _ hcas) hstep hret⟩

end Recorded

/-! ## The counter wraps -/

namespace State

/-- The worker is alone at work. -/
def alone (slot : ℕ → Socket Unit) (allocId : Id) (p : WPc Unit) :
    State Unit where
  slot := slot
  allocId := allocId
  pipe := []
  checkctrl := true
  ev := []
  worker := fun _ => p
  server := .poll

theorem goto_alone
    (slot : ℕ → Socket Unit) (allocId : Id) (p q : WPc Unit) :
    (alone slot allocId p).goto () q = alone slot allocId q := by
  have heq : Function.update (fun _ : Unit => p) () q = fun _ => q :=
    funext fun _ => Function.update_self ..
  rw [goto, alone, alone, heq]

section Alone

variable {slot : ℕ → Socket Unit} {a n : Id}

theorem alone_alloc
    {c : Alloc} {b : Id} {out : Option (Alloc ⊕ Reserve)}
    (h : allocStep a c = (b, out)) :
    (alone slot a (.alloc .connect c)).step (some (), .go) =
      .next (alone slot b (.afterAlloc .connect out)) := by
  have hstep : (alone slot a (.alloc .connect c)).step (some (), .go) =
      .next ((alone slot b (.alloc .connect c)).goto ()
        (.afterAlloc .connect out)) := by
    simp only [step, workerStep, alone, WPc.slot, workerGlobal, h]
    rcases out with - | c | r <;> rfl
  rw [hstep, goto_alone]

theorem alone_reserve
    {r : Reserve} {k : Socket Unit} {out : Reserve ⊕ Alloc ⊕ Id}
    (h : reserveStep (slot (hashId r.id)) r = (k, out)) :
    (alone slot a (.reserve .connect r)).step (some (), .go) =
      .next (alone (Function.update slot (hashId r.id) k) a
        (.afterReserve .connect out)) := by
  have hstep : (alone slot a (.reserve .connect r)).step (some (), .go) =
      .next ((alone (Function.update slot (hashId r.id) k) a
        (.reserve .connect r)).goto () (.afterReserve .connect out)) := by
    simp only [step, workerStep, alone, WPc.slot, workerLocal, h]
    rcases out with r | c | m <;> rfl
  rw [hstep, goto_alone]

theorem alone_reserve_free
    {r : Reserve} {out : Reserve ⊕ Alloc ⊕ Id}
    (h : (reserveStep (slot (hashId r.id)) r).2 = out)
    (hfree : ∀ i, i ≠ hashId r.id → (slot i).type = .invalid) :
    ∃ slot' : ℕ → Socket Unit,
      (alone slot a (.reserve .connect r)).step (some (), .go) =
          .next (alone slot' a (.afterReserve .connect out)) ∧
        ∀ i, i ≠ hashId r.id → (slot' i).type = .invalid := by
  subst h
  refine ⟨_, alone_reserve rfl, fun i hi => ?_⟩
  rw [Function.update_of_ne hi]
  exact hfree i hi

/-- `reserve_id` takes a slot that is free. -/
theorem alone_takes
    (hfree : ∀ i, (slot i).type = .invalid) :
    ∃ slot' : ℕ → Socket Unit,
      exec State.step (alone slot a (.reserve .connect (.probe 0 n)))
          (List.replicate 4 (some (), .go)) =
        .next (alone slot' a (.reserve .connect (.setUdp n))) ∧
      ∀ i, i ≠ hashId n → (slot' i).type = .invalid := by
  have hprobe : reserveStep (slot (hashId n)) (.probe 0 n) =
      (slot (hashId n), .inl (.cas 0 n)) := by
    rw [reserveStep, if_pos (hfree _)]
  have hcas : (reserveStep (slot (hashId n)) (.cas 0 n)).2 =
      .inl (.setId n) := by
    rw [reserveStep, if_pos (hfree _)]
  have hfirst := alone_reserve (a := a) (r := .probe 0 n) hprobe
  rw [Reserve.id, Function.update_eq_self] at hfirst
  obtain ⟨slot₁, hsecond, hfree₁⟩ := alone_reserve_free (a := a)
    (r := .cas 0 n) hcas fun i _ => hfree i
  obtain ⟨slot₂, hthird, hfree₂⟩ := alone_reserve_free (a := a)
    (r := .setId n) rfl hfree₁
  obtain ⟨slot₃, hfourth, hfree₃⟩ := alone_reserve_free (a := a)
    (r := .setProtocol n) rfl hfree₂
  refine ⟨slot₃, ?_, hfree₃⟩
  exact (exec_cons hfirst _).trans ((exec_cons hsecond _).trans
    ((exec_cons hthird _).trans ((exec_cons hfourth _).trans rfl)))

/-- `open_socket` gives up the slot when `connect` fails. -/
theorem alone_fails
    (hfree : ∀ i, i ≠ hashId n → (slot i).type = .invalid) :
    ∃ slot' : ℕ → Socket Unit,
      exec State.step (alone slot a (.request (.open n)))
          [(some (), .go), (none, .go), (none, .failed), (none, .go),
            (none, .go), (none, .go)] =
        .next (alone slot' a .idle) ∧
      ∀ i, (slot' i).type = .invalid := by
  have hpush : (alone slot a (.request (.open n))).step (some (), .go) =
      .next ({ alone slot a .idle with pipe := [.open n] } : State Unit) := by
    rw [← goto_alone slot a (.request (.open n)) .idle]
    rfl
  rw [exec_cons hpush]
  let slot₁ := Function.update slot (hashId n) (slot (hashId n))
  refine ⟨Function.update slot₁ (hashId n)
    { slot₁ (hashId n) with type := .invalid }, rfl, fun i => ?_⟩
  by_cases hi : i = hashId n
  · rw [hi, Function.update_self]
  · rw [Function.update_of_ne hi]
    have hsame : slot₁ i = slot i := Function.update_of_ne hi ..
    rw [hsame]
    exact hfree i hi

/-- A connection that fails leaves nothing behind but the counter. -/
theorem alone_connect
    (hfree : ∀ i, (slot i).type = .invalid) (hmsb : (a + 1).msb = false) :
    ∃ slot' : ℕ → Socket Unit,
      Reaches State.step anyStep (alone slot a .idle)
          (alone slot' (a + 1) .idle) ∧
        ∀ i, (slot' i).type = .invalid := by
  have halloc : allocStep a (.inc 0) =
      (a + 1, some (.inr (.probe 0 (a + 1)))) := by
    rw [allocStep, if_neg (by decide)]
    dsimp only
    rw [hmsb]
    rfl
  have hcall : (alone slot a .idle).step (some (), .call (.open .connect)) =
      .next (alone slot a (.alloc .connect (.inc 0))) := by
    rw [← goto_alone slot a .idle]
    rfl
  obtain ⟨slot₁, htakes, hfree₁⟩ := alone_takes (a := a + 1) (n := a + 1) hfree
  obtain ⟨slot₂, hreturn, hfree₂⟩ := alone_reserve_free (a := a + 1)
    (r := .setUdp (a + 1)) rfl hfree₁
  obtain ⟨slot₃, hfails, hfree₃⟩ := alone_fails (a := a + 1) hfree₂
  refine ⟨slot₃, ?_, hfree₃⟩
  have hcalled : Reaches State.step anyStep (alone slot a .idle)
      (alone slot (a + 1) (.reserve .connect (.probe 0 (a + 1)))) :=
    .tail _ (.tail _ .refl trivial hcall) trivial (alone_alloc halloc)
  have hreturned := (hcalled.trans (reaches_of_exec htakes)).tail
    (some (), .go) trivial hreturn
  exact hreturned.trans (reaches_of_exec hfails)

/-- The counter comes to every number that is not negative. -/
theorem counter_reaches (n : ℕ) (hn : n < 0x80000000) :
    ∃ slot : ℕ → Socket Unit,
      Reaches State.step anyStep create (alone slot (BitVec.ofNat 32 n) .idle) ∧
        ∀ i, (slot i).type = .invalid := by
  induction n with
  | zero => exact ⟨fun _ => {}, .refl, fun _ => rfl⟩
  | succ n ih =>
      obtain ⟨slot, hreach, hfree⟩ := ih (by omega)
      have hnext : BitVec.ofNat 32 n + 1 = BitVec.ofNat 32 (n + 1) :=
        (BitVec.ofNat_add n 1).symm
      have hmsb : (BitVec.ofNat 32 n + 1).msb = false := by
        rw [hnext, BitVec.msb_eq_false_iff_two_mul_lt, BitVec.toNat_ofNat,
          Nat.mod_eq_of_lt (by omega)]
        omega
      obtain ⟨slot', hconnect, hfree'⟩ := alone_connect hfree hmsb
      rw [hnext] at hconnect
      exact ⟨slot', hreach.trans hconnect, hfree'⟩

end Alone

/-- After `2 ^ 31 - 1` connections that failed, `reserve_id` returns the id
`0`. -/
theorem zero_returned :
    ∃ s s' : State Unit, Reaches State.step anyStep create s ∧
      s.step (some (), .go) = .next s' ∧
      s.Returns s' (some ()) (some 0) ∧ ¬ 0 < (0 : Id).toInt := by
  obtain ⟨slot, hreach, hfree⟩ := counter_reaches 0x7fffffff (by omega)
  have hcall : (alone slot (0x7fffffff) .idle).step
      (some (), .call (.open .connect)) =
        .next (alone slot 0x7fffffff (.alloc .connect (.inc 0))) := by
    rw [← goto_alone slot 0x7fffffff .idle]
    rfl
  have hinc : (alone slot 0x7fffffff (.alloc .connect (.inc 0))).step
      (some (), .go) =
        .next (alone slot 0x80000000 (.alloc .connect (.mask 0))) :=
    alone_alloc rfl
  have hmask : (alone slot 0x80000000 (.alloc .connect (.mask 0))).step
      (some (), .go) =
        .next (alone slot 0 (.reserve .connect (.probe 0 0))) :=
    alone_alloc rfl
  obtain ⟨slot₁, htakes, hfree₁⟩ := alone_takes (a := 0) (n := 0) hfree
  obtain ⟨slot₂, hreturn, -⟩ := alone_reserve_free (a := 0)
    (r := .setUdp 0) rfl hfree₁
  refine ⟨_, _, ?_, hreturn, rfl, by decide⟩
  have hcalled := hreach.tail _ trivial hcall
  have hprobe := (hcalled.tail _ trivial hinc).tail _ trivial hmask
  exact hprobe.trans (reaches_of_exec htakes)

end State

end SkynetServer.SocketServer
