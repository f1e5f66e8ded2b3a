import SkynetServer.SocketServer.Views

/-!
# The lock of a slot

At most one thread is inside the lock `dw_lock` of a slot, and the lock is
taken while one is.
-/

namespace SkynetServer.SocketServer

open Transition

variable {τ : Type*}

/-- Positions of a worker inside the lock of its slot. -/
def WPc.locked : WPc τ → Bool
  | .check locked _ _ => locked
  | .write _ | .setDw _ _ | .enable _ | .unlock _ | .retry _ => true
  | .udpConnect _ u => u.locked
  | _ => false

/-- Positions of the socket thread inside the lock of its slot. -/
def SPc.locked : SPc τ → Bool
  | .takeDw _ | .sendList _ _ | .raise _ | .turnOff _ | .sent _ | .unlock _ _
  | .invalidate _ _ | .freeDw _ _ | .closeUnlock _ _ => true
  | .freeHigh _ held _ | .freeLow _ held _ | .del _ held _
  | .closeLock _ held _ => held
  | _ => false

/-- A step keeps the lock and stays inside or outside, enters it, or leaves
it. -/
inductive Handover : Bool → Bool → Bool → Bool → Prop
  | same (inside lock : Bool) : Handover inside inside lock lock
  | enter : Handover false true false true
  | leave (lock : Bool) : Handover true false lock false

theorem Handover.elim
    {inside inside' lock lock' : Bool} (h : Handover inside inside' lock lock') :
    (inside' = inside ∧ lock' = lock) ∨
      (inside = false ∧ inside' = true ∧ lock = false ∧ lock' = true) ∨
      (inside = true ∧ inside' = false ∧ lock' = false) := by
  cases h with
  | same inside lock => exact .inl ⟨rfl, rfl⟩
  | enter => exact .inr (.inl ⟨rfl, rfl, rfl, rfl⟩)
  | leave lock => exact .inr (.inr ⟨rfl, rfl, rfl⟩)

theorem queue_locked (c : Call τ) : (queue c).home.locked = false := by
  rcases queue_home c with h | h <;> rw [h] <;> rfl

theorem afterWrite_locked (c : Call τ) (n : ℕ) :
    (afterWrite c n).home.locked = true := by
  rcases afterWrite_cases c n with h | h <;> rw [h] <;> rfl

theorem afterTest_locked (locked : Bool) (c : Call τ) (t : Test) :
    (afterTest locked c t).home.locked = locked := by
  rcases afterTest_cases locked c t with ⟨t', -, h⟩ | ⟨-, h⟩
  · rw [h]
    rfl
  · rw [h]
    cases locked <;> rfl

theorem rstep_lock
    {k k' : Socket τ} {r : Reserve} {out : Reserve ⊕ Alloc ⊕ Id}
    (h : RStep k r k' out) : k'.lock = k.lock := by
  cases h <;> rfl

theorem wstep_lock
    {k k' : Socket τ} {p p' : WPc τ} (h : WStep k p k' p') :
    Handover p.locked p'.home.locked k.lock k'.lock := by
  cases h
  case reserve o r out h =>
    rw [rstep_lock h]
    rcases out with r | n | id <;> exact .same false _
  case accept c h =>
    rcases afterEntry_cases c with hc | hc <;> rw [hc] <;> exact .same false _
  case pass locked c t h =>
    rw [afterTest_locked]
    exact .same locked _
  case fail c t | busy c =>
    rw [queue_locked]
    exact .same false _
  case trylock c hfree | udpLock id hfree =>
    rw [hfree]
    exact .enter
  case write c n _ _ _ | sendto c n _ =>
    rw [afterWrite_locked]
    exact .same true _
  case unlock id => exact .leave _
  case retry c =>
    rw [queue_locked]
    exact .leave _
  case udpQuiet id u u' hu =>
    have h : (WPc.udpConnect (τ := τ) id u').home.locked = u.locked := hu
    rw [h]
    exact .same u.locked _
  case udpUnlock id u hu | udpUnlockReturn id u hu =>
    have h : (WPc.udpConnect (τ := τ) id u).locked = true := hu
    rw [h]
    exact .leave _
  case udpReturn id u hu =>
    have h : (WPc.udpConnect (τ := τ) id u).locked = false := hu
    rw [h]
    exact .same false _
  all_goals first | exact .same false _ | exact .same true _

theorem append_lock (k : Socket τ) (low : Bool) (b : WriteBuffer τ) :
    (k.append low b).warn.lock = k.lock := by
  unfold Socket.warn Socket.append
  split <;> split <;> rfl

theorem sstep_lock
    {k k' : Socket τ} {p p' : SPc τ} (h : SStep k p k' p') :
    Handover p.locked p'.home.locked k.lock k'.lock := by
  have hends {q : SPc τ} (hq : q.Ends) : q.home.locked = false :=
    hq.role SPc.locked rfl
  have hsend (c : Call τ) (r : Option Report) :
      (afterSend c r).home.locked = false :=
    afterSend_role SPc.locked c r rfl rfl
  have hbuffer (f : Caller) (r : Option Report) :
      (afterBuffer (τ := τ) f r).home.locked = false :=
    afterBuffer_role SPc.locked f r rfl (fun _ => rfl) fun _ => rfl
  have hlist (k : Socket τ) (f : Caller) (low : Bool) :
      (afterList k f low).home.locked = true :=
    afterList_role SPc.locked k f low rfl rfl rfl rfl
  cases h
  case cmdEnd hq | openFailed hq | acceptEnd hq =>
    rw [hends hq]
    exact .same false _
  case drop c r | sendEnable c r =>
    rw [hsend]
    exact .same false _
  case queueFirst c low _ r _ _ _ _ _ =>
    rw [append_lock]
    exact .same false _
  case queue c _ r _ _ _ _ =>
    rw [append_lock, hsend]
    exact .same false _
  case setType id n =>
    rw [afterType_role SPc.locked id n rfl rfl rfl]
    exact .same false _
  case decOther c r _ | dec c r _ _ | decUdp c r _ =>
    rw [finish_home]
    exact .same false _
  case busy f =>
    rw [hbuffer]
    exact .same false _
  case lock f hfree | closeLock i f hfree =>
    rw [hfree]
    exact .enter
  case takeDw f =>
    have h : k.takeDw.lock = k.lock := by
      unfold Socket.takeDw
      split <;> rfl
    rw [h]
    exact .same true _
  case listEnd f low =>
    rw [hlist]
    exact .same true _
  case sendAll f low b rest _ _ | udpSend f low b rest _ _ =>
    cases low <;> exact .same true _
  case sendPart f low b rest n _ _ _ | udpDrop f low b rest _ _ =>
    rw [hlist]
    cases low <;> exact .same true _
  case unlock f r =>
    rw [hbuffer]
    exact .leave _
  case freeHigh i held f _ _ => exact .same held _
  case freeInvalid i f _ =>
    rw [afterClose_home]
    exact .same false _
  case freeLow i held f => exact .same held _
  case del i held f =>
    unfold stepDel
    split <;> exact .same held _
  case closeUnlock i f =>
    rw [afterClose_home]
    exact .leave _
  case reserve listener r out h =>
    rw [rstep_lock h]
    rcases out with r | n | id <;> exact .same false _
  all_goals first | exact .same false _ | exact .same true _

/-- At most one thread is inside the lock. -/
structure Exclusive (k : Socket τ) (p : SPc τ) (ws : τ → WPc τ) : Prop where
  worker : ∀ w, (ws w).locked = true → k.lock = true ∧ p.locked = false
  server : p.locked = true → k.lock = true
  unique : ∀ w v, (ws w).locked = true → (ws v).locked = true → v = w

/-- No worker is inside the lock while the socket thread is. -/
theorem Exclusive.worker_outside
    {k : Socket τ} {p : SPc τ} {ws : τ → WPc τ}
    (h : Exclusive k p ws) (hp : p.locked = true) (v : τ) :
    (ws v).locked = false := by
  by_contra hv
  rw [Bool.not_eq_false] at hv
  rw [(h.worker v hv).2] at hp
  cases hp

section Stability

variable [DecidableEq τ] {k k' : Socket τ} {p : SPc τ} {ws : τ → WPc τ} {w : τ}

/-- A worker changes its position without touching the lock. -/
theorem Exclusive.goto
    (h : Exclusive k p ws) {q : WPc τ} (hq : q.locked = (ws w).locked)
    (hlock : k'.lock = k.lock) :
    Exclusive k' p (Function.update ws w q) := by
  have hview (v : τ) : (Function.update ws w q v).locked = (ws v).locked := by
    by_cases hv : v = w
    · rw [hv, Function.update_self, hq]
    · rw [Function.update_of_ne hv]
  refine ⟨fun v hv => ?_, fun hp => ?_, fun v u hv hu => ?_⟩
  · rw [hview] at hv
    rw [hlock]
    exact h.worker v hv
  · rw [hlock]
    exact h.server hp
  · rw [hview] at hv hu
    exact h.unique v u hv hu

theorem Exclusive.enter
    (h : Exclusive k p ws) {q : WPc τ} (hfree : k.lock = false)
    (hlock : k'.lock = true) :
    Exclusive k' p (Function.update ws w q) := by
  have hothers (v : τ) : (ws v).locked = false := by
    by_contra hv
    rw [Bool.not_eq_false] at hv
    rw [(h.worker v hv).1] at hfree
    cases hfree
  have hserver : p.locked = false := by
    by_contra hp
    rw [Bool.not_eq_false] at hp
    rw [h.server hp] at hfree
    cases hfree
  have honly (v : τ) (hv : (Function.update ws w q v).locked = true) :
      v = w := by
    by_contra hne
    rw [Function.update_of_ne hne, hothers] at hv
    cases hv
  refine ⟨fun v _ => ⟨hlock, hserver⟩, fun hp => ?_, fun v u hv hu => ?_⟩
  · rw [hp] at hserver
    cases hserver
  · rw [honly v hv, honly u hu]

theorem Exclusive.leave
    (h : Exclusive k p ws) {q : WPc τ} (hw : (ws w).locked = true)
    (hq : q.locked = false) :
    Exclusive k' p (Function.update ws w q) := by
  have hnone (v : τ) : (Function.update ws w q v).locked = false := by
    by_cases hv : v = w
    · rw [hv, Function.update_self, hq]
    · rw [Function.update_of_ne hv]
      by_contra hlocked
      rw [Bool.not_eq_false] at hlocked
      exact hv (h.unique w v hw hlocked)
  refine ⟨fun v hv => ?_, fun hp => ?_, fun v u hv _ => ?_⟩
  · rw [hnone] at hv
    cases hv
  · rw [(h.worker w hw).2] at hp
    cases hp
  · rw [hnone] at hv
    cases hv

theorem stable_exclusive (ok : Condition τ) :
    Stable ok (Exclusive (τ := τ)) where
  worker := by
    intro k k' p ws w p' _ h _ hs
    rcases (wstep_lock hs).elim with ⟨hq, hlock⟩ | ⟨-, -, hfree, hlock⟩ |
      ⟨hw, hq, -⟩
    · exact h.goto hq hlock
    · exact h.enter hfree hlock
    · exact h.leave hw hq
  server := by
    intro k k' p p' ws _ h _ hs
    rcases (sstep_lock hs).elim with ⟨hq, hlock⟩ | ⟨-, hin, hfree, hlock⟩ |
      ⟨hin, hq, hlock⟩
    · refine ⟨fun v hv => ?_, fun hp => ?_, h.unique⟩
      · rw [hlock, hq]
        exact h.worker v hv
      · rw [hlock]
        exact h.server (hq ▸ hp)
    · refine ⟨fun v hv => ?_, fun _ => hlock, h.unique⟩
      rw [(h.worker v hv).1] at hfree
      cases hfree
    · refine ⟨fun v hv => ?_, fun hp => ?_, h.unique⟩
      · rw [h.worker_outside hin v] at hv
        cases hv
      · rw [hq] at hp
        cases hp
  workerEnters := by
    intro k p ws w p' h hw hp
    refine h.goto ?_ rfl
    rw [hw]
    cases hp <;> rfl
  serverEnters := by
    intro k p' ws h hp
    have hout : p'.locked = false := by cases hp <;> rfl
    refine ⟨fun v hv => ⟨(h.worker v hv).1, hout⟩, fun hin => ?_, h.unique⟩
    rw [hout] at hin
    cases hin

end Stability

theorem exclusive_create (i : ℕ) :
    (State.create : State τ).At Exclusive i := by
  have hidle (w : τ) : (State.create : State τ).workersAt i w = .idle :=
    WPc.seen_of_ne (Option.some_ne_none i).symm
  refine ⟨fun w hw => ?_, fun hp => ?_, fun w v hw _ => ?_⟩
  · rw [hidle] at hw
    cases hw
  · cases hp
  · rw [hidle] at hw
    cases hw

end SkynetServer.SocketServer
