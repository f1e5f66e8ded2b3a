import SkynetServer.Coroutine.Drain

/-!
# Calls of a service that is gone

When the queue of a service is released, `drop_message` sends an error with
session 0 and the handle of the service to every sender.  The sender fails
the calls whose entry of `watching_session` is that handle.  A call by a name
has the name there, so it goes on waiting.
-/

namespace SkynetServer.Coroutine

open Transition

/-- A step while a message is handled. -/
def within (s : State) (l : Label) : Prop :=
  stays s l ∧ ∀ message, l ≠ .message message

/-- A handle is the address of the service that the call was sent to. -/
def Addressed (s : State) : Prop :=
  ∀ co w handle dest, s.status co = .waiting w →
    w.kind = .call (.handle handle) dest → dest = handle

section Waiting

variable {s s' : State} {co : ℕ} {w : Wait}

/-- A coroutine that is created does not wait. -/
theorem ne_of_canCreate
    (hco : s.status co = .waiting w) {other : ℕ}
    (hcreate : s.canCreate other = true) : co ≠ other := by
  rintro rfl
  exact (free_of_canCreate hcreate).1 w hco

/-- The running coroutine does not wait. -/
theorem Inv.ne_of_run
    (hinv : Inv s) (hco : s.status co = .waiting w) {other : ℕ}
    (hrun : s.control = .run other) : co ≠ other := by
  rintro rfl
  cases ((hinv.running co).mpr hrun).symm.trans hco

/-- An operation of the running coroutine leaves the others waiting. -/
theorem opMove_waiting
    (hinv : Inv s) {other : ℕ} (hrun : s.control = .run other) {op : Op}
    (hmove : OpMove s other op s') (hco : s.status co = .waiting w) :
    s'.status co = .waiting w ∧ s'.errorQueue = s.errorQueue := by
  have hne := hinv.ne_of_run hco hrun
  cases hmove with
  | wakeup _ _ | noWakeup _ => exact ⟨hco, rfl⟩
  | fork hcreate | timeout hcreate =>
      have hne' := ne_of_canCreate hco hcreate
      exact ⟨(Function.update_of_ne hne' _ _).trans hco, rfl⟩
  | sleep _ | wait _ | call | finish =>
      exact ⟨(Function.update_of_ne hne _ _).trans hco, rfl⟩
  | error hcreate =>
      have hne' := ne_of_canCreate hco hcreate
      refine ⟨(Function.update_of_ne hne' _ _).trans ?_, rfl⟩
      exact (Function.update_of_ne hne _ _).trans hco
  | exit =>
      have hstatus : Function.update s.status other Status.quit co =
          .waiting w := (Function.update_of_ne hne _ _).trans hco
      rw [State.suspendReturn]
      cases s.frames with
      | zero | succ frames => exact ⟨hstatus, rfl⟩

end Waiting

/-! ## Calls fail -/

section Fails

variable {s t : State} {co : ℕ} {w : Wait} {service : Address}
  {dest : BitVec 32}

end Fails

/-! ## The address of a call -/

section Begin

variable {s s' : State} {co : ℕ} {w : Wait}

end Begin

/-! ## An error of a service that is gone -/

section Single

variable {s : State} {source : BitVec 32} {session : ℕ}

end Single

end SkynetServer.Coroutine
