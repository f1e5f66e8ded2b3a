import Mathlib.Data.Int.Notation
import SkynetServer.Support.Transition

/-!
# Shared transactional objects

The functions of `lua-stm.c` on one `struct stm_object` and its copies, with
the read-write lock of `rwlock.h`.  The service that has created the object is
its only writer; each other service has at most one box for it, and is a
reader.

A step is one access to shared memory: one test of a flag, one change of a
counter or of a pointer, one `skynet_free`.  A step that follows a pointer to
memory that has been freed is a fault, and so is a failed assertion.  Hence
whatever is freed twice is a fault, too.

The texts of the copies are left out: a copy stands for its message.
-/

namespace SkynetServer.Stm

open Transition Function

variable {τ : Type*}

inductive Fault where
  /-- The `struct stm_object` has been freed. -/
  | freedObject
  /-- A `struct stm_copy` has been freed. -/
  | freedCopy
  | assertion
  deriving DecidableEq, Repr

/-- `struct stm_copy` -/
structure Copy where
  reference : ℤ := 0
  freed : Bool := false
  deriving DecidableEq, Repr

/-- What the read lock is taken for. -/
inductive Reading where
  /-- `stm_grab` -/
  | grab
  /-- `stm_copy` -/
  | copy
  /-- `stm_releasereader` -/
  | release
  deriving DecidableEq, Repr

/-- What the write lock is taken for. -/
inductive Writing where
  /-- `stm_update` with the new copy. -/
  | update (c : ℕ)
  /-- `stm_release` -/
  | release
  deriving DecidableEq, Repr

/-- Where an agent goes on after `stm_releasecopy`. -/
inductive Next where
  | ready
  /-- The box has been deleted. -/
  | gone
  /-- In `lread` with a new copy. -/
  | use (c : ℕ)
  deriving DecidableEq, Repr

inductive Pos where
  /-- Between the calls. -/
  | ready
  /-- Without a box. -/
  | gone
  /-- `rwlock_rlock` in the loop on `lock->write`. -/
  | rlock (j : Reading)
  /-- `rwlock_rlock` before `lock->read` is increased. -/
  | rinc (j : Reading)
  /-- `rwlock_rlock` before the second test of `lock->write`. -/
  | rcheck (j : Reading)
  /-- `rwlock_rlock` before `lock->read` is decreased. -/
  | rback (j : Reading)
  /-- `stm_grab` before `ATOM_FINC(&obj->reference)`. -/
  | grabInc
  /-- `stm_grab` before `rwlock_runlock`. -/
  | grabUnlock (ref : ℤ)
  /-- `stm_copy` before `obj->copy` is read.  `seen` is the copy of the latest
  update when the lock was taken. -/
  | load (seen : Option ℕ)
  /-- `stm_copy` before `ATOM_FINC(&ret->reference)`. -/
  | copyInc (seen : Option ℕ) (c : ℕ)
  /-- `stm_copy` before `rwlock_runlock`. -/
  | copyUnlock (seen ret : Option ℕ)
  /-- `lread` before `copy->msg` and `copy->sz` are read. -/
  | use (c : ℕ)
  /-- `stm_releasereader` before `ATOM_DEC(&obj->reference)`. -/
  | readerDec
  /-- `stm_releasereader` of the last reader, before `skynet_free(obj)`. -/
  | readerFree
  /-- `stm_releasereader` before `rwlock_runlock`. -/
  | readerUnlock
  /-- `stm_releasecopy` before `ATOM_DEC(&copy->reference)`. -/
  | dec (c : ℕ) (n : Next)
  /-- `stm_releasecopy` before `skynet_free(copy)`. -/
  | free (c : ℕ) (n : Next)
  /-- `rwlock_wlock` in the loop on `lock->write`. -/
  | wlock (j : Writing)
  /-- `rwlock_wlock` in the loop on `lock->read`. -/
  | wwait (j : Writing)
  /-- `stm_update` before `obj->copy` is exchanged for the new copy. -/
  | swap (c : ℕ)
  /-- `stm_update` before `rwlock_wunlock`, with the old copy. -/
  | updateUnlock (old : Option ℕ)
  /-- `stm_release` in `stm_releasecopy(obj->copy)`. -/
  | lastDec
  /-- The same before `skynet_free(copy)`. -/
  | lastFree (c : ℕ)
  /-- `stm_release` before `obj->copy = NULL`. -/
  | clear
  /-- `stm_release` before `--obj->reference`. -/
  | writerDec
  /-- `stm_release` before `rwlock_wunlock`. -/
  | writerUnlock
  /-- `stm_release` before `skynet_free(obj)`. -/
  | writerFree
  deriving DecidableEq, Repr

/-- A service with a box for the object. -/
structure Agent where
  pos : Pos
  /-- `box->lastcopy` of a reader. -/
  last : Option ℕ := none
  deriving DecidableEq, Repr

/-- The object, its copies, and the services: the writer `none` and the
readers. -/
structure State (τ : Type*) where
  /-- `obj->lock.write` -/
  write : Bool
  /-- `obj->lock.read` -/
  read : ℤ
  /-- `obj->reference` -/
  reference : ℤ
  /-- `obj->copy` -/
  copy : Option ℕ
  /-- The object has been freed. -/
  freed : Bool
  copies : ℕ → Copy
  /-- The number of copies that have been allocated. -/
  allocated : ℕ
  /-- References of `stm_grab` that are on their way to `lnewreader`. -/
  passed : ℕ
  /-- The copy installed by the latest completed update. -/
  latest : Option ℕ
  agent : Option τ → Agent

/-- The functions of the Lua interface. -/
inductive Api where
  /-- `lupdate` -/
  | update
  /-- `ldeletewriter` -/
  | release
  /-- `lcopy` -/
  | grab
  /-- `lread` -/
  | read
  /-- `ldeletereader` -/
  | delete
  /-- `lnewreader` -/
  | box
  deriving DecidableEq, Repr

inductive Act where
  | call (a : Api)
  | go
  deriving DecidableEq, Repr

def Next.pos : Next → Pos
  | .ready => .ready
  | .gone => .gone
  | .use c => .use c

/-- `stm_releasecopy` -/
def releasecopy (c : Option ℕ) (n : Next) : Pos :=
  match c with
  | none => n.pos
  | some c => .dec c n

/-- Where an agent goes on when it has got the read lock. -/
def Reading.start (latest : Option ℕ) : Reading → Pos
  | .grab => .grabInc
  | .copy => .load latest
  | .release => .readerDec

/-- Where the writer goes on when it has got the write lock. -/
def Writing.start : Writing → Pos
  | .update c => .swap c
  | .release => .lastDec

/-- `lread` after `stm_copy`. -/
def Agent.afterCopy (a : Agent) (ret : Option ℕ) : Agent :=
  if ret = a.last then { a with pos := releasecopy ret .ready }
  else
    { pos := releasecopy a.last
        (match ret with
        | some c => .use c
        | none => .ready)
      last := ret }

/-- `ldeletereader` after `stm_releasereader`. -/
def Agent.afterRelease (a : Agent) : Agent where
  pos := releasecopy a.last .gone
  last := none

namespace State

/-- `stm_new`, called by the writer. -/
def create : State τ where
  write := false
  read := 0
  reference := 1
  copy := some 0
  freed := false
  copies := fun c => if c = 0 then { reference := 1 } else {}
  allocated := 1
  passed := 0
  latest := some 0
  agent := fun t => ⟨if t.isNone then .ready else .gone, none⟩

section Steps

variable [DecidableEq τ] (s : State τ)

def become (t : Option τ) (a : Agent) : State τ :=
  { s with agent := update s.agent t a }

def goto (t : Option τ) (p : Pos) : State τ :=
  s.become t { s.agent t with pos := p }

/-- An access to the object. -/
def onObject (s' : State τ) : Outcome Fault (State τ) :=
  if s.freed then .fault .freedObject else .next s'

def setCopy (c : ℕ) (k : Copy) : State τ :=
  { s with copies := update s.copies c k }

/-- `ATOM_DEC(&copy->reference)`: the copy is freed next if it was the last
reference. -/
def decCopy (t : Option τ) (c : ℕ) (free n : Pos) : Outcome Fault (State τ) :=
  if (s.copies c).freed then .fault .freedCopy
  else
    let r := (s.copies c).reference - 1
    .next ((s.setCopy c { s.copies c with reference := r }).goto t
      (if r = 0 then free else n))

/-- `skynet_free(copy->msg)` and `skynet_free(copy)`. -/
def freeCopy (t : Option τ) (c : ℕ) (n : Pos) : Outcome Fault (State τ) :=
  if (s.copies c).freed then .fault .freedCopy
  else .next ((s.setCopy c { s.copies c with freed := true }).goto t n)

/-- A call of the Lua interface.  Any service with a reference may call
`stm_grab`; the others belong to the writer or to a reader. -/
def stepCall (t : Option τ) (a : Api) : Outcome Fault (State τ) :=
  match a, t with
  | .update, none =>
    .next (goto
      { s with
        copies := update s.copies s.allocated { reference := 1 }
        allocated := s.allocated + 1 }
      t (.wlock (.update s.allocated)))
  | .release, none =>
    if s.freed then .fault .freedObject
    else if s.copy = none then .fault .assertion
    else .next (s.goto t (.wlock .release))
  | .grab, _ => .next (s.goto t (.rlock .grab))
  | .read, some _ => .next (s.goto t (.rlock .copy))
  | .delete, some _ => .next (s.goto t (.rlock .release))
  | _, _ => .blocked

/-- `lnewreader` with a reference that `stm_grab` has taken. -/
def stepBox (t : Option τ) (a : Act) : Outcome Fault (State τ) :=
  match t with
  | none => .blocked
  | some _ =>
    if a = .call .box ∧ 0 < s.passed then
      .next (become { s with passed := s.passed - 1 } t ⟨.ready, none⟩)
    else .blocked

/-- `ATOM_FINC(&ret->reference)` and the assertion behind it. -/
def stepCopyInc (t : Option τ) (seen : Option ℕ) (c : ℕ) :
    Outcome Fault (State τ) :=
  if (s.copies c).freed then .fault .freedCopy
  else if (s.copies c).reference ≤ 0 then .fault .assertion
  else
    .next ((s.setCopy c
      { s.copies c with reference := (s.copies c).reference + 1 }).goto t
        (.copyUnlock seen (some c)))

/-- A step of an agent in a function. -/
def stepGo (t : Option τ) : Outcome Fault (State τ) :=
  match (s.agent t).pos with
  | .ready | .gone => .blocked
  | .rlock j => s.onObject (if s.write then s else s.goto t (.rinc j))
  | .rinc j => s.onObject (goto { s with read := s.read + 1 } t (.rcheck j))
  | .rcheck j =>
    s.onObject (s.goto t (if s.write then .rback j else j.start s.latest))
  | .rback j => s.onObject (goto { s with read := s.read - 1 } t (.rlock j))
  | .grabInc =>
    s.onObject (goto { s with reference := s.reference + 1 } t
      (.grabUnlock s.reference))
  | .grabUnlock ref =>
    if s.freed then .fault .freedObject
    else if ref ≤ 0 then .fault .assertion
    else
      .next (goto { s with read := s.read - 1, passed := s.passed + 1 } t
        .ready)
  | .load seen =>
    s.onObject (s.goto t
      (match s.copy with
      | none => .copyUnlock seen none
      | some c => .copyInc seen c))
  | .copyInc seen c => s.stepCopyInc t seen c
  | .copyUnlock _ ret =>
    s.onObject (become { s with read := s.read - 1 } t
      ((s.agent t).afterCopy ret))
  | .use c =>
    if (s.copies c).freed then .fault .freedCopy else .next (s.goto t .ready)
  | .readerDec =>
    s.onObject (goto { s with reference := s.reference - 1 } t
      (if s.reference - 1 = 0 then .readerFree else .readerUnlock))
  | .readerFree =>
    if s.freed then .fault .freedObject
    else if s.copy ≠ none then .fault .assertion
    else
      .next (become { s with freed := true } t (s.agent t).afterRelease)
  | .readerUnlock =>
    s.onObject (become { s with read := s.read - 1 } t
      (s.agent t).afterRelease)
  | .dec c n => s.decCopy t c (.free c n) n.pos
  | .free c n => s.freeCopy t c n.pos
  | .wlock j =>
    s.onObject
      (if s.write then s else goto { s with write := true } t (.wwait j))
  | .wwait j => s.onObject (if s.read ≠ 0 then s else s.goto t j.start)
  | .swap c =>
    s.onObject (goto { s with copy := some c } t (.updateUnlock s.copy))
  | .updateUnlock old =>
    s.onObject (goto { s with write := false, latest := s.copy } t
      (releasecopy old .ready))
  | .lastDec =>
    if s.freed then .fault .freedObject
    else
      match s.copy with
      | none => .next (s.goto t .clear)
      | some c => s.decCopy t c (.lastFree c) .clear
  | .lastFree c => s.freeCopy t c .clear
  | .clear => s.onObject (goto { s with copy := none } t .writerDec)
  | .writerDec =>
    s.onObject (goto { s with reference := s.reference - 1 } t
      (if s.reference - 1 > 0 then .writerUnlock else .writerFree))
  | .writerUnlock =>
    s.onObject (goto { s with write := false, latest := s.copy } t .gone)
  | .writerFree => s.onObject (goto { s with freed := true } t .gone)

/-- A step of an agent. -/
def step (l : Option τ × Act) : Outcome Fault (State τ) :=
  match (s.agent l.1).pos, l.2 with
  | .ready, .call a => s.stepCall l.1 a
  | .gone, a => s.stepBox l.1 a
  | _, .go => s.stepGo l.1
  | _, .call _ => .blocked

end Steps

end State

end SkynetServer.Stm
