import Mathlib.Logic.Function.Basic
import Mathlib.Data.Nat.Notation

/-!
# The handle storage of `skynet_handle.c`

A handle is 24 bits, never zero, below the eight bits of the harbor.  The
storage is a table of contexts indexed by the low bits of their handles,
which doubles when a registration finds no free slot.

The table reads the handle of a context from the context itself, so the
operations take the current contents of `ctx->handle` as the function
`handleOf`.  Each definition is the part of its source function that runs
under the storage's lock; taking and dropping references is left to the
callers.
-/

namespace SkynetServer.Handle

/-- `HANDLE_MASK` -/
def handleMask : ℕ := 0xffffff

/-- `HANDLE_REMOTE_SHIFT` -/
def handleRemoteShift : ℕ := 24

/-- `DEFAULT_SLOT_SIZE` -/
def defaultSlotSize : ℕ := 4

/-- The address of a `struct skynet_context`. -/
abbrev Ctx := ℕ

/-- `struct handle_name` -/
structure HandleName where
  name : String
  handle : ℕ
  deriving DecidableEq, Repr

/-- `struct handle_storage`.  The slots at `slotSize` and above are not part
of the array. -/
structure HandleStorage where
  harbor : ℕ
  handleIndex : ℕ
  slotSize : ℕ
  slot : ℕ → Option Ctx
  name : List HandleName

/-- Ways in which a registration does not return: the rehash loop follows a
null slot, or one of the two assertions fails. -/
inductive Fault where
  | nullContext
  | newSlotOccupied
  | slotLimit
  deriving DecidableEq, Repr

/-- `skynet_handle_init` -/
def handleInit (harbor : ℕ) : HandleStorage where
  harbor := (harbor &&& 0xff) <<< handleRemoteShift
  handleIndex := 1
  slotSize := defaultSlotSize
  slot := fun _ => none
  name := []

/-- Index of a handle in the table. -/
def HandleStorage.hash (s : HandleStorage) (handle : ℕ) : ℕ :=
  handle &&& (s.slotSize - 1)

/-- The probe loop of `skynet_handle_register` with `n` iterations left: the
first handle whose slot is free. -/
def probe (s : HandleStorage) : ℕ → ℕ → Option ℕ
  | 0, _ => none
  | n + 1, handle =>
    -- 0 is reserved
    let handle := if handle > handleMask then 1 else handle
    if s.slot (s.hash handle) = none then some handle
    else probe s n (handle + 1)

/-- The loop that fills the doubled table, with `n` slots left from `i`. -/
def rehash
    (handleOf : Ctx → ℕ) (s : HandleStorage) :
    ℕ → ℕ → (ℕ → Option Ctx) → Except Fault (ℕ → Option Ctx)
  | 0, _, newSlot => .ok newSlot
  | n + 1, i, newSlot =>
    match s.slot i with
    | none => .error .nullContext
    | some ctx =>
      let hash := handleOf ctx &&& (s.slotSize * 2 - 1)
      if newSlot hash = none then
        rehash handleOf s n (i + 1)
          (Function.update newSlot hash (some ctx))
      else .error .newSlotOccupied

/-- A free slot is taken under the handle that the probe found. -/
def HandleStorage.occupy
    (s : HandleStorage) (handle : ℕ) (ctx : Ctx) : HandleStorage :=
  { s with
    slot := Function.update s.slot (s.hash handle) (some ctx)
    handleIndex := handle + 1 }

/-- The outer loop of `skynet_handle_register`.  Every round that does not
return doubles the table, which the first assertion keeps within `2 ^ 24`
slots, so the loop has fewer than 25 rounds. -/
def registerLoop (handleOf : Ctx → ℕ) (ctx : Ctx) :
    ℕ → HandleStorage → Except Fault (HandleStorage × ℕ)
  | 0, _ => .error .slotLimit
  | n + 1, s =>
    match probe s s.slotSize s.handleIndex with
    | some handle => .ok (s.occupy handle ctx, handle ||| s.harbor)
    | none =>
      if s.slotSize * 2 - 1 ≤ handleMask then
        match rehash handleOf s s.slotSize 0 (fun _ => none) with
        | .ok newSlot =>
          registerLoop handleOf ctx n
            { s with slot := newSlot, slotSize := s.slotSize * 2 }
        | .error f => .error f
      else .error .slotLimit

/-- `skynet_handle_register`: the storage and the handle it returns. -/
def handleRegister
    (handleOf : Ctx → ℕ) (s : HandleStorage) (ctx : Ctx) :
    Except Fault (HandleStorage × ℕ) :=
  registerLoop handleOf ctx 25 s

/-- The lookup shared by `skynet_handle_grab` and `skynet_handle_retire`. -/
def handleFind
    (handleOf : Ctx → ℕ) (s : HandleStorage) (handle : ℕ) : Option Ctx :=
  match s.slot (s.hash handle) with
  | some ctx => if handleOf ctx = handle then some ctx else none
  | none => none

/-- `skynet_handle_grab`, whose result gains a reference. -/
def handleGrab
    (handleOf : Ctx → ℕ) (s : HandleStorage) (handle : ℕ) : Option Ctx :=
  handleFind handleOf s handle

/-- `skynet_handle_retire`: the storage and the context which the caller
releases after unlocking.  The names of the handle are removed. -/
def handleRetire
    (handleOf : Ctx → ℕ) (s : HandleStorage) (handle : ℕ) :
    HandleStorage × Option Ctx :=
  match handleFind handleOf s handle with
  | some ctx =>
    ({ s with
        slot := Function.update s.slot (s.hash handle) none
        name := s.name.filter fun n => n.handle ≠ handle },
      some ctx)
  | none => (s, none)

end SkynetServer.Handle
