import Mathlib.Data.List.Basic

/-!
# Shared tables

The conversion of a Lua table to C structures by `lnewconf` of
`lua-sharedata.c`.  The array part has as many elements as `lua_rawlen` returns,
and the hash part has as many slots as there are other keys.
-/

namespace SkynetServer.Sharedata

/-- A key of a Lua table.  A float that is a key has no integer value.  A table
and any other value, such as a boolean, are only told apart from each other. -/
inductive Key where
  | integer (k : BitVec 64)
  | float (bits : BitVec 64)
  | string (str : List UInt8)
  | table (id : ℕ)
  | other (id : ℕ)
  deriving DecidableEq, Repr

/-- A Lua value.  The entries of a table stand in the order of `lua_next`, with
the border that `lua_rawlen` returns. -/
inductive Value where
  | integer (d : BitVec 64)
  | real (bits : BitVec 64)
  | string (str : List UInt8)
  | boolean (b : Bool)
  | table (border : ℕ) (entries : List (Key × Value))
  | other (id : ℕ)

abbrev Entries := List (Key × Value)

def rawget (es : Entries) (k : Key) : Option Value :=
  (es.find? fun e => e.1 = k).map Prod.snd

inductive Failure where
  | invalidKey
  | unsupported
  | memory
  | tooDeep
  | assertion
  | undefined
  | unending
  | notString
  deriving DecidableEq, Repr

/-- `key` and `keytype` of a node -/
inductive NodeKey where
  | integer (key : BitVec 32)
  | string (index : ℕ)
  deriving DecidableEq, Repr

/-- `struct node`.  A slot that holds no value has no node, as the other fields
of it are not set. -/
structure Node (α : Type) where
  value : α
  key : NodeKey
  next : Option ℕ
  keyhash : BitVec 32
  nocolliding : Bool

/-- `struct table` -/
structure Table (α : Type) where
  sizearray : ℕ
  array : ℕ → α
  sizehash : ℕ
  hash : ℕ → Option (Node α)

/-- `union value` with the type that is kept beside it -/
inductive Stored where
  | nil
  | real (n : BitVec 64)
  | string (index : ℕ)
  | boolean (b : Bool)
  | table (tbl : Table Stored)
  | integer (d : BitVec 64)

def Stored.isNil : Stored → Bool
  | .nil => true
  | _ => false

/-- The strings, from the index 2 on. -/
abbrev Strings := List (List UInt8)

/-- The string at an index of the stack of `tbl->L`. -/
def stringAt (sL : Strings) (index : ℕ) : List UInt8 := sL.getD (index - 2) []

/-! ## Keys -/

/-- The cast of a `lua_Integer` to `int`. -/
def narrow (k : BitVec 64) : BitVec 32 := k.setWidth 32

def calchashLoop (str : List UInt8) (step : ℕ) :
    ℕ → ℕ → BitVec 32 → BitVec 32
  | 0, _, h => h
  | fuel + 1, l1, h =>
    if l1 ≥ step then
      calchashLoop str step fuel (l1 - step)
        (h ^^^ ((h <<< 5) + (h >>> 2) +
          BitVec.ofNat 32 (str.getD (l1 - 1) 0).toNat))
    else h

/-- Each turn of the loop takes at least one byte. -/
def calchash (str : List UInt8) : BitVec 32 :=
  calchashLoop str (str.length / 32 + 1) str.length str.length
    (BitVec.ofNat 32 str.length)

def stringindex (ctx : Strings) (str : List UInt8) : ℕ × Strings :=
  if str ∈ ctx then (ctx.idxOf str + 2, ctx)
  else (ctx.length + 2, ctx ++ [str])

/-- What `lua_tolstring` returns for a key that is no number; it is empty for a
table. -/
def Key.text : Key → List UInt8
  | .string str => str
  | _ => []

/-- Where a key belongs. -/
inductive Place where
  | array (key : ℕ)
  | hash (key : NodeKey) (keyhash : BitVec 32)
  deriving DecidableEq

def ishashkey (sizearray : ℕ) (k : Key) (ctx : Strings) : Place × Strings :=
  match k with
  | .integer k =>
    let key := narrow k
    if 0 < key.toInt ∧ key.toInt ≤ sizearray then (.array key.toNat, ctx)
    else (.hash (.integer key) key, ctx)
  | .float _ => (.hash (.integer 0) 0, ctx)
  | k =>
    let (index, ctx) := stringindex ctx k.text
    (.hash (.string index) (calchash k.text), ctx)

/-- The keys that are not in the array part. -/
def countsize (sizearray : ℕ) : Entries → Except Failure ℕ
  | [] => .ok 0
  | (k, _) :: es =>
    match k with
    | .integer nkey =>
      (countsize sizearray es).map fun n =>
        if 0 < nkey.toInt ∧ nkey.toInt ≤ sizearray then n else n + 1
    | .float _ | .other _ => .error .invalidKey
    | _ => (countsize sizearray es).map (· + 1)

/-! ## Conversion -/

/-- A function that converts a table, as `convtable`. -/
abbrev Conv :=
  ℕ → Entries → Strings → Except Failure (Table Stored × Strings)

def setvalue (conv : Conv) (v : Value) (ctx : Strings) :
    Except Failure (Stored × Strings) :=
  match v with
  | .integer d => .ok (.integer d, ctx)
  | .real n => .ok (.real n, ctx)
  | .string str =>
    let (index, ctx) := stringindex ctx str
    .ok (.string index, ctx)
  | .boolean b => .ok (.boolean b, ctx)
  | .table border es =>
    (conv border es ctx).map fun p => (.table p.1, p.2)
  | .other _ => .error .unsupported

namespace Table

def setarray (tbl : Table Stored) (key : ℕ) (v : Stored) : Table Stored :=
  { tbl with array := Function.update tbl.array (key - 1) v }

def setnode (tbl : Table Stored) (i : ℕ) (n : Node Stored) : Table Stored :=
  { tbl with hash := Function.update tbl.hash i (some n) }

/-- The main position of a hash. -/
def slot (tbl : Table Stored) (keyhash : BitVec 32) : ℕ :=
  keyhash.toNat % tbl.sizehash

/-- The first slot that holds no value. -/
def emptyslot (tbl : Table Stored) : Option ℕ :=
  (List.range tbl.sizehash).find? fun i => (tbl.hash i).isNone

end Table

/-- The body of the loop of `fillnocolliding`. -/
def nocolliding
    (conv : Conv) (s : Table Stored × Strings) (e : Key × Value) :
    Except Failure (Table Stored × Strings) :=
  let (tbl, ctx) := s
  match ishashkey tbl.sizearray e.1 ctx with
  | (.array key, ctx) =>
    (setvalue conv e.2 ctx).map fun p => (tbl.setarray key p.1, p.2)
  | (.hash key keyhash, ctx) =>
    let i := tbl.slot keyhash
    if (tbl.hash i).isNone then
      (setvalue conv e.2 ctx).map fun p =>
        (tbl.setnode i ⟨p.1, key, none, keyhash, true⟩, p.2)
    else .ok (tbl, ctx)

def fillnocolliding (conv : Conv) (es : Entries)
    (s : Table Stored × Strings) : Except Failure (Table Stored × Strings) :=
  es.foldlM (nocolliding conv) s

/-- The body of the loop of `fillcolliding`. -/
def colliding
    (conv : Conv) (s : Table Stored × Strings) (e : Key × Value) :
    Except Failure (Table Stored × Strings) :=
  let (tbl, ctx) := s
  match ishashkey tbl.sizearray e.1 ctx with
  | (.array _, ctx) => .ok (tbl, ctx)
  | (.hash key keyhash, ctx) =>
    let i := tbl.slot keyhash
    match tbl.hash i with
    | none => .error .undefined
    | some mainpos =>
      if mainpos.key = key then .ok (tbl, ctx)
      else
        match tbl.emptyslot with
        | none => .error .assertion
        | some n =>
          (setvalue conv e.2 ctx).map fun p =>
            ((tbl.setnode i { mainpos with next := some n,
                                           nocolliding := false }).setnode n
              ⟨p.1, key, mainpos.next, keyhash, false⟩, p.2)

def fillcolliding (conv : Conv) (es : Entries)
    (s : Table Stored × Strings) : Except Failure (Table Stored × Strings) :=
  es.foldlM (colliding conv) s

/-- The body of the loop over the array part. -/
def fillelement
    (conv : Conv) (es : Entries) (s : Table Stored × Strings) (i : ℕ) :
    Except Failure (Table Stored × Strings) :=
  match rawget es (.integer (.ofNat 64 (i + 1))) with
  | none => .ok (s.1.setarray (i + 1) .nil, s.2)
  | some v =>
    (setvalue conv v s.2).map fun p => (s.1.setarray (i + 1) p.1, p.2)

/-- The array part of a table without other keys. -/
def fillarray (conv : Conv) (es : Entries) (s : Table Stored × Strings) :
    Except Failure (Table Stored × Strings) :=
  (List.range s.1.sizearray).foldlM (fillelement conv es) s

/-- A table is converted inside a call of its own, of which there are at most
`room`.  The border is narrowed to an `int`.  A size that is negative as an
`int` is more than `malloc` can give. -/
def convtable : ℕ → Conv
  | 0, _, _, _ => .error .tooDeep
  | room + 1, border, es, ctx =>
    let sizearray := border % 0x100000000
    if sizearray ≥ 0x80000000 then .error .memory
    else
      (countsize sizearray es).bind fun sizehash =>
        if sizehash ≥ 0x80000000 then .error .memory
        else
          let tbl : Table Stored :=
            ⟨sizearray, fun _ => .nil, sizehash, fun _ => none⟩
          if sizehash = 0 then fillarray (convtable room) es (tbl, ctx)
          else
            (fillnocolliding (convtable room) es (tbl, ctx)).bind
              (fillcolliding (convtable room) es)

/-- The table and its strings.  The strings are pushed to a stack of a limited
size. -/
def lnewconf (room limit : ℕ) (border : ℕ) (es : Entries) :
    Except Failure (Table Stored × Strings) :=
  (convtable room border es []).bind fun p =>
    if p.2.length + 4 > limit then .error .memory else .ok p

/-! ## Access -/

/-- What is pushed to the stack; a table is a pointer to it. -/
inductive Pushed where
  | nil
  | integer (d : BitVec 64)
  | real (n : BitVec 64)
  | string (str : List UInt8)
  | boolean (b : Bool)
  | table (tbl : Table Stored)

section Access

variable (sL : Strings) (tbl : Table Stored)

/-- The node has the key, if it has the hash of it. -/
def NodeKey.is : NodeKey → Key → Bool
  | .integer key, .integer k => key = narrow k
  | .string index, .string str => stringAt sL index = str
  | _, _ => false

/-- The loop of `lookup_key`.  A chain has at most as many nodes as there are
slots. -/
def lookupLoop (keyhash : BitVec 32) (k : Key) :
    ℕ → ℕ → Except Failure (Option ℕ)
  | 0, _ => .error .unending
  | fuel + 1, i =>
    match tbl.hash i with
    | none => .error .undefined
    | some n =>
      if keyhash = n.keyhash ∧ n.key.is sL k then .ok (some i)
      else
        match n.next with
        | none => .ok none
        | some j => lookupLoop keyhash k fuel j

/-- The slot of the node that is found. -/
def lookupKey (keyhash : BitVec 32) (k : Key) : Except Failure (Option ℕ) :=
  if tbl.sizehash = 0 then .ok none
  else
    match tbl.hash (tbl.slot keyhash) with
    | none => .error .undefined
    | some n =>
      if keyhash ≠ n.keyhash ∧ n.nocolliding then .ok none
      else lookupLoop sL tbl keyhash k tbl.sizehash (tbl.slot keyhash)

/-- The hash of a key. -/
def Key.keyhash : Key → BitVec 32
  | .integer k => narrow k
  | .float _ => 0
  | k => calchash k.text

def pushkey : NodeKey → Key
  | .integer key => .integer (key.signExtend 64)
  | .string index => .string (stringAt sL index)

/-- The key in a slot of the hash part; `lnextkey` ends behind the last one. -/
def slotkey (i : ℕ) : Except Failure (Option Key) :=
  if i < tbl.sizehash then
    match tbl.hash i with
    | none => .error .undefined
    | some n => .ok (some (pushkey sL n.key))
  else .ok none

/-- The next key in the array part, or the first one of the hash part. -/
def nextelement (i : ℕ) : Except Failure (Option Key) :=
  match (List.range' i (tbl.sizearray - i)).find?
      fun j => !(tbl.array j).isNil with
  | some j => .ok (some (.integer (.ofNat 64 (j + 1))))
  | none => slotkey sL tbl 0

/-- The key behind the one that is found. -/
def nextnode (k : Key) : Except Failure (Option Key) :=
  (lookupKey sL tbl k.keyhash k).bind fun
    | none => .ok none
    | some i => slotkey sL tbl (i + 1)

def lnextkey (k : Option Key) : Except Failure (Option Key) :=
  match k with
  | none => nextelement sL tbl 0
  | some (.integer x) =>
    let key := narrow x
    if 0 < key.toInt ∧ key.toInt ≤ tbl.sizearray then
      nextelement sL tbl key.toNat
    else nextnode sL tbl (.integer x)
  | some (.float _) => .ok none
  | some (.string str) => nextnode sL tbl (.string str)
  | some _ => .error .notString

end Access

end SkynetServer.Sharedata
