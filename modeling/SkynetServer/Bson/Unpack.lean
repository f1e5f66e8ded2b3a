import SkynetServer.Support.LittleEndian
import SkynetServer.Support.Logged
import SkynetServer.Support.Resp

/-!
# Decoding BSON, `lua-bson.c`

A reader is a pointer into the document and the number of bytes that are left.
The functions that read move it; they log what they load and how they move it,
for the code compares the lengths in the document with the bytes that are left
only from above.

Lengths are values of type `int`.  What the C compiler makes of an overflow is
not defined.
-/

namespace SkynetServer.Bson

open Logged

/-! ## Values -/

/-- The types of the fields that are supported. -/
inductive BsonType where
  | real | string | document | array | binary | objectid | boolean | date | null
  | regex | dbpointer | jscode | symbol | codews | int32 | timestamp | int64
  | minkey | maxkey
  deriving DecidableEq, Repr

namespace BsonType

def code : BsonType → UInt8
  | .real => 1
  | .string => 2
  | .document => 3
  | .array => 4
  | .binary => 5
  | .objectid => 7
  | .boolean => 8
  | .date => 9
  | .null => 10
  | .regex => 11
  | .dbpointer => 12
  | .jscode => 13
  | .symbol => 14
  | .codews => 15
  | .int32 => 16
  | .timestamp => 17
  | .int64 => 18
  | .minkey => 255
  | .maxkey => 127

def all : List BsonType :=
  [.real, .string, .document, .array, .binary, .objectid, .boolean, .date,
    .null, .regex, .dbpointer, .jscode, .symbol, .codews, .int32, .timestamp,
    .int64, .minkey, .maxkey]

def ofCode (c : UInt8) : Option BsonType := all.find? fun t => t.code = c

theorem ofCode_code (t : BsonType) : ofCode t.code = some t := by
  cases t <;> rfl

end BsonType

/-- A key of a table; all other values than integers and strings are alike. -/
inductive Key where
  | integer (i : BitVec 64)
  | string (bytes : List UInt8)
  | other (n : ℕ)
  deriving DecidableEq, Repr

/-- A Lua value.  The entries of a table stand in the order in which `lua_next`
visits them, with the border that `lua_rawlen` returns. -/
inductive Value where
  | integer (i : BitVec 64)
  | real (bits : BitVec 64)
  | boolean (b : Bool)
  | string (bytes : List UInt8)
  | table (border : ℕ) (entries : List (Key × Value))

abbrev Entries := List (Key × Value)

/-- `lua_rawset` -/
def rawset (es : Entries) (k : Key) (v : Value) : Entries :=
  es.filter (fun e => e.1 ≠ k) ++ [(k, v)]

/-! ## Readers -/

/-- `struct bson_reader` -/
structure Reader where
  ptr : ℤ
  size : ℤ
  deriving DecidableEq, Repr

inductive Event where
  /-- Bytes are loaded. -/
  | load (ptr n : ℤ)
  /-- A reader moves, or another one is made inside it. -/
  | move (before after : Reader)
  /-- The value of an `int` is out of its range. -/
  | overflow
  deriving DecidableEq, Repr

/-- Why there is no result: an error is raised, the behaviour is not defined, or
the steps of the model do not suffice. -/
inductive Failure where
  | raised
  | undefined
  | exhausted
  deriving DecidableEq, Repr

abbrev Run := Logged.Run Event Failure

/-- An `int` is computed. -/
def int (x : ℤ) : Run ℤ :=
  if -0x80000000 ≤ x ∧ x < 0x80000000 then pure x
  else do
    note .overflow
    fail .undefined

section Memory

variable (m : ℤ → UInt8)

/-- The `n` bytes from `p` on. -/
def bytesAt (p : ℤ) : ℕ → List UInt8
  | 0 => []
  | n + 1 => m p :: bytesAt (p + 1) n

def load (p n : ℤ) : Run (List UInt8) := do
  note (.load p n)
  pure (bytesAt m p n.toNat)

/-- `check_reader` -/
def checkReader (br : Reader) (sz : ℤ) : Run PUnit :=
  if br.size < sz then fail .raised else pure ⟨⟩

/-- The pointer moves on, and as many bytes less are left. -/
def advance (br : Reader) (sz : ℤ) : Run Reader := do
  let size ← int (br.size - sz)
  note (.move br ⟨br.ptr + sz, size⟩)
  pure ⟨br.ptr + sz, size⟩

/-- `n` bytes are read as a number. -/
def readNumber (br : Reader) (n : ℕ) : Run (ℕ × Reader) := do
  checkReader br n
  let b ← load m br.ptr n
  let br ← advance br n
  pure (LittleEndian.number b, br)

/-- `read_byte` -/
def readByte (br : Reader) : Run (UInt8 × Reader) := do
  let (v, br) ← readNumber m br 1
  pure (.ofNat v, br)

/-- `read_int32` -/
def readInt32 (br : Reader) : Run (BitVec 32 × Reader) := do
  let (v, br) ← readNumber m br 4
  pure (.ofNat 32 v, br)

/-- `read_int64`, and the bits of `read_double` -/
def readInt64 (br : Reader) : Run (BitVec 64 × Reader) := do
  let (v, br) ← readNumber m br 8
  pure (.ofNat 64 v, br)

/-- `read_bytes`, which returns the pointer it was called with -/
def readBytes (br : Reader) (sz : ℤ) : Run (ℤ × Reader) := do
  checkReader br sz
  let next ← advance br sz
  pure (br.ptr, next)

/-- The loop of `read_cstring`, with the bytes that are left. -/
def cstring (p : ℤ) : ℕ → Run (List UInt8)
  | 0 => fail .raised
  | n + 1 => do
    note (.load p 1)
    if m p = 0 then pure []
    else
      let s ← cstring (p + 1) n
      pure (m p :: s)

/-- `read_cstring` -/
def readCstring (br : Reader) : Run (List UInt8 × Reader) := do
  let s ← cstring m br.ptr br.size.toNat
  let br ← advance br (s.length + 1)
  pure (s, br)

/-! ## Documents -/

def isspace (c : UInt8) : Bool := c = 32 ∨ (9 ≤ c ∧ c ≤ 13)

/-- The number in the leading digits. -/
def digits (s : List UInt8) : ℕ := Resp.number (s.takeWhile Resp.isDigit)

/-- `strtol` with the base 10, limited to the values of a `long` -/
def strtol (s : List UInt8) : ℤ :=
  match s.dropWhile isspace with
  | 45 :: s => max (-0x8000000000000000) (-digits s)
  | 43 :: s => min 0x7fffffffffffffff (digits s)
  | s => min 0x7fffffffffffffff (digits s)

/-- The index of an element of an array, an `int`. -/
def arrayIndex (key : List UInt8) : BitVec 64 :=
  (BitVec.ofInt 32 (strtol key + 1)).signExtend 64

/-- The characters of `luaL_addlstring`; a negative length is larger than the
memory. -/
def addlstring (p len : ℤ) : Run (List UInt8) :=
  if len < 0 then fail .raised else load m p len

/-- `make_object` -/
def makeObject (t : BsonType) (p len : ℤ) : Run Value := do
  let s ← addlstring m p len
  pure (.string (0 :: t.code :: s))

/-- A `case` of `unpack_dict` that makes a value without a table. -/
def unpackAtom (bt : BsonType) (t : Reader) : Run (Value × Reader) :=
  match bt with
  | .real => do
    let (v, t) ← readInt64 m t
    pure (.real v, t)
  | .boolean => do
    let (v, t) ← readByte m t
    pure (.boolean (v ≠ 0), t)
  | .string => do
    let (sz, t) ← readInt32 m t
    if sz.toInt ≤ 0 then fail .raised
    else
      let (p, t) ← readBytes t sz.toInt
      let s ← load m p (sz.toInt - 1)
      pure (.string s, t)
  | .binary => do
    let (sz, t) ← readInt32 m t
    let (subtype, t) ← readByte m t
    let (p, t) ← readBytes t sz.toInt
    let s ← addlstring m p sz.toInt
    pure (.string (0 :: BsonType.binary.code :: subtype :: s), t)
  | .objectid => do
    let (p, t) ← readBytes t 12
    let v ← makeObject m .objectid p 12
    pure (v, t)
  | .date => do
    let (date, t) ← readInt64 m t
    let v := BitVec.ofInt 32 (date.toInt.tdiv 1000)
    pure
      (.string (0 :: BsonType.date.code :: LittleEndian.bytes 4 v.toNat), t)
  | .minkey => pure (.string [0, BsonType.minkey.code], t)
  | .maxkey => pure (.string [0, BsonType.maxkey.code], t)
  | .null => pure (.string [0, BsonType.null.code], t)
  | .regex => do
    let (r1, t) ← readCstring m t
    let (r2, t) ← readCstring m t
    pure (.string (0 :: BsonType.regex.code :: r1 ++ 0 :: r2 ++ [0]), t)
  | .int32 => do
    let (v, t) ← readInt32 m t
    pure (.integer (v.signExtend 64), t)
  | .timestamp => do
    let (inc, t) ← readInt32 m t
    let (ts, t) ← readInt32 m t
    pure
      (.string
        (0 :: BsonType.timestamp.code ::
          (LittleEndian.bytes 4 inc.toNat ++ LittleEndian.bytes 4 ts.toNat)), t)
  | .int64 => do
    let (v, t) ← readInt64 m t
    pure (.integer v, t)
  | .dbpointer => do
    let ptr := t.ptr
    let (sz, t) ← readInt32 m t
    let n ← int (sz.toInt + 12)
    let (_, t) ← readBytes t n
    let len ← int (sz.toInt + 16)
    let v ← makeObject m .dbpointer ptr len
    pure (v, t)
  | .jscode | .symbol => do
    let ptr := t.ptr
    let (sz, t) ← readInt32 m t
    let (_, t) ← readBytes t sz.toInt
    let len ← int (sz.toInt + 4)
    let v ← makeObject m bt ptr len
    pure (v, t)
  | .codews => do
    let ptr := t.ptr
    let (sz, t) ← readInt32 m t
    let n ← int (sz.toInt - 4)
    let (_, t) ← readBytes t n
    let v ← makeObject m bt ptr sz.toInt
    pure (v, t)
  | .document | .array => fail .raised

/-- The `switch` of `unpack_dict`, with the function for the tables. -/
def unpackValue
    (dict : Reader → Bool → Run (Value × Reader)) (bt : BsonType) (t : Reader) :
    Run (Value × Reader) :=
  match bt with
  | .document => dict t false
  | .array => dict t true
  | bt => unpackAtom m bt t

mutual

/-- `unpack_dict` -/
def unpackDict : ℕ → Reader → Bool → Run (Value × Reader)
  | 0, _, _ => fail .exhausted
  | fuel + 1, br, array => do
    let (sz, br) ← readInt32 m br
    let n ← int (sz.toInt - 5)
    let (bytes, next) ← readBytes br n
    let t : Reader := ⟨bytes, n⟩
    note (.move br t)
    let (last, next) ← readByte m next
    if last ≠ 0 then fail .raised
    else
      let es ← unpackFields fuel t array []
      pure (.table 0 es, next)

/-- The loop of `unpack_dict`. -/
def unpackFields : ℕ → Reader → Bool → Entries → Run Entries
  | 0, _, _, _ => fail .exhausted
  | fuel + 1, t, array, es =>
    if t.size = 0 then pure es
    else do
      let (bt, t) ← readByte m t
      let (key, t) ← readCstring m t
      let k := if array then Key.integer (arrayIndex key) else .string key
      match BsonType.ofCode bt with
      | none => fail .raised
      | some bt =>
        let (v, t) ← unpackValue m (fun t array => unpackDict fuel t array) bt t
        unpackFields fuel t array (rawset es k v)

end

/-- `get_length` of the document, which starts at the address 0 -/
def getLength : ℤ :=
  (BitVec.ofNat 32 (LittleEndian.number (bytesAt m 0 4))).toInt

/-- `ldecode`; each step takes a byte, so the steps suffice. -/
def ldecode : Run Value := do
  let br : Reader := ⟨0, getLength m⟩
  let (v, _) ← unpackDict m ((getLength m).toNat + 1) br false
  pure v

end Memory

/-- A document in memory, with other bytes around it. -/
def memory (document : List UInt8) (outside : ℤ → UInt8) (p : ℤ) : UInt8 :=
  if 0 ≤ p ∧ p < document.length then document.getD p.toNat 0 else outside p

end SkynetServer.Bson
