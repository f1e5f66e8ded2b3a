import SkynetServer.Bson.Unpack
import SkynetServer.Support.Memory

/-!
# Encoding BSON, `lua-bson.c`

A document is written into a buffer that grows, field by field.  The place of
its length is reserved first and written when the document is complete.

A table becomes an array if nothing follows its border in the order in which
`lua_next` visits the entries, and a dictionary otherwise.
-/

namespace SkynetServer.Bson

/-- `struct bson`; its size is the number of the bytes. -/
structure Buffer where
  bytes : List UInt8
  cap : ℕ

/-- `bson_create` -/
def Buffer.create : Buffer := ⟨[], 64⟩

abbrev Encode := Except Failure

namespace Buffer

variable (b : Buffer)

/-- The loop of `bson_reserve`. -/
def enlarge (need : ℕ) : ℕ → ℕ → Encode ℕ
  | 0, _ => .error .exhausted
  | fuel + 1, cap =>
    if 0x80000000 ≤ cap * 2 then .error .undefined
    else if cap * 2 ≤ need then enlarge need fuel (cap * 2)
    else .ok (cap * 2)

/-- `bson_reserve` -/
def reserve (sz : ℕ) : Encode Buffer :=
  if b.bytes.length + sz ≤ b.cap then pure b
  else do
    let cap ← enlarge (b.bytes.length + sz) 32 b.cap
    pure { b with cap := cap }

/-- Write bytes for which there is room afterwards. -/
def write (bs : List UInt8) : Encode Buffer := do
  let b ← b.reserve bs.length
  pure { b with bytes := b.bytes ++ bs }

/-- `write_byte` -/
def writeByte (v : UInt8) : Encode Buffer := b.write [v]

/-- `write_int32` -/
def writeInt32 (v : BitVec 32) : Encode Buffer :=
  b.write (LittleEndian.bytes 4 v.toNat)

/-- `write_int64`, and `write_double` with the bits of the number -/
def writeInt64 (v : BitVec 64) : Encode Buffer :=
  b.write (LittleEndian.bytes 8 v.toNat)

/-- `write_length` -/
def writeLength (v off : ℕ) : Buffer :=
  { b with bytes := Memory.store b.bytes off (LittleEndian.bytes 4 v) }

/-- `reserve_length`; what the bytes are is not known yet. -/
def reserveLength : Encode Buffer := b.write [0, 0, 0, 0]

end Buffer

/-! ## Strings -/

/-- The loop of `utf8_copy`, with the bytes behind the first one. -/
def utf8Loop : ℕ → List UInt8 → BitVec 32 → ℕ → BitVec 32 →
    Option (BitVec 32 × ℕ × BitVec 32)
  | 0, _, _, _, _ => none
  | fuel + 1, s, c, count, res =>
    if c &&& 0x40 = 0 then some (c, count, res)
    else
      match s with
      | [] => none
      | cc :: s =>
        if cc &&& 0xC0 ≠ 0x80 then none
        else
          let res := res <<< 6 ||| (cc &&& 0x3F).toBitVec.setWidth 32
          utf8Loop fuel s (c <<< 1) (count + 1) res

/-- `utf8_copy`: the bytes of the character, or 0 if there is none -/
def utf8Copy (s : List UInt8) : ℕ :=
  match s with
  | [] => 0
  | b :: s =>
    let c := b.toBitVec.signExtend 32
    if c.toNat < 0x80 then 1
    else
      match utf8Loop 8 s c 0 0 with
      | none => 0
      | some (c, count, res) =>
        let res := res ||| (c &&& 0x7F) <<< (count * 5)
        if count > 3 ∨ res.toNat > 0x10FFFF ∨
            res.toNat ≤ [0xFF, 0x7F, 0x7FF, 0xFFFF].getD count 0 then 0
        else count + 1

/-- The loop of `write_string`; each round takes a byte. -/
def validUtf8 : ℕ → List UInt8 → Bool
  | _, [] => true
  | 0, _ => false
  | fuel + 1, s => utf8Copy s ≠ 0 && validUtf8 fuel (s.drop (utf8Copy s))

/-- `write_string` -/
def writeString (b : Buffer) (key : List UInt8) : Encode Buffer := do
  let b ← b.reserve (key.length + 1)
  if validUtf8 key.length key then
    pure { b with bytes := b.bytes ++ (key ++ [0]) }
  else throw .raised

/-- `append_key`, with any byte as the type -/
def appendKey (b : Buffer) (type : UInt8) (key : List UInt8) :
    Encode Buffer := do
  let b ← b.writeByte type
  writeString b key

/-- `write_binary` -/
def writeBinary (b : Buffer) (buffer : List UInt8) : Encode Buffer := do
  let length := b.bytes.length
  let b ← b.reserveLength
  let b ← b.write buffer
  pure (b.writeLength (0x100000000 + buffer.length - 1) length)

/-- `append_number` -/
def appendInteger (b : Buffer) (key : List UInt8) (i : BitVec 64) :
    Encode Buffer := do
  if -0x80000000 ≤ i.toInt ∧ i.toInt ≤ 0x7fffffff then
    let b ← appendKey b BsonType.int32.code key
    b.writeInt32 (i.setWidth 32)
  else
    let b ← appendKey b BsonType.int64.code key
    b.writeInt64 i

/-- A string that begins with a zero byte and the code of a type. -/
def appendTyped (b : Buffer) (key : List UInt8) (subt : UInt8)
    (str : List UInt8) : Encode Buffer := do
  let b ← appendKey b subt key
  match BsonType.ofCode subt with
  | some .binary => writeBinary b str
  | some .objectid => if str.length ≠ 12 then throw .raised else b.write str
  | some .jscode | some .dbpointer | some .symbol | some .codews => b.write str
  | some .date =>
    if str.length ≠ 4 then throw .raised
    else b.writeInt64 (.ofNat 64 (LittleEndian.number str * 1000))
  | some .timestamp =>
    if str.length ≠ 8 then throw .raised
    else
      let b ← b.writeInt32 (.ofNat 32 (LittleEndian.number (str.take 4)))
      b.writeInt32 (.ofNat 32 (LittleEndian.number (str.drop 4)))
  | some .regex =>
    -- without a zero byte before the last one the lengths go below 0
    if 0 ∈ str.dropLast then
      let options := (str.dropLast.reverse.takeWhile (· ≠ 0)).reverse
      let b ← writeString b (str.take (str.length - 2 - options.length))
      writeString b options
    else throw .undefined
  | some .minkey | some .maxkey | some .null => pure b
  | _ => throw .raised

/-! ## Tables -/

/-- `lua_rawget` -/
def rawget (es : Entries) (k : Key) : Option Value :=
  (es.find? fun e => e.1 = k).map (·.2)

/-- `append_one`, with the function for a table -/
def appendOne
    (appendTable : Buffer → List UInt8 → ℕ → Entries → Encode Buffer)
    (b : Buffer) (key : List UInt8) : Value → Encode Buffer
  | .integer i => appendInteger b key i
  | .real bits => do
    let b ← appendKey b BsonType.real.code key
    b.writeInt64 bits
  | .string (0 :: subt :: str) => appendTyped b key subt str
  | .string str => do
    let b ← appendKey b BsonType.string.code key
    let off := b.bytes.length
    let b ← b.reserveLength
    let b ← writeString b str
    pure (b.writeLength (str.length + 1) off)
  | .table border es => appendTable b key border es
  | .boolean v => do
    let b ← appendKey b BsonType.boolean.code key
    b.writeByte (if v then 1 else 0)

/-- `bson_numstr` -/
def numstr (i : ℕ) : List UInt8 := Resp.decimal (i % 0x100000000)

/-- A table between its length and a zero byte. -/
def packTable (b : Buffer) (fields : Buffer → Encode Buffer) :
    Encode Buffer := do
  let length := b.bytes.length
  let b ← b.reserveLength
  let b ← fields b
  let b ← b.writeByte 0
  pure (b.writeLength (b.bytes.length - length) length)

/-- `pack_array`; a missing element is a hole. -/
def packArray
    (one : Buffer → List UInt8 → Value → Encode Buffer) (len : ℕ)
    (es : Entries) (b : Buffer) : Encode Buffer :=
  packTable b fun b =>
    (List.range len).foldlM (fun b i =>
      match rawget es (.integer (.ofNat 64 (i + 1))) with
      | some v => one b (numstr i) v
      | none => throw .raised) b

/-- `pack_simple_dict` -/
def packSimpleDict
    (one : Buffer → List UInt8 → Value → Encode Buffer) (es : Entries)
    (b : Buffer) : Encode Buffer :=
  packTable b fun b =>
    es.foldlM (fun b e =>
      match e.1 with
      | .string key => one b key e.2
      | _ => throw .raised) b

/-- `is_rawarray`; `lua_next` raises an error for a key that is not there. -/
def isRawarray (len : ℕ) (es : Entries) : Encode Bool :=
  if len = 0 then pure false
  else
    match es.dropWhile fun e => e.1 ≠ .integer (.ofNat 64 len) with
    | [] => throw .raised
    | [_] => pure true
    | _ :: _ :: _ => pure false

/-- `append_table`, with the levels that are left below `MAX_DEPTH` -/
def appendTable : ℕ → Buffer → List UInt8 → ℕ → Entries → Encode Buffer
  | 0, _, _, _, _ => throw .raised
  | room + 1, b, key, border, es => do
    let one := appendOne fun b key border es => appendTable room b key border es
    if ← isRawarray border es then
      let b ← appendKey b BsonType.array.code key
      packArray one border es b
    else
      let b ← appendKey b BsonType.document.code key
      packSimpleDict one es b

/-- `lencode` of a table without metamethods -/
def lencode (es : Entries) : Encode (List UInt8) := do
  let b ← packSimpleDict (appendOne (appendTable 128)) es .create
  pure b.bytes

end SkynetServer.Bson
