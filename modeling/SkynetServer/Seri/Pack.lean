import SkynetServer.Seri.Value
import SkynetServer.Support.LittleEndian

/-!
# `luaseri_pack`

Values are written to a list of blocks of 128 bytes each, which are copied to
one buffer at the end.  Lengths of strings and the borders of tables are cast
to `int`.
-/

namespace SkynetServer.Seri

open LittleEndian

/-- `BLOCK_SIZE` -/
def blockSize : ℕ := 128

/-- `MAX_DEPTH` -/
def maxDepth : ℕ := 32

/-- `MAX_COOKIE` -/
def maxCookie : ℕ := 32

/-- A conversion to `int`. -/
def toInt (n : ℕ) : ℤ := (BitVec.ofNat 32 n).toInt

/-- `struct write_block`: the blocks before the current one, the `ptr` bytes
written to the current one, and `len`. -/
structure WriteBlock where
  blocks : List (List UInt8)
  current : List UInt8
  len : ℕ

/-- `wb_init` -/
def wbInit : WriteBlock := ⟨[], [], 0⟩

namespace WriteBlock

variable (b : WriteBlock)

/-- Link a new block. -/
def alloc : WriteBlock :=
  { b with
    blocks := b.blocks ++ [b.current]
    current := [] }

/-- `memcpy` to the current block. -/
def copy (buffer : List UInt8) : WriteBlock :=
  { b with
    current := b.current ++ buffer
    len := b.len + buffer.length }

/-- `wb_push`, from the label `_again` on.  A round copies a byte at least,
so one round for each byte is enough. -/
def again : ℕ → WriteBlock → List UInt8 → WriteBlock
  | 0, b, _ => b
  | n + 1, b, buffer =>
    if buffer.length ≤ blockSize then b.alloc.copy buffer
    else
      again n (b.alloc.copy (buffer.take blockSize)) (buffer.drop blockSize)

/-- `wb_push` -/
def push (buffer : List UInt8) : WriteBlock :=
  if b.current.length = blockSize then again (buffer.length + 1) b buffer
  else if b.current.length + buffer.length ≤ blockSize then b.copy buffer
  else
    let room := blockSize - b.current.length
    again (buffer.length + 1) (b.copy (buffer.take room)) (buffer.drop room)

end WriteBlock

/-- `TYPE_NIL`, `TYPE_BOOLEAN` and so on. -/
def typeNil : ℕ := 0
def typeBoolean : ℕ := 1
def typeNumber : ℕ := 2
def typeUserdata : ℕ := 3
def typeShortString : ℕ := 4
def typeLongString : ℕ := 5
def typeTable : ℕ := 6

/-- `TYPE_NUMBER_ZERO`, `TYPE_NUMBER_BYTE` and so on. -/
def numberZero : ℕ := 0
def numberByte : ℕ := 1
def numberWord : ℕ := 2
def numberDword : ℕ := 4
def numberQword : ℕ := 6
def numberReal : ℕ := 8

/-- `COMBINE_TYPE`, in a `uint8_t` -/
def combineType (t : ℕ) (v : ℤ) : UInt8 :=
  UInt8.ofBitVec (BitVec.ofNat 8 t ||| BitVec.ofInt 8 v <<< 3)

section Atoms

variable (wb : WriteBlock)

/-- `wb_nil` -/
def wbNil : WriteBlock := wb.push [combineType typeNil 0]

/-- `wb_boolean` -/
def wbBoolean (boolean : Bool) : WriteBlock :=
  wb.push [combineType typeBoolean (if boolean then 1 else 0)]

/-- `wb_integer` -/
def wbInteger (v : BitVec 64) : WriteBlock :=
  if v = 0 then wb.push [combineType typeNumber numberZero]
  else if v ≠ (v.setWidth 32).signExtend 64 then
    (wb.push [combineType typeNumber numberQword]).push (bytes 8 v.toNat)
  else if v.toInt < 0 then
    (wb.push [combineType typeNumber numberDword]).push
      (bytes 4 (v.setWidth 32).toNat)
  else if v.toInt < 0x100 then
    (wb.push [combineType typeNumber numberByte]).push (bytes 1 v.toNat)
  else if v.toInt < 0x10000 then
    (wb.push [combineType typeNumber numberWord]).push (bytes 2 v.toNat)
  else
    (wb.push [combineType typeNumber numberDword]).push
      (bytes 4 (v.setWidth 32).toNat)

/-- `wb_real` -/
def wbReal (v : BitVec 64) : WriteBlock :=
  (wb.push [combineType typeNumber numberReal]).push (bytes 8 v.toNat)

/-- `wb_pointer` -/
def wbPointer (v : BitVec 64) : WriteBlock :=
  (wb.push [combineType typeUserdata 0]).push (bytes 8 v.toNat)

/-- `wb_string`, with its argument `(int)sz` -/
def wbString (str : List UInt8) : WriteBlock :=
  let len := toInt str.length
  if len < maxCookie then
    let wb := wb.push [combineType typeShortString len]
    if len > 0 then wb.push (str.take len.toNat) else wb
  else if len < 0x10000 then
    ((wb.push [combineType typeLongString 2]).push
      (bytes 2 len.toNat)).push (str.take len.toNat)
  else
    ((wb.push [combineType typeLongString 4]).push
      (bytes 4 len.toNat)).push (str.take len.toNat)

/-- The cases of `pack_one` for values that are not tables. -/
def packAtom : Atom → WriteBlock
  | .nil => wbNil wb
  | .boolean b => wbBoolean wb b
  | .integer x => wbInteger wb x
  | .real bits => wbReal wb bits
  | .string str => wbString wb str
  | .lightuserdata p => wbPointer wb p

end Atoms

/-- Write the values of a list one after the other. -/
def packEach {α : Type*} (pack : WriteBlock → α → Option WriteBlock) :
    WriteBlock → List α → Option WriteBlock
  | wb, [] => some wb
  | wb, a :: as => do
    let wb ← pack wb a
    packEach pack wb as

/-- The head of `wb_table_array`. -/
def wbTableHead (wb : WriteBlock) (arraySize : ℤ) : WriteBlock :=
  if arraySize ≥ maxCookie - 1 then
    wbInteger (wb.push [combineType typeTable (maxCookie - 1)])
      (BitVec.ofInt 64 arraySize)
  else wb.push [combineType typeTable arraySize]

/-- The key is not one of those that `wb_table_array` has written. -/
def inHash (arraySize : ℤ) : Value × Value → Bool
  | (.atom (.integer x), _) => !(0 < x.toInt ∧ x.toInt ≤ arraySize)
  | _ => true

/-- `pack_one`; `room` is `MAX_DEPTH + 1 - depth`. -/
def packOne : ℕ → WriteBlock → Value → Option WriteBlock
  | 0, _, _ => none
  | _ + 1, wb, .atom a => some (packAtom wb a)
  | room + 1, wb, .table border es => do
    let arraySize := toInt border
    let wb := wbTableHead wb arraySize
    -- wb_table_array
    let wb ← packEach (packOne room) wb
      ((List.range arraySize.toNat).map fun i => Value.rawgeti es (i + 1))
    -- wb_table_hash
    let wb ← packEach (fun wb (e : Value × Value) => do
      let wb ← packOne room wb e.1
      packOne room wb e.2) wb (es.filter (inHash arraySize))
    return wbNil wb

/-- The loop of `seri`. -/
def seriLoop : List (List UInt8) → ℕ → List UInt8
  | [], _ => []
  | b :: next, len =>
    if len ≥ blockSize then
      b.take blockSize ++ seriLoop next (len - blockSize)
    else b.take len

/-- `seri` -/
def seri (wb : WriteBlock) : List UInt8 :=
  seriLoop (wb.blocks ++ [wb.current]) wb.len

/-- `luaseri_pack`; the length it returns is that of the buffer. -/
def luaseriPack (vs : List Value) : Option (List UInt8) := do
  let wb ← packEach (packOne (maxDepth + 1)) wbInit vs
  return seri wb

end SkynetServer.Seri
