import SkynetServer.Seri.Tables
import SkynetServer.Support.LittleEndian

/-!
# Sheets in bytes

`dump` and `undump` of `datasheet/dump.lua`.  Positions count from 0.  The
conversions between floats of 32 and of 64 bits are parameters.
-/

namespace SkynetServer.Datasheet

open Seri (Atom Value Entries)

/-- The conversions of floats. -/
structure Floats where
  single : BitVec 64 → BitVec 32
  double : BitVec 32 → BitVec 64
  ofInteger : BitVec 64 → BitVec 64

inductive Failure where
  | unsupported
  | assertion
  | overflow
  | tooDeep
  | position
  | tooShort
  | tooMany
  | noIndex
  | invalidData
  | memory
  deriving DecidableEq, Repr

/-- `string.pack("<i4", n)` -/
def packI4 (n : ℤ) : Except Failure (List UInt8) :=
  if -0x80000000 ≤ n ∧ n < 0x80000000 then
    .ok (LittleEndian.bytes 4 (BitVec.ofInt 32 n).toNat)
  else .error .overflow

/-- `string.pack("<I4", n)` -/
def packU4 (n : ℕ) : Except Failure (List UInt8) :=
  if n < 0x100000000 then .ok (LittleEndian.bytes 4 n) else .error .overflow

/-! ## Dump -/

/-- A table that is not written yet has no bytes. -/
structure Doc where
  table : List (List UInt8)
  strings : List (List UInt8 × ℕ)
  offset : ℕ

/-- The type and the value. -/
abbrev Encoded := UInt8 × List UInt8

/-- A function that writes a table and returns its index, as `dump_table`. -/
abbrev Dumper := Entries → Doc → Except Failure (ℕ × Doc)

/-- A number, with its value as an integer and as a float. -/
def encodeNumber (f : Floats) (tointeger : Option (BitVec 64))
    (tonumber : BitVec 64) : Encoded :=
  let real := (2, LittleEndian.bytes 4 (f.single tonumber).toNat)
  match tointeger with
  | some v =>
    if v.toInt ≤ 0x7FFFFFFF ∧ v.toInt ≥ -(0x7FFFFFFF + 1) then
      (1, LittleEndian.bytes 4 (BitVec.ofInt 32 v.toInt).toNat)
    else real
  | none => real

def encodeString (v : List UInt8) (doc : Doc) :
    Except Failure (Encoded × Doc) :=
  match doc.strings.find? fun s => s.1 = v with
  | some s => (packU4 s.2).map fun bs => ((5, bs), doc)
  | none =>
    (packU4 doc.offset).map fun bs =>
      ((5, bs), { doc with strings := doc.strings ++ [(v, doc.offset)],
                           offset := doc.offset + v.length + 1 })

def encode (f : Floats) (dump : Dumper) (v : Value) (doc : Doc) :
    Except Failure (Encoded × Doc) :=
  match v with
  | .table _ t =>
    (dump t doc).bind fun (index, doc) =>
      (packI4 (index - 1)).map fun bs => ((4, bs), doc)
  | .atom (.integer x) => .ok (encodeNumber f (some x) (f.ofInteger x), doc)
  | .atom (.real bits) =>
    .ok (encodeNumber f (Seri.floatToInteger bits) bits, doc)
  | .atom (.boolean true) => .ok ((3, [0, 0, 0, 1]), doc)
  | .atom (.boolean false) => .ok ((3, [0, 0, 0, 0]), doc)
  | .atom (.string str) => encodeString str doc
  | .atom _ => .error .unsupported

/-- The values from `i` on up to the first nil; there are no more of them than
entries. -/
def ipairsFrom (t : Entries) : ℕ → ℕ → List Value
  | 0, _ => []
  | fuel + 1, i =>
    match Value.rawgeti t i with
    | .atom .nil => []
    | v => v :: ipairsFrom t fuel (i + 1)

def ipairs (t : Entries) : List Value := ipairsFrom t t.length 1

/-- The loop over `ipairs(t)`. -/
def encodeArray (f : Floats) (dump : Dumper) :
    List Value → Doc → Except Failure (List Encoded × Doc)
  | [], doc => .ok ([], doc)
  | v :: vs, doc =>
    (encode f dump v doc).bind fun (e, doc) =>
      (encodeArray f dump vs doc).map fun (es, doc) => (e :: es, doc)

/-- The loop over `pairs(t)`. -/
def encodeFields (f : Floats) (dump : Dumper) (arrayN : ℕ) :
    Entries → Doc → Except Failure (List Encoded × Doc)
  | [], doc => .ok ([], doc)
  | (k, v) :: es, doc =>
    match k with
    | .atom (.string str) =>
      (encodeString str doc).bind fun (kv, doc) =>
        (encode f dump v doc).bind fun (ev, doc) =>
          (encodeFields f dump arrayN es doc).map fun (rest, doc) =>
            ((ev.1, kv.2 ++ ev.2) :: rest, doc)
    | .atom (.integer ik) =>
      if 0 < ik.toInt ∧ ik.toInt ≤ arrayN then encodeFields f dump arrayN es doc
      else .error .assertion
    | _ => .error .assertion

/-- The bytes of a table. -/
def tableBytes (array kvs : List Encoded) : Except Failure (List UInt8) :=
  let typeset := array.map Prod.fst ++ kvs.map Prod.fst
  let align := List.replicate ((4 - typeset.length % 4) % 4) 0
  (packI4 array.length).bind fun an =>
    (packI4 kvs.length).map fun kn =>
      an ++ kn ++ typeset ++ align ++ array.flatMap Prod.snd ++
        kvs.flatMap Prod.snd

/-- A table is written inside a call of its own, of which there are at most
`room`. -/
def dumpTable (f : Floats) : ℕ → Dumper
  | 0, _, _ => .error .tooDeep
  | room + 1, t, doc =>
    let index := doc.table.length + 1
    let doc := { doc with table := doc.table ++ [[]] }
    (encodeArray f (dumpTable f room) (ipairs t) doc).bind fun (array, doc) =>
      (encodeFields f (dumpTable f room) array.length t doc).bind
        fun (kvs, doc) =>
          (tableBytes array kvs).map fun bs =>
            (index, { doc with table := doc.table.set (index - 1) bs })

/-- The offsets of the tables from an offset on. -/
def offsets : ℕ → List (List UInt8) → List ℕ
  | _, [] => []
  | offset, v :: vs => offset :: offsets (offset + v.length) vs

/-- Numbers that are packed with `<I4`. -/
def packEach : List ℕ → Except Failure (List UInt8)
  | [] => .ok []
  | n :: ns => (packU4 n).bind fun bs => (packEach ns).map (bs ++ ·)

/-- `table.concat(doc.strings, "\0")` with the last zero -/
def stringsBytes (strings : List (List UInt8)) : List UInt8 :=
  [0].intercalate strings ++ [0]

def dump (f : Floats) (room : ℕ) (root : Entries) :
    Except Failure (List UInt8) :=
  (dumpTable f room root ⟨[], [], 0⟩).bind fun (_, doc) =>
    (packEach (offsets 0 doc.table)).bind fun index =>
      (packU4 (4 + 4 + 4 * doc.table.length + doc.table.flatten.length)).bind
        fun strtbl =>
          (packU4 doc.table.length).map fun n =>
            strtbl ++ n ++ index ++ doc.table.flatten ++
              stringsBytes (doc.strings.map Prod.fst)

/-! ## Undump -/

/-- A value that `undump` has made.  A table carries its number in `tblidx` and
the assignments of its fields, in their order. -/
inductive Sheet where
  | atom (a : Atom)
  | table (index : ℕ) (array : List Sheet) (fields : List (List UInt8 × Sheet))

/-- One unsigned number of `size` bytes from `string.unpack`. -/
def unpackOne (size : ℕ) (v : List UInt8) (pos : ℕ) : Except Failure ℕ :=
  if v.length < pos then .error .position
  else if v.length < pos + size then .error .tooShort
  else .ok (LittleEndian.number ((v.drop pos).take size))

/-- `count` numbers from `string.unpack`, of which the stack takes `limit`. -/
def unpackEach (limit size count : ℕ) (v : List UInt8) (pos : ℕ) :
    Except Failure (List ℕ) :=
  if v.length < pos then .error .position
  else if v.length < pos + size * min count (limit + 1) then .error .tooShort
  else if limit < count then .error .tooMany
  else
    .ok ((List.range count).map fun i =>
      LittleEndian.number ((v.drop (pos + size * i)).take size))

/-- `string.unpack("z", v, pos)`, with the length cast to `int` -/
def unpackZ (v : List UInt8) (pos : ℕ) : Except Failure (List UInt8) :=
  if v.length < pos then .error .position
  else
    let str := (v.drop pos).takeWhile (· ≠ 0)
    let len := (BitVec.ofNat 32 str.length).toInt
    if len < 0 then .error .memory else .ok (str.take len.toNat)

/-- A function that reads the table of an index, as `decode`. -/
abbrev Decoder := ℕ → Except Failure Sheet

/-- The value of a type at an offset. -/
def value (f : Floats) (decode : Decoder) (v : List UInt8) (stringtbl : ℕ)
    (t off : ℕ) : Except Failure Sheet :=
  match t with
  | 1 =>
    (unpackOne 4 v off).map fun n =>
      .atom (.integer ((BitVec.ofNat 32 n).signExtend 64))
  | 2 =>
    (unpackOne 4 v off).map fun n => .atom (.real (f.double (.ofNat 32 n)))
  | 3 => (unpackOne 4 v off).map fun n => .atom (.boolean (n ≠ 0))
  | 4 => (unpackOne 4 v off).bind decode
  | 5 =>
    (unpackOne 4 v off).bind fun sindex =>
      (unpackZ v (stringtbl + sindex)).map fun str => .atom (.string str)
  | _ => .error .invalidData

def decodeArray (f : Floats) (decode : Decoder) (v : List UInt8)
    (stringtbl : ℕ) : List ℕ → ℕ → Except Failure (List Sheet)
  | [], _ => .ok []
  | t :: ts, off =>
    (value f decode v stringtbl t off).bind fun x =>
      (decodeArray f decode v stringtbl ts (off + 4)).map (x :: ·)

/-- The assignments of `result[key]`. -/
def decodeFields (f : Floats) (decode : Decoder) (v : List UInt8)
    (stringtbl : ℕ) :
    List ℕ → ℕ → Except Failure (List (List UInt8 × Sheet))
  | [], _ => .ok []
  | t :: ts, offset =>
    (unpackOne 4 v offset).bind fun sindex =>
      (unpackZ v (stringtbl + sindex)).bind fun key =>
        (value f decode v stringtbl t (offset + 4)).bind fun x =>
          (decodeFields f decode v stringtbl ts (offset + 8)).map
            ((key, x) :: ·)

/-- A table is read inside a call of its own, of which there are at most
`room`.  The last element of `index` is the position that `string.unpack`
returns after the numbers. -/
def decode (f : Floats) (limit : ℕ) (v : List UInt8) (stringtbl n : ℕ)
    (index : List ℕ) : ℕ → Decoder
  | 0, _ => .error .tooDeep
  | room + 1, i =>
    match index[i]? with
    | none => .error .noIndex
    | some offset =>
      let toffset := offset + (4 + 4 + 4 * n)
      (unpackOne 4 v toffset).bind fun array =>
        (unpackOne 4 v (toffset + 4)).bind fun dict =>
          (unpackEach limit 1 (array + dict) v (toffset + 8)).bind fun types =>
            let values := (array + dict + 8 + 3) / 4 * 4 + toffset
            let decode := decode f limit v stringtbl n index room
            (decodeArray f decode v stringtbl (types.take array) values).bind
              fun elements =>
                (decodeFields f decode v stringtbl (types.drop array)
                  (values + 4 * array)).map (.table i elements ·)

mutual

def Sheet.value : Sheet → Value
  | .atom a => .atom a
  | .table _ array fields =>
    .table array.length
      (Seri.build [] (arrayPairs 1 array ++ fieldPairs fields))

/-- The elements from the index `i` on. -/
def arrayPairs : ℕ → List Sheet → List (Atom × Value)
  | _, [] => []
  | i, s :: ss => (.integer (.ofNat 64 i), s.value) :: arrayPairs (i + 1) ss

def fieldPairs : List (List UInt8 × Sheet) → List (Atom × Value)
  | [] => []
  | (key, s) :: fs => (.string key, s.value) :: fieldPairs fs

end

mutual

/-- The numbers of the tables in `tblidx`. -/
def Sheet.indices : Sheet → List ℕ
  | .atom _ => []
  | .table index array fields =>
    index :: (arrayIndices array ++ fieldIndices fields)

def arrayIndices : List Sheet → List ℕ
  | [] => []
  | s :: ss => s.indices ++ arrayIndices ss

def fieldIndices : List (List UInt8 × Sheet) → List ℕ
  | [] => []
  | (_, s) :: fs => s.indices ++ fieldIndices fs

end

end SkynetServer.Datasheet
