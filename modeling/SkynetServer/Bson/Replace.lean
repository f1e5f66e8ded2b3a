import SkynetServer.Bson.Items
import SkynetServer.Bson.Tables

/-!
# Replacing fields in place, `lua-bson.c`

`makeindex` notes where the fields of a fixed size are, and an assignment to one
of them overwrites its bytes in the document.
-/

namespace SkynetServer.Bson

open Logged Parse

/-- The bytes of a field of a fixed size, and 0 for the other fields. -/
def fieldSize : BsonType → ℕ
  | .int64 | .timestamp | .date | .real => 8
  | .boolean => 1
  | .objectid => 12
  | .int32 => 4
  | _ => 0

/-! ## The index -/

/-- The entries of the index: keys with their ids. -/
abbrev Index := List (List UInt8 × BitVec 32)

/-- `lua_rawset` of the index -/
def Index.rawset (index : Index) (key : List UInt8) (id : BitVec 32) : Index :=
  index.filter (fun e => e.1 ≠ key) ++ [(key, id)]

/-- `lua_rawget` of the index -/
def Index.rawget (index : Index) (key : List UInt8) : Option (BitVec 32) :=
  (index.find? fun e => e.1 = key).map (·.2)

/-- The id of a field, an `int`. -/
def fieldId (t : BsonType) (offset : ℤ) : BitVec 32 :=
  .ofNat 32 t.code.toNat ||| BitVec.ofInt 32 offset <<< 5

section Memory

variable (m : ℤ → UInt8)

/-- A field of another size is skipped. -/
def skipField (br : Reader) : BsonType → Run Reader
  | .jscode | .symbol | .string => do
    let (sz, br) ← readInt32 m br
    let (_, br) ← readBytes br sz.toInt
    pure br
  | .codews | .array | .document => do
    let (sz, br) ← readInt32 m br
    let n ← int (sz.toInt - 4)
    let (_, br) ← readBytes br n
    pure br
  | .binary => do
    let (sz, br) ← readInt32 m br
    let n ← int (sz.toInt + 1)
    let (_, br) ← readBytes br n
    pure br
  | .regex => do
    let (_, br) ← readCstring m br
    let (_, br) ← readCstring m br
    pure br
  | .dbpointer => do
    let (sz, br) ← readInt32 m br
    let n ← int (sz.toInt + 12)
    let (_, br) ← readBytes br n
    pure br
  | _ => pure br

/-- The loop of `lmakeindex`. -/
def indexFields : ℕ → Reader → Index → Run Index
  | 0, _, _ => fail .exhausted
  | fuel + 1, br, index =>
    if br.size = 0 then pure index
    else do
      let (bt, br) ← readByte m br
      let (key, br) ← readCstring m br
      match BsonType.ofCode bt with
      | none => fail .raised
      | some bt =>
        let br ← skipField m br bt
        if fieldSize bt > 0 then
          let id := fieldId bt br.ptr
          let (_, br) ← readBytes br (fieldSize bt)
          indexFields fuel br (index.rawset key id)
        else indexFields fuel br index

/-- `lmakeindex`; each round takes a byte, so the steps suffice. -/
def lmakeindex : Run Index := do
  let size ← int (getLength m - 5)
  indexFields m ((getLength m).toNat + 1) ⟨4, size⟩ []

end Memory

/-! ## Replacing -/

/-- A Lua value that is assigned; those that are no values of a document and not
nil are alike. -/
inductive Argument where
  | value (v : Value)
  | nil
  | other (n : ℕ)

/-- `lua_toboolean` -/
def toboolean : Argument → Bool
  | .nil => false
  | .value (.boolean b) => b
  | _ => true

/-- Bytes that are written into the document. -/
structure Write where
  ptr : ℤ
  bytes : List UInt8

/-- The memory after a write. -/
def Write.apply (w : Write) (m : ℤ → UInt8) (p : ℤ) : UInt8 :=
  if w.ptr ≤ p ∧ p < w.ptr + w.bytes.length then
    w.bytes.getD (p - w.ptr).toNat 0
  else m p

/-- `replace_object`; the text of a number does not begin with a zero byte. -/
def replaceObject (t : BsonType) (v : Argument) : Encode (List UInt8) :=
  match v with
  | .value (.string (0 :: subt :: data)) =>
    if data.length < 4 ∨ subt ≠ t.code then .error .raised
    else
      match t with
      | .objectid =>
        if data.length ≠ 12 then .error .raised else .ok data
      | .date =>
        if data.length ≠ 4 then .error .raised
        else
          .ok (LittleEndian.bytes 8 (LittleEndian.number data * 1000))
      | .timestamp =>
        if data.length ≠ 8 then .error .raised
        else
          .ok (LittleEndian.bytes 4 (LittleEndian.number (data.take 4)) ++
            LittleEndian.bytes 4 (LittleEndian.number (data.drop 4)))
      | _ => .ok []
  | _ => .error .raised

section Numbers

/- The float that `luaL_checknumber` takes an argument for. -/
variable (checknumber : Argument → Option (BitVec 64))

/-- The bytes for the value, by the type of the field. -/
def replaceBytes (t : BsonType) (v : Argument) : Encode (List UInt8) :=
  match t with
  | .real =>
    match checknumber v with
    | some bits => .ok (LittleEndian.bytes 8 bits.toNat)
    | none => .error .raised
  | .boolean => .ok [if toboolean v then 1 else 0]
  | .objectid | .date | .timestamp => replaceObject t v
  | .int32 =>
    match v with
    | .value (.integer i) =>
      .ok (LittleEndian.bytes 4 (i.setWidth 32).toNat)
    | _ => .error .raised
  | .int64 =>
    match v with
    | .value (.integer i) => .ok (LittleEndian.bytes 8 i.toNat)
    | _ => .error .raised
  | _ => .error .raised

/-- `lreplace` of a field with this id; nothing is written before an error. -/
def replaceAt (id : BitVec 32) (v : Argument) : Encode Write :=
  match BsonType.ofCode (.ofNat (id &&& 31).toNat) with
  | none => .error .raised
  | some t => do
    let bytes ← replaceBytes checknumber t v
    pure ⟨(id.sshiftRight 5).toInt, bytes⟩

/-- `lreplace` -/
def lreplace (index : Index) (key : List UInt8) (v : Argument) : Encode Write :=
  match index.rawget key with
  | none => .error .raised
  | some id => replaceAt checknumber id v

end Numbers

end SkynetServer.Bson
