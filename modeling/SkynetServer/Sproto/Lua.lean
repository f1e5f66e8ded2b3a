import SkynetServer.Sproto.Decode
import SkynetServer.Seri.Value

/-!
# Encoding and decoding Lua tables

The callbacks of `lsproto.c` with the functions `encode` and `decode` of its
library.  A level of the callbacks is how many more of them may be nested:
`ENCODE_DEEPLEVEL` less the `deep` of the source.
-/

namespace SkynetServer.Sproto

open LittleEndian Memory Seri

def encodeBuffersize : ℕ := 2050
def encodeMaxsize : ℕ := 0x1000000
def encodeDeeplevel : ℕ := 64

/-- What the callbacks take from Lua to convert numbers: the integer that a
string is read as, the text of a number, the rounded product with a decimal
factor, and the quotient. -/
structure Numbers where
  stringToInteger : List UInt8 → Option (BitVec 64)
  text : Atom → List UInt8
  product : Value → BitVec 32 → BitVec 64
  quotient : BitVec 64 → BitVec 32 → BitVec 64

def luaType : Value → LuaType
  | .atom .nil => .nil
  | .atom (.boolean _) => .boolean
  | .atom (.integer _) => .number
  | .atom (.real _) => .number
  | .atom (.string _) => .string
  | .atom (.lightuserdata _) => .lightuserdata
  | .table _ _ => .table

/-- `lua_getfield` -/
def getfield (v : Value) (name : List UInt8) : Except Failure Value :=
  match v with
  | .table _ es => .ok (Value.rawget es (.string name))
  | v => .error (.indexed (luaType v))

/-! ## Encoding -/

/-- `struct encode_ud`: the table, the field whose array is open, the entries
of this array, and those that `next_list` has not visited. -/
structure EncodeUd where
  tbl : Value
  arrayTag : Option ℕ
  array : Entries
  iter : Entries

/-- Open the array of the field if it is not open; `false` if it is nil.  The
name of a field is a string of its own, so the source compares pointers. -/
def openArray (args : Arg) (self : EncodeUd) :
    Except Failure (Bool × EncodeUd) :=
  if self.arrayTag = some args.tagid then .ok (true, self)
  else
    (getfield self.tbl args.tagname).bind fun
      | .atom .nil =>
        .ok (false, { self with arrayTag := some args.tagid, array := [] })
      | .table _ es => .ok (true, ⟨self.tbl, some args.tagid, es, es⟩)
      | v => .error (.notTable args.tagname args.index (luaType v))

/-- The value to encode; `none` for `SPROTO_CB_NOARRAY`. -/
def fetch (args : Arg) (self : EncodeUd) :
    Except Failure (Option Value × EncodeUd) :=
  if args.index > 0 then
    (openArray args self).map fun
      | (false, self) => (none, self)
      | (true, self) =>
        if args.mainindex.isSome then
          match self.iter with
          | [] => (some (.atom .nil), { self with iter := self.array })
          | e :: es => (some e.2, { self with iter := es })
        else (some (Value.rawgeti self.array args.index.toNat), self)
  else (getfield self.tbl args.tagname).map fun v => (some v, self)

/-- `lua_tointegerx` -/
def tointegerx (numbers : Numbers) : Value → Option (BitVec 64)
  | .atom (.integer x) => some x
  | .atom (.real bits) => floatToInteger bits
  | .atom (.string s) => numbers.stringToInteger s
  | _ => none

/-- `lua_tolstring`, for a value that `lua_isstring` accepts -/
def tolstring (numbers : Numbers) : Value → Option (List UInt8)
  | .atom (.string s) => some s
  | .atom (.integer x) => some (numbers.text (.integer x))
  | .atom (.real bits) => some (numbers.text (.real bits))
  | _ => none

/-- Write an integer in four bytes if it is the same in 32 bits. -/
def writeInteger (v : BitVec 64) (value : List UInt8) (self : EncodeUd) :
    Reply EncodeUd :=
  let vh := v.sshiftRight 31
  if vh = 0 ∨ vh = -1 then .size 4 (store value 0 (bytes 4 v.toNat)) self
  else .size 8 (store value 0 (bytes 8 v.toNat)) self

/-- The switch of `encode`; `sub` encodes a struct. -/
def encodeValue (numbers : Numbers)
    (sub : ℕ → Value → List UInt8 → Except Failure (Option (List UInt8 × ℕ)))
    (args : Arg) (v : Value) (self : EncodeUd) :
    Except Failure (Reply EncodeUd) :=
  match args.type with
  | .integer =>
    if args.extra ≠ 0 then
      .ok (writeInteger (numbers.product v args.extra) args.value self)
    else
      match tointegerx numbers v with
      | some x => .ok (writeInteger x args.value self)
      | none => .error (.notInteger args.tagname args.index (luaType v))
  | .boolean =>
    match v with
    | .atom (.boolean b) =>
      .ok (.size 4 (store args.value 0 (bytes 4 b.toNat)) self)
    | v => .error (.notBoolean args.tagname args.index (luaType v))
  | .string =>
    match tolstring numbers v with
    | some str =>
      if str.length > args.value.length then .ok .error
      else .ok (.size str.length (store args.value 0 str) self)
    | none => .error (.notString args.tagname args.index (luaType v))
  | .struct st =>
    (sub st v args.value).map fun
      | none => .error
      | some (value, r) => .size r value self

/-- The callback `encode`. -/
def encode (sp : Sproto) (numbers : Numbers) :
    ℕ → Arg → EncodeUd → Except Failure (Reply EncodeUd)
  | 0, _, _ => .error .tooDeep
  | level + 1, args, self =>
    (fetch args self).bind fun
      | (none, self) => .ok (.noarray self)
      | (some (.atom .nil), self) => .ok (.nil self)
      | (some v, self) =>
        encodeValue numbers (fun st v value =>
          (sprotoEncode (encode sp numbers level) (sp.type st) value
            ⟨v, none, [], []⟩).map fun r =>
              r.map fun (value, r, _) => (value, r)) args v self

/-- `sproto_encode` with the callback, to a buffer: the bytes, or `none` if
it returns -1. -/
def encodeTo (sp : Sproto) (numbers : Numbers) (st : SprotoType)
    (v : Value) (buffer : List UInt8) : Except Failure (Option (List UInt8)) :=
  (sprotoEncode (encode sp numbers encodeDeeplevel) st buffer
    ⟨v, none, [], []⟩).map fun r => r.map fun (header, sz, _) =>
      header.take sz

/-- The loop of `lencode`, with `rounds` rounds left.  The buffer is twice as
large each time. -/
def encodeRounds (sp : Sproto) (numbers : Numbers) (st : SprotoType)
    (v : Value) : ℕ → List UInt8 → Except Failure (List UInt8)
  | 0, _ => .error .tooLarge
  | rounds + 1, buffer =>
    (encodeTo sp numbers st v buffer).bind fun
      | some s => .ok s
      | none =>
        let sz := buffer.length * 2
        if sz > encodeMaxsize then .error .tooLarge
        else encodeRounds sp numbers st v rounds (List.replicate sz 0)

/-- The loop ends before `ENCODE_MAXSIZE` rounds, as each of them adds at
least a byte. -/
def lencode (sp : Sproto) (numbers : Numbers) (st : SprotoType)
    (v : Value) (buffer : List UInt8) : Except Failure (List UInt8) :=
  encodeRounds sp numbers st v (encodeMaxsize + 1) buffer

/-! ## Decoding -/

/-- `struct decode_ud`: the field whose array is open, the result, the tag of
the main index, and its value.  The open array is in the result under the name
of its field. -/
structure DecodeUd where
  arrayTag : Option ℕ
  result : Entries
  mainindexTag : Option ℕ
  key : Value

/-- Open the array of the field if it is not open. -/
def newArray (args : Arg) (self : DecodeUd) : DecodeUd :=
  if args.index ≠ 0 ∧ self.arrayTag ≠ some args.tagid then
    { self with
      arrayTag := some args.tagid
      result := Value.setKey self.result (.string args.tagname) (.table 0 []) }
  else self

/-- The array is new and empty. -/
def emptyArray (args : Arg) (self : DecodeUd) : Bool :=
  args.index < 0 ∧ self.arrayTag ≠ some args.tagid

/-- Change the open array. -/
def updateArray (args : Arg) (self : DecodeUd)
    (update : Entries → Except Failure Entries) : Except Failure DecodeUd :=
  match Value.rawget self.result (.string args.tagname) with
  | .table _ es =>
    (update es).map fun es =>
      { self with result := Value.setKey self.result (.string args.tagname)
                              (.table 0 es) }
  | v => .error (.indexed (luaType v))

/-- Put a value into the array or the result. -/
def putValue (args : Arg) (self : DecodeUd) (v : Value) :
    Except Failure (ℤ × DecodeUd) :=
  if args.index > 0 then
    (updateArray args self fun es =>
      .ok (Value.rawseti es args.index.toNat v)).map fun self => (0, self)
  else
    let key := if self.mainindexTag = some args.tagid then v else self.key
    .ok (0, { self with
      key := key
      result := Value.setKey self.result (.string args.tagname) v })

/-- Put a struct into the array under its main index. -/
def putKeyed (args : Arg) (self : DecodeUd) (tag : ℕ) (key v : Value) :
    Except Failure (ℤ × DecodeUd) :=
  match key with
  | .atom .nil => .error (.noMainIndex tag args.tagname)
  | key =>
    (updateArray args self fun es =>
      match Value.rawset es key v with
      | none => .error .invalidKey
      | some es => .ok es).map fun self => (0, self)

/-- The switch of `decode`; `sub` decodes a struct. -/
def decodeValue (numbers : Numbers)
    (sub : ℕ → List UInt8 → Option ℕ → Except Failure (Option (ℕ × DecodeUd)))
    (args : Arg) (self : DecodeUd) : Except Failure (ℤ × DecodeUd) :=
  match args.type with
  | .integer =>
    let v := BitVec.ofNat 64 (number (args.value.take 8))
    if args.extra ≠ 0 then
      putValue args self (.atom (.real (numbers.quotient v args.extra)))
    else putValue args self (.atom (.integer v))
  | .boolean =>
    let v := number (args.value.take 8) % 2 ^ 32
    putValue args self (.atom (.boolean (v ≠ 0)))
  | .string => putValue args self (.atom (.string args.value))
  | .struct st =>
    (sub st args.value args.mainindex).bind fun
      | none => .ok (-1, self)
      | some (r, sub) =>
        if r ≠ args.value.length then .ok (r, self)
        else
          match args.mainindex with
          | some tag => putKeyed args self tag sub.key (.table 0 sub.result)
          | none => putValue args self (.table 0 sub.result)

/-- The callback `decode`. -/
def decode (sp : Sproto) (numbers : Numbers) :
    ℕ → Arg → DecodeUd → Except Failure (ℤ × DecodeUd)
  | 0, _, _ => .error .tooDeep
  | level + 1, args, self =>
    if emptyArray args self then .ok (0, newArray args self)
    else
      decodeValue numbers (fun st value mainindex =>
        sprotoDecode (decode sp numbers level) (sp.type st) value
          ⟨none, [], mainindex, .atom .nil⟩) args (newArray args self)

/-- The table and the bytes that were read. -/
def ldecode (sp : Sproto) (numbers : Numbers) (st : SprotoType)
    (buffer : List UInt8) : Except Failure (Value × ℕ) :=
  (sprotoDecode (decode sp numbers encodeDeeplevel) st buffer
    ⟨none, [], none, .atom .nil⟩).bind fun
    | none => .error .decodeError
    | some (r, self) => .ok (.table 0 self.result, r)

end SkynetServer.Sproto
