import SkynetServer.Sproto.Schema
import SkynetServer.Support.Memory

/-!
# Encoding

`sproto_encode` and the functions it calls, for any callback.  A pointer with
a size is the block of bytes from the pointer to the end of the buffer, and
its length is the size: the source moves the two together.
-/

namespace SkynetServer.Sproto

open LittleEndian Memory

/-- The types of Lua values that error messages name. -/
inductive LuaType where
  | nil
  | boolean
  | lightuserdata
  | number
  | string
  | table
  deriving DecidableEq, Repr

/-- Why a call does not return: an error of Lua, or an assertion. -/
inductive Failure where
  | tooDeep
  | notTable (tagname : List UInt8) (index : ℤ) (is : LuaType)
  | notInteger (tagname : List UInt8) (index : ℤ) (is : LuaType)
  | notBoolean (tagname : List UInt8) (index : ℤ) (is : LuaType)
  | notString (tagname : List UInt8) (index : ℤ) (is : LuaType)
  | indexed (is : LuaType)
  | invalidKey
  | tooLarge
  | noMainIndex (tag : ℕ) (tagname : List UInt8)
  | decodeError
  | assertion
  deriving DecidableEq, Repr

/-- `struct sproto_arg`, with the `length` bytes that `value` points to -/
structure Arg where
  tagname : List UInt8
  tagid : ℕ
  type : FieldType
  value : List UInt8
  index : ℤ
  mainindex : Option ℕ
  extra : BitVec 32

/-- The arguments for a field, before `value` is set. -/
def Field.args (f : Field) : Arg :=
  ⟨f.name, f.tag, f.type, [], 0, f.key, f.extra⟩

/-- What the callback returns to the encoder: a code, or a size with the bytes
behind `value`.  After `SPROTO_CB_ERROR` its state is not used again. -/
inductive Reply (σ : Type*) where
  | error
  | nil (ud : σ)
  | noarray (ud : σ)
  | size (sz : ℕ) (value : List UInt8) (ud : σ)

/-- What is left to do after a part of `sproto_encode`: return -1, return 0,
or go on. -/
inductive Outcome (σ α : Type*) where
  | fail
  | leave (ud : σ)
  | next (a : α) (ud : σ)

def fillSize (data : List UInt8) (sz : ℕ) : List UInt8 × ℕ :=
  (store data 0 (bytes sizeofLength sz), sz + sizeofLength)

def encodeInteger (v : ℕ) (data : List UInt8) : Option (List UInt8 × ℕ) :=
  if data.length < sizeofLength + sizeofInt32 then none
  else some (fillSize (store data sizeofLength (bytes 4 v)) sizeofInt32)

def encodeUint64 (v : ℕ) (data : List UInt8) : Option (List UInt8 × ℕ) :=
  if data.length < sizeofLength + sizeofInt64 then none
  else some (fillSize (store data sizeofLength (bytes 8 v)) sizeofInt64)

section Encode

variable {σ : Type*} (cb : Arg → σ → Except Failure (Reply σ))

def encodeObject (args : Arg) (data : List UInt8) (ud : σ) :
    Except Failure (Option (List UInt8 × ℕ × σ)) :=
  if data.length < sizeofLength then .ok none
  else
    (cb { args with value := data.drop sizeofLength } ud).bind fun
      | .nil ud => .ok (some (data, 0, ud))
      | .size sz value ud =>
        if sz ≤ data.length - sizeofLength then
          let (data, sz) := fillSize (data.take sizeofLength ++ value) sz
          .ok (some (data, sz, ud))
        else .error .assertion
      | _ => .ok none

/-! ## Arrays of integers -/

def uint32ToUint64 (negative : Bool) (buffer : List UInt8) (p : ℕ) :
    List UInt8 :=
  store buffer (p + 4) (List.replicate 4 (if negative then 0xff else 0))

/-- The loop that rearranges the first `i` elements, from the last one on. -/
def widen : ℕ → List UInt8 → List UInt8
  | 0, header => header
  | i + 1, header =>
    let header := store header (1 + i * sizeofInt64)
      (load header (1 + i * sizeofInt32) sizeofInt32)
    let negative := (header.getD (1 + i * sizeofInt64 + 3) 0).toNat.testBit 7
    widen i (uint32ToUint64 negative header (1 + i * sizeofInt64))

/-- The variables of the loop of `encode_integer_array`; `buffer` is relative
to `header`. -/
structure IntegerArray where
  header : List UInt8
  buffer : ℕ
  intlen : ℕ
  index : ℕ

/-- The elements so far, with eight bytes each. -/
def rearrange (a : IntegerArray) : Option IntegerArray :=
  if a.intlen = sizeofInt32 then
    let buffer := a.buffer + (a.index - 1) * sizeofInt32
    if a.header.length - buffer < sizeofInt64 then none
    else some ⟨widen (a.index - 1) a.header, buffer, sizeofInt64, a.index⟩
  else some a

/-- The rest of the body of the loop, for an element of `sz` bytes. -/
def putInteger (a : IntegerArray) (sz : ℕ) (u : List UInt8) :
    Option IntegerArray :=
  if a.header.length - a.buffer < sizeofInt64 then none
  else if sz = sizeofInt32 then
    let v := todword u
    let header := store a.header a.buffer (bytes 4 v)
    let header :=
      if a.intlen = sizeofInt64 then
        uint32ToUint64 (v.testBit 31) header a.buffer
      else header
    some ⟨header, a.buffer + a.intlen, a.intlen, a.index + 1⟩
  else if sz ≠ sizeofInt64 then none
  else
    (rearrange a).map fun a =>
      ⟨store a.header a.buffer (bytes 8 (number (u.take 8))),
        a.buffer + a.intlen, a.intlen, a.index + 1⟩

/-- The loop of `encode_integer_array`.  Each turn takes at least four bytes
of the buffer. -/
def encodeIntegers (args : Arg) : ℕ → IntegerArray → σ →
    Except Failure (Option (IntegerArray × Bool × σ))
  | 0, _, _ => .ok none
  | fuel + 1, a, ud =>
    (cb { args with value := List.replicate 8 0, index := a.index } ud).bind fun
      | .nil ud => .ok (some (a, false, ud))
      | .noarray ud => .ok (some (a, true, ud))
      | .size sz u ud =>
        match putInteger a sz u with
        | none => .ok none
        | some a => encodeIntegers args fuel a ud
      | .error => .ok none

/-- The block after the call, where the elements end, and `noarray`. -/
def encodeIntegerArray (args : Arg) (buffer : List UInt8) (ud : σ) :
    Except Failure (Option (List UInt8 × ℕ × Bool × σ)) :=
  if buffer.length < 1 then .ok none
  else
    (encodeIntegers cb args (buffer.length + 1) ⟨buffer, 1, sizeofInt32, 1⟩
      ud).map fun r =>
      r.map fun (a, noarray, ud) =>
        if a.buffer = 1 then (a.header, 0, noarray, ud)
        else
          (store a.header 0 [UInt8.ofNat a.intlen], a.buffer, noarray, ud)

/-! ## Other arrays -/

/-- The loop of `encode_array` for booleans. -/
def encodeBooleans (args : Arg) : ℕ → List UInt8 → ℕ → ℕ → σ →
    Except Failure (Option (List UInt8 × ℕ × Bool × σ))
  | 0, _, _, _, _ => .ok none
  | fuel + 1, data, buffer, index, ud =>
    (cb { args with value := List.replicate 4 0, index := index } ud).bind fun
      | .nil ud => .ok (some (data, buffer, false, ud))
      | .noarray ud => .ok (some (data, buffer, true, ud))
      | .size _ v ud =>
        if data.length - buffer < 1 then .ok none
        else
          encodeBooleans args fuel
            (store data buffer [if number (v.take 4) ≠ 0 then 1 else 0])
            (buffer + 1) (index + 1) ud
      | .error => .ok none

/-- The loop of `encode_array` for strings and structs. -/
def encodeObjects (args : Arg) : ℕ → List UInt8 → ℕ → ℕ → σ →
    Except Failure (Option (List UInt8 × ℕ × Bool × σ))
  | 0, _, _, _, _ => .ok none
  | fuel + 1, data, buffer, index, ud =>
    if data.length - buffer < sizeofLength then .ok none
    else
      (cb { args with value := data.drop (buffer + sizeofLength),
                      index := index } ud).bind fun
        | .nil ud => .ok (some (data, buffer, false, ud))
        | .noarray ud => .ok (some (data, buffer, true, ud))
        | .size sz value ud =>
          encodeObjects args fuel
            (store (data.take (buffer + sizeofLength) ++ value) buffer
              (bytes sizeofLength sz))
            (buffer + sizeofLength + sz) (index + 1) ud
        | .error => .ok none

/-- The switch of `encode_array`: the block behind the size, the size, and
whether there is no array. -/
def encodeElements (args : Arg) (buffer : List UInt8) (ud : σ) :
    Except Failure (Option (List UInt8 × ℕ × Bool × σ)) :=
  match args.type with
  | .integer => encodeIntegerArray cb args buffer ud
  | .boolean => encodeBooleans cb args (buffer.length + 1) buffer 0 1 ud
  | _ => encodeObjects cb args (buffer.length + 1) buffer 0 1 ud

def encodeArray (args : Arg) (data : List UInt8) (ud : σ) :
    Except Failure (Option (List UInt8 × ℕ × σ)) :=
  if data.length < sizeofLength then .ok none
  else
    (encodeElements cb args (data.drop sizeofLength) ud).map fun r =>
      r.map fun (buffer, sz, noarray, ud) =>
        let data := data.take sizeofLength ++ buffer
        if noarray then (data, 0, ud)
        else
          let (data, sz) := fillSize data sz
          (data, sz, ud)

/-! ## Structs -/

/-- An integer or a boolean: the value in the header and the size. -/
def encodeNumber (args : Arg) (data : List UInt8) (ud : σ) :
    Except Failure (Outcome σ (ℕ × ℕ × List UInt8)) :=
  (cb { args with value := List.replicate 8 0 } ud).map fun
    | .nil ud => .next (0, 0, data) ud
    | .noarray ud => .leave ud
    | .error => .fail
    | .size sz u ud =>
      if sz = sizeofInt32 then
        let u32 := todword u
        if u32 < 0x7fff then .next ((u32 + 1) * 2, 2, data) ud
        else
          match encodeInteger u32 data with
          | none => .fail
          | some (data, sz) => .next (0, sz, data) ud
      else if sz = sizeofInt64 then
        match encodeUint64 (number (u.take 8)) data with
        | none => .fail
        | some (data, sz) => .next (0, sz, data) ud
      else .fail

/-- -1, or the size without a value in the header. -/
def sized (r : Option (List UInt8 × ℕ × σ)) :
    Outcome σ (ℕ × ℕ × List UInt8) :=
  match r with
  | none => .fail
  | some (data, sz, ud) => .next (0, sz, data) ud

/-- The first half of the body of the loop of `sproto_encode`: the value in
the header, the size, and the block at `data`. -/
def encodeField (f : Field) (data : List UInt8) (ud : σ) :
    Except Failure (Outcome σ (ℕ × ℕ × List UInt8)) :=
  if f.array then (encodeArray cb f.args data ud).map sized
  else
    match f.type with
    | .integer => encodeNumber cb f.args data ud
    | .boolean => encodeNumber cb f.args data ud
    | _ => (encodeObject cb f.args data ud).map sized

/-- The variables of the loop of `sproto_encode`; `data` is relative to the
buffer. -/
structure Frame where
  buffer : List UInt8
  data : ℕ
  index : ℕ
  lasttag : ℤ

/-- The record of a skipped tag, if there is one. -/
def putSkip (buffer : List UInt8) (index : ℕ) (tag : ℤ) :
    Option (List UInt8 × ℕ) :=
  if tag > 0 then
    let tag := (tag - 1) * 2 + 1
    if tag > 0xffff then none
    else
      some (store buffer (sizeofHeader + sizeofField * index)
        (bytes 2 tag.toNat), index + 1)
  else some (buffer, index)

/-- The second half of the body: the records of the field. -/
def putRecord (f : Field) (value sz : ℕ) (data : List UInt8) (frame : Frame) :
    Option Frame :=
  let buffer := frame.buffer.take frame.data ++ data
  if sz = 0 then some { frame with buffer := buffer }
  else
    (putSkip buffer frame.index (f.tag - frame.lasttag - 1)).map fun p =>
      ⟨store p.1 (sizeofHeader + sizeofField * p.2) (bytes 2 value),
        if value = 0 then frame.data + sz else frame.data, p.2 + 1, f.tag⟩

/-- The loop of `sproto_encode`. -/
def encodeFields : List Field → Frame → σ →
    Except Failure (Outcome σ Frame)
  | [], frame, ud => .ok (.next frame ud)
  | f :: fs, frame, ud =>
    (encodeField cb f (frame.buffer.drop frame.data) ud).bind fun
      | .fail => .ok .fail
      | .leave ud => .ok (.leave ud)
      | .next (value, sz, data) ud =>
        match putRecord f value sz data frame with
        | none => .ok .fail
        | some frame => encodeFields fs frame ud

/-- The buffer and the size that is returned, or `none` for -1. -/
def sprotoEncode (st : SprotoType) (buffer : List UInt8) (ud : σ) :
    Except Failure (Option (List UInt8 × ℕ × σ)) :=
  let headerSz := sizeofHeader + st.maxn * sizeofField
  if buffer.length < headerSz then .ok none
  else
    (encodeFields cb st.f ⟨buffer, headerSz, 0, -1⟩ ud).map fun
      | .fail => none
      | .leave ud => some (buffer, 0, ud)
      | .next frame ud =>
        let header := store frame.buffer 0 (bytes 2 frame.index)
        let datasz := frame.data - headerSz
        let header :=
          if frame.index ≠ st.maxn then
            store header (sizeofHeader + frame.index * sizeofField)
              (load header headerSz datasz)
          else header
        some (header, sizeofHeader + frame.index * sizeofField + datasz, ud)

end Encode

end SkynetServer.Sproto
