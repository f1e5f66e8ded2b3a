import SkynetServer.Sproto.Encode

/-!
# Decoding

`sproto_decode` and the functions it calls, for any callback.
-/

namespace SkynetServer.Sproto

open LittleEndian

def expand64 (v : ℕ) : ℕ :=
  if v.testBit 31 then v ||| (0xffffffff <<< 32) else v

section Decode

variable {σ : Type*} (cb : Arg → σ → Except Failure (ℤ × σ))

/-- The loop of `decode_array_object`.  Each turn takes at least four
bytes. -/
def decodeObjects (args : Arg) : ℕ → List UInt8 → ℕ → ℕ → σ →
    Except Failure (Option σ)
  | _, _, 0, _, ud => .ok (some ud)
  | 0, _, _, _, _ => .ok none
  | fuel + 1, stream, sz, index, ud =>
    if sz < sizeofLength then .ok none
    else
      let hsz := todword stream
      let stream := stream.drop sizeofLength
      let sz := sz - sizeofLength
      if hsz > sz then .ok none
      else
        (cb { args with index := index, value := stream.take hsz } ud).bind
          fun r =>
            if r.1 ≠ 0 then .ok none
            else
              decodeObjects args fuel (stream.drop hsz) (sz - hsz) (index + 1)
                r.2

def decodeArrayObject (args : Arg) (stream : List UInt8) (sz : ℕ) (ud : σ) :
    Except Failure (Option σ) :=
  decodeObjects cb args sz stream sz 1 ud

/-- One element of an array of integers, of `len` bytes. -/
def integerAt (len : ℕ) (stream : List UInt8) : ℕ :=
  if len = sizeofInt32 then expand64 (todword stream)
  else todword stream ||| (todword (stream.drop sizeofInt32) <<< 32)

/-- The loops of `decode_array` over `n` integers or booleans, each of `len`
bytes. -/
def decodeNumbers (args : Arg) (len : ℕ) (number : List UInt8 → ℕ) :
    ℕ → List UInt8 → ℕ → σ → Except Failure σ
  | 0, _, _, ud => .ok ud
  | n + 1, stream, i, ud =>
    (cb { args with index := i + 1, value := bytes 8 (number stream) } ud).bind
      fun r => decodeNumbers args len number n (stream.drop len) (i + 1) r.2

def decodeArray (args : Arg) (stream : List UInt8) (ud : σ) :
    Except Failure (Option σ) :=
  let sz := todword stream
  if sz = 0 then
    (cb { args with index := -1, value := [] } ud).map fun r => some r.2
  else
    let stream := stream.drop sizeofLength
    match args.type with
    | .integer =>
      let len := number (stream.take 1)
      let stream := stream.drop 1
      let sz := sz - 1
      if len = sizeofInt32 ∨ len = sizeofInt64 then
        if sz % len ≠ 0 then .ok none
        else
          (decodeNumbers cb args len (integerAt len) (sz / len) stream 0
            ud).map some
      else .ok none
    | .boolean =>
      (decodeNumbers cb args 1 (fun stream => number (stream.take 1)) sz
        stream 0 ud).map some
    | _ => decodeArrayObject cb args stream sz ud

/-- A field that is no array, with its data. -/
def decodeData (args : Arg) (currentdata : List UInt8) (ud : σ) :
    Except Failure (Option σ) :=
  let sz := todword currentdata
  let data := currentdata.drop sizeofLength
  match args.type with
  | .integer =>
    if sz = sizeofInt32 ∨ sz = sizeofInt64 then
      (cb { args with value := bytes 8 (integerAt sz data) } ud).map fun r =>
        some r.2
    else .ok none
  | .boolean => .ok none
  | _ =>
    (cb { args with value := data.take sz } ud).map fun r =>
      if r.1 ≠ 0 then none else some r.2

/-- The second half of the body of the loop of `sproto_decode`, for the field
of the tag; `value` is the record. -/
def decodeField (f : Field) (value : ℕ) (currentdata : List UInt8) (ud : σ) :
    Except Failure (Option σ) :=
  if value = 0 then
    if f.array then decodeArray cb f.args currentdata ud
    else decodeData cb f.args currentdata ud
  else if f.array = false ∧ (f.type = .integer ∨ f.type = .boolean) then
    (cb { f.args with value := bytes 8 (value / 2 - 1) } ud).map fun r =>
      some r.2
  else .ok none

/-- The loop of `sproto_decode` over the records at `stream`; the state and
what is left of the data. -/
def decodeFields (st : SprotoType) : ℕ → List UInt8 → List UInt8 → ℤ → σ →
    Except Failure (Option (List UInt8 × σ))
  | 0, _, datastream, _, ud => .ok (some (datastream, ud))
  | i + 1, stream, datastream, tag, ud =>
    let value := toword stream
    let stream := stream.drop sizeofField
    let tag := tag + 1
    if value % 2 = 1 then
      decodeFields st i stream datastream (tag + value / 2) ud
    else
      let currentdata := datastream
      let sz :=
        if value = 0 then (todword datastream + sizeofLength) % 2 ^ 32 else 0
      if value = 0 ∧
        (datastream.length < sizeofLength ∨ datastream.length < sz) then
        .ok none
      else
        match findtag st tag with
        | none => decodeFields st i stream (datastream.drop sz) tag ud
        | some f =>
          (decodeField cb f value currentdata ud).bind fun
            | none => .ok none
            | some ud => decodeFields st i stream (datastream.drop sz) tag ud

/-- The bytes that were read, or `none` for -1. -/
def sprotoDecode (st : SprotoType) (data : List UInt8) (ud : σ) :
    Except Failure (Option (ℕ × σ)) :=
  if data.length < sizeofHeader then .ok none
  else
    let fn := toword data
    let stream := data.drop sizeofHeader
    if stream.length < fn * sizeofField then .ok none
    else
      (decodeFields cb st fn stream (stream.drop (fn * sizeofField)) (-1)
        ud).map fun r =>
        r.map fun p => (data.length - p.1.length, p.2)

end Decode

end SkynetServer.Sproto
