import SkynetServer.Support.LittleEndian
import Mathlib.Algebra.Group.Int.Defs

/-!
# Sproto types

The types and protocols that `sproto_create` loads from a bundle.  A pointer
into the bundle is the list of the bytes from there to its end; behind the end
the model reads zero.
-/

namespace SkynetServer.Sproto

def sizeofLength : ℕ := 4
def sizeofHeader : ℕ := 2
def sizeofField : ℕ := 2
def sizeofInt64 : ℕ := 8
def sizeofInt32 : ℕ := 4

/-- The type of a field, with the index of `st` for a struct. -/
inductive FieldType where
  | integer
  | boolean
  | string
  | struct (st : ℕ)
  deriving DecidableEq, Repr

/-- `struct field`.  The flag `SPROTO_TARRAY` of the type is `array`. -/
structure Field where
  tag : ℕ
  type : FieldType
  array : Bool
  name : List UInt8
  key : Option ℕ
  extra : BitVec 32
  deriving DecidableEq, Repr

/-- `struct sproto_type`, where `n` is the length of `f` -/
structure SprotoType where
  name : List UInt8
  base : ℤ
  maxn : ℕ
  f : List Field
  deriving DecidableEq, Repr

structure Protocol where
  name : List UInt8
  tag : ℕ
  confirm : ℤ
  request : Option ℕ
  response : Option ℕ
  deriving DecidableEq, Repr

end SkynetServer.Sproto

namespace SkynetServer

structure Sproto where
  types : List Sproto.SprotoType
  protos : List Sproto.Protocol
  deriving DecidableEq, Repr

namespace Sproto

open LittleEndian

/-- The type that a pointer `st` is to. -/
def type (sp : Sproto) (st : ℕ) : SprotoType :=
  sp.types.getD st ⟨[], 0, 0, []⟩

/-! ## Reading a bundle -/

def toword (p : List UInt8) : ℕ := number (p.take 2)

def todword (p : List UInt8) : ℕ := number (p.take 4)

/-- Why nothing is loaded: `sproto_create` returns `NULL`, or it does not
return. -/
inductive Reject where
  | null
  | hang
  deriving DecidableEq, Repr

/-- The loop of `count_array`; an element of size zero is counted for ever. -/
def countElements : ℕ → ℕ → List UInt8 → Except Reject ℕ
  | _, 0, _ => .ok 0
  | 0, _, _ => .error .hang
  | fuel + 1, length, stream =>
    if length < sizeofLength then .error .null
    else
      let nsz := (todword stream + sizeofLength) % 2 ^ 32
      if nsz > length then .error .null
      else if nsz = 0 then .error .hang
      else (countElements fuel (length - nsz) (stream.drop nsz)).map (· + 1)

def countArray (stream : List UInt8) : Except Reject ℕ :=
  let length := todword stream
  countElements length length (stream.drop sizeofLength)

/-- The loop of `struct_field`: the data of the fields is within `sz`. -/
def fieldsWithin : ℕ → List UInt8 → List UInt8 → ℕ → Bool
  | 0, _, _, _ => true
  | i + 1, field, stream, sz =>
    if toword field ≠ 0 then
      fieldsWithin i (field.drop sizeofField) stream sz
    else if sz < sizeofLength then false
    else
      let dsz := (sizeofLength + todword stream) % 2 ^ 32
      if sz < dsz then false
      else
        fieldsWithin i (field.drop sizeofField) (stream.drop dsz) (sz - dsz)

def structField (stream : List UInt8) (sz : ℕ) : Option ℕ :=
  if sz < sizeofLength then none
  else
    let fn := toword stream
    let header := sizeofHeader + sizeofField * fn
    if sz < header then none
    else if fieldsWithin fn (stream.drop sizeofHeader) (stream.drop header)
      (sz - header) then some fn
    else none

/-- A string, as the C functions that use it see it: up to the first zero. -/
def importString (stream : List UInt8) : List UInt8 :=
  let sz := todword stream
  ((stream.drop sizeofLength).take sz).takeWhile (· ≠ 0)

def calcPow (base : BitVec 32) (n : ℕ) : BitVec 32 :=
  if n = 0 then 1
  else
    let r := calcPow (base * base) (n / 2)
    if n % 2 = 1 then r * base else r
termination_by n
decreasing_by exact Nat.div_lt_self (by omega) (by omega)

/-- The field that `import_field` has filled so far. -/
structure Draft where
  tag : Option ℕ
  type : Option FieldType
  array : Bool
  name : Option (List UInt8)
  key : Option ℕ
  extra : BitVec 32

def buildin : ℕ → Option FieldType
  | 0 => some .integer
  | 1 => some .boolean
  | 2 => some .string
  | _ => none

/-- The body of the loop of `import_field`, for a value that is no skip. -/
def importAttribute
    (typeN : ℕ) (content : List UInt8) (tag value : ℕ) (f : Draft) :
    Option Draft :=
  if tag = 0 then
    if value ≠ 0 then none
    else some { f with name := some (importString content) }
  else if value = 0 then none
  else
    let value := value / 2 - 1
    match tag with
    | 1 => (buildin value).map fun type => { f with type := some type }
    | 2 =>
      match f.type with
      | some .integer => some { f with extra := calcPow 10 value }
      | some .string => some { f with extra := BitVec.ofNat 32 value }
      | none =>
        if value ≥ typeN then none
        else some { f with type := some (.struct value) }
      | _ => none
    | 3 => some { f with tag := some value }
    | 4 => some (if value ≠ 0 then { f with array := true } else f)
    | 5 => some { f with key := some value }
    | _ => none

/-- The loop of `import_field`; `tag` is the one after the last. -/
def importAttributes (typeN : ℕ) (content : List UInt8) :
    ℕ → List UInt8 → ℕ → Draft → Option Draft
  | 0, _, _, f => some f
  | i + 1, stream, tag, f =>
    let value := toword stream
    if value % 2 = 1 then
      importAttributes typeN content i (stream.drop sizeofField)
        (tag + value / 2 + 1) f
    else
      (importAttribute typeN content tag value f).bind fun f =>
        importAttributes typeN content i (stream.drop sizeofField) (tag + 1) f

def importField (typeN : ℕ) (stream : List UInt8) :
    Option (Field × List UInt8) :=
  let sz := todword stream
  let stream := stream.drop sizeofLength
  let result := stream.drop sz
  (structField stream sz).bind fun fn =>
    let stream := stream.drop sizeofHeader
    let content := stream.drop (fn * sizeofField)
    (importAttributes typeN content fn stream 0
      ⟨none, none, false, none, none, 0⟩).bind fun f =>
      match f.tag, f.type, f.name with
      | some tag, some type, some name =>
        some (⟨tag, type, f.array, name, f.key, f.extra⟩, result)
      | _, _, _ => none

/-- The loop of `import_type`: the fields, in ascending order of their tags,
and how much `maxn` grows. -/
def importFields (typeN : ℕ) :
    ℕ → List UInt8 → ℤ → Option (List Field × ℕ)
  | 0, _, _ => some ([], 0)
  | n + 1, stream, last =>
    (importField typeN stream).bind fun p =>
      let tag := (p.1.tag : ℤ)
      if tag ≤ last then none
      else
        (importFields typeN n p.2 tag).map fun q =>
          (p.1 :: q.1, if tag > last + 1 then q.2 + 1 else q.2)

/-- The first tag if the tags have no gap, else -1.  The source reads the tags
of the first and the last field also when there is none. -/
def baseOf (f : List Field) : ℤ :=
  match f.head?, f.getLast? with
  | some first, some last =>
    if last.tag - first.tag + 1 ≠ (f.length : ℤ) then -1 else first.tag
  | _, _ => -1

/-- Name and fields must encode to 0. -/
def allZero : ℕ → List UInt8 → Bool
  | 0, _ => true
  | i + 1, stream => toword stream = 0 && allZero i (stream.drop sizeofField)

def importType (typeN : ℕ) (stream : List UInt8) :
    Except Reject (SprotoType × List UInt8) :=
  let sz := todword stream
  let stream := stream.drop sizeofLength
  let result := stream.drop sz
  match structField stream sz with
  | none => .error .null
  | some fn =>
    if fn = 0 ∨ fn > 2 then .error .null
    else if ! allZero fn (stream.drop sizeofHeader) then .error .null
    else
      let stream := stream.drop (sizeofHeader + fn * sizeofField)
      let name := importString stream
      if fn = 1 then .ok (⟨name, 0, 0, []⟩, result)
      else
        let stream := stream.drop (todword stream + sizeofLength)
        (countArray stream).bind fun n =>
          match importFields typeN n (stream.drop sizeofLength) (-1) with
          | none => .error .null
          | some (f, gaps) => .ok (⟨name, baseOf f, n + gaps, f⟩, result)

/-- The body of the loop of `import_protocol`, for a value that is no skip. -/
def importProtocolField
    (typeN : ℕ) (content : List UInt8) (i value : ℕ)
    (p : Option (List UInt8) × Option ℕ × ℤ × Option ℕ × Option ℕ) :
    Option (Option (List UInt8) × Option ℕ × ℤ × Option ℕ × Option ℕ) :=
  let (name, tag, confirm, request, response) := p
  match i with
  | 0 =>
    if value ≠ 0 then none
    else some (some (importString content), tag, confirm, request, response)
  | 1 =>
    if value = 0 then none
    else some (name, some (value / 2 - 1), confirm, request, response)
  | 2 =>
    if value = 0 ∨ value / 2 - 1 ≥ typeN then none
    else some (name, tag, confirm, some (value / 2 - 1), response)
  | 3 =>
    if value = 0 ∨ value / 2 - 1 ≥ typeN then none
    else some (name, tag, confirm, request, some (value / 2 - 1))
  | 4 => some (name, tag, (value / 2 : ℕ) - 1, request, response)
  | _ => none

/-- The loop of `import_protocol`, which switches on the index. -/
def importProtocolFields (typeN : ℕ) (content : List UInt8) :
    ℕ → ℕ → List UInt8 →
    Option (List UInt8) × Option ℕ × ℤ × Option ℕ × Option ℕ →
    Option (Option (List UInt8) × Option ℕ × ℤ × Option ℕ × Option ℕ)
  | 0, _, _, p => some p
  | n + 1, i, stream, p =>
    let value := toword stream
    if value % 2 = 1 then
      importProtocolFields typeN content n (i + 1)
        (stream.drop sizeofField) p
    else
      (importProtocolField typeN content i value p).bind fun p =>
        importProtocolFields typeN content n (i + 1)
          (stream.drop sizeofField) p

def importProtocol (typeN : ℕ) (stream : List UInt8) :
    Option (Protocol × List UInt8) :=
  let sz := todword stream
  let stream := stream.drop sizeofLength
  let result := stream.drop sz
  let fn := (structField stream sz).getD 0
  let stream := stream.drop sizeofHeader
  (importProtocolFields typeN (stream.drop (sizeofField * fn)) fn 0 stream
    (none, none, 0, none, none)).bind fun p =>
    match p with
    | (some name, some tag, confirm, request, response) =>
      some (⟨name, tag, confirm, request, response⟩, result)
    | _ => none

def importTypes (typeN : ℕ) :
    ℕ → List UInt8 → Except Reject (List SprotoType)
  | 0, _ => .ok []
  | n + 1, stream =>
    (importType typeN stream).bind fun p =>
      (importTypes typeN n p.2).map (p.1 :: ·)

def importProtocols (typeN : ℕ) :
    ℕ → List UInt8 → Except Reject (List Protocol)
  | 0, _ => .ok []
  | n + 1, stream =>
    match importProtocol typeN stream with
    | none => .error .null
    | some p => (importProtocols typeN n p.2).map (p.1 :: ·)

/-- The loop of `create_from_bundle`: the number of elements and the data of
each of the two arrays. -/
def bundleArrays :
    ℕ → List UInt8 → List UInt8 → Except Reject (List (ℕ × List UInt8))
  | 0, _, _ => .ok []
  | i + 1, stream, content =>
    if toword stream ≠ 0 then .error .null
    else
      (countArray content).bind fun n =>
        (bundleArrays i (stream.drop sizeofField)
          (content.drop (todword content + sizeofLength))).map
          ((n, content.drop sizeofLength) :: ·)

def createFromBundle (stream : List UInt8) (sz : ℕ) :
    Except Reject Sproto :=
  match structField stream sz with
  | none => .error .null
  | some fn =>
    if fn > 2 then .error .null
    else
      let stream := stream.drop sizeofHeader
      let content := stream.drop (fn * sizeofField)
      (bundleArrays fn stream content).bind fun arrays =>
        let (typeN, typedata) := arrays.getD 0 (0, [])
        let (protocolN, protocoldata) := arrays.getD 1 (0, [])
        (importTypes typeN typeN typedata).bind fun types =>
          (importProtocols typeN protocolN protocoldata).map fun protos =>
            ⟨types, protos⟩

def sprotoCreate (proto : List UInt8) : Except Reject Sproto :=
  createFromBundle proto proto.length

/-! ## Looking for a tag -/

/-- The loop of `findtag` between `begin` and `begin + n`. -/
def searchTag (f : List Field) (tag : ℤ) : ℕ → ℕ → ℕ → Option Field
  | 0, _, _ => none
  | fuel + 1, first, last =>
    if first < last then
      let mid := (first + last) / 2
      match f[mid]? with
      | none => none
      | some field =>
        if (field.tag : ℤ) = tag then some field
        else if tag > field.tag then searchTag f tag fuel (mid + 1) last
        else searchTag f tag fuel first mid
    else none

def findtag (st : SprotoType) (tag : ℤ) : Option Field :=
  if st.base ≥ 0 then
    let i := tag - st.base
    if i < 0 ∨ i ≥ st.f.length then none else st.f[i.toNat]?
  else searchTag st.f tag (st.f.length + 1) 0 st.f.length

end Sproto

end SkynetServer
