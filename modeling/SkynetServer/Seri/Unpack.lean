import SkynetServer.Seri.Pack

/-!
# `luaseri_unpack`

The buffer is read from its first byte on.  A read block is the list of the
bytes that are left, and `none` stands for an invalid stream.
-/

namespace SkynetServer.Seri

open LittleEndian

/-- `get_integer` -/
def getInteger (cookie : ℕ) (rb : List UInt8) :
    Option (BitVec 64 × List UInt8) :=
  if cookie = numberZero then some (0, rb)
  else if cookie = numberByte then do
    let (pn, rb) ← read 1 rb
    return (BitVec.ofNat 64 (number pn), rb)
  else if cookie = numberWord then do
    let (pn, rb) ← read 2 rb
    return (BitVec.ofNat 64 (number pn), rb)
  else if cookie = numberDword then do
    let (pn, rb) ← read 4 rb
    return ((BitVec.ofNat 32 (number pn)).signExtend 64, rb)
  else if cookie = numberQword then do
    let (pn, rb) ← read 8 rb
    return (BitVec.ofNat 64 (number pn), rb)
  else none

/-- `get_real` and `get_pointer` -/
def getQword (rb : List UInt8) : Option (BitVec 64 × List UInt8) := do
  let (pn, rb) ← read 8 rb
  return (BitVec.ofNat 64 (number pn), rb)

/-- `get_buffer`, with an argument that fits in an `int` -/
def getBuffer (rb : List UInt8) (len : ℕ) :
    Option (Value × List UInt8) :=
  if len < 2 ^ 31 then do
    let (p, rb) ← read len rb
    return (.atom (.string p), rb)
  else none

section Tables

variable (unpackOne : List UInt8 → Option (Value × List UInt8))

/-- The `for` loop of `unpack_table` over the array part, from index `i`
on. -/
def unpackArray :
    ℕ → ℕ → Entries → List UInt8 → Option (Entries × List UInt8)
  | 0, _, es, rb => some (es, rb)
  | n + 1, i, es, rb => do
    let (v, rb) ← unpackOne rb
    unpackArray n (i + 1) (Value.rawseti es i v) rb

/-- The loop of `unpack_table` over the hash part.  A round reads a byte at
least, so one round for each byte is enough. -/
def unpackHash : ℕ → Entries → List UInt8 → Option (Entries × List UInt8)
  | 0, _, _ => none
  | n + 1, es, rb => do
    let (k, rb) ← unpackOne rb
    match k with
    | .atom .nil => some (es, rb)
    | k =>
      let (v, rb) ← unpackOne rb
      let es ← Value.rawset es k v
      unpackHash n es rb

/-- The array size in `unpack_table`, from the cookie. -/
def readArraySize (cookie : ℕ) (rb : List UInt8) : Option (ℤ × List UInt8) :=
  if cookie = maxCookie - 1 then do
    let (t, rb) ← read 1 rb
    let type := number t
    if type &&& 7 ≠ typeNumber ∨ type >>> 3 = numberReal then none
    else
      let (x, rb) ← getInteger (type >>> 3) rb
      return ((x.setWidth 32).toInt, rb)
  else some (cookie, rb)

/-- `unpack_table`.  Nobody asks for the border of the new table. -/
def unpackTable (cookie : ℕ) (rb : List UInt8) :
    Option (Value × List UInt8) := do
  let (arraySize, rb) ← readArraySize cookie rb
  let (es, rb) ← unpackArray unpackOne arraySize.toNat 1 [] rb
  let (es, rb) ← unpackHash unpackOne rb.length es rb
  return (.table 0 es, rb)

/-- `push_value` -/
def pushValue (type cookie : ℕ) (rb : List UInt8) :
    Option (Value × List UInt8) :=
  if type = typeNil then some (.atom .nil, rb)
  else if type = typeBoolean then
    some (.atom (.boolean (cookie ≠ 0)), rb)
  else if type = typeNumber then
    if cookie = numberReal then do
      let (bits, rb) ← getQword rb
      return (.atom (.real bits), rb)
    else do
      let (x, rb) ← getInteger cookie rb
      return (.atom (.integer x), rb)
  else if type = typeUserdata then do
    let (p, rb) ← getQword rb
    return (.atom (.lightuserdata p), rb)
  else if type = typeShortString then getBuffer rb cookie
  else if type = typeLongString then
    if cookie = 2 then do
      let (plen, rb) ← read 2 rb
      getBuffer rb (number plen)
    else if cookie ≠ 4 then none
    else do
      let (plen, rb) ← read 4 rb
      getBuffer rb (number plen)
  else if type = typeTable then unpackTable unpackOne cookie rb
  else none

end Tables

/-- `unpack_one`.  A value inside another one has fewer bytes, so one level
for each byte is enough. -/
def unpackOne : ℕ → List UInt8 → Option (Value × List UInt8)
  | 0, _ => none
  | n + 1, rb => do
    let (t, rb) ← read 1 rb
    pushValue (unpackOne n) (number t &&& 7) (number t >>> 3) rb

/-- The loop of `luaseri_unpack`. -/
def unpackAll : ℕ → List UInt8 → Option (List Value)
  | 0, _ => none
  | n + 1, rb =>
    match read 1 rb with
    | none => some []
    | some (t, rest) => do
      let (v, rb) ←
        pushValue (unpackOne rb.length) (number t &&& 7) (number t >>> 3) rest
      let vs ← unpackAll n rb
      return v :: vs

/-- `luaseri_unpack` of a buffer, with its length as an `int` -/
def luaseriUnpack (buffer : List UInt8) (len : ℤ) : Option (List Value) :=
  if len = 0 then some []
  else
    let rb := buffer.take len.toNat
    unpackAll (rb.length + 1) rb

end SkynetServer.Seri
