import Mathlib.Data.Int.Notation
import Mathlib.Data.Nat.Notation
import Mathlib.Logic.Function.Basic

/-!
# The 0 pack of `sproto.c`

The bytes are packed in words of eight.  A word becomes a header, with a bit
for each byte that is not zero, and these bytes.  Words with at most two zero
bytes behind one without are not packed; a run of them is copied behind `0xff`
and the number of words.

Memory is a function from indices to bytes.  `sproto_pack` and `sproto_unpack`
have `int` lengths.
-/

namespace SkynetServer.SprotoPack

open Function

/-- The bytes from a pointer on. -/
abbrev Memory := ℕ → UInt8

/-! ## `sproto_pack` -/

/-- What the loop of `pack_seg` changes. -/
structure Seg where
  header : ℕ
  notzero : ℕ
  buffer : ℕ
  sz : ℤ
  memory : Memory

/-- The loop of `pack_seg` from `i` on. -/
def segLoop : ℕ → List UInt8 → Seg → Seg
  | _, [], s => s
  | i, b :: src, s =>
    segLoop (i + 1) src
      (if b ≠ 0 then
        let s := { s with
          notzero := s.notzero + 1, header := s.header ||| 1 <<< i }
        if s.sz > 0 then
          { s with
            memory := update s.memory s.buffer b
            buffer := s.buffer + 1
            sz := s.sz - 1 }
        else s
      else s)

/-- `pack_seg` of the eight bytes `src` to the index `buffer`, behind `n` words
of a run: the result and the memory. -/
def packSeg (src : List UInt8) (memory : Memory) (buffer : ℕ) (sz : ℤ) (n : ℕ) :
    ℕ × Memory :=
  let s := segLoop 0 src ⟨0, 0, buffer + 1, sz - 1, memory⟩
  let notzero :=
    if (s.notzero = 7 ∨ s.notzero = 6) ∧ n > 0 then 8 else s.notzero
  if notzero = 8 then (if n > 0 then 8 else 10, s.memory)
  else
    (notzero + 1,
      if sz - 1 < 0 then s.memory
      else update s.memory buffer (.ofNat s.header))

/-- Store bytes from an index on. -/
def store (memory : Memory) (des : ℕ) (bytes : List UInt8) : Memory :=
  fun k =>
    if des ≤ k ∧ k < des + bytes.length then bytes.getD (k - des) 0
    else memory k

/-- The first `n` bytes. -/
def readBytes (src : Memory) (n : ℕ) : List UInt8 := (List.range n).map src

/-- `write_ff` -/
def writeFf (src memory : Memory) (des n : ℕ) : Memory :=
  let align8 := (n + 7) / 8 * 8
  store memory des
    (0xff :: .ofNat (align8 / 8 - 1) ::
      (readBytes src n ++ List.replicate (align8 - n) 0))

/-- A pointer to a word. -/
inductive Source where
  /-- Into `srcv`. -/
  | srcv (pos : ℕ)
  /-- To `tmp`. -/
  | tmp (bytes : List UInt8)

/-- The memory at a pointer. -/
def Source.memory (src : Memory) : Source → Memory
  | .srcv pos => fun k => src (pos + k)
  | .tmp bytes => fun k => bytes.getD k 0

/-- The state of `sproto_pack`.  `buffer` points behind the `size` bytes. -/
structure Packer where
  bufsz : ℤ
  ffSrcstart : Source
  ffDesstart : ℕ
  ffN : ℕ
  size : ℕ
  memory : Memory
  /-- The bytes of `srcv` that were read are those in front of this index. -/
  reads : ℕ

/-- `write_ff` of `n` bytes from `ff_srcstart` on, if they fit. -/
def Packer.writeRun (p : Packer) (src : Memory) (bufsz : ℤ) (n : ℕ) : Packer :=
  if bufsz ≥ 0 then
    { p with
      memory := writeFf (p.ffSrcstart.memory src) p.memory p.ffDesstart n
      reads :=
        match p.ffSrcstart with
        | .srcv pos => max p.reads (pos + n)
        | .tmp _ => p.reads }
  else p

/-- The pointer `src` of a round for the bytes from `i` on: to `tmp` if there
are fewer than eight of them. -/
def source (src : Memory) (srcsz i : ℕ) : Source :=
  let padding := i + 8 - srcsz
  if padding > 0 then
    .tmp (readBytes (fun k => src (i + k)) (8 - padding) ++
      List.replicate padding 0)
  else .srcv i

/-- A round of `sproto_pack` behind `pack_seg`, which has returned `n`. -/
def Packer.next (p : Packer) (src : Memory) (source : Source) (n : ℕ) :
    Packer :=
  let bufsz : ℤ := p.bufsz - n
  let p :=
    if n = 10 then
      -- first FF
      { p with ffSrcstart := source, ffDesstart := p.size, ffN := 1 }
    else if n = 8 ∧ p.ffN > 0 then
      if p.ffN + 1 = 256 then
        { p.writeRun src bufsz (256 * 8) with ffN := 0 }
      else { p with ffN := p.ffN + 1 }
    else if p.ffN > 0 then
      { p.writeRun src bufsz (p.ffN * 8) with ffN := 0 }
    else p
  { p with bufsz := bufsz, size := p.size + n }

/-- A round of `sproto_pack` for the bytes from `i` on. -/
def packRound (src : Memory) (srcsz i : ℕ) (p : Packer) : Packer :=
  let source := source src srcsz i
  let seg := packSeg (readBytes (source.memory src) 8) p.memory p.size p.bufsz
    p.ffN
  { p with memory := seg.2, reads := max p.reads (min (i + 8) srcsz) }.next src
    source seg.1

/-- The first `k` rounds of the loop of `sproto_pack`. -/
def packLoop (src : Memory) (srcsz : ℕ) (p : Packer) : ℕ → Packer
  | 0 => p
  | k + 1 => packRound src srcsz (8 * k) (packLoop src srcsz p k)

/-- The end of `sproto_pack`. -/
def packEnd (src : Memory) (srcsz : ℕ) (p : Packer) : Packer :=
  if p.ffN = 1 then p.writeRun src p.bufsz 8
  else if p.ffN > 1 then
    match p.ffSrcstart with
    | .srcv pos => p.writeRun src p.bufsz (srcsz - pos)
    -- a word with padding does not start a run
    | .tmp _ => p
  else p

/-- `sproto_pack` of the `srcsz` bytes of `src` to a buffer of `bufsz` bytes. -/
def sproto_pack (src : Memory) (srcsz : ℕ) (bufsz : ℤ) (buffer : Memory) :
    Packer :=
  packEnd src srcsz
    (packLoop src srcsz
      { bufsz := bufsz
        ffSrcstart := .srcv 0
        ffDesstart := 0
        ffN := 0
        size := 0
        memory := buffer
        reads := 0 }
      ((srcsz + 7) / 8))

/-- `maxsz` of `lpack` -/
def maxsz (sz : ℕ) : ℕ := (sz + 2047) / 2048 * 2 + sz + 2

/-- `lpack`: the string, or the packing error. -/
def lpack (src : Memory) (sz : ℕ) (buffer : Memory) : Option (List UInt8) :=
  let p := sproto_pack src sz (maxsz sz) buffer
  if p.size > maxsz sz then none else some (readBytes p.memory p.size)

/-! ## `sproto_unpack` -/

/-- Why `sproto_unpack` stops. -/
inductive Stop where
  /-- It returns -1. -/
  | invalid
  /-- It reads behind the input, or `size` overflows. -/
  | undefined
  deriving DecidableEq

/-- The state of `sproto_unpack`, with the bytes from `src` on, and those that
were written to the buffer. -/
structure Unpacker where
  src : List UInt8
  srcsz : ℤ
  out : List UInt8
  bufsz : ℤ
  size : ℕ

namespace Unpacker

variable (u : Unpacker)

/-- `size += n` -/
def count (n : ℕ) : Except Stop Unpacker :=
  if u.size + n < 0x80000000 then .ok { u with size := u.size + n }
  else .error .undefined

/-- A bit of a header. -/
def bit (nz : Bool) : Except Stop Unpacker :=
  if nz then
    if u.srcsz < 0 then .error .invalid
    else if u.bufsz > 0 then
      match u.src with
      | [] => .error .undefined
      | b :: src =>
        { u with
          src := src
          srcsz := u.srcsz - 1
          out := u.out ++ [b]
          bufsz := u.bufsz - 1 }.count 1
    else { u with src := u.src.tail, srcsz := u.srcsz - 1 }.count 1
  else if u.bufsz > 0 then
    { u with out := u.out ++ [0], bufsz := u.bufsz - 1 }.count 1
  else u.count 1

/-- The loop over the bits of a header. -/
def bits : List Bool → Unpacker → Except Stop Unpacker
  | [], u => .ok u
  | nz :: bs, u => (u.bit nz).bind (bits bs)

/-- The words behind the header `0xff`. -/
def run : Except Stop Unpacker :=
  if u.srcsz < 0 then .error .invalid
  else
    match u.src with
    | [] => .error .undefined
    | c :: src =>
      let n := (c.toNat + 1) * 8
      if u.srcsz < n + 1 then .error .invalid
      else
        { u with
          src := src.drop n
          srcsz := u.srcsz - (n + 1)
          out := if u.bufsz ≥ n then u.out ++ src.take n else u.out
          bufsz := u.bufsz - n }.count n

end Unpacker

/-- The bits of a header. -/
def bitsOf (header : UInt8) : List Bool :=
  (List.range 8).map header.toNat.testBit

/-- The loop of `sproto_unpack`.  Every round reads a header. -/
def unpackLoop : ℕ → Unpacker → Except Stop Unpacker
  | 0, u => .ok u
  | n + 1, u =>
    if u.srcsz > 0 then
      match u.src with
      | [] => .error .undefined
      | header :: src =>
        let u := { u with src := src, srcsz := u.srcsz - 1 }
        (if header = 0xff then u.run else u.bits (bitsOf header)).bind
          (unpackLoop n)
    else .ok u

/-- `sproto_unpack` to a buffer of `bufsz` bytes: the size and the bytes that
were written. -/
def sproto_unpack (src : List UInt8) (bufsz : ℤ) :
    Except Stop (ℕ × List UInt8) :=
  (unpackLoop src.length
    { src := src, srcsz := src.length, out := [], bufsz := bufsz
      size := 0 }).map fun u => (u.size, u.out)

/-- `lunpack` with a buffer of `osz` bytes, that is replaced if it is too small:
the string. -/
def lunpack (src : List UInt8) (osz : ℤ) : Except Stop (List UInt8) :=
  (sproto_unpack src osz).bind fun r =>
    if r.1 > osz then (sproto_unpack src r.1).map Prod.snd else .ok r.2

end SkynetServer.SprotoPack
