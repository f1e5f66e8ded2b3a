import Mathlib.Data.UInt

/-!
# DES of `lua-crypt.c`

The eight S-boxes and the halves of the first permuted choice are tables.  A
block is two words of 32 bits; the macros of the source are functions of words.
An index is an `int` there, and a natural number here: texts are shorter than
2^31 - 8 bytes.
-/

namespace SkynetServer.LuaCrypt

/-! ## Tables -/

/-- `SB1` -/
def SB1 : List (BitVec 32) :=
  [0x01010400, 0x00000000, 0x00010000, 0x01010404, 0x01010004, 0x00010404,
    0x00000004, 0x00010000, 0x00000400, 0x01010400, 0x01010404, 0x00000400,
    0x01000404, 0x01010004, 0x01000000, 0x00000004, 0x00000404, 0x01000400,
    0x01000400, 0x00010400, 0x00010400, 0x01010000, 0x01010000, 0x01000404,
    0x00010004, 0x01000004, 0x01000004, 0x00010004, 0x00000000, 0x00000404,
    0x00010404, 0x01000000, 0x00010000, 0x01010404, 0x00000004, 0x01010000,
    0x01010400, 0x01000000, 0x01000000, 0x00000400, 0x01010004, 0x00010000,
    0x00010400, 0x01000004, 0x00000400, 0x00000004, 0x01000404, 0x00010404,
    0x01010404, 0x00010004, 0x01010000, 0x01000404, 0x01000004, 0x00000404,
    0x00010404, 0x01010400, 0x00000404, 0x01000400, 0x01000400, 0x00000000,
    0x00010004, 0x00010400, 0x00000000, 0x01010004]

/-- `SB2` -/
def SB2 : List (BitVec 32) :=
  [0x80108020, 0x80008000, 0x00008000, 0x00108020, 0x00100000, 0x00000020,
    0x80100020, 0x80008020, 0x80000020, 0x80108020, 0x80108000, 0x80000000,
    0x80008000, 0x00100000, 0x00000020, 0x80100020, 0x00108000, 0x00100020,
    0x80008020, 0x00000000, 0x80000000, 0x00008000, 0x00108020, 0x80100000,
    0x00100020, 0x80000020, 0x00000000, 0x00108000, 0x00008020, 0x80108000,
    0x80100000, 0x00008020, 0x00000000, 0x00108020, 0x80100020, 0x00100000,
    0x80008020, 0x80100000, 0x80108000, 0x00008000, 0x80100000, 0x80008000,
    0x00000020, 0x80108020, 0x00108020, 0x00000020, 0x00008000, 0x80000000,
    0x00008020, 0x80108000, 0x00100000, 0x80000020, 0x00100020, 0x80008020,
    0x80000020, 0x00100020, 0x00108000, 0x00000000, 0x80008000, 0x00008020,
    0x80000000, 0x80100020, 0x80108020, 0x00108000]

/-- `SB3` -/
def SB3 : List (BitVec 32) :=
  [0x00000208, 0x08020200, 0x00000000, 0x08020008, 0x08000200, 0x00000000,
    0x00020208, 0x08000200, 0x00020008, 0x08000008, 0x08000008, 0x00020000,
    0x08020208, 0x00020008, 0x08020000, 0x00000208, 0x08000000, 0x00000008,
    0x08020200, 0x00000200, 0x00020200, 0x08020000, 0x08020008, 0x00020208,
    0x08000208, 0x00020200, 0x00020000, 0x08000208, 0x00000008, 0x08020208,
    0x00000200, 0x08000000, 0x08020200, 0x08000000, 0x00020008, 0x00000208,
    0x00020000, 0x08020200, 0x08000200, 0x00000000, 0x00000200, 0x00020008,
    0x08020208, 0x08000200, 0x08000008, 0x00000200, 0x00000000, 0x08020008,
    0x08000208, 0x00020000, 0x08000000, 0x08020208, 0x00000008, 0x00020208,
    0x00020200, 0x08000008, 0x08020000, 0x08000208, 0x00000208, 0x08020000,
    0x00020208, 0x00000008, 0x08020008, 0x00020200]

/-- `SB4` -/
def SB4 : List (BitVec 32) :=
  [0x00802001, 0x00002081, 0x00002081, 0x00000080, 0x00802080, 0x00800081,
    0x00800001, 0x00002001, 0x00000000, 0x00802000, 0x00802000, 0x00802081,
    0x00000081, 0x00000000, 0x00800080, 0x00800001, 0x00000001, 0x00002000,
    0x00800000, 0x00802001, 0x00000080, 0x00800000, 0x00002001, 0x00002080,
    0x00800081, 0x00000001, 0x00002080, 0x00800080, 0x00002000, 0x00802080,
    0x00802081, 0x00000081, 0x00800080, 0x00800001, 0x00802000, 0x00802081,
    0x00000081, 0x00000000, 0x00000000, 0x00802000, 0x00002080, 0x00800080,
    0x00800081, 0x00000001, 0x00802001, 0x00002081, 0x00002081, 0x00000080,
    0x00802081, 0x00000081, 0x00000001, 0x00002000, 0x00800001, 0x00002001,
    0x00802080, 0x00800081, 0x00002001, 0x00002080, 0x00800000, 0x00802001,
    0x00000080, 0x00800000, 0x00002000, 0x00802080]

/-- `SB5` -/
def SB5 : List (BitVec 32) :=
  [0x00000100, 0x02080100, 0x02080000, 0x42000100, 0x00080000, 0x00000100,
    0x40000000, 0x02080000, 0x40080100, 0x00080000, 0x02000100, 0x40080100,
    0x42000100, 0x42080000, 0x00080100, 0x40000000, 0x02000000, 0x40080000,
    0x40080000, 0x00000000, 0x40000100, 0x42080100, 0x42080100, 0x02000100,
    0x42080000, 0x40000100, 0x00000000, 0x42000000, 0x02080100, 0x02000000,
    0x42000000, 0x00080100, 0x00080000, 0x42000100, 0x00000100, 0x02000000,
    0x40000000, 0x02080000, 0x42000100, 0x40080100, 0x02000100, 0x40000000,
    0x42080000, 0x02080100, 0x40080100, 0x00000100, 0x02000000, 0x42080000,
    0x42080100, 0x00080100, 0x42000000, 0x42080100, 0x02080000, 0x00000000,
    0x40080000, 0x42000000, 0x00080100, 0x02000100, 0x40000100, 0x00080000,
    0x00000000, 0x40080000, 0x02080100, 0x40000100]

/-- `SB6` -/
def SB6 : List (BitVec 32) :=
  [0x20000010, 0x20400000, 0x00004000, 0x20404010, 0x20400000, 0x00000010,
    0x20404010, 0x00400000, 0x20004000, 0x00404010, 0x00400000, 0x20000010,
    0x00400010, 0x20004000, 0x20000000, 0x00004010, 0x00000000, 0x00400010,
    0x20004010, 0x00004000, 0x00404000, 0x20004010, 0x00000010, 0x20400010,
    0x20400010, 0x00000000, 0x00404010, 0x20404000, 0x00004010, 0x00404000,
    0x20404000, 0x20000000, 0x20004000, 0x00000010, 0x20400010, 0x00404000,
    0x20404010, 0x00400000, 0x00004010, 0x20000010, 0x00400000, 0x20004000,
    0x20000000, 0x00004010, 0x20000010, 0x20404010, 0x00404000, 0x20400000,
    0x00404010, 0x20404000, 0x00000000, 0x20400010, 0x00000010, 0x00004000,
    0x20400000, 0x00404010, 0x00004000, 0x00400010, 0x20004010, 0x00000000,
    0x20404000, 0x20000000, 0x00400010, 0x20004010]

/-- `SB7` -/
def SB7 : List (BitVec 32) :=
  [0x00200000, 0x04200002, 0x04000802, 0x00000000, 0x00000800, 0x04000802,
    0x00200802, 0x04200800, 0x04200802, 0x00200000, 0x00000000, 0x04000002,
    0x00000002, 0x04000000, 0x04200002, 0x00000802, 0x04000800, 0x00200802,
    0x00200002, 0x04000800, 0x04000002, 0x04200000, 0x04200800, 0x00200002,
    0x04200000, 0x00000800, 0x00000802, 0x04200802, 0x00200800, 0x00000002,
    0x04000000, 0x00200800, 0x04000000, 0x00200800, 0x00200000, 0x04000802,
    0x04000802, 0x04200002, 0x04200002, 0x00000002, 0x00200002, 0x04000000,
    0x04000800, 0x00200000, 0x04200800, 0x00000802, 0x00200802, 0x04200800,
    0x00000802, 0x04000002, 0x04200802, 0x04200000, 0x00200800, 0x00000000,
    0x00000002, 0x04200802, 0x00000000, 0x00200802, 0x04200000, 0x00000800,
    0x04000002, 0x04000800, 0x00000800, 0x00200002]

/-- `SB8` -/
def SB8 : List (BitVec 32) :=
  [0x10001040, 0x00001000, 0x00040000, 0x10041040, 0x10000000, 0x10001040,
    0x00000040, 0x10000000, 0x00040040, 0x10040000, 0x10041040, 0x00041000,
    0x10041000, 0x00041040, 0x00001000, 0x00000040, 0x10040000, 0x10000040,
    0x10001000, 0x00001040, 0x00041000, 0x00040040, 0x10040040, 0x10041000,
    0x00001040, 0x00000000, 0x00000000, 0x10040040, 0x10000040, 0x10001000,
    0x00041040, 0x00040000, 0x00041040, 0x00040000, 0x10041000, 0x00001000,
    0x00000040, 0x10040040, 0x00001000, 0x00041040, 0x10001000, 0x00000040,
    0x10000040, 0x10040000, 0x10040040, 0x10000000, 0x00040000, 0x10001040,
    0x00000000, 0x10041040, 0x00040040, 0x10000040, 0x10040000, 0x10001000,
    0x10001040, 0x00000000, 0x10041040, 0x00041000, 0x00041000, 0x00001040,
    0x00001040, 0x00040040, 0x10000000, 0x10041000]

/-- `LHs` -/
def LHs : List (BitVec 32) :=
  [0x00000000, 0x00000001, 0x00000100, 0x00000101, 0x00010000, 0x00010001,
    0x00010100, 0x00010101, 0x01000000, 0x01000001, 0x01000100, 0x01000101,
    0x01010000, 0x01010001, 0x01010100, 0x01010101]

/-- `RHs` -/
def RHs : List (BitVec 32) :=
  [0x00000000, 0x01000000, 0x00010000, 0x01010000, 0x00000100, 0x01000100,
    0x00010100, 0x01010100, 0x00000001, 0x01000001, 0x00010001, 0x01010001,
    0x00000101, 0x01000101, 0x00010101, 0x01010101]

/-! ## Words -/

/-- `GET_UINT32` of the bytes from `i` on. -/
def GET_UINT32 (b : List UInt8) (i : ℕ) : BitVec 32 :=
  (b.getD i 0).toBitVec.setWidth 32 <<< 24 |||
    (b.getD (i + 1) 0).toBitVec.setWidth 32 <<< 16 |||
    (b.getD (i + 2) 0).toBitVec.setWidth 32 <<< 8 |||
    (b.getD (i + 3) 0).toBitVec.setWidth 32

/-- The bytes that `PUT_UINT32` writes. -/
def PUT_UINT32 (n : BitVec 32) : List UInt8 :=
  [.ofBitVec ((n >>> 24).setWidth 8), .ofBitVec ((n >>> 16).setWidth 8),
    .ofBitVec ((n >>> 8).setWidth 8), .ofBitVec (n.setWidth 8)]

/-- `DES_IP` -/
def DES_IP (X Y : BitVec 32) : BitVec 32 × BitVec 32 :=
  let T := ((X >>> 4) ^^^ Y) &&& 0x0F0F0F0F
  let Y := Y ^^^ T
  let X := X ^^^ (T <<< 4)
  let T := ((X >>> 16) ^^^ Y) &&& 0x0000FFFF
  let Y := Y ^^^ T
  let X := X ^^^ (T <<< 16)
  let T := ((Y >>> 2) ^^^ X) &&& 0x33333333
  let X := X ^^^ T
  let Y := Y ^^^ (T <<< 2)
  let T := ((Y >>> 8) ^^^ X) &&& 0x00FF00FF
  let X := X ^^^ T
  let Y := Y ^^^ (T <<< 8)
  let Y := ((Y <<< 1) ||| (Y >>> 31)) &&& 0xFFFFFFFF
  let T := (X ^^^ Y) &&& 0xAAAAAAAA
  let Y := Y ^^^ T
  let X := X ^^^ T
  let X := ((X <<< 1) ||| (X >>> 31)) &&& 0xFFFFFFFF
  (X, Y)

/-- `DES_FP` -/
def DES_FP (X Y : BitVec 32) : BitVec 32 × BitVec 32 :=
  let X := ((X <<< 31) ||| (X >>> 1)) &&& 0xFFFFFFFF
  let T := (X ^^^ Y) &&& 0xAAAAAAAA
  let X := X ^^^ T
  let Y := Y ^^^ T
  let Y := ((Y <<< 31) ||| (Y >>> 1)) &&& 0xFFFFFFFF
  let T := ((Y >>> 8) ^^^ X) &&& 0x00FF00FF
  let X := X ^^^ T
  let Y := Y ^^^ (T <<< 8)
  let T := ((Y >>> 2) ^^^ X) &&& 0x33333333
  let X := X ^^^ T
  let Y := Y ^^^ (T <<< 2)
  let T := ((X >>> 16) ^^^ Y) &&& 0x0000FFFF
  let Y := Y ^^^ T
  let X := X ^^^ (T <<< 16)
  let T := ((X >>> 4) ^^^ Y) &&& 0x0F0F0F0F
  let Y := Y ^^^ T
  let X := X ^^^ (T <<< 4)
  (X, Y)

/-- An entry of a table. -/
def entry (SB : List (BitVec 32)) (T : BitVec 32) : BitVec 32 :=
  SB.getD T.toNat 0

/-- What `DES_ROUND` adds to `Y`, with two words of the key. -/
def DES_ROUND (SK : BitVec 32 × BitVec 32) (X : BitVec 32) : BitVec 32 :=
  let T := SK.1 ^^^ X
  let Y := entry SB8 (T &&& 0x3F) ^^^ entry SB6 ((T >>> 8) &&& 0x3F) ^^^
    entry SB4 ((T >>> 16) &&& 0x3F) ^^^ entry SB2 ((T >>> 24) &&& 0x3F)
  let T := SK.2 ^^^ ((X <<< 28) ||| (X >>> 4))
  Y ^^^ (entry SB7 (T &&& 0x3F) ^^^ entry SB5 ((T >>> 8) &&& 0x3F) ^^^
    entry SB3 ((T >>> 16) &&& 0x3F) ^^^ entry SB1 ((T >>> 24) &&& 0x3F))

/-! ## The key -/

/-- The two words of the key for a round. -/
def subkey (X Y : BitVec 32) : List (BitVec 32) :=
  [((X <<< 4) &&& 0x24000000) ||| ((X <<< 28) &&& 0x10000000)
    ||| ((X <<< 14) &&& 0x08000000) ||| ((X <<< 18) &&& 0x02080000)
    ||| ((X <<< 6) &&& 0x01000000) ||| ((X <<< 9) &&& 0x00200000)
    ||| ((X >>> 1) &&& 0x00100000) ||| ((X <<< 10) &&& 0x00040000)
    ||| ((X <<< 2) &&& 0x00020000) ||| ((X >>> 10) &&& 0x00010000)
    ||| ((Y >>> 13) &&& 0x00002000) ||| ((Y >>> 4) &&& 0x00001000)
    ||| ((Y <<< 6) &&& 0x00000800) ||| ((Y >>> 1) &&& 0x00000400)
    ||| ((Y >>> 14) &&& 0x00000200) ||| (Y &&& 0x00000100)
    ||| ((Y >>> 5) &&& 0x00000020) ||| ((Y >>> 10) &&& 0x00000010)
    ||| ((Y >>> 3) &&& 0x00000008) ||| ((Y >>> 18) &&& 0x00000004)
    ||| ((Y >>> 26) &&& 0x00000002) ||| ((Y >>> 24) &&& 0x00000001),
    ((X <<< 15) &&& 0x20000000) ||| ((X <<< 17) &&& 0x10000000)
    ||| ((X <<< 10) &&& 0x08000000) ||| ((X <<< 22) &&& 0x04000000)
    ||| ((X >>> 2) &&& 0x02000000) ||| ((X <<< 1) &&& 0x01000000)
    ||| ((X <<< 16) &&& 0x00200000) ||| ((X <<< 11) &&& 0x00100000)
    ||| ((X <<< 3) &&& 0x00080000) ||| ((X >>> 6) &&& 0x00040000)
    ||| ((X <<< 15) &&& 0x00020000) ||| ((X >>> 4) &&& 0x00010000)
    ||| ((Y >>> 2) &&& 0x00002000) ||| ((Y <<< 8) &&& 0x00001000)
    ||| ((Y >>> 14) &&& 0x00000808) ||| ((Y >>> 9) &&& 0x00000400)
    ||| (Y &&& 0x00000200) ||| ((Y <<< 7) &&& 0x00000100)
    ||| ((Y >>> 7) &&& 0x00000020) ||| ((Y >>> 3) &&& 0x00000011)
    ||| ((Y <<< 2) &&& 0x00000004) ||| ((Y >>> 21) &&& 0x00000002)]

/-- The loop of `des_main_ks` for these values of `i`. -/
def subkeys : List ℕ → BitVec 32 → BitVec 32 → List (BitVec 32)
  | [], _, _ => []
  | i :: is, X, Y =>
    if i < 2 ∨ i = 8 ∨ i = 15 then
      let X := ((X <<< 1) ||| (X >>> 27)) &&& 0x0FFFFFFF
      let Y := ((Y <<< 1) ||| (Y >>> 27)) &&& 0x0FFFFFFF
      subkey X Y ++ subkeys is X Y
    else
      let X := ((X <<< 2) ||| (X >>> 26)) &&& 0x0FFFFFFF
      let Y := ((Y <<< 2) ||| (Y >>> 26)) &&& 0x0FFFFFFF
      subkey X Y ++ subkeys is X Y

/-- `des_main_ks` -/
def des_main_ks (key : List UInt8) : List (BitVec 32) :=
  let X := GET_UINT32 key 0
  let Y := GET_UINT32 key 4
  let T := ((Y >>> 4) ^^^ X) &&& 0x0F0F0F0F
  let X := X ^^^ T
  let Y := Y ^^^ (T <<< 4)
  let T := (Y ^^^ X) &&& 0x10101010
  let X := X ^^^ T
  let Y := Y ^^^ T
  let X := (entry LHs (X &&& 0xF) <<< 3)
    ||| (entry LHs ((X >>> 8) &&& 0xF) <<< 2)
    ||| (entry LHs ((X >>> 16) &&& 0xF) <<< 1)
    ||| entry LHs ((X >>> 24) &&& 0xF)
    ||| (entry LHs ((X >>> 5) &&& 0xF) <<< 7)
    ||| (entry LHs ((X >>> 13) &&& 0xF) <<< 6)
    ||| (entry LHs ((X >>> 21) &&& 0xF) <<< 5)
    ||| (entry LHs ((X >>> 29) &&& 0xF) <<< 4)
  let Y := (entry RHs ((Y >>> 1) &&& 0xF) <<< 3)
    ||| (entry RHs ((Y >>> 9) &&& 0xF) <<< 2)
    ||| (entry RHs ((Y >>> 17) &&& 0xF) <<< 1)
    ||| entry RHs ((Y >>> 25) &&& 0xF)
    ||| (entry RHs ((Y >>> 4) &&& 0xF) <<< 7)
    ||| (entry RHs ((Y >>> 12) &&& 0xF) <<< 6)
    ||| (entry RHs ((Y >>> 20) &&& 0xF) <<< 5)
    ||| (entry RHs ((Y >>> 28) &&& 0xF) <<< 4)
  subkeys (List.range 16) (X &&& 0x0FFFFFFF) (Y &&& 0x0FFFFFFF)

/-! ## Blocks and strings -/

/-- Pairs of `DES_ROUND(Y, X)` and `DES_ROUND(X, Y)`, as many as there are words
of the key. -/
def desRounds :
    List (BitVec 32) → BitVec 32 → BitVec 32 → BitVec 32 × BitVec 32
  | a :: b :: c :: d :: SK, X, Y =>
    let X := X ^^^ DES_ROUND (a, b) Y
    let Y := Y ^^^ DES_ROUND (c, d) X
    desRounds SK X Y
  | _, X, Y => (X, Y)

/-- `des_crypt` -/
def des_crypt (SK : List (BitVec 32)) (input : List UInt8) : List UInt8 :=
  let s := DES_IP (GET_UINT32 input 0) (GET_UINT32 input 4)
  let s := desRounds SK s.1 s.2
  let s := DES_FP s.2 s.1
  PUT_UINT32 s.1 ++ PUT_UINT32 s.2

/-- Why a call raises an error. -/
inductive Error where
  | key (size : ℕ)
  | length (size : ℕ)
  | text
  /-- It reads in front of the buffer. -/
  | undefined
  deriving DecidableEq

/-- The message of the error. -/
def Error.message : Error → String
  | .key size => s!"Invalid key size {size}, need 8 bytes"
  | .length size => s!"Invalid des crypt text length {size}"
  | .text => "Invalid des crypt text"
  | .undefined => ""

/-- `des_key` -/
def des_key (key : List UInt8) : Except Error (List (BitVec 32)) :=
  if key.length ≠ 8 then .error (.key key.length) else .ok (des_main_ks key)

/-- The first `n` blocks. -/
def desBlocks (SK : List (BitVec 32)) : ℕ → List UInt8 → List UInt8
  | 0, _ => []
  | n + 1, text => des_crypt SK (text.take 8) ++ desBlocks SK n (text.drop 8)

/-- The last block: what is left, `0x80` and zero bytes. -/
def tail (text : List UInt8) : List UInt8 :=
  text ++ 0x80 :: List.replicate (7 - text.length) 0

/-- `ldesencode` -/
def ldesencode (key text : List UInt8) : Except Error (List UInt8) :=
  (des_key key).map fun SK =>
    let n := text.length / 8
    desBlocks SK n text ++ des_crypt SK (tail (text.drop (8 * n)))

/-- The loop over the last eight bytes, from the last one on.  If there are no
others it goes on in front of them. -/
def paddingLoop (textsz : ℕ) : List UInt8 → ℕ → Except Error ℕ
  | [], padding => if textsz = 8 then .error .undefined else .ok padding
  | b :: bs, padding =>
    if b = 0 then paddingLoop textsz bs (padding + 1)
    else if b = 0x80 then .ok padding
    else .error .text

/-- `ldesdecode` -/
def ldesdecode (key text : List UInt8) : Except Error (List UInt8) :=
  (des_key key).bind fun ESK =>
    let SK := (List.range 16).flatMap fun i =>
      [ESK.getD (30 - 2 * i) 0, ESK.getD (31 - 2 * i) 0]
    let textsz := text.length
    if textsz % 8 ≠ 0 ∨ textsz = 0 then .error (.length textsz)
    else
      let buffer := desBlocks SK (textsz / 8) text
      (paddingLoop textsz (buffer.drop (textsz - 8)).reverse 1).bind
        fun padding =>
          if padding > 8 then .error .text
          else .ok (buffer.take (textsz - padding))

end SkynetServer.LuaCrypt
