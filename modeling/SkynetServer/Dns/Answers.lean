import Mathlib.Order.Interval.Finset.Nat
import SkynetServer.Support.Loops
import SkynetServer.Support.Octets

/-!
# Answers of a name server, `dns.lua`

A name is a row of labels that a zero byte ends, or a pointer to the rest of a
name anywhere in the packet.  Nothing keeps the pointers from leading in a
circle.

Positions count from 1.  The loop of `unpack_name` has a number of rounds; there
is no result if they do not suffice.  What `resolve` does with the addresses
afterwards has no loop and is left out.
-/

namespace SkynetServer.Dns

open Octets

/-! ## The source -/

/-- Why a packet is refused. -/
inductive Failure where
  /-- `string.unpack` starts behind the end. -/
  | position
  /-- `string.unpack` needs more bytes. -/
  | short
  | malformed
  deriving DecidableEq, Repr

/-- The message of the error. -/
def Failure.message : Failure → String
  | .position => "initial position out of string"
  | .short => "data string too short"
  | .malformed => "malformed packet"

/-- The result of a function, if the rounds suffice. -/
abbrev Run (α : Type) : Type := Option (Except Failure α)

/-- Go on with the result. -/
def Run.andThen {α β : Type} (r : Run α) (f : α → Run β) : Run β :=
  match r with
  | none => none
  | some (.error e) => some (.error e)
  | some (.ok a) => f a

/-- The bytes that `string.unpack` reads from a position on. -/
def unpack
    (chunk : List UInt8)
    (left n : ℕ) : Except Failure (List UInt8) :=
  if chunk.length < left - 1 then .error .position
  else if chunk.length < left - 1 + n then .error .short
  else .ok ((chunk.drop (left - 1)).take n)

/-- The number of these bytes, big endian. -/
def number (bs : List UInt8) : ℕ := bs.foldl (fun n b => 256 * n + b.toNat) 0

/-- What stands at a position of a name. -/
inductive Part where
  | pointer (offset : ℕ)
  | last
  | label (label : List UInt8)
  deriving DecidableEq, Repr

/-- The body of the loop of `unpack_name`. -/
def readPart (chunk : List UInt8) (left : ℕ) : Except Failure Part :=
  (unpack chunk left 1).bind fun bs =>
    let tag := bs.headD 0
    if tag &&& 0xc0 = 0xc0 then
      (unpack chunk left 2).map fun bs => .pointer (number bs &&& 0x3fff)
    else if tag = 0 then .ok .last
    else (unpack chunk (left + 1) tag.toNat).map .label

/-- The loop of `unpack_name`, with at most so many rounds. -/
def nameLoop (chunk : List UInt8) :
    ℕ → List (List UInt8) → Option ℕ → ℕ → Run (List UInt8 × ℕ)
  | 0, _, _, _ => none
  | rounds + 1, t, jump_pointer, left =>
    match readPart chunk left with
    | .error e => some (.error e)
    | .ok (.pointer offset) =>
      nameLoop chunk rounds t (jump_pointer.or (some (left + 2))) (offset + 1)
    | .ok .last =>
      some (.ok ([46].intercalate t, jump_pointer.getD (left + 1)))
    | .ok (.label label) =>
      nameLoop chunk rounds (t ++ [label]) jump_pointer
        (left + 1 + label.length)

/-- `unpack_name` -/
def unpack_name
    (rounds : ℕ)
    (chunk : List UInt8)
    (left : ℕ) : Run (List UInt8 × ℕ) :=
  nameLoop chunk rounds [] none left

structure Question where
  name : List UInt8
  atype : ℕ
  class' : ℕ
  deriving DecidableEq, Repr

structure Answer where
  name : List UInt8
  atype : ℕ
  class' : ℕ
  ttl : ℕ
  rdata : List UInt8
  deriving DecidableEq, Repr

/-- `unpack_question` -/
def unpack_question
    (rounds : ℕ)
    (chunk : List UInt8)
    (left : ℕ) : Run (Question × ℕ) :=
  (unpack_name rounds chunk left).andThen fun (name, left) =>
    some ((unpack chunk left 4).map fun bs =>
      (⟨name, number (bs.take 2), number (bs.drop 2)⟩, left + 4))

/-- `unpack_answer` -/
def unpack_answer
    (rounds : ℕ)
    (chunk : List UInt8)
    (left : ℕ) : Run (Answer × ℕ) :=
  (unpack_name rounds chunk left).andThen fun (name, left) =>
    some ((unpack chunk left 10).bind fun bs =>
      let size := number (bs.drop 8)
      (unpack chunk (left + 10) size).map fun rdata =>
        (⟨name, number (bs.take 2), number ((bs.drop 2).take 2),
          number ((bs.drop 4).take 4), rdata⟩, left + 10 + size))

/-- The dotted text of four bytes. -/
def dotted (bs : List UInt8) : String :=
  ".".intercalate (bs.map fun b => toString b.toNat)

/-- The text of eight words. -/
def hexadecimal (bs : List UInt8) : String :=
  ":".intercalate ((List.range 8).map fun i =>
    String.ofList (Nat.toDigits 16 (number ((bs.drop (2 * i)).take 2))))

/-- What `resolve` found in a packet. -/
structure Answers where
  tid : ℕ
  question : Question
  ipv4 : List String
  ipv6 : List String
  ttl : Option ℕ
  deriving DecidableEq, Repr

namespace Answers

variable (a : Answers)

/-- `ttl and math.min(ttl, answer.ttl) or answer.ttl` -/
def minTtl (ttl : ℕ) : Option ℕ :=
  match a.ttl with
  | some t => some (min t ttl)
  | none => some ttl

/-- The addresses with that of an answer, as `unpack_rdata` reads it. -/
def add (answer : Answer) : Except Failure Answers :=
  if answer.atype = 1 then
    (unpack answer.rdata 1 4).map fun bs =>
      { a with ipv4 := a.ipv4 ++ [dotted bs], ttl := a.minTtl answer.ttl }
  else if answer.atype = 28 then
    (unpack answer.rdata 1 16).map fun bs =>
      { a with ipv6 := a.ipv6 ++ [hexadecimal bs], ttl := a.minTtl answer.ttl }
  else .ok a

end Answers

/-- The loop of `resolve` over the answers. -/
def answersLoop
    (rounds : ℕ)
    (content : List UInt8) :
    ℕ → ℕ → Answers → Run Answers
  | 0, _, answers => some (.ok answers)
  | n + 1, left, answers =>
    (unpack_answer rounds content left).andThen fun (answer, left) =>
      match answers.add answer with
      | .error e => some (.error e)
      | .ok answers => answersLoop rounds content n left answers

/-- `resolve`, up to the addresses; a packet without a header is dropped. -/
def resolve
    (rounds : ℕ)
    (content : List UInt8) : Run (Option Answers) :=
  if content.length < 12 then some (.ok none)
  else if number ((content.drop 4).take 2) ≠ 1 then some (.error .malformed)
  else
    (unpack_question rounds content 13).andThen fun (question, left) =>
      (answersLoop rounds content (number ((content.drop 6).take 2)) left
        ⟨number (content.take 2), question, [], [], none⟩).andThen
          fun answers => some (.ok (some answers))

end SkynetServer.Dns
