import Mathlib.Algebra.Group.Nat.Defs
import Mathlib.Data.List.TakeDrop
import SkynetServer.Support.Frames

/-!
# `databuffer.h`

A buffer is a list of the chunks that arrived, with the number of bytes of the
first one that are already read.  The pool of list nodes is left out.  `none`
is a failed assertion or a missing node.

`contents` are the bytes that are not read.  Reading takes them from the
front, wherever the chunks begin.
-/

namespace SkynetServer.Gate

open Frames

/-- The header style of the parameter of `gate_init`. -/
inductive HeaderStyle where
  | S
  | L
  deriving DecidableEq

/-- `header_size` -/
def HeaderStyle.size : HeaderStyle → ℕ
  | .S => 2
  | .L => 4

/-- The header that was read, as an `int`. -/
def HeaderStyle.number : HeaderStyle → List UInt8 → ℤ
  | .S, [a, b] => (a.toNat <<< 8 ||| b.toNat : ℕ)
  | .L, [a, b, c, d] =>
    (BitVec.ofNat 32 (a.toNat <<< 24 ||| b.toNat <<< 16 ||| c.toNat <<< 8 |||
      d.toNat)).toInt
  | _, _ => 0

structure Databuffer where
  header : ℤ
  offset : ℕ
  size : ℕ
  messages : List (List UInt8)

/-- The loop of `databuffer_read`: the bytes, the nodes that are left and the
offset in the first of them. -/
def readMessages :
    List (List UInt8) → ℕ → ℕ → Option (List UInt8 × List (List UInt8) × ℕ)
  | [], _, _ => none
  | current :: rest, offset, sz =>
    let bsz := current.length - offset
    if bsz > sz then
      some ((current.drop offset).take sz, current :: rest, offset + sz)
    else if bsz = sz then some ((current.drop offset).take sz, rest, 0)
    else
      match readMessages rest 0 (sz - bsz) with
      | none => none
      | some (bytes, messages, offset') =>
        some ((current.drop offset).take bsz ++ bytes, messages, offset')

namespace Databuffer

/-- `databuffer_clear` leaves the buffer as it was made. -/
def clear : Databuffer where
  header := 0
  offset := 0
  size := 0
  messages := []

variable (db : Databuffer)

/-- `databuffer_read` -/
def read (sz : ℕ) : Option (List UInt8 × Databuffer) :=
  if db.size < sz then none
  else
    match readMessages db.messages db.offset sz with
    | none => none
    | some (bytes, messages, offset) =>
      some (bytes, { db with
        offset := offset, size := db.size - sz, messages := messages })

/-- `databuffer_push` -/
def push (data : List UInt8) : Databuffer :=
  { db with
    size := db.size + data.length, messages := db.messages ++ [data] }

/-- The end of `databuffer_readheader`, behind the header. -/
def available : ℤ := if (db.size : ℤ) < db.header then -1 else db.header

/-- `databuffer_readheader` -/
def readheader (style : HeaderStyle) : Option (ℤ × Databuffer) :=
  if db.header = 0 then
    if db.size < style.size then some (-1, db)
    else
      match db.read style.size with
      | none => none
      | some (plen, db') =>
        let db'' := { db' with header := style.number plen }
        some (db''.available, db'')
  else some (db.available, db)

/-- `databuffer_reset` -/
def reset : Databuffer := { db with header := 0 }

/-- The bytes that are not read. -/
def contents : List UInt8 := db.messages.flatten.drop db.offset

/-- The count of the bytes is right, and the offset is in the first chunk. -/
structure Ok : Prop where
  offset : db.offset ≤ (db.messages.headD []).length
  size : db.size = db.contents.length

end Databuffer

/-! ## Reading -/

/-- The loop takes bytes from the front. -/
theorem readMessages_spec
    {messages : List (List UInt8)} {offset sz : ℕ}
    (hoffset : offset ≤ (messages.headD []).length) (hpos : 0 < sz)
    (hle : sz ≤ (messages.flatten.drop offset).length) :
    ∃ messages' offset', readMessages messages offset sz =
        some ((messages.flatten.drop offset).take sz, messages', offset') ∧
      offset' ≤ (messages'.headD []).length ∧
      messages'.flatten.drop offset' =
        (messages.flatten.drop offset).drop sz := by
  induction messages generalizing offset sz with
  | nil =>
      rw [List.flatten_nil, List.drop_nil] at hle
      exact absurd hle (Nat.not_le.mpr hpos)
  | cons current rest ih =>
      have hflat : (current :: rest).flatten.drop offset =
          current.drop offset ++ rest.flatten := by
        exact List.drop_append_of_le_length hoffset
      have hbsz : (current.drop offset).length = current.length - offset :=
        List.length_drop
      rw [hflat] at hle ⊢
      rw [List.length_append, hbsz] at hle
      rw [readMessages]
      split_ifs with hmore heq
      · have htake : (current.drop offset).take sz =
            (current.drop offset ++ rest.flatten).take sz :=
          (List.take_append_of_le_length (by omega)).symm
        refine ⟨current :: rest, offset + sz, by rw [htake], ?_, ?_⟩
        · rw [List.headD_cons]
          omega
        · rw [← List.drop_drop, hflat]
      · refine ⟨rest, 0, ?_, Nat.zero_le _, ?_⟩
        · rw [List.take_append_of_le_length (by omega)]
        · rw [List.drop_left' (by omega), List.drop_zero]
      · have hrest : 0 < sz - (current.length - offset) := by omega
        have hleft : sz - (current.length - offset) ≤
            (rest.flatten.drop 0).length := by
          rw [List.drop_zero]
          omega
        obtain ⟨messages', offset', hread, hin, hdrop⟩ :=
          ih (Nat.zero_le _) hrest hleft
        rw [List.drop_zero] at hread hdrop
        have hlen : (current.drop offset).length ≤ sz := by omega
        have hall : (current.drop offset).take (current.length - offset) =
            current.drop offset := List.take_of_length_le (Nat.le_of_eq hbsz)
        refine ⟨messages', offset', ?_, hin, ?_⟩
        · rw [hread, List.take_append, List.take_of_length_le hlen, hall, hbsz]
        · rw [hdrop, List.drop_append, List.drop_of_length_le hlen, hbsz,
            List.nil_append]

namespace Databuffer

variable {db : Databuffer}

/-- Reading takes the bytes from the front and leaves the header. -/
theorem Ok.read
    {sz : ℕ} (h : db.Ok) (hpos : 0 < sz) (hle : sz ≤ db.contents.length) :
    ∃ db', db.read sz = some (db.contents.take sz, db') ∧ db'.Ok ∧
      db'.contents = db.contents.drop sz ∧ db'.header = db.header := by
  obtain ⟨messages', offset', hread, hin, hdrop⟩ :=
    readMessages_spec h.offset hpos hle
  have hsize : ¬ db.size < sz := by
    rw [h.size]
    omega
  refine ⟨{ db with
    offset := offset', size := db.size - sz, messages := messages' },
    ?_, ⟨hin, ?_⟩, hdrop, rfl⟩
  · rw [Databuffer.read, if_neg hsize, hread]
    rfl
  · change db.size - sz = (messages'.flatten.drop offset').length
    rw [hdrop, h.size, List.length_drop]
    rfl

theorem Ok.contents_push (h : db.Ok) (data : List UInt8) :
    (db.push data).contents = db.contents ++ data := by
  have hle : db.offset ≤ db.messages.flatten.length := by
    have hoffset := h.offset
    cases hmessages : db.messages with
    | nil =>
        rw [hmessages] at hoffset
        exact hoffset
    | cons current rest =>
        rw [hmessages] at hoffset
        rw [List.flatten_cons, List.length_append]
        exact Nat.le_add_right_of_le hoffset
  rw [contents, Databuffer.push, List.flatten_append, List.flatten_singleton,
    List.drop_append_of_le_length hle]
  rfl

theorem Ok.push (h : db.Ok) (data : List UInt8) : (db.push data).Ok := by
  constructor
  · have hoffset := h.offset
    change db.offset ≤ ((db.messages ++ [data]).headD []).length
    cases hmessages : db.messages with
    | nil =>
        rw [hmessages] at hoffset
        exact Nat.le_trans hoffset (Nat.zero_le _)
    | cons current rest =>
        rw [hmessages] at hoffset
        exact hoffset
  · rw [h.contents_push data, List.length_append, ← h.size]
    rfl

end Databuffer

end SkynetServer.Gate
