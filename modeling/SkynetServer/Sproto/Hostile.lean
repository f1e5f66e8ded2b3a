import SkynetServer.Sproto.Lua

/-!
# Decoding bytes from outside

`sproto_decode` once more, on pointers: a pointer is an address of a memory
that goes on behind the input, the sizes are numbers of 32 bits as in the
source, and a run keeps what it reads and what it passes to the callback.  A
list of bytes could not tell an access behind the end of the input from one
inside.
-/

namespace SkynetServer.Sproto

open LittleEndian Seri

/-! ## Runs -/

/-- The bytes that a call of `sproto_decode` was given. -/
structure Input where
  start : ℕ
  size : ℕ
  deriving DecidableEq, Repr

/-- What a call of `sproto_decode` does with its input. -/
inductive Action where
  /-- `n` bytes are read at `p`. -/
  | read (p n : ℕ)
  /-- The `n` bytes at `p` are the elements of an array. -/
  | elements (p n : ℕ)
  /-- `value` and `length` of the arguments of the callback -/
  | pass (p : ℕ) (length : ℤ)
  /-- The field has data, at which `rest` bytes are left; they start with the
  length `sz` and the byte `len`. -/
  | field (f : Field) (rest sz len : ℕ)
  deriving DecidableEq, Repr

structure Event where
  input : Input
  action : Action
  deriving DecidableEq, Repr

/-- The events of a run and its result. -/
structure Run (α : Type*) where
  events : List Event
  result : Except Failure α

namespace Run

variable {α β : Type*}

def ret (a : α) : Run α := ⟨[], .ok a⟩

def fail (failure : Failure) : Run α := ⟨[], .error failure⟩

def log (input : Input) (action : Action) : Run Unit :=
  ⟨[⟨input, action⟩], .ok ()⟩

/-- The run goes on with its result. -/
def andThen (x : Run α) (f : α → Run β) : Run β :=
  match x.result with
  | .error failure => ⟨x.events, .error failure⟩
  | .ok a => ⟨x.events ++ (f a).events, (f a).result⟩

end Run

/-! ## Pointers -/

/-- What `args->value` points to: bytes in memory, the local `uint64_t`, or
nothing. -/
inductive Pointer where
  | data (p : ℕ) (length : BitVec 32)
  | scalar
  | null
  deriving DecidableEq, Repr

/-- The `n` bytes at the address. -/
def bytesAt (mem : ℕ → UInt8) (p n : ℕ) : List UInt8 :=
  (List.range n).map fun i => mem (p + i)

def wordAt (mem : ℕ → UInt8) (p : ℕ) : ℕ := toword (bytesAt mem p 2)

def dwordAt (mem : ℕ → UInt8) (p : ℕ) : ℕ := todword (bytesAt mem p 4)

section Decode

variable {σ : Type*} (mem : ℕ → UInt8)
  (cb : Pointer → Arg → σ → Run (ℤ × σ)) (input : Input)

def readWord (p : ℕ) : Run ℕ :=
  (Run.log input (.read p 2)).andThen fun _ => .ret (wordAt mem p)

def readDword (p : ℕ) : Run ℕ :=
  (Run.log input (.read p 4)).andThen fun _ => .ret (dwordAt mem p)

def readByte (p : ℕ) : Run ℕ :=
  (Run.log input (.read p 1)).andThen fun _ => .ret (mem p).toNat

/-- `cb(args)` with the bytes at `p`; `length` is an `int`, which a string
takes as a `size_t`. -/
def passData (args : Arg) (p : ℕ) (length : BitVec 32) (ud : σ) :
    Run (ℤ × σ) :=
  (Run.log input (.pass p length.toInt)).andThen fun _ =>
    cb (.data p length)
      { args with value := bytesAt mem p (length.signExtend 64).toNat } ud

/-- `cb(args)` with the number in a local variable. -/
def passScalar (args : Arg) (v : ℕ) (ud : σ) : Run (ℤ × σ) :=
  cb .scalar { args with value := bytes 8 v } ud

/-- The loop of `decode_array_object`, while `sz` is positive. -/
def objectsAt (args : Arg) (stream sz index : ℕ) (ud : σ) : Run (Option σ) :=
  if sz = 0 then .ret (some ud)
  else if hlength : sz < sizeofLength then .ret none
  else
    (readDword mem input stream).andThen fun hsz =>
      let stream := stream + sizeofLength
      if hsz > sz - sizeofLength then .ret none
      else
        (passData mem cb input { args with index := index } stream
          (BitVec.ofNat 32 hsz) ud).andThen fun r =>
            if r.1 ≠ 0 then .ret none
            else
              objectsAt args (stream + hsz) (sz - sizeofLength - hsz)
                (index + 1) r.2
termination_by sz
decreasing_by
  unfold sizeofLength at *
  omega

/-- `decode_array_object`; its `sz` is an `int`. -/
def arrayObjectAt (args : Arg) (stream : ℕ) (sz : BitVec 32) (ud : σ) :
    Run (Option σ) :=
  objectsAt mem cb input args stream sz.toInt.toNat 1 ud

/-- The loops of `decode_array` over `n` integers or booleans of `len`
bytes. -/
def numbersAt (args : Arg) (len : ℕ) (number : ℕ → ℕ) :
    ℕ → ℕ → ℕ → σ → Run (Option σ)
  | 0, _, _, ud => .ret (some ud)
  | n + 1, stream, i, ud =>
    (passScalar cb { args with index := i + 1 } (number stream) ud).andThen
      fun r => numbersAt args len number n (stream + len) (i + 1) r.2

/-- An integer of `len` bytes. -/
def integerIn (len p : ℕ) : ℕ := integerAt len (bytesAt mem p len)

/-- `decode_array` -/
def arrayAt (args : Arg) (stream : ℕ) (ud : σ) : Run (Option σ) :=
  (readDword mem input stream).andThen fun sz =>
    if sz = 0 then
      (cb .null { args with index := -1, value := [] } ud).andThen fun r =>
        .ret (some r.2)
    else
      let stream := stream + sizeofLength
      match args.type with
      | .integer =>
        (readByte mem input stream).andThen fun len =>
          let stream := stream + 1
          let sz := sz - 1
          if len = sizeofInt32 ∨ len = sizeofInt64 then
            if sz % len ≠ 0 then .ret none
            else
              (Run.log input (.elements stream sz)).andThen fun _ =>
                numbersAt cb args len (integerIn mem len) (sz / len) stream 0
                  ud
          else .ret none
      | .boolean =>
        (Run.log input (.elements stream sz)).andThen fun _ =>
          numbersAt cb args 1 (fun p => (mem p).toNat) sz stream 0 ud
      | _ => arrayObjectAt mem cb input args stream (BitVec.ofNat 32 sz) ud

/-- A field that is no array, with its data. -/
def dataAt (args : Arg) (currentdata : ℕ) (ud : σ) : Run (Option σ) :=
  (readDword mem input currentdata).andThen fun sz =>
    let stream := currentdata + sizeofLength
    match args.type with
    | .integer =>
      if sz = sizeofInt32 ∨ sz = sizeofInt64 then
        (Run.log input (.read stream sz)).andThen fun _ =>
          (passScalar cb args (integerIn mem sz stream) ud).andThen fun r =>
            .ret (some r.2)
      else .ret none
    | .boolean => .ret none
    | _ =>
      (passData mem cb input args stream (BitVec.ofNat 32 sz) ud).andThen
        fun r => if r.1 ≠ 0 then .ret none else .ret (some r.2)

/-- The field of a record with the value. -/
def fieldAt (f : Field) (value currentdata rest : ℕ) (ud : σ) :
    Run (Option σ) :=
  if value = 0 then
    (Run.log input (.field f rest (dwordAt mem currentdata)
      (mem (currentdata + sizeofLength)).toNat)).andThen fun _ =>
        if f.array then arrayAt mem cb input f.args currentdata ud
        else dataAt mem cb input f.args currentdata ud
  else if f.array = false ∧ (f.type = .integer ∨ f.type = .boolean) then
    (passScalar cb f.args (value / 2 - 1) ud).andThen fun r =>
      .ret (some r.2)
  else .ret none

/-- The length of the data of a record, and what `datastream` moves by. -/
def skipAt (value datastream rest : ℕ) : Run (Option ℕ) :=
  if value = 0 then
    if rest < sizeofLength then .ret none
    else
      (readDword mem input datastream).andThen fun sz =>
        let skip := (sz + sizeofLength) % 2 ^ 32
        if rest < skip then .ret none else .ret (some skip)
  else .ret (some 0)

/-- The loop of `sproto_decode` over the records at `stream`; what is left of
the size. -/
def fieldsAt (st : SprotoType) : ℕ → ℕ → ℕ → ℕ → ℤ → σ → Run (Option (ℕ × σ))
  | 0, _, _, rest, _, ud => .ret (some (rest, ud))
  | i + 1, stream, datastream, rest, tag, ud =>
    (readWord mem input stream).andThen fun value =>
      let stream := stream + sizeofField
      let tag := tag + 1
      if value % 2 = 1 then
        fieldsAt st i stream datastream rest (tag + value / 2) ud
      else
        (skipAt mem input value datastream rest).andThen fun
          | none => .ret none
          | some skip =>
            match findtag st tag with
            | none =>
              fieldsAt st i stream (datastream + skip) (rest - skip) tag ud
            | some f =>
              (fieldAt mem cb input f value datastream rest ud).andThen fun
                | none => .ret none
                | some ud =>
                  fieldsAt st i stream (datastream + skip) (rest - skip) tag
                    ud

/-- `sproto_decode` of `size` bytes at `data`; `none` is -1. -/
def sprotoDecodeAt (st : SprotoType) (data : ℕ) (size : BitVec 32) (ud : σ) :
    Run (Option (ℤ × σ)) :=
  if size.toInt < sizeofHeader then .ret none
  else
    let total := size.toNat
    let input : Input := ⟨data, total⟩
    (readWord mem input data).andThen fun fn =>
      let stream := data + sizeofHeader
      let rest := total - sizeofHeader
      if rest < fn * sizeofField then .ret none
      else
        (fieldsAt mem cb input st fn stream (stream + fn * sizeofField)
          (rest - fn * sizeofField) (-1) ud).andThen fun
          | none => .ret none
          | some (rest, ud) => .ret (some (total - rest, ud))

end Decode

/-! ## The callback -/

/-- The callback `decode`.  A struct is decoded from the same memory. -/
def decodeAt (sp : Sproto) (numbers : Numbers) (mem : ℕ → UInt8) :
    ℕ → Pointer → Arg → DecodeUd → Run (ℤ × DecodeUd)
  | 0, _, _, _ => .fail .tooDeep
  | level + 1, pointer, args, self =>
    if emptyArray args self then .ret (0, newArray args self)
    else
      let sub (st : ℕ) : Run (Option (ℤ × DecodeUd)) :=
        match pointer with
        | .data p length =>
          sprotoDecodeAt mem (decodeAt sp numbers mem level) (sp.type st) p
            length ⟨none, [], args.mainindex, .atom .nil⟩
        | _ => .ret none
      let result := decodeValue numbers
        (fun st _ _ => (sub st).result.map fun r =>
          r.map fun p => (p.1.toNat, p.2)) args (newArray args self)
      match args.type with
      | .struct st => ⟨(sub st).events, result⟩
      | _ => ⟨[], result⟩

/-- `ldecode`, as far as it calls `sproto_decode`. -/
def ldecodeAt (sp : Sproto) (numbers : Numbers) (mem : ℕ → UInt8)
    (st : SprotoType) (data : ℕ) (size : BitVec 32) :
    Run (Option (ℤ × DecodeUd)) :=
  sprotoDecodeAt mem (decodeAt sp numbers mem encodeDeeplevel) st data size
    ⟨none, [], none, .atom .nil⟩

end SkynetServer.Sproto
