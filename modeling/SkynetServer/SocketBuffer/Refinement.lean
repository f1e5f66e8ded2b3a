import SkynetServer.SocketBuffer.Stream

/-!
# A socket buffer is a string of bytes

The operations on a socket buffer are those on the string of the bytes that were
pushed and not yet taken.  The sizes in the buffer are `int`s, and a size that
is asked for is converted to `int` before it is compared with that of the
buffer: so this holds as long as the sizes are in the range of an `int`.
-/

namespace SkynetServer.LuaSocket

/-! ## Operations -/

/-- A call of the library. -/
inductive Op where
  | push (msg : List UInt8)
  | pop (sz : ℤ)
  | readline (check : Bool) (sep : List UInt8)
  | readall
  | clear

/-- What a call returns. -/
inductive Result where
  | size (size : ℤ)
  | popped (b : Option (List UInt8)) (size : ℤ)
  | line (line : State.Line)
  | all (b : List UInt8)
  | cleared
  deriving DecidableEq

/-- A call on a socket buffer. -/
def State.call (s : State) : Op → Option (Result × State)
  | .push msg => (s.lpushbuffer msg).map fun r => (.size r.1, r.2)
  | .pop sz => (s.lpopbuffer sz).map fun r => (.popped r.1.1 r.1.2, r.2)
  | .readline check sep => (s.lreadline check sep).map fun r => (.line r.1, r.2)
  | .readall => s.lreadall.map fun r => (.all r.1, r.2)
  | .clear => s.lclearbuffer.map fun s => (.cleared, s)

/-- Calls one after another. -/
def State.run : List Op → State → Option (List Result × State)
  | [], s => some ([], s)
  | op :: ops, s =>
    (s.call op).bind fun r =>
      (State.run ops r.2).map fun rs => (r.1 :: rs.1, rs.2)

/-- The operation on the string `d`. -/
def stream : Op → List UInt8 → Result × List UInt8
  | .push msg, d => (.size (d ++ msg).length, d ++ msg)
  | .pop sz, d =>
    if (d.length : ℤ) < sz then (.popped none d.length, d)
    else
      (.popped (some (d.take sz.toNat)) (d.drop sz.toNat).length,
        d.drop sz.toNat)
  | .readline check sep, d =>
    match index sep d with
    | none => (.line .nothing, d)
    | some i =>
      if check then (.line .found, d)
      else (.line (.line (d.take i)), d.drop (i + sep.length))
  | .readall, d => (.all d, [])
  | .clear, _ => (.cleared, [])

/-- The operations one after another. -/
def streams : List Op → List UInt8 → List Result × List UInt8
  | [], d => ([], d)
  | op :: ops, d =>
    ((stream op d).1 :: (streams ops (stream op d).2).1,
      (streams ops (stream op d).2).2)

/-- Chunks, sizes and separators are not empty. -/
def Op.Valid : Op → Prop
  | .push msg => 0 < msg.length
  | .pop sz => 1 ≤ sz
  | .readline _ sep => 0 < sep.length
  | .readall => True
  | .clear => True

/-- The sizes are in the range of an `int`, or are converted to sizes that the
buffer does not have. -/
def Op.Fits (d : List UInt8) : Op → Prop
  | .push msg => d.length + msg.length < 0x80000000
  | .pop sz => sz < 0x80000000 ∨ int sz = 0 ∨ d.length < int sz
  | .readline _ sep => sep.length < 0x80000000 ∨ d = []
  | .readall => True
  | .clear => True

/-- The operations are valid and fit, each with the string it is for. -/
def AllFit : List Op → List UInt8 → Prop
  | [], _ => True
  | op :: ops, d => op.Valid ∧ op.Fits d ∧ AllFit ops (stream op d).2

instance : (op : Op) → Decidable op.Valid
  | .push msg => inferInstanceAs (Decidable (0 < msg.length))
  | .pop sz => inferInstanceAs (Decidable (1 ≤ sz))
  | .readline _ sep => inferInstanceAs (Decidable (0 < sep.length))
  | .readall => inferInstanceAs (Decidable True)
  | .clear => inferInstanceAs (Decidable True)

instance (d : List UInt8) : (op : Op) → Decidable (op.Fits d)
  | .push msg => inferInstanceAs
      (Decidable (d.length + msg.length < 0x80000000))
  | .pop sz => inferInstanceAs
      (Decidable (sz < 0x80000000 ∨ int sz = 0 ∨ d.length < int sz))
  | .readline _ sep => inferInstanceAs
      (Decidable (sep.length < 0x80000000 ∨ d = []))
  | .readall => inferInstanceAs (Decidable True)
  | .clear => inferInstanceAs (Decidable True)

instance decidableAllFit : (ops : List Op) → (d : List UInt8) →
    Decidable (AllFit ops d)
  | [], _ => inferInstanceAs (Decidable True)
  | op :: ops, d =>
    have := decidableAllFit ops (stream op d).2
    inferInstanceAs (Decidable (op.Valid ∧ op.Fits d ∧
      AllFit ops (stream op d).2))

section Refinement

variable {s s' : State} {d msg sep : List UInt8} {l : List (ℕ × List UInt8)}
  {b : List UInt8} {o n : ℕ} {sz : ℤ}

/-- The separator is there, and not in front of it. -/
theorem index_eq_some_iff {i : ℕ} (hsep : 0 < sep.length) :
    index sep d = some i ↔
      sep <+: d.drop i ∧ ∀ j < i, ¬sep <+: d.drop j := by
  induction d generalizing i with
  | nil =>
      refine iff_of_false (fun h => by cases h) fun h => ?_
      rw [List.drop_nil, List.prefix_nil] at h
      rw [h.1] at hsep
      exact Nat.lt_irrefl 0 hsep
  | cons b d ih =>
      rw [index]
      by_cases hfront : sep <+: b :: d
      · rw [if_pos hfront]
        constructor
        · intro h
          obtain rfl := Option.some.inj h
          exact ⟨hfront, fun j hj => absurd hj (Nat.not_lt_zero j)⟩
        · rintro ⟨-, hfirst⟩
          cases i with
          | zero => rfl
          | succ i => exact absurd hfront (hfirst 0 (Nat.succ_pos i))
      · rw [if_neg hfront]
        cases i with
        | zero =>
            refine iff_of_false (fun h => ?_) fun h => hfront h.1
            obtain ⟨j, -, hj⟩ := Option.map_eq_some_iff.mp h
            cases hj
        | succ i =>
            rw [Option.map_eq_some_iff]
            constructor
            · rintro ⟨j, hj, heq⟩
              obtain rfl := Nat.succ.inj heq
              obtain ⟨hat, hfirst⟩ := ih.mp hj
              refine ⟨hat, fun k hk => ?_⟩
              cases k with
              | zero => exact hfront
              | succ k => exact hfirst k (Nat.lt_of_succ_lt_succ hk)
            · rintro ⟨hat, hfirst⟩
              exact ⟨i, ih.mpr ⟨hat, fun k hk =>
                hfirst (k + 1) (Nat.succ_lt_succ hk)⟩, rfl⟩

theorem index_add_le
    {i : ℕ} (hsep : 0 < sep.length) (h : index sep d = some i) :
    i + sep.length ≤ d.length := by
  have hle := ((index_eq_some_iff hsep).mp h).1.length_le
  rw [List.length_drop] at hle
  omega

/-- The string `d` is in the buffer. -/
structure State.Stores (s : State) (d : List UInt8) : Prop where
  content : s.Content d
  size : s.size = d.length
  lt : d.length < 0x80000000

theorem stores_lnewbuffer : lnewbuffer.Stores [] :=
  ⟨⟨[], 0, holds_lnewbuffer, rfl, rfl, rfl⟩, rfl, Nat.succ_pos _⟩

theorem State.Content.with_size (h : s.Content d) (size : ℤ) :
    { s with size := size }.Content d := by
  obtain ⟨l, o, hholds, hoffset, ho, hd⟩ := h
  exact ⟨l, o, hholds.with size s.offset, hoffset, ho, hd⟩

theorem int_of_lt (h : -0x80000000 ≤ sz) (h' : sz < 0x80000000) :
    int sz = sz := by
  rw [int, Int.bmod_eq_of_le]
  · omega
  · omega

theorem State.Stores.lpushbuffer
    (h : s.Stores d) (hmsg : 0 < msg.length)
    (hfits : d.length + msg.length < 0x80000000) :
    ∃ s' : State,
      s.lpushbuffer msg = some ((((d ++ msg).length : ℕ) : ℤ), s') ∧
        s'.Stores (d ++ msg) := by
  obtain ⟨l, o, hholds, hoffset, ho, hd⟩ := h.content
  have hsize := h.size
  obtain ⟨a, s', hpush, hholds', hoffset', hsize'⟩ :=
    hholds.lpushbuffer hmsg (int_of_lt (by omega) (by omega))
      (int_of_lt (by omega) (by omega))
  have hlen : ((d ++ msg).length : ℤ) = s.size + msg.length := by
    rw [List.length_append, hsize]
    omega
  refine ⟨s', ?_, ⟨l ++ [(a, msg)], o, hholds', hoffset'.trans hoffset,
    ho.concat hmsg, ?_⟩, hsize'.trans hlen.symm, by omega⟩
  · rw [hlen]
    exact hpush
  · rw [drop_bytes_concat ho, hd]

theorem State.Stores.lpopbuffer
    (h : s.Stores d) (hpos : 1 ≤ sz)
    (hfits : sz < 0x80000000 ∨ int sz = 0 ∨ d.length < int sz) :
    ∃ s' : State,
      (s.lpopbuffer sz).map (fun r => (Result.popped r.1.1 r.1.2, r.2)) =
        some ((stream (.pop sz) d).1, s') ∧
      s'.Stores (stream (.pop sz) d).2 := by
  have hlt := h.lt
  rw [stream, State.lpopbuffer, h.size]
  dsimp only
  by_cases hmore : (d.length : ℤ) < sz
  · rw [if_pos hmore]
    refine ⟨s, ?_, h⟩
    have hcond : (d.length : ℤ) < int sz ∨ int sz = 0 := by
      rcases hfits with hfits | hzero | hfits
      · rw [int_of_lt (by omega) hfits]
        exact .inl hmore
      · exact .inr hzero
      · exact .inl hfits
    rw [if_pos hcond]
    rfl
  · obtain ⟨l, o, hholds, hoffset, ho, hd⟩ := h.content
    obtain ⟨n, rfl⟩ := Int.eq_ofNat_of_zero_le (show 0 ≤ sz by omega)
    have hle : n ≤ ((bytes l).drop o).length := by
      rw [← hd]
      omega
    obtain ⟨s', hpop, hcontent, hsize⟩ :=
      hholds.pop_lstring 0 hoffset ho (by omega) (Nat.zero_le n) hle
    rw [← hd] at hpop hcontent
    have hlen : (d.drop n).length = d.length - n := List.length_drop
    have hrest : s'.size - n = (d.drop n).length := by
      rw [hsize, h.size]
      omega
    rw [if_neg hmore, int_of_lt (by omega) (by omega), if_neg (by omega)]
    change ∃ s', Option.map _ ((s.pop_lstring n ((0 : ℕ) : ℤ)).bind _) = _ ∧ _
    rw [hpop, Option.bind_some, hrest, checked,
      if_pos (int_of_lt (by omega) (by omega)),
      Int.toNat_natCast]
    refine ⟨_, rfl, hcontent.with_size _, rfl, ?_⟩
    dsimp only
    omega

theorem State.Stores.lreadline
    {check : Bool} (h : s.Stores d) (hsep : 0 < sep.length)
    (hfits : sep.length < 0x80000000 ∨ d = []) :
    ∃ s' : State,
      (s.lreadline check sep).map (fun r => (Result.line r.1, r.2)) =
        some ((stream (.readline check sep) d).1, s') ∧
      s'.Stores (stream (.readline check sep) d).2 := by
  have hlt := h.lt
  obtain ⟨l, o, hholds, hoffset, ho, hd⟩ := h.content
  cases l with
  | nil =>
      have hhead : s.head = none := hholds.path
      have hnil : d = [] := hd.trans List.drop_nil
      rw [State.lreadline, hhead, stream, hnil, index]
      rw [hnil] at h
      exact ⟨s, rfl, h⟩
  | cons x t =>
      have hx := hholds.chunk x List.mem_cons_self
      have ho' : o < x.2.length := ho
      have hpos : 0 < d.length := by
        rw [hd, drop_bytes_cons t (Nat.le_of_lt ho'), List.length_append,
          List.length_drop]
        omega
      have hsmall : sep.length < 0x80000000 := by
        rcases hfits with hfits | rfl
        · exact hfits
        · exact absurd hpos (Nat.lt_irrefl 0)
      have hcount : (s.size - sep.length + 1).toNat =
          ((bytes (x :: t)).drop o).length + 1 - sep.length := by
        rw [← hd, h.size]
        omega
      have hline := lineLoop_spec (i := 0) ⟨rfl, hholds.path.2⟩ hholds.chunk
        ho' hsep hholds.length_le hcount
      rw [← hd] at hline
      rw [State.lreadline, hholds.head_eq]
      dsimp only
      rw [int_of_lt (by omega) (by omega), checked,
        if_pos (int_of_lt (by rw [h.size]; omega) (by rw [h.size]; omega)),
        Option.bind_some, hoffset, hx.sz]
      change ∃ s', Option.map _ ((s.lineLoop sep sep.length _ ((0 : ℕ) : ℤ) x.1
        o _).bind _) = _ ∧ _
      rw [hline, Option.bind_some, stream]
      rcases hindex : index sep d with _ | i
      · exact ⟨s, rfl, h⟩
      · cases check with
        | true => exact ⟨s, rfl, h⟩
        | false =>
            have hle := index_add_le hsep hindex
            have hpos' : 0 < i + sep.length := Nat.add_pos_right i hsep
            rw [hd] at hle
            obtain ⟨s', hpop, hcontent, hsize⟩ := hholds.pop_lstring
              sep.length hoffset ho hpos' (Nat.le_add_left _ _) hle
            rw [← hd, Nat.add_sub_cancel] at hpop
            rw [← hd] at hcontent hle
            have hsum : ((0 + i : ℕ) : ℤ) + sep.length =
                (i + sep.length : ℕ) := by
              omega
            have hlen : (d.drop (i + sep.length)).length =
                d.length - (i + sep.length) := List.length_drop
            have hrest : s'.size - (i + sep.length : ℕ) =
                (d.drop (i + sep.length)).length := by
              rw [hsize, h.size]
              omega
            have hint : int (d.drop (i + sep.length)).length =
                (d.drop (i + sep.length)).length := by
              refine int_of_lt ?_ ?_
              · omega
              · omega
            change ∃ s', Option.map _ ((s.pop_lstring
              (((0 + i : ℕ) : ℤ) + sep.length) sep.length).map _) = _ ∧ _
            rw [hsum, hpop, Option.map_some, Option.map_some, hrest, hint]
            have hlt' : (d.drop (i + sep.length)).length < 0x80000000 := by
              rw [hlen]
              exact Nat.lt_of_le_of_lt (Nat.sub_le _ _) hlt
            have hstores : State.Stores
                { s' with size := (d.drop (i + sep.length)).length }
                (d.drop (i + sep.length)) :=
              ⟨hcontent.with_size _, rfl, hlt'⟩
            exact ⟨_, rfl, hstores⟩

theorem State.Stores.lreadall (h : s.Stores d) :
    ∃ s' : State, s.lreadall = some (d, s') ∧ s'.Stores [] := by
  obtain ⟨l, o, hholds, hoffset, ho, hd⟩ := h.content
  obtain ⟨s', hloop, hcontent⟩ :=
    hholds.readallLoop (b := []) hoffset ho hholds.length_le
  rw [List.nil_append, ← hd] at hloop
  refine ⟨{ s' with size := 0 }, ?_, hcontent.with_size 0, rfl,
    Nat.succ_pos _⟩
  rw [State.lreadall, hloop]
  rfl

theorem State.Stores.lclearbuffer (h : s.Stores d) :
    ∃ s' : State, s.lclearbuffer = some s' ∧ s'.Stores [] := by
  obtain ⟨l, o, hholds, hoffset, ho, hd⟩ := h.content
  obtain ⟨s', hloop, hcontent⟩ := hholds.clearLoop hoffset ho hholds.length_le
  refine ⟨{ s' with size := 0 }, ?_, hcontent.with_size 0, rfl,
    Nat.succ_pos _⟩
  rw [State.lclearbuffer, hloop]
  rfl

/-- A call does to the buffer what the operation does to the string. -/
theorem State.Stores.call
    {op : Op} (h : s.Stores d) (hvalid : op.Valid) (hfits : op.Fits d) :
    ∃ s', s.call op = some ((stream op d).1, s') ∧
      s'.Stores (stream op d).2 := by
  cases op with
  | push msg =>
      obtain ⟨s', hpush, hstores⟩ := h.lpushbuffer hvalid hfits
      rw [State.call, hpush]
      exact ⟨s', rfl, hstores⟩
  | pop sz => exact h.lpopbuffer hvalid hfits
  | readline check sep => exact h.lreadline hvalid hfits
  | readall =>
      obtain ⟨s', hread, hstores⟩ := h.lreadall
      rw [State.call, hread]
      exact ⟨s', rfl, hstores⟩
  | clear =>
      obtain ⟨s', hclear, hstores⟩ := h.lclearbuffer
      rw [State.call, hclear]
      exact ⟨s', rfl, hstores⟩

/-- The calls do to the buffer what the operations do to the string. -/
theorem State.Stores.run
    {ops : List Op} (h : s.Stores d) (hfit : AllFit ops d) :
    ∃ s', State.run ops s = some ((streams ops d).1, s') ∧
      s'.Stores (streams ops d).2 := by
  induction ops generalizing s d with
  | nil => exact ⟨s, rfl, h⟩
  | cons op ops ih =>
      obtain ⟨hvalid, hfits, hrest⟩ := hfit
      obtain ⟨s₁, hcall, hstores⟩ := h.call hvalid hfits
      obtain ⟨s', hrun, hstores'⟩ := ih hstores hrest
      refine ⟨s', ?_, hstores'⟩
      rw [State.run, hcall, Option.bind_some, hrun]
      rfl

end Refinement

/-- The calls on a buffer return what the operations on the string return, and
its size is that of the string.  A buffer with the same string, cut into chunks
in another way, cannot be told from it. -/
theorem run_eq_streams
    {ops : List Op} (hfit : AllFit ops []) :
    ∃ s, State.run ops lnewbuffer = some ((streams ops []).1, s) ∧
      s.size = (streams ops []).2.length ∧
      ∀ ops' more, AllFit ops' [] → (streams ops' []).2 = (streams ops []).2 →
        AllFit more (streams ops []).2 →
        ∃ s', (State.run ops' lnewbuffer).map Prod.snd = some s' ∧
          (State.run more s').map Prod.fst =
            (State.run more s).map Prod.fst := by
  obtain ⟨s, hrun, hstores⟩ := stores_lnewbuffer.run hfit
  refine ⟨s, hrun, hstores.size, fun ops' more hfit' hsame hmore => ?_⟩
  obtain ⟨s', hrun', hstores'⟩ := stores_lnewbuffer.run hfit'
  rw [hsame] at hstores'
  obtain ⟨_, hmore₁, -⟩ := hstores.run hmore
  obtain ⟨_, hmore₂, -⟩ := hstores'.run hmore
  refine ⟨s', ?_, ?_⟩
  · rw [hrun']
    rfl
  · rw [hmore₁, hmore₂]
    rfl

/-- A separator that lies in three chunks. -/
def threeChunks : List Op :=
  [.push [1, 13], .push [10], .push [13, 10, 2], .readline false [13, 10, 13],
    .pop 1]

theorem run_eq_streams_of_three :
    AllFit threeChunks [] ∧
      (streams threeChunks []).1 =
        [.size 2, .size 3, .size 6, .line (.line [1]), .popped (some [10]) 1] ∧
      ∃ s, State.run threeChunks lnewbuffer =
        some ((streams threeChunks []).1, s) := by
  have hfit : AllFit threeChunks [] := by
    decide +kernel
  obtain ⟨s, hrun, -⟩ := run_eq_streams hfit
  exact ⟨hfit, rfl, s, hrun⟩

/-- A size is converted to `int` before it is compared with that of the
buffer. -/
theorem pop_truncates :
    (State.run [.push [1, 2], .pop 0x100000001] lnewbuffer).map Prod.fst =
        some [.size 2, .popped (some [1]) 1] ∧
      (streams [.push [1, 2], .pop 0x100000001] []).1 =
        [.size 2, .popped none 2] := by
  constructor
  · decide +kernel
  · rfl

end SkynetServer.LuaSocket
