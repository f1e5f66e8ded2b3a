import Mathlib.Data.List.Perm.Subperm
import SkynetServer.SocketBuffer.Chunks

/-!
# The bytes of a socket buffer

What is in the buffer are the bytes of its chunks without those in front of the
offset.  The loops go from chunk to chunk; each is shown to do what it does for
the string of these bytes.
-/

namespace SkynetServer.LuaSocket

open Function Links

/-- The offset is inside of the first chunk. -/
def InFirst (o : ℕ) : List (ℕ × List UInt8) → Prop
  | [] => o = 0
  | x :: _ => o < x.2.length

@[simp] theorem bytes_cons (x : ℕ × List UInt8) (l : List (ℕ × List UInt8)) :
    bytes (x :: l) = x.2 ++ bytes l := rfl

/-- The bytes from the offset on are `d`. -/
def State.Content (s : State) (d : List UInt8) : Prop :=
  ∃ l, ∃ o : ℕ, s.Holds l ∧ s.offset = o ∧ InFirst o l ∧ d = (bytes l).drop o

section Content

variable {s s' : State} {l t : List (ℕ × List UInt8)} {x : ℕ × List UInt8}
  {d b sep : List UInt8} {o n sz skip : ℕ}

theorem drop_bytes_cons
    (t : List (ℕ × List UInt8)) (ho : o ≤ x.2.length) :
    (bytes (x :: t)).drop o = x.2.drop o ++ bytes t :=
  List.drop_append_of_le_length ho

theorem State.HasChunk.read
    (h : s.HasChunk x) (hn : o + n ≤ x.2.length) :
    s.read x.1 o n = some ((x.2.drop o).take n) := by
  rw [State.read, h.msg, Option.bind_some, if_pos]
  · rw [Int.toNat_natCast, Int.toNat_natCast]
  · omega

theorem State.Holds.inFirst (h : s.Holds l) : InFirst 0 l := by
  cases l with
  | nil => rfl
  | cons x t => exact (h.chunk x List.mem_cons_self).pos

/-- A chunk that was taken is returned. -/
theorem State.Holds.next_chunk (h : s.Holds (x :: t)) :
    ∃ s', s.return_free_node = some s' ∧ s'.Holds t ∧ s'.offset = (0 : ℕ) ∧
      s'.Content (bytes t) ∧ s'.size = s.size ∧ s'.top = s.top := by
  obtain ⟨s', hreturn, hholds, hoffset, hsize, htop⟩ := h.return_free_node
  exact ⟨s', hreturn, hholds, hoffset,
    ⟨t, 0, hholds, hoffset, hholds.inFirst, rfl⟩, hsize, htop⟩

/-- The loops take no more rounds than there are nodes. -/
theorem State.Holds.length_le (h : s.Holds l) : l.length ≤ s.top := by
  have hsub : addresses l ⊆ List.range s.top := by
    intro a ha
    obtain ⟨x, hx, rfl⟩ := List.mem_map.mp ha
    exact List.mem_range.mpr (h.chunk x hx).lt
  have hle := (List.subperm_of_subset h.path.nodup hsub).length_le
  rw [List.length_map, List.length_range] at hle
  exact hle

theorem State.Holds.head_eq (h : s.Holds (x :: t)) : s.head = some x.1 :=
  h.path.1

/-! ## `pop_lstring` -/

/-- The bytes that the last round adds. -/
theorem State.HasChunk.add_last
    (h : s.HasChunk x) (hsz : o + sz ≤ x.2.length) :
    (if (sz : ℤ) > skip then (s.read x.1 o (sz - skip)).map (b ++ ·)
      else some b) = some (b ++ (x.2.drop o).take (sz - skip)) := by
  split
  · rename_i hskip
    have hsub : (sz : ℤ) - skip = (sz - skip : ℕ) := by omega
    rw [hsub, h.read (by omega)]
    rfl
  · rename_i hskip
    rw [show sz - skip = 0 by omega, List.take_zero, List.append_nil]

/-- The bytes that another round adds. -/
theorem State.HasChunk.add
    (h : s.HasChunk x) (ho : o ≤ x.2.length) :
    (if (sz : ℤ) - skip > 0 then
        (s.read x.1 o
          (if (sz : ℤ) - skip < x.2.length - o then (sz : ℤ) - skip
            else x.2.length - o)).map (b ++ ·)
      else some b) = some (b ++ (x.2.drop o).take (sz - skip)) := by
  have hlen : (x.2.drop o).length = x.2.length - o := List.length_drop
  split
  · rename_i hskip
    split
    · have hsub : (sz : ℤ) - skip = (sz - skip : ℕ) := by omega
      rw [hsub, h.read (by omega)]
      rfl
    · have hsub : (x.2.length : ℤ) - o = (x.2.length - o : ℕ) := by omega
      rw [hsub, h.read (by omega), ← hlen, List.take_length,
        List.take_of_length_le (by omega)]
      rfl
  · rename_i hskip
    rw [show sz - skip = 0 by omega, List.take_zero, List.append_nil]

theorem State.Holds.popLoop
    (h : s.Holds l) (skip : ℕ) (b : List UInt8) (hoffset : s.offset = o)
    (ho : InFirst o l) (hpos : 0 < sz) (hsz : sz ≤ ((bytes l).drop o).length)
    (hn : l.length ≤ n) :
    ∃ s', State.popLoop n sz skip b s =
        some (b ++ ((bytes l).drop o).take (sz - skip), s') ∧
      s'.Content (((bytes l).drop o).drop sz) ∧ s'.size = s.size := by
  induction l generalizing s sz o n b with
  | nil =>
      rw [bytes, List.map_nil, List.flatten_nil, List.drop_nil] at hsz
      exact absurd hsz (Nat.not_le.mpr hpos)
  | cons x t ih =>
      obtain ⟨m, rfl⟩ : ∃ m, n = m + 1 := ⟨n - 1, by
        rw [List.length_cons] at hn
        omega⟩
      have hx := h.chunk x List.mem_cons_self
      have ho' : o < x.2.length := ho
      rw [drop_bytes_cons t (Nat.le_of_lt ho)] at hsz ⊢
      rw [State.popLoop, h.head_eq, Option.bind_some, hx.sz, hoffset]
      dsimp only
      have hlen : (x.2.drop o).length = x.2.length - o := List.length_drop
      by_cases hfits : sz ≤ x.2.length - o
      · rw [if_pos (by omega), hx.add_last (by omega), Option.bind_some,
          List.take_append_of_le_length (by omega),
          List.drop_append_of_le_length (by omega)]
        have hmoved := h.with s.size (o + sz)
        by_cases hall : (x.2.length : ℤ) - o = sz
        · obtain ⟨s', hreturn, -, -, hcontent, hsize, -⟩ := hmoved.next_chunk
          have hnil : (x.2.drop o).drop sz = [] :=
            List.drop_of_length_le (by omega)
          rw [if_pos hall, ← h.head_eq, hreturn, hnil]
          exact ⟨s', rfl, hcontent, hsize⟩
        · rw [if_neg hall, ← h.head_eq]
          refine ⟨_, rfl, ⟨x :: t, o + sz, hmoved, rfl, ?_, ?_⟩, rfl⟩
          · change o + sz < x.2.length
            omega
          · rw [drop_bytes_cons t (by omega), List.drop_drop]
      · rw [if_neg (by omega), hx.add (by omega), Option.bind_some]
        obtain ⟨s₁, hreturn, hholds, hoffset₁, -, hsize, -⟩ := h.next_chunk
        rw [List.length_append] at hsz
        rw [List.length_cons] at hn
        have hrest : sz - (x.2.length - o) ≤ ((bytes t).drop 0).length := by
          rw [List.drop_zero]
          omega
        obtain ⟨s', hloop, hcontent, hsize'⟩ := ih hholds
          (b ++ (x.2.drop o).take (sz - skip)) hoffset₁ hholds.inFirst
          (by omega) hrest (Nat.le_of_succ_le_succ hn)
        have hsub : (sz : ℤ) - (x.2.length - o) =
            (sz - (x.2.length - o) : ℕ) := by
          omega
        rw [hreturn, Option.bind_some, if_neg (by omega), hsub, hloop]
        refine ⟨s', ?_, ?_, hsize'.trans hsize⟩
        · rw [List.drop_zero, List.append_assoc, List.take_append, hlen,
            Nat.sub_right_comm]
        · have hnil : (x.2.drop o).drop sz = [] :=
            List.drop_of_length_le (by omega)
          rw [List.drop_append, hnil, hlen, List.nil_append]
          exact hcontent

/-- `pop_lstring` returns the first bytes, without the last `skip` ones. -/
theorem State.Holds.pop_lstring
    (h : s.Holds l) (skip : ℕ) (hoffset : s.offset = o) (ho : InFirst o l)
    (hpos : 0 < sz) (hskip : skip ≤ sz) (hsz : sz ≤ ((bytes l).drop o).length) :
    ∃ s', s.pop_lstring sz skip =
        some (((bytes l).drop o).take (sz - skip), s') ∧
      s'.Content (((bytes l).drop o).drop sz) ∧ s'.size = s.size := by
  cases l with
  | nil =>
      rw [bytes, List.map_nil, List.flatten_nil, List.drop_nil] at hsz
      exact absurd hsz (Nat.not_le.mpr hpos)
  | cons x t =>
      have hx := h.chunk x List.mem_cons_self
      have ho' : o < x.2.length := ho
      have hlen : (x.2.drop o).length = x.2.length - o := List.length_drop
      have hmoved := h.with s.size (o + sz)
      have hsub : (sz : ℤ) - skip = (sz - skip : ℕ) := by omega
      rw [State.pop_lstring, h.head_eq, Option.bind_some, hx.sz, hoffset]
      by_cases hlt : (sz : ℤ) < x.2.length - o
      · rw [if_pos hlt, hsub, hx.read (by omega), drop_bytes_cons t (by omega),
          ← h.head_eq, List.take_append_of_le_length (by omega),
          List.drop_append_of_le_length (by omega)]
        refine ⟨_, rfl, ⟨x :: t, o + sz, hmoved, rfl, ?_, ?_⟩, rfl⟩
        · change o + sz < x.2.length
          omega
        · rw [drop_bytes_cons t (by omega), List.drop_drop]
      · rw [if_neg hlt]
        by_cases heq : (sz : ℤ) = x.2.length - o
        · obtain ⟨s', hreturn, -, -, hcontent, hsize, -⟩ := h.next_chunk
          have hnil : (x.2.drop o).drop sz = [] :=
            List.drop_of_length_le (by omega)
          rw [if_pos heq, hsub, hx.read (by omega), Option.bind_some, hreturn,
            drop_bytes_cons t (by omega),
            List.take_append_of_le_length (by omega),
            List.drop_append_of_le_length (by omega), hnil]
          exact ⟨s', rfl, hcontent, hsize⟩
        · rw [if_neg heq]
          exact h.popLoop skip [] hoffset ho hpos hsz h.length_le

/-! ## `check_sep` -/

/-- A prefix that goes over the first part. -/
theorem isPrefix_append_iff
    {u : List UInt8} (v : List UInt8) (h : u.length ≤ sep.length) :
    sep <+: u ++ v ↔ u = sep.take u.length ∧ sep.drop u.length <+: v := by
  have hsplit := List.take_append_drop u.length sep
  constructor
  · rintro ⟨w, hw⟩
    rw [← hsplit, List.append_assoc] at hw
    obtain ⟨hu, hv⟩ := List.append_inj hw (List.length_take_of_le h)
    exact ⟨hu.symm, w, hv⟩
  · rintro ⟨hu, w, hw⟩
    refine ⟨w, ?_⟩
    calc
      sep ++ w = sep.take u.length ++ sep.drop u.length ++ w := by rw [hsplit]
      _ = u ++ (sep.drop u.length ++ w) := by rw [← hu, List.append_assoc]
      _ = u ++ v := by rw [hw]

/-- `check_sep` from a node on: whether the separator is in front. -/
theorem check_sep_spec
    {p : Option ℕ} (hpath : Path s.next p (addresses l))
    (hchunk : ∀ x ∈ l, s.HasChunk x) (ho : InFirst o l) (hsep : 0 < sep.length)
    (hlen : sep.length ≤ ((bytes l).drop o).length) (hn : l.length ≤ n) :
    s.check_sep n p o sep sep.length =
      some (decide (sep <+: (bytes l).drop o)) := by
  induction l generalizing p o n sep with
  | nil =>
      rw [bytes, List.map_nil, List.flatten_nil, List.drop_nil] at hlen
      exact absurd hlen (Nat.not_le.mpr hsep)
  | cons x t ih =>
      obtain ⟨m, rfl⟩ : ∃ m, n = m + 1 := ⟨n - 1, by
        rw [List.length_cons] at hn
        omega⟩
      obtain ⟨hp, hpath⟩ := hpath
      have hx := hchunk x List.mem_cons_self
      have ho' : o < x.2.length := ho
      have hdrop : (x.2.drop o).length = x.2.length - o := List.length_drop
      rw [drop_bytes_cons t (Nat.le_of_lt ho)] at hlen ⊢
      rw [State.check_sep, hp, Option.bind_some, hx.sz]
      dsimp only
      by_cases hfits : sep.length ≤ x.2.length - o
      · rw [if_pos (by omega), hx.read (by omega), Option.map_some,
          Int.toNat_natCast, List.take_length]
        refine congrArg some (decide_eq_decide.mpr ?_)
        rw [List.prefix_iff_eq_take, List.take_append_of_le_length (by omega)]
        exact eq_comm
      · have hsz : (x.2.length : ℤ) - o = (x.2.length - o : ℕ) := by omega
        rw [if_neg (by omega), if_pos (by omega), hsz, hx.read (by omega),
          Option.map_some, Option.bind_some, Int.toNat_natCast, ← hdrop,
          List.take_length]
        have hiff := isPrefix_append_iff (bytes t)
          (show (x.2.drop o).length ≤ sep.length by omega)
        by_cases hsame : x.2.drop o = sep.take (x.2.drop o).length
        · have hdrop' : (sep.drop (x.2.drop o).length).length =
              sep.length - (x.2.drop o).length := List.length_drop
          have hrest : (sep.length : ℤ) - (x.2.drop o).length =
              (sep.drop (x.2.drop o).length).length := by
            omega
          have hfirst : InFirst 0 t := by
            cases t with
            | nil => rfl
            | cons y t =>
                exact (hchunk y (List.mem_cons_of_mem x List.mem_cons_self)).pos
          rw [List.length_append] at hlen
          rw [if_pos (decide_eq_true hsame), hrest]
          refine (ih hpath (fun y hy => hchunk y (List.mem_cons_of_mem x hy))
            hfirst ?_ ?_ (Nat.le_of_succ_le_succ hn)).trans ?_
          · omega
          · rw [List.drop_zero]
            omega
          · refine congrArg some (decide_eq_decide.mpr ?_)
            rw [List.drop_zero, hiff, and_iff_right hsame]
        · rw [if_neg (by simpa using hsame)]
          exact congrArg some
            (decide_eq_false fun h => hsame (hiff.mp h).1).symm

/-! ## `lreadline` -/

/-- The index of the first occurrence. -/
def index (sep : List UInt8) : List UInt8 → Option ℕ
  | [] => none
  | b :: d =>
    if sep <+: b :: d then some 0 else (index sep d).map (· + 1)

theorem index_of_lt (h : d.length < sep.length) : index sep d = none := by
  induction d with
  | nil => rfl
  | cons b d ih =>
      rw [index, if_neg, ih (Nat.lt_of_succ_lt h)]
      · rfl
      · exact fun hfront => Nat.not_le.mpr h hfront.length_le

/-- The loop of `lreadline` finds the first occurrence. -/
theorem lineLoop_spec
    {i count : ℕ} (hpath : Path s.next (some x.1) (addresses (x :: t)))
    (hchunk : ∀ y ∈ x :: t, s.HasChunk y) (ho : o < x.2.length)
    (hsep : 0 < sep.length) (hn : t.length < s.top)
    (hcount : count = ((bytes (x :: t)).drop o).length + 1 - sep.length) :
    s.lineLoop sep sep.length count i x.1 o (x.2.length - o) =
      some ((index sep ((bytes (x :: t)).drop o)).map fun j =>
        ((i + j : ℕ) : ℤ)) := by
  induction count generalizing x t o i with
  | zero =>
      rw [index_of_lt (by omega)]
      rfl
  | succ count ih =>
      have hx := hchunk x List.mem_cons_self
      have hcheck := check_sep_spec hpath hchunk ho hsep (by omega)
        (show (x :: t).length ≤ s.top from hn)
      have hdrop : (bytes (x :: t)).drop o =
          x.2[o] :: (x.2.drop (o + 1) ++ bytes t) := by
        rw [drop_bytes_cons t (Nat.le_of_lt ho), List.drop_eq_getElem_cons ho,
          List.cons_append]
      rw [State.lineLoop, hcheck, Option.bind_some, hdrop, index]
      rw [hdrop, List.length_cons] at hcount
      by_cases hfront : sep <+: x.2[o] :: (x.2.drop (o + 1) ++ bytes t)
      · rw [if_pos (decide_eq_true hfront), if_pos hfront]
        rfl
      · have hmap : (fun j : ℕ => ((i + j : ℕ) : ℤ)) ∘ (· + 1) =
            fun j => ((i + 1 + j : ℕ) : ℤ) := by
          funext j
          rw [Function.comp_apply, Nat.add_right_comm]
          rfl
        rw [if_neg (by simpa using hfront), if_neg hfront, Option.map_map,
          hmap]
        by_cases hlast : (x.2.length : ℤ) - o - 1 = 0
        · rw [List.drop_of_length_le (by omega), List.nil_append] at hcount ⊢
          rw [if_pos hlast]
          cases t with
          | nil =>
              rw [show (s.node x.1).next = none from hpath.2]
              rfl
          | cons y t =>
              have hy := hchunk y (List.mem_cons_of_mem x List.mem_cons_self)
              have hnext := ih (o := 0) (i := i + 1)
                (show Path s.next (some y.1) (addresses (y :: t)) from
                  ⟨rfl, hpath.2.2⟩)
                (fun z hz => hchunk z (List.mem_cons_of_mem x hz)) hy.pos
                (Nat.lt_of_succ_lt hn) (by
                  rw [List.drop_zero]
                  omega)
              rw [List.drop_zero,
                show (y.2.length : ℤ) - (0 : ℕ) = y.2.length from
                  Int.sub_zero _] at hnext
              rw [show (s.node x.1).next = some y.1 from hpath.2.1]
              dsimp only
              rw [hy.sz]
              exact hnext
        · have hcontinue := ih (i := i + 1) hpath hchunk
            (show o + 1 < x.2.length by omega) hn (by
              rw [drop_bytes_cons t (by omega)]
              omega)
          rw [drop_bytes_cons t (by omega),
            show (x.2.length : ℤ) - (o + 1 : ℕ) = x.2.length - o - 1 by
              omega] at hcontinue
          rw [if_neg hlast]
          exact hcontinue

/-! ## `lreadall` and `lclearbuffer` -/

theorem State.Holds.readallLoop
    (h : s.Holds l) (hoffset : s.offset = o) (ho : InFirst o l)
    (hn : l.length ≤ n) :
    ∃ s', State.readallLoop n b s = some (b ++ (bytes l).drop o, s') ∧
      s'.Content [] := by
  induction l generalizing s b o n with
  | nil =>
      have hhead : s.head = none := h.path
      refine ⟨s, ?_, [], o, h, hoffset, ho, List.drop_nil.symm⟩
      rw [bytes, List.map_nil, List.flatten_nil, List.drop_nil,
        List.append_nil]
      cases n with
      | zero => exact if_pos hhead
      | succ n => rw [State.readallLoop, hhead]
  | cons x t ih =>
      obtain ⟨m, rfl⟩ : ∃ m, n = m + 1 := ⟨n - 1, by
        rw [List.length_cons] at hn
        omega⟩
      have hx := h.chunk x List.mem_cons_self
      have ho' : o < x.2.length := ho
      obtain ⟨s₁, hreturn, hholds, hoffset₁, -, -, -⟩ := h.next_chunk
      obtain ⟨s', hloop, hcontent⟩ := ih (b := b ++ x.2.drop o) hholds hoffset₁
        hholds.inFirst (Nat.le_of_succ_le_succ hn)
      have hsub : (x.2.length : ℤ) - o = (x.2.length - o : ℕ) := by omega
      have hall : (x.2.drop o).take (x.2.length - o) = x.2.drop o := by
        rw [← List.length_drop, List.take_length]
      refine ⟨s', ?_, hcontent⟩
      rw [State.readallLoop, h.head_eq]
      dsimp only
      rw [hx.sz, hoffset, hsub, hx.read (by omega), Option.bind_some, hreturn,
        Option.bind_some, hall, hloop, List.drop_zero,
        drop_bytes_cons t (by omega), List.append_assoc]

theorem State.Holds.clearLoop (h : s.Holds l) (ho : s.offset = o)
    (ho' : InFirst o l) (hn : l.length ≤ n) :
    ∃ s', State.clearLoop n s = some s' ∧ s'.Content [] := by
  induction l generalizing s o n with
  | nil =>
      have hhead : s.head = none := h.path
      refine ⟨s, ?_, [], o, h, ho, ho', List.drop_nil.symm⟩
      cases n with
      | zero | succ n => exact if_pos hhead
  | cons x t ih =>
      obtain ⟨m, rfl⟩ : ∃ m, n = m + 1 := ⟨n - 1, by
        rw [List.length_cons] at hn
        omega⟩
      obtain ⟨s₁, hreturn, hholds, hoffset₁, -, -, -⟩ := h.next_chunk
      obtain ⟨s', hloop, hcontent⟩ := ih hholds hoffset₁ hholds.inFirst
        (Nat.le_of_succ_le_succ hn)
      refine ⟨s', ?_, hcontent⟩
      rw [State.clearLoop, if_neg, hreturn]
      · exact hloop
      · rw [h.head_eq]
        exact Option.some_ne_none _

theorem InFirst.le (h : InFirst o l) : o ≤ (bytes l).length := by
  cases l with
  | nil => exact Nat.le_of_eq h
  | cons x t =>
      rw [bytes_cons, List.length_append]
      exact Nat.le_add_right_of_le (Nat.le_of_lt h)

/-- A chunk is put behind the others. -/
theorem InFirst.concat (h : InFirst o l) (hx : 0 < x.2.length) :
    InFirst o (l ++ [x]) := by
  cases l with
  | nil =>
      rw [show o = 0 from h]
      exact hx
  | cons y t => exact h

theorem drop_bytes_concat (h : InFirst o l) :
    (bytes (l ++ [x])).drop o = (bytes l).drop o ++ x.2 := by
  have hbytes : bytes (l ++ [x]) = bytes l ++ x.2 := by
    rw [bytes, List.map_append, List.flatten_append]
    exact congrArg (bytes l ++ ·) (List.append_nil x.2)
  rw [hbytes, List.drop_append_of_le_length h.le]

end Content

end SkynetServer.LuaSocket
