import SkynetServer.Sproto.IntegerArrays

/-!
# Encoding arrays

What the loops of `encode_array` write when the callback feeds them the
elements of a list.  The only other outcome is -1, and only in a buffer that
is too small.
-/

namespace SkynetServer.Sproto

open LittleEndian Memory

/-! ## Writing to a block -/

/-- The block with the code at its start. -/
def Written (data data' code : List UInt8) : Prop :=
  data'.length = data.length ∧ code <+: data'

/-- The function writes the code to any block, or returns -1 if the block is
too small. -/
def Writes {τ : Type*}
    (f : List UInt8 → Except Failure (Option (List UInt8 × ℕ × τ)))
    (code : List UInt8) (t : τ) : Prop :=
  ∃ need, ∀ data,
    f data = .ok none ∧ data.length < need ∨
      ∃ data', f data = .ok (some (data', code.length, t)) ∧
        Written data data' code

/-- The callback answers with the code, or with `SPROTO_CB_ERROR` if there is
too little room. -/
def Answers {σ : Type*}
    (answer : List UInt8 → σ → Except Failure (Reply σ))
    (code : List UInt8) : Prop :=
  ∃ need, ∀ value ud,
    answer value ud = .ok .error ∧ value.length < need ∨
      ∃ value', answer value ud = .ok (.size code.length value' ud) ∧
        Written value value' code

section Feeds

variable {σ : Type*} (cb : Arg → σ → Except Failure (Reply σ)) (args : Arg)
  {α : Type*} (answer : α → List UInt8 → σ → Except Failure (Reply σ))

/-- The callback answers for the elements one after the other, and then that
there are no more. -/
def Feeds : ℕ → List α → σ → σ → Prop
  | i, [], ud, ud' =>
    ∀ value, cb { args with value := value, index := i } ud = .ok (.nil ud')
  | i, x :: xs, ud, ud' =>
    ∃ next, (∀ value, cb { args with value := value, index := i } ud =
        answer x value next) ∧ Feeds (i + 1) xs next ud'

end Feeds

section Loops

variable {σ : Type*} {cb : Arg → σ → Except Failure (Reply σ)} {args : Arg}
  {ud ud' : σ}

/-! ## Booleans -/

def booleanCode (b : Bool) : UInt8 := if b then 1 else 0

/-- The answer to a request for a boolean. -/
def booleanAnswer (b : Bool) (value : List UInt8) (ud : σ) :
    Except Failure (Reply σ) :=
  .ok (.size 4 (store value 0 (bytes 4 b.toNat)) ud)

theorem encodeBooleans_spec
    {bs : List Bool} {index fuel : ℕ} {before after : List UInt8}
    (hfeeds : Feeds cb args booleanAnswer index bs ud ud')
    (hfuel : after.length < fuel) :
    encodeBooleans cb args fuel (before ++ after) before.length index ud =
        .ok none ∧ after.length < bs.length ∨
      ∃ rest, encodeBooleans cb args fuel (before ++ after) before.length
          index ud = .ok (some (before ++ (bs.map booleanCode ++ rest),
            before.length + bs.length, false, ud')) ∧
        bs.length + rest.length = after.length := by
  induction bs generalizing index fuel before after ud with
  | nil =>
      obtain ⟨fuel, rfl⟩ := Nat.exists_eq_add_one_of_ne_zero
        (Nat.ne_of_gt (Nat.zero_lt_of_lt hfuel))
      refine .inr ⟨after, ?_, Nat.zero_add _⟩
      rw [encodeBooleans, hfeeds]
      rfl
  | cons b bs ih =>
      obtain ⟨fuel, rfl⟩ := Nat.exists_eq_add_one_of_ne_zero
        (Nat.ne_of_gt (Nat.zero_lt_of_lt hfuel))
      obtain ⟨next, hcb, hfeeds⟩ := hfeeds
      rw [encodeBooleans, hcb, booleanAnswer]
      dsimp only [Except.bind]
      cases after with
      | nil =>
          refine .inl ⟨if_pos ?_, Nat.zero_lt_succ _⟩
          rw [List.append_nil, Nat.sub_self]
          exact Nat.one_pos
      | cons c after =>
          have hroom : ¬ (before ++ c :: after).length - before.length < 1 := by
            rw [List.length_append, List.length_cons]
            omega
          have hvalue : (if number ((store (List.replicate 4 0) 0
              (bytes 4 b.toNat)).take 4) ≠ 0 then (1 : UInt8) else 0) =
              booleanCode b := by
            cases b
            all_goals decide
          have hstore : store (before ++ c :: after) before.length
              [booleanCode b] = before ++ [booleanCode b] ++ after := by
            rw [List.append_assoc]
            exact @store_append _ [c] [booleanCode b] rfl before after
          have hlength : (before ++ [booleanCode b]).length =
              before.length + 1 := by
            rw [List.length_append, List.length_singleton]
          rw [if_neg hroom, hvalue, hstore, ← hlength]
          rw [List.length_cons] at hfuel
          rcases ih hfeeds (Nat.lt_of_succ_lt_succ hfuel) with
            ⟨hnone, hlt⟩ | ⟨rest, hsome, hrest⟩
          · exact .inl ⟨hnone, Nat.succ_lt_succ hlt⟩
          · refine .inr ⟨rest, ?_, ?_⟩
            · rw [hsome, hlength, List.append_assoc, List.map_cons,
                List.length_cons, Nat.add_assoc, Nat.add_comm 1]
              rfl
            · rw [List.length_cons, List.length_cons]
              omega

theorem writes_booleans
    {bs : List Bool} (hfeeds : Feeds cb args booleanAnswer 1 bs ud ud') :
    Writes (fun buffer => encodeBooleans cb args (buffer.length + 1) buffer
      0 1 ud) (bs.map booleanCode) (false, ud') := by
  refine ⟨bs.length, fun buffer => ?_⟩
  rcases @encodeBooleans_spec _ _ _ _ _ _ _ _ [] buffer hfeeds
    (Nat.lt_succ_self buffer.length) with
    ⟨hnone, hlt⟩ | ⟨rest, hsome, hrest⟩
  · exact .inl ⟨hnone, hlt⟩
  · refine .inr ⟨bs.map booleanCode ++ rest, ?_, ?_, rest, rfl⟩
    · rw [List.length_map]
      exact hsome.trans (by rw [List.length_nil, Nat.zero_add]; rfl)
    · rw [List.length_append, List.length_map, hrest]

/-! ## Strings and structs -/

/-- A string or a struct behind its size. -/
def objectCode (code : List UInt8) : List UInt8 :=
  bytes sizeofLength code.length ++ code

theorem length_objectCode (code : List UInt8) :
    (objectCode code).length = sizeofLength + code.length := by
  rw [objectCode, List.length_append, length_bytes]

variable {α : Type*} {answer : α → List UInt8 → σ → Except Failure (Reply σ)}
  {code : α → List UInt8}

theorem encodeObjects_spec
    {xs : List α} (hanswer : ∀ x ∈ xs, Answers (answer x) (code x))
    {index : ℕ} (hfeeds : Feeds cb args answer index xs ud ud') :
    ∃ need, ∀ fuel before after, after.length < fuel →
      encodeObjects cb args fuel (before ++ after) before.length index ud =
          .ok none ∧ after.length < need ∨
        ∃ rest, encodeObjects cb args fuel (before ++ after) before.length
            index ud =
              .ok (some (before ++ (xs.flatMap (objectCode ∘ code) ++ rest),
                before.length + (xs.flatMap (objectCode ∘ code)).length,
                false, ud')) ∧
          (xs.flatMap (objectCode ∘ code)).length + rest.length =
            after.length := by
  induction xs generalizing index ud with
  | nil =>
      refine ⟨sizeofLength, fun fuel before after hfuel => ?_⟩
      obtain ⟨fuel, rfl⟩ := Nat.exists_eq_add_one_of_ne_zero
        (Nat.ne_of_gt (Nat.zero_lt_of_lt hfuel))
      rw [encodeObjects, List.length_append, Nat.add_sub_cancel_left]
      split
      · rename_i hlt
        exact .inl ⟨rfl, hlt⟩
      · refine .inr ⟨after, ?_, Nat.zero_add _⟩
        rw [hfeeds]
        rfl
  | cons x xs ih =>
      obtain ⟨next, hcb, hfeeds⟩ := hfeeds
      obtain ⟨room, hroom⟩ := hanswer x List.mem_cons_self
      obtain ⟨need, hneed⟩ := ih
        (fun y hy => hanswer y (List.mem_cons_of_mem _ hy)) hfeeds
      refine ⟨sizeofLength + room + (objectCode (code x)).length + need,
        fun fuel before after hfuel => ?_⟩
      obtain ⟨fuel, rfl⟩ := Nat.exists_eq_add_one_of_ne_zero
        (Nat.ne_of_gt (Nat.zero_lt_of_lt hfuel))
      rw [encodeObjects]
      split
      · rename_i hlt
        rw [List.length_append, Nat.add_sub_cancel_left] at hlt
        exact .inl ⟨rfl, by omega⟩
      · rename_i hge
        rw [List.length_append, Nat.add_sub_cancel_left] at hge
        obtain ⟨size, value, hsize, hafter⟩ :=
          exists_cells [] (Nat.le_of_not_lt hge)
        rw [List.nil_append, List.nil_append] at hafter
        subst hafter
        have hdrop : (before ++ (size ++ value)).drop
            (before.length + sizeofLength) = value := by
          rw [← List.append_assoc]
          exact List.drop_left' (by rw [List.length_append, hsize])
        have htake : (before ++ (size ++ value)).take
            (before.length + sizeofLength) = before ++ size := by
          rw [← List.append_assoc]
          exact List.take_left' (by rw [List.length_append, hsize])
        have htotal : (size ++ value).length = sizeofLength + value.length := by
          rw [List.length_append, hsize]
        rw [hcb, hdrop, htake]
        rcases hroom value next with ⟨herror, hlt⟩ | ⟨value', hanswer, hwritten⟩
        · rw [herror]
          exact .inl ⟨rfl, by omega⟩
        · obtain ⟨hlength, rest, rfl⟩ := hwritten
          rw [hanswer]
          dsimp only [Except.bind]
          have hstore : store (before ++ size ++ (code x ++ rest))
              before.length (bytes sizeofLength (code x).length) =
              before ++ objectCode (code x) ++ rest := by
            rw [List.append_assoc, store_append (by rw [length_bytes, hsize]),
              objectCode, List.append_assoc, List.append_assoc]
          have hbefore : before.length + sizeofLength + (code x).length =
              (before ++ objectCode (code x)).length := by
            rw [List.length_append, length_objectCode, Nat.add_assoc]
          rw [hstore, hbefore]
          have hcode := length_objectCode (code x)
          have hfour : sizeofLength = 4 := rfl
          rw [List.length_append] at hlength
          rcases hneed fuel (before ++ objectCode (code x)) rest (by omega) with
            ⟨hnone, hlt⟩ | ⟨rest', hsome, hrest⟩
          · exact .inl ⟨hnone, by omega⟩
          · refine .inr ⟨rest', ?_, ?_⟩
            · rw [hsome, List.flatMap_cons, List.length_append,
                List.length_append, List.append_assoc, List.append_assoc,
                Nat.add_assoc]
              rfl
            · rw [List.flatMap_cons, List.length_append, Function.comp_apply]
              omega

theorem writes_objects
    {xs : List α} (hanswer : ∀ x ∈ xs, Answers (answer x) (code x))
    (hfeeds : Feeds cb args answer 1 xs ud ud') :
    Writes (fun buffer => encodeObjects cb args (buffer.length + 1) buffer
      0 1 ud) (xs.flatMap (objectCode ∘ code)) (false, ud') := by
  obtain ⟨need, hneed⟩ := encodeObjects_spec hanswer hfeeds
  refine ⟨need, fun buffer => ?_⟩
  rcases hneed (buffer.length + 1) [] buffer (Nat.lt_succ_self _) with
    ⟨hnone, hlt⟩ | ⟨rest, hsome, hrest⟩
  · exact .inl ⟨hnone, hlt⟩
  · refine .inr ⟨xs.flatMap (objectCode ∘ code) ++ rest, ?_, ?_, rest, rfl⟩
    · exact hsome.trans (by rw [List.length_nil, Nat.zero_add]; rfl)
    · rw [List.length_append, hrest]

end Loops

/-! ## Integers -/

/-- The answer to a request for an integer. -/
def integerAnswer (x : BitVec 64) (value : List UInt8) (ud : EncodeUd) :
    Except Failure (Reply EncodeUd) :=
  .ok (writeInteger x value ud)

/-- The elements behind their width. -/
def integersBlock : List (BitVec 64) → List UInt8
  | [] => []
  | x :: xs =>
    UInt8.ofNat (integerWidth (x :: xs)) ::
      integersCode (integerWidth (x :: xs)) (x :: xs)

section Integers

variable {cb : Arg → EncodeUd → Except Failure (Reply EncodeUd)} {args : Arg}
  {ud ud' : EncodeUd}

theorem integerWidth_snoc_narrow
    {xs : List (BitVec 64)} {x : BitVec 64} (hx : Narrow x) :
    integerWidth (xs ++ [x]) = integerWidth xs := by
  unfold integerWidth
  congr 1
  rw [eq_iff_iff, List.forall_mem_append, List.forall_mem_singleton]
  exact and_iff_left hx

theorem integerWidth_snoc_wide
    {xs : List (BitVec 64)} {x : BitVec 64} (hx : ¬ Narrow x) :
    integerWidth (xs ++ [x]) = sizeofInt64 := by
  refine if_neg fun h => hx ?_
  exact h x (List.mem_append_right _ (.head _))

theorem integerWidth_cases (xs : List (BitVec 64)) :
    integerWidth xs = 4 ∨ integerWidth xs = 8 := by
  unfold integerWidth
  split
  · exact .inl rfl
  · exact .inr rfl

theorem todword_store (n : ℕ) :
    todword (store (List.replicate 8 0) 0 (bytes 4 n)) = n % 2 ^ 32 := by
  have hstore := @store_append _ (List.replicate 4 (0 : UInt8))
    (bytes 4 n) (by rw [length_bytes, List.length_replicate]) []
    (List.replicate 4 0)
  rw [List.nil_append, List.nil_append, ← List.replicate_add] at hstore
  exact (congrArg todword hstore).trans (todword_bytes _ _)

theorem take_store (n : ℕ) :
    (store (List.replicate 8 0) 0 (bytes 8 n)).take 8 = bytes 8 n := by
  have hstore := @store_append _ (List.replicate 8 (0 : UInt8))
    (bytes 8 n) (by rw [length_bytes, List.length_replicate]) [] []
  rw [List.nil_append, List.nil_append, List.append_nil,
    List.append_nil] at hstore
  exact (congrArg (List.take 8) hstore).trans
    (List.take_of_length_le (Nat.le_of_eq (length_bytes 8 _)))

/-- One turn of the loop, with the bytes that a callback gives for the element,
whatever its state. -/
theorem putInteger_union
    {a : IntegerArray} {xs : List (BitVec 64)} {size : ℕ}
    (h : Holds a xs (integerWidth xs) size) (x : BitVec 64) :
    ∃ sz u,
      (∀ (τ : Type) (ud : τ),
        (if Narrow x then
          Reply.size 4 (store (List.replicate 8 0) 0 (bytes 4 x.toNat)) ud
        else .size 8 (store (List.replicate 8 0) 0 (bytes 8 x.toNat)) ud) =
          .size sz u ud) ∧
      (putInteger a sz u = none ∧ size < 1 + xs.length * 8 + 8 ∨
        ∃ a', putInteger a sz u = some a' ∧
          Holds a' (xs ++ [x]) (integerWidth (xs ++ [x])) size) := by
  by_cases hx : Narrow x
  · refine ⟨4, _, fun _ _ => if_pos hx, ?_⟩
    have hword := todword_store x.toNat
    rw [integerWidth_snoc_narrow hx]
    have hbuffer := h.buffer
    have hw := integerWidth_cases xs
    have hmul : xs.length * integerWidth xs ≤ xs.length * 8 :=
      Nat.mul_le_mul_left _ (by omega)
    rcases putInteger_narrow h hw hx hword with ⟨hnone, hlt⟩ | hsome
    · exact .inl ⟨hnone, by omega⟩
    · exact .inr hsome
  · refine ⟨8, _, fun _ _ => if_neg hx, ?_⟩
    have hwords := take_store x.toNat
    rw [integerWidth_snoc_wide hx]
    exact putInteger_wide h rfl hwords

/-- One turn of the loop. -/
theorem putInteger_spec
    {a : IntegerArray} {xs : List (BitVec 64)} {size : ℕ}
    (h : Holds a xs (integerWidth xs) size) (x : BitVec 64) :
    ∃ sz u, writeInteger x (List.replicate 8 0) ud = .size sz u ud ∧
      (putInteger a sz u = none ∧ size < 1 + xs.length * 8 + 8 ∨
        ∃ a', putInteger a sz u = some a' ∧
          Holds a' (xs ++ [x]) (integerWidth (xs ++ [x])) size) := by
  obtain ⟨sz, u, hunion, hput⟩ := putInteger_union h x
  exact ⟨sz, u, hunion EncodeUd ud, hput⟩

/-- The elements so far leave turns for the rest. -/
theorem Holds.length_lt
    {a : IntegerArray} {xs : List (BitVec 64)} {size : ℕ}
    (h : Holds a xs (integerWidth xs) size) : xs.length < size := by
  have hroom := h.room
  have hmul : xs.length * 4 ≤ xs.length * integerWidth xs := by
    refine Nat.mul_le_mul_left _ ?_
    have := integerWidth_cases xs
    omega
  rw [h.buffer] at hroom
  omega

theorem encodeIntegers_spec
    {xs done : List (BitVec 64)} {a : IntegerArray} {size fuel : ℕ}
    (hfeeds : Feeds cb args integerAnswer (done.length + 1) xs ud ud')
    (h : Holds a done (integerWidth done) size)
    (hfuel : size < fuel + done.length) :
    encodeIntegers cb args fuel a ud = .ok none ∧
        size < 1 + (done.length + xs.length) * 8 ∨
      ∃ a', encodeIntegers cb args fuel a ud = .ok (some (a', false, ud')) ∧
        Holds a' (done ++ xs) (integerWidth (done ++ xs)) size := by
  induction xs generalizing done a fuel ud with
  | nil =>
      cases fuel with
      | zero =>
          have hlt := h.length_lt
          omega
      | succ fuel =>
          refine .inr ⟨a, ?_, ?_⟩
          · rw [encodeIntegers, h.index, hfeeds]
            rfl
          · rw [List.append_nil]
            exact h
  | cons x xs ih =>
      cases fuel with
      | zero =>
          have hlt := h.length_lt
          omega
      | succ fuel =>
          obtain ⟨next, hcb, hfeeds⟩ := hfeeds
          obtain ⟨sz, u, hwrite, hput⟩ := @putInteger_spec next a done size h x
          rw [encodeIntegers, h.index, hcb, integerAnswer, hwrite]
          dsimp only [Except.bind]
          rw [List.length_cons]
          rcases hput with ⟨hnone, hlt⟩ | ⟨a', hsome, hholds⟩
          · rw [hnone]
            exact .inl ⟨rfl, by omega⟩
          · rw [hsome]
            have hdone : (done ++ [x]).length = done.length + 1 := by
              rw [List.length_append, List.length_singleton]
            have hrest := @ih next (done ++ [x]) a' fuel
              (by rw [hdone]; exact hfeeds) hholds (by rw [hdone]; omega)
            rw [hdone, List.append_assoc] at hrest
            rcases hrest with ⟨hnone, hlt⟩ | hsome
            · exact .inl ⟨hnone, by omega⟩
            · exact .inr hsome

theorem writes_integers
    {xs : List (BitVec 64)} (hfeeds : Feeds cb args integerAnswer 1 xs ud ud') :
    Writes (fun buffer => encodeIntegerArray cb args buffer ud)
      (integersBlock xs) (false, ud') := by
  refine ⟨1 + xs.length * 8, fun buffer => ?_⟩
  dsimp only
  unfold encodeIntegerArray
  split
  · rename_i hlt
    exact .inl ⟨rfl, by omega⟩
  · rename_i hge
    have hstart : Holds ⟨buffer, 1, sizeofInt32, 1⟩ [] (integerWidth [])
        buffer.length := by
      have hnarrow : integerWidth [] = sizeofInt32 :=
        if_pos fun _ hx => (List.not_mem_nil hx).elim
      rw [hnarrow]
      exact ⟨rfl, rfl, rfl, rfl, Nat.le_of_not_lt hge, rfl⟩
    rcases encodeIntegers_spec hfeeds hstart (Nat.lt_succ_self _) with
      ⟨hnone, hlt⟩ | ⟨a, hsome, hholds⟩
    · rw [hnone]
      rw [List.length_nil, Nat.zero_add] at hlt
      exact .inl ⟨rfl, hlt⟩
    · rw [hsome, List.nil_append] at *
      cases xs with
      | nil =>
          refine .inr ⟨a.header, ?_, hholds.length, List.nil_prefix⟩
          have hbuffer := hholds.buffer
          rw [List.length_nil, Nat.zero_mul] at hbuffer
          dsimp only [Except.map, Option.map]
          rw [if_pos hbuffer]
          rfl
      | cons x xs =>
          generalize hw : integerWidth (x :: xs) = w at hholds
          have hbuffer := hholds.buffer
          have hlength := hholds.length
          have hpos : 0 < (x :: xs).length * w := by
            have := integerWidth_cases (x :: xs)
            exact Nat.mul_pos (Nat.zero_lt_succ _) (by omega)
          obtain ⟨c, tail, hheader⟩ : ∃ c tail, a.header = c :: tail := by
            cases hnil : a.header with
            | nil =>
                rw [hnil, List.length_nil] at hlength
                omega
            | cons c tail => exact ⟨c, tail, rfl⟩
          have hprefix : integersCode w (x :: xs) <+: tail := by
            have helements := hholds.elements
            rw [hheader] at helements
            rw [← helements]
            exact List.take_prefix _ _
          obtain ⟨rest, rfl⟩ := hprefix
          refine .inr ⟨UInt8.ofNat w :: (integersCode w (x :: xs) ++ rest), ?_,
            ?_, rest, ?_⟩
          · dsimp only [Except.map, Option.map]
            rw [if_neg (by omega), hheader, hholds.intlen, integersBlock, hw,
              List.length_cons, length_integersCode, hbuffer, Nat.add_comm 1]
            rfl
          · rw [hheader] at hlength
            exact hlength
          · rw [integersBlock, hw]
            rfl

end Integers

section Size

variable {σ : Type*} {cb : Arg → σ → Except Failure (Reply σ)} {args : Arg}
  {ud ud' : σ}

/-! ## The size of the array -/

/-- The elements are written behind their size. -/
theorem writes_array
    {block : List UInt8}
    (h : Writes (fun buffer => encodeElements cb args buffer ud) block
      (false, ud')) :
    Writes (fun data => encodeArray cb args data ud) (objectCode block)
      ud' := by
  obtain ⟨need, hneed⟩ := h
  refine ⟨sizeofLength + need, fun data => ?_⟩
  dsimp only
  unfold encodeArray
  split
  · exact .inl ⟨rfl, by omega⟩
  · rename_i hge
    obtain ⟨size, buffer, hsize, hdata⟩ :=
      exists_cells [] (Nat.le_of_not_lt hge)
    rw [List.nil_append, List.nil_append] at hdata
    subst hdata
    have htotal : (size ++ buffer).length = sizeofLength + buffer.length := by
      rw [List.length_append, hsize]
    rw [List.drop_left' hsize, List.take_left' hsize]
    rcases hneed buffer with ⟨hnone, hlt⟩ | ⟨buffer', hsome, hlength, rest, rfl⟩
    · dsimp only at hnone
      rw [hnone]
      exact .inl ⟨rfl, by omega⟩
    · dsimp only at hsome
      rw [hsome]
      refine .inr ⟨objectCode block ++ rest, ?_, ?_, rest, rfl⟩
      · have hstore := @store_append _ size
          (bytes sizeofLength block.length) (by rw [length_bytes, hsize]) []
          (block ++ rest)
        rw [List.nil_append, List.nil_append] at hstore
        dsimp only [Except.map, Option.map, fillSize]
        rw [if_neg Bool.false_ne_true]
        rw [List.length_nil] at hstore
        rw [hstore, length_objectCode, Nat.add_comm, objectCode,
          List.append_assoc]
      · rw [List.length_append] at hlength
        rw [List.length_append, length_objectCode]
        omega

theorem writes_noelements
    (h : ∀ value, cb { args with value := value, index := (1 : ℕ) } ud =
      .ok (.noarray ud')) :
    Writes (fun buffer => encodeElements cb args buffer ud) []
      (true, ud') := by
  refine ⟨sizeofLength, fun buffer => ?_⟩
  have hobjects : encodeObjects cb args (buffer.length + 1) buffer 0 1 ud =
      .ok none ∧ buffer.length < sizeofLength ∨
      ∃ data', encodeObjects cb args (buffer.length + 1) buffer 0 1 ud =
        .ok (some (data', 0, true, ud')) ∧ Written buffer data' [] := by
    rw [encodeObjects]
    split
    · rename_i hlt
      exact .inl ⟨rfl, hlt⟩
    · refine .inr ⟨buffer, ?_, rfl, List.nil_prefix⟩
      rw [h]
      rfl
  dsimp only
  unfold encodeElements
  split
  · unfold encodeIntegerArray
    split
    · rename_i hlt
      exact .inl ⟨rfl, Nat.lt_of_lt_of_le hlt (by decide)⟩
    · refine .inr ⟨buffer, ?_, rfl, List.nil_prefix⟩
      rw [encodeIntegers, h]
      rfl
  · refine .inr ⟨buffer, ?_, rfl, List.nil_prefix⟩
    rw [encodeBooleans, h]
    rfl
  · exact hobjects

/-- Without an array nothing is written. -/
theorem writes_noarray
    (h : ∀ value, cb { args with value := value, index := (1 : ℕ) } ud =
      .ok (.noarray ud')) :
    Writes (fun data => encodeArray cb args data ud) [] ud' := by
  obtain ⟨need, hneed⟩ := writes_noelements h
  refine ⟨sizeofLength + need, fun data => ?_⟩
  dsimp only
  unfold encodeArray
  split
  · exact .inl ⟨rfl, by omega⟩
  · rename_i hge
    rcases hneed (data.drop sizeofLength) with
      ⟨hnone, hlt⟩ | ⟨buffer', hsome, hlength, -⟩
    · dsimp only at hnone
      rw [hnone]
      rw [List.length_drop] at hlt
      exact .inl ⟨rfl, by omega⟩
    · dsimp only at hsome
      rw [hsome]
      refine .inr ⟨_, rfl, ?_, List.nil_prefix⟩
      rw [List.length_drop] at hlength
      rw [List.length_append, List.length_take, hlength]
      omega

end Size

end SkynetServer.Sproto
