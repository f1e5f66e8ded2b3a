import SkynetServer.Sharedata.Passes
import SkynetServer.Support.Integers

/-!
# Converted tables

There are as many slots as keys for them, so the second pass always finds a slot
that is left, and no slot is left in the end.  From this follow what is known of
every table that `convtable` returns and that it does not fail by itself.
-/

namespace SkynetServer.Sharedata

open Fallible Integers

/-- The keys of a table are those that can be read again. -/
def InRange (x : BitVec 64) : Prop :=
  -0x80000000 ≤ x.toInt ∧ x.toInt < 0x80000000

def Key.Fits : Key → Prop
  | .integer x => InRange x
  | .string _ => True
  | _ => False

theorem signExtend_narrow_iff (x : BitVec 64) :
    (narrow x).signExtend 64 = x ↔ InRange x := by
  rw [narrow, Integers.signExtend_setWidth_iff, InRange]
  omega

theorem toInt_narrow {x : BitVec 64} (h : InRange x) :
    (narrow x).toInt = x.toInt := by
  have hwide := BitVec.toInt_signExtend_of_le (x := narrow x)
    (show 32 ≤ 64 by decide)
  rw [(signExtend_narrow_iff x).mpr h] at hwide
  exact hwide.symm

theorem narrow_inj {x y : BitVec 64} (hx : InRange x) (hy : InRange y)
    (h : narrow x = narrow y) : x = y := by
  rw [← (signExtend_narrow_iff x).mpr hx, h, (signExtend_narrow_iff y).mpr hy]

/-! ## Keys in nodes -/

section Keys

variable {sL ctx : Strings} {k k' : Key} {n : ℕ}

theorem Key.node_of_prefix
    (h : ctx <+: sL) (hk : k.Known ctx) : k.node sL = k.node ctx := by
  obtain ⟨t, rfl⟩ := h
  cases k with
  | integer x | float bits => rfl
  | string str | table id | other id =>
      exact congrArg (fun i => NodeKey.string (i + 2))
        (List.idxOf_append_of_mem hk)

/-- Keys that fit are told apart in the nodes. -/
theorem Key.node_inj
    (hk : k.Fits) (hk' : k'.Fits) (hknown : k.Known sL) (hknown' : k'.Known sL)
    (h : k.node sL = k'.node sL) : k = k' := by
  cases k with
  | integer x =>
      cases k' with
      | integer y =>
          rw [narrow_inj hk hk' (NodeKey.integer.inj h)]
      | string str => cases h
      | float bits | table id | other id => exact hk'.elim
  | string str =>
      cases k' with
      | integer y => cases h
      | string str' =>
          have hat := congrArg (stringAt sL) (NodeKey.string.inj h)
          rw [stringAt_idxOf hknown, stringAt_idxOf hknown'] at hat
          exact congrArg Key.string hat
      | float bits | table id | other id => exact hk'.elim
  | float bits | table id | other id => exact hk.elim

/-- An integer that is counted as an element is one. -/
theorem Key.hashed_of_array
    {x : BitVec 64} (hn : n < 0x80000000) (h : 0 < x.toInt ∧ x.toInt ≤ n) :
    (Key.integer x).hashed n = false := by
  have hx : InRange x := by
    rw [InRange]
    omega
  rw [Key.hashed, toInt_narrow hx]
  exact decide_eq_false (not_not_intro h)

end Keys

variable {es : Entries}

theorem countsize_ge
    {n c : ℕ} (hn : n < 0x80000000)
    (h : countsize n es = .ok c) :
    es.countP (fun e => e.1.hashed n) ≤ c ∧
      ((∀ e ∈ es, e.1.Fits) → es.countP (fun e => e.1.hashed n) = c) := by
  induction es generalizing c with
  | nil =>
      cases h
      exact ⟨Nat.le_refl _, fun _ => rfl⟩
  | cons e es ih =>
      obtain ⟨k, v⟩ := e
      have hother (hhash : k.hashed n = true)
          (h : (countsize n es).map (· + 1) = .ok c) :
          ((k, v) :: es).countP (fun e => e.1.hashed n) ≤ c ∧
            ((∀ e ∈ (k, v) :: es, e.1.Fits) →
              ((k, v) :: es).countP (fun e => e.1.hashed n) = c) := by
        obtain ⟨d, hd, heq⟩ := map_ok_iff.mp h
        obtain ⟨hle, hfull⟩ := ih hd
        subst heq
        rw [List.countP_cons]
        dsimp only
        rw [hhash, if_pos rfl]
        exact ⟨Nat.succ_le_succ hle, fun hfits => congrArg (· + 1)
          (hfull fun e he => hfits e (List.mem_cons_of_mem _ he))⟩
      cases k with
      | integer x =>
          obtain ⟨d, hd, heq⟩ := map_ok_iff.mp h
          obtain ⟨hle, hfull⟩ := ih hd
          subst heq
          rw [List.countP_cons]
          dsimp only
          by_cases harray : 0 < x.toInt ∧ x.toInt ≤ n
          · rw [if_pos harray, Key.hashed_of_array hn harray]
            exact ⟨hle, fun hfits =>
              hfull fun e he => hfits e (List.mem_cons_of_mem _ he)⟩
          · rw [if_neg harray]
            refine ⟨?_, fun hfits => ?_⟩
            · split
              all_goals omega
            · have hx : InRange x := hfits _ List.mem_cons_self
              have hhash : (Key.integer x).hashed n = true := by
                rw [Key.hashed, toInt_narrow hx]
                exact decide_eq_true harray
              rw [hhash, if_pos rfl,
                hfull fun e he => hfits e (List.mem_cons_of_mem _ he)]
      | string str | table id => exact hother rfl h
      | float bits | other id => cases h

/-! ## Slots that hold a value -/

def filled (m : ℕ) (tbl : Table Stored) : Finset ℕ :=
  (Finset.range m).filter fun i => (tbl.hash i).isSome

section Filled

variable {conv : Conv} {sL : Strings} {n m : ℕ} {es visited rest : Entries}
variable {e : Key × Value} {tbl tbl' tbl₁ : Table Stored}
variable {ctx ctx' ctx₁ : Strings}

theorem mem_filled {i : ℕ} :
    i ∈ filled m tbl ↔ i < m ∧ (tbl.hash i).isSome = true := by
  rw [filled, Finset.mem_filter, Finset.mem_range]

theorem card_of_emptyslot
    (hm : tbl.sizehash = m) (h : tbl.emptyslot = none) :
    (filled m tbl).card = m := by
  have hall : filled m tbl = Finset.range m := by
    refine Finset.filter_true_of_mem fun i hi => ?_
    have hsome := List.find?_eq_none.mp h i
      (List.mem_range.mpr (hm.symm ▸ Finset.mem_range.mp hi))
    rw [Bool.not_eq_true, Option.isNone_eq_false_iff] at hsome
    exact hsome
  rw [hall, Finset.card_range]

/-- One more slot is filled. -/
theorem card_chained
    {i k : ℕ} {mainpos : Node Stored} {key : NodeKey} {keyhash : BitVec 32}
    {w : Stored} (hmain : tbl.hash i = some mainpos) (hk : tbl.hash k = none) :
    (filled m (chained tbl i k mainpos key keyhash w)).card ≤
      (filled m tbl).card + 1 := by
  have hsub : filled m (chained tbl i k mainpos key keyhash w) ⊆
      insert k (filled m tbl) := by
    intro j hj
    obtain ⟨hjm, hsome⟩ := mem_filled.mp hj
    obtain ⟨b, hb⟩ := Option.isSome_iff_exists.mp hsome
    rcases chained_cases hb with ⟨rfl, -⟩ | ⟨rfl, -⟩ | ⟨-, hb⟩
    · exact Finset.mem_insert_self j _
    · refine Finset.mem_insert_of_mem (mem_filled.mpr ⟨hjm, ?_⟩)
      rw [hmain]
      rfl
    · refine Finset.mem_insert_of_mem (mem_filled.mpr ⟨hjm, ?_⟩)
      rw [hb]
      rfl
  exact (Finset.card_le_card hsub).trans (Finset.card_insert_le k _)

/-- The entry was put to its main position. -/
def isHome (ctx : Strings) (n m : ℕ) (tbl : Table Stored) (e : Key × Value) :
    Bool :=
  e.1.hashed n &&
    (tbl.hash (e.1.keyhash.toNat % m)).map Node.key = some (e.1.node ctx)

/-- The entry is left for the second pass. -/
def isLeft (ctx : Strings) (n m : ℕ) (tbl : Table Stored) (e : Key × Value) :
    Bool :=
  e.1.hashed n &&
    !((tbl.hash (e.1.keyhash.toNat % m)).map Node.key = some (e.1.node ctx))

theorem countP_and_add {α : Type} (p q : α → Bool) (l : List α) :
    l.countP (fun a => p a && q a) + l.countP (fun a => p a && !q a) =
      l.countP p := by
  induction l with
  | nil => rfl
  | cons a l ih =>
      rw [List.countP_cons, List.countP_cons, List.countP_cons, ← ih]
      cases p a
      · rfl
      · cases q a
        · exact (Nat.add_assoc _ _ _).symm
        · exact Nat.add_right_comm _ _ _

theorem countP_home_add_left (es : Entries) :
    es.countP (isHome ctx n m tbl) + es.countP (isLeft ctx n m tbl) =
      es.countP fun e => e.1.hashed n :=
  countP_and_add (fun e : Key × Value => e.1.hashed n) _ es

/-- In the first pass every slot is filled by an entry that it is the main
position of. -/
theorem Started.card_filled_le
    (h : Started conv ctx n m es tbl) :
    (filled m tbl).card ≤ es.countP (isHome ctx n m tbl) := by
  have hsub : filled m tbl ⊆ ((es.filter (isHome ctx n m tbl)).map
      fun e => e.1.keyhash.toNat % m).toFinset := by
    intro i hi
    obtain ⟨-, hsome⟩ := mem_filled.mp hi
    obtain ⟨a, ha⟩ := Option.isSome_iff_exists.mp hsome
    obtain ⟨e, he, howns⟩ := h.owned i a ha
    have hi' : i = e.1.keyhash.toNat % m := by
      rw [(h.home i a ha).1, Node.main, howns.keyhash]
    rw [List.mem_toFinset, List.mem_map]
    refine ⟨e, List.mem_filter.mpr ⟨he, ?_⟩, hi'.symm⟩
    rw [isHome, howns.hashed, ← hi', ha, Option.map_some, howns.key]
    exact decide_eq_true rfl
  refine (Finset.card_le_card hsub).trans ((List.toFinset_card_le _).trans ?_)
  rw [List.length_map, List.countP_eq_length_filter]

/-- The second pass: the slots that are filled are counted by the entries, and
the keys at the main positions stay. -/
structure Counted (conv : Conv) (n m : ℕ) (es : Entries) (tbl₁ : Table Stored)
    (ctx₁ : Strings) (visited : Entries) (tbl : Table Stored) (ctx : Strings) :
    Prop where
  grows : ctx₁ <+: ctx
  linked : ∀ sL, ctx <+: sL → Linked conv sL n m es visited tbl
  known : ∀ e ∈ es, e.1.hashed n = true → e.1.Known ctx₁
  heads : ∀ e ∈ es, e.1.hashed n = true →
    (tbl.hash (e.1.keyhash.toNat % m)).map Node.key =
      (tbl₁.hash (e.1.keyhash.toNat % m)).map Node.key
  card : (filled m tbl).card ≤
    es.countP (isHome ctx₁ n m tbl₁) + visited.countP (isLeft ctx₁ n m tbl₁)

/-- An entry that its main position does not hold is left. -/
theorem Counted.isLeft
    (h : Counted conv n m es tbl₁ ctx₁ visited tbl ctx) (he : e ∈ es)
    (hhash : e.1.hashed n = true) {mainpos : Node Stored} {key : NodeKey}
    (hmain : tbl.hash (e.1.keyhash.toNat % m) = some mainpos)
    (hgrows : ctx <+: ctx')
    (hkey : ∀ sL, ctx' <+: sL → key = e.1.node sL) (hne : mainpos.key ≠ key) :
    Sharedata.isLeft ctx₁ n m tbl₁ e = true := by
  have hheads := h.heads e he hhash
  rw [hmain, Option.map_some] at hheads
  have hnode : key = e.1.node ctx₁ := by
    rw [hkey ctx' List.prefix_rfl]
    exact Key.node_of_prefix (h.grows.trans hgrows) (h.known e he hhash)
  rw [Sharedata.isLeft, hhash, ← hheads, ← hnode, decide_eq_false]
  · rfl
  · exact fun heq => hne (Option.some.inj heq)

theorem Started.counted
    (h : ∀ sL, ctx <+: sL → Started conv sL n m es tbl) (hm : 0 < m) :
    Counted conv n m es tbl ctx [] tbl ctx where
  grows := List.prefix_rfl
  linked sL hsL := (h sL hsL).linked hm
  known := (h ctx List.prefix_rfl).known
  heads _ _ _ := rfl
  card := (h ctx List.prefix_rfl).card_filled_le

theorem counted_step
    (hconv : Grows conv) (hes : es = visited ++ e :: rest)
    (h : Counted conv n m es tbl₁ ctx₁ visited tbl ctx)
    (hstep : colliding conv (tbl, ctx) e = .ok (tbl', ctx')) :
    Counted conv n m es tbl₁ ctx₁ (visited ++ [e]) tbl' ctx' := by
  obtain ⟨hgrows, hlinked⟩ := linked_step hconv hes h.linked hstep
  have hmem := mem_of_split hes
  have hl := h.linked ctx List.prefix_rfl
  obtain ⟨-, hcases⟩ := colliding_cases hconv hstep
  rw [Table.slot, hl.sizearray, hl.sizehash] at hcases
  have hcard := h.card
  have hmore : visited.countP (Sharedata.isLeft ctx₁ n m tbl₁) ≤
      (visited ++ [e]).countP (Sharedata.isLeft ctx₁ n m tbl₁) := by
    rw [List.countP_append]
    exact Nat.le_add_right _ _
  rcases hcases with ⟨-, rfl⟩ | ⟨hhash, mainpos, key, hmain, hkey, hcase⟩
  · exact ⟨h.grows.trans hgrows, hlinked, h.known, h.heads, by omega⟩
  rcases hcase with ⟨-, rfl⟩ | ⟨hdiffer, k, w, hempty, rfl, -⟩
  · exact ⟨h.grows.trans hgrows, hlinked, h.known, h.heads, by omega⟩
  · obtain ⟨-, hknone⟩ := emptyslot_spec hempty
    refine ⟨h.grows.trans hgrows, hlinked, h.known, fun e' he' hhash' => ?_, ?_⟩
    · obtain ⟨b, hb, -⟩ := hl.heads e' he' hhash'
      obtain ⟨b', hb', hbkey, -⟩ := @chained_keeps tbl _ k mainpos b key
        e.1.keyhash w hmain hknone _ hb
      rw [hb', ← h.heads e' he' hhash', hb, Option.map_some, Option.map_some,
        hbkey]
    · have hone := @card_chained m tbl _ k mainpos key e.1.keyhash w hmain
        hknone
      have hleft := h.isLeft hmem hhash hmain hgrows
        (fun sL hsL => (hkey sL hsL).1) hdiffer
      rw [List.countP_append, List.countP_singleton, if_pos hleft]
      omega

/-- A slot is left for every entry. -/
theorem Counted.emptyslot
    (h : Counted conv n m es tbl₁ ctx₁ visited tbl ctx)
    (hes : es = visited ++ e :: rest)
    (hm : es.countP (fun e => e.1.hashed n) ≤ m)
    (hleft : Sharedata.isLeft ctx₁ n m tbl₁ e = true) :
    tbl.emptyslot ≠ none := by
  intro hnone
  have hl := h.linked ctx List.prefix_rfl
  have hfull := card_of_emptyslot hl.sizehash hnone
  have hcard := h.card
  have hadd := @countP_home_add_left n m tbl₁ ctx₁ es
  have hsplit : es.countP (Sharedata.isLeft ctx₁ n m tbl₁) =
      visited.countP (Sharedata.isLeft ctx₁ n m tbl₁) +
        (rest.countP (Sharedata.isLeft ctx₁ n m tbl₁) + 1) := by
    rw [hes, List.countP_append, List.countP_cons, if_pos hleft]
  omega

end Filled

/-! ## Entries -/

section Entries

variable {es : Entries} {k : Key} {v : Value}

theorem rawget_eq_none_iff :
    rawget es k = none ↔ ∀ e ∈ es, e.1 ≠ k := by
  rw [rawget, Option.map_eq_none_iff, List.find?_eq_none]
  constructor
  · intro h e he heq
    exact h e he (decide_eq_true heq)
  · intro h e he heq
    exact h e he (of_decide_eq_true heq)

theorem mem_of_rawget (h : rawget es k = some v) : (k, v) ∈ es := by
  obtain ⟨e, he, rfl⟩ := Option.map_eq_some_iff.mp h
  have hfound := List.find?_some he
  have hkey : e.1 = k := of_decide_eq_true hfound
  rw [← hkey]
  exact List.mem_of_find?_eq_some he

theorem rawget_of_mem
    (hnodup : (es.map Prod.fst).Nodup) (h : (k, v) ∈ es) :
    rawget es k = some v := by
  cases hget : rawget es k with
  | none => exact absurd rfl (rawget_eq_none_iff.mp hget (k, v) h)
  | some v' =>
      have heq := List.inj_on_of_nodup_map hnodup (mem_of_rawget hget) h rfl
      exact congrArg some (congrArg Prod.snd heq)

/-- The key of an element. -/
def elementKey (i : ℕ) : Key := .integer (.ofNat 64 (i + 1))

theorem toInt_elementKey {i : ℕ} (h : i < 0x7fffffff) :
    (BitVec.ofNat 64 (i + 1)).toInt = i + 1 :=
  toInt_ofNat_of_lt (by omega)

theorem inRange_elementKey {i : ℕ} (h : i < 0x7fffffff) :
    InRange (BitVec.ofNat 64 (i + 1)) := by
  rw [InRange, toInt_elementKey h]
  omega

end Entries

section Element

variable {conv : Conv} {sL : Strings} {n : ℕ} {es : Entries} {i : ℕ}
variable {w : Stored}

/-- What the element `i` holds. -/
def Placed (conv : Conv) (sL : Strings) (es : Entries) (i : ℕ) (w : Stored) :
    Prop :=
  (w = .nil ∧ rawget es (elementKey i) = none) ∨
    ∃ v, rawget es (elementKey i) = some v ∧ Stores conv sL v w

end Element

/-! ## Distinct keys -/

/-- Different slots have different keys. -/
def Distinct (tbl : Table Stored) : Prop :=
  ∀ i j a b, tbl.hash i = some a → tbl.hash j = some b → a.key = b.key → i = j

section Distinct

variable {conv : Conv} {sL : Strings} {n m : ℕ} {es visited rest : Entries}
variable {e e' : Key × Value} {tbl tbl' : Table Stored} {ctx ctx' : Strings}
variable {a b : Node Stored}

/-- A key in a node is that of one entry. -/
theorem Owns.eq
    (hfits : ∀ e ∈ es, e.1.Fits) (hnodup : (es.map Prod.fst).Nodup)
    (he : e ∈ es) (he' : e' ∈ es) (h : Owns conv sL n e a)
    (h' : Owns conv sL n e' b) (hkey : a.key = b.key) : e = e' := by
  refine List.inj_on_of_nodup_map hnodup he he' ?_
  rw [h.key, h'.key] at hkey
  exact Key.node_inj (hfits e he) (hfits e' he') h.known h'.known hkey

theorem Started.distinct
    (hfits : ∀ e ∈ es, e.1.Fits) (hnodup : (es.map Prod.fst).Nodup)
    (h : Started conv sL n m es tbl) : Distinct tbl := by
  intro i j a b ha hb hkey
  obtain ⟨e, he, howns⟩ := h.owned i a ha
  obtain ⟨e', he', howns'⟩ := h.owned j b hb
  obtain rfl := howns.eq hfits hnodup he he' howns' hkey
  rw [(h.home i a ha).1, (h.home j b hb).1, Node.main, Node.main,
    howns.keyhash, howns'.keyhash]

/-- The node of every key that is not in the array part. -/
theorem Linked.owner
    (hfits : ∀ e ∈ es, e.1.Fits) (hnodup : (es.map Prod.fst).Nodup)
    (h : Linked conv sL n m es es tbl) (he : e ∈ es)
    (hhash : e.1.hashed n = true) :
    ∃ i a, tbl.hash i = some a ∧ Owns conv sL n e a := by
  obtain ⟨i, a, ha, hkey⟩ := h.placed e he hhash
  obtain ⟨e', he', howns, -⟩ := h.owned i a ha
  have hnode : e'.1.node sL = e.1.node sL := howns.key.symm.trans hkey
  have heq : e' = e := List.inj_on_of_nodup_map hnodup he' he
    (Key.node_inj (hfits e' he') (hfits e he) howns.known
      (h.known e he hhash) hnode)
  exact ⟨i, a, ha, heq ▸ howns⟩

/-- The keys fill all slots. -/
theorem Linked.full
    (hfits : ∀ e ∈ es, e.1.Fits) (hnodup : (es.map Prod.fst).Nodup)
    (h : Linked conv sL n m es es tbl)
    (hm : es.countP (fun e => e.1.hashed n) = m) {i : ℕ} (hi : i < m) :
    tbl.hash i ≠ none := by
  have hsub : ((es.filter fun e => e.1.hashed n).map
      fun e => some (e.1.node sL)).toFinset ⊆
        (filled m tbl).image fun i => (tbl.hash i).map Node.key := by
    intro key hkey
    obtain ⟨e, he, rfl⟩ := List.mem_map.mp (List.mem_toFinset.mp hkey)
    obtain ⟨he, hhash⟩ := List.mem_filter.mp he
    obtain ⟨j, a, ha, howns⟩ := h.owner hfits hnodup he hhash
    refine Finset.mem_image.mpr ⟨j, mem_filled.mpr ⟨h.bound j a ha, ?_⟩, ?_⟩
    · rw [ha]
      rfl
    · rw [ha, Option.map_some, howns.key]
  have hnodes : ((es.filter fun e => e.1.hashed n).map
      fun e => some (e.1.node sL)).Nodup := by
    refine List.Nodup.map_on (fun e he e' he' heq => ?_)
      (hnodup.of_map.filter _)
    obtain ⟨he, hhash⟩ := List.mem_filter.mp he
    obtain ⟨he', hhash'⟩ := List.mem_filter.mp he'
    exact List.inj_on_of_nodup_map hnodup he he'
      (Key.node_inj (hfits e he) (hfits e' he') (h.known e he hhash)
        (h.known e' he' hhash') (Option.some.inj heq))
  have hcard : m ≤ (filled m tbl).card := by
    have hle := (Finset.card_le_card hsub).trans Finset.card_image_le
    rw [List.toFinset_card_of_nodup hnodes, List.length_map,
      ← List.countP_eq_length_filter, hm] at hle
    exact hle
  have hall : filled m tbl = Finset.range m := by
    refine Finset.eq_of_subset_of_card_le (Finset.filter_subset _ _) ?_
    rw [Finset.card_range]
    exact hcard
  have hmem : i ∈ filled m tbl := hall ▸ Finset.mem_range.mpr hi
  intro hnone
  have hsome := (mem_filled.mp hmem).2
  rw [hnone] at hsome
  cases hsome

end Distinct

/-! ## Conversion -/

section Array

variable {conv : Conv} {es : Entries} {tbl tbl' : Table Stored}
variable {ctx ctx' : Strings} {n : ℕ}

theorem fillelement_cases
    (hconv : Grows conv) {i : ℕ} {s s' : Table Stored × Strings}
    (h : fillelement conv es s i = .ok s') :
    s.2 <+: s'.2 ∧ ∃ w, s'.1 = s.1.setarray (i + 1) w ∧
      ∀ sL, s'.2 <+: sL → Placed conv sL es i w := by
  rw [fillelement] at h
  split at h
  · rename_i hget
    cases h
    exact ⟨List.prefix_rfl, .nil, rfl, fun _ _ => .inl ⟨rfl, hget⟩⟩
  · rename_i v hget
    obtain ⟨p, hp, rfl⟩ := map_ok_iff.mp h
    obtain ⟨hgrows, hstores⟩ := setvalue_spec hconv hp
    exact ⟨hgrows, p.1, rfl, fun sL hsL => .inr ⟨v, hget, hstores sL hsL⟩⟩

theorem fillelement_error
    {i : ℕ} {s : Table Stored × Strings} {f : Failure}
    (h : fillelement conv es s i = .error f) :
    f = .unsupported ∨ ∃ border es ctx, conv border es ctx = .error f := by
  rw [fillelement] at h
  split at h
  · cases h
  · exact setvalue_error (map_error_iff.mp h)

/-- The loop over the array part, when the elements of `visited` are set. -/
structure Arrayed (conv : Conv) (es : Entries) (tbl : Table Stored)
    (ctx : Strings) (visited : List ℕ) (s : Table Stored × Strings) :
    Prop where
  grows : ctx <+: s.2
  sizearray : s.1.sizearray = tbl.sizearray
  sizehash : s.1.sizehash = tbl.sizehash
  hash : s.1.hash = tbl.hash
  array : ∀ sL, s.2 <+: sL → ∀ i ∈ visited, Placed conv sL es i (s.1.array i)

theorem fillarray_spec
    (hconv : Grows conv) (h : fillarray conv es (tbl, ctx) = .ok (tbl', ctx')) :
    Arrayed conv es tbl ctx (List.range tbl.sizearray) (tbl', ctx') := by
  refine foldlM_ok (P := Arrayed conv es tbl ctx) ?_ ?_ h
  · intro visited i rest s s' _ hs hstep
    obtain ⟨hgrows, w, htbl, hw⟩ := fillelement_cases hconv hstep
    obtain ⟨tbl₁, ctx₁⟩ := s'
    dsimp only at htbl hgrows hw
    subst htbl
    refine ⟨hs.grows.trans hgrows, hs.sizearray, hs.sizehash, hs.hash,
      fun sL hsL j hj => ?_⟩
    dsimp only [Table.setarray]
    rw [Nat.add_sub_cancel]
    by_cases hji : j = i
    · rw [hji, Function.update_self]
      exact hw sL hsL
    · rw [Function.update_of_ne hji]
      rcases List.mem_append.mp hj with hj | hj
      · exact hs.array sL (hgrows.trans hsL) j hj
      · exact absurd (List.mem_singleton.mp hj) hji
  · exact ⟨List.prefix_rfl, rfl, rfl, rfl, fun _ _ _ hi =>
      (List.not_mem_nil hi).elim⟩

end Array

/-- The two passes, over any entries. -/
theorem fill_counted
    {conv : Conv} (hconv : Grows conv) {n m : ℕ} (hm : 0 < m)
    {ctx : Strings} {s : Table Stored × Strings}
    (h : fillnocolliding conv es
      (⟨n, fun _ => .nil, m, fun _ => none⟩, ctx) = .ok s) :
    ctx <+: s.2 ∧
      (∀ sL, s.2 <+: sL → Started conv sL n m es s.1) ∧
      Counted conv n m es s.1 s.2 [] s.1 s.2 := by
  have hstarted : ctx <+: s.2 ∧
      ∀ sL, s.2 <+: sL → Started conv sL n m es s.1 := by
    refine foldlM_ok (P := fun visited s => ctx <+: s.2 ∧
      ∀ sL, s.2 <+: sL → Started conv sL n m visited s.1) ?_ ?_ h
    · rintro visited e rest ⟨tbl, ctx₁⟩ ⟨tbl', ctx'⟩ _ ⟨hgrows, hs⟩ hstep
      obtain ⟨hmore, hs'⟩ := started_step hconv hs hstep
      exact ⟨hgrows.trans hmore, hs'⟩
    · exact ⟨List.prefix_rfl, fun _ _ => started_init⟩
  exact ⟨hstarted.1, hstarted.2, Started.counted hstarted.2 hm⟩

variable {tbl : Table Stored}

/-- How a table is converted: by the loop over the array part, or by the two
passes. -/
theorem convtable_cases
    {room border : ℕ} {ctx ctx' : Strings}
    (hconv : Grows (convtable room))
    (h : convtable (room + 1) border es ctx = .ok (tbl, ctx')) :
    ∃ n m, n < 0x80000000 ∧ countsize n es = .ok m ∧
      (m = 0 ∧ Arrayed (convtable room) es
          ⟨n, fun _ => .nil, 0, fun _ => none⟩ ctx (List.range n)
          (tbl, ctx') ∨
        ∃ s, ctx <+: s.2 ∧
          (∀ sL, s.2 <+: sL → Started (convtable room) sL n m es s.1) ∧
          Counted (convtable room) n m es s.1 s.2 [] s.1 s.2 ∧
          fillcolliding (convtable room) es s = .ok (tbl, ctx')) := by
  rw [convtable] at h
  split at h
  · cases h
  rename_i hsmall
  obtain ⟨m, hm, h⟩ := bind_ok_iff.mp h
  refine ⟨_, m, Nat.lt_of_not_ge hsmall, hm, ?_⟩
  split at h
  · cases h
  dsimp only at h
  split at h
  · rename_i hzero
    subst hzero
    exact .inl ⟨rfl, fillarray_spec hconv h⟩
  · rename_i hpos
    obtain ⟨s, hs, h⟩ := bind_ok_iff.mp h
    obtain ⟨hgrows, hstarted, hcounted⟩ :=
      fill_counted hconv (Nat.pos_of_ne_zero hpos) hs
    exact .inr ⟨s, hgrows, hstarted, hcounted, h⟩

theorem fillcolliding_counted
    {conv : Conv} (hconv : Grows conv) {n m : ℕ}
    {s p : Table Stored × Strings} (hs : Counted conv n m es s.1 s.2 [] s.1 s.2)
    (h : fillcolliding conv es s = .ok p) :
    Counted conv n m es s.1 s.2 es p.1 p.2 := by
  refine foldlM_ok (P := fun visited t =>
    Counted conv n m es s.1 s.2 visited t.1 t.2) ?_ hs h
  rintro visited e rest ⟨tbl, ctx⟩ ⟨tbl', ctx'⟩ hes hc hstep
  exact counted_step hconv hes hc hstep

theorem convtable_grows (room : ℕ) : Grows (convtable room) := by
  induction room with
  | zero =>
      intro border es ctx p h
      cases h
  | succ room ih =>
      rintro border es ctx ⟨tbl, ctx'⟩ h
      obtain ⟨n, m, -, -, ⟨-, ha⟩ | ⟨s, hgrows, -, hcounted, h⟩⟩ :=
        convtable_cases ih h
      · exact ha.grows
      · exact hgrows.trans (fillcolliding_counted ih hcounted h).grows

theorem countsize_error
    {n : ℕ} {f : Failure} (h : countsize n es = .error f) :
    f = .invalidKey := by
  induction es with
  | nil => cases h
  | cons e es ih =>
      obtain ⟨k, v⟩ := e
      cases k with
      | integer x | string str | table id => exact ih (map_error_iff.mp h)
      | float bits | other id => exact (Except.error.inj h).symm

/-- Why a conversion can fail. -/
def Refused (f : Failure) : Prop :=
  f = .unsupported ∨ f = .invalidKey ∨ f = .memory ∨ f = .tooDeep

/-- A conversion only fails at a value that is not supported, at a key that is
not valid, or by a limit: the assertion of the second pass holds, and no slot is
read that was not set. -/
theorem convtable_refused
    {room border : ℕ} {es : Entries} {ctx : Strings} {f : Failure}
    (h : convtable room border es ctx = .error f) : Refused f := by
  induction room generalizing border es ctx with
  | zero => exact .inr (.inr (.inr (Except.error.inj h).symm))
  | succ room ih =>
      have hvalue : (f = .unsupported ∨ ∃ border es ctx,
          convtable room border es ctx = .error f) → Refused f := by
        rintro (hf | ⟨border, es, ctx, hsub⟩)
        · exact .inl hf
        · exact ih hsub
      have hconv := convtable_grows room
      rw [convtable] at h
      split at h
      · exact .inr (.inr (.inl (Except.error.inj h).symm))
      rename_i hsmall
      rcases bind_error h with h | ⟨m, hm, h⟩
      · exact .inr (.inl (countsize_error h))
      split at h
      · exact .inr (.inr (.inl (Except.error.inj h).symm))
      dsimp only at h
      split at h
      · obtain ⟨-, i, -, s, -, -, hstep⟩ := foldlM_error
          (P := fun _ _ => True) (fun _ _ _ _ _ _ _ _ => trivial) trivial h
        exact hvalue (fillelement_error hstep)
      rename_i hpos
      rcases bind_error h with h | ⟨s, hs, h⟩
      · obtain ⟨-, e, -, s, -, -, hstep⟩ := foldlM_error
          (P := fun _ _ => True) (fun _ _ _ _ _ _ _ _ => trivial) trivial h
        exact hvalue (nocolliding_error hstep)
      obtain ⟨-, -, hcounted⟩ :=
        fill_counted hconv (Nat.pos_of_ne_zero hpos) hs
      obtain ⟨visited, e, rest, ⟨tbl, ctx₁⟩, hes, hc, hstep⟩ :=
        foldlM_error (P := fun visited t =>
          Counted (convtable room) _ m es s.1 s.2 visited t.1 t.2)
          (fun _ _ _ _ _ hes hc hstep => counted_step hconv hes hc hstep)
          hcounted h
      have hmem := mem_of_split hes
      have hl := hc.linked ctx₁ List.prefix_rfl
      rcases colliding_error hstep with hf | ⟨hhash, hcase⟩
      · exact hvalue hf
      rw [Table.slot, hl.sizehash] at hcase
      rw [hl.sizearray] at hhash
      rcases hcase with hnone | ⟨hfull, mainpos, ctx', key, hmain, hgrows,
        hkey, hdiffer⟩
      · obtain ⟨a, ha, -⟩ := hl.heads e hmem hhash
        rw [hnone] at ha
        cases ha
      · have hleft := hc.isLeft hmem hhash hmain hgrows hkey hdiffer
        have hle := (countsize_ge (Nat.lt_of_not_ge hsmall) hm).1
        exact absurd hfull (hc.emptyslot hes hle hleft)

/-- The second of two keys with one main position has a function as value. -/
theorem convtable_refused_function :
    convtable 1 0 [(.integer 2, .boolean true), (.integer 4, .other 0)] [] =
      .error .unsupported ∧ Refused .unsupported :=
  ⟨rfl, convtable_refused (show convtable 1 0
    [(.integer 2, .boolean true), (.integer 4, .other 0)] [] =
      .error .unsupported from rfl)⟩

/-! ## Tables -/

/-- What is known of a table, for the keys and the values that it was converted
from. -/
structure Built (conv : Conv) (sL : Strings) (n : ℕ) (es : Entries)
    (tbl : Table Stored) : Prop where
  small : n < 0x80000000
  sizearray : tbl.sizearray = n
  array : ∀ i < n, Placed conv sL es i (tbl.array i)
  bound : ∀ i a, tbl.hash i = some a → i < tbl.sizehash
  full : ∀ i < tbl.sizehash, tbl.hash i ≠ none
  distinct : Distinct tbl
  owned : ∀ i a, tbl.hash i = some a → ∃ e ∈ es, Owns conv sL n e a
  owner : ∀ e ∈ es, e.1.hashed n = true →
    ∃ i a, tbl.hash i = some a ∧ Owns conv sL n e a
  chain : ∀ i a, tbl.hash i = some a → ∃ l,
    Links.Path tbl.next (some (a.main tbl.sizehash)) l ∧ i ∈ l ∧
      ∀ j ∈ l, ∃ b, tbl.hash j = some b ∧
        b.main tbl.sizehash = a.main tbl.sizehash
  alone : ∀ i a, tbl.hash i = some a → a.nocolliding = true → a.next = none

end SkynetServer.Sharedata
