import SkynetServer.Sharedata.Convert
import SkynetServer.Support.Fallible
import SkynetServer.Support.Links

/-!
# The two passes

What one step of each pass over the entries can do, and what the passes keep.
The first one puts keys only at their main positions, and the second one puts
the others into slots that are left.  From the main position of a key lead the
slots with all the keys of the same main position, and with no other keys, so
two chains never cross.
-/

namespace SkynetServer.Sharedata

open Fallible Links

/-! ## Strings and keys -/

section Strings

variable {ctx sL : Strings} {str : List UInt8}

theorem stringindex_spec (ctx : Strings) (str : List UInt8) :
    ctx <+: (stringindex ctx str).2 ∧
      ∀ sL, (stringindex ctx str).2 <+: sL →
        (stringindex ctx str).1 = sL.idxOf str + 2 ∧ str ∈ sL := by
  unfold stringindex
  split
  · rename_i hmem
    refine ⟨List.prefix_rfl, ?_⟩
    rintro _ ⟨t, rfl⟩
    dsimp only
    rw [List.idxOf_append_of_mem hmem]
    exact ⟨rfl, List.mem_append_left t hmem⟩
  · rename_i hmem
    refine ⟨List.prefix_append ctx [str], ?_⟩
    rintro _ ⟨t, rfl⟩
    dsimp only
    rw [List.append_assoc, List.idxOf_append_of_notMem hmem,
      List.singleton_append, List.idxOf_cons_self]
    exact ⟨rfl, List.mem_append_right ctx List.mem_cons_self⟩

theorem stringindex_key (ctx : Strings) (str : List UInt8) :
    ctx <+: (stringindex ctx str).2 ∧
      ∀ sL, (stringindex ctx str).2 <+: sL →
        NodeKey.string (stringindex ctx str).1 =
          .string (sL.idxOf str + 2) ∧ str ∈ sL := by
  obtain ⟨hgrows, hindex⟩ := stringindex_spec ctx str
  refine ⟨hgrows, fun sL h => ?_⟩
  obtain ⟨heq, hmem⟩ := hindex sL h
  exact ⟨congrArg NodeKey.string heq, hmem⟩

theorem stringAt_idxOf (h : str ∈ sL) :
    stringAt sL (sL.idxOf str + 2) = str := by
  rw [stringAt, Nat.add_sub_cancel, List.getD_eq_getElem?_getD,
    List.getElem?_idxOf h]
  rfl

end Strings

namespace Key

/-- The key is not in the array part. -/
def hashed (sizearray : ℕ) : Key → Bool
  | .integer k => ¬ (0 < (narrow k).toInt ∧ (narrow k).toInt ≤ sizearray)
  | _ => true

/-- The key of an element of the array part. -/
def element : Key → ℕ
  | .integer k => (narrow k).toNat
  | _ => 0

/-- The key in a node, with the strings of the table. -/
def node (sL : Strings) : Key → NodeKey
  | .integer k => .integer (narrow k)
  | .float _ => .integer 0
  | k => .string (sL.idxOf k.text + 2)

/-- The key is one of the strings, if it is no number. -/
def Known (sL : Strings) : Key → Prop
  | .integer _ | .float _ => True
  | k => k.text ∈ sL

end Key

theorem ishashkey_spec (n : ℕ) (k : Key) (ctx : Strings) :
    ctx <+: (ishashkey n k ctx).2 ∧
      (k.hashed n = false → (ishashkey n k ctx).1 = .array k.element ∧
        1 ≤ k.element ∧ k.element ≤ n) ∧
      (k.hashed n = true → ∃ key,
        (ishashkey n k ctx).1 = .hash key k.keyhash ∧
        ∀ sL, (ishashkey n k ctx).2 <+: sL →
          key = k.node sL ∧ k.Known sL) := by
  cases k with
  | integer x =>
      rw [ishashkey, Key.hashed]
      split
      · rename_i hrange
        refine ⟨List.prefix_rfl, fun _ => ⟨rfl, ?_⟩, fun h => ?_⟩
        · rw [Key.element]
          have := BitVec.toInt_eq_toNat_cond (narrow x)
          split at this
          all_goals omega
        · exact absurd hrange (of_decide_eq_true h)
      · rename_i hrange
        refine ⟨List.prefix_rfl, fun h => ?_, fun _ => ?_⟩
        · exact absurd hrange (of_decide_eq_false h)
        · exact ⟨_, rfl, fun sL _ => ⟨rfl, trivial⟩⟩
  | float bits =>
      exact ⟨List.prefix_rfl, fun h => (by cases h),
        fun _ => ⟨_, rfl, fun sL _ => ⟨rfl, trivial⟩⟩⟩
  | string str =>
      obtain ⟨hgrows, hindex⟩ := stringindex_key ctx str
      exact ⟨hgrows, fun h => (by cases h), fun _ => ⟨_, rfl, hindex⟩⟩
  | table id | other id =>
      obtain ⟨hgrows, hindex⟩ := stringindex_key ctx []
      exact ⟨hgrows, fun h => (by cases h), fun _ => ⟨_, rfl, hindex⟩⟩

/-! ## Values -/

/-- Strings are only added. -/
def Grows (conv : Conv) : Prop :=
  ∀ border es ctx p, conv border es ctx = .ok p → ctx <+: p.2

/-- The stored value is that of the Lua value, for a table with the strings. -/
def Stores (conv : Conv) (sL : Strings) : Value → Stored → Prop
  | .integer d, w => w = .integer d
  | .real n, w => w = .real n
  | .string str, w => ∃ i, w = .string i ∧ stringAt sL i = str
  | .boolean b, w => w = .boolean b
  | .table border es, w =>
    ∃ tbl ctx ctx', w = .table tbl ∧
      conv border es ctx = .ok (tbl, ctx') ∧ ctx' <+: sL
  | .other _, _ => False

theorem Stores.isNil
    {conv : Conv} {sL : Strings} {v : Value} {w : Stored}
    (h : Stores conv sL v w) : w.isNil = false := by
  cases v with
  | integer d | real n | boolean b =>
      obtain rfl := h
      rfl
  | string str =>
      obtain ⟨i, rfl, -⟩ := h
      rfl
  | table border es =>
      obtain ⟨tbl, ctx, ctx', rfl, -⟩ := h
      rfl
  | other id => exact h.elim

theorem setvalue_spec
    {conv : Conv} (hconv : Grows conv) {v : Value} {ctx : Strings}
    {p : Stored × Strings} (h : setvalue conv v ctx = .ok p) :
    ctx <+: p.2 ∧ ∀ sL, p.2 <+: sL → Stores conv sL v p.1 := by
  cases v with
  | integer d | real n | boolean b =>
      cases h
      exact ⟨List.prefix_rfl, fun _ _ => rfl⟩
  | string str =>
      obtain ⟨hgrows, hindex⟩ := stringindex_spec ctx str
      rw [setvalue] at h
      generalize stringindex ctx str = r at h hgrows hindex
      obtain ⟨index, ctx₁⟩ := r
      cases h
      refine ⟨hgrows, fun sL hsL => ⟨index, rfl, ?_⟩⟩
      obtain ⟨heq, hmem⟩ := hindex sL hsL
      exact (congrArg (stringAt sL) heq).trans (stringAt_idxOf hmem)
  | table border es =>
      rw [setvalue] at h
      obtain ⟨q, hsub, h⟩ := map_ok_iff.mp h
      cases h
      exact ⟨hconv _ _ _ _ hsub, fun sL hsL =>
        ⟨q.1, ctx, q.2, rfl, hsub, hsL⟩⟩
  | other id => cases h

/-- A failure comes from a table inside the value, or the value is not
supported. -/
theorem setvalue_error
    {conv : Conv} {v : Value} {ctx : Strings} {e : Failure}
    (h : setvalue conv v ctx = .error e) :
    e = .unsupported ∨ ∃ border es ctx, conv border es ctx = .error e := by
  cases v with
  | table border es =>
      rw [setvalue] at h
      exact .inr ⟨_, _, _, map_error_iff.mp h⟩
  | other id =>
      cases h
      exact .inl rfl
  | integer d | real n | string str | boolean b => cases h

/-! ## One step -/

section Step

variable {conv : Conv} {tbl tbl' : Table Stored} {ctx ctx' : Strings}
variable {e : Key × Value}

/-- The three things that a step of the first pass can do. -/
theorem nocolliding_cases
    (hconv : Grows conv)
    (h : nocolliding conv (tbl, ctx) e = .ok (tbl', ctx')) :
    ctx <+: ctx' ∧
      ((e.1.hashed tbl.sizearray = false ∧ 1 ≤ e.1.element ∧
          e.1.element ≤ tbl.sizearray ∧
          ∃ w, tbl' = tbl.setarray e.1.element w ∧
            ∀ sL, ctx' <+: sL → Stores conv sL e.2 w) ∨
        (e.1.hashed tbl.sizearray = true ∧
          tbl.hash (tbl.slot e.1.keyhash) ≠ none ∧ tbl' = tbl ∧
          ∀ sL, ctx' <+: sL → e.1.Known sL) ∨
        (e.1.hashed tbl.sizearray = true ∧
          tbl.hash (tbl.slot e.1.keyhash) = none ∧
          ∃ w key, tbl' = tbl.setnode (tbl.slot e.1.keyhash)
              ⟨w, key, none, e.1.keyhash, true⟩ ∧
            ∀ sL, ctx' <+: sL →
              key = e.1.node sL ∧ e.1.Known sL ∧ Stores conv sL e.2 w)) := by
  obtain ⟨hgrows, harray, hhash⟩ := ishashkey_spec tbl.sizearray e.1 ctx
  rw [nocolliding] at h
  generalize ishashkey tbl.sizearray e.1 ctx = r at h hgrows harray hhash
  obtain ⟨place, ctx₁⟩ := r
  dsimp only at h hgrows harray hhash
  cases hcase : e.1.hashed tbl.sizearray with
  | false =>
      obtain ⟨rfl, hpos, hle⟩ := harray hcase
      obtain ⟨p, hp, heq⟩ := map_ok_iff.mp h
      obtain ⟨hmore, hstores⟩ := setvalue_spec hconv hp
      obtain ⟨rfl, rfl⟩ := Prod.mk.inj heq
      exact ⟨hgrows.trans hmore, .inl ⟨rfl, hpos, hle, p.1, rfl, hstores⟩⟩
  | true =>
      obtain ⟨key, rfl, hkey⟩ := hhash hcase
      dsimp only at h
      split at h
      · rename_i hnone
        obtain ⟨p, hp, heq⟩ := map_ok_iff.mp h
        obtain ⟨hmore, hstores⟩ := setvalue_spec hconv hp
        obtain ⟨rfl, rfl⟩ := Prod.mk.inj heq
        refine ⟨hgrows.trans hmore, .inr (.inr ⟨rfl,
          Option.isNone_iff_eq_none.mp hnone, p.1, key, rfl, fun sL hsL => ?_⟩)⟩
        obtain ⟨hnode, hknown⟩ := hkey sL (hmore.trans hsL)
        exact ⟨hnode, hknown, hstores sL hsL⟩
      · rename_i hsome
        cases h
        refine ⟨hgrows, .inr (.inl ⟨rfl, fun hnone => hsome ?_, rfl,
          fun sL hsL => (hkey sL hsL).2⟩)⟩
        rw [hnone]
        rfl

theorem nocolliding_error
    {f : Failure} (h : nocolliding conv (tbl, ctx) e = .error f) :
    f = .unsupported ∨ ∃ border es ctx, conv border es ctx = .error f := by
  rw [nocolliding] at h
  dsimp only at h
  split at h
  · exact setvalue_error (map_error_iff.mp h)
  · split at h
    · exact setvalue_error (map_error_iff.mp h)
    · cases h

/-- The main position points to the slot `n`, which points on. -/
def chained (tbl : Table Stored) (i n : ℕ) (mainpos : Node Stored)
    (key : NodeKey) (keyhash : BitVec 32) (w : Stored) : Table Stored :=
  (tbl.setnode i { mainpos with next := some n, nocolliding := false }).setnode
    n ⟨w, key, mainpos.next, keyhash, false⟩

/-- The three things that a step of the second pass can do. -/
theorem colliding_cases
    (hconv : Grows conv) (h : colliding conv (tbl, ctx) e = .ok (tbl', ctx')) :
    ctx <+: ctx' ∧
      ((e.1.hashed tbl.sizearray = false ∧ tbl' = tbl) ∨
        (e.1.hashed tbl.sizearray = true ∧
          ∃ mainpos key, tbl.hash (tbl.slot e.1.keyhash) = some mainpos ∧
            (∀ sL, ctx' <+: sL → key = e.1.node sL ∧ e.1.Known sL) ∧
            (mainpos.key = key ∧ tbl' = tbl ∨
              mainpos.key ≠ key ∧ ∃ n w, tbl.emptyslot = some n ∧
                tbl' = chained tbl (tbl.slot e.1.keyhash) n mainpos key
                  e.1.keyhash w ∧
                ∀ sL, ctx' <+: sL → Stores conv sL e.2 w))) := by
  obtain ⟨hgrows, harray, hhash⟩ := ishashkey_spec tbl.sizearray e.1 ctx
  rw [colliding] at h
  generalize ishashkey tbl.sizearray e.1 ctx = r at h hgrows harray hhash
  obtain ⟨place, ctx₁⟩ := r
  dsimp only at h hgrows harray hhash
  cases hcase : e.1.hashed tbl.sizearray with
  | false =>
      obtain ⟨rfl, -⟩ := harray hcase
      cases h
      exact ⟨hgrows, .inl ⟨rfl, rfl⟩⟩
  | true =>
      obtain ⟨key, rfl, hkey⟩ := hhash hcase
      dsimp only at h
      split at h
      · cases h
      · rename_i mainpos hmain
        split at h
        · rename_i hsame
          cases h
          exact ⟨hgrows, .inr ⟨rfl, mainpos, key, hmain, hkey,
            .inl ⟨hsame, rfl⟩⟩⟩
        · rename_i hdiffer
          split at h
          · cases h
          · rename_i n hempty
            obtain ⟨p, hp, heq⟩ := map_ok_iff.mp h
            obtain ⟨hmore, hstores⟩ := setvalue_spec hconv hp
            obtain ⟨rfl, rfl⟩ := Prod.mk.inj heq
            exact ⟨hgrows.trans hmore, .inr ⟨rfl, mainpos, key, hmain,
              fun sL hsL => hkey sL (hmore.trans hsL),
              .inr ⟨hdiffer, n, p.1, hempty, rfl, hstores⟩⟩⟩

theorem colliding_error
    {f : Failure} (h : colliding conv (tbl, ctx) e = .error f) :
    (f = .unsupported ∨ ∃ border es ctx, conv border es ctx = .error f) ∨
      e.1.hashed tbl.sizearray = true ∧
        (tbl.hash (tbl.slot e.1.keyhash) = none ∨
          tbl.emptyslot = none ∧ ∃ mainpos ctx' key,
            tbl.hash (tbl.slot e.1.keyhash) = some mainpos ∧
            ctx <+: ctx' ∧ (∀ sL, ctx' <+: sL → key = e.1.node sL) ∧
            mainpos.key ≠ key) := by
  obtain ⟨hgrows, harray, hhash⟩ := ishashkey_spec tbl.sizearray e.1 ctx
  rw [colliding] at h
  generalize ishashkey tbl.sizearray e.1 ctx = r at h hgrows harray hhash
  obtain ⟨place, ctx₁⟩ := r
  dsimp only at h hgrows harray hhash
  cases hcase : e.1.hashed tbl.sizearray with
  | false =>
      obtain ⟨rfl, -⟩ := harray hcase
      cases h
  | true =>
      obtain ⟨key, rfl, hkey⟩ := hhash hcase
      dsimp only at h
      split at h
      · rename_i hnone
        exact .inr ⟨rfl, .inl hnone⟩
      · rename_i mainpos hmain
        split at h
        · cases h
        · rename_i hdiffer
          split at h
          · rename_i hempty
            exact .inr ⟨rfl, .inr ⟨hempty, mainpos, ctx₁, key, hmain, hgrows,
              fun sL hsL => (hkey sL hsL).1, hdiffer⟩⟩
          · exact .inl (setvalue_error (map_error_iff.mp h))

end Step

/-! ## Invariants -/

/-- The main position of the key of a node. -/
def Node.main (m : ℕ) (a : Node Stored) : ℕ := a.keyhash.toNat % m

def Table.next (tbl : Table Stored) (i : ℕ) : Option ℕ :=
  (tbl.hash i).bind Node.next

section Invariants

variable (conv : Conv) (sL : Strings) (n m : ℕ)

/-- An element of the array part holds the value of the last key for it. -/
def Element (es : Entries) (i : ℕ) (w : Stored) : Prop :=
  (w = .nil ∧ ∀ e ∈ es, e.1.hashed n = false → e.1.element ≠ i + 1) ∨
    ∃ e ∈ es, e.1.hashed n = false ∧ e.1.element = i + 1 ∧
      Stores conv sL e.2 w

/-- The node is that of the entry. -/
structure Owns (e : Key × Value) (a : Node Stored) : Prop where
  hashed : e.1.hashed n = true
  key : a.key = e.1.node sL
  keyhash : a.keyhash = e.1.keyhash
  known : e.1.Known sL
  value : Stores conv sL e.2 a.value

/-- The table during the first pass, when some of the entries were visited. -/
structure Started (visited : Entries) (tbl : Table Stored) : Prop where
  sizearray : tbl.sizearray = n
  sizehash : tbl.sizehash = m
  array : ∀ i, Element conv sL n visited i (tbl.array i)
  owned : ∀ i a, tbl.hash i = some a → ∃ e ∈ visited, Owns conv sL n e a
  home : ∀ i a, tbl.hash i = some a → i = a.main m ∧ a.next = none
  heads : ∀ e ∈ visited, e.1.hashed n = true →
    tbl.hash (e.1.keyhash.toNat % m) ≠ none
  known : ∀ e ∈ visited, e.1.hashed n = true → e.1.Known sL

/-- The table during the second pass over the entries `es`. -/
structure Linked (es visited : Entries) (tbl : Table Stored) : Prop where
  sizearray : tbl.sizearray = n
  sizehash : tbl.sizehash = m
  array : ∀ i, Element conv sL n es i (tbl.array i)
  owned : ∀ i a, tbl.hash i = some a →
    ∃ e ∈ es, Owns conv sL n e a ∧ (i = a.main m ∨ e ∈ visited)
  bound : ∀ i a, tbl.hash i = some a → i < m
  chain : ∀ i a, tbl.hash i = some a → ∃ l,
    Path tbl.next (some (a.main m)) l ∧ i ∈ l ∧
      ∀ j ∈ l, ∃ b, tbl.hash j = some b ∧ b.main m = a.main m
  alone : ∀ i a, tbl.hash i = some a → a.nocolliding = true → a.next = none
  heads : ∀ e ∈ es, e.1.hashed n = true → ∃ a,
    tbl.hash (e.1.keyhash.toNat % m) = some a ∧
      a.main m = e.1.keyhash.toNat % m
  placed : ∀ e ∈ visited, e.1.hashed n = true → ∃ i a,
    tbl.hash i = some a ∧ a.key = e.1.node sL
  known : ∀ e ∈ es, e.1.hashed n = true → e.1.Known sL

end Invariants

variable {conv : Conv} {sL : Strings} {n m : ℕ} {es visited rest : Entries}
variable {e : Key × Value} {tbl tbl' : Table Stored} {ctx ctx' : Strings}

/-! ## The array part -/

theorem forall_mem_visited
    {p : Key × Value → Prop} (h : ∀ e' ∈ visited, p e') (he : p e) :
    ∀ e' ∈ visited ++ [e], p e' :=
  List.forall_mem_append.mpr ⟨h, List.forall_mem_singleton.mpr he⟩

theorem Element.skip
    {i : ℕ} {w : Stored} (h : Element conv sL n visited i w)
    (he : e.1.hashed n = false → e.1.element ≠ i + 1) :
    Element conv sL n (visited ++ [e]) i w := by
  rcases h with ⟨hnil, hnone⟩ | ⟨e', he', hplace⟩
  · exact .inl ⟨hnil, forall_mem_visited hnone he⟩
  · exact .inr ⟨e', List.mem_append_left _ he', hplace⟩

/-- The element of a key is set. -/
theorem Element.put
    {w : Stored} (h : ∀ i, Element conv sL n visited i (tbl.array i))
    (he : e.1.hashed n = false) (hpos : 1 ≤ e.1.element)
    (hw : Stores conv sL e.2 w) (i : ℕ) :
    Element conv sL n (visited ++ [e]) i
      ((tbl.setarray e.1.element w).array i) := by
  dsimp only [Table.setarray]
  by_cases hi : i = e.1.element - 1
  · subst hi
    rw [Function.update_self]
    exact .inr ⟨e, List.mem_append_right _ List.mem_cons_self, he, by omega, hw⟩
  · rw [Function.update_of_ne hi]
    exact (h i).skip fun _ => by omega

/-! ## The first pass -/

theorem started_init :
    Started conv sL n m [] ⟨n, fun _ => .nil, m, fun _ => none⟩ where
  sizearray := rfl
  sizehash := rfl
  array _ := .inl ⟨rfl, fun _ he => (List.not_mem_nil he).elim⟩
  owned _ _ h := by cases h
  home _ _ h := by cases h
  heads _ he := (List.not_mem_nil he).elim
  known _ he := (List.not_mem_nil he).elim

theorem Owns.mem_append
    {a : Node Stored} (h : ∃ e ∈ visited, Owns conv sL n e a) :
    ∃ e' ∈ visited ++ [e], Owns conv sL n e' a := by
  obtain ⟨e', he', howns⟩ := h
  exact ⟨e', List.mem_append_left _ he', howns⟩

/-- One step of the first pass. -/
theorem started_step
    (hconv : Grows conv)
    (h : ∀ sL, ctx <+: sL → Started conv sL n m visited tbl)
    (hstep : nocolliding conv (tbl, ctx) e = .ok (tbl', ctx')) :
    ctx <+: ctx' ∧
      ∀ sL, ctx' <+: sL → Started conv sL n m (visited ++ [e]) tbl' := by
  obtain ⟨hgrows, hcases⟩ := nocolliding_cases hconv hstep
  refine ⟨hgrows, fun sL hsL => ?_⟩
  have hst := h sL (hgrows.trans hsL)
  rw [Table.slot, hst.sizearray, hst.sizehash] at hcases
  rcases hcases with
    ⟨harray, hpos, -, w, rfl, hw⟩ | ⟨hhash, hsome, rfl, hknown⟩ |
      ⟨hhash, hnone, w, key, rfl, hset⟩
  · have hno := ne_true_of_eq_false harray
    exact ⟨hst.sizearray, hst.sizehash,
      Element.put hst.array harray hpos (hw sL hsL),
      fun i a ha => Owns.mem_append (hst.owned i a ha), hst.home,
      forall_mem_visited hst.heads fun hhash => absurd hhash hno,
      forall_mem_visited hst.known fun hhash => absurd hhash hno⟩
  · have hno := ne_false_of_eq_true hhash
    exact ⟨hst.sizearray, hst.sizehash,
      fun i => (hst.array i).skip fun harray => absurd harray hno,
      fun i a ha => Owns.mem_append (hst.owned i a ha), hst.home,
      forall_mem_visited hst.heads fun _ => hsome,
      forall_mem_visited hst.known fun _ => hknown sL hsL⟩
  · obtain ⟨hkey, hknown, hw⟩ := hset sL hsL
    have hno := ne_false_of_eq_true hhash
    refine ⟨hst.sizearray, hst.sizehash,
      fun i => (hst.array i).skip fun harray => absurd harray hno,
      fun i a ha => ?_, fun i a ha => ?_, fun e' he' hhash' => ?_,
      forall_mem_visited hst.known fun _ => hknown⟩
    · dsimp only [Table.setnode] at ha
      by_cases hi : i = e.1.keyhash.toNat % m
      · rw [hi, Function.update_self] at ha
        cases ha
        exact ⟨e, List.mem_append_right _ List.mem_cons_self, hhash, hkey, rfl,
          hknown, hw⟩
      · rw [Function.update_of_ne hi] at ha
        exact Owns.mem_append (hst.owned i a ha)
    · dsimp only [Table.setnode] at ha
      by_cases hi : i = e.1.keyhash.toNat % m
      · rw [hi, Function.update_self] at ha
        cases ha
        exact ⟨hi, rfl⟩
      · rw [Function.update_of_ne hi] at ha
        exact hst.home i a ha
    · dsimp only [Table.setnode]
      by_cases hi : e'.1.keyhash.toNat % m = e.1.keyhash.toNat % m
      · rw [hi, Function.update_self]
        exact Option.some_ne_none _
      · rw [Function.update_of_ne hi]
        rcases List.mem_append.mp he' with he' | he'
        · exact hst.heads e' he' hhash'
        · rw [List.mem_singleton.mp he'] at hi
          exact absurd rfl hi

/-! ## The second pass -/

theorem Table.next_eq {i : ℕ} {a : Node Stored} (h : tbl.hash i = some a) :
    tbl.next i = a.next := by
  rw [Table.next, h]
  rfl

/-- The chains of the first pass have one node each. -/
theorem Started.linked (h : Started conv sL n m es tbl) (hm : 0 < m) :
    Linked conv sL n m es [] tbl where
  sizearray := h.sizearray
  sizehash := h.sizehash
  array := h.array
  owned i a ha := by
    obtain ⟨e, he, howns⟩ := h.owned i a ha
    exact ⟨e, he, howns, .inl (h.home i a ha).1⟩
  bound i a ha := by
    rw [(h.home i a ha).1]
    exact Nat.mod_lt _ hm
  chain i a ha := by
    obtain ⟨hi, hnext⟩ := h.home i a ha
    refine ⟨[i], ⟨congrArg some hi.symm, ?_⟩, List.mem_cons_self,
      fun j hj => ?_⟩
    · rw [Table.next_eq ha]
      exact hnext
    · rw [List.mem_singleton.mp hj]
      exact ⟨a, ha, rfl⟩
  alone i a ha _ := (h.home i a ha).2
  heads e he hhash := by
    obtain ⟨a, ha⟩ := Option.ne_none_iff_exists'.mp (h.heads e he hhash)
    exact ⟨a, ha, ((h.home _ a ha).1).symm⟩
  placed e he := (List.not_mem_nil he).elim
  known := h.known

theorem emptyslot_spec
    {i : ℕ} (h : tbl.emptyslot = some i) :
    i < tbl.sizehash ∧ tbl.hash i = none := by
  have hmem := List.mem_of_find?_eq_some h
  have hnone := List.find?_some h
  exact ⟨List.mem_range.mp hmem, Option.isNone_iff_eq_none.mp hnone⟩

section Chained

variable {i k : ℕ} {mainpos a b : Node Stored} {key : NodeKey}
variable {keyhash : BitVec 32} {w : Stored}

theorem chained_hash (j : ℕ) :
    (chained tbl i k mainpos key keyhash w).hash j =
      if j = k then some ⟨w, key, mainpos.next, keyhash, false⟩
      else if j = i then
        some { mainpos with next := some k, nocolliding := false }
      else tbl.hash j := by
  dsimp only [chained, Table.setnode]
  by_cases hk : j = k
  · rw [hk, Function.update_self, if_pos rfl]
  · rw [Function.update_of_ne hk, if_neg hk]
    by_cases hi : j = i
    · rw [hi, Function.update_self, if_pos rfl]
    · rw [Function.update_of_ne hi, if_neg hi]

/-- What is in a slot afterwards: the new node, the main position with another
pointer, or what was there before. -/
theorem chained_cases
    {j : ℕ} (h : (chained tbl i k mainpos key keyhash w).hash j = some b) :
    (j = k ∧ b = ⟨w, key, mainpos.next, keyhash, false⟩) ∨
      (j = i ∧ b = { mainpos with next := some k, nocolliding := false }) ∨
      (j ≠ i ∧ tbl.hash j = some b) := by
  rw [chained_hash] at h
  split at h
  · rename_i hk
    cases h
    exact .inl ⟨hk, rfl⟩
  · split at h
    · rename_i hi
      cases h
      exact .inr (.inl ⟨hi, rfl⟩)
    · rename_i hi
      exact .inr (.inr ⟨hi, h⟩)

/-- Every node keeps its slot, its key and its hash. -/
theorem chained_keeps
    (hmain : tbl.hash i = some mainpos) (hk : tbl.hash k = none) {j : ℕ}
    (h : tbl.hash j = some a) :
    ∃ b, (chained tbl i k mainpos key keyhash w).hash j = some b ∧
      b.key = a.key ∧ b.keyhash = a.keyhash ∧ b.value = a.value := by
  have hjk : j ≠ k := by
    rintro rfl
    rw [hk] at h
    cases h
  rw [chained_hash, if_neg hjk]
  by_cases hji : j = i
  · subst hji
    cases h.symm.trans hmain
    rw [if_pos rfl]
    exact ⟨_, rfl, rfl, rfl, rfl⟩
  · rw [if_neg hji]
    exact ⟨a, h, rfl, rfl, rfl⟩

/-- The chain of another main position is as it was. -/
theorem path_chained_of_notMem
    {p : Option ℕ} {l : List ℕ} (h : Path tbl.next p l) (hi : i ∉ l)
    (hk : k ∉ l) :
    Path (chained tbl i k mainpos key keyhash w).next p l := by
  refine h.congr fun j hj => ?_
  have hjk : j ≠ k := fun heq => hk (heq ▸ hj)
  have hji : j ≠ i := fun heq => hi (heq ▸ hj)
  rw [Table.next, chained_hash, if_neg hjk, if_neg hji, Table.next]

/-- The new node is behind the main position. -/
theorem path_chained
    {l : List ℕ} (hmain : tbl.hash i = some mainpos) (hik : i ≠ k)
    (h : Path tbl.next (some i) (i :: l)) (hk : k ∉ l) :
    Path (chained tbl i k mainpos key keyhash w).next (some i)
      (i :: k :: l) := by
  have hnodup := h.nodup
  obtain ⟨-, hrest⟩ := h
  refine ⟨rfl, ?_, ?_⟩
  · rw [Table.next, chained_hash, if_neg hik, if_pos rfl]
    rfl
  · have hnext : (chained tbl i k mainpos key keyhash w).next k =
        tbl.next i := by
      rw [Table.next, chained_hash, if_pos rfl, Table.next, hmain]
      rfl
    rw [hnext]
    exact path_chained_of_notMem hrest (List.nodup_cons.mp hnodup).1 hk

end Chained

theorem mem_visited_of_mem {e' : Key × Value} (h : e' ∈ visited) :
    e' ∈ visited ++ [e] := List.mem_append_left _ h

theorem mem_of_split (hes : es = visited ++ e :: rest) : e ∈ es := by
  rw [hes]
  exact List.mem_append_right _ List.mem_cons_self

/-- One step of the second pass. -/
theorem linked_step
    (hconv : Grows conv) (hes : es = visited ++ e :: rest)
    (h : ∀ sL, ctx <+: sL → Linked conv sL n m es visited tbl)
    (hstep : colliding conv (tbl, ctx) e = .ok (tbl', ctx')) :
    ctx <+: ctx' ∧
      ∀ sL, ctx' <+: sL → Linked conv sL n m es (visited ++ [e]) tbl' := by
  obtain ⟨hgrows, hcases⟩ := colliding_cases hconv hstep
  refine ⟨hgrows, fun sL hsL => ?_⟩
  have hl := h sL (hgrows.trans hsL)
  have hmem := mem_of_split hes
  rw [Table.slot, hl.sizearray, hl.sizehash] at hcases
  have howned : ∀ i a, tbl.hash i = some a → ∃ e' ∈ es,
      Owns conv sL n e' a ∧ (i = a.main m ∨ e' ∈ visited ++ [e]) := by
    intro i a ha
    obtain ⟨e', he', howns, hplace⟩ := hl.owned i a ha
    exact ⟨e', he', howns, hplace.imp_right mem_visited_of_mem⟩
  rcases hcases with ⟨harray, rfl⟩ | ⟨hhash, mainpos, key, hmain, hkey, hcase⟩
  · exact ⟨hl.sizearray, hl.sizehash, hl.array, howned, hl.bound, hl.chain,
      hl.alone, hl.heads, forall_mem_visited hl.placed fun hhash =>
        absurd hhash (ne_true_of_eq_false harray), hl.known⟩
  obtain ⟨hnode, hknown⟩ := hkey sL hsL
  rcases hcase with ⟨hsame, rfl⟩ | ⟨hdiffer, k, w, hempty, rfl, hw⟩
  · exact ⟨hl.sizearray, hl.sizehash, hl.array, howned, hl.bound, hl.chain,
      hl.alone, hl.heads, forall_mem_visited hl.placed fun _ =>
        ⟨_, mainpos, hmain, hsame.trans hnode⟩, hl.known⟩
  obtain ⟨hkm, hknone⟩ := emptyslot_spec hempty
  rw [hl.sizehash] at hkm
  -- the chain of the main position of the key
  obtain ⟨a, ha, hhome⟩ := hl.heads e hmem hhash
  obtain rfl : mainpos = a := Option.some.inj (hmain.symm.trans ha)
  generalize hi : e.1.keyhash.toNat % m = i at hmain ha hhome ⊢
  have hik : i ≠ k := by
    rintro rfl
    rw [hmain] at hknone
    cases hknone
  have hnotMem : ∀ {l : List ℕ} {t : ℕ},
      (∀ j ∈ l, ∃ b, tbl.hash j = some b ∧ b.main m = t) → k ∉ l := by
    intro l t hl hk
    obtain ⟨b, hb, -⟩ := hl k hk
    rw [hknone] at hb
    cases hb
  obtain ⟨l, hpath, hil, hall⟩ := hl.chain i mainpos hmain
  rw [hhome] at hpath hall
  obtain ⟨l', rfl⟩ : ∃ l', l = i :: l' := by
    cases l with
    | nil => cases hil
    | cons c l' =>
        obtain ⟨hc, -⟩ := hpath
        exact ⟨l', by rw [Option.some.inj hc]⟩
  have hkl : k ∉ i :: l' := hnotMem hall
  have hkeeps : ∀ {j : ℕ} {b : Node Stored}, tbl.hash j = some b → ∃ b',
      (chained tbl i k mainpos key e.1.keyhash w).hash j = some b' ∧
        b'.key = b.key ∧ b'.main m = b.main m := by
    intro j b hb
    obtain ⟨b', hb', hbkey, hbhash, -⟩ := @chained_keeps tbl i k mainpos b
      key e.1.keyhash w hmain hknone j hb
    exact ⟨b', hb', hbkey, by rw [Node.main, hbhash, Node.main]⟩
  have hnew : ∀ j ∈ i :: k :: l', ∃ b,
      (chained tbl i k mainpos key e.1.keyhash w).hash j = some b ∧
        b.main m = i := by
    intro j hj
    rcases List.mem_cons.mp hj with rfl | hj
    · obtain ⟨b, hb, -, hbmain⟩ := hkeeps hmain
      exact ⟨b, hb, hbmain.trans hhome⟩
    · rcases List.mem_cons.mp hj with rfl | hj
      · rw [chained_hash, if_pos rfl]
        exact ⟨_, rfl, hi⟩
      · obtain ⟨b, hb, hbmain⟩ := hall j (List.mem_cons_of_mem i hj)
        obtain ⟨b', hb', -, hbmain'⟩ := hkeeps hb
        exact ⟨b', hb', hbmain'.trans hbmain⟩
  have hpath' : Path (chained tbl i k mainpos key e.1.keyhash w).next (some i)
      (i :: k :: l') :=
    path_chained hmain hik hpath fun hk => hkl (List.mem_cons_of_mem i hk)
  refine ⟨hl.sizearray, hl.sizehash, hl.array, fun j b hb => ?_,
    fun j b hb => ?_, fun j b hb => ?_, fun j b hb halone => ?_,
    fun e' he' hhash' => ?_, forall_mem_visited (fun e' he' hhash' => ?_)
      fun _ => ?_, hl.known⟩
  · rcases chained_cases hb with ⟨-, rfl⟩ | ⟨rfl, rfl⟩ | ⟨-, hb⟩
    · exact ⟨e, hmem, ⟨hhash, hnode, rfl, hknown, hw sL hsL⟩,
        .inr (List.mem_append_right _ List.mem_cons_self)⟩
    · obtain ⟨e', he', howns, hplace⟩ := howned j mainpos hmain
      exact ⟨e', he', ⟨howns.hashed, howns.key, howns.keyhash, howns.known,
        howns.value⟩, hplace⟩
    · exact howned j b hb
  · rcases chained_cases hb with ⟨rfl, -⟩ | ⟨rfl, -⟩ | ⟨-, hb⟩
    · exact hkm
    · exact hl.bound j mainpos hmain
    · exact hl.bound j b hb
  · rcases chained_cases hb with ⟨rfl, rfl⟩ | ⟨rfl, rfl⟩ | ⟨-, hb⟩
    · rw [Node.main, hi]
      exact ⟨i :: j :: l', hpath',
        List.mem_cons_of_mem i List.mem_cons_self, hnew⟩
    · have hmain' : Node.main m { mainpos with
          next := some k, nocolliding := false } = j := hhome
      rw [hmain']
      exact ⟨j :: k :: l', hpath', List.mem_cons_self, hnew⟩
    · obtain ⟨l₂, hpath₂, hj₂, hall₂⟩ := hl.chain j b hb
      by_cases hbi : b.main m = i
      · rw [hbi] at hpath₂ ⊢
        obtain rfl := hpath₂.unique hpath
        refine ⟨i :: k :: l', hpath', ?_, hnew⟩
        rcases List.mem_cons.mp hj₂ with rfl | hj₂
        · exact List.mem_cons_self
        · exact List.mem_cons_of_mem i (List.mem_cons_of_mem k hj₂)
      · have hil₂ : i ∉ l₂ := by
          intro hmem₂
          obtain ⟨b', hb', hbmain⟩ := hall₂ i hmem₂
          cases hb'.symm.trans hmain
          exact hbi (hbmain.symm.trans hhome)
        refine ⟨l₂, path_chained_of_notMem hpath₂ hil₂
          (hnotMem hall₂), hj₂, fun j' hj' => ?_⟩
        obtain ⟨b', hb', hbmain⟩ := hall₂ j' hj'
        obtain ⟨b'', hb'', -, hbmain'⟩ := hkeeps hb'
        exact ⟨b'', hb'', hbmain'.trans hbmain⟩
  · rcases chained_cases hb with ⟨-, rfl⟩ | ⟨-, rfl⟩ | ⟨-, hb⟩
    · cases halone
    · cases halone
    · exact hl.alone j b hb halone
  · obtain ⟨b, hb, hbmain⟩ := hl.heads e' he' hhash'
    obtain ⟨b', hb', -, hbmain'⟩ := hkeeps hb
    exact ⟨b', hb', hbmain'.trans hbmain⟩
  · obtain ⟨j, b, hb, hbkey⟩ := hl.placed e' he' hhash'
    obtain ⟨b', hb', hkey', -⟩ := hkeeps hb
    exact ⟨j, b', hb', hkey'.trans hbkey⟩
  · refine ⟨k, ⟨w, key, mainpos.next, e.1.keyhash, false⟩, ?_, hnode⟩
    rw [chained_hash, if_pos rfl]

end SkynetServer.Sharedata
