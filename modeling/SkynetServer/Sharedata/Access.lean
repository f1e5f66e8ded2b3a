import SkynetServer.Sharedata.Built

/-!
# Access to shared tables

A key is looked up along the chain of its main position, and the keys are
visited from the array part on, slot by slot.  A table is read as the Lua table
that it was converted from exactly if all integer keys of it fit an `int` and
the key that is read is not the same as another one in an `int`.
-/

namespace SkynetServer.Sharedata

open Fallible Links

section Lookup

variable {conv : Conv} {sL : Strings} {n : ℕ} {es : Entries}
variable {tbl : Table Stored} {k : Key} {e : Key × Value} {a : Node Stored}

/-! ## Chains -/

/-- The node is the one that is searched. -/
def found (sL : Strings) (tbl : Table Stored) (keyhash : BitVec 32) (k : Key)
    (i : ℕ) : Bool :=
  (tbl.hash i).any fun n => keyhash = n.keyhash ∧ n.key.is sL k

/-- The loop finds the first node of the chain with the key. -/
theorem lookupLoop_eq
    {keyhash : BitVec 32} {fuel i : ℕ} {l : List ℕ}
    (hpath : Path tbl.next (some i) l)
    (hall : ∀ j ∈ l, ∃ b, tbl.hash j = some b) (hfuel : l.length ≤ fuel) :
    lookupLoop sL tbl keyhash k fuel i =
      .ok (l.find? (found sL tbl keyhash k)) := by
  induction l generalizing fuel i with
  | nil => cases hpath
  | cons j l ih =>
      obtain ⟨hij, hrest⟩ := hpath
      obtain rfl := Option.some.inj hij
      obtain ⟨b, hb⟩ := hall i List.mem_cons_self
      cases fuel with
      | zero => exact absurd hfuel (Nat.not_succ_le_zero _)
      | succ fuel =>
          rw [lookupLoop, hb, List.find?_cons]
          dsimp only
          by_cases hmatch : keyhash = b.keyhash ∧ b.key.is sL k = true
          · have hfound : found sL tbl keyhash k i = true := by
              rw [found, hb]
              exact decide_eq_true hmatch
            rw [if_pos hmatch, hfound]
          · have hfound : found sL tbl keyhash k i = false := by
              rw [found, hb]
              exact decide_eq_false hmatch
            rw [if_neg hmatch, hfound]
            rw [Table.next_eq hb] at hrest
            cases hnext : b.next with
            | none =>
                rw [hnext] at hrest
                cases l with
                | nil => rfl
                | cons c l => cases hrest.1
            | some c =>
                rw [hnext] at hrest
                exact ih hrest
                  (fun j hj => hall j (List.mem_cons_of_mem i hj))
                  (Nat.le_of_succ_le_succ hfuel)

/-- The node of an entry has the key of the entry and no other. -/
theorem Owns.is_iff
    (h : Owns conv sL n e a) (he : e.1.Fits) (hk : k.Fits) :
    k.keyhash = a.keyhash ∧ a.key.is sL k = true ↔ e.1 = k := by
  rw [h.keyhash, h.key]
  have hknown := h.known
  generalize e.1 = k' at he hknown
  cases k' with
  | integer x =>
      cases k with
      | integer y =>
          constructor
          · rintro ⟨-, hkey⟩
            rw [narrow_inj he hk (of_decide_eq_true hkey)]
          · intro heq
            cases heq
            exact ⟨rfl, decide_eq_true rfl⟩
      | string str =>
          constructor
          · rintro ⟨-, hkey⟩
            cases hkey
          · intro heq
            cases heq
      | float bits | table id | other id => exact hk.elim
  | string str =>
      have hstr : stringAt sL (sL.idxOf str + 2) = str := stringAt_idxOf hknown
      cases k with
      | integer y =>
          constructor
          · rintro ⟨-, hkey⟩
            cases hkey
          · intro heq
            cases heq
      | string str' =>
          constructor
          · rintro ⟨-, hkey⟩
            exact congrArg Key.string
              (hstr.symm.trans (of_decide_eq_true hkey))
          · intro heq
            cases heq
            exact ⟨rfl, decide_eq_true hstr⟩
      | float bits | table id | other id => exact hk.elim
  | float bits | table id | other id => exact he.elim

theorem Owns.pushkey
    (h : Owns conv sL n e a) (he : e.1.Fits) : pushkey sL a.key = e.1 := by
  rw [h.key]
  have hknown := h.known
  generalize e.1 = k at he hknown
  cases k with
  | integer x => exact congrArg Key.integer ((signExtend_narrow_iff x).mpr he)
  | string str => exact congrArg Key.string (stringAt_idxOf hknown)
  | float bits | table id | other id => exact he.elim

theorem length_le_of_nodup
    {m : ℕ} {l : List ℕ} (hnodup : l.Nodup) (hlt : ∀ i ∈ l, i < m) :
    l.length ≤ m := by
  have hsub : l.toFinset ⊆ Finset.range m := fun i hi =>
    Finset.mem_range.mpr (hlt i (List.mem_toFinset.mp hi))
  have hcard := Finset.card_le_card hsub
  rw [List.toFinset_card_of_nodup hnodup, Finset.card_range] at hcard
  exact hcard

/-- The node of a key that is not in the array part is found, if there is
one. -/
theorem Built.lookupKey
    (h : Built conv sL n es tbl) (hfits : ∀ e ∈ es, e.1.Fits)
    (hnodup : (es.map Prod.fst).Nodup) (hk : k.Fits)
    (hhash : k.hashed n = true) :
    (lookupKey sL tbl k.keyhash k = .ok none ∧ rawget es k = none) ∨
      ∃ i a v, lookupKey sL tbl k.keyhash k = .ok (some i) ∧
        tbl.hash i = some a ∧ rawget es k = some v ∧
        Owns conv sL n (k, v) a := by
  have howner : ∀ v, rawget es k = some v →
      ∃ i a, tbl.hash i = some a ∧ Owns conv sL n (k, v) a :=
    fun v hget => h.owner (k, v) (mem_of_rawget hget) hhash
  rw [Sharedata.lookupKey]
  by_cases hzero : tbl.sizehash = 0
  · rw [if_pos hzero]
    refine .inl ⟨rfl, ?_⟩
    cases hget : rawget es k with
    | none => rfl
    | some v =>
        obtain ⟨i, a, ha, -⟩ := howner v hget
        have hbound := h.bound i a ha
        omega
  rw [if_neg hzero]
  have hslot : tbl.slot k.keyhash < tbl.sizehash :=
    Nat.mod_lt _ (Nat.pos_of_ne_zero hzero)
  obtain ⟨a₀, ha₀⟩ := Option.ne_none_iff_exists'.mp (h.full _ hslot)
  -- the chain from the main position on, which may be a part of another one
  obtain ⟨l₀, hpath₀, hmem₀, hall₀⟩ := h.chain _ a₀ ha₀
  obtain ⟨l₁, l₂, rfl⟩ := List.append_of_mem hmem₀
  have hpath := hpath₀.behind
  have hall : ∀ j ∈ tbl.slot k.keyhash :: l₂, ∃ b, tbl.hash j = some b := by
    intro j hj
    obtain ⟨b, hb, -⟩ := hall₀ j (List.mem_append_right l₁ hj)
    exact ⟨b, hb⟩
  have hchain : ∀ v, rawget es k = some v → ∃ i a,
      i ∈ tbl.slot k.keyhash :: l₂ ∧ tbl.hash i = some a ∧
        Owns conv sL n (k, v) a := by
    intro v hget
    obtain ⟨i, a, ha, howns⟩ := howner v hget
    obtain ⟨l, hl, hil, -⟩ := h.chain i a ha
    have hmain : a.main tbl.sizehash = tbl.slot k.keyhash := by
      rw [Node.main, howns.keyhash]
      rfl
    rw [hmain] at hl
    exact ⟨i, a, hl.unique hpath ▸ hil, ha, howns⟩
  rw [ha₀]
  dsimp only
  split
  · rename_i halone
    refine .inl ⟨rfl, ?_⟩
    cases hget : rawget es k with
    | none => rfl
    | some v =>
        obtain ⟨i, a, hi, ha, howns⟩ := hchain v hget
        have hend := hpath.2
        rw [Table.next_eq ha₀, h.alone _ a₀ ha₀ halone.2] at hend
        cases l₂ with
        | nil =>
            rw [List.mem_singleton.mp hi] at ha
            cases ha₀.symm.trans ha
            exact absurd howns.keyhash.symm halone.1
        | cons c l₂ => cases hend.1
  · rw [lookupLoop_eq hpath hall (length_le_of_nodup hpath.nodup fun j hj => by
      obtain ⟨b, hb⟩ := hall j hj
      exact h.bound j b hb)]
    cases hfind : List.find? (found sL tbl k.keyhash k)
      (tbl.slot k.keyhash :: l₂) with
    | none =>
        refine .inl ⟨rfl, ?_⟩
        cases hget : rawget es k with
        | none => rfl
        | some v =>
            obtain ⟨i, a, hi, ha, howns⟩ := hchain v hget
            refine absurd ?_ (List.find?_eq_none.mp hfind i hi)
            rw [found, ha]
            exact decide_eq_true ((howns.is_iff hk hk).mpr rfl)
    | some i =>
        have hfound := List.find?_some hfind
        obtain ⟨a, ha⟩ := hall i (List.mem_of_find?_eq_some hfind)
        rw [found, ha] at hfound
        obtain ⟨e, he, howns⟩ := h.owned i a ha
        have hkey := (howns.is_iff (hfits e he) hk).mp
          (of_decide_eq_true hfound)
        obtain ⟨k', v⟩ := e
        obtain rfl : k' = k := hkey
        exact .inr ⟨i, a, v, rfl, ha, rawget_of_mem hnodup he, howns⟩

/-! ## Values -/

end Lookup

/-! ## Visits -/

/-- The keys that are visited from a result on, until there is none. -/
def Visits (next : Option Key → Except Failure (Option Key)) :
    Except Failure (Option Key) → List Key → Prop
  | r, [] => r = .ok none
  | r, k :: ks => r = .ok (some k) ∧ Visits next (next (some k)) ks

section Visits

variable {conv : Conv} {sL : Strings} {n : ℕ} {es : Entries}
variable {tbl : Table Stored}

variable {k : Key}

/-- Behind the key of a node comes the next slot. -/
theorem Built.nextnode
    (h : Built conv sL n es tbl) (hfits : ∀ e ∈ es, e.1.Fits)
    (hnodup : (es.map Prod.fst).Nodup) {i : ℕ} {a : Node Stored}
    (ha : tbl.hash i = some a) :
    lnextkey sL tbl (some (pushkey sL a.key)) = slotkey sL tbl (i + 1) := by
  obtain ⟨e, he, howns⟩ := h.owned i a ha
  rw [howns.pushkey (hfits e he)]
  have hnext : Sharedata.nextnode sL tbl e.1 = slotkey sL tbl (i + 1) := by
    rw [Sharedata.nextnode]
    rcases h.lookupKey hfits hnodup (hfits e he) howns.hashed with
      ⟨-, hget⟩ | ⟨j, b, v, hsome, hb, -, howns'⟩
    · exact absurd rfl (rawget_eq_none_iff.mp hget e he)
    · rw [hsome]
      have hij : j = i := h.distinct j i b a hb ha
        (howns'.key.trans howns.key.symm)
      rw [hij]
      rfl
  have hhash := howns.hashed
  have hek := hfits e he
  generalize e.1 = k at hnext hhash hek
  cases k with
  | integer x =>
      rw [lnextkey, h.sizearray, if_neg (of_decide_eq_true hhash)]
      exact hnext
  | string str => exact hnext
  | float bits | table id | other id => exact hek.elim

theorem pushkey_fits (key : NodeKey) : (pushkey sL key).Fits := by
  cases key with
  | integer x =>
      have hwide := BitVec.toInt_signExtend_of_le (x := x)
        (show 32 ≤ 64 by decide)
      have hlt := x.toInt_lt
      have hle := x.le_toInt
      rw [pushkey, Key.Fits, InRange, hwide]
      omega
  | string index => exact trivial

theorem slotkey_fits
    {i : ℕ} (h : slotkey sL tbl i = .ok (some k)) : k.Fits := by
  rw [slotkey] at h
  split at h
  · split at h
    · cases h
    · cases h
      exact pushkey_fits _
  · cases h

theorem nextelement_fits
    (hn : tbl.sizearray < 0x80000000) {i : ℕ}
    (h : nextelement sL tbl i = .ok (some k)) : k.Fits := by
  rw [nextelement] at h
  split at h
  · rename_i j hfind
    cases h
    have hj := List.mem_range'_1.mp (List.mem_of_find?_eq_some hfind)
    exact inRange_elementKey (by omega)
  · exact slotkey_fits h

theorem nextnode_fits
    {k k' : Key} (h : nextnode sL tbl k = .ok (some k')) : k'.Fits := by
  rw [nextnode] at h
  obtain ⟨r, -, h⟩ := bind_ok_iff.mp h
  cases r with
  | none => cases h
  | some i => exact slotkey_fits h

/-- Only keys that fit are visited. -/
theorem lnextkey_fits
    (hn : tbl.sizearray < 0x80000000) {o : Option Key}
    (h : lnextkey sL tbl o = .ok (some k)) : k.Fits := by
  cases o with
  | none => exact nextelement_fits hn h
  | some k' =>
      cases k' with
      | integer x =>
          rw [lnextkey] at h
          split at h
          · exact nextelement_fits hn h
          · exact nextnode_fits h
      | string str => exact nextnode_fits h
      | float bits | table id | other id => cases h

theorem Visits.fits
    (hn : tbl.sizearray < 0x80000000) {o : Option Key} {ks : List Key}
    (h : Visits (lnextkey sL tbl) (lnextkey sL tbl o) ks) :
    ∀ k ∈ ks, k.Fits := by
  induction ks generalizing o with
  | nil => exact fun k hk => (List.not_mem_nil hk).elim
  | cons k ks ih =>
      obtain ⟨hk, hrest⟩ := h
      intro k' hk'
      rcases List.mem_cons.mp hk' with rfl | hk'
      · exact lnextkey_fits hn hk
      · exact ih hrest k' hk'

end Visits

/-- The key can be read: it is a string, or an integer that is not narrowed to
another key. -/
def Key.Readable (es : Entries) : Key → Prop
  | .integer x => InRange x ∨
    rawget es (.integer ((narrow x).signExtend 64)) = none
  | .string _ => True
  | _ => False

end SkynetServer.Sharedata
