import Mathlib.Data.Finset.Card
import Mathlib.Data.List.AList
import Mathlib.Tactic.Ring
import SkynetServer.Gate.Hashid
import SkynetServer.Support.Links
import SkynetServer.Support.Transition

/-!
# The table of `hashid.h` is a finite map

An id that is present has a node of its own, and the chain of a hash leads
through the nodes of the ids with that hash.  The node of an id is the slot that
`hashid_insert` has returned for it.

`hashid_insert` tries the nodes from the one at `id % cap` on, and adds the
number of the trial to the id before it takes the remainder.  For ids near the
end of their range the sum may overflow before a free node is found.
-/

namespace SkynetServer.Gate

open Function Links Transition

/-- The slots of the ids that are present. -/
abbrev Slots := AList fun _ : ℤ => ℕ

/-- The slot of an id, or -1. -/
def Slots.slot (m : Slots) (id : ℤ) : ℤ :=
  match m.lookup id with
  | none => -1
  | some c => c

namespace Hashid

/-- The pointer of each node. -/
def next (hi : Hashid) (c : ℕ) : Option ℕ := (hi.id c).next

/-- The nodes of `l` are those of the ids with the hash `h`, in the order of
their chain. -/
structure Chain (hi : Hashid) (h : ℕ) (l : List ℕ) : Prop where
  path : Path hi.next (hi.hash h) l
  mem : ∀ c, c ∈ l ↔ (hi.id c).id ≠ -1 ∧ hi.index (hi.id c).id = h

/-- The table stores the slots of the ids. -/
structure Stores (hi : Hashid) (m : Slots) : Prop where
  slot : ∀ id c, m.lookup id = some c →
    0 ≤ id ∧ c < hi.cap ∧ (hi.id c).id = id
  node : ∀ c, (hi.id c).id ≠ -1 → m.lookup (hi.id c).id = some c
  free : ∀ c, (hi.id c).id = -1 → hi.next c = none
  count : hi.count = m.keys.length
  chain : ∀ h, ∃ l, hi.Chain h l

theorem index_congr
    {hi hi' : Hashid} (h : hi'.hashmod = hi.hashmod) (id : ℤ) :
    hi'.index id = hi.index id := by
  rw [index, index, h]

/-- The capacity of the hash is a power of two that is not less than the
number of nodes, if there is one that fits an `int`. -/
theorem hashcap_spec
    (max : ℕ) {n k : ℕ} (hk : k ≤ 30) (hn : 31 ≤ n + k) :
    (max ≤ 2 ^ 30 → ∃ j, hashcap max n (2 ^ k) = some (2 ^ j) ∧
        max ≤ 2 ^ j) ∧
      (2 ^ 30 < max → hashcap max n (2 ^ k) = none) := by
  induction n generalizing k with
  | zero => omega
  | succ n ih =>
      have hle : 2 ^ k ≤ 2 ^ 30 := Nat.pow_le_pow_right Nat.two_pos hk
      rw [hashcap]
      rcases Nat.lt_or_ge (2 ^ k) max with hlt | hge
      · rw [if_pos hlt]
        rcases Nat.lt_or_ge k 30 with hmore | hlast
        · have hpow : 2 ^ k * 2 = 2 ^ (k + 1) := (pow_succ 2 k).symm
          have hfits : 2 ^ (k + 1) ≤ 2 ^ 30 :=
            Nat.pow_le_pow_right Nat.two_pos hmore
          rw [hpow, if_pos (by omega)]
          exact ih hmore (by omega)
        · obtain rfl : k = 30 := by omega
          rw [if_neg (by decide)]
          exact ⟨fun hmax => by omega, fun _ => rfl⟩
      · rw [if_neg (Nat.not_lt.mpr hge)]
        exact ⟨fun _ => ⟨k, rfl, hge⟩, fun hmax => by omega⟩

theorem init_isSome (max : ℕ) : (init max).isSome ↔ max ≤ 2 ^ 30 := by
  have hspec := hashcap_spec max (n := 28) (k := 4) (by decide) (by decide)
  rw [init, Option.isSome_map]
  rcases Nat.lt_or_ge (2 ^ 30) max with hlt | hge
  · rw [show hashcap max 28 16 = none from hspec.2 hlt]
    exact iff_of_false Bool.false_ne_true (Nat.not_le.mpr hlt)
  · obtain ⟨j, hj, -⟩ := hspec.1 hge
    rw [show hashcap max 28 16 = some (2 ^ j) from hj]
    exact iff_of_true rfl hge

/-! ## Changes of a node -/

section Nodes

variable {hi : Hashid} {m : Slots} {c : ℕ}

theorem next_eq_update
    {hi' : Hashid} (n : HashidNode) (h : hi'.id = update hi.id c n) :
    hi'.next = update hi.next c n.next := by
  funext d
  rw [next, h]
  by_cases hd : d = c
  · rw [hd, update_self, update_self]
  · rw [update_of_ne hd, update_of_ne hd]
    rfl

/-- A chain is not longer than the array. -/
theorem Stores.length_le
    {h : ℕ} {l : List ℕ} (hs : hi.Stores m) (hl : hi.Chain h l) :
    l.length ≤ hi.cap := by
  have hsub : l ⊆ List.range hi.cap := by
    intro c hc
    obtain ⟨hid, -⟩ := (hl.mem c).mp hc
    exact List.mem_range.mpr (hs.slot _ c (hs.node c hid)).2.1
  have hle := (hl.path.nodup.subperm hsub).length_le
  rwa [List.length_range] at hle

/-- The slot of an id is in the chain of its hash. -/
theorem Stores.mem_chain
    {l : List ℕ} {id : ℤ} (hs : hi.Stores m) (hl : hi.Chain (hi.index id) l)
    (hc : m.lookup id = some c) : c ∈ l := by
  obtain ⟨hnonneg, -, hid⟩ := hs.slot id c hc
  refine (hl.mem c).mpr ⟨?_, ?_⟩
  · omega
  · rw [hid]

/-- The node of an id in its chain is its slot. -/
theorem Stores.lookup_of_mem
    {l : List ℕ} {h : ℕ} {id : ℤ} (hs : hi.Stores m) (hl : hi.Chain h l)
    (hc : c ∈ l) (hid : (hi.id c).id = id) : m.lookup id = some c := by
  have hnode := hs.node c ((hl.mem c).mp hc).1
  rwa [hid] at hnode

end Nodes

/-! ## `hashid_lookup` -/

section Lookup

variable {hi : Hashid} {m : Slots} {id : ℤ}

theorem lookupLoop_found
    {n c : ℕ} {p : Option ℕ} {l : List ℕ} (hpath : Path hi.next p l)
    (hn : l.length ≤ n) (hc : c ∈ l) (hid : (hi.id c).id = id) :
    ∃ d ∈ l, (hi.id d).id = id ∧ hi.lookupLoop id n p = some d := by
  induction l generalizing n p with
  | nil => cases hc
  | cons d l ih =>
      obtain ⟨rfl, hnext⟩ := hpath
      cases n with
      | zero => cases hn
      | succ n =>
          rw [lookupLoop]
          by_cases hd : (hi.id d).id = id
          · exact ⟨d, List.mem_cons_self, hd, if_pos hd⟩
          · rw [if_neg hd]
            have hmem : c ∈ l := by
              rcases List.mem_cons.mp hc with rfl | hmem
              · exact absurd hid hd
              · exact hmem
            obtain ⟨e, he, hide, hloop⟩ :=
              ih hnext (Nat.le_of_succ_le_succ hn) hmem
            exact ⟨e, List.mem_cons_of_mem d he, hide, hloop⟩

theorem lookupLoop_absent
    {n : ℕ} {p : Option ℕ} {l : List ℕ} (hpath : Path hi.next p l)
    (hn : l.length ≤ n) (hid : ∀ c ∈ l, (hi.id c).id ≠ id) :
    hi.lookupLoop id n p = some (-1) := by
  induction l generalizing n p with
  | nil =>
      rw [show p = none from hpath]
      cases n <;> rfl
  | cons c l ih =>
      obtain ⟨rfl, hnext⟩ := hpath
      cases n with
      | zero => cases hn
      | succ n =>
          rw [lookupLoop, if_neg (hid c List.mem_cons_self)]
          exact ih hnext (Nat.le_of_succ_le_succ hn)
            fun d hd => hid d (List.mem_cons_of_mem c hd)

/-- `hashid_lookup` returns the slot of the id. -/
theorem Stores.lookup (hs : hi.Stores m) (id : ℤ) :
    hi.lookup id = some (m.slot id) := by
  obtain ⟨l, hl⟩ := hs.chain (hi.index id)
  have hlen := hs.length_le hl
  rw [Hashid.lookup, Slots.slot]
  cases hm : m.lookup id with
  | none =>
      refine lookupLoop_absent hl.path hlen fun c hc hid => ?_
      rw [hs.lookup_of_mem hl hc hid] at hm
      cases hm
  | some c =>
      obtain ⟨d, hd, hid, hloop⟩ := lookupLoop_found hl.path hlen
        (hs.mem_chain hl hm) (hs.slot id c hm).2.2
      rw [hs.lookup_of_mem hl hd hid] at hm
      cases hm
      exact hloop

end Lookup

/-! ## `hashid_remove` -/

section Remove

variable {hi hi' : Hashid} {m : Slots} {id : ℤ} {c : ℕ} {l l' : List ℕ}

/-- What unlinking and clearing a node changes. -/
structure Clears (hi hi' : Hashid) (l : List ℕ) (h c : ℕ) : Prop where
  hashmod : hi'.hashmod = hi.hashmod
  cap : hi'.cap = hi.cap
  count : hi'.count = hi.count - 1
  id : ∀ d, (hi'.id d).id = if d = c then -1 else (hi.id d).id
  next : hi'.next c = none
  next_of : ∀ d, d ∉ l → hi'.next d = hi.next d
  hash : ∀ h', h' ≠ h → hi'.hash h' = hi.hash h'

/-- The node of an id leaves its chain. -/
theorem Stores.cleared
    (hs : hi.Stores m) (hc : m.lookup id = some c)
    (hl : hi.Chain (hi.index id) l) (hclears : Clears hi hi' l (hi.index id) c)
    (hpath : Path hi'.next (hi'.hash (hi.index id)) l')
    (hmem : ∀ d, d ∈ l' ↔ d ∈ l ∧ d ≠ c) : hi'.Stores (m.erase id) := by
  obtain ⟨-, -, hidc⟩ := hs.slot id c hc
  have hcl : c ∈ l := hs.mem_chain hl hc
  have hindex : ∀ i, hi'.index i = hi.index i :=
    index_congr hclears.hashmod
  have hid : ∀ d, d ≠ c → (hi'.id d).id = (hi.id d).id := fun d hd => by
    rw [hclears.id, if_neg hd]
  have hgone : (hi'.id c).id = -1 := by rw [hclears.id, if_pos rfl]
  refine ⟨fun i d hd => ?_, fun d hd => ?_, fun d hd => ?_, ?_, fun h => ?_⟩
  · have hne : i ≠ id := by
      rintro rfl
      rw [AList.lookup_erase] at hd
      cases hd
    rw [AList.lookup_erase_ne hne] at hd
    obtain ⟨hnonneg, hlt, hidd⟩ := hs.slot i d hd
    have hdc : d ≠ c := by
      rintro rfl
      exact hne (hidd.symm.trans hidc)
    exact ⟨hnonneg, hclears.cap ▸ hlt, (hid d hdc).trans hidd⟩
  · have hdc : d ≠ c := by
      rintro rfl
      exact hd hgone
    rw [hid d hdc] at hd ⊢
    have hd' := hs.node d hd
    rw [AList.lookup_erase_ne]
    · exact hd'
    · intro heq
      rw [heq, hc] at hd'
      exact hdc (Option.some.inj hd').symm
  · by_cases hdc : d = c
    · rw [hdc]
      exact hclears.next
    · rw [hid d hdc] at hd
      rw [hclears.next_of d fun hdl => ((hl.mem d).mp hdl).1 hd]
      exact hs.free d hd
  · have hmem : id ∈ m.keys := AList.mem_keys.mp
      (AList.lookup_isSome.mp (by rw [hc]; rfl))
    have hlen := List.length_erase_of_mem hmem
    have hpos := List.length_pos_of_mem hmem
    rw [hclears.count, hs.count, AList.keys_erase, hlen]
    omega
  · by_cases hh : h = hi.index id
    · subst hh
      refine ⟨l', hpath, fun d => ?_⟩
      rw [hmem, hl.mem]
      by_cases hdc : d = c
      · rw [hdc, hgone]
        exact iff_of_false (fun h => h.2 rfl) fun h => h.1 rfl
      · rw [hid d hdc, hindex]
        exact and_iff_left hdc
    · obtain ⟨k, hk⟩ := hs.chain h
      have hapart : ∀ d ∈ k, d ∉ l := by
        intro d hdk hdl
        exact hh (((hk.mem d).mp hdk).2.symm.trans ((hl.mem d).mp hdl).2)
      refine ⟨k, ?_, fun d => ?_⟩
      · rw [hclears.hash h hh]
        exact hk.path.congr fun d hd => hclears.next_of d (hapart d hd)
      · rw [hk.mem]
        by_cases hdc : d = c
        · rw [hdc, hgone, hidc]
          exact iff_of_false (fun hand => hh hand.2.symm) fun hand => hand.1 rfl
        · rw [hid d hdc, hindex]

/-- The loop of `hashid_remove` behind a node that is not the one of the id. -/
theorem removeLoop_absent
    {n : ℕ} (hpath : Path hi.next (some c) (c :: l)) (hn : l.length < n)
    (hid : ∀ d ∈ l, (hi.id d).id ≠ id) :
    hi.removeLoop id n c = some (-1, hi) := by
  induction l generalizing n c with
  | nil =>
      cases n with
      | zero => cases hn
      | succ n =>
          have hnext : (hi.id c).next = none := hpath.2
          rw [removeLoop, hnext]
  | cons d l ih =>
      cases n with
      | zero => cases hn
      | succ n =>
          have hnext : (hi.id c).next = some d := hpath.2.1
          rw [removeLoop, hnext]
          dsimp only
          rw [if_neg (hid d List.mem_cons_self)]
          exact ih ⟨rfl, hpath.2.2⟩ (Nat.lt_of_succ_lt_succ hn)
            fun e he => hid e (List.mem_cons_of_mem d he)

theorem removeLoop_found
    {n t : ℕ} (hpath : Path hi.next (some c) (c :: l)) (hn : l.length < n)
    (ht : t ∈ l) (hid : (hi.id t).id = id) :
    ∃ l₁ d e l₂, c :: l = l₁ ++ d :: e :: l₂ ∧ (hi.id e).id = id ∧
      hi.removeLoop id n c = some ((hi.setNext d (hi.next e)).clear e) := by
  induction l generalizing n c with
  | nil => cases ht
  | cons e l ih =>
      cases n with
      | zero => cases hn
      | succ n =>
          have hnext : (hi.id c).next = some e := hpath.2.1
          rw [removeLoop, hnext]
          dsimp only
          by_cases he : (hi.id e).id = id
          · rw [if_pos he]
            exact ⟨[], c, e, l, rfl, he, rfl⟩
          · rw [if_neg he]
            have hmem : t ∈ l := by
              rcases List.mem_cons.mp ht with rfl | hmem
              · exact absurd hid he
              · exact hmem
            obtain ⟨l₁, d, f, l₂, hsplit, hf, hloop⟩ :=
              ih ⟨rfl, hpath.2.2⟩ (Nat.lt_of_succ_lt_succ hn) hmem
            refine ⟨c :: l₁, d, f, l₂, ?_, hf, hloop⟩
            rw [hsplit]
            rfl

/-- The first node of a chain is taken out. -/
theorem clears_head
    (hl : hi.Chain (hi.index id) (c :: l)) :
    Clears hi (clear { hi with
      hash := update hi.hash (hi.index id) (hi.id c).next } c).2
        (c :: l) (hi.index id) c ∧
      Path (clear { hi with
        hash := update hi.hash (hi.index id) (hi.id c).next } c).2.next
          (update hi.hash (hi.index id) (hi.id c).next (hi.index id)) l := by
  have hnext : (clear { hi with
      hash := update hi.hash (hi.index id) (hi.id c).next } c).2.next =
        update hi.next c none := next_eq_update {} rfl
  have hnot := (List.nodup_cons.mp hl.path.nodup).1
  refine ⟨⟨rfl, rfl, rfl, fun d => ?_, ?_, fun d hd => ?_, fun h hh => ?_⟩, ?_⟩
  · change (update hi.id c {} d).id = _
    by_cases hd : d = c
    · rw [hd, update_self, if_pos rfl]
    · rw [update_of_ne hd, if_neg hd]
  · rw [hnext, update_self]
  · have hdc : d ≠ c := fun he => hd (he ▸ List.mem_cons_self)
    rw [hnext, update_of_ne hdc]
  · exact update_of_ne hh _ _
  · rw [hnext, update_self]
    exact hl.path.2.update hnot

theorem perm_behind (l₁ l₂ : List ℕ) (d c : ℕ) :
    (l₁ ++ d :: c :: l₂).Perm (c :: (l₁ ++ d :: l₂)) :=
  ((List.Perm.swap c d l₂).append_left l₁).trans List.perm_middle

/-- A node behind another one is taken out. -/
theorem clears_behind
    {l₁ l₂ : List ℕ} {d : ℕ}
    (hl : hi.Chain (hi.index id) (l₁ ++ d :: c :: l₂)) :
    Clears hi ((hi.setNext d (hi.next c)).clear c).2
        (l₁ ++ d :: c :: l₂) (hi.index id) c ∧
      Path ((hi.setNext d (hi.next c)).clear c).2.next
        (hi.hash (hi.index id)) (l₁ ++ d :: l₂) := by
  have hset : (hi.setNext d (hi.next c)).next =
      update hi.next d (hi.next c) :=
    next_eq_update { hi.id d with next := hi.next c } rfl
  have hnext : ((hi.setNext d (hi.next c)).clear c).2.next =
      update (update hi.next d (hi.next c)) c none := by
    rw [← hset]
    exact next_eq_update {} rfl
  have hnodup : (d :: c :: l₂).Nodup :=
    (List.nodup_append.mp hl.path.nodup).2.1
  have hdc : d ≠ c := by
    rintro rfl
    exact (List.nodup_cons.mp hnodup).1 List.mem_cons_self
  have hnot : c ∉ l₁ ++ d :: l₂ := by
    intro hmem
    have hperm := perm_behind l₁ l₂ d c
    exact (List.nodup_cons.mp (hperm.nodup_iff.mp hl.path.nodup)).1 hmem
  refine ⟨⟨rfl, rfl, rfl, fun e => ?_, ?_, fun e he => ?_, fun h _ => rfl⟩, ?_⟩
  · change (update (update hi.id d { hi.id d with next := hi.next c }) c {}
      e).id = _
    by_cases he : e = c
    · rw [he, update_self, if_pos rfl]
    · rw [update_of_ne he, if_neg he]
      by_cases hed : e = d
      · rw [hed, update_self]
      · rw [update_of_ne hed]
  · rw [hnext, update_self]
  · have hec : e ≠ c := by
      rintro rfl
      exact he (List.mem_append_right l₁
        (List.mem_cons_of_mem d List.mem_cons_self))
    have hed : e ≠ d := by
      rintro rfl
      exact he (List.mem_append_right l₁ List.mem_cons_self)
    rw [hnext, update_of_ne hec, update_of_ne hed]
  · rw [hnext]
    exact (hl.path.splice).update hnot

theorem erase_of_lookup_eq_none (h : m.lookup id = none) : m.erase id = m := by
  apply AList.ext
  exact List.kerase_of_notMem_keys (AList.lookup_eq_none.mp h)

/-- `hashid_remove` returns the slot of the id and frees it. -/
theorem Stores.remove (hs : hi.Stores m) (id : ℤ) :
    ∃ hi', hi.remove id = some (m.slot id, hi') ∧ hi'.cap = hi.cap ∧
      hi'.Stores (m.erase id) := by
  obtain ⟨l, hl⟩ := hs.chain (hi.index id)
  have hlen := hs.length_le hl
  rw [Hashid.remove, Slots.slot]
  cases hm : m.lookup id with
  | none =>
      rw [erase_of_lookup_eq_none hm]
      have hid : ∀ c ∈ l, (hi.id c).id ≠ id := by
        intro c hc hid
        rw [hs.lookup_of_mem hl hc hid] at hm
        cases hm
      refine ⟨hi, ?_, rfl, hs⟩
      cases l with
      | nil => rw [show hi.hash (hi.index id) = none from hl.path]
      | cons c l =>
          rw [hl.path.1]
          dsimp only
          rw [if_neg (hid c List.mem_cons_self)]
          exact removeLoop_absent ⟨rfl, hl.path.2⟩ hlen
            fun d hd => hid d (List.mem_cons_of_mem c hd)
  | some c =>
      have hc : c ∈ l := hs.mem_chain hl hm
      have hidc := (hs.slot id c hm).2.2
      have honly : ∀ d ∈ l, (hi.id d).id = id → d = c := by
        intro d hd hid
        rw [hs.lookup_of_mem hl hd hid] at hm
        exact Option.some.inj hm
      cases l with
      | nil => cases hc
      | cons d l =>
          rw [hl.path.1]
          dsimp only
          by_cases hd : (hi.id d).id = id
          · obtain rfl := honly d List.mem_cons_self hd
            rw [if_pos hd]
            obtain ⟨hclears, hpath⟩ := clears_head hl
            refine ⟨_, rfl, rfl, hs.cleared hm hl hclears hpath fun e => ?_⟩
            have hnot := (List.nodup_cons.mp hl.path.nodup).1
            constructor
            · intro he
              exact ⟨List.mem_cons_of_mem d he, fun heq => hnot (heq ▸ he)⟩
            · rintro ⟨he, hne⟩
              exact (List.mem_cons.mp he).resolve_left hne
          · rw [if_neg hd]
            have hmem : c ∈ l := by
              rcases List.mem_cons.mp hc with rfl | hmem
              · exact absurd hidc hd
              · exact hmem
            obtain ⟨l₁, e, f, l₂, hsplit, hf, hloop⟩ :=
              removeLoop_found ⟨rfl, hl.path.2⟩ hlen hmem hidc
            have hfmem : f ∈ d :: l := by
              rw [hsplit]
              exact List.mem_append_right l₁
                (List.mem_cons_of_mem e List.mem_cons_self)
            obtain rfl := honly f hfmem hf
            rw [hsplit] at hl
            obtain ⟨hclears, hpath⟩ := clears_behind hl
            refine ⟨_, hloop, rfl, hs.cleared hm hl hclears hpath fun g => ?_⟩
            have hperm := perm_behind l₁ l₂ e f
            have hnot := (List.nodup_cons.mp
              (hperm.nodup_iff.mp hl.path.nodup)).1
            rw [hperm.mem_iff, List.mem_cons]
            constructor
            · intro hg
              exact ⟨.inr hg, fun heq => hnot (heq ▸ hg)⟩
            · rintro ⟨hg, hne⟩
              exact hg.resolve_left hne

end Remove

/-! ## `hashid_insert` -/

section Insert

variable {hi hi' : Hashid} {m : Slots} {c : ℕ}

/-- The node of a trial of `hashid_insert`. -/
def trial (hi : Hashid) (id i : ℕ) : ℕ := (i + id) % hi.cap

/-- No trial of `hashid_insert` overflows: as long as only used nodes were
tried, the sum of the number of the trial and the id is an `int`. -/
def Fits (hi : Hashid) (id : ℕ) : Prop :=
  ∀ i, i < hi.cap → (∀ j, j < i → (hi.id (hi.trial id j)).id ≠ -1) →
    i + id < 0x80000000

/-- The ids that are present have as many nodes. -/
theorem Stores.keys_le (hs : hi.Stores m) : m.keys.length ≤ hi.cap := by
  have hnodup : (m.keys.map fun i => (m.lookup i).getD 0).Nodup := by
    refine List.Nodup.map_on (fun i hi' j hj heq => ?_) m.keys_nodup
    obtain ⟨c, hc⟩ := Option.isSome_iff_exists.mp
      (AList.lookup_isSome.mpr (AList.mem_keys.mpr hi'))
    obtain ⟨d, hd⟩ := Option.isSome_iff_exists.mp
      (AList.lookup_isSome.mpr (AList.mem_keys.mpr hj))
    rw [hc, hd] at heq
    have hcd : c = d := heq
    rw [← (hs.slot i c hc).2.2, ← (hs.slot j d hd).2.2, hcd]
  have hsub : (m.keys.map fun i => (m.lookup i).getD 0) ⊆
      List.range hi.cap := by
    intro d hd
    obtain ⟨i, hi', rfl⟩ := List.mem_map.mp hd
    obtain ⟨c, hc⟩ := Option.isSome_iff_exists.mp
      (AList.lookup_isSome.mpr (AList.mem_keys.mpr hi'))
    rw [hc]
    exact List.mem_range.mpr (hs.slot i c hc).2.1
  have hle := (hnodup.subperm hsub).length_le
  rwa [List.length_map, List.length_range] at hle

/-- A table that is not full has a free node. -/
theorem Stores.exists_free (hs : hi.Stores m) (h : hi.full = false) :
    ∃ c < hi.cap, (hi.id c).id = -1 := by
  by_contra hall
  have hused : ∀ c < hi.cap, (hi.id c).id ≠ -1 := fun c hc hid =>
    hall ⟨c, hc, hid⟩
  have hnodup : ((List.range hi.cap).map fun c => (hi.id c).id).Nodup := by
    refine List.Nodup.map_on (fun c hc d hd heq => ?_) List.nodup_range
    have hc' := hs.node c (hused c (List.mem_range.mp hc))
    have hd' := hs.node d (hused d (List.mem_range.mp hd))
    rw [heq, hd'] at hc'
    exact (Option.some.inj hc').symm
  have hsub : ((List.range hi.cap).map fun c => (hi.id c).id) ⊆ m.keys := by
    intro i hi'
    obtain ⟨c, hc, rfl⟩ := List.mem_map.mp hi'
    have hc' := hs.node c (hused c (List.mem_range.mp hc))
    exact AList.mem_keys.mp (AList.lookup_isSome.mp (by rw [hc']; rfl))
  have hle := (hnodup.subperm hsub).length_le
  rw [List.length_map, List.length_range] at hle
  have hkeys := hs.keys_le
  have hcount := hs.count
  rw [full] at h
  have hne := of_decide_eq_false h
  omega

/-- Every node is tried. -/
theorem exists_trial {hi : Hashid} (id : ℕ) (hc : c < hi.cap) :
    ∃ i < hi.cap, hi.trial id i = c := by
  have hpos : 0 < hi.cap := Nat.zero_lt_of_lt hc
  have hlt := Nat.mod_lt id hpos
  refine ⟨(c + (hi.cap - id % hi.cap)) % hi.cap, Nat.mod_lt _ hpos, ?_⟩
  calc
    hi.trial id ((c + (hi.cap - id % hi.cap)) % hi.cap) =
        (c + (hi.cap - id % hi.cap) + id) % hi.cap := Nat.mod_add_mod _ _ _
    _ = (c + hi.cap * (id / hi.cap + 1)) % hi.cap := by
      have hdiv := Nat.div_add_mod id hi.cap
      congr 1
      rw [Nat.mul_add, Nat.mul_one]
      omega
    _ = c := by rw [Nat.add_mul_mod_self_left, Nat.mod_eq_of_lt hc]

/-- A round of the loop of `hashid_insert`. -/
theorem probe_succ (hi : Hashid) (id n i : ℕ) :
    hi.probe id (n + 1) i =
      if i + id < 0x80000000 then
        if (hi.id (hi.trial id i)).id = -1 then some (some (hi.trial id i))
        else hi.probe id n (i + 1)
      else none := by
  rw [probe]
  by_cases hfits : i + id < 0x80000000
  · have hindex : ((i : ℤ) + (id : ℤ)).tmod hi.cap = (hi.trial id i : ℕ) := by
      rw [← Int.natCast_add, Int.tmod_eq_emod_of_nonneg (Int.natCast_nonneg _),
        trial]
      rfl
    rw [if_neg (by omega), if_pos hfits]
    dsimp only
    rw [hindex, if_neg (Int.not_lt.mpr (Int.natCast_nonneg _)),
      Int.toNat_natCast]
  · rw [if_neg hfits, if_pos (by omega)]

/-- The loop finds a free node. -/
theorem probe_found
    {id n i : ℕ} (hn : n + i = hi.cap) (hfits : hi.Fits id)
    (hused : ∀ j, j < i → (hi.id (hi.trial id j)).id ≠ -1)
    (hfree : ∃ j < hi.cap, (hi.id (hi.trial id j)).id = -1) :
    ∃ j < hi.cap, (hi.id (hi.trial id j)).id = -1 ∧
      hi.probe id n i = some (some (hi.trial id j)) := by
  induction n generalizing i with
  | zero =>
      obtain ⟨j, hj, hid⟩ := hfree
      exact absurd hid (hused j (by omega))
  | succ n ih =>
      have hi' : i < hi.cap := by omega
      rw [probe_succ, if_pos (hfits i hi' hused)]
      by_cases hid : (hi.id (hi.trial id i)).id = -1
      · exact ⟨i, hi', hid, if_pos hid⟩
      · rw [if_neg hid]
        refine ih (by omega) fun j hj => ?_
        rcases Nat.lt_succ_iff_lt_or_eq.mp hj with hlt | rfl
        · exact hused j hlt
        · exact hid

/-- Or it overflows. -/
theorem probe_overflows
    {id n i k : ℕ} (hn : n + i = hi.cap) (hik : i ≤ k) (hk : k < hi.cap)
    (hused : ∀ j, j < k → (hi.id (hi.trial id j)).id ≠ -1)
    (hbig : ¬k + id < 0x80000000) : hi.probe id n i = none := by
  induction n generalizing i with
  | zero => omega
  | succ n ih =>
      rw [probe_succ]
      by_cases hfits : i + id < 0x80000000
      · have hlt : i < k := by omega
        rw [if_pos hfits, if_neg (hused i hlt)]
        exact ih (by omega) hlt
      · exact if_neg hfits

/-- The node of a new id is put in front of the chain of its hash. -/
theorem Stores.inserted
    {id : ℕ} (hs : hi.Stores m) (hm : m.lookup (id : ℤ) = none)
    (hc : c < hi.cap) (hfree : (hi.id c).id = -1)
    (hmod : hi'.hashmod = hi.hashmod) (hcap : hi'.cap = hi.cap)
    (hcount : hi'.count = hi.count + 1)
    (hnode : hi'.id = update hi.id c ⟨id, hi.hash (hi.index id)⟩)
    (hhash : hi'.hash = update hi.hash (hi.index id) (some c)) :
    hi'.Stores (m.insert (id : ℤ) c) := by
  have hindex : ∀ i, hi'.index i = hi.index i := index_congr hmod
  have hnext : hi'.next = update hi.next c (hi.hash (hi.index id)) :=
    next_eq_update ⟨id, hi.hash (hi.index id)⟩ hnode
  have hself : (hi'.id c).id = id := by rw [hnode, update_self]
  have hother : ∀ d, d ≠ c → (hi'.id d).id = (hi.id d).id := fun d hd => by
    rw [hnode, update_of_ne hd]
  have hapart : ∀ h l, hi.Chain h l → c ∉ l := fun h l hl hcl =>
    ((hl.mem c).mp hcl).1 hfree
  refine ⟨fun i d hd => ?_, fun d hd => ?_, fun d hd => ?_, ?_, fun h => ?_⟩
  · by_cases hi' : i = id
    · subst hi'
      rw [AList.lookup_insert] at hd
      cases hd
      exact ⟨Int.natCast_nonneg id, hcap ▸ hc, hself⟩
    · rw [AList.lookup_insert_ne hi'] at hd
      obtain ⟨hnonneg, hlt, hid⟩ := hs.slot i d hd
      have hdc : d ≠ c := by
        rintro rfl
        omega
      exact ⟨hnonneg, hcap ▸ hlt, (hother d hdc).trans hid⟩
  · by_cases hdc : d = c
    · rw [hdc, hself, AList.lookup_insert]
    · rw [hother d hdc] at hd ⊢
      have hd' := hs.node d hd
      rw [AList.lookup_insert_ne]
      · exact hd'
      · intro heq
        rw [heq, hm] at hd'
        cases hd'
  · have hdc : d ≠ c := by
      rintro rfl
      omega
    rw [hother d hdc] at hd
    rw [hnext, update_of_ne hdc]
    exact hs.free d hd
  · have hnot : (id : ℤ) ∉ m := AList.lookup_eq_none.mp hm
    have herase : m.keys.erase (id : ℤ) = m.keys :=
      List.erase_of_not_mem fun hmem => hnot (AList.mem_keys.mpr hmem)
    rw [hcount, hs.count, AList.keys_insert, herase, List.length_cons]
    exact (Int.natCast_succ _).symm
  · obtain ⟨l, hl⟩ := hs.chain h
    have hcl := hapart h l hl
    by_cases hh : h = hi.index id
    · subst hh
      refine ⟨c :: l, ?_, fun d => ?_⟩
      · rw [hnext, hhash, update_self]
        exact hl.path.push hcl
      · rw [List.mem_cons, hl.mem]
        by_cases hdc : d = c
        · rw [hdc, hself, hindex]
          exact iff_of_true (.inl rfl) ⟨by omega, rfl⟩
        · rw [hother d hdc, hindex]
          exact or_iff_right hdc
    · refine ⟨l, ?_, fun d => ?_⟩
      · rw [hnext, hhash, update_of_ne hh]
        exact hl.path.update hcl
      · rw [hl.mem]
        by_cases hdc : d = c
        · rw [hdc, hself, hfree, hindex]
          exact iff_of_false (fun hand => hand.1 rfl) fun hand =>
            hh hand.2.symm
        · rw [hother d hdc, hindex]

/-- `hashid_insert` is undefined when a trial overflows. -/
theorem fits_of_insert
    {id : ℕ} {r : ℤ × Hashid} (h : hi.insert id = some r) : hi.Fits id := by
  intro k hk hused
  by_contra hbig
  have hprobe : hi.probe id hi.cap 0 = none :=
    probe_overflows (Nat.add_zero _) (Nat.zero_le k) hk hused hbig
  rw [insert, hprobe] at h
  cases h

/-- It gives a new id a free node, when no trial overflows. -/
theorem Stores.insert
    {id : ℕ} (hs : hi.Stores m) (hm : m.lookup (id : ℤ) = none)
    (hroom : hi.full = false) (hfits : hi.Fits id) :
    ∃ (table : Hashid) (c : ℕ), hi.insert id = some ((c : ℤ), table) ∧
      c < hi.cap ∧ (hi.id c).id = -1 ∧ table.cap = hi.cap ∧
      table.Stores (m.insert (id : ℤ) c) := by
  obtain ⟨c, hc, hid⟩ := hs.exists_free hroom
  obtain ⟨i, hi', htrial⟩ := exists_trial id hc
  obtain ⟨j, hj, hfree, hprobe⟩ := probe_found (Nat.add_zero _) hfits
    (fun j hj => absurd hj (Nat.not_lt_zero j)) ⟨i, hi', htrial ▸ hid⟩
  have hlt : hi.trial id j < hi.cap := Nat.mod_lt _ (Nat.zero_lt_of_lt hj)
  have hnext : (hi.id (hi.trial id j)).next = none := hs.free _ hfree
  refine ⟨{ hi with
    count := hi.count + 1
    id := update hi.id (hi.trial id j) ⟨id, hi.hash (hi.index id)⟩
    hash := update hi.hash (hi.index id) (some (hi.trial id j)) },
    hi.trial id j, ?_, hlt, hfree, rfl,
    hs.inserted hm hlt hfree rfl rfl rfl rfl rfl⟩
  rw [Hashid.insert, hprobe]
  dsimp only
  rw [if_neg (not_not.mpr hnext)]

end Insert

theorem stores_init {max : ℕ} {hi : Hashid} (h : init max = some hi) :
    hi.cap = max ∧ hi.Stores ∅ := by
  obtain ⟨cap, -, rfl⟩ := Option.map_eq_some_iff.mp h
  refine ⟨rfl, fun i d hd => ?_, fun d hd => absurd rfl hd, fun d _ => rfl, rfl,
    fun h => ⟨[], rfl, fun d => ?_⟩⟩
  · cases hd
  · exact iff_of_false List.not_mem_nil fun hand => hand.1 rfl

end Hashid

/-! ## Runs -/

/-- A call of a function of the table. -/
inductive HashOp where
  | insert (id : ℤ)
  | remove (id : ℤ)
  | lookup (id : ℤ)

inductive HashFault where
  | undefined

/-- The table, the slots that were returned for the ids which are present, and
the result of the latest call. -/
structure HashState where
  table : Hashid
  slots : Slots
  result : ℤ

namespace HashState

def create (table : Hashid) : HashState := ⟨table, ∅, -1⟩

def step (s : HashState) : HashOp → Outcome HashFault HashState
  | .insert id =>
    match s.table.insert id with
    | none => .fault .undefined
    | some (c, table) => .next ⟨table, s.slots.insert id c.toNat, c⟩
  | .remove id =>
    match s.table.remove id with
    | none => .fault .undefined
    | some (c, table) => .next ⟨table, s.slots.erase id, c⟩
  | .lookup id =>
    match s.table.lookup id with
    | none => .fault .undefined
    | some c => .next ⟨s.table, s.slots, c⟩

/-- An id that is inserted is the number of a socket, is not present, and the
table is not full. -/
def Allowed (s : HashState) : HashOp → Prop
  | .insert id =>
    0 ≤ id ∧ id < 0x80000000 ∧ id ∉ s.slots ∧ s.table.full = false
  | .remove _ => True
  | .lookup _ => True

/-- No trial of `hashid_insert` overflows. -/
def Fits (s : HashState) : HashOp → Prop
  | .insert id => s.table.Fits id.toNat
  | .remove _ => True
  | .lookup _ => True

instance (s : HashState) : DecidablePred s.Allowed
  | .insert _ => inferInstanceAs (Decidable (_ ∧ _ ∧ _ ∧ _))
  | .remove _ => .isTrue trivial
  | .lookup _ => .isTrue trivial

instance (s : HashState) : DecidablePred s.Fits
  | .insert id => inferInstanceAs (Decidable (∀ i, i < s.table.cap →
      (∀ j, j < i → (s.table.id (s.table.trial id.toNat j)).id ≠ -1) →
        i + id.toNat < 0x80000000))
  | .remove _ => .isTrue trivial
  | .lookup _ => .isTrue trivial

/-- What a finite map from ids to distinct slots returns. -/
def Answers (s s' : HashState) : HashOp → Prop
  | .insert id =>
    ∃ c : ℕ, c < s.table.cap ∧ s'.result = c ∧
      (∀ i, s.slots.lookup i ≠ some c) ∧ s'.slots = s.slots.insert id c
  | .remove id =>
    s'.result = s.slots.slot id ∧ s'.slots = s.slots.erase id
  | .lookup id => s'.result = s.slots.slot id ∧ s'.slots = s.slots

section Runs

variable {s s' : HashState} {op : HashOp}

theorem fits_of_step
    (h : s.Allowed op) (hstep : s.step op = .next s') : s.Fits op := by
  cases op with
  | insert id =>
      have hid : (id.toNat : ℤ) = id := Int.toNat_of_nonneg h.1
      rw [step] at hstep
      split at hstep
      · cases hstep
      · rename_i c table hinsert
        rw [← hid] at hinsert
        exact Hashid.fits_of_insert hinsert
  | remove id | lookup id => trivial

/-- A call that is allowed and does not overflow is answered as by a finite
map. -/
theorem answers
    (hs : s.table.Stores s.slots) (h : s.Allowed op) (hfits : s.Fits op) :
    ∃ s', s.step op = .next s' ∧ s'.table.cap = s.table.cap ∧
      s'.table.Stores s'.slots ∧ Answers s s' op := by
  cases op with
  | insert id =>
      have hid : (id.toNat : ℤ) = id := Int.toNat_of_nonneg h.1
      rw [← hid] at h ⊢
      obtain ⟨-, -, habsent, hroom⟩ := h
      obtain ⟨table, c, hinsert, hc, hfree, hcap, hstores⟩ :=
        hs.insert (AList.lookup_eq_none.mpr habsent) hroom hfits
      refine ⟨⟨table, s.slots.insert (id.toNat : ℤ) c, c⟩, ?_, hcap, hstores, c,
        hc, rfl, fun i hi => ?_, rfl⟩
      · rw [step, hinsert]
        rfl
      · obtain ⟨hnonneg, -, hslot⟩ := hs.slot i c hi
        omega
  | remove id =>
      obtain ⟨table, hremove, hcap, hstores⟩ := hs.remove id
      refine ⟨⟨table, s.slots.erase id, s.slots.slot id⟩, ?_, hcap, hstores,
        rfl, rfl⟩
      rw [step, hremove]
  | lookup id =>
      refine ⟨⟨s.table, s.slots, s.slots.slot id⟩, ?_, rfl, hs, rfl, rfl⟩
      rw [step, hs.lookup id]

/-- The table of any capacity up to `2 ^ 30` is a finite map in every run whose
insertions do not overflow, and a call that is allowed is answered as by that
map if and only if it does not overflow. -/
theorem hashid_is_map (max : ℕ) :
    ((Hashid.init max).isSome ↔ max ≤ 0x40000000) ∧
      ∀ table, Hashid.init max = some table →
        ∀ s, Reaches step (fun s op => s.Allowed op ∧ s.Fits op)
          (create table) s →
          s.table.cap = max ∧ s.table.Stores s.slots ∧
            ∀ op, s.Allowed op →
              ((∃ s', s.step op = .next s' ∧ Answers s s' op) ↔ s.Fits op) := by
  refine ⟨Hashid.init_isSome max, fun table hinit s h => ?_⟩
  have hinv : s.table.cap = max ∧ s.table.Stores s.slots := by
    refine h.invariant (fun s => s.table.cap = max ∧ s.table.Stores s.slots)
      (Hashid.stores_init hinit) ?_
    rintro s op t ⟨hcap, hs⟩ ⟨hallowed, hfits⟩ hstep
    obtain ⟨t', hstep', hcap', hstores, -⟩ := answers hs hallowed hfits
    rw [hstep] at hstep'
    cases hstep'
    exact ⟨hcap'.trans hcap, hstores⟩
  refine ⟨hinv.1, hinv.2, fun op hallowed => ⟨?_, fun hfits => ?_⟩⟩
  · rintro ⟨s', hstep, -⟩
    exact fits_of_step hallowed hstep
  · obtain ⟨s', hstep, -, -, hanswers⟩ := answers hinv.2 hallowed hfits
    exact ⟨s', hstep, hanswers⟩

/-- A table of three nodes. -/
def threeNodes : Hashid where
  hashmod := 15
  cap := 3
  count := 0
  id := fun _ => {}
  hash := fun _ => none

/-- The theorem above for a node that is used again by another id. -/
theorem hashid_is_map_of_three :
    ∃ s : HashState,
      Reaches step (fun s op => s.Allowed op ∧ s.Fits op)
        (create threeNodes) s ∧
      s.table.cap = 3 ∧ s.table.Stores s.slots ∧
      s.slots.slot 4 = 1 ∧ s.slots.slot 20 = 2 := by
  obtain ⟨s, hrun, htest⟩ := Outcome.exists_of_passes
    (show (execWhile step (fun s op => decide (s.Allowed op ∧ s.Fits op))
      (create threeNodes) [.insert 1, .remove 1, .insert 4, .insert 20]).passes
        (fun s => decide (s.slots.slot 4 = 1 ∧ s.slots.slot 20 = 2)) = true from
      by decide +kernel)
  have hreaches : Reaches step (fun s op => s.Allowed op ∧ s.Fits op)
      (create threeNodes) s :=
    reaches_of_execWhile (fun _ _ h => of_decide_eq_true h) hrun
  obtain ⟨hcap, hstores, -⟩ := (hashid_is_map 3).2 threeNodes rfl s hreaches
  exact ⟨s, hreaches, hcap, hstores, of_decide_eq_true htest⟩

/-- The second trial for the greatest id overflows. -/
theorem insert_overflows :
    ¬∀ max table, 1 ≤ max → Hashid.init max = some table →
      ∀ s, Reaches step Allowed (create table) s →
        ∀ op, s.Allowed op → ∃ s', s.step op = .next s' := by
  intro h
  obtain ⟨s, hrun, htest⟩ := Outcome.exists_of_passes
    (show (execWhile step (fun s op => decide (s.Allowed op))
      (create threeNodes) [.insert 4]).passes
        (fun s => decide (s.Allowed (.insert 0x7fffffff) ∧
          ¬s.Fits (.insert 0x7fffffff))) = true from by decide +kernel)
  obtain ⟨hallowed, hno⟩ := of_decide_eq_true htest
  obtain ⟨s', hstep⟩ := h 3 threeNodes (by decide) rfl s
    (reaches_of_execWhile (fun _ _ h => of_decide_eq_true h) hrun)
    (.insert 0x7fffffff) hallowed
  exact hno (fits_of_step hallowed hstep)

end Runs

end HashState

end SkynetServer.Gate
