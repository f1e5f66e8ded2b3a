import SkynetServer.Stm.Object

/-!
# The copies

`copy->reference` counts the object, unless `stm_release` has given its
reference up, and the agents that hold the copy: in a box, in a call of
`stm_copy` or `stm_releasecopy`, or as the new copy of `stm_update`.  A copy
whose last reference is gone is about to be freed by exactly one agent.
-/

namespace SkynetServer.Stm

open Transition Function

/-- Whether the copy is `c`, as a number. -/
def hits (c : ℕ) (o : Option ℕ) : ℕ := if o = some c then 1 else 0

theorem hits_self (c : ℕ) : hits c (some c) = 1 := if_pos rfl

theorem hits_of_ne {c d : ℕ} (h : c ≠ d) : hits c (some d) = 0 :=
  if_neg fun he => h (Option.some.inj he).symm

@[simp] theorem hits_none (c : ℕ) : hits c none = 0 := rfl

namespace Pos

/-- The copy to which the position owns a reference. -/
def holding : Pos → Option ℕ
  | .copyUnlock _ ret => ret
  | .dec c _ | .wlock (.update c) | .wwait (.update c) | .swap c => some c
  | .updateUnlock old => old
  | _ => none

/-- The copy which is about to be freed. -/
def condemned : Pos → Option ℕ
  | .free c _ | .lastFree c => some c
  | _ => none

/-- `stm_release` has given the reference of the object up. -/
def dropped : Pos → Bool
  | .lastFree _ | .clear => true
  | _ => false

/-- What `box->lastcopy` is at a position. -/
def Keeps (last : Option ℕ) : Pos → Prop
  | .gone | .dec _ .gone | .free _ .gone => last = none
  | .use c | .dec _ (.use c) | .free _ (.use c) => last = some c
  | _ => True

theorem dropped_releasecopy (o : Option ℕ) (n : Next) :
    (releasecopy o n).dropped = false := by
  cases o with
  | none => cases n <;> rfl
  | some c => rfl

theorem critical_of_dropped {p : Pos} (h : p.dropped) : p.critical := by
  cases p <;> first | rfl | cases h

theorem holding_next (n : Next) : n.pos.holding = none := by
  cases n <;> rfl

theorem condemned_next (n : Next) : n.pos.condemned = none := by
  cases n <;> rfl

theorem holding_releasecopy (o : Option ℕ) (n : Next) :
    (releasecopy o n).holding = o := by
  cases o with
  | none => exact holding_next n
  | some c => rfl

theorem condemned_releasecopy (o : Option ℕ) (n : Next) :
    (releasecopy o n).condemned = none := by
  cases o with
  | none => exact condemned_next n
  | some c => rfl

theorem keeps_releasecopy
    {o last : Option ℕ} {n : Next} (h : n.pos.Keeps last) :
    (releasecopy o n).Keeps last := by
  cases o with
  | none => exact h
  | some c => cases n <;> exact h

end Pos

/-- The references to a copy that an agent owns. -/
def Agent.owned (c : ℕ) (a : Agent) : ℕ := hits c a.pos.holding + hits c a.last

/-- `lread` hands its references over. -/
theorem owned_afterCopy (a : Agent) (ret : Option ℕ) (c : ℕ) :
    (a.afterCopy ret).owned c = hits c ret + hits c a.last := by
  unfold Agent.afterCopy Agent.owned
  split
  · simp only [Pos.holding_releasecopy]
  · simp only [Pos.holding_releasecopy]
    exact Nat.add_comm _ _

theorem condemned_afterCopy (a : Agent) (ret : Option ℕ) :
    (a.afterCopy ret).pos.condemned = none := by
  unfold Agent.afterCopy
  split
  · exact Pos.condemned_releasecopy _ _
  · exact Pos.condemned_releasecopy _ _

theorem keeps_afterCopy (a : Agent) (ret : Option ℕ) :
    (a.afterCopy ret).pos.Keeps (a.afterCopy ret).last := by
  unfold Agent.afterCopy
  split
  · exact Pos.keeps_releasecopy trivial
  · refine Pos.keeps_releasecopy ?_
    cases ret with
    | none => trivial
    | some c => rfl

/-- So does `ldeletereader`. -/
theorem owned_afterRelease (a : Agent) (c : ℕ) :
    a.afterRelease.owned c = hits c a.last := by
  unfold Agent.afterRelease Agent.owned
  simp only [Pos.holding_releasecopy, hits_none, Nat.add_zero]

theorem condemned_afterRelease (a : Agent) :
    a.afterRelease.pos.condemned = none :=
  Pos.condemned_releasecopy _ _

theorem keeps_afterRelease (a : Agent) :
    a.afterRelease.pos.Keeps a.afterRelease.last :=
  Pos.keeps_releasecopy rfl

/-! ## The account of one copy -/

/-- The copy `c` of `n` allocated ones has `o` owners, and `f` agents are about
to free it. -/
structure Fair (n c : ℕ) (k : Copy) (o f : ℕ) : Prop where
  alive : k.freed = false →
    k.reference = o ∧ f = if c < n ∧ k.reference = 0 then 1 else 0
  dead : k.freed = true → o = 0 ∧ f = 0
  fresh : n ≤ c → k.reference = 0 ∧ k.freed = false

namespace Fair

variable {n c o f : ℕ} {k : Copy}

/-- A copy with an owner is not freed, and its counter is positive. -/
theorem of_owner (h : Fair n c k o f) (ho : 0 < o) :
    k.freed = false ∧ 0 < k.reference ∧ c < n := by
  have hfreed : k.freed = false := by
    by_contra hfreed
    have hdead := h.dead (Bool.not_eq_false _ ▸ hfreed)
    omega
  obtain ⟨href, -⟩ := h.alive hfreed
  refine ⟨hfreed, by omega, ?_⟩
  by_contra hge
  have hzero := (h.fresh (Nat.le_of_not_lt hge)).1
  omega

/-- A copy that is about to be freed is not freed, and has no owner. -/
theorem of_condemned (h : Fair n c k o f) (hf : 0 < f) :
    k.freed = false ∧ o = 0 ∧ f = 1 ∧ c < n := by
  have hfreed : k.freed = false := by
    by_contra hfreed
    have hdead := h.dead (Bool.not_eq_false _ ▸ hfreed)
    omega
  obtain ⟨href, hone⟩ := h.alive hfreed
  split at hone
  · rename_i hzero
    exact ⟨hfreed, by omega, hone, hzero.1⟩
  · omega

/-- A reference is taken. -/
theorem grab (h : Fair n c k o f) (ho : 0 < o) :
    Fair n c { k with reference := k.reference + 1 } (o + 1) f := by
  obtain ⟨hfreed, hpos, hlt⟩ := h.of_owner ho
  obtain ⟨href, hf⟩ := h.alive hfreed
  rw [if_neg fun hz => by omega] at hf
  refine ⟨fun _ => ⟨?_, ?_⟩, fun hd => ?_, fun hge => ?_⟩
  · change k.reference + 1 = ((o + 1 : ℕ) : ℤ)
    omega
  · rw [hf, if_neg fun hz => ?_]
    have hzero : k.reference + 1 = 0 := hz.2
    omega
  · rw [show k.freed = true from hd] at hfreed
    cases hfreed
  · omega

/-- A reference is given up; the copy is about to be freed if it was the last
one. -/
theorem drop (h : Fair n c k (o + 1) f) :
    Fair n c { k with reference := k.reference - 1 } o
      (f + if k.reference - 1 = 0 then 1 else 0) := by
  obtain ⟨hfreed, hpos, hlt⟩ := h.of_owner (Nat.succ_pos o)
  obtain ⟨href, hf⟩ := h.alive hfreed
  rw [if_neg fun hz => by omega] at hf
  refine ⟨fun _ => ⟨?_, ?_⟩, fun hd => ?_, fun hge => ?_⟩
  · change k.reference - 1 = (o : ℤ)
    omega
  · rw [hf, Nat.zero_add]
    by_cases hzero : k.reference - 1 = 0
    · rw [if_pos hzero, if_pos ⟨hlt, hzero⟩]
    · rw [if_neg hzero, if_neg fun hz => hzero hz.2]
  · rw [show k.freed = true from hd] at hfreed
    cases hfreed
  · omega

/-- The copy is freed. -/
theorem free (h : Fair n c k o (f + 1)) :
    Fair n c { k with freed := true } o f := by
  obtain ⟨-, ho, hf, hlt⟩ := h.of_condemned (Nat.succ_pos f)
  refine ⟨fun hd => ?_, fun _ => ⟨ho, by omega⟩, fun hge => by omega⟩
  cases hd

/-- Another copy is allocated. -/
theorem allocate (h : Fair n c k o f) (hne : c ≠ n) :
    Fair (n + 1) c k o f := by
  refine ⟨fun hfreed => ?_, h.dead, fun hge => h.fresh (by omega)⟩
  obtain ⟨href, hf⟩ := h.alive hfreed
  refine ⟨href, hf.trans ?_⟩
  have hiff : c < n + 1 ↔ c < n := by omega
  simp only [hiff]

end Fair

namespace State

variable {τ : Type*} [Fintype τ]

/-- The copy to which the object owns a reference. -/
def held (s : State τ) : Option ℕ :=
  if s.writer.dropped then none else s.copy

/-- The owners of a copy. -/
def owners (s : State τ) (c : ℕ) : ℕ :=
  hits c s.held + Census.total Finset.univ (Agent.owned c) s.agent

/-- The agents about to free a copy. -/
def condemned (s : State τ) (c : ℕ) : ℕ :=
  Census.total Finset.univ (fun a : Agent => hits c a.pos.condemned) s.agent

/-- The counters of the copies are right. -/
structure CopiesSound (s : State τ) : Prop where
  fair : ∀ c, Fair s.allocated c (s.copies c) (s.owners c) (s.condemned c)
  keeps : ∀ t, (s.agent t).pos.Keeps (s.agent t).last
  boxless : (s.agent none).last = none

section Steps

variable [DecidableEq τ] {s s₁ : State τ} {t : Option τ} {a : Agent}

theorem owners_become (hagent : s₁.agent = s.agent) (c : ℕ) :
    (s₁.become t a).owners c + hits c s.held + (s.agent t).owned c =
      s.owners c + hits c (s₁.become t a).held + a.owned c := by
  have htotal := Census.total_update (Agent.owned c) s.agent
    (Finset.mem_univ t) a
  rw [owners, owners, agent_become, hagent]
  omega

theorem condemned_become (hagent : s₁.agent = s.agent) (c : ℕ) :
    (s₁.become t a).condemned c + hits c (s.agent t).pos.condemned =
      s.condemned c + hits c a.pos.condemned := by
  rw [condemned, agent_become, hagent]
  exact Census.total_update _ s.agent (Finset.mem_univ t) a

/-- A step changes the account of the copies as the hypothesis says. -/
theorem CopiesSound.become
    (hs : s.CopiesSound) (hagent : s₁.agent = s.agent)
    (hkeeps : a.pos.Keeps a.last) (hboxless : t = none → a.last = none)
    (hfair : ∀ c, Fair s₁.allocated c (s₁.copies c)
      ((s₁.become t a).owners c) ((s₁.become t a).condemned c)) :
    (s₁.become t a).CopiesSound := by
  refine ⟨hfair, fun u => ?_, ?_⟩
  · rw [agent_become, hagent]
    by_cases hu : u = t
    · rw [hu, update_self]
      exact hkeeps
    · rw [update_of_ne hu]
      exact hs.keeps u
  · rw [agent_become, hagent]
    by_cases ht : none = t
    · rw [ht, update_self]
      exact hboxless ht.symm
    · rw [update_of_ne ht]
      exact hs.boxless

/-- A step that passes references on, but takes and gives up none. -/
theorem CopiesSound.pass
    (hs : s.CopiesSound) (hagent : s₁.agent = s.agent)
    (hcopies : s₁.copies = s.copies) (hallocated : s₁.allocated = s.allocated)
    (howned : ∀ c, hits c (s₁.become t a).held + a.owned c =
      hits c s.held + (s.agent t).owned c)
    (hcondemned : a.pos.condemned = (s.agent t).pos.condemned)
    (hkeeps : a.pos.Keeps a.last) (hboxless : t = none → a.last = none) :
    (s₁.become t a).CopiesSound := by
  refine hs.become hagent hkeeps hboxless fun c => ?_
  have howners := owners_become (t := t) (a := a) hagent c
  have htotal := condemned_become (t := t) (a := a) hagent c
  have hbalance := howned c
  rw [hcondemned] at htotal
  rw [show (s₁.become t a).owners c = s.owners c by omega,
    show (s₁.become t a).condemned c = s.condemned c by omega, hcopies,
    hallocated]
  exact hs.fair c

/-- The same when only the account of the copy `d` changes. -/
theorem CopiesSound.change
    (hs : s.CopiesSound) (hagent : s₁.agent = s.agent) (d : ℕ)
    (hcopies : ∀ c, c ≠ d → s₁.copies c = s.copies c)
    (hallocated : s₁.allocated = s.allocated)
    (hother : ∀ c, c ≠ d → hits c (s₁.become t a).held + a.owned c =
      hits c s.held + (s.agent t).owned c)
    (hcondemned : ∀ c, c ≠ d →
      hits c a.pos.condemned = hits c (s.agent t).pos.condemned)
    (hkeeps : a.pos.Keeps a.last) (hboxless : t = none → a.last = none)
    (hfair : Fair s.allocated d (s₁.copies d) ((s₁.become t a).owners d)
      ((s₁.become t a).condemned d)) :
    (s₁.become t a).CopiesSound := by
  refine hs.become hagent hkeeps hboxless fun c => ?_
  rw [hallocated]
  by_cases hc : c = d
  · rw [hc]
    exact hfair
  · have howners := owners_become (t := t) (a := a) hagent c
    have htotal := condemned_become (t := t) (a := a) hagent c
    have hbalance := hother c hc
    rw [hcondemned c hc] at htotal
    rw [show (s₁.become t a).owners c = s.owners c by omega,
      show (s₁.become t a).condemned c = s.condemned c by omega, hcopies c hc]
    exact hs.fair c

omit [Fintype τ] in
/-- The object keeps its reference. -/
theorem held_become
    (hagent : s₁.agent = s.agent) (hcopy : s₁.copy = s.copy)
    (hdropped : a.pos.dropped = (s.agent t).pos.dropped) :
    (s₁.become t a).held = s.held := by
  rw [held, held, writer_become hagent]
  split
  · rename_i ht
    subst ht
    rw [hdropped]
    exact if_congr Iff.rfl rfl hcopy
  · exact if_congr Iff.rfl rfl hcopy

section Goto

variable {p q : Pos} (hs : s.CopiesSound) (hp : (s.agent t).pos = p)

include hs hp

/-- A step that has nothing to do with the copies. -/
theorem CopiesSound.stay
    (hagent : s₁.agent = s.agent) (hcopies : s₁.copies = s.copies)
    (hallocated : s₁.allocated = s.allocated) (hcopy : s₁.copy = s.copy)
    (hholding : q.holding = p.holding) (hcondemned : q.condemned = p.condemned)
    (hdropped : q.dropped = p.dropped) (hkeeps : q.Keeps (s.agent t).last) :
    (s₁.goto t q).CopiesSound := by
  subst hp
  have hlast : (s₁.agent t).last = (s.agent t).last := by rw [hagent]
  refine hs.pass hagent hcopies hallocated (fun c => ?_) hcondemned ?_ ?_
  · rw [held_become hagent hcopy hdropped, Agent.owned, Agent.owned]
    change _ + (hits c q.holding + hits c (s₁.agent t).last) = _
    rw [hholding, hlast]
  · change q.Keeps (s₁.agent t).last
    rw [hlast]
    exact hkeeps
  · intro ht
    subst ht
    exact hlast.trans hs.boxless

omit [DecidableEq τ] in
/-- The copy whose reference the position owns is not freed. -/
theorem CopiesSound.of_holding
    {c : ℕ} (hc : p.holding = some c) :
    (s.copies c).freed = false ∧ ∃ o, s.owners c = o + 1 := by
  subst hp
  have hle : (s.agent t).owned c ≤
      Census.total Finset.univ (Agent.owned c) s.agent :=
    Census.le_total (Finset.mem_univ t)
  have hpos : 0 < s.owners c := by
    rw [Agent.owned, hc, hits_self] at hle
    rw [owners]
    omega
  exact ⟨((hs.fair c).of_owner hpos).1, s.owners c - 1, by omega⟩

omit [DecidableEq τ] in
/-- Nor is the copy that is about to be freed. -/
theorem CopiesSound.of_condemned
    {c : ℕ} (hc : p.condemned = some c) :
    (s.copies c).freed = false ∧ ∃ f, s.condemned c = f + 1 := by
  subst hp
  have hle : hits c (s.agent t).pos.condemned ≤ s.condemned c :=
    Census.le_total (w := fun a : Agent => hits c a.pos.condemned)
      (Finset.mem_univ t)
  rw [hc, hits_self] at hle
  exact ⟨((hs.fair c).of_condemned hle).1, s.condemned c - 1, by omega⟩

end Goto

omit [DecidableEq τ] in
/-- A copy in a box is not freed. -/
theorem CopiesSound.of_last
    (hs : s.CopiesSound) {c : ℕ} (hc : (s.agent t).last = some c) :
    (s.copies c).freed = false := by
  have hle : (s.agent t).owned c ≤
      Census.total Finset.univ (Agent.owned c) s.agent :=
    Census.le_total (Finset.mem_univ t)
  rw [Agent.owned, hc, hits_self] at hle
  exact ((hs.fair c).of_owner (by rw [owners]; omega)).1

omit [DecidableEq τ] in
/-- The copy of the object is not freed. -/
theorem CopiesSound.of_held
    (hs : s.CopiesSound) {c : ℕ} (hc : s.held = some c) :
    (s.copies c).freed = false ∧ 0 < (s.copies c).reference ∧
      ∃ o, s.owners c = o + 1 := by
  have hpos : 0 < s.owners c := by
    rw [owners, hc, hits_self]
    omega
  obtain ⟨hfreed, href, -⟩ := (hs.fair c).of_owner hpos
  exact ⟨hfreed, href, s.owners c - 1, by omega⟩

section Goto

variable {q : Pos}

theorem owners_goto
    {r : State τ} (hagent : r.agent = s.agent) (c : ℕ) :
    (r.goto t q).owners c + hits c s.held +
        hits c (s.agent t).pos.holding =
      s.owners c + hits c (r.goto t q).held + hits c q.holding := by
  have howners := owners_become (t := t) (a := { r.agent t with pos := q })
    hagent c
  have hnew : Agent.owned c { r.agent t with pos := q } =
      hits c q.holding + hits c (s.agent t).last := by
    rw [hagent]
    rfl
  rw [hnew, Agent.owned] at howners
  rw [goto]
  omega

theorem condemned_goto
    {r : State τ} (hagent : r.agent = s.agent) (c : ℕ) :
    (r.goto t q).condemned c + hits c (s.agent t).pos.condemned =
      s.condemned c + hits c q.condemned :=
  condemned_become hagent c

theorem CopiesSound.change_goto
    (hs : s.CopiesSound) (hagent : s₁.agent = s.agent) (d : ℕ)
    (hcopies : ∀ c, c ≠ d → s₁.copies c = s.copies c)
    (hallocated : s₁.allocated = s.allocated)
    (hother : ∀ c, c ≠ d → hits c (s₁.goto t q).held + hits c q.holding =
      hits c s.held + hits c (s.agent t).pos.holding)
    (hcondemned : ∀ c, c ≠ d →
      hits c q.condemned = hits c (s.agent t).pos.condemned)
    (hkeeps : q.Keeps (s.agent t).last)
    (hfair : Fair s.allocated d (s₁.copies d) ((s₁.goto t q).owners d)
      ((s₁.goto t q).condemned d)) :
    (s₁.goto t q).CopiesSound := by
  have hlast : (s₁.agent t).last = (s.agent t).last := by rw [hagent]
  refine hs.change hagent d hcopies hallocated (fun c hc => ?_) hcondemned ?_
    (fun ht => ?_) hfair
  · have hbalance := hother c hc
    change hits c (s₁.goto t q).held +
      (hits c q.holding + hits c (s₁.agent t).last) =
        _ + (_ + hits c (s.agent t).last)
    rw [hlast]
    omega
  · change q.Keeps (s₁.agent t).last
    rw [hlast]
    exact hkeeps
  · subst ht
    exact hlast.trans hs.boxless

end Goto

/-! ## Steps -/

omit [Fintype τ] [DecidableEq τ] in
@[simp] theorem copies_setCopy (s : State τ) (c : ℕ) (k : Copy) :
    (s.setCopy c k).copies c = k :=
  update_self ..

/-- A reference to the copy `c` is given up. -/
theorem CopiesSound.drop
    {s' : State τ} {c : ℕ} {f n : Pos} (hs : s.CopiesSound)
    (hfr : f.condemned = some c) (hn : n.condemned = none)
    (hold : (s.agent t).pos.condemned = none)
    (howned : ∀ q, q = f ∨ q = n → ∀ k e,
      hits e ((s.setCopy c k).goto t q).held + hits e q.holding +
          hits e (some c) =
        hits e s.held + hits e (s.agent t).pos.holding)
    (hkeeps : ∀ q, q = f ∨ q = n → q.Keeps (s.agent t).last)
    (h : s.decCopy t c f n = .next s') : s'.CopiesSound := by
  simp only [decCopy] at h
  split at h
  · cases h
  · have hchoice : ∃ q,
        (if (s.copies c).reference - 1 = 0 then f else n) = q ∧
        (q = f ∨ q = n) ∧ ∀ e, hits e q.condemned =
          if e = c ∧ (s.copies c).reference - 1 = 0 then 1 else 0 := by
      split
      · refine ⟨f, rfl, .inl rfl, fun e => ?_⟩
        rw [hfr]
        by_cases he : e = c
        · rw [he, hits_self, if_pos ⟨rfl, ‹_›⟩]
        · rw [hits_of_ne he, if_neg fun hc => he hc.1]
      · refine ⟨n, rfl, .inr rfl, fun e => ?_⟩
        rw [hn, hits_none, if_neg fun hc => ‹¬_› hc.2]
    obtain ⟨q, hq, hqn, hcondemned⟩ := hchoice
    have hgoto : ∀ k : Copy,
        k = { s.copies c with reference := (s.copies c).reference - 1 } →
        ((s.setCopy c k).goto t q).CopiesSound := by
      intro k hk
      have hbalance := howned q hqn k
      have howners := owners_goto (s := s) (r := s.setCopy c k) (t := t)
        (q := q) rfl c
      have htotal := condemned_goto (s := s) (r := s.setCopy c k) (t := t)
        (q := q) rfl c
      refine hs.change_goto rfl c (fun e he => update_of_ne he _ _) rfl
        (fun e he => ?_) (fun e he => ?_) (hkeeps q hqn) ?_
      · have hsum := hbalance e
        rw [hits_of_ne he] at hsum
        exact hsum
      · rw [hcondemned e, if_neg fun hc => he hc.1, hold, hits_none]
      · have hsum := hbalance c
        rw [hits_self] at hsum
        rw [hold, hits_none, Nat.add_zero, hcondemned c] at htotal
        simp only [true_and] at htotal
        have hfair := hs.fair c
        rw [show s.owners c = ((s.setCopy c k).goto t q).owners c + 1 by omega]
          at hfair
        have hdrop := hfair.drop
        rw [← hk] at hdrop
        rw [htotal, copies_setCopy]
        exact hdrop
    rw [hq] at h
    cases h
    exact hgoto _ rfl

/-- The copy `c` is freed. -/
theorem CopiesSound.freed
    {s' : State τ} {c : ℕ} {n : Pos} (hs : s.CopiesSound)
    (hold : (s.agent t).pos.condemned = some c) (hn : n.condemned = none)
    (howned : ∀ k e,
      hits e ((s.setCopy c k).goto t n).held + hits e n.holding =
        hits e s.held + hits e (s.agent t).pos.holding)
    (hkeeps : n.Keeps (s.agent t).last)
    (h : s.freeCopy t c n = .next s') : s'.CopiesSound := by
  simp only [freeCopy] at h
  split at h
  · cases h
  · have hgoto : ∀ k : Copy, k = { s.copies c with freed := true } →
        ((s.setCopy c k).goto t n).CopiesSound := by
      intro k hk
      have howners := owners_goto (s := s) (r := s.setCopy c k) (t := t)
        (q := n) rfl c
      have htotal := condemned_goto (s := s) (r := s.setCopy c k) (t := t)
        (q := n) rfl c
      refine hs.change_goto rfl c (fun e he => update_of_ne he _ _) rfl
        (fun e _ => howned k e) (fun e he => ?_) hkeeps ?_
      · rw [hn, hold, hits_none, hits_of_ne he]
      · have hsum := howned k c
        rw [hold, hits_self, hn, hits_none] at htotal
        have hfair := hs.fair c
        rw [show s.condemned c = ((s.setCopy c k).goto t n).condemned c + 1
            by omega,
          show s.owners c = ((s.setCopy c k).goto t n).owners c by omega]
          at hfair
        have hfree := hfair.free
        rw [← hk] at hfree
        rw [copies_setCopy]
        exact hfree
    cases h
    exact hgoto _ rfl

omit [Fintype τ] in
theorem held_goto
    {r : State τ}
    {q : Pos} (hagent : r.agent = s.agent) (hcopy : r.copy = s.copy)
    (hdropped : q.dropped = (s.agent t).pos.dropped) :
    (r.goto t q).held = s.held :=
  held_become hagent hcopy hdropped

omit [Fintype τ] in
theorem held_goto_none (s₁ : State τ) (q : Pos) :
    (s₁.goto none q).held = if q.dropped then none else s₁.copy := by
  rw [held, goto, writer_become (s := s₁) rfl, if_pos rfl]
  rfl

omit [Fintype τ] [DecidableEq τ] in
theorem held_eq {p : Pos} (hp : s.writer = p) :
    s.held = if p.dropped then none else s.copy := by
  rw [held, hp]

section Positions

variable {s' : State τ} (hs : s.CopiesSound)

include hs

variable {c : ℕ}

theorem CopiesSound.copyInc
    {seen : Option ℕ} (ho : s.ObjectSound)
    (hp : (s.agent t).pos = .copyInc seen c) (h : s.stepGo t = .next s') :
    s'.CopiesSound := by
  have hheld : s.held = some c := by
    have hsees := ho.sees t
    rw [hp] at hsees
    have hnot := ho.not_critical hp rfl
    rw [held, if_neg fun hd => ?_]
    · exact hsees.2
    · rw [Pos.critical_of_dropped hd] at hnot
      cases hnot
  obtain ⟨-, -, o, howner⟩ := hs.of_held hheld
  rw [stepGo, hp] at h
  simp only [stepCopyInc] at h
  split at h
  · cases h
  · split at h
    · cases h
    · have hgoto : ∀ k : Copy, k = { s.copies c with
          reference := (s.copies c).reference + 1 } →
          ((s.setCopy c k).goto t (.copyUnlock seen (some c))).CopiesSound := by
        intro k hk
        have hsame : ((s.setCopy c k).goto t
            (.copyUnlock seen (some c))).held = s.held :=
          held_goto rfl rfl (by rw [hp]; rfl)
        have howners := owners_goto (s := s) (r := s.setCopy c k) (t := t)
          (q := .copyUnlock seen (some c)) rfl c
        have htotal := condemned_goto (s := s) (r := s.setCopy c k) (t := t)
          (q := .copyUnlock seen (some c)) rfl c
        rw [hp, hsame] at howners
        rw [hp] at htotal
        refine hs.change_goto rfl c (fun e he => update_of_ne he _ _) rfl
          (fun e he => ?_) (fun e he => ?_) trivial ?_
        · rw [hsame, hp]
          change _ + hits e (some c) = _
          rw [hits_of_ne he]
          rfl
        · rw [hp]
          rfl
        · change _ + hits c s.held + 0 = _ + _ + hits c (some c) at howners
          rw [hits_self] at howners
          have hgrab := (hs.fair c).grab (by omega)
          rw [← hk] at hgrab
          rw [copies_setCopy,
            show ((s.setCopy c k).goto t (.copyUnlock seen (some c))).owners c =
              s.owners c + 1 by omega,
            show ((s.setCopy c k).goto t
              (.copyUnlock seen (some c))).condemned c = s.condemned c from
              htotal]
          exact hgrab
      cases h
      exact hgoto _ rfl

theorem CopiesSound.dec
    {n : Next} (hp : (s.agent t).pos = .dec c n)
    (h : s.stepGo t = .next s') : s'.CopiesSound := by
  have hkeeps := hs.keeps t
  rw [stepGo, hp] at h
  rw [hp] at hkeeps
  refine hs.drop (f := .free c n) rfl (Pos.condemned_next n)
    (by rw [hp]; rfl) (fun q hq k e => ?_) (fun q hq => ?_) h
  · have hq' : q.dropped = false ∧ q.holding = none := by
      rcases hq with rfl | rfl
      · exact ⟨rfl, rfl⟩
      · exact ⟨by cases n <;> rfl, Pos.holding_next n⟩
    rw [held_goto (s := s) (r := s.setCopy c k) rfl rfl
      (by rw [hp]; exact hq'.1), hq'.2, hp]
    rfl
  · rcases hq with rfl | rfl
    · cases n <;> exact hkeeps
    · cases n with
      | ready => trivial
      | gone | use d => exact hkeeps

theorem CopiesSound.free
    {n : Next} (hp : (s.agent t).pos = .free c n)
    (h : s.stepGo t = .next s') : s'.CopiesSound := by
  have hkeeps := hs.keeps t
  rw [stepGo, hp] at h
  rw [hp] at hkeeps
  refine hs.freed (by rw [hp]; rfl) (Pos.condemned_next n) (fun k e => ?_) ?_ h
  · rw [held_goto (s := s) (r := s.setCopy c k) rfl rfl
      (by rw [hp]; cases n <;> rfl), Pos.holding_next, hp]
    rfl
  · cases n with
    | ready => trivial
    | gone | use d => exact hkeeps

theorem CopiesSound.lastDec
    (ho : s.ObjectSound) (hp : (s.agent t).pos = .lastDec)
    (h : s.stepGo t = .next s') : s'.CopiesSound := by
  obtain rfl := ho.eq_none hp rfl
  have hheld : s.held = s.copy := held_eq (show s.writer = .lastDec from hp)
  rw [stepGo, hp] at h
  simp only at h
  split at h
  · cases h
  · cases hcopy : s.copy with
    | none =>
        rw [hcopy] at h
        cases h
        refine hs.pass rfl rfl rfl (fun c => ?_) (by rw [hp]; rfl) trivial
          fun _ => hs.boxless
        have hnew := held_goto_none s .clear
        change hits c (s.goto none .clear).held + _ = _
        rw [hnew, hheld, hcopy, Agent.owned, Agent.owned, hp]
        rfl
    | some c =>
        rw [hcopy] at h
        refine hs.drop rfl rfl (by rw [hp]; rfl) (fun q hq k e => ?_)
          (fun q hq => ?_) h
        · rw [held_goto_none, hheld, hcopy, hp]
          rcases hq with rfl | rfl
          · exact Nat.zero_add _
          · exact Nat.zero_add _
        · rcases hq with rfl | rfl <;> trivial

theorem CopiesSound.lastFree
    (ho : s.ObjectSound) (hp : (s.agent t).pos = .lastFree c)
    (h : s.stepGo t = .next s') : s'.CopiesSound := by
  obtain rfl := ho.eq_none hp rfl
  have hheld : s.held = none := held_eq (show s.writer = .lastFree c from hp)
  rw [stepGo, hp] at h
  refine hs.freed (n := .clear) (by rw [hp]; rfl) rfl (fun k e => ?_) trivial h
  rw [held_goto_none, hheld, hp]
  rfl

theorem CopiesSound.clear
    (ho : s.ObjectSound) (hp : (s.agent t).pos = .clear)
    (h : s.stepGo t = .next s') : s'.CopiesSound := by
  obtain rfl := ho.eq_none hp rfl
  have hheld : s.held = none := held_eq (show s.writer = .clear from hp)
  rw [stepGo, hp] at h
  obtain ⟨-, rfl⟩ := onObject_eq h
  refine hs.pass rfl rfl rfl (fun c => ?_) (by rw [hp]; rfl) trivial
    fun _ => hs.boxless
  have hnew := held_goto_none { s with copy := none } .writerDec
  change
    hits c (State.goto { s with copy := none } none .writerDec).held + _ = _
  rw [hnew, hheld, Agent.owned, Agent.owned, hp]
  rfl

/-- The new copy goes from the call to the object, and the old one from the
object to the call. -/
theorem CopiesSound.swap
    (ho : s.ObjectSound) (hp : (s.agent t).pos = .swap c)
    (h : s.stepGo t = .next s') : s'.CopiesSound := by
  obtain rfl := ho.eq_none hp rfl
  have hheld : s.held = s.copy := held_eq (show s.writer = .swap c from hp)
  rw [stepGo, hp] at h
  obtain ⟨-, rfl⟩ := onObject_eq h
  refine hs.pass rfl rfl rfl (fun e => ?_) (by rw [hp]; rfl) trivial
    fun _ => hs.boxless
  have hnew := held_goto_none { s with copy := some c } (.updateUnlock s.copy)
  change hits e (State.goto { s with copy := some c } none
    (.updateUnlock s.copy)).held + _ = _
  rw [hnew, hheld, Agent.owned, Agent.owned, hp]
  change hits e (some c) + (hits e s.copy + hits e (s.agent none).last) =
    hits e s.copy + (hits e (some c) + hits e (s.agent none).last)
  omega

theorem CopiesSound.copyUnlock
    {seen ret : Option ℕ} (ho : s.ObjectSound)
    (hp : (s.agent t).pos = .copyUnlock seen ret)
    (h : s.stepGo t = .next s') : s'.CopiesSound := by
  have hne := ho.ne_none hp rfl
  rw [stepGo, hp] at h
  obtain ⟨-, rfl⟩ := onObject_eq h
  have hdropped : ((s.agent t).afterCopy ret).pos.dropped = false := by
    unfold Agent.afterCopy
    split <;> exact Pos.dropped_releasecopy _ _
  have hheld : (State.become { s with read := s.read - 1 } t
      ((s.agent t).afterCopy ret)).held = s.held :=
    held_become rfl rfl (by rw [hdropped, hp]; rfl)
  refine hs.pass rfl rfl rfl (fun c => ?_) ?_ (keeps_afterCopy _ _)
    fun ht => absurd ht hne
  · rw [hheld, owned_afterCopy, Agent.owned, hp]
    rfl
  · rw [condemned_afterCopy, hp]
    rfl

/-- The references of the box are given up after the one of the object. -/
theorem CopiesSound.afterRelease
    {p : Pos} (ho : s.ObjectSound) (hp : (s.agent t).pos = p)
    (hreader : p.ofReader = true) (hholding : p.holding = none)
    (hcondemned : p.condemned = none) (hdropped : p.dropped = false)
    (hagent : s₁.agent = s.agent) (hcopies : s₁.copies = s.copies)
    (hallocated : s₁.allocated = s.allocated) (hcopy : s₁.copy = s.copy) :
    (s₁.become t (s.agent t).afterRelease).CopiesSound := by
  have hne := ho.ne_none hp hreader
  subst hp
  have hheld : (s₁.become t (s.agent t).afterRelease).held = s.held := by
    refine held_become hagent hcopy ?_
    rw [hdropped]
    exact Pos.dropped_releasecopy _ _
  refine hs.pass hagent hcopies hallocated (fun c => ?_) ?_
    (keeps_afterRelease _) fun ht => absurd ht hne
  · rw [hheld, owned_afterRelease, Agent.owned, hholding, hits_none,
      Nat.zero_add]
  · rw [condemned_afterRelease, hcondemned]

/-- The copies are not concerned. -/
theorem CopiesSound.unconcerned
    {q p : Pos} (hp : (s.agent t).pos = p) (hagent : s₁.agent = s.agent)
    (hcopies : s₁.copies = s.copies) (hallocated : s₁.allocated = s.allocated)
    (hcopy : s₁.copy = s.copy) (hholding : q.holding = p.holding)
    (hcondemned : q.condemned = p.condemned) (hdropped : q.dropped = p.dropped)
    (hkeeps : ∀ last, q.Keeps last) : (s₁.goto t q).CopiesSound :=
  hs.stay hp hagent hcopies hallocated hcopy hholding hcondemned hdropped
    (hkeeps _)

theorem CopiesSound.go
    (ho : s.ObjectSound) (h : s.stepGo t = .next s') : s'.CopiesSound := by
  cases hp : (s.agent t).pos with
  | copyInc seen c => exact hs.copyInc ho hp h
  | copyUnlock seen ret => exact hs.copyUnlock ho hp h
  | dec c n => exact hs.dec hp h
  | free c n => exact hs.free hp h
  | swap c => exact hs.swap ho hp h
  | lastDec => exact hs.lastDec ho hp h
  | lastFree c => exact hs.lastFree ho hp h
  | clear => exact hs.clear ho hp h
  | ready | gone =>
      rw [stepGo, hp] at h
      cases h
  | rlock j =>
      rw [stepGo, hp] at h
      obtain ⟨-, rfl⟩ := onObject_eq h
      split
      · exact hs
      · exact hs.unconcerned hp rfl rfl rfl rfl rfl rfl rfl fun _ => trivial
  | rinc j | rback j | grabInc =>
      rw [stepGo, hp] at h
      obtain ⟨-, rfl⟩ := onObject_eq h
      exact hs.unconcerned hp rfl rfl rfl rfl rfl rfl rfl fun _ => trivial
  | rcheck j =>
      rw [stepGo, hp] at h
      obtain ⟨-, rfl⟩ := onObject_eq h
      split
      · exact hs.unconcerned hp rfl rfl rfl rfl rfl rfl rfl fun _ => trivial
      · cases j <;>
          exact hs.unconcerned hp rfl rfl rfl rfl rfl rfl rfl fun _ => trivial
  | grabUnlock ref =>
      rw [stepGo, hp] at h
      simp only at h
      split at h
      · cases h
      · split at h
        · cases h
        · cases h
          exact hs.unconcerned hp rfl rfl rfl rfl rfl rfl rfl fun _ => trivial
  | load seen =>
      rw [stepGo, hp] at h
      obtain ⟨-, rfl⟩ := onObject_eq h
      cases hcopy : s.copy with
      | none | some c =>
          exact hs.unconcerned hp rfl rfl rfl rfl rfl rfl rfl fun _ => trivial
  | use c =>
      rw [stepGo, hp] at h
      simp only at h
      split at h
      · cases h
      · cases h
        exact hs.unconcerned hp rfl rfl rfl rfl rfl rfl rfl fun _ => trivial
  | readerDec | writerDec =>
      rw [stepGo, hp] at h
      obtain ⟨-, rfl⟩ := onObject_eq h
      split <;>
        exact hs.unconcerned hp rfl rfl rfl rfl rfl rfl rfl fun _ => trivial
  | readerFree =>
      rw [stepGo, hp] at h
      simp only at h
      split at h
      · cases h
      · split at h
        · cases h
        · cases h
          exact hs.afterRelease ho hp rfl rfl rfl rfl rfl rfl rfl rfl
  | readerUnlock =>
      rw [stepGo, hp] at h
      obtain ⟨-, rfl⟩ := onObject_eq h
      exact hs.afterRelease ho hp rfl rfl rfl rfl rfl rfl rfl rfl
  | wlock j | wwait j =>
      rw [stepGo, hp] at h
      obtain ⟨-, rfl⟩ := onObject_eq h
      split
      · exact hs
      · cases j <;>
          exact hs.unconcerned hp rfl rfl rfl rfl rfl rfl rfl fun _ => trivial
  | updateUnlock old =>
      rw [stepGo, hp] at h
      obtain ⟨-, rfl⟩ := onObject_eq h
      exact hs.unconcerned hp rfl rfl rfl rfl
        (Pos.holding_releasecopy _ _) (Pos.condemned_releasecopy _ _)
        (Pos.dropped_releasecopy _ _) fun _ => Pos.keeps_releasecopy trivial
  | writerUnlock | writerFree =>
      obtain rfl := ho.eq_none hp rfl
      rw [stepGo, hp] at h
      obtain ⟨-, rfl⟩ := onObject_eq h
      exact hs.stay hp rfl rfl rfl rfl rfl rfl rfl hs.boxless

/-- A new copy belongs to the call of `stm_update`. -/
theorem CopiesSound.newcopy
    (hp : (s.agent none).pos = .ready) :
    (State.goto
      { s with
        copies := update s.copies s.allocated { reference := 1 }
        allocated := s.allocated + 1 }
      none (.wlock (.update s.allocated))).CopiesSound := by
  obtain ⟨s₁, hs₁⟩ : ∃ s₁ : State τ, s₁ =
      { s with
        copies := update s.copies s.allocated { reference := 1 }
        allocated := s.allocated + 1 } := ⟨_, rfl⟩
  have hagent : s₁.agent = s.agent := by rw [hs₁]
  have hheld : (s₁.goto none (.wlock (.update s.allocated))).held = s.held :=
    held_goto hagent (by rw [hs₁]) (by rw [hp]; rfl)
  rw [← hs₁]
  refine hs.become hagent trivial (fun _ => hagent ▸ hs.boxless) fun c => ?_
  have howners := owners_goto (s := s) (r := s₁) (t := none)
    (q := .wlock (.update s.allocated)) hagent c
  have htotal := condemned_goto (s := s) (r := s₁) (t := none)
    (q := .wlock (.update s.allocated)) hagent c
  rw [hheld, hp] at howners
  rw [hp] at htotal
  change Fair s₁.allocated c (s₁.copies c)
    ((s₁.goto none (.wlock (.update s.allocated))).owners c)
    ((s₁.goto none (.wlock (.update s.allocated))).condemned c)
  change _ = s.owners c + _ + hits c (some s.allocated) at howners
  change _ + 0 = _ + 0 at htotal
  change _ + _ + 0 = _ at howners
  have hfair := hs.fair c
  by_cases hc : c = s.allocated
  · subst hc
    obtain ⟨hzero, hfreed⟩ := hfair.fresh (Nat.le_refl _)
    obtain ⟨href, hf⟩ := hfair.alive hfreed
    rw [if_neg fun h => Nat.lt_irrefl _ h.1] at hf
    rw [hits_self] at howners
    rw [show (s₁.goto none (.wlock (.update s.allocated))).owners
        s.allocated = 1 by omega,
      show (s₁.goto none (.wlock (.update s.allocated))).condemned
        s.allocated = 0 by omega,
      show s₁.copies s.allocated = { reference := 1 } by
        rw [hs₁]; exact update_self ..]
    refine ⟨fun _ => ⟨rfl, ?_⟩, fun hd => ?_, fun hge => ?_⟩
    · exact (if_neg fun h => one_ne_zero h.2).symm
    · cases hd
    · rw [hs₁] at hge
      exact absurd hge (Nat.not_succ_le_self _)
  · rw [hits_of_ne hc] at howners
    rw [show (s₁.goto none (.wlock (.update s.allocated))).owners c =
        s.owners c by omega,
      show (s₁.goto none (.wlock (.update s.allocated))).condemned c =
        s.condemned c by omega,
      show s₁.copies c = s.copies c by rw [hs₁]; exact update_of_ne hc ..,
      show s₁.allocated = s.allocated + 1 by rw [hs₁]]
    exact hfair.allocate hc

theorem CopiesSound.call
    {api : Api} (hp : (s.agent t).pos = .ready)
    (h : s.stepCall t api = .next s') : s'.CopiesSound := by
  cases api with
  | update =>
      cases t with
      | none =>
          cases h
          exact hs.newcopy hp
      | some i => cases h
  | release =>
      cases t with
      | none =>
          simp only [stepCall] at h
          split at h
          · cases h
          · split at h
            · cases h
            · cases h
              exact hs.unconcerned hp rfl rfl rfl rfl rfl rfl rfl
                fun _ => trivial
      | some i => cases h
  | grab =>
      cases t <;> cases h <;>
        exact hs.unconcerned hp rfl rfl rfl rfl rfl rfl rfl fun _ => trivial
  | read | delete =>
      cases t with
      | none => cases h
      | some i =>
          cases h
          exact hs.unconcerned hp rfl rfl rfl rfl rfl rfl rfl fun _ => trivial
  | box => cases t <;> cases h

theorem CopiesSound.box
    {a : Act} (hp : (s.agent t).pos = .gone) (h : s.stepBox t a = .next s') :
    s'.CopiesSound := by
  have hlast : (s.agent t).last = none := by
    have hkeeps := hs.keeps t
    rw [hp] at hkeeps
    exact hkeeps
  cases t with
  | none => cases h
  | some i =>
      simp only [stepBox] at h
      split at h
      · cases h
        have hheld : (State.become { s with passed := s.passed - 1 } (some i)
            ⟨.ready, none⟩).held = s.held :=
          held_become rfl rfl (by rw [hp]; rfl)
        refine hs.pass rfl rfl rfl (fun c => ?_) (by rw [hp]; rfl) trivial
          fun _ => rfl
        rw [hheld, Agent.owned, Agent.owned, hp, hlast]
        rfl
      · cases h

end Positions

theorem CopiesSound.step
    {s' : State τ} {l : Option τ × Act} (hs : s.CopiesSound)
    (ho : s.ObjectSound) (h : s.step l = .next s') : s'.CopiesSound := by
  obtain ⟨t, a⟩ := l
  rw [State.step] at h
  split at h
  · rename_i hp _
    exact hs.call hp h
  · rename_i hp
    exact hs.box hp h
  · exact hs.go ho h
  · cases h

theorem copiesSound_create : (create : State τ).CopiesSound := by
  have howned : ∀ c, Census.total Finset.univ (Agent.owned c)
      (create : State τ).agent = 0 := fun c => total_create _ rfl
  have hcondemned : ∀ c, (create : State τ).condemned c = 0 := fun c =>
    total_create _ rfl
  refine ⟨fun c => ?_, fun t => ?_, rfl⟩
  · rw [hcondemned, owners, howned]
    change Fair 1 c (if c = 0 then { reference := 1 } else {})
      (hits c (some 0) + 0) 0
    by_cases hc : c = 0
    · rw [if_pos hc, hc]
      refine ⟨fun _ => ⟨rfl, ?_⟩, fun hd => ?_, fun hge => by omega⟩
      · exact (if_neg fun h => one_ne_zero h.2).symm
      · cases hd
    · rw [if_neg hc, hits_of_ne hc]
      refine ⟨fun _ => ⟨rfl, ?_⟩, fun hd => ?_, fun _ => ⟨rfl, rfl⟩⟩
      · exact (if_neg fun h => by omega).symm
      · cases hd
  · cases t with
    | none => trivial
    | some i => rfl

end Steps

end State

end SkynetServer.Stm
