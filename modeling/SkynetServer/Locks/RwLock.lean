import SkynetServer.Support.Census
import SkynetServer.Support.Transition

/-!
# The read-write lock

The functions of `rwlock.h` without `USE_PTHREAD_LOCK`, called by any number of
threads.  A step is one access to `lock->write` or `lock->read`.

A writer may only go on when it finds that `lock->read` is zero, and the counter
has 32 bits.  It excludes the readers as long as the counter does not wrap
around, that is, up to exactly `2 ^ 32` threads.
-/

namespace SkynetServer.RwLock

open Transition Function

/-- Where a thread is. -/
inductive Pos where
  | outside
  /-- `rwlock_rlock` in the loop on `lock->write`. -/
  | rtest
  /-- `rwlock_rlock` before `lock->read` is increased. -/
  | rinc
  /-- `rwlock_rlock` before the second test of `lock->write`. -/
  | rcheck
  /-- `rwlock_rlock` before `lock->read` is decreased. -/
  | rback
  | reading
  /-- `rwlock_wlock` in the loop on `lock->write`. -/
  | wset
  /-- `rwlock_wlock` in the loop on `lock->read`. -/
  | wdrain
  | writing
  deriving DecidableEq, Repr

/-- `struct rwlock` and the threads -/
structure State (τ : Type*) where
  write : BitVec 32
  read : BitVec 32
  pos : τ → Pos

/-- A thread outside calls a function, any other one goes on; a thread that has
the lock goes on with its release. -/
inductive Act where
  | rlock
  | wlock
  | go
  deriving DecidableEq, Repr

variable {τ : Type*}

/-- `rwlock_init` -/
def init : State τ := ⟨0, 0, fun _ => .outside⟩

variable [DecidableEq τ]

def State.goto (s : State τ) (t : τ) (p : Pos) : State τ :=
  { s with pos := update s.pos t p }

def go (s : State τ) (t : τ) : Outcome Empty (State τ) :=
  match s.pos t with
  | .outside => .blocked
  | .rtest => .next (s.goto t (if s.write ≠ 0 then .rtest else .rinc))
  | .rinc => .next ({ s with read := s.read + 1 }.goto t .rcheck)
  | .rcheck => .next (s.goto t (if s.write ≠ 0 then .rback else .reading))
  | .rback => .next ({ s with read := s.read - 1 }.goto t .rtest)
  -- `rwlock_runlock`
  | .reading => .next ({ s with read := s.read - 1 }.goto t .outside)
  | .wset =>
    .next
      ({ s with write := 1 }.goto t (if s.write ≠ 0 then .wset else .wdrain))
  | .wdrain => .next (s.goto t (if s.read ≠ 0 then .wdrain else .writing))
  -- `rwlock_wunlock`
  | .writing => .next ({ s with write := 0 }.goto t .outside)

def step (s : State τ) : τ × Act → Outcome Empty (State τ)
  | (t, .rlock) =>
    if s.pos t = .outside then .next (s.goto t .rtest) else .blocked
  | (t, .wlock) =>
    if s.pos t = .outside then .next (s.goto t .wset) else .blocked
  | (t, .go) => go s t

/-! ## Moves -/

/-- How one thread moves, and what is in the lock afterwards. -/
inductive Move : Pos → BitVec 32 → BitVec 32 →
    Pos → BitVec 32 → BitVec 32 → Prop
  | rlock {w r} : Move .outside w r .rtest w r
  | wlock {w r} : Move .outside w r .wset w r
  | spin {w r} : w ≠ 0 → Move .rtest w r .rtest w r
  | clear {w r} : w = 0 → Move .rtest w r .rinc w r
  | increase {w r} : Move .rinc w r .rcheck w (r + 1)
  | refused {w r} : w ≠ 0 → Move .rcheck w r .rback w r
  | granted {w r} : w = 0 → Move .rcheck w r .reading w r
  | decrease {w r} : Move .rback w r .rtest w (r - 1)
  | runlock {w r} : Move .reading w r .outside w (r - 1)
  | taken {w r} : w ≠ 0 → Move .wset w r .wset 1 r
  | set {w r} : w = 0 → Move .wset w r .wdrain 1 r
  | wait {w r} : r ≠ 0 → Move .wdrain w r .wdrain w r
  | drained {w r} : r = 0 → Move .wdrain w r .writing w r
  | wunlock {w r} : Move .writing w r .outside 0 r

section Moves

variable {s s' : State τ} {t : τ}

theorem step_cases
    {a : Act} (h : step s (t, a) = .next s') :
    ∃ q, Move (s.pos t) s.write s.read q s'.write s'.read ∧
      s'.pos = update s.pos t q := by
  cases a with
  | rlock =>
      rw [step] at h
      split at h
      · rename_i hpos
        cases h
        exact ⟨.rtest, hpos ▸ .rlock, rfl⟩
      · cases h
  | wlock =>
      rw [step] at h
      split at h
      · rename_i hpos
        cases h
        exact ⟨.wset, hpos ▸ .wlock, rfl⟩
      · cases h
  | go =>
      rw [step, go] at h
      generalize hpos : s.pos t = p at h
      cases p with
      | outside => cases h
      | rtest =>
          cases h
          refine ⟨_, ?_, rfl⟩
          split
          · rename_i hw
            exact .spin hw
          · rename_i hw
            exact .clear (not_not.mp hw)
      | rinc =>
          cases h
          exact ⟨_, .increase, rfl⟩
      | rcheck =>
          cases h
          refine ⟨_, ?_, rfl⟩
          split
          · rename_i hw
            exact .refused hw
          · rename_i hw
            exact .granted (not_not.mp hw)
      | rback =>
          cases h
          exact ⟨_, .decrease, rfl⟩
      | reading =>
          cases h
          exact ⟨_, .runlock, rfl⟩
      | wset =>
          cases h
          refine ⟨_, ?_, rfl⟩
          split
          · rename_i hw
            exact .taken hw
          · rename_i hw
            exact .set (not_not.mp hw)
      | wdrain =>
          cases h
          refine ⟨_, ?_, rfl⟩
          split
          · rename_i hr
            exact .wait hr
          · rename_i hr
            exact .drained (not_not.mp hr)
      | writing =>
          cases h
          exact ⟨_, .wunlock, rfl⟩

/-- Every move is a step. -/
theorem step_of_move
    {q : Pos} {w r : BitVec 32} (h : Move (s.pos t) s.write s.read q w r) :
    ∃ a, step s (t, a) = .next ⟨w, r, update s.pos t q⟩ := by
  generalize hpos : s.pos t = p at h
  generalize hwrite : s.write = w₀ at h
  generalize hread : s.read = r₀ at h
  cases h with
  | rlock => exact ⟨.rlock, by simp [step, hpos, State.goto, hwrite, hread]⟩
  | wlock => exact ⟨.wlock, by simp [step, hpos, State.goto, hwrite, hread]⟩
  | spin hw | refused hw | taken hw =>
      exact ⟨.go, by
        simp only [step, go, hpos, State.goto, hwrite, hread, if_pos hw]⟩
  | clear hw | granted hw | set hw =>
      exact ⟨.go, by simp [step, go, hpos, State.goto, hwrite, hread, hw]⟩
  | increase | decrease | runlock =>
      exact ⟨.go, by simp [step, go, hpos, State.goto, hwrite, hread]⟩
  | wait hr =>
      exact ⟨.go, by
        simp only [step, go, hpos, State.goto, hwrite, hread, if_pos hr]⟩
  | drained hr =>
      exact ⟨.go, by simp [step, go, hpos, State.goto, hwrite, hread, hr]⟩
  | wunlock => exact ⟨.go, by simp [step, go, hpos, State.goto, hread]⟩

/-- Moves of one thread, while the others stand. -/
inductive Alone : Pos → BitVec 32 → BitVec 32 →
    Pos → BitVec 32 → BitVec 32 → Prop
  | refl {p w r} : Alone p w r p w r
  | head {p w r q w' r' q' w'' r''} :
      Move p w r q w' r' → Alone q w' r' q' w'' r'' → Alone p w r q' w'' r''

theorem reaches_alone
    {p q : Pos} {w r : BitVec 32} (hp : s.pos t = p)
    (h : Alone p s.write s.read q w r) :
    Reaches step anyStep s ⟨w, r, update s.pos t q⟩ := by
  generalize hw₀ : s.write = w₀ at h
  generalize hr₀ : s.read = r₀ at h
  induction h generalizing s with
  | refl =>
      subst hp hw₀ hr₀
      rw [update_eq_self]
      exact .refl
  | @head p w r q w' r' q' w'' r'' hmove _ ih =>
      subst hp hw₀ hr₀
      obtain ⟨a, ha⟩ := step_of_move hmove
      have hrest := @ih ⟨w', r', update s.pos t q⟩ (update_self t q s.pos) rfl
        rfl
      dsimp only at hrest
      rw [update_idem] at hrest
      exact Reaches.trans (.tail (t, a) .refl trivial ha) hrest

end Moves

/-! ## The counter and the flag -/

/-- The threads that `lock->read` counts. -/
def Pos.counted : Pos → ℕ
  | .rcheck => 1
  | .rback => 1
  | .reading => 1
  | _ => 0

/-- The thread that `lock->write` was set by. -/
def Pos.owns : Pos → Bool
  | .wdrain => true
  | .writing => true
  | _ => false

theorem Pos.counted_le (p : Pos) : p.counted ≤ 1 := by
  cases p with
  | rcheck | rback | reading => exact Nat.le_refl 1
  | outside | rtest | rinc | wset | wdrain | writing => exact Nat.zero_le 1

section Moves

variable {p q : Pos} {w r w' r' : BitVec 32}

theorem Move.read_eq (h : Move p w r q w' r') :
    r' + BitVec.ofNat 32 p.counted = r + BitVec.ofNat 32 q.counted := by
  cases h with
  | decrease | runlock =>
      exact (BitVec.sub_add_cancel r 1).trans (BitVec.add_zero r).symm
  | increase => exact BitVec.add_zero _
  | rlock | wlock | spin _ | clear _ | refused _ | granted _ | taken _
  | set _ | wait _ | drained _ | wunlock => rfl

/-- The flag is set when it is not, and it is only cleared by its owner. -/
theorem Move.flag_cases (h : Move p w r q w' r') :
    (q.owns = p.owns ∧ (w' = 0 ↔ w = 0)) ∨
      (p.owns = false ∧ q.owns = true ∧ w = 0 ∧ w' ≠ 0) ∨
      (p.owns = true ∧ q.owns = false ∧ w' = 0) := by
  cases h with
  | set hw => exact .inr (.inl ⟨rfl, rfl, hw, by decide⟩)
  | taken hw =>
      exact .inl ⟨rfl, fun h => absurd h (by decide), fun h => absurd h hw⟩
  | wunlock => exact .inr (.inr ⟨rfl, rfl, rfl⟩)
  | rlock | wlock | spin _ | clear _ | increase | refused _ | granted _
  | decrease | runlock | wait _ | drained _ => exact .inl ⟨rfl, Iff.rfl⟩

theorem Move.of_writing (h : Move p w r .writing w' r') :
    p = .wdrain ∧ r = 0 := by
  cases h with
  | drained hr => exact ⟨rfl, hr⟩

theorem Move.of_reading (h : Move p w r .reading w' r') : w = 0 := by
  cases h with
  | granted hw => exact hw

end Moves

section Invariant

variable [Fintype τ] {s s' : State τ} {t : τ}

/-- The threads that are counted. -/
def State.counted (s : State τ) : ℕ :=
  Census.total Finset.univ Pos.counted s.pos

structure Inv (s : State τ) : Prop where
  count : s.read = BitVec.ofNat 32 s.counted
  owner : ∀ t u, (s.pos t).owns = true → (s.pos u).owns = true → t = u
  flag : s.write = 0 ↔ ∀ t, (s.pos t).owns = false

omit [DecidableEq τ] in
theorem inv_init : Inv (init : State τ) where
  count := by
    have hzero : State.counted (init : State τ) = 0 :=
      Census.total_eq_zero fun _ _ => rfl
    rw [hzero]
    rfl
  owner _ _ h := by cases h
  flag := ⟨fun _ _ => rfl, fun _ => rfl⟩

theorem Inv.step {a : Act} (h : Inv s) (hs : step s (t, a) = .next s') :
    Inv s' := by
  obtain ⟨q, hmove, hpos⟩ := step_cases hs
  have hother : ∀ u, u ≠ t → s'.pos u = s.pos u := fun u hu => by
    rw [hpos, update_of_ne hu]
  have hself : s'.pos t = q := by rw [hpos, update_self]
  have hcount : s'.read = BitVec.ofNat 32 s'.counted := by
    have htotal := Census.total_update Pos.counted s.pos (Finset.mem_univ t) q
    rw [← hpos] at htotal
    have hsum : s.counted + q.counted = s'.counted + (s.pos t).counted :=
      htotal.symm
    have hread := hmove.read_eq
    rw [h.count, ← BitVec.ofNat_add, hsum, BitVec.ofNat_add] at hread
    exact (BitVec.add_left_inj _).mp hread
  rcases hmove.flag_cases with
    ⟨howns, hflag⟩ | ⟨hp, hq, hzero, hset⟩ | ⟨hp, hq, hzero⟩
  · have hsame : ∀ u, (s'.pos u).owns = (s.pos u).owns := fun u => by
      by_cases hu : u = t
      · rw [hu, hself, howns]
      · rw [hother u hu]
    refine ⟨hcount, fun u v hu hv => ?_, ?_⟩
    · rw [hsame] at hu hv
      exact h.owner u v hu hv
    · rw [hflag, h.flag]
      exact forall_congr' fun u => by rw [hsame]
  · have hnone := h.flag.mp hzero
    have honly : ∀ u, (s'.pos u).owns = true → u = t := fun u hu => by
      by_contra hne
      rw [hother u hne, hnone u] at hu
      cases hu
    refine ⟨hcount, fun u v hu hv => (honly u hu).trans (honly v hv).symm,
      fun hw => absurd hw hset, fun hall => ?_⟩
    have howns := hall t
    rw [hself, hq] at howns
    cases howns
  · have hnone : ∀ u, (s'.pos u).owns = false := fun u => by
      by_cases hu : u = t
      · rw [hu, hself, hq]
      · rw [hother u hu]
        cases howns : (s.pos u).owns with
        | false => rfl
        | true => exact absurd (h.owner u t howns hp) hu
    refine ⟨hcount, fun u v hu => ?_, fun _ => hnone, fun _ => hzero⟩
    rw [hnone u] at hu
    cases hu

theorem inv_reaches (h : Reaches step anyStep init s) : Inv s :=
  h.invariant Inv inv_init fun _ l _ hs _ hstep => Inv.step (t := l.1) hs hstep

/-! ## Exclusion -/

/-- A writer is alone. -/
def Exclusive (s : State τ) : Prop :=
  ∀ t u, s.pos t = .writing → s.pos u = .writing ∨ s.pos u = .reading → t = u

omit [DecidableEq τ] in
/-- A thread that is not counted leaves room in the counter. -/
theorem State.counted_lt (ht : (s.pos t).counted = 0) :
    s.counted < Fintype.card τ :=
  Census.total_lt_card (fun u _ => (s.pos u).counted_le) (Finset.mem_univ t) ht

omit [DecidableEq τ] in
theorem State.not_reading_of_counted (h : s.counted = 0) (u : τ) :
    (s.pos u).counted = 0 := by
  have hle : (s.pos u).counted ≤ s.counted :=
    Census.le_total (Finset.mem_univ u)
  omega

/-- One step keeps readers and the writer apart. -/
theorem apart_step
    {a : Act} (hcard : Fintype.card τ ≤ 0x100000000) (h : Inv s)
    (hapart : ∀ t u, s.pos t = .writing → s.pos u ≠ .reading)
    (hs : step s (t, a) = .next s') (u v : τ) (hu : s'.pos u = .writing) :
    s'.pos v ≠ .reading := by
  obtain ⟨q, hmove, hpos⟩ := step_cases hs
  have hother : ∀ u, u ≠ t → s'.pos u = s.pos u := fun u hu => by
    rw [hpos, update_of_ne hu]
  have hself : s'.pos t = q := by rw [hpos, update_self]
  intro hv
  by_cases hut : u = t
  · rw [hut, hself] at hu
    subst hu
    obtain ⟨hdrain, hread⟩ := hmove.of_writing
    have hlt := State.counted_lt (s := s) (t := t) (by rw [hdrain]; rfl)
    have hnat := congrArg BitVec.toNat (h.count.symm.trans hread)
    rw [BitVec.toNat_ofNat, Nat.mod_eq_of_lt (by omega)] at hnat
    by_cases hvt : v = t
    · rw [hvt, hself] at hv
      cases hv
    · rw [hother v hvt] at hv
      have hcounted := State.not_reading_of_counted (s := s) hnat v
      rw [hv] at hcounted
      cases hcounted
  · rw [hother u hut] at hu
    by_cases hvt : v = t
    · rw [hvt, hself] at hv
      subst hv
      have hflag := h.flag.mp hmove.of_reading u
      rw [hu] at hflag
      cases hflag
    · rw [hother v hvt] at hv
      exact hapart u v hu hv

theorem exclusive_of_card
    (hcard : Fintype.card τ ≤ 0x100000000)
    (h : Reaches step anyStep init s) : Exclusive s := by
  have hboth : Inv s ∧ ∀ t u, s.pos t = .writing → s.pos u ≠ .reading :=
    h.invariant (fun s => Inv s ∧
        ∀ t u, s.pos t = .writing → s.pos u ≠ .reading)
      ⟨inv_init, fun _ _ h => (by cases h)⟩
      fun _ l _ hs _ hstep => ⟨Inv.step (t := l.1) hs.1 hstep,
        apart_step (t := l.1) hcard hs.1 hs.2 hstep⟩
  rintro t u ht (hu | hu)
  · exact hboth.1.owner t u (by rw [ht]; rfl) (by rw [hu]; rfl)
  · exact absurd hu (hboth.2 t u ht)

/-- The threads of `R` are reading. -/
def readers (R : Finset τ) : State τ :=
  ⟨0, BitVec.ofNat 32 R.card, fun t => if t ∈ R then .reading else .outside⟩

omit [Fintype τ] in
/-- Any threads can be readers at the same time. -/
theorem reaches_readers (R : Finset τ) :
    Reaches step anyStep init (readers R) := by
  induction R using Finset.induction_on with
  | empty => exact .refl
  | insert t R ht ih =>
      refine ih.trans ?_
      have hrun : Alone .outside 0 (BitVec.ofNat 32 R.card) .reading 0
          (BitVec.ofNat 32 R.card + 1) :=
        .head .rlock (.head (.clear rfl) (.head .increase
          (.head (.granted rfl) .refl)))
      have hreach := reaches_alone (s := readers R) (t := t) (if_neg ht) hrun
      have hpos : update (readers R).pos t .reading =
          (readers (insert t R)).pos := by
        funext u
        by_cases hu : u = t
        · rw [hu, update_self]
          exact (if_pos (Finset.mem_insert_self t R)).symm
        · rw [update_of_ne hu]
          exact if_congr (by rw [Finset.mem_insert, or_iff_right hu]) rfl rfl
      have hread : BitVec.ofNat 32 (insert t R).card =
          BitVec.ofNat 32 R.card + 1 :=
        (congrArg (BitVec.ofNat 32) (Finset.card_insert_of_notMem ht)).trans
          (BitVec.ofNat_add R.card 1)
      rw [hpos, ← hread] at hreach
      exact hreach

/-- A writer is alone in every run of any threads, if and only if there are no
more of them than the counter can count. -/
theorem exclusive_iff :
    (∀ s : State τ, Reaches step anyStep init s → Exclusive s) ↔
      Fintype.card τ ≤ 0x100000000 := by
  constructor
  · intro hall
    by_contra hcard
    obtain ⟨R, -, hR⟩ := Finset.exists_subset_card_eq
      (s := (Finset.univ : Finset τ)) (n := 0x100000000)
      (by rw [Finset.card_univ]; omega)
    obtain ⟨t, ht⟩ : ∃ t, t ∉ R := by
      by_contra hnone
      have huniv := Finset.eq_univ_of_forall fun t => not_not.mp fun ht =>
        hnone ⟨t, ht⟩
      rw [huniv, Finset.card_univ] at hR
      omega
    obtain ⟨u, hu⟩ : ∃ u, u ∈ R := by
      refine Finset.card_pos.mp ?_
      rw [hR]
      exact Nat.succ_pos _
    -- the counter has wrapped around to zero
    have hzero : (readers R).read = 0 := by
      rw [readers, hR]
      rfl
    have hrun : Alone .outside 0 (readers R).read .writing 1
        (readers R).read :=
      .head .wlock (.head (.set rfl) (.head (.drained hzero) .refl))
    have hwriting := (reaches_readers R).trans
      (reaches_alone (t := t) (if_neg ht) hrun)
    have hne : u ≠ t := fun h => ht (h ▸ hu)
    have hureads : update (readers R).pos t .writing u = .reading := by
      rw [update_of_ne hne]
      exact if_pos hu
    exact hne (hall _ hwriting t u (update_self ..) (.inr hureads)).symm
  · exact fun hcard s h => exclusive_of_card hcard h

/-! ## Progress -/

omit [Fintype τ] in
/-- Every thread in turn can be brought to a position. -/
theorem reaches_all
    {I : State τ → Prop} {P : Pos → Prop}
    (hone : ∀ s t, I s → ∃ s', Reaches step anyStep s s' ∧ I s' ∧
      P (s'.pos t) ∧ ∀ u, u ≠ t → s'.pos u = s.pos u)
    (hs : I s) (R : Finset τ) :
    ∃ s', Reaches step anyStep s s' ∧ I s' ∧ ∀ t ∈ R, P (s'.pos t) := by
  induction R using Finset.induction_on with
  | empty => exact ⟨s, .refl, hs, fun t ht => (Finset.notMem_empty t ht).elim⟩
  | insert t R _ ih =>
      obtain ⟨s₁, hreach, hs₁, hall⟩ := ih
      obtain ⟨s₂, hreach₂, hs₂, ht, hother⟩ := hone s₁ t hs₁
      refine ⟨s₂, hreach.trans hreach₂, hs₂, fun u hu => ?_⟩
      by_cases hut : u = t
      · rw [hut]
        exact ht
      · rw [hother u hut]
        exact hall u ((Finset.mem_insert.mp hu).resolve_left hut)

/-- A thread that is counted can leave alone. -/
theorem exists_alone_uncounted (p : Pos) (w r : BitVec 32) :
    ∃ q r', Alone p w r q w r' ∧ q.counted = 0 := by
  cases p with
  | rcheck =>
      by_cases hw : w = 0
      · exact ⟨.outside, _, .head (.granted hw) (.head .runlock .refl), rfl⟩
      · exact ⟨.rtest, _, .head (.refused hw) (.head .decrease .refl), rfl⟩
  | rback => exact ⟨.rtest, _, .head .decrease .refl, rfl⟩
  | reading => exact ⟨.outside, _, .head .runlock .refl, rfl⟩
  | outside => exact ⟨.outside, r, .refl, rfl⟩
  | rtest => exact ⟨.rtest, r, .refl, rfl⟩
  | rinc => exact ⟨.rinc, r, .refl, rfl⟩
  | wset => exact ⟨.wset, r, .refl, rfl⟩
  | wdrain => exact ⟨.wdrain, r, .refl, rfl⟩
  | writing => exact ⟨.writing, r, .refl, rfl⟩

/-- The owner of the flag can leave alone when nobody is counted. -/
theorem alone_of_owns
    {p : Pos} {w r : BitVec 32} (h : p.owns = true) (hr : r = 0) :
    Alone p w r .outside 0 r := by
  cases p with
  | wdrain => exact .head (.drained hr) (.head .wunlock .refl)
  | writing => exact .head .wunlock .refl
  | outside | rtest | rinc | rcheck | rback | reading | wset => cases h

/-- Any other thread can leave alone when the lock is free. -/
theorem alone_of_free
    {p : Pos} {w r : BitVec 32} (hw : w = 0) (hr : r = 0)
    (hcounted : p.counted = 0) (howns : p.owns = false) :
    Alone p w r .outside 0 0 := by
  subst hw hr
  have hread : Alone .rinc 0 0 .outside 0 0 :=
    .head .increase (.head (.granted rfl) (.head .runlock .refl))
  cases p with
  | outside => exact .refl
  | rtest => exact .head (.clear rfl) hread
  | rinc => exact hread
  | wset =>
      exact .head (.set rfl) (.head (.drained rfl) (.head .wunlock .refl))
  | rcheck | rback | reading => cases hcounted
  | wdrain | writing => cases howns

theorem reaches_uncounted
    (h : Reaches step anyStep init s) :
    ∃ s', Reaches step anyStep s s' ∧ s'.read = 0 ∧
      ∀ t, (s'.pos t).counted = 0 := by
  obtain ⟨s', hreach, hs', hall⟩ := reaches_all
    (I := Reaches step anyStep init) (P := fun p => p.counted = 0)
    (fun s t hs => by
      obtain ⟨q, r, halone, hq⟩ :=
        exists_alone_uncounted (s.pos t) s.write s.read
      have hreach := reaches_alone rfl halone
      refine ⟨_, hreach, hs.trans hreach, ?_, fun u hu => update_of_ne hu ..⟩
      dsimp only
      rw [update_self]
      exact hq) h Finset.univ
  refine ⟨s', hreach, ?_, fun t => hall t (Finset.mem_univ t)⟩
  have hzero : s'.counted = 0 :=
    Census.total_eq_zero fun t ht => hall t ht
  rw [(inv_reaches hs').count, hzero]
  rfl

omit [Fintype τ] in
/-- A thread that leaves is not counted. -/
theorem uncounted_update
    {pos : τ → Pos} (h : ∀ u, (pos u).counted = 0) (t u : τ) :
    (update pos t .outside u).counted = 0 := by
  by_cases hu : u = t
  · rw [hu, update_self]
    rfl
  · rw [update_of_ne hu]
    exact h u

/-- From every state in a run all threads can leave. -/
theorem reaches_outside
    (h : Reaches step anyStep init s) :
    ∃ s', Reaches step anyStep s s' ∧ s'.write = 0 ∧ s'.read = 0 ∧
      ∀ t, s'.pos t = .outside := by
  obtain ⟨s₁, hreach₁, hread₁, hcounted₁⟩ := reaches_uncounted h
  -- the flag is cleared by its owner, if it is set
  obtain ⟨s₂, hreach₂, hwrite₂, hread₂, hcounted₂⟩ :
      ∃ s₂, Reaches step anyStep s₁ s₂ ∧ s₂.write = 0 ∧ s₂.read = 0 ∧
        ∀ t, (s₂.pos t).counted = 0 := by
    by_cases hw : s₁.write = 0
    · exact ⟨s₁, .refl, hw, hread₁, hcounted₁⟩
    have hflag := (inv_reaches (h.trans hreach₁)).flag
    obtain ⟨t, ht⟩ := not_forall.mp fun hall => hw (hflag.mpr hall)
    have hreach₂ := reaches_alone rfl
      (alone_of_owns (w := s₁.write) (eq_true_of_ne_false ht) hread₁)
    exact ⟨_, hreach₂, rfl, hread₁, uncounted_update hcounted₁ t⟩
  have hinit := (h.trans hreach₁).trans hreach₂
  obtain ⟨s₃, hreach₃, ⟨-, hwrite₃, hread₃, -⟩, hall⟩ := reaches_all
    (I := fun s => Reaches step anyStep init s ∧ s.write = 0 ∧ s.read = 0 ∧
      ∀ t, (s.pos t).counted = 0) (P := fun p => p = .outside)
    (fun s t ⟨hs, hwrite, hread, hcounted⟩ => by
      have howns := (inv_reaches hs).flag.mp hwrite t
      have hreach := reaches_alone rfl
        (alone_of_free hwrite hread (hcounted t) howns)
      exact ⟨_, hreach,
        ⟨hs.trans hreach, rfl, rfl, uncounted_update hcounted t⟩,
        update_self .., fun u hu => update_of_ne hu ..⟩)
    ⟨hinit, hwrite₂, hread₂, hcounted₂⟩ Finset.univ
  exact ⟨s₃, (hreach₁.trans hreach₂).trans hreach₃, hwrite₃, hread₃,
    fun t => hall t (Finset.mem_univ t)⟩

/-- In every state of every run, the threads can go on so that a given one gets
the lock, for reading and for writing. -/
theorem can_lock
    (h : Reaches step anyStep init s) (t : τ) :
    (∃ s', Reaches step anyStep s s' ∧ s'.pos t = .reading) ∧
      ∃ s', Reaches step anyStep s s' ∧ s'.pos t = .writing := by
  obtain ⟨s', hreach, hwrite, hread, hall⟩ := reaches_outside h
  have hreads : Alone .outside s'.write s'.read .reading s'.write
      (s'.read + 1) :=
    .head .rlock (.head (.clear hwrite) (.head .increase
      (.head (.granted hwrite) .refl)))
  have hwrites : Alone .outside s'.write s'.read .writing 1 s'.read :=
    .head .wlock (.head (.set hwrite) (.head (.drained hread) .refl))
  exact ⟨⟨_, hreach.trans (reaches_alone (hall t) hreads), update_self ..⟩,
    ⟨_, hreach.trans (reaches_alone (hall t) hwrites), update_self ..⟩⟩

/-- A writer has set the flag while a reader is between its two tests. -/
def contended : State Bool :=
  ⟨1, 1, fun t => if t then .wdrain else .rcheck⟩

theorem can_lock_contended :
    Reaches step anyStep init contended ∧
      (∃ s', Reaches step anyStep contended s' ∧ s'.pos false = .reading) ∧
      ∃ s', Reaches step anyStep contended s' ∧ s'.pos false = .writing := by
  have hread : Reaches step anyStep (init : State Bool) _ :=
    reaches_alone (t := false) rfl
      (.head .rlock (.head (.clear rfl) (.head .increase .refl)))
  have hwrite := hread.trans (reaches_alone (t := true) rfl
    (.head .wlock (.head (.set rfl) .refl)))
  have hpos : contended = ⟨1, 0 + 1, update (update (init : State Bool).pos
      false .rcheck) true .wdrain⟩ := by
    refine congrArg (State.mk 1 1) (funext fun t => ?_)
    cases t with
    | false | true => rfl
  have hreach : Reaches step anyStep init contended := hpos ▸ hwrite
  exact ⟨hreach, can_lock hreach false⟩

end Invariant

end SkynetServer.RwLock
