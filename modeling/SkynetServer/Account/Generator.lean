import SkynetServer.Support.Rounding
import SkynetServer.Support.Transition
import Mathlib.Data.List.Nodup

/-!
# The generator of user ids

Any number of `generatord` services share one redis.  Each of them makes its
`CMD.uuid` requests one after the other with `skynet.queue`, but the number is
obtained by two commands, `INCR` and `GET`, and between them another service
may make its `INCR`.
-/

namespace SkynetServer.Generator

open Transition

/-- Where `CMD.uuid` is. -/
inductive Stage where
  /-- Before `dbmgr.incr(rediskey.account_cnt)`. -/
  | incr
  /-- Before `dbmgr.get(rediskey.account_cnt)`. -/
  | get
  deriving DecidableEq, Repr

/-- A service: the request inside the queue `cs`, and those that wait. -/
structure Generatord (ρ : Type*) where
  current : Option (ρ × Stage) := none
  waiting : List ρ := []

/-- `cnt * 4095`.  The `cnt` that `GET` returns is a string, so the product is
that of two floats. -/
def uuid (cnt : ℕ) : ℕ := Rounding.toDouble (Rounding.toDouble cnt * 4095)

/-- The services `ν`, the key `account_cnt` and the answers given to the
requests `ρ` so far. -/
structure State (ν ρ : Type*) where
  accountCnt : ℕ
  node : ν → Generatord ρ
  answers : List (ρ × ℕ)

inductive Label (ν ρ : Type*) where
  /-- A request comes in. -/
  | request (n : ν) (r : ρ)
  /-- The request inside the queue goes on. -/
  | run (n : ν)

variable {ν ρ : Type*}

namespace Generatord

/-- `cs(f)` enters the queue or waits. -/
def enter (g : Generatord ρ) (r : ρ) : Generatord ρ :=
  match g.current with
  | none => { g with current := some (r, .incr) }
  | some _ => { g with waiting := g.waiting ++ [r] }

/-- `xpcall_ret`: the first of the waiting requests is woken up. -/
def leave (g : Generatord ρ) : Generatord ρ :=
  match g.waiting with
  | [] => ⟨none, []⟩
  | r :: rest => ⟨some (r, .incr), rest⟩

/-- A request between its two commands. -/
def reading (g : Generatord ρ) : Bool :=
  match g.current with
  | some (_, .get) => true
  | _ => false

theorem reading_enter (g : Generatord ρ) (r : ρ) :
    (g.enter r).reading = g.reading := by
  cases hcurrent : g.current with
  | none | some c => simp [enter, reading, hcurrent]

theorem reading_leave (g : Generatord ρ) : g.leave.reading = false := by
  unfold leave
  split <;> rfl

end Generatord

namespace State

/-- The services start with any count in redis. -/
def start (cnt : ℕ) : State ν ρ := ⟨cnt, fun _ => {}, []⟩

variable [DecidableEq ν]

def setNode (s : State ν ρ) (n : ν) (g : Generatord ρ) : State ν ρ :=
  { s with node := Function.update s.node n g }

def step (s : State ν ρ) : Label ν ρ → Outcome Empty (State ν ρ)
  | .request n r => .next (s.setNode n ((s.node n).enter r))
  | .run n =>
    match (s.node n).current with
    | none => .blocked
    | some (r, .incr) =>
      .next (State.setNode { s with accountCnt := s.accountCnt + 1 } n
        { s.node n with current := some (r, .get) })
    | some (r, .get) =>
      .next (State.setNode
        { s with answers := s.answers ++ [(r, uuid s.accountCnt)] } n
        (s.node n).leave)

/-- No `INCR` is made while another service is between its `INCR` and its
`GET`, nor when the product is out of the range in which floats keep different
counts apart. -/
def Spaced (s : State ν ρ) (l : Label ν ρ) : Prop :=
  ∀ n r, l = .run n → (s.node n).current = some (r, .incr) →
    (∀ m, (s.node m).reading = false) ∧ (s.accountCnt + 1) * 4095 < 2 ^ 64

/-- The ids are those of the counts `cs`, all of them different and below the
count that a service may be about to read. -/
structure Spread (s : State ν ρ) (cs : List ℕ) : Prop where
  answers : s.answers.map Prod.snd = cs.map uuid
  nodup : cs.Nodup
  le : ∀ c ∈ cs, c ≤ s.accountCnt
  lt : ∀ n, (s.node n).reading = true → ∀ c ∈ cs, c < s.accountCnt
  alone : ∀ n m, (s.node n).reading = true → (s.node m).reading = true → m = n
  bound : ∀ n, (s.node n).reading = true → s.accountCnt * 4095 < 2 ^ 64
  bounded : ∀ c ∈ cs, c * 4095 < 2 ^ 64

end State

/-- Different counts give different ids. -/
theorem uuid_ne
    {c d : ℕ} (h : c < d) (hd : d * 4095 < 2 ^ 64) : uuid c ≠ uuid d := by
  have hd53 : d < 2 ^ 53 := by omega
  have hc53 : c < 2 ^ 53 := h.trans hd53
  have hfar : c * 4095 + 2 ^ 11 < d * 4095 := by
    have hsucc : (c + 1) * 4095 ≤ d * 4095 := Nat.mul_le_mul_right 4095 h
    linarith
  unfold uuid
  rw [Rounding.toDouble_of_lt hc53, Rounding.toDouble_of_lt hd53]
  exact Rounding.toDouble_ne hd hfar

theorem uuid_injOn
    {c d : ℕ} (hc : c * 4095 < 2 ^ 64) (hd : d * 4095 < 2 ^ 64)
    (h : uuid c = uuid d) : c = d := by
  rcases Nat.lt_trichotomy c d with hlt | heq | hgt
  · exact absurd h (uuid_ne hlt hd)
  · exact heq
  · exact absurd h.symm (uuid_ne hgt hc)

namespace State

variable [DecidableEq ν] {s s' : State ν ρ} {cs : List ℕ}

omit [DecidableEq ν] in
theorem spread_start (cnt : ℕ) : (start cnt : State ν ρ).Spread [] := by
  refine ⟨rfl, List.nodup_nil, ?_, ?_, ?_, ?_, ?_⟩
  · intro c hc
    cases hc
  · intro n hn
    cases hn
  · intro n m hn
    cases hn
  · intro n hn
    cases hn
  · intro c hc
    cases hc

/-- A step that neither reads nor counts. -/
theorem Spread.request
    (h : s.Spread cs) (n : ν) (r : ρ) :
    (s.setNode n ((s.node n).enter r)).Spread cs := by
  have hreading (m : ν) :
      ((s.setNode n ((s.node n).enter r)).node m).reading =
        (s.node m).reading := by
    by_cases hm : m = n
    · subst hm
      simp only [setNode, Function.update_self]
      exact Generatord.reading_enter _ r
    · simp only [setNode, Function.update_of_ne hm]
  refine ⟨h.answers, h.nodup, h.le, ?_, ?_, ?_, h.bounded⟩
  · intro m hm
    exact h.lt m (hreading m ▸ hm)
  · intro m m' hm hm'
    exact h.alone m m' (hreading m ▸ hm) (hreading m' ▸ hm')
  · intro m hm
    exact h.bound m (hreading m ▸ hm)

theorem Spread.incr
    (h : s.Spread cs) (n : ν) (r : ρ) (hquiet : ∀ m, (s.node m).reading = false)
    (hbound : (s.accountCnt + 1) * 4095 < 2 ^ 64) :
    (State.setNode { s with accountCnt := s.accountCnt + 1 } n
      { s.node n with current := some (r, .get) }).Spread cs := by
  have honly (m : ν)
      (hm : ((State.setNode { s with accountCnt := s.accountCnt + 1 } n
        { s.node n with current := some (r, .get) }).node m).reading = true) :
      m = n := by
    by_contra hne
    simp only [setNode, Function.update_of_ne hne] at hm
    rw [hquiet m] at hm
    cases hm
  refine ⟨h.answers, h.nodup, ?_, ?_, ?_, ?_, h.bounded⟩
  · intro c hc
    exact Nat.le_succ_of_le (h.le c hc)
  · intro m _ c hc
    exact Nat.lt_succ_of_le (h.le c hc)
  · intro m m' hm hm'
    rw [honly m hm, honly m' hm']
  · intro m _
    exact hbound

theorem Spread.get
    (h : s.Spread cs) (n : ν) (r : ρ)
    (hn : (s.node n).current = some (r, .get)) :
    (State.setNode
      { s with answers := s.answers ++ [(r, uuid s.accountCnt)] } n
      (s.node n).leave).Spread (cs ++ [s.accountCnt]) := by
  have hreads : (s.node n).reading = true := by
    unfold Generatord.reading
    rw [hn]
  have hquiet (m : ν) :
      ((State.setNode
        { s with answers := s.answers ++ [(r, uuid s.accountCnt)] } n
        (s.node n).leave).node m).reading = false := by
    by_cases hm : m = n
    · simp only [setNode, hm, Function.update_self]
      exact Generatord.reading_leave _
    · simp only [setNode, Function.update_of_ne hm]
      by_contra hr
      exact hm (h.alone n m hreads (Bool.eq_true_of_not_eq_false hr))
  have hnot {P : Prop} {m : ν}
      (hm : ((State.setNode
        { s with answers := s.answers ++ [(r, uuid s.accountCnt)] } n
        (s.node n).leave).node m).reading = true) : P := by
    rw [hquiet m] at hm
    cases hm
  refine ⟨?_, ?_, ?_, ?_, ?_, ?_, ?_⟩
  · simp only [setNode, List.map_append, h.answers, List.map_cons,
      List.map_nil]
  · rw [List.nodup_append]
    refine ⟨h.nodup, List.nodup_singleton _, ?_⟩
    intro c hc d hd
    rw [List.mem_singleton.mp hd]
    exact Nat.ne_of_lt (h.lt n hreads c hc)
  · intro c hc
    rcases List.mem_append.mp hc with hc | hc
    · exact h.le c hc
    · exact Nat.le_of_eq (List.mem_singleton.mp hc)
  · intro m hm
    exact hnot hm
  · intro m _ hm
    exact hnot hm
  · intro m hm
    exact hnot hm
  · intro c hc
    rcases List.mem_append.mp hc with hc | hc
    · exact h.bounded c hc
    · rw [List.mem_singleton.mp hc]
      exact h.bound n hreads

theorem spread_step
    {l : Label ν ρ} (h : ∃ cs, s.Spread cs) (hok : s.Spaced l)
    (hs : s.step l = .next s') : ∃ cs, s'.Spread cs := by
  obtain ⟨cs, h⟩ := h
  cases l with
  | request n r =>
      cases hs
      exact ⟨cs, h.request n r⟩
  | run n =>
      simp only [step] at hs
      split at hs
      · cases hs
      · rename_i r hn
        cases hs
        obtain ⟨hquiet, hbound⟩ := hok n r rfl hn
        exact ⟨cs, h.incr n r hquiet hbound⟩
      · rename_i r hn
        cases hs
        exact ⟨_, h.get n r hn⟩

/-- In every run in which no `INCR` falls between the `INCR` and the `GET` of
another service, all ids returned are different. -/
theorem uuids_distinct
    {cnt : ℕ} (h : Reaches step Spaced (start cnt) s) :
    (s.answers.map Prod.snd).Nodup := by
  obtain ⟨cs, hspread⟩ := h.invariant (fun s => ∃ cs, s.Spread cs)
    ⟨[], spread_start cnt⟩ fun _ _ _ hI hok hs => spread_step hI hok hs
  rw [hspread.answers]
  refine hspread.nodup.map_on ?_
  intro c hc d hd
  exact uuid_injOn (hspread.bounded c hc) (hspread.bounded d hd)

/-! ## Two services -/

/-- Two services, each with one request. -/
def spacedTest (s : State Bool ℕ) : Label Bool ℕ → Bool
  | .request _ _ => true
  | .run n =>
    match (s.node n).current with
    | some (_, .incr) =>
      !(s.node true).reading && !(s.node false).reading && s.accountCnt < 1000
    | _ => true

theorem spaced_of_spacedTest
    (s : State Bool ℕ) (l : Label Bool ℕ) (h : s.spacedTest l = true) :
    s.Spaced l := by
  intro n r hl hn
  subst hl
  simp only [spacedTest, hn, Bool.and_eq_true, Bool.not_eq_true',
    decide_eq_true_eq] at h
  refine ⟨fun m => ?_, ?_⟩
  · cases m
    · exact h.1.2
    · exact h.1.1
  · have hlt := h.2
    omega

/-- The theorem above when the second request comes after the first one. -/
theorem uuids_distinct_one_by_one :
    ∃ s : State Bool ℕ, s.answers = [(0, uuid 1), (1, uuid 2)] ∧
      (s.answers.map Prod.snd).Nodup := by
  refine ⟨_, rfl, uuids_distinct
    (reaches_of_execWhile spaced_of_spacedTest
      (show execWhile step spacedTest (start 0)
        [.request true 0, .run true, .run true, .request false 1, .run false,
          .run false] = .next _ from rfl))⟩

/-- Both services make their `INCR` before the first `GET`: they return the
same id. -/
theorem uuid_returned_twice :
    ∃ s : State Bool ℕ,
      exec step (start 0)
        [.request true 0, .request false 1, .run true, .run false, .run true,
          .run false] = .next s ∧
      s.answers = [(0, uuid 2), (1, uuid 2)] ∧
      ¬ (s.answers.map Prod.snd).Nodup := by
  refine ⟨_, rfl, rfl, ?_⟩
  intro h
  exact (List.nodup_cons.mp h).1 (List.mem_singleton.mpr rfl)

end State

end SkynetServer.Generator
