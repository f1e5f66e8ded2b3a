import SkynetServer.Service.System

/-!
# The batches of a worker

One call of `skynet_context_message_dispatch` dispatches a batch of messages of
one queue.  The worker has a weight, from a table in `skynet_start.c`, which is
to make the batch all of the backlog, a half of it, a quarter or an eighth.

The length of the queue, taken after the first pop, becomes the size of the
batch as it is: the code does not divide it by the weight.  Every weight which
is not negative gives all of the backlog.
-/

namespace SkynetServer.Service

open Handle Transition
open Mq (Message)

/-- The table `weight` of `start` -/
def weightTable : List ℤ :=
  [-1, -1, -1, -1, 0, 0, 0, 0,
    1, 1, 1, 1, 1, 1, 1, 1,
    2, 2, 2, 2, 2, 2, 2, 2,
    3, 3, 3, 3, 3, 3, 3, 3]

/-- `wp[i].weight` -/
def workerWeight (i : ℕ) : ℤ := weightTable.getD i 0

/-- The number of messages that a batch of a queue of `length` messages should
have. -/
def batchSize (weight : ℤ) (length : ℕ) : ℕ :=
  if weight < 0 then 1 else max 1 ((length - 1) >>> weight.toNat)

/-- The message that the activation dispatches in its next step. -/
def Pc.dispatched : Pc → List Message
  | .dispatchMessage _ _ _ _ message => [message]
  | _ => []

/-- The loop of the activation is over. -/
def Pc.loopOver : Pc → Bool
  | .dispatchDone _ _ => true
  | _ => false

namespace State

variable {τ : Type*} [DecidableEq τ]

/-- The steps of the activation until its loop is over, with the messages that
it dispatches, when no other activation takes a step. -/
def batch (weight : τ → ℤ) (t : τ) :
    ℕ → State τ → Option (List Message × State τ)
  | 0, _ => none
  | n + 1, s =>
    if (s.pc t).loopOver then some ([], s)
    else
      match s.step weight (t, .go) with
      | .next s' =>
        (batch weight t n s').map fun r => ((s.pc t).dispatched ++ r.1, r.2)
      | .blocked => none
      | .fault _ => none

/-- The call dispatches these messages. -/
def Dispatches (weight : τ → ℤ) (t : τ) (s : State τ) (ms : List Message) :
    Prop :=
  ∃ n s', s.batch weight t n = some (ms, s')

/-- The worker holds a queue with these messages, and its service is live. -/
def Holding (s : State τ) (t : τ) (l : List Message) : Prop :=
  ∃ q ctx, s.pc t = .dispatch q ∧ (s.mq q).Contents l ∧
    handleGrab s.handle s.storage (s.mq q).handle = some ctx ∧
      (s.cb ctx = true → s.init ctx = true)

section Batch

variable {weight : τ → ℤ} {t : τ} {s s' : State τ}

/-- More steps do not change a batch that is over. -/
theorem batch_mono
    {n : ℕ} {r : List Message × State τ} (h : s.batch weight t n = some r)
    (k : ℕ) : s.batch weight t (n + k) = some r := by
  induction n generalizing s r with
  | zero => cases h
  | succ n ih =>
      rw [Nat.succ_add, batch]
      rw [batch] at h
      split_ifs at h ⊢
      · exact h
      · cases hs : s.step weight (t, .go) with
        | blocked | fault f =>
            rw [hs] at h
            cases h
        | next s' =>
            rw [hs] at h
            obtain ⟨r', hr', heq⟩ := Option.map_eq_some_iff.mp h
            dsimp only
            rw [ih hr', Option.map_some, heq]

/-- A batch is determined by the state. -/
theorem Dispatches.unique
    {ms ms' : List Message} (h : s.Dispatches weight t ms)
    (h' : s.Dispatches weight t ms') : ms = ms' := by
  obtain ⟨n, u, hn⟩ := h
  obtain ⟨n', u', hn'⟩ := h'
  have hsum := batch_mono hn n'
  have hsum' := batch_mono hn' n
  rw [Nat.add_comm, hsum] at hsum'
  cases hsum'
  rfl

variable {ctx : Ctx}

theorem dispatches_done
    {q : Mq} (hpc : s.pc t = .dispatchDone q ctx) :
    s.Dispatches weight t [] := by
  refine ⟨1, s, ?_⟩
  rw [batch, hpc]
  rfl

/-- A step of the activation in its loop. -/
theorem Dispatches.step
    {ms : List Message} (h : s'.Dispatches weight t ms)
    (hs : s.step weight (t, .go) = .next s') (hpc : (s.pc t).loopOver = false) :
    s.Dispatches weight t ((s.pc t).dispatched ++ ms) := by
  obtain ⟨n, u, hn⟩ := h
  refine ⟨n + 1, u, ?_⟩
  rw [batch, hpc, hs]
  dsimp only
  rw [hn]
  rfl

variable {message : Message}

/-- The activation handles a message, and goes on with the rest of its
rounds. -/
theorem dispatches_message
    {q : Mq} {i n : ℕ} {l ms : List Message}
    (hpc : s.pc t = .dispatchMessage q ctx i n message)
    (hcontents : (s.mq q).Contents l)
    (hinit : s.cb ctx = true → s.init ctx = true)
    (hrest : ∀ s' : State τ,
      s'.pc t = (if i + 1 < n then .dispatchPop q ctx (i + 1) n
        else .dispatchDone q ctx) →
      (s'.mq q).Contents l → (s'.cb ctx = true → s'.init ctx = true) →
      s'.Dispatches weight t ms) :
    s.Dispatches weight t (message :: ms) := by
  have hrest' := hrest (State.goto
    { s with mq := Function.update s.mq q (s.mq q).takeOverload.2 } t
    (if i + 1 < n then .dispatchPop q ctx (i + 1) n
      else .dispatchDone q ctx))
    (Function.update_self ..)
    (by
      simp only [State.goto, Function.update_self]
      exact hcontents.takeOverload)
    hinit
  have hok : ¬(s.cb ctx = true ∧ s.init ctx = false) := by
    rintro ⟨hcb, hno⟩
    rw [hinit hcb] at hno
    cases hno
  have hstep := hrest'.step (s := s)
    (by
      simp only [State.step, hpc]
      rw [stepMessage, if_neg hok])
    (by
      rw [hpc]
      rfl)
  rw [hpc] at hstep
  exact hstep

/-- The pop of a round behind the first one, or of a worker with a negative
weight. -/
theorem dispatches_pop
    {q : Mq} {i n : ℕ} {l ms : List Message}
    (hpc : s.pc t = .dispatchPop q ctx i n) (hweight : ¬(i = 0 ∧ weight t ≥ 0))
    (hcontents : (s.mq q).Contents (message :: l))
    (hinit : s.cb ctx = true → s.init ctx = true)
    (hrest : ∀ s' : State τ,
      s'.pc t = (if i + 1 < n then .dispatchPop q ctx (i + 1) n
        else .dispatchDone q ctx) →
      (s'.mq q).Contents l → (s'.cb ctx = true → s'.init ctx = true) →
      s'.Dispatches weight t ms) :
    s.Dispatches weight t (message :: ms) := by
  obtain ⟨mq, hpop, hleft⟩ := hcontents.pop
  have hmessage := dispatches_message
    (s := State.goto { s with mq := Function.update s.mq q mq } t
      (.dispatchMessage q ctx i n message))
    (Function.update_self ..)
    (by
      simp only [State.goto, Function.update_self]
      exact hleft)
    hinit hrest
  have hstep := hmessage.step (s := s)
    (by
      simp only [State.step, hpc]
      rw [stepPop, mqPop, hpop]
      dsimp only [Option.map_some]
      rw [if_neg hweight])
    (by
      rw [hpc]
      rfl)
  rw [hpc] at hstep
  exact hstep

variable {l : List Message}

/-- The rounds behind the first one, and those of a worker with a negative
weight. -/
theorem dispatches_rounds
    {q : Mq} {i n d : ℕ}
    (hpc : s.pc t = .dispatchPop q ctx i n) (hd : n = i + d + 1)
    (hweight : ¬(i = 0 ∧ weight t ≥ 0)) (hlength : d + 1 ≤ l.length)
    (hcontents : (s.mq q).Contents l)
    (hinit : s.cb ctx = true → s.init ctx = true) :
    s.Dispatches weight t (l.take (d + 1)) := by
  induction d generalizing s i l with
  | zero =>
      obtain ⟨message, l, rfl⟩ := List.exists_cons_of_length_pos hlength
      refine dispatches_pop hpc hweight hcontents hinit fun s' hpc' _ _ => ?_
      rw [if_neg (by omega)] at hpc'
      exact dispatches_done hpc'
  | succ d ih =>
      obtain ⟨message, l, rfl⟩ := List.exists_cons_of_length_pos
        (Nat.zero_lt_of_lt hlength)
      refine dispatches_pop hpc hweight hcontents hinit
        fun s' hpc' hcontents' hinit' => ?_
      rw [if_pos (by omega)] at hpc'
      refine ih hpc' (by omega) (by omega) ?_ hcontents' hinit'
      simpa using hlength

/-- The first round of a worker with a weight that is not negative. -/
theorem dispatches_first
    {q : Mq}
    (hpc : s.pc t = .dispatchPop q ctx 0 1) (hweight : weight t ≥ 0)
    (hcontents : (s.mq q).Contents (message :: l))
    (hinit : s.cb ctx = true → s.init ctx = true) :
    s.Dispatches weight t (message :: l.take (l.length - 1)) := by
  obtain ⟨mq, hpop, hleft⟩ := hcontents.pop
  have hmessage : (State.goto { s with mq := Function.update s.mq q mq } t
      (.dispatchMessage q ctx 0 l.length message)).Dispatches weight t
        (message :: l.take (l.length - 1)) := dispatches_message
    (Function.update_self ..)
    (by
      simp only [State.goto, Function.update_self]
      exact hleft)
    hinit
    (fun s' hpc' hcontents' hinit' => by
      by_cases hmore : 0 + 1 < l.length
      · rw [if_pos hmore] at hpc'
        have hrounds : s'.Dispatches weight t (l.take (l.length - 2 + 1)) :=
          dispatches_rounds hpc' (by omega) (by omega) (by omega) hcontents'
            hinit'
        rwa [show l.length - 2 + 1 = l.length - 1 by omega] at hrounds
      · rw [if_neg hmore] at hpc'
        rw [show l.length - 1 = 0 by omega]
        exact dispatches_done hpc')
  have hlength := hmessage.step
    (s := State.goto { s with mq := Function.update s.mq q mq } t
      (.dispatchLength q ctx message))
    (by
      have hpc' : (State.goto { s with mq := Function.update s.mq q mq } t
          (.dispatchLength q ctx message)).pc t =
            .dispatchLength q ctx message := Function.update_self ..
      simp only [State.step, hpc']
      simp only [State.goto, Function.update_self, Function.update_idem,
        hleft.length_eq, Int.toNat_natCast])
    (by
      simp only [State.goto, Function.update_self]
      rfl)
  have hstep := hlength.step (s := s)
    (by
      simp only [State.step, hpc]
      rw [stepPop, mqPop, hpop]
      dsimp only [Option.map_some]
      rw [if_pos ⟨rfl, hweight⟩])
    (by
      rw [hpc]
      rfl)
  rw [hpc] at hstep
  simp only [State.goto, Function.update_self] at hstep
  exact hstep

/-- What a call dispatches: with a weight that is not negative, all messages
but one. -/
theorem dispatches_batch
    (h : s.Holding t l) (hl : l ≠ []) :
    s.Dispatches weight t
      (l.take (if weight t < 0 then 1 else max 1 (l.length - 1))) := by
  obtain ⟨q, ctx, hpc, hcontents, hgrab, hinit⟩ := h
  obtain ⟨message, l, rfl⟩ := List.exists_cons_of_ne_nil hl
  have hloop : (State.goto
      { s with ref := Function.update s.ref ctx (s.ref ctx + 1) } t
      (.dispatchPop q ctx 0 1)).Dispatches weight t
        ((message :: l).take
          (if weight t < 0 then 1 else max 1 ((message :: l).length - 1))) := by
    by_cases hweight : weight t < 0
    · rw [if_pos hweight]
      exact dispatches_rounds (d := 0) (Function.update_self ..) rfl
        (by omega) (by simp) hcontents hinit
    · rw [if_neg hweight]
      have hfirst : (State.goto
          { s with ref := Function.update s.ref ctx (s.ref ctx + 1) } t
          (.dispatchPop q ctx 0 1)).Dispatches weight t
            (message :: l.take (l.length - 1)) :=
        dispatches_first (Function.update_self ..) (by omega) hcontents hinit
      have hmax : max 1 ((message :: l).length - 1) = l.length - 1 + 1 := by
        simp only [List.length_cons]
        omega
      rw [hmax, List.take_succ_cons]
      exact hfirst
  have hstep := hloop.step (s := s)
    (by
      simp only [State.step, hpc]
      rw [stepGrab, grab, hgrab])
    (by
      rw [hpc]
      rfl)
  rw [hpc] at hstep
  exact hstep

/-- A call dispatches as many messages as the weight asks for if and only if
the weight is not positive or there are at most two messages. -/
theorem batch_weighted_iff
    (weight : τ → ℤ) (t : τ) (s : State τ) (l : List Message)
    (h : s.Holding t l) (hl : l ≠ []) :
    s.Dispatches weight t (l.take (batchSize (weight t) l.length)) ↔
      weight t ≤ 0 ∨ l.length ≤ 2 := by
  have hbatch : s.Dispatches weight t
      (l.take (if weight t < 0 then 1 else max 1 (l.length - 1))) :=
    dispatches_batch h hl
  have hpos : 1 ≤ l.length := List.length_pos_iff.mpr hl
  constructor
  · intro hsize
    have htake := congrArg List.length (hsize.unique hbatch)
    rw [List.length_take, List.length_take, batchSize] at htake
    by_contra hno
    obtain ⟨hweight, hlength⟩ := not_or.mp hno
    rw [if_neg (by omega), if_neg (by omega)] at htake
    have hshift : (l.length - 1) >>> (weight t).toNat < l.length - 1 := by
      rw [Nat.shiftRight_eq_div_pow]
      refine Nat.div_lt_self (by omega) ?_
      exact Nat.one_lt_two_pow (by omega)
    omega
  · intro hor
    have hsize : batchSize (weight t) l.length =
        if weight t < 0 then 1 else max 1 (l.length - 1) := by
      rw [batchSize]
      split_ifs with hweight
      · rfl
      · rcases hor with hzero | hlength
        · have hshift : (weight t).toNat = 0 := by omega
          rw [hshift, Nat.shiftRight_zero]
        · have hle : (l.length - 1) >>> (weight t).toNat ≤ l.length - 1 := by
            rw [Nat.shiftRight_eq_div_pow]
            exact Nat.div_le_self _ _
          omega
    rw [hsize]
    exact hbatch

end Batch

/-! ## A worker with weight 1 -/

/-- Worker 8 holds the queue of a live service, with three messages. -/
def threeMessages : State ℕ :=
  let q := (((Mq.create 1 fun _ => ⟨0, 0, 0, 0⟩).store ⟨1, 0, 0, 0⟩).store
    ⟨2, 0, 0, 0⟩).store ⟨3, 0, 0, 0⟩
  { (State.start 0 : State ℕ) with
    storage :=
      { handleInit 0 with
        slot := Function.update (fun _ => none) 1 (some 0) }
    handle := fun _ => 1
    queue := fun _ => some 0
    init := fun _ => true
    cb := fun _ => true
    contexts := 1
    mq := fun _ => q
    queues := 1
    pc := Function.update (fun _ => .idle) 8 (.dispatch 0) }

theorem threeMessages_holding :
    threeMessages.Holding 8 [⟨1, 0, 0, 0⟩, ⟨2, 0, 0, 0⟩, ⟨3, 0, 0, 0⟩] := by
  have hcontents := (((Mq.Queue.contents_create 1
    fun _ => ⟨0, 0, 0, 0⟩).store ⟨1, 0, 0, 0⟩ (by decide)).store
      ⟨2, 0, 0, 0⟩ (by decide)).store ⟨3, 0, 0, 0⟩ (by decide)
  exact ⟨0, 0, rfl, hcontents, rfl, fun _ => rfl⟩

/-- With the weight 0 the batch has all messages but one. -/
theorem batch_weighted_of_weight_zero :
    threeMessages.Dispatches (fun _ => 0) 8
      [⟨1, 0, 0, 0⟩, ⟨2, 0, 0, 0⟩] :=
  (batch_weighted_iff (fun _ => 0) 8 threeMessages _ threeMessages_holding
    (by simp)).mpr (.inl le_rfl)

/-- Two of three messages are dispatched, not a half of the two behind the
first. -/
theorem backlog_not_halved :
    workerWeight 8 = 1 ∧ batchSize 1 3 = 1 ∧
      ¬threeMessages.Dispatches workerWeight 8 [⟨1, 0, 0, 0⟩] := by
  refine ⟨by decide, by decide, fun h => ?_⟩
  have hbatch := (dispatches_batch threeMessages_holding (by simp)).unique h
  have hlength := congrArg List.length hbatch
  revert hlength
  decide

end State

end SkynetServer.Service
