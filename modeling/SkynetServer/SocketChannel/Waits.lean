import Mathlib.Data.List.Perm.Basic
import Mathlib.Data.List.Nodup
import SkynetServer.SocketChannel.Order

/-!
# The waits for a response

Every wait that began is current or was ended once, and a coroutine whose wait
was ended has its token in the wakeup queue and its result in the tables until
it runs.
-/

namespace SkynetServer.SocketChannel

open Function Transition

section Current

variable {φ α : Type*}

def Item.turns : Item φ → List (Turn φ)
  | .response turn => [turn]
  | .signal _ => []

/-- The waits of a list of entries. -/
def turns (items : List (Item φ)) : List (Turn φ) := items.flatMap Item.turns

/-- The wait whose response function runs. -/
def Phase.turns : Phase φ α → List (Turn φ)
  | .forked => []
  | .popping => []
  | .reading turn _ _ => [turn]
  | .closing turn _ => [turn]

def inflight : Option (Dispatch φ α) → List (Turn φ)
  | some d => d.phase.turns
  | none => []

/-- The waits that were not ended. -/
def System.current (s : System φ α) : List (Turn φ) :=
  inflight s.dispatch ++ turns s.items

end Current

/-- The waits of the coroutines, the current ones among them. -/
structure Waits {φ α : Type*} (s : System φ α) (current : List (Turn φ)) :
    Prop where
  pushed_turn : ∀ (c n : ℕ) (t : Turn φ), (s.pushed c)[n]? = some t →
    t.conn = c ∧ t.index = n
  current_pushed : ∀ t ∈ current, t ∈ s.pushed t.conn
  woken_pushed : ∀ (t : Turn φ) (g : Given α), (t, g) ∈ s.woken →
    t ∈ s.pushed t.conn
  once : (s.woken.map Prod.fst ++ current).Nodup
  all : ∀ c, ∀ t ∈ s.pushed c, t ∈ s.woken.map Prod.fst ∨ t ∈ current
  waiting : ∀ (co : ℕ) (t : Turn φ), s.pc co = .waiting t → t.co = co ∧
    (t ∈ current ∧ .thread co ∉ s.wakeupQueue ∧ s.result co = none ∧
        s.resultData co = none ∨
      ∃ g : Given α, (t, g) ∈ s.woken ∧ .thread co ∈ s.wakeupQueue ∧
        s.result co = some g.result ∧ s.resultData co = g.data)
  current_pc : ∀ t ∈ current, s.pc t.co = .waiting t
  idle : ∀ co, (∀ t, s.pc co ≠ .waiting t) →
    s.result co = none ∧ s.resultData co = none
  ended : ∀ (t : Turn φ) (g : Given α), (t, g) ∈ s.woken →
    s.pc t.co = .waiting t ∨ (t, g.return) ∈ s.returned
  returned_woken : ∀ (t : Turn φ) (o : Return α), (t, o) ∈ s.returned →
    s.pc t.co ≠ .waiting t ∧ ∃ g, (t, g) ∈ s.woken ∧ o = g.return
  returned_once : (s.returned.map Prod.fst).Nodup
  queue_once : s.wakeupQueue.Nodup
  queue : ∀ co, .thread co ∈ s.wakeupQueue →
    (∃ t, s.pc co = .waiting t) ∨ ∃ call, s.pc co = .awaiting call
  awaiting : ∀ co ∈ s.awaiting,
    (∃ call, s.pc co = .awaiting call) ∧ .thread co ∉ s.wakeupQueue
  awaiting_once : s.awaiting.Nodup
  read_woken : ∀ (c : ℕ) (t : Turn φ) (g : Given α), (t, g) ∈ s.read c →
    (t, g) ∈ s.woken
  woken_read : ∀ (t : Turn φ) (g : Given α), (t, g) ∈ s.woken →
    g.result ≠ .socketError → (t, g) ∈ s.read t.conn

section Waits

variable {φ α : Type*} {s : System φ α} {current rest : List (Turn φ)}
  {turn : Turn φ} {given : Given α} {co : ℕ}

theorem Waits.perm (h : Waits s current) (hperm : current.Perm rest) :
    Waits s rest :=
  { h with
    current_pushed := fun t ht => h.current_pushed t (hperm.mem_iff.mpr ht)
    once := (hperm.append_left _).nodup_iff.mp h.once
    all := fun c t ht => (h.all c t ht).imp_right hperm.mem_iff.mp
    waiting := fun co t hco => by
      obtain ⟨heq, hcases⟩ := h.waiting co t hco
      exact ⟨heq, hcases.imp_left fun ⟨hmem, hrest⟩ =>
        ⟨hperm.mem_iff.mp hmem, hrest⟩⟩
    current_pc := fun t ht => h.current_pc t (hperm.mem_iff.mpr ht) }

/-! ## Ending a wait -/

theorem asleep_thread (hco : s.pc co = .waiting turn) :
    s.asleep (.thread co) = true := by
  rw [System.asleep, hco]

theorem give_eq (given : Given α) (hco : s.pc turn.co = .waiting turn) :
    s.give turn given = { s with
      result := update s.result turn.co (some given.result)
      resultData := update s.resultData turn.co given.data
      woken := s.woken ++ [(turn, given)]
      wakeupQueue := s.wakeupQueue ++ [.thread turn.co] } := by
  rw [System.give, System.wakeup, if_pos]
  exact asleep_thread hco

theorem Waits.notMem_woken (h : Waits s current) (hturn : turn ∈ current) :
    turn ∉ s.woken.map Prod.fst := by
  intro hmem
  exact (List.nodup_append.mp h.once).2.2 turn hmem turn hturn rfl

theorem Waits.current_waiting (h : Waits s current) (hturn : turn ∈ current) :
    .thread turn.co ∉ s.wakeupQueue ∧ s.result turn.co = none ∧
      s.resultData turn.co = none := by
  obtain ⟨_, ⟨_, hwaiting⟩ | ⟨g, hmem, _⟩⟩ :=
    h.waiting turn.co turn (h.current_pc turn hturn)
  · exact hwaiting
  · exact absurd (List.mem_map_of_mem hmem) (h.notMem_woken hturn)

/-- A current wait is ended, with a response that was read or with an
error. -/
theorem Waits.give
    (h : Waits s (turn :: rest)) (given : Given α)
    (read : ℕ → List (Turn φ × Given α))
    (hread : ∀ c, ∀ x ∈ read c, x ∈ s.read c ∨ x = (turn, given))
    (hkept : ∀ c, ∀ x ∈ s.read c, x ∈ read c)
    (hvalue : given.result ≠ .socketError →
      (turn, given) ∈ read turn.conn) :
    Waits (System.give { s with read := read } turn given) rest := by
  have hco : s.pc turn.co = .waiting turn :=
    h.current_pc turn List.mem_cons_self
  have hnotMem := (h.current_waiting List.mem_cons_self).1
  rw [give_eq (s := { s with read := read }) given hco]
  have hsub {t : Turn φ} (ht : t ∈ rest) : t ∈ turn :: rest :=
    List.mem_cons_of_mem _ ht
  have hne {co : ℕ} (hpc : s.pc co ≠ .waiting turn) : co ≠ turn.co := by
    rintro rfl
    exact hpc hco
  have hqueue {co : ℕ} (hpc : co ≠ turn.co) :
      .thread co ∈ s.wakeupQueue ++ [.thread turn.co] ↔
        .thread co ∈ s.wakeupQueue := by
    rw [List.mem_append, List.mem_singleton, Token.thread.injEq]
    exact or_iff_left hpc
  exact
    { h with
      current_pushed := fun t ht => h.current_pushed t (hsub ht)
      woken_pushed := by
        intro t g hmem
        rcases List.mem_append.mp hmem with hmem | hmem
        · exact h.woken_pushed t g hmem
        · cases List.mem_singleton.mp hmem
          exact h.current_pushed turn List.mem_cons_self
      once := by
        rw [List.map_append, List.append_assoc]
        exact h.once
      all := by
        intro c t ht
        rw [List.map_append]
        rcases h.all c t ht with hmem | hmem
        · exact .inl (List.mem_append_left _ hmem)
        · rcases List.mem_cons.mp hmem with rfl | hmem
          · exact .inl (List.mem_append_right _ (List.mem_singleton_self _))
          · exact .inr hmem
      waiting := by
        intro co t hpc
        obtain ⟨heq, hcases⟩ := h.waiting co t hpc
        refine ⟨heq, ?_⟩
        by_cases hsame : co = turn.co
        · subst hsame
          cases hco.symm.trans hpc
          right
          exact ⟨given, List.mem_append_right _ (List.mem_singleton_self _),
            List.mem_append_right _ (List.mem_singleton_self _),
            update_self _ _ _, update_self _ _ _⟩
        · dsimp only
          rw [hqueue hsame, update_of_ne hsame,
            update_of_ne hsame]
          rcases hcases with ⟨hmem, hrest⟩ | ⟨g, hmem, hrest⟩
          · left
            refine ⟨(List.mem_cons.mp hmem).resolve_left ?_, hrest⟩
            rintro rfl
            exact hsame heq.symm
          · exact .inr ⟨g, List.mem_append_left _ hmem, hrest⟩
      current_pc := fun t ht => h.current_pc t (hsub ht)
      idle := by
        intro co hpc
        dsimp only
        rw [update_of_ne (hne (hpc _)),
          update_of_ne (hne (hpc _))]
        exact h.idle co hpc
      ended := by
        intro t g hmem
        rcases List.mem_append.mp hmem with hmem | hmem
        · exact h.ended t g hmem
        · cases List.mem_singleton.mp hmem
          exact .inl hco
      returned_woken := by
        intro t o hmem
        obtain ⟨hpc, g, hwoken, heq⟩ := h.returned_woken t o hmem
        exact ⟨hpc, g, List.mem_append_left _ hwoken, heq⟩
      queue_once := by
        refine h.queue_once.append (List.nodup_singleton _) ?_
        exact List.disjoint_singleton.mpr hnotMem
      queue := by
        intro co hmem
        rcases List.mem_append.mp hmem with hmem | hmem
        · exact h.queue co hmem
        · cases List.mem_singleton.mp hmem
          exact .inl ⟨turn, hco⟩
      awaiting := by
        intro co hmem
        obtain ⟨⟨call, hcall⟩, hnot⟩ := h.awaiting co hmem
        have hdiff : co ≠ turn.co := hne (by
          rw [hcall]
          exact fun h => (by cases h))
        exact ⟨⟨call, hcall⟩, mt (hqueue hdiff).mp hnot⟩
      read_woken := by
        intro c t g hmem
        rcases hread c _ hmem with hmem | heq
        · exact List.mem_append_left _ (h.read_woken c t g hmem)
        · rw [heq]
          exact List.mem_append_right _ (List.mem_singleton_self _)
      woken_read := by
        intro t g hmem hresult
        rcases List.mem_append.mp hmem with hmem | hmem
        · exact hkept _ _ (h.woken_read t g hmem hresult)
        · cases List.mem_singleton.mp hmem
          exact hvalue hresult }

/-- A current wait is ended with an error. -/
theorem Waits.fail
    (h : Waits s (turn :: rest)) (data : Option (Data α)) :
    Waits (s.give turn ⟨.socketError, data⟩) rest :=
  h.give _ s.read (fun _ _ hmem => .inl hmem)
    (fun _ _ hmem => hmem) fun hne => absurd rfl hne

/-! ## `wakeup_all` -/

/-- What `wakeup_all` changes. -/
theorem wakeupAll_eq
    (message : Option (Message α)) (items : List (Item φ))
    (h : Waits s (rest ++ turns items)) :
    ∃ result resultData queue woken,
      System.wakeupAll message items s = { s with
        items := []
        result := result
        resultData := resultData
        wakeupQueue := queue
        woken := woken } ∧
      (∀ c, .dispatch c ∈ queue ↔ .dispatch c ∈ s.wakeupQueue) ∧
      Waits (System.wakeupAll message items s) rest := by
  induction items generalizing s with
  | nil =>
      rw [turns, List.flatMap_nil, List.append_nil] at h
      exact ⟨_, _, _, _, rfl, fun _ => Iff.rfl, { h with }⟩
  | cons item items ih =>
      cases item with
      | signal c =>
          have h' : Waits { s with items := items } (rest ++ turns items) :=
            { h with }
          exact ih h'
      | response turn =>
          have hperm : (rest ++ turns (.response turn :: items)).Perm
              (turn :: (rest ++ turns items)) := List.perm_middle
          have h' : Waits { s with items := items }
            (turn :: (rest ++ turns items)) := { h.perm hperm with }
          have hco := h'.current_pc turn List.mem_cons_self
          obtain ⟨result, resultData, queue, woken, heq, hqueue, hwaits⟩ :=
            ih (h'.fail (message.map .message))
          rw [give_eq _ hco] at heq hqueue
          refine ⟨result, resultData, queue, woken, ?_, ?_, hwaits⟩
          · rw [System.wakeupAll, give_eq _ hco]
            exact heq
          · intro c
            rw [hqueue, List.mem_append, List.mem_singleton]
            exact or_iff_left fun h => (by cases h)

/-! ## Other places -/

/-- The coroutine is not woken, waits for no other one that connects, and is
in no wait for a response. -/
structure Loose (s : System φ α) (co : ℕ) : Prop where
  not_waiting : ∀ t, s.pc co ≠ .waiting t
  not_queued : .thread co ∉ s.wakeupQueue
  not_awaiting : co ∉ s.awaiting

theorem Waits.loose
    (h : Waits s current) (hwaiting : ∀ t, s.pc co ≠ .waiting t)
    (hawaiting : ∀ call, s.pc co ≠ .awaiting call) : Loose s co := by
  refine ⟨hwaiting, ?_, ?_⟩
  · intro hmem
    rcases h.queue co hmem with ⟨t, hpc⟩ | ⟨call, hpc⟩
    · exact hwaiting t hpc
    · exact hawaiting call hpc
  · intro hmem
    obtain ⟨⟨call, hpc⟩, _⟩ := h.awaiting co hmem
    exact hawaiting call hpc

/-- The place of a coroutine that is in no wait changes. -/
theorem Waits.goto
    (h : Waits s current) (hloose : Loose s co) (pc : Pc φ)
    (hnew : ∀ t, pc ≠ .waiting t) : Waits (s.goto co pc) current := by
  have hpc {co' : ℕ} {t : Turn φ} :
      (s.goto co pc).pc co' = .waiting t ↔ s.pc co' = .waiting t := by
    rw [System.goto]
    dsimp only
    by_cases hsame : co' = co
    · subst hsame
      rw [update_self]
      exact iff_of_false (hnew t) (hloose.not_waiting t)
    · rw [update_of_ne hsame]
  have hother {co' : ℕ} (hne : co' ≠ co) :
      (s.goto co pc).pc co' = s.pc co' := update_of_ne hne _ _
  exact
    { h with
      waiting := fun co' t hco => h.waiting co' t (hpc.mp hco)
      current_pc := fun t ht => hpc.mpr (h.current_pc t ht)
      idle := fun co' hco => h.idle co' fun t ht => hco t (hpc.mpr ht)
      ended := fun t g hmem => (h.ended t g hmem).imp_left hpc.mpr
      returned_woken := fun t o hmem =>
        (h.returned_woken t o hmem).imp_left fun hne ht => hne (hpc.mp ht)
      queue := by
        intro co' hmem
        rw [hother (by
          rintro rfl
          exact hloose.not_queued hmem)]
        exact h.queue co' hmem
      awaiting := by
        intro co' hmem
        rw [hother (by
          rintro rfl
          exact hloose.not_awaiting hmem)]
        exact h.awaiting co' hmem }

/-- The coroutine waits for another one that connects. -/
theorem Waits.await
    (h : Waits s current) (hloose : Loose s co) (call : Call φ) :
    Waits { s.goto co (.awaiting call) with awaiting := s.awaiting ++ [co] }
      current :=
  { h.goto hloose (.awaiting call) fun _ h => (by cases h) with
    awaiting := by
      intro co' hmem
      rcases List.mem_append.mp hmem with hmem | hmem
      · exact (h.goto hloose (.awaiting call)
          fun _ h => (by cases h)).awaiting co' hmem
      · cases List.mem_singleton.mp hmem
        exact ⟨⟨call, update_self _ _ _⟩, hloose.not_queued⟩
    awaiting_once := by
      refine h.awaiting_once.append (List.nodup_singleton _) ?_
      exact List.disjoint_singleton.mpr hloose.not_awaiting }

/-- A wait begins. -/
theorem Waits.push
    (h : Waits s current) (hloose : Loose s co) (conn : ℕ) (func : φ)
    {turn : Turn φ} (hturn : turn = ⟨conn, (s.pushed conn).length, co, func⟩) :
    Waits { s with
      pushed := update s.pushed conn (s.pushed conn ++ [turn])
      pc := update s.pc co (.waiting turn) }
      (current ++ [turn]) := by
  have hconn : turn.conn = conn := by rw [hturn]
  have hindex : turn.index = (s.pushed conn).length := by rw [hturn]
  have hco : turn.co = co := by rw [hturn]
  have hnew : turn ∉ s.pushed conn := by
    intro hmem
    obtain ⟨n, hn⟩ := List.getElem?_of_mem hmem
    have hlt := (List.getElem?_eq_some_iff.mp hn).1
    have heq := (h.pushed_turn conn n turn hn).2
    omega
  have hmem {c : ℕ} {t : Turn φ} (ht : t ∈ s.pushed c) :
      t ∈ update s.pushed conn (s.pushed conn ++ [turn]) c := by
    rw [update_apply]
    split
    · rename_i heq
      subst heq
      exact List.mem_append_left _ ht
    · exact ht
  have hself : turn ∈ update s.pushed conn
      (s.pushed conn ++ [turn]) turn.conn := by
    rw [hconn, update_self]
    exact List.mem_append_right _ (List.mem_singleton_self _)
  have hwoken {t : Turn φ} {g : Given α} (ht : (t, g) ∈ s.woken) :
      t ≠ turn := by
    rintro rfl
    exact hnew (hconn ▸ h.woken_pushed t g ht)
  have hcurrent {t : Turn φ} (ht : t ∈ current) : t ≠ turn := by
    rintro rfl
    exact hnew (hconn ▸ h.current_pushed t ht)
  have hne {co' : ℕ} {t : Turn φ} (hpc : s.pc co' = .waiting t) :
      co' ≠ co := by
    rintro rfl
    exact hloose.not_waiting t hpc
  exact
    { h with
      pushed_turn := by
        intro c n t hn
        dsimp only at hn
        rw [update_apply] at hn
        split at hn
        · rename_i heq
          subst heq
          rw [List.getElem?_append] at hn
          split at hn
          · exact h.pushed_turn c n t hn
          · have hzero : n - (s.pushed c).length = 0 := by
              have hlt := (List.getElem?_eq_some_iff.mp hn).1
              rw [List.length_singleton] at hlt
              omega
            rw [hzero] at hn
            cases hn
            exact ⟨hconn, by omega⟩
        · exact h.pushed_turn c n t hn
      current_pushed := by
        intro t ht
        rcases List.mem_append.mp ht with ht | ht
        · exact hmem (h.current_pushed t ht)
        · cases List.mem_singleton.mp ht
          exact hself
      woken_pushed := fun t g ht => hmem (h.woken_pushed t g ht)
      once := by
        rw [← List.append_assoc]
        refine h.once.append (List.nodup_singleton _) ?_
        rw [List.disjoint_singleton, List.mem_append]
        rintro (ht | ht)
        · obtain ⟨⟨t, g⟩, hwoke, heq⟩ := List.mem_map.mp ht
          exact hwoken hwoke heq
        · exact hcurrent ht rfl
      all := by
        intro c t ht
        dsimp only at ht
        rw [update_apply] at ht
        have hold (ht : t ∈ s.pushed c) :
            t ∈ s.woken.map Prod.fst ∨ t ∈ current ++ [turn] :=
          (h.all c t ht).imp_right (List.mem_append_left _)
        split at ht
        · rename_i heq
          subst heq
          rcases List.mem_append.mp ht with ht | ht
          · exact hold ht
          · exact .inr (List.mem_append_right _ ht)
        · exact hold ht
      waiting := by
        intro co' t hpc
        dsimp only at hpc
        rw [update_apply] at hpc
        split at hpc
        · rename_i heq
          subst heq
          cases hpc
          obtain ⟨hresult, hdata⟩ := h.idle co' hloose.not_waiting
          exact ⟨hco, .inl ⟨List.mem_append_right _
            (List.mem_singleton_self _), hloose.not_queued, hresult, hdata⟩⟩
        · obtain ⟨heq, hcases⟩ := h.waiting co' t hpc
          exact ⟨heq, hcases.imp_left fun ⟨ht, hrest⟩ =>
            ⟨List.mem_append_left _ ht, hrest⟩⟩
      current_pc := by
        intro t ht
        dsimp only
        rcases List.mem_append.mp ht with ht | ht
        · have hpc := h.current_pc t ht
          rw [update_of_ne (hne hpc)]
          exact hpc
        · cases List.mem_singleton.mp ht
          rw [hco, update_self]
      idle := by
        intro co' hpc
        apply h.idle co'
        intro t ht
        refine hpc t ?_
        dsimp only
        rw [update_of_ne (hne ht)]
        exact ht
      ended := by
        intro t g ht
        refine (h.ended t g ht).imp_left fun hpc => ?_
        dsimp only
        rw [update_of_ne (hne hpc)]
        exact hpc
      returned_woken := by
        intro t o ht
        obtain ⟨hpc, g, hmem, heq⟩ := h.returned_woken t o ht
        refine ⟨?_, g, hmem, heq⟩
        dsimp only
        rw [update_apply]
        split
        · intro hsame
          cases hsame
          exact hwoken hmem rfl
        · exact hpc
      queue := by
        intro co' ht
        dsimp only
        rw [update_of_ne (by
          rintro rfl
          exact hloose.not_queued ht)]
        exact h.queue co' ht
      awaiting := by
        intro co' ht
        dsimp only
        rw [update_of_ne (by
          rintro rfl
          exact hloose.not_awaiting ht)]
        exact h.awaiting co' ht }

/-! ## The wakeup queue -/

/-- The token of the dispatch coroutine is queued. -/
theorem Waits.queueDispatch
    (h : Waits s current) {conn : ℕ}
    (hnotMem : .dispatch conn ∉ s.wakeupQueue) :
    Waits { s with wakeupQueue := s.wakeupQueue ++ [.dispatch conn] }
      current := by
  have hthread {co : ℕ} :
      .thread co ∈ s.wakeupQueue ++ [.dispatch conn] ↔
        .thread co ∈ s.wakeupQueue := by
    rw [List.mem_append, List.mem_singleton]
    exact or_iff_left fun h => (by cases h)
  exact
    { h with
      waiting := by
        intro co t hco
        dsimp only
        rw [hthread]
        exact h.waiting co t hco
      queue_once := by
        refine h.queue_once.append (List.nodup_singleton _) ?_
        exact List.disjoint_singleton.mpr hnotMem
      queue := fun co hmem => h.queue co (hthread.mp hmem)
      awaiting := fun co hmem =>
        (h.awaiting co hmem).imp_right fun hnot ht => hnot (hthread.mp ht) }

variable {queue : List Token}

/-- A token is taken that is not the one of a wait for a response. -/
theorem Waits.dequeue
    (h : Waits s current) {token : Token}
    (hqueue : s.wakeupQueue = token :: queue)
    (htoken : ∀ co t, token = .thread co → s.pc co ≠ .waiting t) :
    Waits { s with wakeupQueue := queue } current := by
  have honce := h.queue_once
  rw [hqueue] at honce
  have hmem {token' : Token} (hmem : token' ∈ queue) :
      token' ∈ s.wakeupQueue := by
    rw [hqueue]
    exact List.mem_cons_of_mem _ hmem
  exact
    { h with
      waiting := by
        intro co t hco
        have hiff : .thread co ∈ s.wakeupQueue ↔ .thread co ∈ queue := by
          rw [hqueue, List.mem_cons]
          exact or_iff_right fun heq => htoken co t heq.symm hco
        dsimp only
        rw [← hiff]
        exact h.waiting co t hco
      queue_once := honce.of_cons
      queue := fun co ht => h.queue co (hmem ht)
      awaiting := fun co ht =>
        (h.awaiting co ht).imp_right fun hnot ht => hnot (hmem ht) }

theorem Waits.loose_of_dequeue
    (h : Waits s current) {call : Call φ}
    (hqueue : s.wakeupQueue = .thread co :: queue)
    (hco : s.pc co = .awaiting call) :
    Loose { s with wakeupQueue := queue } co := by
  have honce := h.queue_once
  rw [hqueue] at honce
  refine ⟨?_, List.nodup_cons.mp honce |>.1, ?_⟩
  · intro t ht
    cases hco.symm.trans ht
  · intro hmem
    apply (h.awaiting co hmem).2
    rw [hqueue]
    exact List.mem_cons_self

/-- A coroutine runs whose wait was ended. -/
theorem Waits.resume
    (h : Waits s current)
    (hqueue : s.wakeupQueue = .thread co :: queue)
    (hco : s.pc co = .waiting turn) :
    ∃ g : Given α, s.result co = some g.result ∧ s.resultData co = g.data ∧
      (turn, g) ∈ s.woken ∧
      Waits { s with
        wakeupQueue := queue
        pc := update s.pc co .free
        result := update s.result co none
        resultData := update s.resultData co none
        returned := s.returned ++ [(turn, g.return)] } current := by
  have hqueued : .thread co ∈ s.wakeupQueue := by
    rw [hqueue]
    exact List.mem_cons_self
  obtain ⟨rfl, ⟨_, hnot, _⟩ | ⟨g, hwoken, _, hresult, hdata⟩⟩ :=
    h.waiting co turn hco
  · exact absurd hqueued hnot
  have honce := h.queue_once
  rw [hqueue] at honce
  have hnotMem := (List.nodup_cons.mp honce).1
  have hmem {token : Token} (hmem : token ∈ queue) :
      token ∈ s.wakeupQueue := by
    rw [hqueue]
    exact List.mem_cons_of_mem _ hmem
  have hpc {co : ℕ} {t : Turn φ} (hpc : s.pc co = .waiting t)
      (hne : t ≠ turn) : co ≠ turn.co := by
    rintro rfl
    cases hco.symm.trans hpc
    exact hne rfl
  have hgiven {g' : Given α} (hmem : (turn, g') ∈ s.woken) : g' = g := by
    have hnodup := (List.nodup_append.mp h.once).1
    have heq := List.inj_on_of_nodup_map hnodup hmem hwoken rfl
    cases heq
    rfl
  refine ⟨g, hresult, hdata, hwoken, ?_⟩
  exact
    { h with
      waiting := by
        intro co t ht
        dsimp only at ht
        rw [update_apply] at ht
        split at ht
        · cases ht
        · rename_i hne
          have hiff : .thread co ∈ s.wakeupQueue ↔ .thread co ∈ queue := by
            rw [hqueue, List.mem_cons, Token.thread.injEq]
            exact or_iff_right hne
          dsimp only
          rw [update_of_ne hne, update_of_ne hne, ← hiff]
          exact h.waiting co t ht
      current_pc := by
        intro t ht
        have hold := h.current_pc t ht
        dsimp only
        rw [update_of_ne (hpc hold ?_)]
        · exact hold
        · rintro rfl
          exact h.notMem_woken ht (List.mem_map_of_mem hwoken)
      idle := by
        intro co ht
        dsimp only at ht ⊢
        by_cases hsame : co = turn.co
        · subst hsame
          exact ⟨update_self _ _ _, update_self _ _ _⟩
        · rw [update_of_ne hsame] at ht
          rw [update_of_ne hsame, update_of_ne hsame]
          exact h.idle co ht
      ended := by
        intro t g' ht
        by_cases hsame : t = turn
        · subst hsame
          rw [hgiven ht]
          exact .inr (List.mem_append_right _ (List.mem_singleton_self _))
        · refine (h.ended t g' ht).imp (fun hold => ?_)
            (List.mem_append_left _)
          dsimp only
          rw [update_of_ne (hpc hold hsame)]
          exact hold
      returned_woken := by
        intro t o ht
        dsimp only
        rcases List.mem_append.mp ht with ht | ht
        · obtain ⟨hne, hrest⟩ := h.returned_woken t o ht
          refine ⟨?_, hrest⟩
          rw [update_apply]
          split
          · exact fun h => (by cases h)
          · exact hne
        · cases List.mem_singleton.mp ht
          rw [update_self]
          exact ⟨fun h => (by cases h), g, hwoken, rfl⟩
      returned_once := by
        rw [List.map_append]
        refine h.returned_once.append (List.nodup_singleton _) ?_
        rw [List.map_singleton, List.disjoint_singleton]
        intro ht
        obtain ⟨⟨t, o⟩, hmem, heq⟩ := List.mem_map.mp ht
        cases heq
        exact (h.returned_woken _ o hmem).1 hco
      queue_once := honce.of_cons
      queue := by
        intro co ht
        dsimp only
        rw [update_of_ne (by
          rintro rfl
          exact hnotMem ht)]
        exact h.queue co (hmem ht)
      awaiting := by
        intro co ht
        obtain ⟨⟨call, hcall⟩, hnot⟩ := h.awaiting co ht
        refine ⟨⟨call, ?_⟩, fun ht => hnot (hmem ht)⟩
        dsimp only
        rw [update_of_ne (by
          rintro rfl
          cases hco.symm.trans hcall)]
        exact hcall }

/-- The coroutines that wait for the one that connects are woken. -/
theorem wakeAwaiting_eq
    {l : List ℕ} (hl : ∀ co ∈ l, ∃ call, s.pc co = .awaiting call) :
    l.foldl (fun s co => s.wakeup (.thread co)) s =
      { s with wakeupQueue := s.wakeupQueue ++ l.map .thread } := by
  induction l generalizing s with
  | nil => rw [List.foldl_nil, List.map_nil, List.append_nil]
  | cons co l ih =>
      obtain ⟨call, hcall⟩ := hl co List.mem_cons_self
      have hwake : s.wakeup (.thread co) =
          { s with wakeupQueue := s.wakeupQueue ++ [.thread co] } := by
        rw [System.wakeup, if_pos]
        rw [System.asleep, hcall]
      rw [List.foldl_cons, hwake, ih, List.map_cons, List.append_assoc]
      · rfl
      · exact fun co hmem => hl co (List.mem_cons_of_mem _ hmem)

theorem Waits.wakeAwaiting (h : Waits s current) :
    Waits { s with
      wakeupQueue := s.wakeupQueue ++ s.awaiting.map .thread
      connecting := none
      awaiting := [] } current := by
  have hthread {co : ℕ} : .thread co ∈ s.awaiting.map Token.thread ↔
      co ∈ s.awaiting := by
    rw [List.mem_map]
    constructor
    · rintro ⟨co', hmem, heq⟩
      cases heq
      exact hmem
    · exact fun hmem => ⟨co, hmem, rfl⟩
  exact
    { h with
      waiting := by
        intro co t hco
        have hiff : .thread co ∈ s.wakeupQueue ++ s.awaiting.map .thread ↔
            .thread co ∈ s.wakeupQueue := by
          rw [List.mem_append, hthread]
          refine or_iff_left ?_
          intro hmem
          obtain ⟨⟨call, hcall⟩, _⟩ := h.awaiting co hmem
          cases hco.symm.trans hcall
        dsimp only
        rw [hiff]
        exact h.waiting co t hco
      queue_once := by
        have hinj : Function.Injective Token.thread := by
          intro a b heq
          cases heq
          rfl
        refine h.queue_once.append (h.awaiting_once.map hinj) ?_
        intro token hmem hmem'
        obtain ⟨co, hco, rfl⟩ := List.mem_map.mp hmem'
        exact (h.awaiting co hco).2 hmem
      queue := by
        intro co hmem
        rcases List.mem_append.mp hmem with hmem | hmem
        · exact h.queue co hmem
        · exact .inr (h.awaiting co (hthread.mp hmem)).1
      awaiting := fun co hmem => (by cases hmem)
      awaiting_once := List.nodup_nil }

end Waits

end SkynetServer.SocketChannel
