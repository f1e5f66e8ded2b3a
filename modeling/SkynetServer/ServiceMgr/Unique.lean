import SkynetServer.ServiceMgr.Requests

/-!
# One launch for each name

The value of `service` at a name decides what its requests do.  A table with
a launcher stands for a running launch, and a number or a string is never
written again.  A suspended request is in the table of its name, or in
`wakeup_queue`, and in the second case the launch it waited for has ended.
-/

namespace SkynetServer.ServiceMgr

open Transition

variable {H : Type*}

/-! ## What a step does -/

section Updates

variable {m : Manager H} {co co' : ℕ} {n n' : Str}

@[simp]
theorem setTask_service (t : Task H) : (m.setTask co t).service = m.service :=
  rfl

@[simp]
theorem setTask_queue (t : Task H) :
    (m.setTask co t).wakeup_queue = m.wakeup_queue := rfl

@[simp]
theorem setTask_ended (t : Task H) : (m.setTask co t).ended = m.ended := rfl

@[simp]
theorem setTask_launched (t : Task H) :
    (m.setTask co t).launched = m.launched := rfl

theorem setTask_task (t : Task H) :
    (m.setTask co t).task co' = if co' = co then t else m.task co' :=
  Function.update_apply m.task co t co'

@[simp]
theorem setService_task (v : Slot H) : (m.setService n v).task = m.task := rfl

@[simp]
theorem setService_queue (v : Slot H) :
    (m.setService n v).wakeup_queue = m.wakeup_queue := rfl

@[simp]
theorem setService_ended (v : Slot H) : (m.setService n v).ended = m.ended :=
  rfl

@[simp]
theorem setService_launched (v : Slot H) :
    (m.setService n v).launched = m.launched := rfl

theorem setService_service (v : Slot H) :
    (m.setService n v).service n' = if n' = n then v else m.service n' :=
  Function.update_apply m.service n v n'

end Updates

/-- The coroutine which runs the launch function of a name. -/
def Slot.launch : Slot H → Option ℕ
  | .table launch _ => launch
  | _ => none

def Slot.waiters : Slot H → List ℕ
  | .table _ waiters => waiters
  | _ => []

/-- The name whose launch function a coroutine runs. -/
def Task.launches : Task H → Option Str
  | .launching name _ => some name
  | _ => none

/-- The result of the launch that decided the name. -/
def Slot.value : Slot H → Option (Result H)
  | .number h => some (.handle h)
  | .string e => some (.error e)
  | _ => none

def Manager.start
    (m : Manager H) (co : ℕ) (n : Str) (f : Func) : Manager H :=
  { (m.setService n (.table (some co) (m.service n).waiters)).setTask co
      (.launching n f) with launched := m.launched ++ [n] }

def Manager.wait (m : Manager H) (co : ℕ) (n : Str) : Manager H :=
  (m.setService n (.table (m.service n).launch
    ((m.service n).waiters ++ [co]))).setTask co (.waiting n)

def Manager.close
    (m : Manager H) (co : ℕ) (n : Str) (r : Result H) : Manager H :=
  { ((m.setService n r.slot).wakeup (m.service n).waiters).setTask co
      (.answered (some n) r.answer) with ended := m.ended ++ [(n, r)] }

def Manager.next
    (m : Manager H) (co : ℕ) (n : Str) (rest : List ℕ) : Manager H :=
  { m.setTask co (.answered (some n) (m.service n).reread) with
    wakeup_queue := rest }

/-- The answer which belongs to a result. -/
inductive Answer.Of : Answer H → Result H → Prop
  | handle (h : H) : Of (.pack (some h)) (.handle h)
  | error (line : ℕ) (e : Str) : Of (.failure (.raised line e)) (.error e)

/-- What one step can do. -/
inductive Manager.Step (m : Manager H) : Manager H → Prop
  | reject {co : ℕ} :
      m.wakeup_queue = [] → m.task co = .absent →
        Step m (m.setTask co (.answered none (.failure .concat)))
  | answer {co : ℕ} {n : Str} {a : Answer H} {r : Result H} :
      m.wakeup_queue = [] → m.task co = .absent →
        (m.service n).value = some r → a.Of r →
          Step m (m.setTask co (.answered (some n) a))
  | start {co : ℕ} {n : Str} {f : Func} :
      m.wakeup_queue = [] → m.task co = .absent →
        (m.service n).value = none → (m.service n).launch = none →
          Step m (m.start co n f)
  | wait {co : ℕ} {n : Str} :
      m.wakeup_queue = [] → m.task co = .absent →
        (m.service n).value = none → Step m (m.wait co n)
  | close {co : ℕ} {n : Str} {f : Func} {r : Result H} :
      m.wakeup_queue = [] → m.task co = .launching n f →
        Step m (m.close co n r)
  | resume {co : ℕ} {rest : List ℕ} {n : Str} :
      m.wakeup_queue = co :: rest → m.task co = .waiting n →
        Step m (m.next co n rest)
  | stale {co : ℕ} {rest : List ℕ} :
      m.wakeup_queue = co :: rest → (∀ n, m.task co ≠ .waiting n) →
        Step m { m with wakeup_queue := rest }

variable {m : Manager H}

theorem join_step
    {co : ℕ} {n : Str} (func : Option Func)
    (hqueue : m.wakeup_queue = []) (habsent : m.task co = .absent)
    (hvalue : (m.service n).value = none) :
    m.Step (m.join co n func (m.service n).launch (m.service n).waiters) := by
  rw [Manager.join.eq_def]
  split
  · rename_i f hlaunch
    exact .start hqueue habsent hvalue hlaunch
  · exact .wait hqueue habsent hvalue

theorem waitfor_step
    {co : ℕ} {n : Str} (func : Option Func)
    (hqueue : m.wakeup_queue = []) (habsent : m.task co = .absent) :
    m.Step (m.waitfor co n func) := by
  have hjoin := join_step (n := n) func hqueue habsent
  rw [Manager.waitfor]
  split
  · rename_i h hslot
    exact .answer hqueue habsent (congrArg Slot.value hslot) (.handle h)
  · rename_i e hslot
    exact .answer hqueue habsent (congrArg Slot.value hslot) (.error 40 e)
  · rename_i hslot
    rw [hslot] at hjoin
    exact hjoin rfl
  · rename_i launch waiters hslot
    rw [hslot] at hjoin
    exact hjoin rfl

theorem step_cases
    {standalone : Bool} {m m' : Manager H} {l : Label H}
    (h : step standalone m l = .next m') : m.Step m' := by
  cases l with
  | dispatch co command =>
      rw [step] at h
      split at h
      · rename_i hqueue habsent
        split at h
        · cases h
          exact .reject hqueue habsent
        · cases h
          exact waitfor_step _ hqueue habsent
      · cases h
  | finish co r =>
      rw [step] at h
      split at h
      · rename_i n f hqueue htask
        rw [Manager.request] at h
        split at h
        · rename_i launch waiters hslot
          have hclose : m.Step (m.close co n r) := .close hqueue htask
          rw [Manager.close, hslot] at hclose
          cases h
          exact hclose
        · cases h
      · cases h
  | resume =>
      rw [step] at h
      split at h
      · cases h
      · rename_i co rest hqueue
        split at h
        · rename_i n htask
          cases h
          exact .resume hqueue htask
        · rename_i htask
          cases h
          exact .stale hqueue fun n hn => htask n hn

/-! ## The invariant -/

/-- Why a request for `n` was answered so. -/
def Manager.Justified (m : Manager H) (n : Str) (a : Answer H) : Prop :=
  (∃ r, (m.service n).value = some r ∧ a.Of r) ∨
    (n, Result.nil) ∈ m.ended ∧ a ∈ [.pack none, .failure .assertion]

structure Manager.Inv (m : Manager H) : Prop where
  launching : ∀ (n : Str) (co : ℕ),
    (m.service n).launch = some co ↔ (m.task co).launches = some n
  waiters : ∀ (n : Str) (co : ℕ), co ∈ (m.service n).waiters →
    m.task co = .waiting n ∧ co ∉ m.wakeup_queue
  waiting : ∀ (n : Str) (co : ℕ), m.task co = .waiting n →
    co ∈ m.wakeup_queue ∨ co ∈ (m.service n).waiters
  nodup : ∀ n : Str, (m.service n).waiters.Nodup
  queue : m.wakeup_queue.Nodup
  woken : ∀ co ∈ m.wakeup_queue, ∃ n r, m.task co = .waiting n ∧
    (n, r) ∈ m.ended ∧ m.service n = r.slot
  settled : ∀ (n : Str) (r : Result H), (n, r) ∈ m.ended →
    r = .nil ∨ (m.service n).value = some r
  answers : ∀ (n : Str) (co : ℕ) (a : Answer H),
    m.task co = .answered (some n) a → m.Justified n a

theorem inv_init : (Manager.init : Manager H).Inv := by
  constructor <;>
    simp [Manager.init, Slot.launch, Slot.waiters, Task.launches]

section Kept

variable {m : Manager H} {co : ℕ} {n : Str}

/-- An answer stays justified as long as values are kept. -/
theorem Manager.Justified.mono
    {m' : Manager H} {a : Answer H} (h : m.Justified n a)
    (hended : ∀ p ∈ m.ended, p ∈ m'.ended)
    (hvalue : ∀ r, (m.service n).value = some r →
      (m'.service n).value = some r) :
    m'.Justified n a := by
  rcases h with ⟨r, hr, ha⟩ | ⟨hnil, ha⟩
  · exact .inl ⟨r, hvalue r hr, ha⟩
  · exact .inr ⟨hended _ hnil, ha⟩

/-- A request is answered without a suspension. -/
theorem Manager.Inv.answer
    {o : Option Str} {a : Answer H} (h : m.Inv) (habsent : m.task co = .absent)
    (ha : ∀ n, o = some n → m.Justified n a) :
    (m.setTask co (.answered o a)).Inv := by
  constructor
  all_goals simp only [setTask_service, setTask_queue, setTask_ended,
    setTask_task]
  · grind [h.launching, Task.launches]
  · grind [h.waiters]
  · grind [h.waiting]
  · exact h.nodup
  · exact h.queue
  · grind [h.woken]
  · exact h.settled
  · intro n' co' a' htask
    split at htask
    · cases htask
      exact ha n' rfl
    · exact h.answers n' co' a' htask

theorem Manager.Inv.woken_of_nil
    {m' : Manager H} (hqueue : m'.wakeup_queue = []) :
    ∀ co ∈ m'.wakeup_queue, ∃ n r, m'.task co = .waiting n ∧
      (n, r) ∈ m'.ended ∧ m'.service n = r.slot := by
  intro c hc
  rw [hqueue] at hc
  exact absurd hc List.not_mem_nil

/-- No value is lost when a name without a value is written. -/
theorem value_setService
    {v : Slot H} {r : Result H} {n' : Str} (hvalue : (m.service n).value = none)
    (hr : (m.service n').value = some r) :
    ((m.setService n v).service n').value = some r := by
  rw [setService_service, if_neg]
  · exact hr
  · rintro rfl
    rw [hvalue] at hr
    cases hr

theorem Manager.Inv.start
    {f : Func} (h : m.Inv) (hqueue : m.wakeup_queue = [])
    (habsent : m.task co = .absent) (hvalue : (m.service n).value = none)
    (hlaunch : (m.service n).launch = none) :
    (m.start co n f).Inv := by
  constructor
  case woken => exact Inv.woken_of_nil hqueue
  case answers =>
    intro n' c a htask
    rw [Manager.start, setTask_task] at htask
    split at htask
    · cases htask
    · exact (h.answers n' c a htask).mono (fun _ hp => hp)
        fun _ => value_setService hvalue
  all_goals simp only [Manager.start, setTask_service, setTask_queue,
    setTask_ended, setTask_task, setService_service, setService_queue,
    setService_task, setService_ended]
  · grind [h.launching, Slot.launch, Task.launches]
  · grind [h.waiters, Slot.waiters]
  · grind [h.waiting, Slot.waiters]
  · grind [h.nodup, Slot.waiters]
  · exact h.queue
  · grind [h.settled, Slot.value]

theorem Manager.Inv.wait
    (h : m.Inv) (hqueue : m.wakeup_queue = []) (habsent : m.task co = .absent)
    (hvalue : (m.service n).value = none) :
    (m.wait co n).Inv := by
  have hfresh : co ∉ (m.service n).waiters := by
    intro hco
    have hwaiting := (h.waiters n co hco).1
    rw [habsent] at hwaiting
    cases hwaiting
  constructor
  case woken => exact Inv.woken_of_nil hqueue
  case answers =>
    intro n' c a htask
    rw [Manager.wait, setTask_task] at htask
    split at htask
    · cases htask
    · exact (h.answers n' c a htask).mono (fun _ hp => hp)
        fun _ => value_setService hvalue
  all_goals simp only [Manager.wait, setTask_service, setTask_queue,
    setTask_ended, setTask_task, setService_service, setService_queue,
    setService_task, setService_ended]
  · grind [h.launching, Slot.launch, Task.launches]
  · grind [h.waiters, Slot.waiters]
  · grind [h.waiting, Slot.waiters]
  · intro n'
    split
    · exact List.nodup_append.mpr ⟨h.nodup n, List.pairwise_singleton _ co, by
        rintro c hc _ hco rfl
        rw [List.mem_singleton] at hco
        exact hfresh (hco ▸ hc)⟩
    · exact h.nodup n'
  · exact h.queue
  · grind [h.settled, Slot.value]

/-- Every waiter of a table is woken up. -/
theorem Manager.Inv.woken_waiters
    (h : m.Inv) (v : Slot H) :
    ((m.setService n v).wakeup (m.service n).waiters).wakeup_queue =
      m.wakeup_queue ++ (m.service n).waiters := by
  refine congrArg (m.wakeup_queue ++ ·) (List.filter_eq_self.mpr ?_)
  intro c hc
  rw [setService_task, (h.waiters n c hc).1]

theorem slot_parts
    (r : Result H) : r.slot.launch = none ∧ r.slot.waiters = [] := by
  cases r <;> exact ⟨rfl, rfl⟩

theorem slot_value
    (r : Result H) : r = .nil ∨ r.slot.value = some r := by
  cases r with
  | nil => exact .inl rfl
  | handle h | error e => exact .inr rfl

theorem answer_justified
    (r : Result H) (hslot : m.service n = r.slot)
    (hended : (n, r) ∈ m.ended) : m.Justified n r.answer := by
  cases r with
  | nil => exact .inr ⟨hended, List.mem_cons_self⟩
  | handle h => exact .inl ⟨_, congrArg Slot.value hslot, .handle h⟩
  | error e => exact .inl ⟨_, congrArg Slot.value hslot, .error 25 e⟩

theorem reread_justified
    (r : Result H) (hslot : m.service n = r.slot) (hended : (n, r) ∈ m.ended) :
    m.Justified n (m.service n).reread := by
  rw [hslot]
  cases r with
  | nil =>
      exact .inr ⟨hended, List.mem_cons_of_mem _ List.mem_cons_self⟩
  | handle h => exact .inl ⟨_, congrArg Slot.value hslot, .handle h⟩
  | error e => exact .inl ⟨_, congrArg Slot.value hslot, .error 64 e⟩

/-- A running launch is the one of its name, which has no value yet. -/
theorem Manager.Inv.launching_value
    {f : Func} (h : m.Inv) (htask : m.task co = .launching n f) :
    (m.service n).launch = some co ∧ (m.service n).value = none := by
  have hlaunch : (m.service n).launch = some co :=
    (h.launching n co).mpr (congrArg Task.launches htask)
  refine ⟨hlaunch, ?_⟩
  cases hslot : m.service n with
  | table launch waiters | nil => rfl
  | number v | string e => rw [hslot] at hlaunch; cases hlaunch

theorem Manager.Inv.close
    {f : Func} (r : Result H) (h : m.Inv) (hqueue : m.wakeup_queue = [])
    (htask : m.task co = .launching n f) :
    (m.close co n r).Inv := by
  obtain ⟨hlaunch, hvalue⟩ := h.launching_value htask
  obtain ⟨hlaunch', hwaiters'⟩ := slot_parts r
  have hwoken :
      (m.close co n r).wakeup_queue = (m.service n).waiters := by
    refine (h.woken_waiters (n := n) r.slot).trans ?_
    rw [hqueue, List.nil_append]
  have hservice : (m.close co n r).service = (m.setService n r.slot).service :=
    rfl
  have hservice_n : (m.close co n r).service n = r.slot := by
    rw [hservice, setService_service, if_pos rfl]
  have hended : (n, r) ∈ (m.close co n r).ended :=
    List.mem_append_right _ List.mem_cons_self
  have htask' (c : ℕ) : (m.close co n r).task c =
      if c = co then .answered (some n) r.answer else m.task c :=
    setTask_task _
  have hother : ∀ c, m.task c = .waiting n → c ≠ co := by
    rintro c hc rfl
    rw [htask] at hc
    cases hc
  constructor
  case woken =>
    intro c hc
    rw [hwoken] at hc
    have hwaiting := (h.waiters n c hc).1
    refine ⟨n, r, ?_, hended, hservice_n⟩
    rw [htask', if_neg (hother c hwaiting), hwaiting]
  case answers =>
    intro n' c a ha
    rw [htask'] at ha
    split at ha
    · cases ha
      exact answer_justified r hservice_n hended
    · exact (h.answers n' c a ha).mono
        (fun _ hp => List.mem_append_left _ hp)
        fun _ => value_setService hvalue
  case settled =>
    intro n' r' hr'
    rcases List.mem_append.mp hr' with hr' | hr'
    · rcases h.settled n' r' hr' with hnil | hr'
      · exact .inl hnil
      · exact .inr (value_setService hvalue hr')
    · cases List.mem_singleton.mp hr'
      rw [hservice_n]
      exact slot_value r
  case queue =>
    rw [hwoken]
    exact h.nodup n
  case waiting =>
    intro n' c hc
    rw [htask'] at hc
    split at hc
    · cases hc
    · rw [hwoken, hservice, setService_service]
      rcases h.waiting n' c hc with hmem | hmem
      · rw [hqueue] at hmem
        exact absurd hmem List.not_mem_nil
      · split
        · rename_i hn
          exact .inl (hn ▸ hmem)
        · exact .inr hmem
  all_goals simp only [hwoken, htask', hservice, setService_service]
  · grind [h.launching, Task.launches]
  · grind [h.waiters]
  · grind [h.nodup]

theorem Manager.Inv.next
    {rest : List ℕ} (h : m.Inv) (hqueue : m.wakeup_queue = co :: rest)
    (htask : m.task co = .waiting n) :
    (m.next co n rest).Inv := by
  have hmem : co ∈ m.wakeup_queue := hqueue ▸ List.mem_cons_self
  have hnodup : co ∉ rest ∧ rest.Nodup :=
    List.nodup_cons.mp (hqueue ▸ h.queue)
  have htask' (c : ℕ) : (m.next co n rest).task c =
      if c = co then .answered (some n) (m.service n).reread else m.task c :=
    setTask_task _
  have hservice : (m.next co n rest).service = m.service := rfl
  have hrest : (m.next co n rest).wakeup_queue = rest := rfl
  constructor
  case answers =>
    intro n' c a ha
    rw [htask'] at ha
    split at ha
    · cases ha
      obtain ⟨n', r, hn', hended, hslot⟩ := h.woken co hmem
      rw [htask] at hn'
      cases hn'
      exact reread_justified r hslot hended
    · exact h.answers n' c a ha
  case settled => exact h.settled
  case nodup => exact h.nodup
  case queue => exact hnodup.2
  case woken =>
    intro c hc
    obtain ⟨n', r, hn', hended⟩ :=
      h.woken c (hqueue ▸ List.mem_cons_of_mem co hc)
    refine ⟨n', r, ?_, hended⟩
    rw [htask', if_neg, hn']
    rintro rfl
    exact hnodup.1 hc
  all_goals simp only [htask', hservice, hrest]
  · grind [h.launching, Task.launches]
  · grind [h.waiters]
  · grind [h.waiting]

end Kept

theorem Manager.Inv.step
    {m m' : Manager H} (h : m.Inv) (hs : m.Step m') : m'.Inv := by
  cases hs with
  | reject hqueue habsent => 
      refine h.answer habsent fun n hn => ?_
      cases hn
  | answer hqueue habsent hr ha =>
      refine h.answer habsent fun n hn => ?_
      cases hn
      exact .inl ⟨_, hr, ha⟩
  | start hqueue habsent hvalue hlaunch =>
      exact h.start hqueue habsent hvalue hlaunch
  | wait hqueue habsent hvalue => exact h.wait hqueue habsent hvalue
  | close hqueue htask => exact h.close _ hqueue htask
  | resume hqueue htask => exact h.next hqueue htask
  | @stale co rest hqueue htask =>
      obtain ⟨n, r, hn, -⟩ := h.woken co (hqueue ▸ List.mem_cons_self)
      exact absurd hn (htask n)

theorem reaches_inv
    {standalone : Bool}
    (h : Reaches (step standalone) anyStep .init m) : m.Inv :=
  h.invariant Manager.Inv inv_init fun _ _ _ hm _ hs =>
    hm.step (step_cases hs)

/-! ## A name with a value -/

section Settled

variable {m m' : Manager H} {n : Str} {r : Result H}

/-- What has happened at `n` since `m`, where its value was `r`. -/
structure Manager.Since (m m' : Manager H) (n : Str) (r : Result H) : Prop where
  inv : m'.Inv
  value : (m'.service n).value = some r
  launched : m'.launched.count n = m.launched.count n
  answers : ∀ (co : ℕ) (a : Answer H), m'.task co = .answered (some n) a →
    a.Of r ∨ m.task co = .answered (some n) a

theorem reread_of_value
    {v : Slot H} (hvalue : v.value = some r) : v.reread.Of r := by
  cases v with
  | number h => cases hvalue; exact .handle h
  | string e => cases hvalue; exact .error 64 e
  | nil | table launch waiters => cases hvalue

theorem Manager.Since.step
    {m'' : Manager H} (h : m.Since m' n r) (hs : m'.Step m'') :
    m.Since m'' n r := by
  have hinv := h.inv.step hs
  have hother : ∀ n', (m'.service n').value = none → n' ≠ n := by
    rintro n' hn' rfl
    rw [h.value] at hn'
    cases hn'
  cases hs with
  | @reject co hqueue habsent =>
      refine ⟨hinv, h.value, h.launched, fun c a hc => ?_⟩
      rw [setTask_task] at hc
      split at hc
      · cases hc
      · exact h.answers c a hc
  | @answer co n' a' r' hqueue habsent hr ha =>
      refine ⟨hinv, h.value, h.launched, fun c a hc => ?_⟩
      rw [setTask_task] at hc
      split at hc
      · cases hc
        rw [h.value] at hr
        cases hr
        exact .inl ha
      · exact h.answers c a hc
  | @start co n' f hqueue habsent hvalue hlaunch =>
      refine ⟨hinv, value_setService hvalue h.value, ?_, fun c a hc => ?_⟩
      · refine (List.count_append ..).trans ?_
        rw [h.launched, List.count_singleton, if_neg]
        · rfl
        · simpa using hother n' hvalue
      · rw [Manager.start, setTask_task] at hc
        split at hc
        · cases hc
        · exact h.answers c a hc
  | @wait co n' hqueue habsent hvalue =>
      refine ⟨hinv, value_setService hvalue h.value, h.launched,
        fun c a hc => ?_⟩
      rw [Manager.wait, setTask_task] at hc
      split at hc
      · cases hc
      · exact h.answers c a hc
  | @close co n' f r' hqueue htask =>
      have hvalue := (h.inv.launching_value htask).2
      refine ⟨hinv, value_setService hvalue h.value, h.launched,
        fun c a hc => ?_⟩
      rw [Manager.close, setTask_task] at hc
      split at hc
      · cases hc
        exact absurd rfl (hother n hvalue)
      · exact h.answers c a hc
  | @resume co rest n' hqueue htask =>
      refine ⟨hinv, h.value, h.launched, fun c a hc => ?_⟩
      rw [Manager.next, setTask_task] at hc
      split at hc
      · cases hc
        exact .inl (reread_of_value h.value)
      · exact h.answers c a hc
  | stale hqueue htask => exact ⟨hinv, h.value, h.launched, h.answers⟩

theorem Manager.Inv.since
    {standalone : Bool} (h : m.Inv) (hvalue : (m.service n).value = some r)
    (hrun : Reaches (ServiceMgr.step standalone) anyStep m m') :
    m.Since m' n r :=
  hrun.invariant (m.Since · n r) ⟨h, hvalue, rfl, fun _ _ ha => .inr ha⟩
    fun _ _ _ hsince _ hs => hsince.step (step_cases hs)

end Settled

/-! ## Woken requests -/

theorem step_resume
    (standalone : Bool) {co : ℕ} {n : Str} {rest : List ℕ}
    (hqueue : m.wakeup_queue = co :: rest) (htask : m.task co = .waiting n) :
    step standalone m .resume = .next (m.next co n rest) := by
  rw [step, hqueue]
  simp only [htask]
  rfl

/-- The woken coroutines answer one after the other. -/
theorem Manager.Inv.drain
    (standalone : Bool) (h : m.Inv) (queue : List ℕ)
    (hqueue : m.wakeup_queue = queue) :
    ∃ m', exec (ServiceMgr.step standalone) m
        (List.replicate queue.length .resume) = .next m' ∧
      m'.wakeup_queue = [] ∧ m'.service = m.service ∧
      (∀ co ∉ queue, m'.task co = m.task co) ∧
      ∀ co ∈ queue, ∃ n, m.task co = .waiting n ∧
        m'.task co = .answered (some n) (m.service n).reread := by
  induction queue generalizing m with
  | nil =>
      exact ⟨m, rfl, hqueue, rfl, fun _ _ => rfl,
        fun c hc => absurd hc List.not_mem_nil⟩
  | cons co rest ih =>
      obtain ⟨n, r, htask, -⟩ := h.woken co (hqueue ▸ List.mem_cons_self)
      have hnodup := List.nodup_cons.mp (hqueue ▸ h.queue)
      obtain ⟨m', hexec, hnil, hservice, hsame, hanswers⟩ :=
        ih (h.next hqueue htask) rfl
      have htask' (c : ℕ) (hc : c ≠ co) :
          (m.next co n rest).task c = m.task c :=
        (setTask_task _).trans (if_neg hc)
      refine ⟨m', ?_, hnil, hservice, ?_, ?_⟩
      · rw [List.length_cons, List.replicate_succ,
          exec_cons (step_resume standalone hqueue htask)]
        exact hexec
      · intro c hc
        rw [List.mem_cons, not_or] at hc
        rw [hsame c hc.2, htask' c hc.1]
      · intro c hc
        rcases List.mem_cons.mp hc with rfl | hc
        · refine ⟨n, htask, ?_⟩
          rw [hsame c hnodup.1]
          exact (setTask_task _).trans (if_pos rfl)
        · obtain ⟨n', hn', hc'⟩ := hanswers c hc
          refine ⟨n', ?_, hc'⟩
          rw [← htask' c fun hco => hnodup.1 (hco ▸ hc), hn']

section Names

variable {m : Manager H} {n : Str}

theorem Manager.Inv.launching_unique
    {co co' : ℕ} {f f' : Func} (h : m.Inv) (htask : m.task co = .launching n f)
    (htask' : m.task co' = .launching n f') : co = co' := by
  have hco := (h.launching_value htask).1
  rw [(h.launching_value htask').1] at hco
  cases hco
  rfl

/-- A name with a value has neither a launcher nor a table of waiters. -/
theorem Manager.Inv.settled_tasks
    {r : Result H} (h : m.Inv) (hvalue : (m.service n).value = some r) :
    (∀ co f, m.task co ≠ .launching n f) ∧
      ∀ co, m.task co = .waiting n → co ∈ m.wakeup_queue := by
  constructor
  · intro co f htask
    rw [(h.launching_value htask).2] at hvalue
    cases hvalue
  · intro co htask
    rcases h.waiting n co htask with hmem | hmem
    · exact hmem
    · cases hslot : m.service n with
      | table launch waiters => rw [hslot] at hvalue; cases hvalue
      | _ => rw [hslot] at hmem; cases hmem

/-- Who waits outside the wakeup queue waits for a launch that is running or
was not started. -/
theorem Manager.Inv.waiting_slot
    {co : ℕ} (h : m.Inv) (htask : m.task co = .waiting n)
    (hco : co ∉ m.wakeup_queue) :
    ∃ launch waiters, m.service n = .table launch waiters ∧ co ∈ waiters ∧
      ∀ c, launch = some c → ∃ f, m.task c = .launching n f := by
  have hmem := (h.waiting n co htask).resolve_left hco
  have hlaunch := fun c => (h.launching n c).mp
  cases hslot : m.service n with
  | table launch waiters =>
      rw [hslot] at hmem hlaunch
      refine ⟨launch, waiters, rfl, hmem, fun c hc => ?_⟩
      have hc := hlaunch c hc
      cases htask' : m.task c with
      | launching n' f =>
          rw [htask'] at hc
          cases hc
          exact ⟨f, rfl⟩
      | _ => rw [htask'] at hc; cases hc
  | _ => rw [hslot] at hmem; cases hmem

/-- The end of a launch wakes up every request that waits for the name. -/
theorem Manager.Inv.finish_wakes
    {standalone : Bool} {m' : Manager H} {co : ℕ} {f : Func} {r : Result H}
    (h : m.Inv) (htask : m.task co = .launching n f)
    (hs : ServiceMgr.step standalone m (.finish co r) = .next m')
    (c : ℕ) (hc : m.task c = .waiting n) : c ∈ m'.wakeup_queue := by
  rw [ServiceMgr.step] at hs
  split at hs
  · rename_i n' f' hqueue htask'
    rw [htask] at htask'
    cases htask'
    have hmem := (h.waiting n c hc).resolve_left (by
      rw [hqueue]
      exact List.not_mem_nil)
    rw [Manager.request] at hs
    split at hs
    · rename_i launch waiters hslot
      have hwoken := h.woken_waiters (n := n) r.slot
      rw [hslot] at hwoken hmem
      cases hs
      exact hwoken ▸ List.mem_append_right _ hmem
    · cases hs
  · cases hs

theorem resume_first
    {standalone : Bool} (hqueue : m.wakeup_queue ≠ []) (l : Label H)
    (hl : step standalone m l ≠ .blocked) : l = .resume := by
  cases l with
  | resume => rfl
  | dispatch co command | finish co r =>
      rw [step] at hl
      split at hl
      · rename_i hnil _
        exact absurd hnil hqueue
      · exact absurd rfl hl

end Names

/-- At most one launch function runs for a name.  A launch that ends with a
handle or an error is the last one of its name, and decides every answer that
is not given yet.  A request that waits for a launch which ended is woken, and
the woken requests answer before the next message. -/
theorem unique_service
    {standalone : Bool} {m : Manager H}
    (h : Reaches (step standalone) anyStep .init m) :
    (∀ (n : Str) (co co' : ℕ) (f f' : Func), m.task co = .launching n f →
      m.task co' = .launching n f' → co = co') ∧
    (∀ (n : Str) (r : Result H), (n, r) ∈ m.ended → r ≠ .nil →
      ∀ m' : Manager H, Reaches (step standalone) anyStep m m' →
        m'.launched.count n = m.launched.count n ∧
        (∀ co f, m'.task co ≠ .launching n f) ∧
        (∀ co, m'.task co = .waiting n → co ∈ m'.wakeup_queue) ∧
        ∀ co a, m'.task co = .answered (some n) a →
          a.Of r ∨ m.task co = .answered (some n) a ∧ (n, .nil) ∈ m.ended) ∧
    (∀ (n : Str) (co : ℕ) (f : Func) (r : Result H) (m' : Manager H),
      m.task co = .launching n f → step standalone m (.finish co r) = .next m' →
        ∀ c, m.task c = .waiting n → c ∈ m'.wakeup_queue) ∧
    (∀ (n : Str) (co : ℕ), m.task co = .waiting n → co ∉ m.wakeup_queue →
      ∃ launch waiters, m.service n = .table launch waiters ∧ co ∈ waiters ∧
        ∀ c, launch = some c → ∃ f, m.task c = .launching n f) ∧
    (m.wakeup_queue ≠ [] → ∀ l : Label H, step standalone m l ≠ .blocked →
      l = .resume) ∧
    ∃ m', exec (step standalone) m
        (List.replicate m.wakeup_queue.length .resume) = .next m' ∧
      m'.wakeup_queue = [] ∧
      ∀ co ∈ m.wakeup_queue, ∃ n, m.task co = .waiting n ∧
        m'.task co = .answered (some n) (m.service n).reread := by
  have hinv := reaches_inv h
  refine ⟨fun n co co' f f' => hinv.launching_unique, ?_,
    fun n co f r m' => hinv.finish_wakes, fun n co => hinv.waiting_slot,
    resume_first, ?_⟩
  · intro n r hended hr m' hrun
    have hvalue := (hinv.settled n r hended).resolve_left hr
    have hsince := hinv.since hvalue hrun
    obtain ⟨hlaunching, hwaiting⟩ := hsince.inv.settled_tasks hsince.value
    refine ⟨hsince.launched, hlaunching, hwaiting, fun co a hco => ?_⟩
    rcases hsince.answers co a hco with ha | hbefore
    · exact .inl ha
    · rcases hinv.answers n co a hbefore with ⟨r', hr', ha⟩ | ⟨hnil, -⟩
      · rw [hvalue] at hr'
        cases hr'
        exact .inl ha
      · exact .inr ⟨hbefore, hnil⟩
  · obtain ⟨m', hexec, hnil, -, -, hanswers⟩ :=
      hinv.drain standalone m.wakeup_queue rfl
    exact ⟨m', hexec, hnil, hanswers⟩

/-- A launch which ends while a query waits for it, and a later launch of the
same name. -/
theorem launch_once :
    ∃ m m' : Manager ℕ, Reaches (step true) anyStep .init m ∧
      Reaches (step true) anyStep m m' ∧ ([101], .handle 7) ∈ m.ended ∧
      m.task 1 = .waiting [101] ∧
      m'.task 1 = .answered (some [101]) (.pack (some 7)) ∧
      m'.task 2 = .answered (some [101]) (.pack (some 7)) ∧
      m'.launched.count [101] = m.launched.count [101] := by
  have h : exec (step true) (.init : Manager ℕ)
      [.dispatch 0 (.LAUNCH [101] []), .dispatch 1 (.QUERY [101] []),
        .finish 0 (.handle 7)] = .next _ := rfl
  have hlast := (unique_service (reaches_of_exec h)).2.1 [101] (.handle 7)
    (List.mem_singleton_self _) (by rintro ⟨⟩)
  refine ⟨_, _, reaches_of_exec h, reaches_of_exec (show exec (step true) _
    [.resume, .dispatch 2 (.LAUNCH [101] [])] = .next _ from rfl),
    List.mem_singleton_self _, rfl, rfl, rfl, (hlast _ ?_).1⟩
  exact reaches_of_exec (show exec (step true) _
    [.resume, .dispatch 2 (.LAUNCH [101] [])] = .next _ from rfl)

/-- Two requests are answered when a launch ends with nil, and a later launch of
the name returns a handle. -/
theorem answered_without_handle :
    ∃ m : Manager ℕ, Reaches (step true) anyStep .init m ∧
      ([101], .handle 7) ∈ m.ended ∧
      m.task 0 = .answered (some [101]) (.pack none) ∧
      m.task 1 = .answered (some [101]) (.failure .assertion) ∧
      m.task 2 = .answered (some [101]) (.pack (some 7)) := by
  refine ⟨_, reaches_of_exec (show exec (step true) .init
    [.dispatch 0 (.LAUNCH [101] []), .dispatch 1 (.QUERY [101] []),
      .finish 0 .nil, .resume, .dispatch 2 (.LAUNCH [101] []),
      .finish 2 (.handle 7)] = .next _ from rfl), ?_, rfl, rfl, rfl⟩
  exact List.mem_cons_of_mem _ (List.mem_singleton_self _)

end SkynetServer.ServiceMgr
