import Mathlib.Data.List.Nodup
import SkynetServer.Coroutine.Scheduler

/-!
# The tables of a service agree

`session_id_coroutine`, `sleep_session` and `watching_session` say the same as
the functions in which the coroutines are suspended, as long as sessions are
new when they are used and no token is used for two sleeps at once.  So a
session or a token leads to the one suspension that it was made for.
-/

namespace SkynetServer.Coroutine

open Function

/-- The session that resumes the coroutine. -/
def Status.session : Status → Option ℕ
  | .timer session => some session
  | .waiting w => some w.session
  | _ => none

/-- The coroutine is not suspended in a function. -/
def Status.Free (status : Status) : Prop :=
  ∀ w, status ≠ .waiting w

def Kind.token : Kind → Option Token
  | .sleep token => some token
  | .wait token => some token
  | .call _ _ => none

def Kind.service : Kind → Option Address
  | .call service _ => some service
  | _ => none

/-- A suspension ends by a response with its session, a wakeup of its token,
or an error of its call. -/
def Cause.Ends (w : Wait) : Cause → Prop
  | .response session => w.session = session
  | .wakeup token => w.kind.token = some token
  | .error session => w.session = session ∧ w.kind.service ≠ none
  | .fork => False

/-- The suspension of the coroutine ends, and its session gets the entry. -/
def Threads.resume (t : Threads) (co : ℕ) (w : Wait) (entry : Option Entry)
    (cause : Cause) : Threads :=
  { (({ t with
      sessionIdCoroutine :=
        update t.sessionIdCoroutine w.session entry } :
          Threads).endWait w).setStatus co .running with
    resumed := t.resumed ++ [(w, cause)] }

@[simp] theorem Threads.endWait_status (t : Threads) (w : Wait) :
    (t.endWait w).status = t.status := by
  rcases w with ⟨serial, session, kind⟩
  cases kind
  · rfl
  · rfl
  · rfl

@[simp] theorem Threads.endWait_waits (t : Threads) (w : Wait) :
    (t.endWait w).waits = t.waits := by
  rcases w with ⟨serial, session, kind⟩
  cases kind
  · rfl
  · rfl
  · rfl

section Resume

variable (t : Threads) (co : ℕ) (w : Wait) (entry : Option Entry)
  (cause : Cause)

@[simp] theorem Threads.resume_status :
    (t.resume co w entry cause).status =
      update t.status co .running := by
  simp only [Threads.resume, Threads.setStatus, Threads.endWait_status]

@[simp] theorem Threads.resume_waits :
    (t.resume co w entry cause).waits = t.waits := by
  simp only [Threads.resume, Threads.setStatus, Threads.endWait_waits]

@[simp] theorem Threads.resume_resumed :
    (t.resume co w entry cause).resumed = t.resumed ++ [(w, cause)] := rfl

/-- Only a call is taken out of `watching_session`, with its session. -/
theorem Threads.resume_watching
    {n : ℕ} (h : n ≠ w.session ∨ w.kind.service = none) :
    (t.resume co w entry cause).watchingSession n =
      t.watchingSession n := by
  rcases w with ⟨serial, session, kind⟩
  cases kind with
  | sleep token | wait token => rfl
  | call service dest =>
      rcases h with h | h
      · exact update_of_ne h _ _
      · cases h

end Resume

/-- The numbers of the suspensions that ended. -/
def serials (resumed : List (Wait × Cause)) : List ℕ :=
  resumed.map fun r => r.1.serial

structure Linked (t : Threads) : Prop where
  entry : ∀ session co, t.sessionIdCoroutine session = some (.co co) ↔
    (t.status co).session = some session
  sleep : ∀ token session, t.sleepSession token = some session ↔
    ∃ co w, t.status co = .waiting w ∧ w.session = session ∧
      w.kind.token = some token
  watch : ∀ session service, t.watchingSession session = some service ↔
    ∃ co w, t.status co = .waiting w ∧ w.session = session ∧
      w.kind.service = some service
  live : ∀ k, (k < t.waits ∧ k ∉ serials t.resumed) ↔
    ∃ co w, t.status co = .waiting w ∧ w.serial = k
  serial_inj : ∀ co co' w w', t.status co = .waiting w →
    t.status co' = .waiting w' → w.serial = w'.serial → co = co'
  resumed_lt : ∀ k ∈ serials t.resumed, k < t.waits
  resumed_nodup : (serials t.resumed).Nodup
  ends : ∀ r ∈ t.resumed, r.2.Ends r.1

section Linked

variable {t : Threads} {co session : ℕ} {w : Wait}

theorem Linked.session_of_waiting
    (h : Linked t) (hwaiting : t.status co = .waiting w) :
    t.sessionIdCoroutine w.session = some (.co co) := by
  rw [h.entry, hwaiting]
  rfl

/-- A session belongs to one coroutine. -/
theorem Linked.co_unique
    (h : Linked t) {co' : ℕ} (hco : (t.status co).session = some session)
    (hco' : (t.status co').session = some session) : co = co' := by
  have hentry := (h.entry session co).mpr hco
  rw [(h.entry session co').mpr hco'] at hentry
  cases hentry
  rfl

theorem Linked.waiting_unique
    (h : Linked t) {co' : ℕ} {w' : Wait} (hco : t.status co = .waiting w)
    (hco' : t.status co' = .waiting w') (heq : w.session = w'.session) :
    co = co' := by
  have hsession : (t.status co).session = some w.session := by
    rw [hco]
    rfl
  have hsession' : (t.status co').session = some w.session := by
    rw [hco', heq]
    rfl
  exact h.co_unique hsession hsession'

/-- The coroutine that sleeps with a token. -/
theorem Linked.sleeper
    (h : Linked t) {token : Token}
    (hsleep : t.sleepSession token = some session) :
    ∃ co w, t.status co = .waiting w ∧ w.session = session ∧
      w.kind.token = some token ∧
      t.sessionIdCoroutine session = some (.co co) := by
  obtain ⟨co, w, hwaiting, rfl, htoken⟩ := (h.sleep token session).mp hsleep
  exact ⟨co, w, hwaiting, rfl, htoken, h.session_of_waiting hwaiting⟩

/-- A session that leads nowhere is in no other table. -/
theorem Linked.watch_of_new
    (h : Linked t) (hnew : t.sessionIdCoroutine session = none) :
    t.watchingSession session = none := by
  cases hwatch : t.watchingSession session with
  | none => rfl
  | some service =>
      obtain ⟨co, w, hwaiting, rfl, _⟩ := (h.watch session service).mp hwatch
      rw [h.session_of_waiting hwaiting] at hnew
      cases hnew

/-- Only coroutines count, not the other entries. -/
theorem Linked.entries
    (h : Linked t) {entries : ℕ → Option Entry}
    (hentries : ∀ session co, entries session = some (.co co) ↔
      t.sessionIdCoroutine session = some (.co co)) :
    Linked { t with sessionIdCoroutine := entries } :=
  { h with
    entry := fun session co =>
      (hentries session co).trans (h.entry session co) }

/-- The suspensions stay. -/
theorem Linked.waiting
    (h : Linked t) {t' : Threads} (hsleep : t'.sleepSession = t.sleepSession)
    (hwatch : t'.watchingSession = t.watchingSession)
    (hwaits : t'.waits = t.waits) (hresumed : t'.resumed = t.resumed)
    (hwaiting : ∀ other w,
      t'.status other = .waiting w ↔ t.status other = .waiting w)
    (hentry : ∀ session other, t'.sessionIdCoroutine session =
      some (.co other) ↔ (t'.status other).session = some session) :
    Linked t' := by
  constructor
  · exact hentry
  · simp only [hwaiting, hsleep]
    exact h.sleep
  · simp only [hwaiting, hwatch]
    exact h.watch
  · simp only [hwaiting, hwaits, hresumed]
    exact h.live
  · simp only [hwaiting]
    exact h.serial_inj
  · rw [hwaits, hresumed]
    exact h.resumed_lt
  · rw [hresumed]
    exact h.resumed_nodup
  · rw [hresumed]
    exact h.ends

/-- A coroutine that is not suspended does something else. -/
theorem Linked.setStatus
    (h : Linked t) {status : Status} (hold : (t.status co).Free)
    (holdSession : (t.status co).session = none) (hnew : status.Free)
    (hnewSession : status.session = none) :
    Linked (t.setStatus co status) := by
  have hwaiting (other : ℕ) (w : Wait) :
      (t.setStatus co status).status other = .waiting w ↔
        t.status other = .waiting w := by
    rw [Threads.setStatus]
    dsimp only
    by_cases heq : other = co
    · subst heq
      rw [update_self]
      exact ⟨fun h => absurd h (hnew w), fun h => absurd h (hold w)⟩
    · rw [update_of_ne heq]
  refine h.waiting rfl rfl rfl rfl hwaiting fun session other => ?_
  refine (h.entry session other).trans ?_
  rw [Threads.setStatus]
  dsimp only
  by_cases heq : other = co
  · subst heq
    rw [update_self, holdSession, hnewSession]
  · rw [update_of_ne heq]

/-- A coroutine that starts with a timer. -/
theorem Linked.setTimer
    (h : Linked t) (hold : (t.status co).Free)
    (holdSession : (t.status co).session = none)
    (hnew : t.sessionIdCoroutine session = none) :
    Linked ((t.setSession session co).setStatus co (.timer session)) := by
  have hwaiting (other : ℕ) (w : Wait) :
      ((t.setSession session co).setStatus co (.timer session)).status
          other = .waiting w ↔ t.status other = .waiting w := by
    rw [Threads.setStatus, Threads.setSession]
    dsimp only
    by_cases heq : other = co
    · subst heq
      rw [update_self]
      exact ⟨fun h => (by cases h), fun h => absurd h (hold w)⟩
    · rw [update_of_ne heq]
  refine h.waiting rfl rfl rfl rfl hwaiting fun session' other => ?_
  rw [Threads.setStatus, Threads.setSession]
  dsimp only
  by_cases hsession : session' = session
  · subst hsession
    rw [update_self]
    by_cases heq : other = co
    · subst heq
      rw [update_self]
      exact iff_of_true rfl rfl
    · rw [update_of_ne heq, ← h.entry, hnew]
      refine iff_of_false ?_ (fun h => (by cases h))
      intro h
      cases h
      exact heq rfl
  · rw [update_of_ne hsession, h.entry]
    by_cases heq : other = co
    · subst heq
      rw [update_self, holdSession]
      refine iff_of_false (fun h => (by cases h)) ?_
      intro h
      exact hsession (Option.some.inj h).symm
    · rw [update_of_ne heq]

/-- The timer of a coroutine that has not started. -/
theorem Linked.startTimer
    (h : Linked t) (hco : t.status co = .timer session) :
    Linked ({ t with
      sessionIdCoroutine :=
        update t.sessionIdCoroutine session none }.setStatus co
          .running) := by
  have hwaiting (other : ℕ) (w : Wait) :
      (({ t with
        sessionIdCoroutine :=
          update t.sessionIdCoroutine session none } :
            Threads).setStatus co .running).status other = .waiting w ↔
        t.status other = .waiting w := by
    rw [Threads.setStatus]
    dsimp only
    by_cases heq : other = co
    · subst heq
      rw [update_self, hco]
      exact iff_of_false (fun h => (by cases h)) fun h => (by cases h)
    · rw [update_of_ne heq]
  have hsession : (t.status co).session = some session := by
    rw [hco]
    rfl
  refine h.waiting rfl rfl rfl rfl hwaiting fun n other => ?_
  rw [Threads.setStatus]
  dsimp only
  by_cases heq : other = co
  · subst heq
    rw [update_self]
    refine iff_of_false ?_ fun h => (by cases h)
    intro h'
    by_cases hn : n = session
    · subst hn
      rw [update_self] at h'
      cases h'
    · rw [update_of_ne hn, h.entry, hsession] at h'
      exact hn (Option.some.inj h').symm
  · rw [update_of_ne heq]
    by_cases hn : n = session
    · subst hn
      rw [update_self]
      refine iff_of_false (fun h => (by cases h)) ?_
      intro h'
      exact heq (h.co_unique h' hsession)
    · rw [update_of_ne hn, h.entry]

/-- A coroutine suspends with a new session. -/
theorem Linked.suspendIn
    (h : Linked t) (hold : (t.status co).Free)
    (holdSession : (t.status co).session = none)
    (hnew : t.sessionIdCoroutine session = none) {kind : Kind}
    {sleepSession : Token → Option ℕ} {watchingSession : ℕ → Option Address}
    (hsleep : ∀ token n, sleepSession token = some n ↔
      t.sleepSession token = some n ∨
        session = n ∧ kind.token = some token)
    (hwatch : ∀ n service, watchingSession n = some service ↔
      t.watchingSession n = some service ∨
        session = n ∧ kind.service = some service) :
    Linked ({ t.setSession session co with
      sleepSession := sleepSession
      watchingSession := watchingSession }.suspendIn co session kind) := by
  have hself : (({ t.setSession session co with
      sleepSession := sleepSession
      watchingSession := watchingSession } : Threads).suspendIn co session
        kind).status co = .waiting ⟨t.waits, session, kind⟩ :=
    update_self _ _ _
  have hother (other : ℕ) (heq : other ≠ co) :
      (({ t.setSession session co with
        sleepSession := sleepSession
        watchingSession := watchingSession } : Threads).suspendIn co session
          kind).status other = t.status other :=
    update_of_ne heq _ _
  -- The suspensions are the old ones and the new one.
  have hwaits (P : ℕ → Wait → Prop) :
      (∃ other w, (({ t.setSession session co with
        sleepSession := sleepSession
        watchingSession := watchingSession } : Threads).suspendIn co session
          kind).status other = .waiting w ∧ P other w) ↔
        (∃ other w, t.status other = .waiting w ∧ P other w) ∨
          P co ⟨t.waits, session, kind⟩ := by
    constructor
    · rintro ⟨other, w, hwaiting, hP⟩
      by_cases heq : other = co
      · subst heq
        rw [hself] at hwaiting
        cases hwaiting
        exact .inr hP
      · rw [hother other heq] at hwaiting
        exact .inl ⟨other, w, hwaiting, hP⟩
    · rintro (⟨other, w, hwaiting, hP⟩ | hP)
      · have heq : other ≠ co := by
          rintro rfl
          exact hold w hwaiting
        exact ⟨other, w, (hother other heq).trans hwaiting, hP⟩
      · exact ⟨co, _, hself, hP⟩
  constructor
  · intro session' other
    by_cases hsession : session' = session
    · subst hsession
      refine Iff.trans (b := co = other) ?_ ?_
      · have hentry : (({ t.setSession session' co with
            sleepSession := sleepSession
            watchingSession := watchingSession } : Threads).suspendIn co
              session' kind).sessionIdCoroutine session' =
                some (.co co) := update_self _ _ _
        rw [hentry]
        exact ⟨fun h => (by cases h; rfl), fun h => h ▸ rfl⟩
      · by_cases heq : other = co
        · subst heq
          rw [hself]
          exact iff_of_true rfl rfl
        · rw [hother other heq, ← h.entry, hnew]
          exact iff_of_false (fun h => heq h.symm) (fun h => (by cases h))
    · have hentry : (({ t.setSession session co with
          sleepSession := sleepSession
          watchingSession := watchingSession } : Threads).suspendIn co
            session kind).sessionIdCoroutine session' =
              t.sessionIdCoroutine session' :=
        update_of_ne hsession _ _
      rw [hentry, h.entry]
      by_cases heq : other = co
      · subst heq
        rw [hself, holdSession]
        refine iff_of_false (fun h => (by cases h)) ?_
        intro h
        exact hsession (Option.some.inj h).symm
      · rw [hother other heq]
  · intro token n
    rw [hwaits fun _ w => w.session = n ∧ w.kind.token = some token,
      ← h.sleep]
    exact hsleep token n
  · intro n service
    rw [hwaits fun _ w => w.session = n ∧ w.kind.service = some service,
      ← h.watch]
    exact hwatch n service
  · intro k
    rw [hwaits fun _ w => w.serial = k, ← h.live]
    have hresumed := h.resumed_lt k
    constructor
    · rintro ⟨hlt, hk⟩
      by_cases heq : t.waits = k
      · exact .inr heq
      · have hlt' : k < t.waits + 1 := hlt
        exact .inl ⟨by omega, hk⟩
    · rintro (⟨hlt, hk⟩ | rfl)
      · exact ⟨Nat.lt_succ_of_lt hlt, hk⟩
      · exact ⟨Nat.lt_succ_self _,
          fun hmem => absurd (hresumed hmem) (Nat.lt_irrefl _)⟩
  · intro co₁ co₂ w₁ w₂ h₁ h₂ heq
    have hlt (other : ℕ) (w : Wait) (hw : t.status other = .waiting w) :
        w.serial < t.waits := ((h.live w.serial).mpr ⟨other, w, hw, rfl⟩).1
    by_cases hco₁ : co₁ = co
    · by_cases hco₂ : co₂ = co
      · rw [hco₁, hco₂]
      · subst hco₁
        rw [hself] at h₁
        rw [hother co₂ hco₂] at h₂
        cases h₁
        exact absurd (hlt co₂ w₂ h₂) (by rw [← heq]; exact Nat.lt_irrefl _)
    · rw [hother co₁ hco₁] at h₁
      by_cases hco₂ : co₂ = co
      · subst hco₂
        rw [hself] at h₂
        cases h₂
        exact absurd (hlt co₁ w₁ h₁) (by rw [heq]; exact Nat.lt_irrefl _)
      · rw [hother co₂ hco₂] at h₂
        exact h.serial_inj co₁ co₂ w₁ w₂ h₁ h₂ heq
  · intro k hk
    exact Nat.lt_succ_of_lt (h.resumed_lt k hk)
  · exact h.resumed_nodup
  · exact h.ends

/-- A suspension ends: its session and its token lead nowhere. -/
theorem Linked.resume
    (h : Linked t) (hco : t.status co = .waiting w) {entry : Option Entry}
    (hentry : ∀ other, entry ≠ some (.co other)) {cause : Cause}
    (hends : cause.Ends w) :
    Linked (t.resume co w entry cause) := by
  obtain ⟨t', ht'⟩ : ∃ t', t' = t.resume co w entry cause := ⟨_, rfl⟩
  rw [← ht']
  have hstatus : t'.status = update t.status co .running := by
    rw [ht', Threads.resume_status]
  have hwaits : t'.waits = t.waits := by
    rw [ht', Threads.resume_waits]
  have hresumed : t'.resumed = t.resumed ++ [(w, cause)] := by
    rw [ht', Threads.resume_resumed]
  have hentries (n other : ℕ) :
      t'.sessionIdCoroutine n = some (.co other) ↔
        t.sessionIdCoroutine n = some (.co other) ∧ n ≠ w.session := by
    have hset (entry : Option Entry)
        (hentry : ∀ other, entry ≠ some (.co other)) :
        update t.sessionIdCoroutine w.session entry n =
            some (.co other) ↔
          t.sessionIdCoroutine n = some (.co other) ∧ n ≠ w.session := by
      by_cases heq : n = w.session
      · subst heq
        rw [update_self]
        exact iff_of_false (hentry other) fun h => h.2 rfl
      · rw [update_of_ne heq]
        exact ⟨fun h => ⟨h, heq⟩, And.left⟩
    rcases w with ⟨serial, session, kind⟩
    rw [ht']
    cases kind with
    | sleep token => exact hset entry hentry
    | wait token =>
        refine Iff.trans (Eq.congr_left ?_) (hset none fun _ h => (by cases h))
        exact congrFun (update_idem ..) n
    | call service dest => exact hset entry hentry
  have hsleep (token : Token) (n : ℕ) :
      t'.sleepSession token = some n ↔
        t.sleepSession token = some n ∧ w.kind.token ≠ some token := by
    have hset (own : Token) :
        update t.sleepSession own none token = some n ↔
          t.sleepSession token = some n ∧ some own ≠ some token := by
      by_cases heq : token = own
      · subst heq
        rw [update_self]
        exact iff_of_false (fun h => (by cases h)) fun h => h.2 rfl
      · rw [update_of_ne heq]
        exact ⟨fun h => ⟨h, fun h' => heq (Option.some.inj h').symm⟩,
          And.left⟩
    rcases w with ⟨serial, session, kind⟩
    rw [ht']
    cases kind with
    | sleep own | wait own => exact hset own
    | call service dest => exact ⟨fun h => ⟨h, fun h' => (by cases h')⟩, And.left⟩
  have hwatch (n : ℕ) (service : Address) :
      t'.watchingSession n = some service ↔
        t.watchingSession n = some service ∧ n ≠ w.session := by
    have hkeep (hnone : w.kind.service = none) :
        t.watchingSession n = some service ↔
          t.watchingSession n = some service ∧ n ≠ w.session := by
      refine ⟨fun h' => ⟨h', ?_⟩, And.left⟩
      rintro rfl
      obtain ⟨other, w', hw', hsession, hservice⟩ :=
        (h.watch w.session service).mp h'
      obtain rfl := h.waiting_unique hw' hco hsession
      rw [hco] at hw'
      cases hw'
      rw [hnone] at hservice
      cases hservice
    rcases w with ⟨serial, session, kind⟩
    rw [ht']
    cases kind with
    | sleep own | wait own => exact hkeep rfl
    | call own dest =>
        by_cases heq : n = session
        · subst heq
          refine iff_of_false ?_ fun h => h.2 rfl
          intro h'
          cases (update_self ..).symm.trans h'
        · refine Iff.trans (Eq.congr_left (update_of_ne heq ..)) ?_
          exact ⟨fun h => ⟨h, heq⟩, And.left⟩
  -- The suspensions are the old ones but this one.
  have hother (other : ℕ) (w' : Wait) :
      t'.status other = .waiting w' ↔
        t.status other = .waiting w' ∧ other ≠ co := by
    rw [hstatus]
    by_cases heq : other = co
    · subst heq
      rw [update_self]
      exact iff_of_false (fun h => (by cases h)) fun h => h.2 rfl
    · rw [update_of_ne heq]
      exact ⟨fun h => ⟨h, heq⟩, And.left⟩
  have hserials : serials t'.resumed = serials t.resumed ++ [w.serial] := by
    rw [hresumed, serials, List.map_append]
    rfl
  have hlive := (h.live w.serial).mpr ⟨co, w, hco, rfl⟩
  constructor
  · intro n other
    rw [hentries, h.entry, hstatus]
    by_cases heq : other = co
    · subst heq
      rw [update_self, hco]
      refine iff_of_false ?_ (fun h => (by cases h))
      rintro ⟨hn, hne⟩
      exact hne (Option.some.inj hn).symm
    · rw [update_of_ne heq]
      refine ⟨And.left, fun h' => ⟨h', ?_⟩⟩
      rintro rfl
      apply heq
      apply h.co_unique h'
      rw [hco]
      rfl
  · intro token n
    rw [hsleep, h.sleep]
    constructor
    · rintro ⟨⟨other, w', hw', hsession, htoken⟩, hne⟩
      refine ⟨other, w', (hother other w').mpr ⟨hw', ?_⟩, hsession, htoken⟩
      rintro rfl
      rw [hco] at hw'
      cases hw'
      exact hne htoken
    · rintro ⟨other, w', hw', hsession, htoken⟩
      obtain ⟨hw', hne⟩ := (hother other w').mp hw'
      refine ⟨⟨other, w', hw', hsession, htoken⟩, ?_⟩
      intro heq
      have h₁ := (h.sleep token w.session).mpr ⟨co, w, hco, rfl, heq⟩
      have h₂ := (h.sleep token w'.session).mpr
        ⟨other, w', hw', rfl, htoken⟩
      rw [h₁] at h₂
      exact hne (h.waiting_unique hw' hco (Option.some.inj h₂).symm)
  · intro n service
    rw [hwatch, h.watch]
    constructor
    · rintro ⟨⟨other, w', hw', hsession, hservice⟩, hne⟩
      refine ⟨other, w', (hother other w').mpr ⟨hw', ?_⟩, hsession,
        hservice⟩
      rintro rfl
      rw [hco] at hw'
      cases hw'
      exact hne hsession.symm
    · rintro ⟨other, w', hw', hsession, hservice⟩
      obtain ⟨hw', hne⟩ := (hother other w').mp hw'
      refine ⟨⟨other, w', hw', hsession, hservice⟩, ?_⟩
      rintro rfl
      exact hne (h.waiting_unique hw' hco hsession)
  · intro k
    simp only [hother]
    rw [hwaits, hserials, List.mem_append, List.mem_singleton]
    constructor
    · rintro ⟨hlt, hk⟩
      obtain ⟨other, w', hw', rfl⟩ :=
        (h.live k).mp ⟨hlt, fun h' => hk (.inl h')⟩
      refine ⟨other, w', ⟨hw', ?_⟩, rfl⟩
      rintro rfl
      rw [hco] at hw'
      cases hw'
      exact hk (.inr rfl)
    · rintro ⟨other, w', ⟨hw', hne⟩, rfl⟩
      obtain ⟨hlt, hk⟩ := (h.live w'.serial).mpr ⟨other, w', hw', rfl⟩
      refine ⟨hlt, ?_⟩
      rintro (hmem | heq)
      · exact hk hmem
      · exact hne (h.serial_inj other co w' w hw' hco heq)
  · intro co₁ co₂ w₁ w₂ h₁ h₂ heq
    exact h.serial_inj co₁ co₂ w₁ w₂ ((hother co₁ w₁).mp h₁).1
      ((hother co₂ w₂).mp h₂).1 heq
  · rw [hserials, hwaits]
    intro k hk
    rcases List.mem_append.mp hk with hk | hk
    · exact h.resumed_lt k hk
    · rw [List.mem_singleton.mp hk]
      exact hlive.1
  · rw [hserials, List.nodup_append]
    refine ⟨h.resumed_nodup, List.pairwise_singleton _ _, ?_⟩
    intro k hk k' hk' heq
    rw [heq, List.mem_singleton.mp hk'] at hk
    exact hlive.2 hk
  · rw [hresumed]
    intro r hr
    rcases List.mem_append.mp hr with hr | hr
    · exact h.ends r hr
    · rw [List.mem_singleton.mp hr]
      exact hends

end Linked

end SkynetServer.Coroutine
