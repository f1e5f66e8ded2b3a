import SkynetServer.Support.Transition

/-!
# The account store

The handlers `on_register` and `on_login` of `login_msg.lua`.  Any number of
requests run at the same time; each is a sequence of redis commands, and other
requests may run between any two of them.  An agent whose client disconnects
exits: its request does not go on, but a command which was sent is executed.
-/

namespace SkynetServer.AccountStore

open Function Transition

/-! ## Redis -/

/-- The record which is serialized into the hash `account`. -/
structure Info where
  account : String
  password : String
  uuid : ℕ
  deriving DecidableEq, Repr

/-- The keys of redis that the handlers use. -/
structure Redis where
  accountList : String → Bool
  account : String → Option Info
  /-- `TOCKEN_%d` -/
  token : ℕ → Option ℕ

/-- A command that writes one of the keys. -/
inductive Command where
  | sadd (account : String)
  | hset (info : Info)
  | srem (account : String)
  | set (uuid token : ℕ)
  deriving DecidableEq, Repr

namespace Redis

/-- `SADD account_list`; the number of elements added is returned. -/
def sadd (db : Redis) (account : String) : Redis × ℕ :=
  ({ db with accountList := update db.accountList account true },
    if db.accountList account then 0 else 1)

/-- `SREM account_list` -/
def srem (db : Redis) (account : String) : Redis :=
  { db with accountList := update db.accountList account false }

/-- `HSET account`; the number of fields created is returned. -/
def hset (db : Redis) (account : String) (info : Info) : Redis × ℕ :=
  ({ db with account := update db.account account (some info) },
    if (db.account account).isSome then 0 else 1)

/-- `SET` of a token. -/
def set (db : Redis) (uuid token : ℕ) : Redis :=
  { db with token := update db.token uuid (some token) }

/-- What a command does when nobody waits for its result any more. -/
def execute (db : Redis) : Command → Redis
  | .sadd account => (db.sadd account).1
  | .hset info => (db.hset info.account info).1
  | .srem account => db.srem account
  | .set uuid token => db.set uuid token

/-- The names in `account_list` are those with a record. -/
def Consistent (db : Redis) : Prop :=
  ∀ a, db.accountList a = true ↔ (db.account a).isSome = true

end Redis

/-! ## Requests -/

/-- `REGISTER_REQ` and `LOGIN_REQ` -/
inductive Request where
  | register (account password : String)
  | login (account password : String)
  deriving DecidableEq, Repr

def Request.account : Request → String
  | .register account _ | .login account _ => account

/-- What a handler returns. -/
inductive Reply where
  /-- `{}` -/
  | empty
  /-- Nothing. -/
  | none
  /-- `REGISTER_RET` -/
  | registered
  /-- `LOGIN_RET` -/
  | loggedIn (uuid token : ℕ) (gateAddr : String)
  deriving DecidableEq, Repr

/-- Where a request is: before its next command or call, or at its end. -/
inductive Pos where
  | idle
  /-- Both handlers begin with `dbmgr.sadd`. -/
  | sadd (q : Request)
  /-- `on_register` before `generator.uuid`. -/
  | uuid (account password : String)
  | hset (info : Info)
  | srem (info : Info)
  /-- `on_login` before `dbmgr.hget`. -/
  | hget (account password : String)
  | token (info : Info)
  | set (info : Info) (token : ℕ)
  | expire (info : Info) (token : ℕ)
  /-- Before the call of `balance_game`. -/
  | balance (info : Info) (token : ℕ)
  | done (q : Request) (reply : Reply)
  /-- The agent has exited, and the command is still to be executed. -/
  | closing (c : Command)
  /-- The agent has exited; the account which the last command registered. -/
  | gone (account : Option String)
  deriving DecidableEq, Repr

/-- The agent exits.  The first command is sent when it is the turn of the
request in the queue of the agent. -/
def Pos.exit (sent : Bool) : Pos → Option Pos
  | .sadd q => some (if sent then .closing (.sadd q.account) else .gone none)
  | .hset info => some (.closing (.hset info))
  | .srem info => some (.closing (.srem info.account))
  | .set info n => some (.closing (.set info.uuid n))
  | .uuid _ _ | .hget _ _ | .token _ | .expire _ _ | .balance _ _ =>
    some (.gone none)
  | _ => none

/-- What the clients and the other services decide. -/
inductive Input where
  | call (q : Request)
  | go
  /-- `generator` returns a number. -/
  | number (n : ℕ)
  /-- The call of `balance_game` returns an address, or fails. -/
  | addr (a : Option String)
  /-- The client disconnects, when the first command was sent or before. -/
  | exit (sent : Bool)
  deriving DecidableEq

/-- The store and all the requests `ρ`. -/
structure State (ρ : Type*) where
  redis : Redis
  pos : ρ → Pos

/-- A step of a request: what it does to redis, and where it goes on. -/
def run (db : Redis) (pos : Pos) (input : Input) : Option (Redis × Pos) :=
  match pos, input with
  | .idle, .call q => some (db, .sadd q)
  | .sadd (.register a p), .go =>
    let r := db.sadd a
    some (r.1, if r.2 = 0 then .done (.register a p) .empty else .uuid a p)
  | .uuid a p, .number n => some (db, .hset ⟨a, p, n⟩)
  | .hset info, .go =>
    let r := db.hset info.account info
    some (r.1, if r.2 = 0 then .srem info
      else .done (.register info.account info.password) .registered)
  | .srem info, .go =>
    some (db.srem info.account,
      .done (.register info.account info.password) .empty)
  | .sadd (.login a p), .go =>
    let r := db.sadd a
    some (r.1, if r.2 = 1 then .done (.login a p) .none else .hget a p)
  | .hget a p, .go =>
    some (db, match db.account a with
      | none => .done (.login a p) .none
      | some info =>
        if info.password = p then .token info else .done (.login a p) .none)
  | .token info, .number n => some (db, .set info n)
  | .set info t, .go => some (db.set info.uuid t, .expire info t)
  | .expire info t, .go => some (db, .balance info t)
  | .balance info t, .addr a =>
    some (db, .done (.login info.account info.password)
      (match a with
      | none => .none
      | some a => .loggedIn info.uuid t a))
  | .closing (.hset info), .go =>
    let r := db.hset info.account info
    some (r.1, .gone (if r.2 = 0 then none else some info.account))
  | .closing c, .go => some (db.execute c, .gone none)
  | pos, .exit sent => (pos.exit sent).map fun pos => (db, pos)
  | _, _ => none

namespace State

variable {ρ : Type*} [DecidableEq ρ]

def start (db : Redis) : State ρ := ⟨db, fun _ => .idle⟩

def step (s : State ρ) (l : ρ × Input) : Outcome Empty (State ρ) :=
  match run s.redis (s.pos l.1) l.2 with
  | some (db, pos) => .next ⟨db, update s.pos l.1 pos⟩
  | none => .blocked

end State

/-! ## Positions -/

/-- The account of a register request that has added it to the list. -/
def Pos.adding : Pos → Option String
  | .uuid a _ => some a
  | .hset info | .srem info | .closing (.hset info) => some info.account
  | .closing (.srem a) => some a
  | _ => none

/-- The account of a register request in flight. -/
def Pos.registering : Pos → Option String
  | .sadd (.register a _) => some a
  | pos => pos.adding

/-- A login request in flight, or a command which may be one of its. -/
def Pos.loggingIn : Pos → Bool
  | .sadd (.login _ _) | .hget _ _ | .token _ | .set _ _ | .expire _ _
  | .balance _ _ | .closing (.sadd _) | .closing (.set _ _) => true
  | _ => false

/-- The account which a request has registered. -/
def Pos.registered : Pos → Option String
  | .done (.register a _) .registered => some a
  | .gone a => a
  | _ => none

/-- A request that takes a name from the list again. -/
def Pos.removing : Pos → Bool
  | .srem _ | .closing (.srem _) => true
  | _ => false

/-- How many commands and calls a register request has before it. -/
def Pos.rank : Pos → ℕ
  | .sadd _ => 5
  | .uuid _ _ => 4
  | .hset _ => 3
  | .srem _ => 2
  | .closing _ => 1
  | _ => 0

theorem Pos.adding_of_registering
    {pos : Pos} (h : pos.registering = none) : pos.adding = none := by
  cases pos <;> first | rfl | exact h

theorem Pos.removing_of_adding
    {pos : Pos} (h : pos.adding = none) : pos.removing = false := by
  cases pos with
  | closing c => cases c <;> first | rfl | cases h
  | _ => first | rfl | cases h

theorem Pos.adding_of_loggingIn
    {pos : Pos} (h : pos.loggingIn = true) : pos.adding = none := by
  cases pos with
  | closing c => cases c <;> first | rfl | cases h
  | _ => first | rfl | cases h

theorem Pos.registering_of_adding
    {pos : Pos} {a : String} (h : pos.adding = some a) :
    pos.registering = some a := by
  cases pos <;> first | exact h | cases h

/-- What a step does to the two keys. -/
inductive Run (db db' : Redis) : Pos → Pos → Prop
  | quiet (pos pos' : Pos) (hlist : db'.accountList = db.accountList)
      (haccount : db'.account = db.account) (hquiet : pos.registering = none)
      (hadd' : pos'.adding = none) (hold : pos.registered = none) :
      Run db db' pos pos'
  | listed (a p : String) (h : db.accountList a = true) (hdb : db' = db) :
      Run db db' (.sadd (.register a p)) (.done (.register a p) .empty)
  | add (a p : String) (h : db.accountList a = false)
      (hdb : db' = (db.sadd a).1) :
      Run db db' (.sadd (.register a p)) (.uuid a p)
  | number (a p : String) (n : ℕ) (hdb : db' = db) :
      Run db db' (.uuid a p) (.hset ⟨a, p, n⟩)
  | exit (pos pos' : Pos) (hdb : db' = db) (hadd : pos'.adding = pos.adding)
      (hkept : pos'.removing = pos.removing) (hold : pos.registered = none)
      (hleft : ∀ q reply, pos' ≠ .done q reply) : Run db db' pos pos'
  | create (info : Info) (pos pos' : Pos) (h : db.account info.account = none)
      (hdb : db' = (db.hset info.account info).1)
      (hadd : pos.adding = some info.account) (hold : pos.registered = none)
      (hadd' : pos'.adding = none) (hkept : pos'.removing = false)
      (hnew : pos'.registered = some info.account) : Run db db' pos pos'
  | replace (a : String) (pos pos' : Pos) (h : (db.account a).isSome = true)
      (hadd : pos.adding = some a) : Run db db' pos pos'
  | remove (pos pos' : Pos) (h : pos.removing = true) : Run db db' pos pos'

/-- Adding a name that is in the list changes nothing. -/
theorem Redis.sadd_of_mem
    {db : Redis} {a : String} (h : db.accountList a = true) :
    (db.sadd a).1 = db := by
  unfold sadd
  rw [← h, update_eq_self]

/-- Every step that meets the condition below is one of the list. -/
theorem run_cases
    {db db' : Redis} {pos pos' : Pos} {input : Input}
    (hlogin : ∀ a p, pos = .sadd (.login a p) → input = .go →
      db.accountList a = true)
    (hclosing : ∀ a, pos = .closing (.sadd a) → db.accountList a = true)
    (huuid : ∀ a p sent, pos = .uuid a p → input ≠ .exit sent)
    (h : run db pos input = some (db', pos')) : Run db db' pos pos' := by
  unfold run at h
  split at h
  · cases h
    exact .quiet _ _ rfl rfl rfl rfl rfl
  · rename_i a p
    cases h
    cases hmem : db.accountList a with
    | true => simpa [Redis.sadd, hmem] using
        Run.listed a p hmem (Redis.sadd_of_mem hmem)
    | false => simpa [Redis.sadd, hmem] using Run.add a p hmem rfl
  · rename_i a p n
    cases h
    exact .number a p n rfl
  · rename_i info
    cases h
    cases hrecord : db.account info.account with
    | none =>
        simpa [Redis.hset, hrecord] using
          Run.create info (.hset info) _ hrecord rfl rfl rfl rfl rfl rfl
    | some i =>
        exact .replace info.account _ _ (by rw [hrecord]; rfl) rfl
  · cases h
    exact .remove _ _ rfl
  · rename_i a p
    cases h
    have hmem := hlogin a p rfl rfl
    rw [Redis.sadd_of_mem hmem]
    simp only [Redis.sadd, hmem]
    exact .quiet _ _ rfl rfl rfl rfl rfl
  · rename_i a p
    cases h
    cases hrecord : db.account a with
    | none => exact .quiet _ _ rfl rfl rfl rfl rfl
    | some info =>
        simp only
        split <;> exact .quiet _ _ rfl rfl rfl rfl rfl
  · cases h
    exact .quiet _ _ rfl rfl rfl rfl rfl
  · cases h
    exact .quiet _ _ rfl rfl rfl rfl rfl
  · cases h
    exact .quiet _ _ rfl rfl rfl rfl rfl
  · cases h
    exact .quiet _ _ rfl rfl rfl rfl rfl
  · rename_i info
    cases h
    cases hrecord : db.account info.account with
    | none =>
        simpa [Redis.hset, hrecord] using
          Run.create info (.closing (.hset info)) _ hrecord rfl rfl rfl rfl
            rfl rfl
    | some i =>
        exact .replace info.account _ _ (by rw [hrecord]; rfl) rfl
  · rename_i c hhset
    cases h
    cases c with
    | sadd a =>
        simp only [Redis.execute, Redis.sadd_of_mem (hclosing a rfl)]
        exact .quiet _ _ rfl rfl rfl rfl rfl
    | hset info => exact absurd rfl (hhset info)
    | srem a => exact .remove _ _ rfl
    | set uuid token => exact .quiet _ _ rfl rfl rfl rfl rfl
  · rename_i sent
    obtain ⟨_, hexit, heq⟩ := Option.map_eq_some_iff.1 h
    cases heq
    cases pos with
    | sadd q =>
        cases sent <;> cases hexit
        · cases q <;> exact .exit _ _ rfl rfl rfl rfl nofun
        · cases q <;> exact .exit _ _ rfl rfl rfl rfl nofun
    | uuid a p => exact absurd rfl (huuid a p sent rfl)
    | idle | done q reply | closing c | gone a => cases hexit
    | _ =>
        cases hexit
        exact .exit _ _ rfl rfl rfl rfl nofun
  · cases h

/-! ## Every run -/

/-- The name of a login request, or of a request whose agent has exited, is in
`account_list` when its `SADD` is made; and no agent exits when its register
request has added a name and has not sent the record. -/
def State.Undisturbed {ρ : Type*} (s : State ρ) (l : ρ × Input) : Prop :=
  (∀ a p, s.pos l.1 = .sadd (.login a p) → l.2 = .go →
    s.redis.accountList a = true) ∧
  (∀ a, s.pos l.1 = .closing (.sadd a) → s.redis.accountList a = true) ∧
  ∀ a p sent, s.pos l.1 = .uuid a p → l.2 ≠ .exit sent

/-- The names in `account_list` are those with a record and those of the
requests that have added them. -/
structure Sound {ρ : Type*} (db₀ : Redis) (s : State ρ) : Prop where
  listed : ∀ a, s.redis.accountList a = true ↔
    (s.redis.account a).isSome = true ∨ ∃ r, (s.pos r).adding = some a
  unique : ∀ r v a, (s.pos r).adding = some a → (s.pos v).adding = some a →
    v = r
  absent : ∀ r a, (s.pos r).adding = some a → s.redis.account a = none
  kept : ∀ r, (s.pos r).removing = false
  history : ∀ a, (s.redis.account a).isSome = true →
    (db₀.account a).isSome = true ∨ ∃ r, (s.pos r).registered = some a

section Runs

variable {ρ : Type*} [DecidableEq ρ] {db₀ db' : Redis} {s s' : State ρ}
  {pos' : Pos} {r : ρ}

omit [DecidableEq ρ] in
theorem sound_start (h : db₀.Consistent) :
    Sound db₀ (State.start db₀ : State ρ) := by
  refine ⟨fun a => ?_, ?_, ?_, ?_, fun a ha => .inl ha⟩
  · rw [State.start, h a]
    constructor
    · exact .inl
    · rintro (ha | ⟨r, hr⟩)
      · exact ha
      · cases hr
  · intro r v a hr
    cases hr
  · intro r a hr
    cases hr
  · exact fun r => rfl

/-- A request of another name, or none, is as it was. -/
theorem exists_adding_update
    {a : String} (hold : (s.pos r).adding ≠ some a)
    (hnew : pos'.adding ≠ some a) :
    (∃ v, (update s.pos r pos' v).adding = some a) ↔
      ∃ v, (s.pos v).adding = some a := by
  constructor
  · rintro ⟨v, hv⟩
    by_cases hvr : v = r
    · rw [hvr, update_self] at hv
      exact absurd hv hnew
    · rw [update_of_ne hvr] at hv
      exact ⟨v, hv⟩
  · rintro ⟨v, hv⟩
    refine ⟨v, ?_⟩
    rw [update_of_ne]
    · exact hv
    · rintro rfl
      exact hold hv

/-- A registration stays on record. -/
theorem exists_registered_update
    {a : String} (hold : (s.pos r).registered = none)
    (h : ∃ v, (s.pos v).registered = some a) :
    ∃ v, (update s.pos r pos' v).registered = some a := by
  obtain ⟨v, hv⟩ := h
  refine ⟨v, ?_⟩
  rw [update_of_ne]
  · exact hv
  · rintro rfl
    rw [hold] at hv
    cases hv

/-- The two keys and the names that are being added stay as they are. -/
theorem Sound.keep
    (h : Sound db₀ s) (hlist : db'.accountList = s.redis.accountList)
    (haccount : db'.account = s.redis.account)
    (hadd : pos'.adding = (s.pos r).adding) (hkept : pos'.removing = false)
    (hreg : (s.pos r).registered = none) :
    Sound db₀ ⟨db', update s.pos r pos'⟩ := by
  have hview (v : ρ) :
      (update s.pos r pos' v).adding = (s.pos v).adding := by
    by_cases hv : v = r
    · rw [hv, update_self, hadd]
    · rw [update_of_ne hv]
  refine ⟨fun a => ?_, fun u v a hu hv => ?_, fun v a hv => ?_,
    fun v => ?_, fun a ha => ?_⟩
  · simp only [hlist, haccount, hview]
    exact h.listed a
  · simp only [hview] at hu hv
    exact h.unique u v a hu hv
  · simp only [hview] at hv
    simp only [haccount]
    exact h.absent v a hv
  · by_cases hvr : v = r
    · simp only [hvr, update_self, hkept]
    · simp only [update_of_ne hvr, h.kept v]
  · simp only [haccount] at ha
    rcases h.history a ha with h0 | hr
    · exact .inl h0
    · exact .inr (exists_registered_update hreg hr)

/-- A register request adds its name. -/
theorem Sound.add
    (h : Sound db₀ s) {a p : String} (hpos : s.pos r = .sadd (.register a p))
    (hlist : s.redis.accountList a = false) :
    Sound db₀ ⟨(s.redis.sadd a).1, update s.pos r (.uuid a p)⟩ := by
  have hfree : ¬ ((s.redis.account a).isSome = true ∨
      ∃ v, (s.pos v).adding = some a) := by
    rw [← h.listed a, hlist]
    exact Bool.false_ne_true
  have hnone : s.redis.account a = none := by
    rw [← Option.not_isSome_iff_eq_none]
    exact fun hs => hfree (.inl hs)
  have hother {v : ρ} {b : String} (hv : v ≠ r)
      (hb : (update s.pos r (.uuid a p) v).adding = some b) :
      (s.pos v).adding = some b ∧ b ≠ a := by
    rw [update_of_ne hv] at hb
    refine ⟨hb, ?_⟩
    rintro rfl
    exact hfree (.inr ⟨v, hb⟩)
  have hself {b : String}
      (hb : (update s.pos r (.uuid a p) r).adding = some b) :
      a = b := by
    rw [update_self] at hb
    exact Option.some.inj hb
  refine ⟨fun b => ?_, fun u v b hu hv => ?_, fun v b hv => ?_,
    fun v => ?_, fun b hb => ?_⟩
  · by_cases hb : b = a
    · subst hb
      simp only [Redis.sadd, update_self, true_iff]
      refine .inr ⟨r, ?_⟩
      rw [update_self]
      rfl
    · simp only [Redis.sadd, update_of_ne hb]
      rw [h.listed b, exists_adding_update]
      · rw [hpos]
        exact (Option.some_ne_none b).symm
      · exact fun he => hb (Option.some.inj he).symm
  · by_cases hur : u = r
    · subst hur
      by_cases hvu : v = u
      · exact hvu
      · exact absurd (hself hu).symm (hother hvu hv).2
    · obtain ⟨hu, hba⟩ := hother hur hu
      by_cases hvr : v = r
      · subst hvr
        exact absurd (hself hv).symm hba
      · exact h.unique u v b hu (hother hvr hv).1
  · by_cases hvr : v = r
    · subst hvr
      rw [← hself hv]
      exact hnone
    · exact h.absent v b (hother hvr hv).1
  · by_cases hvr : v = r
    · simp only [hvr, update_self, Pos.removing]
    · simp only [update_of_ne hvr, h.kept v]
  · rcases h.history b hb with h0 | hr
    · exact .inl h0
    · exact .inr (exists_registered_update (by rw [hpos]; rfl) hr)

/-- A register request creates the record of the name it has added. -/
theorem Sound.create
    (h : Sound db₀ s) {info : Info}
    (hadding : (s.pos r).adding = some info.account)
    (hold : (s.pos r).registered = none) (hadd' : pos'.adding = none)
    (hkept : pos'.removing = false)
    (hnew : pos'.registered = some info.account) :
    Sound db₀ ⟨(s.redis.hset info.account info).1,
      update s.pos r pos'⟩ := by
  have hother {v : ρ} {b : String}
      (hb : (update s.pos r pos' v).adding = some b) :
      v ≠ r ∧ (s.pos v).adding = some b ∧ b ≠ info.account := by
    have hv : v ≠ r := by
      rintro rfl
      rw [update_self, hadd'] at hb
      cases hb
    rw [update_of_ne hv] at hb
    refine ⟨hv, hb, ?_⟩
    rintro rfl
    exact hv (h.unique r v _ hadding hb)
  refine ⟨fun b => ?_, fun u v b hu hv => ?_, fun v b hv => ?_,
    fun v => ?_, fun b hb => ?_⟩
  · by_cases hb : b = info.account
    · subst hb
      have hmem := (h.listed info.account).mpr (.inr ⟨r, hadding⟩)
      simp only [Redis.hset, update_self, Option.isSome_some, true_or,
        iff_true]
      exact hmem
    · simp only [Redis.hset, update_of_ne hb]
      rw [h.listed b, exists_adding_update]
      · rw [hadding]
        exact fun he => hb (Option.some.inj he).symm
      · rw [hadd']
        exact (Option.some_ne_none b).symm
  · exact h.unique u v b (hother hu).2.1 (hother hv).2.1
  · obtain ⟨-, hv, hb⟩ := hother hv
    simp only [Redis.hset, update_of_ne hb]
    exact h.absent v b hv
  · by_cases hvr : v = r
    · simp only [hvr, update_self, hkept]
    · simp only [update_of_ne hvr, h.kept v]
  · by_cases hba : b = info.account
    · refine .inr ⟨r, ?_⟩
      simp only [update_self, hba, hnew]
    · simp only [Redis.hset, update_of_ne hba] at hb
      rcases h.history b hb with h0 | hr
      · exact .inl h0
      · exact .inr (exists_registered_update hold hr)

theorem Sound.run
    (h : Sound db₀ s) (hs : Run s.redis db' (s.pos r) pos') :
    Sound db₀ ⟨db', update s.pos r pos'⟩ := by
  generalize hpos : s.pos r = pos at hs
  cases hs with
  | quiet _ _ hlist haccount hquiet hadd' hold =>
      refine h.keep hlist haccount ?_ ?_ ?_
      · rw [hpos, Pos.adding_of_registering hquiet, hadd']
      · exact Pos.removing_of_adding hadd'
      · rw [hpos, hold]
  | listed a p _ hdb | number a p n hdb =>
      subst hdb
      refine h.keep rfl rfl ?_ rfl ?_
      · rw [hpos]
        rfl
      · rw [hpos]
        rfl
  | add a p hlist hdb =>
      subst hdb
      exact h.add hpos hlist
  | exit _ _ hdb hadd hkept hold _ =>
      subst hdb
      refine h.keep rfl rfl ?_ ?_ ?_
      · rw [hpos, hadd]
      · rw [hkept, ← hpos, h.kept r]
      · rw [hpos, hold]
  | create info _ _ _ hdb hadd hold hadd' hkept hnew =>
      subst hdb hpos
      exact h.create hadd hold hadd' hkept hnew
  | replace a _ _ hrecord hadd =>
      have hnone := h.absent r a (by rw [hpos, hadd])
      rw [hnone] at hrecord
      cases hrecord
  | remove _ _ hremove =>
      rw [← hpos, h.kept r] at hremove
      cases hremove

theorem State.run_of_step
    {l : ρ × Input} (hok : s.Undisturbed l) (hs : s.step l = .next s') :
    ∃ db' pos', s' = ⟨db', update s.pos l.1 pos'⟩ ∧
      Run s.redis db' (s.pos l.1) pos' := by
  unfold State.step at hs
  split at hs
  · rename_i db' pos' hrun
    cases hs
    exact ⟨db', pos', rfl, run_cases hok.1 hok.2.1 hok.2.2 hrun⟩
  · cases hs

theorem sound_of_reaches
    (hdb : db₀.Consistent)
    (h : Reaches State.step State.Undisturbed (State.start db₀) s) :
    Sound db₀ s := by
  refine h.invariant (Sound db₀) (sound_start hdb) ?_
  intro s l s' hsound hok hs
  obtain ⟨db', pos', rfl, hrun⟩ := State.run_of_step hok hs
  exact hsound.run hrun

/-- A step of a login request leaves the two keys alone. -/
theorem Run.of_loggingIn
    {db db' : Redis} {pos pos' : Pos} (h : Run db db' pos pos')
    (hlogin : pos.loggingIn = true) :
    db'.accountList = db.accountList ∧ db'.account = db.account := by
  have hadding := Pos.adding_of_loggingIn hlogin
  cases h with
  | quiet _ _ hlist haccount => exact ⟨hlist, haccount⟩
  | exit _ _ hdb =>
      subst hdb
      exact ⟨rfl, rfl⟩
  | create _ _ _ _ _ hadd | replace _ _ _ _ hadd =>
      rw [hadding] at hadd
      cases hadd
  | remove _ _ hremove =>
      rw [Pos.removing_of_adding hadding] at hremove
      cases hremove
  | _ => cases hlogin

omit [DecidableEq ρ] in
/-- A register request that fails has met another registration. -/
theorem Sound.of_failed
    (h : Sound db₀ s) {a p : String}
    (hs : Run s.redis db' (s.pos r) (.done (.register a p) .empty))
    (hreg : (s.pos r).registering = some a) :
    (db₀.account a).isSome = true ∨ (∃ v, (s.pos v).registered = some a) ∨
      ∃ v, v ≠ r ∧ (s.pos v).registering = some a := by
  generalize hpos : s.pos r = pos at hs
  cases hs with
  | quiet _ _ _ _ hquiet =>
      rw [hpos, hquiet] at hreg
      cases hreg
  | listed _ _ hlist =>
      rcases (h.listed a).mp hlist with hrecord | ⟨v, hv⟩
      · rcases h.history a hrecord with h0 | hr
        · exact .inl h0
        · exact .inr (.inl hr)
      · refine .inr (.inr ⟨v, ?_, Pos.registering_of_adding hv⟩)
        rintro rfl
        rw [hpos] at hv
        cases hv
  | exit _ _ _ _ _ _ hleft => exact absurd rfl (hleft _ _)
  | create _ _ _ _ _ _ _ _ _ hnew => cases hnew
  | replace b _ _ hrecord hadd =>
      rw [h.absent r b (by rw [hpos, hadd])] at hrecord
      cases hrecord
  | remove _ _ hremove =>
      rw [← hpos, h.kept r] at hremove
      cases hremove

/-- A register request in flight can go on if its agent does not exit, and each
of its steps brings it nearer to its end. -/
theorem run_of_registering
    (db : Redis) {pos : Pos} {a : String} (h : pos.registering = some a) :
    (∃ input r, (∀ sent, input ≠ .exit sent) ∧ run db pos input = some r) ∧
      ∀ input db' pos', run db pos input = some (db', pos') →
        pos'.rank < pos.rank := by
  cases pos with
  | sadd q =>
      cases q with
      | register a p =>
          refine ⟨⟨.go, _, nofun, rfl⟩, fun input db' pos' hrun => ?_⟩
          cases input <;> cases hrun <;> split <;> simp only [Pos.rank] <;>
            omega
      | login a p => cases h
  | uuid a p =>
      refine ⟨⟨.number 0, _, nofun, rfl⟩, fun input db' pos' hrun => ?_⟩
      cases input <;> cases hrun <;> simp only [Pos.rank] <;> omega
  | hset info =>
      refine ⟨⟨.go, _, nofun, rfl⟩, fun input db' pos' hrun => ?_⟩
      cases input <;> cases hrun
      · split <;> simp only [Pos.rank] <;> omega
      · simp only [Pos.rank]
        omega
  | srem info =>
      refine ⟨⟨.go, _, nofun, rfl⟩, fun input db' pos' hrun => ?_⟩
      cases input <;> cases hrun <;> simp only [Pos.rank] <;> omega
  | closing c =>
      cases c with
      | hset info | srem a =>
          refine ⟨⟨.go, _, nofun, rfl⟩, fun input db' pos' hrun => ?_⟩
          cases input <;> cases hrun
          exact Nat.one_pos
      | _ => cases h
  | _ => cases h

namespace State

/-- In every run in which each login request finds its name in `account_list`,
and no agent exits between the commands of a register request: when none is in
flight, the names in `account_list` are those with a record; a login request
changes neither of them; and a register request goes on to its end if its agent
does not exit, and fails only if its name has been registered or is being
registered by another request. -/
theorem account_store_consistent
    (hdb : db₀.Consistent) (h : Reaches step Undisturbed (start db₀) s) :
    ((∀ r, (s.pos r).registering = none) → s.redis.Consistent) ∧
    (∀ r input s', Undisturbed s (r, input) → s.step (r, input) = .next s' →
      (s.pos r).loggingIn = true →
      s'.redis.accountList = s.redis.accountList ∧
        s'.redis.account = s.redis.account) ∧
    (∀ r a, (s.pos r).registering = some a →
      (∃ input s', (∀ sent, input ≠ .exit sent) ∧
        s.step (r, input) = .next s') ∧
      ∀ input s', Undisturbed s (r, input) → s.step (r, input) = .next s' →
        (s'.pos r).rank < (s.pos r).rank ∧
        ((∃ p, s'.pos r = .done (.register a p) .empty) →
          (db₀.account a).isSome = true ∨
            (∃ v, (s.pos v).registered = some a) ∨
            ∃ v, v ≠ r ∧ (s.pos v).registering = some a)) := by
  have hsound := sound_of_reaches hdb h
  refine ⟨fun hquiet a => ?_, fun r input s' hok hs hlogin => ?_,
    fun r a hreg => ⟨?_, fun input s' hok hs => ?_⟩⟩
  · rw [hsound.listed a, or_iff_left]
    rintro ⟨r, hr⟩
    rw [Pos.adding_of_registering (hquiet r)] at hr
    cases hr
  · obtain ⟨db', pos', rfl, hrun⟩ := run_of_step hok hs
    exact hrun.of_loggingIn hlogin
  · obtain ⟨⟨input, ⟨db', pos'⟩, hgo, hrun⟩, -⟩ :=
      run_of_registering s.redis hreg
    refine ⟨input, ⟨db', update s.pos r pos'⟩, hgo, ?_⟩
    simp only [step, hrun]
  · have hrank : (s'.pos r).rank < (s.pos r).rank := by
      unfold step at hs
      split at hs
      · rename_i db' pos' hrun
        cases hs
        simp only [update_self]
        exact (run_of_registering s.redis hreg).2 input db' pos' hrun
      · cases hs
    obtain ⟨db', pos', rfl, hrun⟩ := run_of_step hok hs
    refine ⟨hrank, ?_⟩
    rintro ⟨p, hp⟩
    simp only [update_self] at hp
    rw [hp] at hrun
    exact hsound.of_failed hrun hreg

/-! ## Runs of two requests -/

/-- An empty store. -/
def emptyStore : Redis := ⟨fun _ => false, fun _ => none, fun _ => none⟩

def undisturbedTest (s : State Bool) (l : Bool × Input) : Bool :=
  match s.pos l.1 with
  | .sadd (.login a _) => s.redis.accountList a
  | .uuid _ _ => match l.2 with
    | .exit _ => false
    | _ => true
  | .closing _ => false
  | _ => true

theorem undisturbed_of_test
    (s : State Bool) (l : Bool × Input) (h : s.undisturbedTest l = true) :
    s.Undisturbed l := by
  refine ⟨fun a p hpos _ => ?_, fun a hpos => ?_, fun a p sent hpos hexit => ?_⟩
  · simpa only [undisturbedTest, hpos] using h
  · simp [undisturbedTest, hpos] at h
  · simp [undisturbedTest, hpos, hexit] at h

/-- The theorem above, when an account is registered and then logs in. -/
theorem account_store_consistent_after_login :
    ∃ s : State Bool,
      s.pos true = .done (.register "a" "p") .registered ∧
      s.pos false = .done (.login "a" "p") (.loggedIn 4095 7 "gate") ∧
      s.redis.Consistent := by
  refine ⟨_, rfl, rfl, (account_store_consistent ?_
    (reaches_of_execWhile undisturbed_of_test
      (show execWhile step undisturbedTest (start emptyStore)
        [(true, .call (.register "a" "p")), (true, .go), (true, .number 4095),
          (true, .go), (false, .call (.login "a" "p")), (false, .go),
          (false, .go), (false, .number 7), (false, .go), (false, .go),
          (false, .addr (some "gate"))] = .next _ from rfl))).1 ?_⟩
  · intro a
    exact iff_of_false Bool.false_ne_true Bool.false_ne_true
  · intro r
    cases r <;> rfl

/-- A login request for a name that nobody has registered puts it into
`account_list`; the register request that follows fails. -/
theorem login_adds_account :
    ∃ s : State Bool,
      exec step (start emptyStore)
        [(true, .call (.login "a" "p")), (true, .go),
          (false, .call (.register "a" "p")), (false, .go)] = .next s ∧
      (∀ r, (s.pos r).registering = none) ∧
      s.redis.accountList "a" = true ∧ s.redis.account "a" = none ∧
      s.pos false = .done (.register "a" "p") .empty := by
  refine ⟨_, rfl, fun r => ?_, rfl, rfl, rfl⟩
  cases r <;> rfl

end State

end Runs

end SkynetServer.AccountStore
