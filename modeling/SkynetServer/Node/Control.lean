import SkynetServer.Support.Transition
import Mathlib.Data.Int.Notation

/-!
# The control node

`nodeserver.lua` keeps the table `clients` of the nodes that ping it, and drops
a node that has been silent for `KEEP_LIVE_TM`.  `gamemgrd.lua` keeps the table
`gamelist` of the game nodes; it learns of both by messages on a multicast
channel, which stand in its mailbox together with the calls of other nodes.

Times are in hundredths of a second, as `skynet.now` counts them.
-/

namespace SkynetServer.Control

open Transition

/-- `SERVER_TYPE.GAME` -/
def serverTypeGame : ℤ := 2

/-- `KEEP_LIVE_TM` -/
def keepLiveTm : ℤ := 1200

/-- What a node says of itself in a ping.  `server_type` and `server_id` are
the numbers that `tonumber` makes of them. -/
structure Info where
  nodename : String
  serverType : Option ℤ
  serverId : Option ℤ
  addr : Option String
  deriving DecidableEq, Repr

/-- An entry of `clients.__data`. -/
structure Client where
  info : Info
  tm : ℤ
  deriving DecidableEq, Repr

/-- The tables that are published on the channel. -/
inductive Payload where
  /-- The `info` of a ping. -/
  | info (i : Info)
  /-- An entry `{ info = ..., tm = ... }` of `clients.__data`. -/
  | client (c : Client)
  deriving DecidableEq, Repr

/-- The field `server_type` of a published table. -/
def Payload.serverType : Payload → Option ℤ
  | .info i => i.serverType
  | .client _ => none

/-- The field `nodename` of a published table. -/
def Payload.nodename : Payload → Option String
  | .info i => some i.nodename
  | .client _ => none

/-- What stands in the mailbox of `gamemgrd`. -/
inductive Mail where
  /-- `channel:publish("connect", nodename, info)` -/
  | connect (nodename : String) (table : Payload)
  /-- `channel:publish("disconnect", nodename, info)` -/
  | disconnect (nodename : String) (table : Payload)
  /-- `channel:publish("update", nodename, info)` -/
  | update (nodename : String) (table : Payload)
  /-- A call of `CMD.update_agent_cnt`. -/
  | updateAgentCnt (nodename : String) (cnt : ℕ)
  /-- A call of `CMD.gate_addr`. -/
  | gateAddr (nodename : String) (addr : String)
  deriving DecidableEq, Repr

/-- The messages of the channel. -/
def Mail.published : Mail → Bool
  | .connect _ _ | .disconnect _ _ | .update _ _ => true
  | _ => false

/-- An entry of `gamelist`. -/
structure Game where
  info : Info
  cnt : ℕ
  gateAddr : Option String
  deriving DecidableEq, Repr

/-! ## `gamemgrd` -/

/-- `gamelist` -/
abbrev Gamelist := String → Option Game

namespace Gamelist

/-- `CHANNEL_CMD.connect` -/
def connect (g : Gamelist) (table : Payload) : Gamelist :=
  if table.serverType = some serverTypeGame then
    match table with
    | .info i => Function.update g i.nodename (some ⟨i, 0, none⟩)
    | .client _ => g
  else g

/-- `CHANNEL_CMD.disconnect` -/
def disconnect (g : Gamelist) (table : Payload) : Gamelist :=
  if table.serverType = some serverTypeGame then
    match table.nodename with
    | some n => Function.update g n none
    | none => g
  else g

/-- `CMD.update_agent_cnt` -/
def updateAgentCnt (g : Gamelist) (nodename : String) (cnt : ℕ) : Gamelist :=
  match g nodename with
  | some game => Function.update g nodename (some { game with cnt })
  | none => g

/-- `CMD.gate_addr` -/
def setGateAddr (g : Gamelist) (nodename : String) (addr : String) :
    Gamelist :=
  match g nodename with
  | some game =>
    if game.info.serverType = some serverTypeGame then
      Function.update g nodename (some { game with gateAddr := some addr })
    else g
  | none => g

/-- `gamemgrd` handles one message or call; it has no command for
`"update"`. -/
def serve (g : Gamelist) : Mail → Gamelist
  | .connect _ table => g.connect table
  | .disconnect _ table => g.disconnect table
  | .update _ _ => g
  | .updateAgentCnt n cnt => g.updateAgentCnt n cnt
  | .gateAddr n addr => g.setGateAddr n addr

/-- The body of the loop of `CMD.balance_game`. -/
def balanceStep (g : Gamelist) (min : Option Game) (n : String) :
    Option Game :=
  match g n, min with
  | some game, some m => if m.cnt > game.cnt then some game else some m
  | some game, none => some game
  | none, min => min

/-- The loop of `CMD.balance_game`, over the names in the order of `pairs`. -/
def balanceMin (g : Gamelist) (names : List String) : Option Game :=
  names.foldl g.balanceStep none

/-- `CMD.balance_game` -/
def balanceGame (g : Gamelist) (names : List String) : String :=
  match g.balanceMin names with
  | some min => min.gateAddr.getD ""
  | none => ""

/-- Only entries of `gamelist` are candidates. -/
theorem exists_of_balanceStep
    {g : Gamelist} {min : Option Game} {n : String} {game : Game}
    (hmin : ∀ m, min = some m → ∃ n, g n = some m)
    (h : g.balanceStep min n = some game) : ∃ n, g n = some game := by
  unfold balanceStep at h
  split at h
  · rename_i new old hnew
    split at h
    · cases h
      exact ⟨n, hnew⟩
    · exact hmin game h
  · rename_i new hnew
    cases h
    exact ⟨n, hnew⟩
  · exact hmin game h

theorem exists_of_balanceMin
    {g : Gamelist} {names : List String} {game : Game}
    (h : g.balanceMin names = some game) : ∃ n, g n = some game := by
  have hgeneral (names : List String) (min : Option Game)
      (hmin : ∀ m, min = some m → ∃ n, g n = some m)
      (h : names.foldl g.balanceStep min = some game) :
      ∃ n, g n = some game := by
    induction names generalizing min with
    | nil => exact hmin game h
    | cons n names ih =>
        exact ih _ (fun m hm => exists_of_balanceStep hmin hm) h
  exact hgeneral names none (fun m hm => by cases hm) h

end Gamelist

/-! ## `nodeserver` -/

/-- The two services of the control node. -/
structure State where
  clients : String → Option Client
  /-- The time which a running `keeplive` has read. -/
  sweep : Option ℤ
  mailbox : List Mail
  gamelist : Gamelist

inductive Label where
  /-- `CMD.ping` -/
  | ping (info : Info) (now : ℤ)
  /-- `clients.keeplive` begins. -/
  | keeplive (now : ℤ)
  /-- `clients.keeplive` comes to a node. -/
  | visit (nodename : String)
  /-- `clients.keeplive` ends. -/
  | swept
  /-- `gamemgrd` handles the first of its messages and calls. -/
  | serve
  /-- Another node calls `gamemgrd`. -/
  | call (mail : Mail)
  /-- The control node is started again. -/
  | restart

namespace State

def create : State := ⟨fun _ => none, none, [], fun _ => none⟩

/-- `clients.connect` -/
def connect (s : State) (info : Info) (now : ℤ) : State :=
  { s with
    clients := Function.update s.clients info.nodename (some ⟨info, now⟩)
    mailbox := s.mailbox ++ [.connect info.nodename (.info info)] }

/-- `clients.disconnect`, which publishes the entry and not its `info`. -/
def disconnect (s : State) (nodename : String) (c : Client) : State :=
  { s with
    clients := Function.update s.clients nodename none
    mailbox := s.mailbox ++ [.disconnect nodename (.client c)] }

/-- `clients.update` -/
def update (s : State) (c : Client) (info : Info) (now : ℤ) : State :=
  { s with
    clients :=
      Function.update s.clients info.nodename (some { c with tm := now })
    mailbox := s.mailbox ++ [.update info.nodename (.info info)] }

/-- `CMD.ping`; the second value is `reconnect`. -/
def ping (s : State) (info : Info) (now : ℤ) : State × Bool :=
  match s.clients info.nodename with
  | some c => (s.update c info now, false)
  | none => (s.connect info now, true)

/-- The body of the loop of `clients.keeplive`. -/
def visit (s : State) (nodename : String) (now : ℤ) (c : Client) : State :=
  if now - c.tm ≥ keepLiveTm then s.disconnect nodename c else s

def step (s : State) : Label → Outcome Empty State
  | .ping info now => .next (s.ping info now).1
  | .keeplive now =>
    match s.sweep with
    | none => .next { s with sweep := some now }
    | some _ => .blocked
  | .visit n =>
    match s.sweep, s.clients n with
    | some now, some c => .next (s.visit n now c)
    | _, _ => .blocked
  | .swept => .next { s with sweep := none }
  | .serve =>
    match s.mailbox with
    | m :: rest =>
      .next { s with mailbox := rest, gamelist := s.gamelist.serve m }
    | [] => .blocked
  | .call m =>
    if m.published then .blocked
    else .next { s with mailbox := s.mailbox ++ [m] }
  | .restart => .next create

/-- A game node is present in `clients`. -/
def IsGame (s : State) (n : String) : Prop :=
  ∃ c, s.clients n = some c ∧ c.info.serverType = some serverTypeGame

/-- `gamelist` once the mailbox is empty. -/
def settled (s : State) : Gamelist := s.mailbox.foldl Gamelist.serve s.gamelist

theorem settled_append (s : State) (mailbox : List Mail) (m : Mail)
    (h : s.mailbox = mailbox ++ [m]) :
    s.settled = (mailbox.foldl Gamelist.serve s.gamelist).serve m := by
  unfold settled
  rw [h, List.foldl_append]
  rfl

end State

/-! ## Every run -/

/-- `keeplive` drops no game node. -/
def State.SparesGame (s : State) (l : Label) : Prop :=
  ∀ n now c, l = .visit n → s.sweep = some now → s.clients n = some c →
    now - c.tm ≥ keepLiveTm → c.info.serverType ≠ some serverTypeGame

/-- The names in `gamelist` will be those of the game nodes in `clients`. -/
structure Matched (s : State) : Prop where
  named : ∀ n c, s.clients n = some c → c.info.nodename = n
  keys : ∀ n, (s.settled n).isSome = true ↔ s.IsGame n

theorem matched_create : Matched State.create := by
  refine ⟨?_, fun n => ?_⟩
  · intro n c h
    cases h
  · refine iff_of_false Bool.false_ne_true ?_
    rintro ⟨c, h, -⟩
    cases h

/-- A call keeps the names. -/
theorem serve_isSome
    (g : Gamelist) {m : Mail} (h : m.published = false) (n : String) :
    (g.serve m n).isSome = (g n).isSome := by
  have hupdate (a : String) (game new : Game) (hgame : g a = some game) :
      (Function.update g a (some new) n).isSome = (g n).isSome := by
    by_cases hn : n = a
    · rw [hn, Function.update_self, hgame]
      rfl
    · rw [Function.update_of_ne hn]
  cases m with
  | updateAgentCnt a cnt =>
      simp only [Gamelist.serve, Gamelist.updateAgentCnt]
      cases hgame : g a with
      | none => rfl
      | some game => exact hupdate a game _ hgame
  | gateAddr a addr =>
      simp only [Gamelist.serve, Gamelist.setGateAddr]
      cases hgame : g a with
      | none => rfl
      | some game =>
          simp only
          split
          · exact hupdate a game _ hgame
          · rfl
  | _ => cases h

namespace Matched

variable {s s' : State}

/-- A message that does not change the names. -/
theorem post
    (h : Matched s) (hmailbox : ∃ m, s'.mailbox = s.mailbox ++ [m] ∧
      ∀ n, ((s.settled.serve m) n).isSome = (s.settled n).isSome)
    (hgamelist : s'.gamelist = s.gamelist)
    (hnamed : ∀ n c, s'.clients n = some c → c.info.nodename = n)
    (hgame : ∀ n, s'.IsGame n ↔ s.IsGame n) : Matched s' := by
  obtain ⟨m, hm, hserve⟩ := hmailbox
  refine ⟨hnamed, fun n => ?_⟩
  rw [hgame n, ← h.keys n, State.settled_append s' s.mailbox m hm, hgamelist]
  exact Bool.eq_iff_iff.mp (hserve n)

theorem update
    (h : Matched s) {c : Client} {info : Info} (now : ℤ)
    (hc : s.clients info.nodename = some c) :
    Matched (s.update c info now) := by
  refine h.post ⟨_, rfl, fun n => rfl⟩ rfl (fun n d hd => ?_) fun n => ?_
  · by_cases hn : n = info.nodename
    · subst hn
      simp only [State.update, Function.update_self] at hd
      cases hd
      exact h.named _ c hc
    · simp only [State.update, Function.update_of_ne hn] at hd
      exact h.named n d hd
  · unfold State.IsGame
    by_cases hn : n = info.nodename
    · subst hn
      simp [State.update, hc]
    · simp only [State.update, Function.update_of_ne hn]

theorem connect
    (h : Matched s) {info : Info} (now : ℤ)
    (hc : s.clients info.nodename = none) :
    Matched (s.connect info now) := by
  have hother {n : String} (hn : n ≠ info.nodename) :
      (s.connect info now).IsGame n ↔ s.IsGame n := by
    unfold State.IsGame
    simp only [State.connect, Function.update_of_ne hn]
  have hself : (s.connect info now).IsGame info.nodename ↔
      info.serverType = some serverTypeGame := by
    unfold State.IsGame
    simp [State.connect]
  have hsettled : (s.connect info now).settled =
      s.settled.connect (.info info) :=
    State.settled_append (s.connect info now) s.mailbox _ rfl
  refine ⟨fun n d hd => ?_, fun n => ?_⟩
  · by_cases hn : n = info.nodename
    · subst hn
      simp only [State.connect, Function.update_self] at hd
      cases hd
      rfl
    · simp only [State.connect, Function.update_of_ne hn] at hd
      exact h.named n d hd
  · rw [hsettled]
    unfold Gamelist.connect
    by_cases hn : n = info.nodename
    · subst hn
      rw [hself]
      by_cases hgame : info.serverType = some serverTypeGame
      · simp [Payload.serverType, hgame]
      · have hother : (Payload.info info).serverType ≠ some serverTypeGame :=
          hgame
        rw [if_neg hother, h.keys]
        refine iff_of_false ?_ hgame
        rintro ⟨c, hsome, -⟩
        rw [hc] at hsome
        cases hsome
    · rw [hother hn, ← h.keys n]
      split
      · simp only [Function.update_of_ne hn]
      · rfl

theorem disconnect
    (h : Matched s) {n : String} {c : Client} (hc : s.clients n = some c)
    (hgame : c.info.serverType ≠ some serverTypeGame) :
    Matched (s.disconnect n c) := by
  refine h.post ⟨_, rfl, fun m => rfl⟩ rfl (fun m d hd => ?_) fun m => ?_
  · by_cases hm : m = n
    · subst hm
      simp only [State.disconnect, Function.update_self] at hd
      cases hd
    · simp only [State.disconnect, Function.update_of_ne hm] at hd
      exact h.named m d hd
  · unfold State.IsGame
    by_cases hm : m = n
    · subst hm
      simp [State.disconnect, hc, hgame]
    · simp only [State.disconnect, Function.update_of_ne hm]

theorem step
    (h : Matched s) {l : Label} (hok : s.SparesGame l)
    (hs : s.step l = .next s') : Matched s' := by
  cases l with
  | ping info now =>
      cases hs
      unfold State.ping
      split
      · exact h.update now ‹_›
      · exact h.connect now ‹_›
  | keeplive now =>
      simp only [State.step] at hs
      split at hs
      · cases hs
        exact ⟨h.named, h.keys⟩
      · cases hs
  | visit n =>
      simp only [State.step] at hs
      split at hs
      · rename_i now c hnow hc
        cases hs
        unfold State.visit
        split
        · rename_i hold
          exact h.disconnect hc (hok n now c rfl hnow hc hold)
        · exact h
      · cases hs
  | swept =>
      cases hs
      exact ⟨h.named, h.keys⟩
  | serve =>
      simp only [State.step] at hs
      split at hs
      · rename_i m rest hm
        cases hs
        refine ⟨h.named, fun n => ?_⟩
        have hkeys := h.keys n
        unfold State.settled at hkeys ⊢
        rw [hm] at hkeys
        exact hkeys
      · cases hs
  | call m =>
      simp only [State.step] at hs
      split at hs
      · cases hs
      · rename_i hm
        cases hs
        exact h.post ⟨m, rfl, serve_isSome _ (Bool.eq_false_iff.mpr hm)⟩ rfl
          h.named fun n => Iff.rfl
  | restart =>
      cases hs
      exact matched_create

end Matched

namespace State

/-- Calls that wait do not change the names. -/
theorem settled_isSome
    {s : State} (h : ∀ m ∈ s.mailbox, m.published = false) (n : String) :
    (s.settled n).isSome = (s.gamelist n).isSome := by
  have hgeneral (mailbox : List Mail) (g : Gamelist)
      (h : ∀ m ∈ mailbox, m.published = false) :
      (mailbox.foldl Gamelist.serve g n).isSome = (g n).isSome := by
    induction mailbox generalizing g with
    | nil => rfl
    | cons m mailbox ih =>
        rw [List.foldl_cons, ih _ fun m' hm' => h m' (List.mem_cons_of_mem _ hm')]
        exact serve_isSome g (h m List.mem_cons_self) n
  exact hgeneral s.mailbox s.gamelist h

/-- In every run in which `keeplive` drops no game node: once the messages of
the channel have been handled, the names in `gamelist` are those of the game
nodes in `clients`, and only these are candidates of `balance_game`. -/
theorem gamelist_matches_clients
    {s : State} (h : Reaches step SparesGame create s)
    (hmail : ∀ m ∈ s.mailbox, m.published = false) :
    (∀ n, (s.gamelist n).isSome = true ↔ s.IsGame n) ∧
      ∀ names game, s.gamelist.balanceMin names = some game →
        ∃ n, s.gamelist n = some game ∧ s.IsGame n := by
  have hmatched : Matched s :=
    h.invariant Matched matched_create fun _ _ _ hI hok hs => hI.step hok hs
  have hkeys (n : String) : (s.gamelist n).isSome = true ↔ s.IsGame n := by
    rw [← settled_isSome hmail]
    exact hmatched.keys n
  refine ⟨hkeys, fun names game hmin => ?_⟩
  obtain ⟨n, hn⟩ := Gamelist.exists_of_balanceMin hmin
  refine ⟨n, hn, (hkeys n).mp ?_⟩
  rw [hn]
  rfl

/-! ## One game node -/

/-- The ping of a game node. -/
def gameInfo : Info := ⟨"game", some 2, some 1, some "127.0.0.1:3500"⟩

def sparesGameTest (s : State) : Label → Bool
  | .visit n =>
    match s.sweep, s.clients n with
    | some now, some c =>
      !(now - c.tm ≥ keepLiveTm) || c.info.serverType ≠ some serverTypeGame
    | _, _ => true
  | _ => true

theorem sparesGame_of_test
    (s : State) (l : Label) (h : s.sparesGameTest l = true) :
    s.SparesGame l := by
  intro n now c hl hnow hc hold
  subst hl
  simp only [sparesGameTest, hnow, hc] at h
  simpa [hold] using h

/-- The theorem above for a game node that is visited in time. -/
theorem gamelist_matches_clients_in_time :
    ∃ s : State, s.IsGame "game" ∧ (s.gamelist "game").isSome = true := by
  have hrun : execWhile step sparesGameTest create
      [.ping gameInfo 0, .serve, .keeplive 500, .visit "game", .swept] =
        .next ⟨Function.update (fun _ => none) "game" (some ⟨gameInfo, 0⟩),
          none, [],
          Function.update (fun _ => none) "game"
            (some ⟨gameInfo, 0, none⟩)⟩ := rfl
  have hmatches := gamelist_matches_clients
    (reaches_of_execWhile sparesGame_of_test hrun) nofun
  have hgame := (hmatches.1 "game").mp rfl
  exact ⟨_, hgame, (hmatches.1 "game").mpr hgame⟩

/-- A game node falls silent and is dropped by `keeplive`.  It stays in
`gamelist`, and is the choice of `balance_game`. -/
theorem silent_game_stays :
    ∃ s : State,
      exec step create
        [.ping gameInfo 0, .serve, .keeplive 1200, .visit "game", .swept,
          .serve] = .next s ∧
      s.mailbox = [] ∧ s.clients "game" = none ∧
      (s.gamelist "game").isSome = true ∧
      s.gamelist.balanceMin ["game"] = some ⟨gameInfo, 0, none⟩ := by
  exact ⟨_, rfl, rfl, rfl, rfl, rfl⟩

end State

end SkynetServer.Control
