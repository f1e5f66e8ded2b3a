import SkynetServer.Node.Control

/-!
# The gate address of a game node

The heartbeats of one game node against the control node: `nodeclient.lua`
pings the `nodeserver` of the control node and publishes what it finds;
`controlclientd.lua` then reports the number of agents and the gate address to
`gamemgrd`.  Both nodes may be started again at any time.

The first heartbeat belongs to the start of `nodeclient`, and `controlclientd`
subscribes to the channel later; what is published before is lost.
-/

namespace SkynetServer.GateAddress

open Transition Control

/-! ## The game node -/

/-- The ping of `connection.heart`. -/
inductive Ping where
  | none
  /-- On the way to the control node. -/
  | sent
  /-- Handled there; the answer is on the way. -/
  | handled (reconnect : Bool)
  deriving DecidableEq, Repr

/-- What `controlclientd` has to do: a message of the channel, or a handler
before its next call. -/
inductive Task where
  | connect
  | disconnect
  | reconnect
  /-- `update_cnt` before `get_agent_cnt`; `full` in `CHANNEL_CMD.connect`. -/
  | getCnt (full : Bool)
  /-- `update_cnt` before the call of `update_agent_cnt`. -/
  | putCnt (full : Bool) (cnt : ℕ)
  /-- `CHANNEL_CMD.connect` before `get_gate_addr`. -/
  | getAddr
  /-- `CHANNEL_CMD.connect` before the call of `gate_addr`. -/
  | putAddr (addr : String)
  deriving DecidableEq, Repr

/-- The services of the game node. -/
structure Node where
  /-- `connection.__data["control"]` -/
  exist : Bool
  ping : Ping
  /-- The outcomes of the heartbeats since the start, the last one first. -/
  beats : List Bool
  /-- What the watchdog returns for `get_gate_addr`. -/
  addr : String
  /-- `controlclientd` has subscribed to the channel. -/
  subscribed : Bool
  tasks : List Task

namespace Node

def create (addr : String) : Node := ⟨false, .none, [], addr, false, []⟩

/-- `channel:publish` -/
def publish (n : Node) (t : Task) : Node :=
  if n.subscribed then { n with tasks := n.tasks ++ [t] } else n

/-- `connection.connect` -/
def connect (n : Node) : Node :=
  if n.exist then n else { n with exist := true }.publish .connect

/-- `connection.disconnect` -/
def disconnect (n : Node) : Node :=
  if n.exist then { n with exist := false }.publish .disconnect else n

/-- `connection.reconnect` -/
def reconnect (n : Node) : Node := n.publish .reconnect

/-- A heartbeat ends. -/
def beat (n : Node) (ok : Bool) : Node :=
  { n with ping := .none, beats := ok :: n.beats }

/-- `connection.heart` when its ping is answered. -/
def answered (n : Node) (reconnect : Bool) : Node :=
  if reconnect then n.reconnect.beat true else n.connect.beat true

/-- `connection.heart` when its ping fails. -/
def failed (n : Node) : Node := n.disconnect.beat false

end Node

/-- A step of `controlclientd`: what it calls, and what is left to do.  The
watchdog returns `cnt` and `addr`. -/
def Task.run (me addr : String) (cnt : ℕ) : Task → List Mail × List Task
  | .connect => ([], [.getCnt true])
  | .disconnect => ([], [])
  | .reconnect => ([], [.getCnt false])
  | .getCnt full => ([], [.putCnt full cnt])
  | .putCnt full n =>
    ([.updateAgentCnt me n], if full then [.getAddr] else [])
  | .getAddr => ([], [.putAddr addr])
  | .putAddr a => ([.gateAddr me a], [])

/-! ## Both nodes -/

structure State where
  control : Control.State
  node : Node

inductive Label where
  /-- The control node goes on without this game node. -/
  | control (l : Control.Label)
  /-- `connection.heart` sends its ping. -/
  | heart
  /-- `nodeserver` handles the ping. -/
  | handle (now : ℤ)
  /-- The answer arrives. -/
  | answer
  /-- The ping fails. -/
  | fail
  /-- `init_channel` of `controlclientd`. -/
  | subscribe
  /-- `controlclientd` goes on with the task at position `i`. -/
  | task (i cnt : ℕ)
  /-- An agent calls `CMD.update_cnt`. -/
  | updateCnt
  /-- The game node is started again, with this gate address. -/
  | restart (addr : String)

/-- Steps of the control node that are not this game node's. -/
def foreign (me : String) : Control.Label → Bool
  | .ping info _ => info.nodename ≠ me
  | .call (.updateAgentCnt n _) | .call (.gateAddr n _) => n ≠ me
  | _ => true

namespace State

variable (me : Info)

def create (addr : String) : State := ⟨.create, .create addr⟩

def step (s : State) : Label → Outcome Empty State
  | .control l =>
    if foreign me.nodename l then
      match s.control.step l with
      | .next c => .next { s with control := c }
      | .blocked => .blocked
      | .fault f => .fault f
    else .blocked
  | .heart =>
    match s.node.ping with
    | .none => .next { s with node := { s.node with ping := .sent } }
    | _ => .blocked
  | .handle now =>
    match s.node.ping with
    | .sent =>
      let r := s.control.ping me now
      .next ⟨r.1, { s.node with ping := .handled r.2 }⟩
    | _ => .blocked
  | .answer =>
    match s.node.ping with
    | .handled reconnect =>
      .next { s with node := s.node.answered reconnect }
    | _ => .blocked
  | .fail =>
    match s.node.ping with
    | .none => .blocked
    | _ => .next { s with node := s.node.failed }
  | .subscribe =>
    -- the launch of `nodeclient` returns when its first heartbeat has ended
    match s.node.beats with
    | [] => .blocked
    | _ => .next { s with node := { s.node with subscribed := true } }
  | .task i cnt =>
    match s.node.tasks[i]? with
    | some t =>
      let r := t.run me.nodename s.node.addr cnt
      .next
        { control := { s.control with mailbox := s.control.mailbox ++ r.1 }
          node := { s.node with tasks := s.node.tasks.eraseIdx i ++ r.2 } }
    | none => .blocked
  | .updateCnt =>
    .next
      { s with
        node := { s.node with tasks := s.node.tasks ++ [.getCnt false] } }
  | .restart addr => .next { s with node := .create addr }

/-- The control node has not forgotten the game node when a heartbeat follows a
successful one, and `controlclientd` has subscribed when the game node finds the
connection. -/
def Remembered (s : State) (l : Label) : Prop :=
  (∀ now, l = .handle now → s.node.ping = .sent →
    s.node.beats.head? = some true → s.control.clients me.nodename ≠ none) ∧
  (l = .answer → s.node.ping = .handled false → s.node.exist = false →
    s.node.subscribed = true)

end State

/-! ## What a mail does to an entry -/

/-- The name whose entry a mail changes. -/
def concerns : Mail → Option String
  | .connect _ table | .disconnect _ table => table.nodename
  | .update _ _ => none
  | .updateAgentCnt n _ | .gateAddr n _ => some n

theorem serve_of_ne
    (g : Gamelist) {m : Mail} {n : String} (h : concerns m ≠ some n) :
    g.serve m n = g n := by
  have hupdate {a : String} {e : Option Game} (ha : some a ≠ some n) :
      Function.update g a e n = g n :=
    Function.update_of_ne (fun hn => ha (congrArg some hn.symm)) ..
  cases m with
  | connect a table =>
      simp only [Gamelist.serve, Gamelist.connect]
      split
      · cases table with
        | info i => exact hupdate h
        | client c => rfl
      · rfl
  | disconnect a table =>
      simp only [Gamelist.serve, Gamelist.disconnect]
      split
      · cases table with
        | info i => exact hupdate h
        | client c => rfl
      · rfl
  | update a table => rfl
  | updateAgentCnt a cnt =>
      simp only [Gamelist.serve, Gamelist.updateAgentCnt]
      cases g a with
      | none => rfl
      | some game => exact hupdate h
  | gateAddr a addr =>
      simp only [Gamelist.serve, Gamelist.setGateAddr]
      cases g a with
      | none => rfl
      | some game =>
          simp only
          split
          · exact hupdate h
          · rfl

/-- All entries are those of game nodes. -/
def Typed (g : Gamelist) : Prop :=
  ∀ n game, g n = some game → game.info.serverType = some serverTypeGame

variable {g : Gamelist}

theorem Typed.update
    (h : Typed g) (n : String) (e : Option Game)
    (he : ∀ game, e = some game →
      game.info.serverType = some serverTypeGame) :
    Typed (Function.update g n e) := by
  intro m game hm
  by_cases hmn : m = n
  · rw [hmn, Function.update_self] at hm
    exact he game hm
  · rw [Function.update_of_ne hmn] at hm
    exact h m game hm

theorem Typed.serve (h : Typed g) (m : Mail) :
    Typed (g.serve m) := by
  cases m with
  | connect a table =>
      simp only [Gamelist.serve, Gamelist.connect]
      split
      · rename_i htype
        cases table with
        | info i =>
            refine h.update _ _ fun game hgame => ?_
            cases hgame
            exact htype
        | client c => exact h
      · exact h
  | disconnect a table =>
      simp only [Gamelist.serve, Gamelist.disconnect]
      split
      · cases table with
        | info i => exact h.update _ _ fun game hgame => by cases hgame
        | client c => exact h
      · exact h
  | update a table => exact h
  | updateAgentCnt a cnt =>
      simp only [Gamelist.serve, Gamelist.updateAgentCnt]
      cases hg : g a with
      | none => exact h
      | some game =>
          refine h.update _ _ fun new hnew => ?_
          cases hnew
          exact h a game hg
  | gateAddr a addr =>
      simp only [Gamelist.serve, Gamelist.setGateAddr]
      cases hg : g a with
      | none => exact h
      | some game =>
          simp only
          split
          · refine h.update _ _ fun new hnew => ?_
            cases hnew
            exact h a game hg
          · exact h

theorem Typed.foldl (h : Typed g) (mails : List Mail) :
    Typed (mails.foldl Gamelist.serve g) := by
  induction mails generalizing g with
  | nil => exact h
  | cons m mails ih => exact ih (h.serve m)

/-- A report of the number of agents keeps the gate address. -/
theorem updateAgentCnt_gateAddr
    (g : Gamelist) (me : String) (cnt : ℕ) {P : Option String → Prop}
    (h : ∀ game, g me = some game → P game.gateAddr) {game : Game}
    (hgame : g.serve (.updateAgentCnt me cnt) me = some game) :
    P game.gateAddr := by
  simp only [Gamelist.serve, Gamelist.updateAgentCnt] at hgame
  cases hg : g me with
  | none =>
      rw [hg] at hgame
      simp only [hg] at hgame
      cases hgame
  | some old =>
      rw [hg] at hgame
      simp only [Function.update_self, Option.some.injEq] at hgame
      rw [← hgame]
      exact h old hg

/-- A report of the gate address is stored. -/
theorem setGateAddr_gateAddr
    (htyped : Typed g) (me addr : String) {game : Game}
    (hgame : g.serve (.gateAddr me addr) me = some game) :
    game.gateAddr = some addr := by
  simp only [Gamelist.serve, Gamelist.setGateAddr] at hgame
  cases hg : g me with
  | none =>
      rw [hg] at hgame
      simp only [hg] at hgame
      cases hgame
  | some old =>
      rw [hg] at hgame
      simp only [htyped me old hg, if_true, Function.update_self,
        Option.some.injEq] at hgame
      rw [← hgame]

/-! ## Every run -/

/-- A task that ends in a report of the gate address. -/
def Task.reports : Task → Bool
  | .connect | .getCnt true | .putCnt true _ | .getAddr | .putAddr _ => true
  | _ => false

/-- Once the game node has found a connection, the report of its gate address
is under way or has been made. -/
structure Sound (me : Info) (s : State) : Prop where
  typed : Typed s.control.gamelist
  latest : s.node.exist = true → s.node.beats.head? = some true
  forgotten : s.node.ping = .handled true → s.node.beats.head? ≠ some true
  twice : ∀ rest, s.node.beats = true :: true :: rest → s.node.exist = true
  own : ∀ a, .putAddr a ∈ s.node.tasks → a = s.node.addr
  address : s.node.exist = true →
    (∃ t ∈ s.node.tasks, t.reports = true) ∨
      ∀ game, s.control.settled me.nodename = some game →
        game.gateAddr = some s.node.addr

theorem sound_create (me : Info) (addr : String) :
    Sound me (.create addr) := by
  refine ⟨?_, ?_, ?_, ?_, ?_, ?_⟩
  · intro n game h
    cases h
  · intro h
    cases h
  · intro h
    cases h
  · intro rest h
    cases h
  · intro a h
    cases h
  · intro h
    cases h

/-- The control node by itself keeps the entry of the game node, or forgets
it. -/
theorem control_step
    {c c' : Control.State} {me : String} {l : Control.Label}
    (hforeign : foreign me l = true) (hs : c.step l = .next c') :
    (c'.settled me = c.settled me ∨ c'.settled me = none) ∧
      (Typed c.gamelist → Typed c'.gamelist) := by
  -- a mail that does not concern the node is added
  have hpost (d : Control.State) (m : Mail)
      (hm : d.mailbox = c.mailbox ++ [m]) (hg : d.gamelist = c.gamelist)
      (hne : concerns m ≠ some me) :
      (d.settled me = c.settled me ∨ d.settled me = none) ∧
        (Typed c.gamelist → Typed d.gamelist) := by
    refine ⟨.inl ?_, fun h => hg ▸ h⟩
    rw [Control.State.settled_append d c.mailbox m hm, hg]
    exact serve_of_ne _ hne
  cases l with
  | ping info now =>
      cases hs
      unfold Control.State.ping
      split
      · refine hpost _ _ rfl rfl fun he => ?_
        cases he
      · refine hpost _ _ rfl rfl fun he => ?_
        exact of_decide_eq_true hforeign (Option.some.inj he)
  | keeplive now =>
      simp only [Control.State.step] at hs
      split at hs
      · cases hs
        exact ⟨.inl rfl, id⟩
      · cases hs
  | visit n =>
      simp only [Control.State.step] at hs
      split at hs
      · cases hs
        unfold Control.State.visit
        split
        · refine hpost _ _ rfl rfl fun he => ?_
          cases he
        · exact ⟨.inl rfl, id⟩
      · cases hs
  | swept =>
      cases hs
      exact ⟨.inl rfl, id⟩
  | serve =>
      simp only [Control.State.step] at hs
      split at hs
      · rename_i m rest hm
        cases hs
        refine ⟨.inl ?_, fun h => h.serve m⟩
        unfold Control.State.settled
        rw [hm]
        rfl
      · cases hs
  | call m =>
      simp only [Control.State.step] at hs
      split at hs
      · cases hs
      · rename_i hcall
        cases hs
        refine hpost _ m rfl rfl fun he => ?_
        cases m with
        | updateAgentCnt n cnt | gateAddr n addr =>
            exact of_decide_eq_true hforeign (Option.some.inj he)
        | _ => exact hcall rfl
  | restart =>
      cases hs
      refine ⟨.inr rfl, fun _ n game h => ?_⟩
      cases h

namespace Sound

variable {me : Info} {s : State}

theorem control
    (h : Sound me s) {l : Control.Label} {c : Control.State}
    (hforeign : foreign me.nodename l = true)
    (hs : s.control.step l = .next c) : Sound me { s with control := c } := by
  obtain ⟨hsettled, htyped⟩ := control_step hforeign hs
  refine ⟨htyped h.typed, h.latest, h.forgotten, h.twice, h.own, fun he => ?_⟩
  rcases h.address he with ht | hgate
  · exact .inl ht
  · refine .inr fun game hgame => ?_
    rcases hsettled with hsame | hnone
    · exact hgate game (hsame ▸ hgame)
    · rw [hnone] at hgame
      cases hgame

theorem handle
    (h : Sound me s) {now : ℤ}
    (hok : s.node.beats.head? = some true →
      s.control.clients me.nodename ≠ none) :
    Sound me ⟨(s.control.ping me now).1,
      { s.node with ping := .handled (s.control.ping me now).2 }⟩ := by
  unfold Control.State.ping
  cases hc : s.control.clients me.nodename with
  | some c =>
      -- an `"update"` is published, which changes no entry
      refine ⟨h.typed, h.latest, ?_, h.twice, h.own, fun he => ?_⟩
      · intro hp
        cases hp
      · rcases h.address he with ht | hgate
        · exact .inl ht
        · refine .inr fun game hgame => hgate game ?_
          rw [← hgame]
          exact (congrFun (Control.State.settled_append
            (s.control.update c me now) s.control.mailbox _ rfl)
            me.nodename).symm
  | none =>
      have hlast : s.node.beats.head? ≠ some true := fun hl => hok hl hc
      refine ⟨h.typed, h.latest, fun _ => hlast, h.twice, h.own, fun he => ?_⟩
      exact absurd (h.latest he) hlast

/-- A message of the channel is no call of `gate_addr`. -/
theorem publish_tasks
    (n : Node) {t : Task} (ht : ∀ a, t ≠ .putAddr a) {a : String}
    (ha : .putAddr a ∈ (n.publish t).tasks) : .putAddr a ∈ n.tasks := by
  unfold Node.publish at ha
  split at ha
  · rcases List.mem_append.mp ha with ha | ha
    · exact ha
    · exact absurd (List.mem_singleton.mp ha).symm (ht a)
  · exact ha

theorem publish_fields
    (n : Node) (t : Task) : (n.publish t).exist = n.exist ∧
      (n.publish t).beats = n.beats ∧ (n.publish t).addr = n.addr := by
  unfold Node.publish
  split <;> exact ⟨rfl, rfl, rfl⟩

theorem answered
    (h : Sound me s) {reconnect : Bool}
    (hping : s.node.ping = .handled reconnect)
    (hok : reconnect = false → s.node.exist = false →
      s.node.subscribed = true) :
    Sound me { s with node := s.node.answered reconnect } := by
  cases reconnect with
  | true =>
      have hlast := h.forgotten hping
      obtain ⟨hexist, hbeats, haddr⟩ := publish_fields s.node .reconnect
      have hno : (s.node.answered true).exist ≠ true := fun he =>
        hlast (h.latest (hexist.symm.trans he))
      refine ⟨h.typed, fun he => absurd he hno, ?_, ?_, fun a ha => ?_,
        fun he => absurd he hno⟩
      · intro hp
        cases hp
      · intro rest hb
        injection hb with _ hb
        rw [← hbeats, show (s.node.publish .reconnect).beats = true :: rest
          from hb] at hlast
        exact absurd rfl hlast
      · have hown := h.own a
          (publish_tasks s.node (fun _ he => by cases he) ha)
        exact hown.trans haddr.symm
  | false =>
      cases hexist : s.node.exist with
      | true =>
          have hnode : s.node.answered false = s.node.beat true := by
            simp [Node.answered, Node.connect, hexist]
          rw [hnode]
          refine ⟨h.typed, fun _ => rfl, ?_, fun _ _ => hexist, h.own,
            h.address⟩
          intro hp
          cases hp
      | false =>
          have hnode : s.node.answered false = Node.beat
              { s.node with
                exist := true, tasks := s.node.tasks ++ [.connect] } true := by
            simp [Node.answered, Node.connect, Node.publish, hexist,
              hok rfl hexist]
          rw [hnode]
          refine ⟨h.typed, fun _ => rfl, ?_, fun _ _ => rfl, ?_, fun _ => ?_⟩
          · intro hp
            cases hp
          · intro a ha
            rcases List.mem_append.mp ha with ha | ha
            · exact h.own a ha
            · cases List.mem_singleton.mp ha
          · exact .inl ⟨.connect, List.mem_append_right _
              (List.mem_singleton.mpr rfl), rfl⟩

theorem failed (h : Sound me s) :
    Sound me { s with node := s.node.failed } := by
  have hfields : s.node.failed.exist = false ∧
      s.node.failed.addr = s.node.addr := by
    unfold Node.failed Node.disconnect
    split
    · obtain ⟨hexist, -, haddr⟩ :=
        publish_fields { s.node with exist := false } .disconnect
      exact ⟨hexist, haddr⟩
    · exact ⟨Bool.eq_false_iff.mpr ‹_›, rfl⟩
  have hno {P : Prop} (he : s.node.failed.exist = true) : P := by
    rw [hfields.1] at he
    cases he
  refine ⟨h.typed, fun he => hno he, ?_, ?_, fun a ha => ?_,
    fun he => hno he⟩
  · intro hp
    cases hp
  · intro rest hb
    cases hb
  · rw [hfields.2]
    unfold Node.failed Node.disconnect at ha
    split at ha
    · exact h.own a (publish_tasks { s.node with exist := false }
        (fun _ he => by cases he) ha)
    · exact h.own a ha

/-- A task is done or goes on to one that reports, unless it was not one that
reports. -/
theorem task_reports
    {t : Task} (m addr : String) (cnt : ℕ) (ht : t.reports = true) :
    (∃ t' ∈ (t.run m addr cnt).2, t'.reports = true) ∨
      ∃ a, t = .putAddr a := by
  cases t with
  | connect | getAddr => exact .inl ⟨_, List.mem_singleton.mpr rfl, rfl⟩
  | getCnt full =>
      refine .inl ⟨_, List.mem_singleton.mpr rfl, ?_⟩
      cases full
      · cases ht
      · rfl
  | putCnt full n =>
      cases full
      · cases ht
      · exact .inl ⟨_, List.mem_singleton.mpr rfl, rfl⟩
  | putAddr a => exact .inr ⟨a, rfl⟩
  | _ => cases ht

theorem task
    (h : Sound me s) {i cnt : ℕ} {t : Task} (hi : s.node.tasks[i]? = some t) :
    Sound me
      { control :=
          { s.control with
            mailbox := s.control.mailbox ++
              (t.run me.nodename s.node.addr cnt).1 }
        node :=
          { s.node with
            tasks := s.node.tasks.eraseIdx i ++
              (t.run me.nodename s.node.addr cnt).2 } } := by
  have hmem : t ∈ s.node.tasks := List.mem_of_getElem? hi
  refine ⟨h.typed, h.latest, h.forgotten, h.twice, fun a ha => ?_,
    fun he => ?_⟩
  · rcases List.mem_append.mp ha with ha | ha
    · exact h.own a (List.mem_of_mem_eraseIdx ha)
    · cases t with
      | getAddr =>
          cases List.mem_singleton.mp ha
          rfl
      | putCnt full n =>
          cases full
          · cases ha
          · cases List.mem_singleton.mp ha
      | disconnect | putAddr b => cases ha
      | _ => cases List.mem_singleton.mp ha
  · -- the entry after the call of the task, if there is one
    have hcall (hgate : ∀ game, s.control.settled me.nodename = some game →
        game.gateAddr = some s.node.addr) {game : Game}
        (hgame : ((t.run me.nodename s.node.addr cnt).1.foldl Gamelist.serve
          s.control.settled) me.nodename = some game) :
        game.gateAddr = some s.node.addr := by
      cases t with
      | putCnt full n =>
          exact updateAgentCnt_gateAddr _ _ n
            (P := fun g => g = some s.node.addr) hgate hgame
      | putAddr a =>
          rw [← h.own a hmem]
          exact setGateAddr_gateAddr (h.typed.foldl _) _ a hgame
      | _ => exact hgate game hgame
    have hsettled : Control.State.settled
        { s.control with
          mailbox := s.control.mailbox ++
            (t.run me.nodename s.node.addr cnt).1 } =
        (t.run me.nodename s.node.addr cnt).1.foldl Gamelist.serve
          s.control.settled := by
      unfold Control.State.settled
      rw [List.foldl_append]
    rcases h.address he with ⟨u, hu, hreports⟩ | hgate
    · obtain ⟨j, hj⟩ := List.mem_iff_getElem?.mp hu
      by_cases hji : j = i
      · subst hji
        rw [hi] at hj
        cases hj
        rcases task_reports me.nodename s.node.addr cnt hreports with
          ⟨t', ht', hr⟩ | ⟨a, rfl⟩
        · exact .inl ⟨t', List.mem_append_right _ ht', hr⟩
        · refine .inr fun game hgame => ?_
          rw [hsettled] at hgame
          rw [← h.own a hmem]
          exact setGateAddr_gateAddr (h.typed.foldl _) _ a hgame
      · refine .inl ⟨u, List.mem_append_left _ ?_, hreports⟩
        exact List.mem_eraseIdx_iff_getElem?.mpr ⟨j, hji, hj⟩
    · refine .inr fun game hgame => hcall hgate ?_
      rw [← hsettled]
      exact hgame

theorem step
    (h : Sound me s) {s' : State} {l : Label} (hok : s.Remembered me l)
    (hs : s.step me l = .next s') : Sound me s' := by
  cases l with
  | control l =>
      simp only [State.step] at hs
      split at hs
      · rename_i hforeign
        split at hs
        · rename_i c hc
          cases hs
          exact h.control hforeign hc
        · cases hs
        · cases hs
      · cases hs
  | heart =>
      simp only [State.step] at hs
      split at hs
      · cases hs
        refine ⟨h.typed, h.latest, ?_, h.twice, h.own, h.address⟩
        intro hp
        cases hp
      · cases hs
  | handle now =>
      simp only [State.step] at hs
      split at hs
      · rename_i hping
        cases hs
        exact h.handle (hok.1 now rfl hping)
      · cases hs
  | answer =>
      simp only [State.step] at hs
      split at hs
      · rename_i reconnect hping
        cases hs
        exact h.answered hping fun hr => hok.2 rfl (hr ▸ hping)
      · cases hs
  | fail =>
      simp only [State.step] at hs
      split at hs
      · cases hs
      · cases hs
        exact h.failed
  | subscribe =>
      simp only [State.step] at hs
      split at hs
      · cases hs
      · cases hs
        exact ⟨h.typed, h.latest, h.forgotten, h.twice, h.own, h.address⟩
  | task i cnt =>
      simp only [State.step] at hs
      split at hs
      · rename_i t hi
        cases hs
        exact h.task hi
      · cases hs
  | updateCnt =>
      cases hs
      refine ⟨h.typed, h.latest, h.forgotten, h.twice, fun a ha => ?_,
        fun he => ?_⟩
      · rcases List.mem_append.mp ha with ha | ha
        · exact h.own a ha
        · cases List.mem_singleton.mp ha
      · rcases h.address he with ⟨t, ht, hr⟩ | hgate
        · exact .inl ⟨t, List.mem_append_left _ ht, hr⟩
        · exact .inr hgate
  | restart addr =>
      cases hs
      have hnew := sound_create me addr
      exact ⟨h.typed, hnew.latest, hnew.forgotten, hnew.twice, hnew.own,
        fun he => by cases he⟩

end Sound

namespace State

end State

end SkynetServer.GateAddress
