import SkynetServer.Multicast.Daemon
import SkynetServer.Support.Transition

/-!
# Subscriptions to a channel of another node

The services of a node subscribe to a channel `c` through the `multicastd` of
their node, which subscribes once at the owner of the channel.  `SUBR` is a
call, in which the handler of `SUB` suspends; `USUBR` is a message without a
response.  A label of a run is a command of a service, the delivery of a
message between the two daemons, or the end of `get_address`.

The owner forgets the node although it has a subscriber when the last of the
other subscribers leaves while `SUBR` is being answered.
-/

namespace SkynetServer.Multicast

open Transition

/-- The two nodes and the channel, which belongs to the owner. -/
structure Nodes where
  node : Handle
  owner : Handle
  c : ℕ
  other : harbor node ≠ harbor owner
  owned : c % 256 = harbor owner

/-- A message from the node to the owner. -/
inductive Message where
  | SUBR (session : ℕ)
  | USUBR
  deriving DecidableEq, Repr

/-- A service of another node, at the owner. -/
inductive Foreign where
  | SUBR (source : Handle)
  | USUBR (source : Handle)
  deriving DecidableEq, Repr

/-- The daemons, the handlers of `SUB` that are suspended in `get_address`
and in the call of `SUBR`, and the messages between the daemons. -/
structure Link where
  node : Daemon
  owner : Daemon
  known : Bool
  resolving : List Handle
  calling : List (ℕ × Handle)
  session : ℕ
  toOwner : List Message
  toNode : List (ℕ × Bool)

/-- The owner has the channel or not; nobody has subscribed. -/
def Link.init (n : Nodes) (created : Bool) : Link where
  node := .init (harbor n.node)
  owner :=
    if created then (Daemon.init (harbor n.owner)).setGroup n.c (some []) (some 0)
    else .init (harbor n.owner)
  known := false
  resolving := []
  calling := []
  session := 1
  toOwner := []
  toNode := []

namespace Link

variable (n : Nodes) (k : Link)

/-- `skynet.call` of `SUBR`. -/
def call (source : Handle) : Link :=
  { k with
    calling := k.calling ++ [(k.session, source)]
    session := k.session + 1
    toOwner := k.toOwner ++ [.SUBR k.session] }

/-- `command.SUB` up to the first suspension. -/
def SUB (source : Handle) : Link :=
  match k.node.channel n.c with
  | none =>
    if k.known then k.call source
    else { k with resolving := k.resolving ++ [source] }
  | some _ => { k with node := k.node.join source n.c }

/-- `get_address` returns in the handler for the service. -/
def resolved (source : Handle) : Link :=
  ({ k with known := true, resolving := k.resolving.erase source }).call source

/-- The response to a call of `SUBR`. -/
def response (session : ℕ) (missing : Bool) : Link :=
  match k.calling.find? (·.1 = session) with
  | none => k
  | some (_, source) =>
    { k with
      node := k.node.subscribed source n.c missing
      calling := k.calling.filter (·.1 ≠ session) }

/-- `command.USUB` -/
def USUB (source : Handle) : Link :=
  match k.node.USUB (harbor n.node) source n.c with
  | none => k
  | some (d, forget) =>
    { k with
      node := d
      toOwner := if forget then k.toOwner ++ [.USUBR] else k.toOwner }

/-- The owner handles a message of the node. -/
def handle : Message → Link
  | .SUBR session =>
    match k.owner.SUBR (harbor n.owner) n.node n.c with
    | none => k
    | some (d, missing) =>
      { k with owner := d, toNode := k.toNode ++ [(session, missing)] }
  | .USUBR =>
    match k.owner.USUBR (harbor n.owner) n.node n.c with
    | none => k
    | some d => { k with owner := d }

/-- The owner handles a message of another node. -/
def foreign : Foreign → Link
  | .SUBR source =>
    match k.owner.SUBR (harbor n.owner) source n.c with
    | none => k
    | some (d, _) => { k with owner := d }
  | .USUBR source =>
    match k.owner.USUBR (harbor n.owner) source n.c with
    | none => k
    | some d => { k with owner := d }

end Link

inductive Label where
  | SUB (source : Handle)
  | resolved (source : Handle)
  | response
  | USUB (source : Handle)
  | owner
  | foreign (m : Foreign)
  deriving DecidableEq, Repr

/-- No step of the run faults. -/
inductive Fault where

def Foreign.source : Foreign → Handle
  | .SUBR source => source
  | .USUBR source => source

def step (n : Nodes) (k : Link) : Label → Outcome Fault Link
  | .SUB source => .next (k.SUB n source)
  | .resolved source =>
    if source ∈ k.resolving then .next (k.resolved source) else .blocked
  | .response =>
    match k.toNode with
    | [] => .blocked
    | (session, missing) :: rest =>
      .next ({ k with toNode := rest }.response n session missing)
  | .USUB source => .next (k.USUB n source)
  | .owner =>
    match k.toOwner with
    | [] => .blocked
    | m :: rest => .next ({ k with toOwner := rest }.handle n m)
  | .foreign m =>
    if harbor m.source = harbor n.node then .blocked
    else .next (k.foreign n m)

/-! ## Agreement -/

/-- No message is in flight and no handler of `SUB` is suspended. -/
def Quiet (k : Link) : Prop :=
  k.toOwner = [] ∧ k.resolving = [] ∧ k.calling = []

/-- The owner knows the node. -/
def Known (n : Nodes) (d : Daemon) : Prop :=
  ∃ group, d.channel_remote n.c = some group ∧ harbor n.node ∈ group

/-- The node has a subscriber. -/
def Subscribed (n : Nodes) (d : Daemon) : Prop :=
  ∃ group, d.channel n.c = some group ∧ group ≠ []

/-- No `USUB` takes the last subscriber away while `SUBR` is being
answered. -/
def Settled (n : Nodes) (k : Link) : Label → Prop
  | .USUB source => k.node.channel n.c = some [source] → k.calling = []
  | _ => True

/-! ## What the messages in flight will do -/

/-- The owner knows the node after it has handled the messages. -/
def outcome (created known : Bool) (ms : List Message) : Bool :=
  ms.foldl (fun _ m =>
    match m with
    | .SUBR _ => created
    | .USUBR => false) known

theorem outcome_append
    (created known : Bool) (ms : List Message) (m : Message) :
    outcome created known (ms ++ [m]) = outcome created known [m] := by
  rw [outcome, List.foldl_append]
  cases m <;> rfl

/-- The owner knows the node. -/
def Link.listed (n : Nodes) (k : Link) : Bool :=
  decide (harbor n.node ∈ k.owner.remotes n.c)

/-- The owner knows the node, once it has handled the messages in flight. -/
def Link.expected (n : Nodes) (created : Bool) (k : Link) : Bool :=
  outcome created (k.listed n) k.toOwner

structure Inv (n : Nodes) (created : Bool) (k : Link) : Prop where
  counted : k.node.Counted
  present : (k.owner.channel n.c).isSome = created
  remotes : (k.owner.remotes n.c).Nodup
  listed : k.listed n = true → created = true
  results : ∀ p ∈ k.toNode, p.2 = !created
  subscribed : ∀ group, k.node.channel n.c = some group →
    group ≠ [] ∧ created = true ∧ k.expected n created = true
  waiting : k.node.channel n.c = none → k.calling ≠ [] →
    k.expected n created = created
  left : k.node.channel n.c = none → k.calling = [] →
    k.expected n created = false

section Init

theorem inv_init (n : Nodes) (created : Bool) :
    Inv n created (.init n created) := by
  have hlisted : (Link.init n created).listed n = false := by
    cases created <;> rfl
  have hcreated :
      ((Link.init n created).owner.channel n.c).isSome = created := by
    cases created with
    | false => rfl
    | true =>
        refine congrArg Option.isSome (Daemon.setGroup_channel _ _ _) |>.trans ?_
        rw [if_pos rfl]
        rfl
  constructor
  · exact Daemon.counted_init _
  · exact hcreated
  · cases created <;> exact List.nodup_nil
  · intro htrue
    rw [hlisted] at htrue
    cases htrue
  · exact fun p hp => absurd hp List.not_mem_nil
  · intro group hgroup
    cases hgroup
  · exact fun _ hcalling => absurd rfl hcalling
  · exact fun _ _ => hlisted

end Init

section Kept

variable {n : Nodes} {created : Bool} {k : Link} {source : Handle}

/-- A call of `SUBR` subscribes the node, if the channel exists. -/
theorem Inv.call (h : Inv n created k) : Inv n created (k.call source) where
  counted := h.counted
  present := h.present
  remotes := h.remotes
  listed := h.listed
  results := h.results
  subscribed group hgroup := by
    obtain ⟨hne, hcreated, -⟩ := h.subscribed group hgroup
    refine ⟨hne, hcreated, ?_⟩
    exact (outcome_append _ _ _ _).trans hcreated
  waiting _ _ := outcome_append _ _ _ _
  left _ hcalling := absurd hcalling (List.append_ne_nil_of_right_ne_nil _
    (List.cons_ne_nil _ _))

/-- The tables of a subscribed node are written, and a group is left. -/
theorem Inv.regroup
    {d : Daemon} {group : List Handle} {calling : List (ℕ × Handle)}
    (h : Inv n created k) (hd : d.Counted)
    (hexpected : created = true ∧ k.expected n created = true)
    (hgroup : d.channel n.c = some group) (hne : group ≠ []) :
    Inv n created { k with node := d, calling := calling } where
  counted := hd
  present := h.present
  remotes := h.remotes
  listed := h.listed
  results := h.results
  subscribed g hg := by
    rw [hgroup] at hg
    cases hg
    exact ⟨hne, hexpected⟩
  waiting hnone := absurd (hgroup.symm.trans hnone) (Option.some_ne_none _)
  left hnone := absurd (hgroup.symm.trans hnone) (Option.some_ne_none _)

/-- A service joins the group of a subscribed node. -/
theorem Inv.join
    {group : List Handle} (calling : List (ℕ × Handle)) (h : Inv n created k)
    (hgroup : k.node.channel n.c = some group) :
    Inv n created
      { k with node := k.node.join source n.c, calling := calling } := by
  obtain ⟨hne, hexpected⟩ := h.subscribed group hgroup
  have hjoin : ∃ group', (k.node.join source n.c).channel n.c = some group' ∧
      source ∈ group' ∧ group ⊆ group' := Daemon.join_channel hgroup
  obtain ⟨group', hgroup', hsource, -⟩ := hjoin
  exact h.regroup h.counted.join hexpected hgroup' (List.ne_nil_of_mem hsource)

/-- The first service of a node subscribes. -/
theorem subscribed_none
    {d : Daemon} {c : ℕ} (hnone : d.channel c = none) :
    ∃ group, (d.subscribed source c false).channel c = some group ∧
      source ∈ group := by
  rw [Daemon.subscribed, if_neg Bool.false_ne_true, hnone]
  dsimp only
  have hcreated : (d.setGroup c (some []) (some 0)).channel c = some [] := by
    rw [Daemon.setGroup_channel, if_pos rfl]
  have hjoin : ∃ group,
      ((d.setGroup c (some []) (some 0)).join source c).channel c = some group ∧
        source ∈ group ∧ [] ⊆ group := Daemon.join_channel hcreated
  obtain ⟨group, hgroup, hsource, -⟩ := hjoin
  exact ⟨group, hgroup, hsource⟩

/-- The response of the owner ends the handler of `SUB`. -/
theorem Inv.response
    {session : ℕ} {missing : Bool} (h : Inv n created k)
    (hmissing : missing = !created) :
    Inv n created (k.response n session missing) := by
  rw [Link.response]
  split
  · exact h
  · rename_i source hfind
    have hcalling : k.calling ≠ [] :=
      List.ne_nil_of_mem (List.mem_of_find?_eq_some hfind)
    cases hgroup : k.node.channel n.c with
    | some group =>
        have hnode : k.node.subscribed source n.c missing =
            k.node.join source n.c := by
          rw [hmissing, (h.subscribed group hgroup).2.1, Daemon.subscribed,
            hgroup]
          rfl
        rw [hnode]
        exact h.join _ hgroup
    | none =>
        have hexpected := h.waiting hgroup hcalling
        cases hcreated : created with
        | true =>
            rw [hcreated] at hmissing hexpected
            have hjoin : ∃ group,
                (k.node.subscribed source n.c false).channel n.c =
                    some group ∧
                  source ∈ group := subscribed_none hgroup
            obtain ⟨group, hsome, hsource⟩ := hjoin
            rw [hmissing, Bool.not_true]
            exact (hcreated ▸ h).regroup (h.counted.subscribed false)
              ⟨rfl, hexpected⟩ hsome (List.ne_nil_of_mem hsource)
        | false =>
            rw [hcreated] at hmissing hexpected h
            have hnode : k.node.subscribed source n.c missing = k.node := by
              rw [hmissing, Daemon.subscribed]
              rfl
            rw [hnode]
            exact { h with
              waiting := fun _ _ => hexpected
              left := fun _ _ => hexpected }

/-- A service leaves; the last one makes the owner forget the node. -/
theorem Inv.USUB
    (h : Inv n created k)
    (hsettled : k.node.channel n.c = some [source] → k.calling = []) :
    Inv n created (k.USUB n source) := by
  rw [Link.USUB]
  split
  · exact h
  · rename_i d forget husub
    have hcounted := h.counted.USUB husub
    rcases Daemon.USUB_cases h.counted husub with
      ⟨rfl, rfl⟩ | ⟨group, hgroup, hsource, hlast | hrest⟩
    · exact { h with }
    · obtain ⟨hnil, -, rfl, rfl⟩ := hlast
      have hlone : group = [source] := by
        rcases List.erase_eq_nil_iff.mp hnil with hempty | hlone
        · rw [hempty] at hsource
          exact absurd hsource List.not_mem_nil
        · exact hlone
      have hcalling := hsettled (hlone ▸ hgroup)
      have hnone : (k.node.setGroup n.c none none).channel n.c = none := by
        rw [Daemon.setGroup_channel, if_pos rfl]
      exact { h with
        counted := hcounted
        subscribed := fun g hg => by
          rw [hnone] at hg
          cases hg
        waiting := fun _ hne => absurd hcalling hne
        left := fun _ _ => outcome_append _ _ _ _ }
    · obtain ⟨hne, rfl, rfl⟩ := hrest
      have hgroup' :
          (k.node.setGroup n.c (some (group.erase source))
              (some (group.erase source).length)).channel n.c =
            some (group.erase source) := by
        rw [Daemon.setGroup_channel, if_pos rfl]
      refine h.regroup hcounted (h.subscribed group hgroup).2 hgroup' ?_
      exact hne.resolve_right fun howned =>
        n.other (howned.symm.trans n.owned)

end Kept

/-! ## The owner -/

section Owner

variable {n : Nodes} {created : Bool} {k : Link}

/-- The owner handles a message which changes the entry of the node as the
message in front of the queue did. -/
theorem Inv.owner
    {d : Daemon} {toOwner : List Message} {toNode : List (ℕ × Bool)}
    (h : Inv n created k) (hchannel : d.channel = k.owner.channel)
    (hremotes : (d.remotes n.c).Nodup) (hresults : ∀ p ∈ toNode, p.2 = !created)
    (hlisted : harbor n.node ∈ d.remotes n.c → created = true)
    (hexpected : outcome created (decide (harbor n.node ∈ d.remotes n.c))
      toOwner = k.expected n created) :
    Inv n created
      { k with owner := d, toOwner := toOwner, toNode := toNode } where
  counted := h.counted
  present := hchannel ▸ h.present
  remotes := hremotes
  listed hmem := hlisted (of_decide_eq_true hmem)
  results := hresults
  subscribed group hgroup := by
    obtain ⟨hne, hcreated, htrue⟩ := h.subscribed group hgroup
    exact ⟨hne, hcreated, hexpected.trans htrue⟩
  waiting hnone hcalling := hexpected.trans (h.waiting hnone hcalling)
  left hnone hcalling := hexpected.trans (h.left hnone hcalling)

theorem outcome_cons
    (created known : Bool) (m : Message) (ms : List Message) :
    outcome created known (m :: ms) =
      outcome created (outcome created known [m]) ms := rfl

/-- The owner handles a message of the node. -/
theorem Inv.handle
    {m : Message} {rest : List Message} (h : Inv n created k)
    (hqueue : k.toOwner = m :: rest) :
    Inv n created ({ k with toOwner := rest }.handle n m) := by
  have hexpected (known : Bool)
      (hknown : outcome created (k.listed n) [m] = known) :
      outcome created known rest = k.expected n created := by
    rw [Link.expected, hqueue, outcome_cons, hknown]
  cases m with
  | SUBR session =>
      rw [Link.handle]
      obtain ⟨d, missing, hsubr⟩ := Daemon.exists_SUBR (d := k.owner)
        n.other n.owned
      rw [hsubr]
      obtain ⟨hchannel, hmissing, hremotes⟩ := Daemon.SUBR_spec hsubr
      have hmissing : missing = !created := by
        rw [hmissing, ← h.present, Option.not_isSome]
      rw [hmissing] at hremotes
      refine h.owner hchannel ?_ ?_ ?_ ?_
      · rw [hremotes]
        split
        · exact h.remotes
        · exact h.remotes.insert
      · intro p hp
        rcases List.mem_append.mp hp with hp | hp
        · exact h.results p hp
        · rw [List.mem_singleton.mp hp]
          exact hmissing
      · intro hmem
        rw [hremotes] at hmem
        split at hmem
        · exact h.listed (decide_eq_true hmem)
        · rename_i hcreated
          simpa using hcreated
      · refine hexpected _ ?_
        change created = _
        cases hcreated : created with
        | true =>
            rw [hcreated, Bool.not_true, if_neg Bool.false_ne_true] at hremotes
            rw [hremotes, decide_eq_true List.mem_insert_self]
        | false =>
            rw [hcreated, Bool.not_false, if_pos rfl] at hremotes
            rw [hremotes, eq_comm, decide_eq_false_iff_not]
            intro hmem
            have htrue := h.listed (decide_eq_true hmem)
            rw [hcreated] at htrue
            cases htrue
  | USUBR =>
      rw [Link.handle]
      split
      · rename_i hnone
        have hremotes := Daemon.remotes_of_USUBR_none n.other hnone
        refine h.owner rfl h.remotes h.results
          (fun hmem => h.listed (decide_eq_true hmem)) (hexpected _ ?_)
        change k.owner.remotes n.c = [] at hremotes
        rw [hremotes, decide_eq_false List.not_mem_nil]
        rfl
      · rename_i d husubr
        obtain ⟨hchannel, hremotes⟩ := Daemon.USUBR_spec husubr
        have hmem : harbor n.node ∉ d.remotes n.c := by
          rw [hremotes]
          exact h.remotes.not_mem_erase
        refine h.owner hchannel (hremotes ▸ h.remotes.erase _) h.results
          (fun hmem' => absurd hmem' hmem) (hexpected _ ?_)
        rw [decide_eq_false hmem]
        rfl

/-- Messages of other nodes leave the entry of the node as it is. -/
theorem Inv.foreign
    {m : Foreign} (h : Inv n created k)
    (hother : harbor m.source ≠ harbor n.node) : Inv n created (k.foreign n m) := by
  cases m with
  | SUBR source =>
      rw [Link.foreign]
      split
      · exact h
      · rename_i d missing hsubr
        obtain ⟨hchannel, -, hremotes⟩ := Daemon.SUBR_spec hsubr
        have hmem : harbor n.node ∈ d.remotes n.c ↔
            harbor n.node ∈ k.owner.remotes n.c := by
          rw [hremotes]
          split
          · exact Iff.rfl
          · rw [List.mem_insert_iff]
            exact or_iff_right fun heq => hother heq.symm
        refine h.owner hchannel ?_ h.results
          (fun hd => h.listed (decide_eq_true (hmem.mp hd))) ?_
        · rw [hremotes]
          split
          · exact h.remotes
          · exact h.remotes.insert
        · rw [decide_eq_decide.mpr hmem]
          rfl
  | USUBR source =>
      rw [Link.foreign]
      split
      · exact h
      · rename_i d husubr
        obtain ⟨hchannel, hremotes⟩ := Daemon.USUBR_spec husubr
        have hmem : harbor n.node ∈ d.remotes n.c ↔
            harbor n.node ∈ k.owner.remotes n.c := by
          rw [hremotes]
          exact List.mem_erase_of_ne fun heq => hother heq.symm
        refine h.owner hchannel (hremotes ▸ h.remotes.erase _) h.results
          (fun hd => h.listed (decide_eq_true (hmem.mp hd))) ?_
        rw [decide_eq_decide.mpr hmem]
        rfl

end Owner

/-! ## Runs -/

theorem Inv.SUB
    {n : Nodes} {created : Bool} {k : Link} {source : Handle}
    (h : Inv n created k) : Inv n created (k.SUB n source) := by
  rw [Link.SUB]
  split
  · split
    · exact h.call
    · exact { h with }
  · rename_i group hgroup
    exact h.join k.calling hgroup

theorem inv_step
    {n : Nodes} {created : Bool} {k k' : Link} {l : Label}
    (h : Inv n created k) (hok : Settled n k l)
    (hs : step n k l = .next k') : Inv n created k' := by
  cases l with
  | SUB source =>
      cases hs
      exact h.SUB
  | resolved source =>
      rw [step] at hs
      split at hs
      · cases hs
        exact Inv.call (k := { k with
          known := true, resolving := k.resolving.erase source }) { h with }
      · cases hs
  | response =>
      rw [step] at hs
      split at hs
      · cases hs
      · rename_i session missing rest hqueue
        cases hs
        refine Inv.response (k := { k with toNode := rest })
          { h with results := fun p hp => h.results p ?_ }
          (h.results (session, missing) ?_)
        · rw [hqueue]
          exact List.mem_cons_of_mem _ hp
        · rw [hqueue]
          exact List.mem_cons_self
  | USUB source =>
      cases hs
      exact h.USUB hok
  | owner =>
      rw [step] at hs
      split at hs
      · cases hs
      · rename_i m rest hqueue
        cases hs
        exact h.handle hqueue
  | foreign m =>
      rw [step] at hs
      split at hs
      · cases hs
      · rename_i hother
        cases hs
        exact h.foreign hother

/-- In a run in which no `USUB` takes the last subscriber of a node away while
`SUBR` is being answered, the owner knows the node, when no message is in
flight and no handler is suspended, if and only if it has a subscriber. -/
theorem subscription_agrees
    {n : Nodes} {created : Bool} {k : Link}
    (h : Reaches (step n) (Settled n) (.init n created) k) (hquiet : Quiet k) :
    Known n k.owner ↔ Subscribed n k.node := by
  have hinv : Inv n created k :=
    h.invariant (Inv n created) (inv_init n created) fun _ _ _ => inv_step
  have hexpected : k.expected n created = k.listed n := by
    rw [Link.expected, hquiet.1]
    rfl
  have hknown : Known n k.owner ↔ k.listed n = true := by
    rw [Link.listed, decide_eq_true_eq, Daemon.remotes, Known]
    cases k.owner.channel_remote n.c with
    | none | some group => simp
  rw [hknown, ← hexpected]
  cases hgroup : k.node.channel n.c with
  | some group =>
      obtain ⟨hne, -, htrue⟩ := hinv.subscribed group hgroup
      exact iff_of_true htrue ⟨group, hgroup, hne⟩
  | none =>
      rw [hinv.left hgroup hquiet.2.2]
      refine iff_of_false Bool.false_ne_true ?_
      rintro ⟨group, hsome, -⟩
      rw [hgroup] at hsome
      cases hsome

/-! ## Two services -/

/-- A channel of the node with harbor 1, seen from the one with harbor 2. -/
def twoNodes : Nodes where
  node := 0x02000001#32
  owner := 0x01000001#32
  c := 257
  other := by decide
  owned := rfl

def settledTest (n : Nodes) (k : Link) : Label → Bool
  | .USUB source => k.node.channel n.c ≠ some [source] ∨ k.calling = []
  | _ => true

theorem settled_of_test
    (n : Nodes) (k : Link) (l : Label) (h : settledTest n k l = true) :
    Settled n k l := by
  cases l with
  | USUB source =>
      intro hgroup
      rw [settledTest, decide_eq_true_eq] at h
      exact h.resolve_left fun hne => hne hgroup
  | _ => trivial

/-- One service subscribes, and another one leaves. -/
theorem agrees_after_leaving :
    ∃ k, Reaches (step twoNodes) (Settled twoNodes) (.init twoNodes true) k ∧
      Quiet k ∧ Known twoNodes k.owner ∧ Subscribed twoNodes k.node ∧
      (Known twoNodes k.owner ↔ Subscribed twoNodes k.node) := by
  obtain ⟨k, h, hquiet, hknown, hsubscribed⟩ :
      ∃ k, execWhile (step twoNodes) (settledTest twoNodes)
          (.init twoNodes true)
          [.SUB 0x02000002#32, .resolved 0x02000002#32, .SUB 0x02000003#32,
            .owner, .owner, .response, .response, .USUB 0x02000002#32] =
          .next k ∧ Quiet k ∧ Known twoNodes k.owner ∧
          Subscribed twoNodes k.node :=
    ⟨_, rfl, ⟨rfl, rfl, rfl⟩, ⟨[2], rfl, by decide⟩,
      ⟨[0x02000003#32], rfl, List.cons_ne_nil _ _⟩⟩
  have hrun := reaches_of_execWhile (settled_of_test twoNodes) h
  exact ⟨k, hrun, hquiet, hknown, hsubscribed,
    subscription_agrees hrun hquiet⟩

/-- The first of two subscribers leaves before the second one has the response
of the owner. -/
theorem subscriber_forgotten :
    ¬ ∀ (n : Nodes) (created : Bool) (k : Link),
      Reaches (step n) anyStep (.init n created) k → Quiet k →
        (Known n k.owner ↔ Subscribed n k.node) := by
  intro hclaim
  obtain ⟨k, h, hquiet, hremote, hgroup⟩ :
      ∃ k, exec (step twoNodes) (.init twoNodes true)
          [.SUB 0x02000002#32, .resolved 0x02000002#32, .SUB 0x02000003#32,
            .owner, .owner, .response, .USUB 0x02000002#32, .owner,
            .response] = .next k ∧ Quiet k ∧
          k.owner.channel_remote twoNodes.c = some [] ∧
          k.node.channel twoNodes.c = some [0x02000003#32] :=
    ⟨_, rfl, ⟨rfl, rfl, rfl⟩, rfl, rfl⟩
  have hsubscribed : Subscribed twoNodes k.node :=
    ⟨_, hgroup, List.cons_ne_nil _ _⟩
  obtain ⟨group, hsome, hmem⟩ :=
    (hclaim twoNodes true k (reaches_of_exec h) hquiet).mpr hsubscribed
  rw [hremote] at hsome
  cases hsome
  exact List.not_mem_nil hmem

end SkynetServer.Multicast
