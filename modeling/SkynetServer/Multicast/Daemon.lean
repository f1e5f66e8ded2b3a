import Mathlib.Algebra.Group.Nat.Defs
import Mathlib.Data.List.Nodup

/-!
# The tables of `multicastd.lua`

`channel[c]` is the set of the services of the node which subscribe to `c`,
and `channel_n[c]` its size.  `channel_remote[c]` is kept by the owner of the
channel and names the other nodes that subscribe to it.  The low eight bits of
a channel are the harbor of its owner.

A command is a function on the tables up to the call at which it yields.
`none` is an assertion that fails.
-/

namespace SkynetServer.Multicast

abbrev Handle := BitVec 32

scoped instance instLawfulBEqHandle : LawfulBEq Handle := inferInstance

/-- `skynet.harbor` -/
def harbor (source : Handle) : ℕ := (source >>> 24).toNat

/-- `mc.nextid` -/
def nextid (c : ℕ) : ℕ := (c + 256) % 2 ^ 32

structure Daemon where
  channel : ℕ → Option (List Handle)
  channel_n : ℕ → Option ℕ
  channel_remote : ℕ → Option (List ℕ)
  channel_id : ℕ

namespace Daemon

def init (harbor_id : ℕ) : Daemon where
  channel _ := none
  channel_n _ := none
  channel_remote _ := none
  channel_id := harbor_id

variable (d : Daemon)

def setGroup (c : ℕ) (group : Option (List Handle)) (n : Option ℕ) : Daemon :=
  { d with
    channel := Function.update d.channel c group
    channel_n := Function.update d.channel_n c n }

def setRemote (c : ℕ) (group : Option (List ℕ)) : Daemon :=
  { d with channel_remote := Function.update d.channel_remote c group }

/-- The loop of `NEW`; there are `2 ^ 24` channels of one harbor. -/
def freeId : ℕ → ℕ → Option ℕ
  | 0, _ => none
  | fuel + 1, c =>
    match d.channel c with
    | none => some c
    | some _ => freeId fuel (nextid c)

/-- `command.NEW`; with `none` the loop does not end. -/
def NEW : Option (Daemon × ℕ) :=
  match d.freeId (2 ^ 24) d.channel_id with
  | none => none
  | some c =>
    some ({ d.setGroup c (some []) (some 0) with channel_id := nextid c }, c)

/-- `command.DELR` -/
def DELR (c : ℕ) : Daemon := d.setGroup c none none

/-- `command.DEL` at the owner, and the nodes which get a `DELR`. -/
def DEL (c : ℕ) : Daemon × List ℕ :=
  ((d.setGroup c none none).setRemote c none, (d.channel_remote c).getD [])

/-- `command.SUBR`; the result `true` says that there is no channel. -/
def SUBR (harbor_id : ℕ) (source : Handle) (c : ℕ) : Option (Daemon × Bool) :=
  let node := harbor source
  if d.channel c = none then some (d, true)
  else if node ≠ harbor_id ∧ c % 256 = harbor_id then
    let group := (d.channel_remote c).getD []
    some (d.setRemote c (some (group.insert node)), false)
  else none

/-- `command.SUB` from `local group` on. -/
def join (source : Handle) (c : ℕ) : Daemon :=
  match d.channel c with
  | none => d
  | some group =>
    if source ∈ group then d
    else d.setGroup c (some (group ++ [source]))
      ((d.channel_n c).map (· + 1))

/-- `command.SUB` from the result of `SUBR` on. -/
def subscribed (source : Handle) (c : ℕ) (missing : Bool) : Daemon :=
  if missing then d
  else
    match d.channel c with
    | none => (d.setGroup c (some []) (some 0)).join source c
    | some _ => d.join source c

/-- `command.USUBR` -/
def USUBR (harbor_id : ℕ) (source : Handle) (c : ℕ) : Option Daemon :=
  let node := harbor source
  if node ≠ harbor_id then
    match d.channel_remote c with
    | none => none
    | some group => some (d.setRemote c (some (group.erase node)))
  else none

/-- `command.USUB`; the flag says that a `USUBR` is sent. -/
def USUB (harbor_id : ℕ) (source : Handle) (c : ℕ) : Option (Daemon × Bool) :=
  match d.channel c with
  | none => none
  | some group =>
    if source ∈ group then
      let group := group.erase source
      let n := (d.channel_n c).map (· - 1)
      if n = some 0 ∧ c % 256 ≠ harbor_id then
        some (d.setGroup c none none, true)
      else some (d.setGroup c (some group) n, false)
    else some (d, false)

/-- The nodes that subscribe to a channel. -/
def remotes (c : ℕ) : List ℕ := (d.channel_remote c).getD []

/-! ## The owner of a channel -/

section Remotes

variable {d} {d' : Daemon} {harbor_id c : ℕ} {source : Handle}

theorem setRemote_remotes (group : List ℕ) :
    (d.setRemote c (some group)).remotes c = group := by
  change (Function.update d.channel_remote c (some group) c).getD [] = group
  rw [Function.update_self]
  rfl

theorem SUBR_spec
    {missing : Bool} (h : d.SUBR harbor_id source c = some (d', missing)) :
    d'.channel = d.channel ∧ missing = (d.channel c).isNone ∧
      d'.remotes c = if missing then d.remotes c
        else (d.remotes c).insert (harbor source) := by
  rw [SUBR] at h
  split at h
  · rename_i hnone
    cases h
    exact ⟨rfl, by rw [hnone]; rfl, rfl⟩
  · rename_i hsome
    split at h
    · cases h
      refine ⟨rfl, ?_, setRemote_remotes _⟩
      rw [eq_comm, Option.isNone_eq_false_iff, Option.isSome_iff_ne_none]
      exact hsome
    · cases h

theorem USUBR_spec
    (h : d.USUBR harbor_id source c = some d') :
    d'.channel = d.channel ∧
      d'.remotes c = (d.remotes c).erase (harbor source) := by
  rw [USUBR] at h
  split at h
  · split at h
    · cases h
    · rename_i group hgroup
      cases h
      refine ⟨rfl, (setRemote_remotes _).trans ?_⟩
      rw [remotes, hgroup]
      rfl
  · cases h

/-- The owner answers every other node. -/
theorem exists_SUBR
    (hnode : harbor source ≠ harbor_id) (howned : c % 256 = harbor_id) :
    ∃ d' missing, d.SUBR harbor_id source c = some (d', missing) := by
  rw [SUBR]
  split
  · exact ⟨_, _, rfl⟩
  · rw [if_pos ⟨hnode, howned⟩]
    exact ⟨_, _, rfl⟩

/-- An assertion of `USUBR` fails only if no node has subscribed. -/
theorem remotes_of_USUBR_none
    (hnode : harbor source ≠ harbor_id) (h : d.USUBR harbor_id source c = none) :
    d.remotes c = [] := by
  rw [USUBR, if_pos hnode] at h
  split at h
  · rename_i hnone
    rw [remotes, hnone]
    rfl
  · cases h

end Remotes

/-! ## The size of a group -/

/-- `channel_n` counts the entries of `channel`. -/
structure Counted : Prop where
  count : ∀ c : ℕ, d.channel_n c = (d.channel c).map List.length
  nodup : ∀ (c : ℕ) (group : List Handle), d.channel c = some group →
    group.Nodup

section Kept

variable {d} {c : ℕ} {source : Handle}

theorem setGroup_channel (group : Option (List Handle)) (n : Option ℕ)
    (c' : ℕ) :
    (d.setGroup c group n).channel c' = if c' = c then group else d.channel c' :=
  Function.update_apply d.channel c group c'

theorem setGroup_channel_n (group : Option (List Handle)) (n : Option ℕ)
    (c' : ℕ) :
    (d.setGroup c group n).channel_n c' = if c' = c then n else d.channel_n c' :=
  Function.update_apply d.channel_n c n c'

theorem counted_init (harbor_id : ℕ) : (init harbor_id).Counted where
  count _ := rfl
  nodup _ _ h := by cases h

/-- The group of a channel is written with its size. -/
theorem Counted.setGroup
    {group : Option (List Handle)} {n : Option ℕ} (h : d.Counted)
    (hn : n = group.map List.length) (hnodup : ∀ g, group = some g → g.Nodup) :
    (d.setGroup c group n).Counted where
  count c' := by
    rw [setGroup_channel, setGroup_channel_n]
    split
    · exact hn
    · exact h.count c'
  nodup c' g hg := by
    rw [setGroup_channel] at hg
    split at hg
    · exact hnodup g hg
    · exact h.nodup c' g hg

theorem Counted.none (h : d.Counted) (c : ℕ) :
    (d.setGroup c none none).Counted :=
  h.setGroup rfl fun g hg => by cases hg

theorem Counted.empty (h : d.Counted) (c : ℕ) :
    (d.setGroup c (some []) (some 0)).Counted :=
  h.setGroup rfl fun g hg => by
    cases hg
    exact List.nodup_nil

theorem Counted.NEW
    {d' : Daemon} (h : d.Counted) (hnew : d.NEW = some (d', c)) :
    d'.Counted := by
  rw [Daemon.NEW] at hnew
  split at hnew
  · cases hnew
  · cases hnew
    exact ⟨(h.empty c).count, (h.empty c).nodup⟩

theorem Counted.DEL (h : d.Counted) : (d.DEL c).1.Counted :=
  ⟨(h.none c).count, (h.none c).nodup⟩

theorem Counted.join (h : d.Counted) : (d.join source c).Counted := by
  rw [Daemon.join]
  split
  · exact h
  · rename_i group hgroup
    split
    · exact h
    · rename_i hsource
      refine h.setGroup ?_ fun g hg => ?_
      · rw [h.count, hgroup]
        simp only [Option.map_some, List.length_append, List.length_singleton]
      · cases hg
        rw [List.nodup_append_comm]
        exact List.nodup_cons.mpr ⟨hsource, h.nodup c group hgroup⟩

/-- A service is added to a group which is there. -/
theorem join_channel
    {group : List Handle} (hgroup : d.channel c = some group) :
    ∃ group', (d.join source c).channel c = some group' ∧
      source ∈ group' ∧ group ⊆ group' := by
  rw [Daemon.join, hgroup]
  dsimp only
  split
  · rename_i hsource
    exact ⟨group, hgroup, hsource, fun _ hx => hx⟩
  · refine ⟨group ++ [source], ?_, List.mem_append_right _ (.head _),
      List.subset_append_left _ _⟩
    rw [setGroup_channel, if_pos rfl]

theorem Counted.subscribed
    (missing : Bool) (h : d.Counted) :
    (d.subscribed source c missing).Counted := by
  rw [Daemon.subscribed]
  split
  · exact h
  · split
    · exact (h.empty c).join
    · exact h.join

/-- What a command does when the last subscriber of a channel leaves. -/
theorem USUB_cases
    {d' : Daemon} {harbor_id : ℕ} {forget : Bool} (h : d.Counted)
    (husub : d.USUB harbor_id source c = some (d', forget)) :
    (d' = d ∧ forget = false) ∨
      ∃ group, d.channel c = some group ∧ source ∈ group ∧
        ((group.erase source = [] ∧ c % 256 ≠ harbor_id ∧
          d' = d.setGroup c none none ∧ forget = true) ∨
        ((group.erase source ≠ [] ∨ c % 256 = harbor_id) ∧
          d' = d.setGroup c (some (group.erase source))
            (some (group.erase source).length) ∧ forget = false)) := by
  rw [USUB] at husub
  split at husub
  · cases husub
  · rename_i group hgroup
    split at husub
    · rename_i hsource
      have hn : (d.channel_n c).map (· - 1) =
          some (group.erase source).length := by
        rw [h.count, hgroup, List.length_erase_of_mem hsource]
        rfl
      dsimp only at husub
      rw [hn] at husub
      right
      refine ⟨group, hgroup, hsource, ?_⟩
      split at husub
      · rename_i hlast
        cases husub
        refine .inl ⟨?_, hlast.2, rfl, rfl⟩
        exact List.eq_nil_of_length_eq_zero (Option.some.inj hlast.1)
      · rename_i hlast
        cases husub
        refine .inr ⟨?_, rfl, rfl⟩
        by_contra hboth
        rw [not_or, not_not] at hboth
        exact hlast ⟨by rw [hboth.1]; rfl, hboth.2⟩
    · cases husub
      exact .inl ⟨rfl, rfl⟩

theorem Counted.USUB
    {d' : Daemon} {harbor_id : ℕ} {forget : Bool} (h : d.Counted)
    (husub : d.USUB harbor_id source c = some (d', forget)) : d'.Counted := by
  rcases USUB_cases h husub with
    ⟨rfl, -⟩ | ⟨group, hgroup, -, ⟨-, -, rfl, -⟩ | ⟨-, rfl, -⟩⟩
  · exact h
  · exact h.none c
  · refine h.setGroup rfl fun g hg => ?_
    cases hg
    exact (h.nodup c group hgroup).erase source

end Kept

end Daemon

end SkynetServer.Multicast
