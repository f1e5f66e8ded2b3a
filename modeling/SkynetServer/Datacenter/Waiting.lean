import SkynetServer.Datacenter.Center
import SkynetServer.Support.Cells

/-!
# A `WAIT` is answered by the next `UPDATE`

As long as no path is used as a leaf and as a branch, the service is a family
of cells, one for each path: `UPDATE` gives a cell a value or clears it, and
`WAIT` reads it or waits.  The exceptions are a `WAIT` which `query` ends with
an error, because two keys or more of its path are missing below a table that
is there, and a `WAIT` for a path whose value is `false`.
-/

namespace SkynetServer.Datacenter

open Transition PathTree

variable {A : Type*}

/-! ## The trees -/

/-- The value at a path. -/
def Center.value (s : Center A) : List (Lua A) → Option (Lua A) :=
  (PathTree.node s.database).leaf?

/-- The responses in the queue of a path. -/
def Center.waiting (s : Center A) (p : List (Lua A)) : List ℕ :=
  ((PathTree.node s.wait_queue).leaf? p).getD []

theorem exists_query
    {d : Data A} {ks : List (Lua A)}
    (h : ∀ q, q <+: ks → q ≠ ks → ∃ f, d.get q = .node f) :
    query d ks = some (d.get ks) := by
  induction ks generalizing d with
  | nil => rw [query, get_nil]
  | cons k ks ih =>
      obtain ⟨f, hf⟩ := h [] List.nil_prefix (by rintro ⟨⟩)
      rw [get_nil] at hf
      rw [hf]
      refine ih fun q hq hne => ?_
      obtain ⟨g, hg⟩ := h (k :: q) (List.cons_prefix_cons.mpr ⟨rfl, hq⟩)
        fun heq => hne (List.cons.inj heq).2
      rw [hf] at hg
      exact ⟨g, hg⟩

section Trees

variable [DecidableEq A]

theorem update_eq
    (db : Table (Data A) A) (key : Lua A) (rest : List (Lua A))
    (value : Option (Lua A)) :
    update db key rest value = (PathTree.put db key rest (ofValue value)).map
      fun db' => (db', (PathTree.node db).get (key :: rest)) := by
  induction rest generalizing db key with
  | nil =>
      rw [update, PathTree.put, get_node_cons, get_nil]
      rfl
  | cons key' rest ih =>
      rw [update, PathTree.put]
      cases hsub : (db key).children with
      | none => rfl
      | some sub =>
          have hget : (PathTree.node db).get (key :: key' :: rest) =
              (PathTree.node sub).get (key' :: rest) :=
            get_children hsub key' rest
          dsimp only
          rw [ih, hget]
          cases PathTree.put sub key' rest (ofValue value) <;> rfl

/-- `waitfor` puts a longer queue, unless there is a branch. -/
theorem waitfor_eq
    {db : Table (Queues A) A} {key1 : Lua A} {rest : List (Lua A)} (r : ℕ)
    (h : ∀ f, (PathTree.node db).get (key1 :: rest) ≠ .node f) :
    waitfor db key1 rest r = PathTree.put db key1 rest
      (.leaf (((PathTree.node db).leaf? (key1 :: rest)).getD [] ++ [r])) := by
  induction rest generalizing db key1 with
  | nil =>
      rw [waitfor, PathTree.put, leaf?]
      rw [get_node_cons, get_nil] at h ⊢
      split
      · rename_i hnil
        rw [hnil]
        rfl
      · rename_i q hq
        rw [hq]
        rfl
      · rename_i f hf
        exact absurd hf (h f)
  | cons key2 rest ih =>
      rw [waitfor, PathTree.put]
      cases hsub : (db key1).children with
      | none => rfl
      | some sub =>
          have hget : (PathTree.node db).get (key1 :: key2 :: rest) =
              (PathTree.node sub).get (key2 :: rest) :=
            get_children hsub key2 rest
          have hleaf : (PathTree.node db).leaf? (key1 :: key2 :: rest) =
              (PathTree.node sub).leaf? (key2 :: rest) := by
            rw [leaf?, hget, leaf?]
          rw [hget] at h
          rw [hleaf]
          dsimp only
          rw [ih h]
          cases PathTree.put sub key2 rest _ <;> rfl

/-- `wakeup` takes the queue of a path, if there is one. -/
theorem wakeup_spec
    {db db' : Table (Queues A) A} {key1 : Lua A} {rest : List (Lua A)}
    (v : Lua A) (hput : PathTree.put db key1 rest .nil = some db')
    (h : ∀ f, (PathTree.node db).get (key1 :: rest) ≠ .node f) :
    (∃ q, (PathTree.node db).get (key1 :: rest) = .leaf q ∧
      wakeup db (key1 :: rest ++ [v]) = ⟨db', some q, []⟩) ∨
    (PathTree.node db).get (key1 :: rest) = .nil ∧
      wakeup db (key1 :: rest ++ [v]) = ⟨db, none, []⟩ := by
  induction rest generalizing db db' key1 with
  | nil =>
      rw [get_node_cons, get_nil] at h ⊢
      cases hput
      rw [List.cons_append, wakeup]
      cases hkey : db key1 with
      | nil => exact .inr ⟨rfl, rfl⟩
      | leaf q => exact .inl ⟨q, rfl, rfl⟩
      | node f => exact absurd hkey (h f)
  | cons key2 rest ih =>
      obtain ⟨sub, sub', hsub, hput', rfl⟩ := put_cons hput
      have hget : (PathTree.node db).get (key1 :: key2 :: rest) =
          (PathTree.node sub).get (key2 :: rest) := get_children hsub key2 rest
      rw [hget] at h ⊢
      rw [List.cons_append, wakeup]
      cases hkey : db key1 with
      | nil =>
          rw [hkey] at hsub
          cases hsub
          refine .inr ⟨?_, rfl⟩
          rw [get_node_cons]
          cases rest <;> rfl
      | leaf q => rw [hkey] at hsub; cases hsub
      | node f =>
          rw [hkey] at hsub
          cases hsub
          dsimp only
          rcases ih hput' h with ⟨q, hq, hw⟩ | ⟨hnil, hw⟩
          · rw [hw]
            exact .inl ⟨q, hq, rfl⟩
          · have hsame : Function.update db key1 (.node sub) = db := by
              rw [← hkey, Function.update_eq_self]
            rw [hw, hsame]
            exact .inr ⟨hnil, rfl⟩

end Trees

/-! ## The conditions on a request -/

/-- No path is used as a leaf and as a branch. -/
def Disciplined (s : Center A) (l : Request A) : Prop :=
  ∀ p ∈ s.paths, p ≠ l.path → Apart p l.path

/-- The value at the path of a `WAIT` is not `false`, and no key of the path
but the first or the last one is missing. -/
def Readable (s : Center A) : Request A → Prop
  | .WAIT _ key rest => s.value (key :: rest) ≠ some .false ∧
      (s.database key = .nil ∨ ∀ q, q <+: key :: rest → q ≠ key :: rest →
        ∃ f, (PathTree.node s.database).get q = .node f)
  | _ => True

/-- Both conditions. -/
def Good (s : Center A) (l : Request A) : Prop :=
  Disciplined s l ∧ Readable s l

/-- The trees are along the given paths. -/
structure Center.Noted (s : Center A) (ps : List (List (Lua A))) : Prop where
  free : PrefixFree ps
  data : Along ps (.node s.database)
  queues : Along ps (.node s.wait_queue)

/-- What a request does to the cell of its path. -/
def Request.op : Request A → Cells.Op (List (Lua A)) ℕ (Lua A)
  | .QUERY _ _ _ => .idle
  | .UPDATE _ key rest (some v) => .give (key :: rest) v
  | .UPDATE _ key rest none => .clear (key :: rest)
  | .WAIT r key rest => .wait (key :: rest) r

/-- The service is a family of cells. -/
structure Center.Sim
    (s : Center A) (c : Cells (List (Lua A)) ℕ (Lua A)) : Prop where
  value : s.value = c.value
  waiting : s.waiting = c.waiting
  answers : s.answers = c.answers.map fun e => (e.1, .value e.2)

section Paths

variable {s : Center A} {key : Lua A} {rest : List (Lua A)}
  {ps : List (List (Lua A))}

theorem Center.Noted.cons
    {p : List (Lua A)} (h : s.Noted ps)
    (hp : ∀ q ∈ ps, q ≠ p → Apart q p) : s.Noted (p :: ps) where
  free := h.free.cons hp
  data := h.data.mono fun _ hq => List.mem_cons_of_mem _ hq
  queues := h.queues.mono fun _ hq => List.mem_cons_of_mem _ hq

theorem ofValue_ne (value : Option (Lua A)) (f : Lua A → Data A) :
    ofValue value ≠ .node f := by
  cases value <;> rintro ⟨⟩

theorem leaf?_ofValue (value : Option (Lua A)) :
    (ofValue value).leaf? [] = value := by
  cases value <;> rfl

/-- What is at a given path, by its value. -/
theorem Center.Noted.get
    (h : s.Noted ps) (hp : key :: rest ∈ ps) :
    (PathTree.node s.database).get (key :: rest) =
      ofValue (s.value (key :: rest)) := by
  have hnode := h.data.not_node h.free hp (List.cons_ne_nil _ _)
  rw [Center.value, leaf?]
  cases hget : (PathTree.node s.database).get (key :: rest) with
  | nil | leaf v => rfl
  | node f => exact absurd hget (hnode f)

/-- `QUERY` reads the value of a path, if the condition of `WAIT` holds. -/
theorem Center.Noted.QUERY
    {r : ℕ} (h : s.Noted ps) (hp : key :: rest ∈ ps)
    (hread : Readable s (.WAIT r key rest)) :
    Datacenter.QUERY s.database key rest =
      some (ofValue (s.value (key :: rest))) := by
  obtain ⟨hfalse, htables⟩ := hread
  have hget := h.get hp
  rw [get_node_cons] at hget
  rw [Datacenter.QUERY, ← hget]
  rcases htables with hnil | htables
  · rw [hnil]
    cases rest <;> rfl
  · have hquery : query (s.database key) rest =
        some ((s.database key).get rest) := by
      refine exists_query fun q hq hne => ?_
      obtain ⟨f, hf⟩ := htables (key :: q)
        (List.cons_prefix_cons.mpr ⟨rfl, hq⟩)
        fun heq => hne (List.cons.inj heq).2
      exact ⟨f, hf⟩
    rw [hquery]
    split
    · rfl
    · rename_i htruthy
      cases rest with
      | nil =>
          rw [get_nil] at hget ⊢
          cases hvalue : s.value [key] with
          | none =>
              rw [hget, hvalue]
              rfl
          | some v =>
              cases v with
              | false => exact absurd hvalue hfalse
              | atom a =>
                  rw [hget, hvalue] at htruthy
                  exact absurd rfl htruthy
      | cons k ks =>
          obtain ⟨f, hf⟩ := htables [key]
            (List.cons_prefix_cons.mpr ⟨rfl, List.nil_prefix⟩) (by rintro ⟨⟩)
          rw [get_node_cons, get_nil] at hf
          rw [hf] at htruthy
          exact absurd rfl htruthy

theorem truthy_ofValue (value : Option (Lua A)) :
    truthy (ofValue value) = true ↔ ∃ a, value = some (.atom a) := by
  rcases value with _ | _ | a
  · exact iff_of_false Bool.false_ne_true (by rintro ⟨a, ⟨⟩⟩)
  · exact iff_of_false Bool.false_ne_true (by rintro ⟨a, ⟨⟩⟩)
  · exact iff_of_true rfl ⟨a, rfl⟩

end Paths

/-! ## Requests -/

section Requests

variable [DecidableEq A] {s : Center A} {key : Lua A} {rest : List (Lua A)}
  {ps : List (List (Lua A))} {c : Cells (List (Lua A)) ℕ (Lua A)}

/-- `update` writes the value at the path. -/
theorem Center.Noted.update
    (value : Option (Lua A)) (h : s.Noted ps) (hp : key :: rest ∈ ps) :
    ∃ db, Datacenter.update s.database key rest value =
        some (db, ofValue (s.value (key :: rest))) ∧
      Along ps (.node db) ∧
      (PathTree.node db).leaf? =
        Function.update s.value (key :: rest) value := by
  obtain ⟨db, hput⟩ := h.data.exists_put (t := ofValue value) h.free hp
  refine ⟨db, ?_, h.data.put hp (ofValue_ne value) hput, ?_⟩
  · rw [update_eq, hput, ← h.get hp]
    rfl
  · rw [h.data.leaf?_put h.free hp (ofValue_ne value) hput, leaf?_ofValue]
    rfl

/-- A queue, or nothing, is put at the path. -/
theorem Center.Noted.put_queue
    {t : Queues A} {db : Table (Queues A) A} (h : s.Noted ps)
    (hp : key :: rest ∈ ps) (ht : ∀ f, t ≠ .node f)
    (hput : PathTree.put s.wait_queue key rest t = some db) :
    Along ps (.node db) ∧ (fun q => ((PathTree.node db).leaf? q).getD []) =
      Function.update s.waiting (key :: rest) ((t.leaf? []).getD []) := by
  refine ⟨h.queues.put hp ht hput, ?_⟩
  funext q
  rw [h.queues.leaf?_put h.free hp ht hput, Function.update_apply,
    Function.update_apply]
  split <;> rfl

/-- A `WAIT` reads the cell of its path. -/
theorem Center.Noted.wait
    {r : ℕ} (h : s.Noted ps) (hp : key :: rest ∈ ps) (hc : s.Sim c)
    (hread : Readable s (.WAIT r key rest)) :
    (s.dispatch (.WAIT r key rest)).Noted ps ∧
      (s.dispatch (.WAIT r key rest)).Sim (c.step (.wait (key :: rest) r)) := by
  have hquery := h.QUERY hp hread
  have hvalue : c.value (key :: rest) = s.value (key :: rest) := by
    rw [hc.value]
  rw [Center.dispatch, hquery, Cells.step, hvalue]
  dsimp only
  cases hcell : s.value (key :: rest) with
  | some v =>
      cases v with
      | false => exact absurd hcell hread.1
      | atom a =>
          refine ⟨⟨h.free, h.data, h.queues⟩, hc.value, hc.waiting, ?_⟩
          dsimp only
          rw [List.map_append, ← hc.answers]
          rfl
  | none =>
      have hnode := h.queues.not_node h.free hp (List.cons_ne_nil _ _)
      obtain ⟨db, hput⟩ := h.queues.exists_put
        (t := .leaf (s.waiting (key :: rest) ++ [r])) h.free hp
      have hwait : waitfor s.wait_queue key rest r = some db :=
        (waitfor_eq r hnode).trans hput
      obtain ⟨halong, hleaf⟩ := h.put_queue hp (by rintro _ ⟨⟩) hput
      have hnil : truthy (ofValue (none : Option (Lua A))) = Bool.false := rfl
      rw [hnil, if_neg Bool.false_ne_true, hwait]
      refine ⟨⟨h.free, h.data, halong⟩, hc.value, ?_, hc.answers⟩
      refine hleaf.trans ?_
      rw [← hc.waiting]
      rfl

/-- An `UPDATE` with a value gives it to the cell of its path. -/
theorem Center.Noted.give
    {r : ℕ} {v : Lua A} (h : s.Noted ps) (hp : key :: rest ∈ ps)
    (hc : s.Sim c) (hserved : c.Served) :
    (s.dispatch (.UPDATE r key rest (some v))).Noted ps ∧
      (s.dispatch (.UPDATE r key rest (some v))).Sim
        (c.step (.give (key :: rest) v)) := by
  obtain ⟨db, hupdate, halong, hleaf⟩ := h.update (some v) hp
  rw [Center.dispatch, hupdate]
  dsimp only
  have hvalue : (PathTree.node db).leaf? =
      (c.step (.give (key :: rest) v)).value := by
    rw [hleaf, hc.value]
    rfl
  have hwaiting : c.waiting (key :: rest) = s.waiting (key :: rest) := by
    rw [hc.waiting]
  cases htruthy : truthy (ofValue (s.value (key :: rest))) with
  | true =>
      obtain ⟨a, ha⟩ := (truthy_ofValue _).mp htruthy
      have hnobody : c.waiting (key :: rest) = [] :=
        hserved _ (.atom a) (hc.value ▸ ha)
      rw [Center.UPDATE.eq_def, htruthy]
      refine ⟨⟨h.free, halong, h.queues⟩, hvalue, ?_, ?_⟩
      · refine hc.waiting.trans ?_
        rw [Cells.step]
        dsimp only
        rw [← hnobody, Function.update_eq_self]
      · refine hc.answers.trans ?_
        rw [Cells.step]
        dsimp only
        rw [hnobody, List.map_nil, List.append_nil]
  | false =>
      have hnode := h.queues.not_node h.free hp (List.cons_ne_nil _ _)
      obtain ⟨queues, hput⟩ := h.queues.exists_put (t := .nil) h.free hp
      obtain ⟨halong', hleaf'⟩ := h.put_queue hp (by rintro _ ⟨⟩) hput
      rw [Center.UPDATE.eq_def, htruthy]
      dsimp only
      rcases wakeup_spec v hput hnode with ⟨q, hq, hwakeup⟩ | ⟨hnil, hwakeup⟩
      · have hqueue : s.waiting (key :: rest) = q := by
          rw [Center.waiting, leaf?_of_get hq]
          rfl
        rw [hwakeup]
        refine ⟨⟨h.free, halong, halong'⟩, hvalue, ?_, ?_⟩
        · refine hleaf'.trans ?_
          rw [hc.waiting]
          rfl
        · rw [Center.ret, Cells.step]
          dsimp only
          rw [hwaiting, hqueue, hc.answers, List.map_append, List.map_map,
            List.map_nil, List.append_nil]
          rfl
      · have hnobody : c.waiting (key :: rest) = [] := by
          rw [hwaiting, Center.waiting, leaf?, hnil]
          rfl
        rw [hwakeup]
        refine ⟨⟨h.free, halong, h.queues⟩, hvalue, ?_, ?_⟩
        · refine hc.waiting.trans ?_
          rw [Cells.step]
          dsimp only
          rw [← hnobody, Function.update_eq_self]
        · rw [Center.ret, Cells.step]
          dsimp only
          rw [hnobody, hc.answers]
          simp only [List.map_nil, List.append_nil, Option.getD_none]

/-- An `UPDATE` with nil clears the cell of its path. -/
theorem Center.Noted.clear
    {r : ℕ} (h : s.Noted ps) (hp : key :: rest ∈ ps) (hc : s.Sim c) :
    (s.dispatch (.UPDATE r key rest none)).Noted ps ∧
      (s.dispatch (.UPDATE r key rest none)).Sim
        (c.step (.clear (key :: rest))) := by
  obtain ⟨db, hupdate, halong, hleaf⟩ := h.update none hp
  have hvalue : (PathTree.node db).leaf? =
      (c.step (.clear (key :: rest))).value := by
    rw [hleaf, hc.value]
    rfl
  rw [Center.dispatch, hupdate]
  dsimp only
  rw [Center.UPDATE.eq_def]
  cases truthy (ofValue (s.value (key :: rest))) <;>
    exact ⟨⟨h.free, halong, h.queues⟩, hvalue, hc.waiting, hc.answers⟩

/-- Every request does what its operation does to the cells. -/
theorem Center.Noted.dispatch
    {l : Request A} (h : s.Noted ps) (hp : l.path ∈ ps) (hc : s.Sim c)
    (hserved : c.Served) (hread : Readable s l) :
    (s.dispatch l).Noted ps ∧ (s.dispatch l).Sim (c.step l.op) := by
  cases l with
  | QUERY r key rest =>
      rw [Center.dispatch]
      split
      · exact ⟨⟨h.free, h.data, h.queues⟩, hc.value, hc.waiting, hc.answers⟩
      · exact ⟨⟨h.free, h.data, h.queues⟩, hc.value, hc.waiting, hc.answers⟩
  | UPDATE r key rest value =>
      cases value with
      | none => exact h.clear hp hc
      | some v => exact h.give hp hc hserved
  | WAIT r key rest => exact h.wait hp hc hread

end Requests

/-! ## Runs -/

theorem Request.op_notBy
    {l : Request A} {r : ℕ} (h : l.number ≠ r) : l.op.NotBy r := by
  cases l with
  | QUERY r' key rest => trivial
  | UPDATE r' key rest value => cases value <;> trivial
  | WAIT r' key rest => exact h

/-- The replies that a `WAIT` has got. -/
def Center.repliesTo (s : Center A) (r : ℕ) : List (Reply A) :=
  (s.answers.filter (·.1 = r)).map Prod.snd

theorem Center.Sim.repliesTo
    {s : Center A} {c : Cells (List (Lua A)) ℕ (Lua A)} (h : s.Sim c) (r : ℕ) :
    s.repliesTo r =
      (c.answers.filter (·.1 = r)).map fun e => .value e.2 := by
  rw [Center.repliesTo, h.answers, List.filter_map, List.map_map]
  rfl

section Runs

variable [DecidableEq A]

/-- The state of the service and the cells, and who has not asked yet. -/
structure Center.Ready
    (s : Center A) (c : Cells (List (Lua A)) ℕ (Lua A)) : Prop where
  noted : s.Noted s.paths
  sim : s.Sim c
  served : c.Served
  unknown : ∀ r ∉ s.requests, c.Unknown r

omit [DecidableEq A] in
theorem ready_init :
    (Center.init : Center A).Ready ⟨fun _ => none, fun _ => [], []⟩ where
  noted := ⟨fun _ hp => absurd hp List.not_mem_nil, along_empty, along_empty⟩
  sim := ⟨funext leaf?_empty,
    funext fun q => congrArg (Option.getD · []) (leaf?_empty q), rfl⟩
  served _ _ h := by cases h
  unknown _ _ := ⟨fun _ => List.not_mem_nil, fun _ => List.not_mem_nil⟩

theorem Center.Ready.step
    {s s' : Center A} {c : Cells (List (Lua A)) ℕ (Lua A)} {l : Request A}
    (h : s.Ready c) (hok : Good s l) (hs : Datacenter.step s l = .next s') :
    s'.Ready (c.step l.op) ∧ l.number ∉ s.requests ∧
      s'.requests = l.number :: s.requests := by
  rw [Datacenter.step] at hs
  split at hs
  · cases hs
  · rename_i hfresh
    cases hs
    obtain ⟨hnoted, hsim⟩ := (h.noted.cons hok.1).dispatch List.mem_cons_self
      h.sim h.served hok.2
    refine ⟨⟨⟨hnoted.free, hnoted.data, hnoted.queues⟩,
      ⟨hsim.value, hsim.waiting, hsim.answers⟩, h.served.step _, ?_⟩,
      hfresh, rfl⟩
    intro r hr
    rw [List.mem_cons, not_or] at hr
    exact (h.unknown r hr.2).step (Request.op_notBy (Ne.symm hr.1))

theorem exists_ready
    {s : Center A} (h : Reaches step Good .init s) : ∃ c, s.Ready c :=
  h.invariant (fun s => ∃ c, s.Ready c) ⟨_, ready_init⟩
    fun _ _ _ ⟨_, hc⟩ hok hs => ⟨_, (hc.step hok hs).1⟩

/-- The answer of a request stays its only one. -/
theorem answered_run
    {s t : Center A} {c : Cells (List (Lua A)) ℕ (Lua A)} {r : ℕ} {v : Lua A}
    (h : s.Ready c) (hr : r ∈ s.requests) (hc : c.Answered r v)
    (hrun : Reaches step Good s t) : t.repliesTo r = [.value v] := by
  have hinv : ∃ c, t.Ready c ∧ r ∈ t.requests ∧ c.Answered r v := by
    refine hrun.invariant (fun t => ∃ c, t.Ready c ∧ r ∈ t.requests ∧
      c.Answered r v) ⟨c, h, hr, hc⟩ ?_
    rintro u l u' ⟨c', hready, hmem, hanswered⟩ hok hs
    obtain ⟨hready', hfresh, hrequests⟩ := hready.step hok hs
    refine ⟨_, hready', ?_, hanswered.step (Request.op_notBy ?_)⟩
    · rw [hrequests]
      exact List.mem_cons_of_mem _ hmem
    · rintro rfl
      exact hfresh hmem
  obtain ⟨c', hready, -, hanswered⟩ := hinv
  rw [hready.sim.repliesTo, hanswered.answers]
  rfl

/-- A request waits until an `UPDATE` gives its path a value. -/
theorem waits_run
    {s t : Center A} {c : Cells (List (Lua A)) ℕ (Lua A)} {r : ℕ} {key : Lua A}
    {rest : List (Lua A)} (h : s.Ready c) (hr : r ∈ s.requests)
    (hc : c.Waits (key :: rest) r)
    (hrun : Reaches step (fun u l => Good u l ∧
      ∀ r' v, l ≠ .UPDATE r' key rest (some v)) s t) :
    ∃ c, t.Ready c ∧ r ∈ t.requests ∧ c.Waits (key :: rest) r := by
  refine hrun.invariant (fun t => ∃ c, t.Ready c ∧ r ∈ t.requests ∧
    c.Waits (key :: rest) r) ⟨c, h, hr, hc⟩ ?_
  rintro u l u' ⟨c', hready, hmem, hwaits⟩ ⟨hok, hl⟩ hs
  obtain ⟨hready', hfresh, hrequests⟩ := hready.step hok hs
  refine ⟨_, hready', ?_, hwaits.step (Request.op_notBy ?_) ?_⟩
  · rw [hrequests]
    exact List.mem_cons_of_mem _ hmem
  · rintro rfl
    exact hfresh hmem
  · intro v hop
    cases l with
    | QUERY r' key' rest' | WAIT r' key' rest' => cases hop
    | UPDATE r' key' rest' value =>
        cases value with
        | none => cases hop
        | some v' =>
            cases hop
            exact hl r' v rfl

/-- What a `WAIT` from `s` to `s'` is for, in runs whose steps meet `ok`: it
is answered at once with the value of its path, or once, with the first value
that an `UPDATE` gives its path. -/
def AnsweredOnce
    (ok : Center A → Request A → Prop) (s s' : Center A) (r : ℕ) (key : Lua A)
    (rest : List (Lua A)) : Prop :=
  (∀ v, s.value (key :: rest) = some v →
    ∀ t, Reaches step ok s' t → t.repliesTo r = [.value v]) ∧
  (s.value (key :: rest) = none →
    ∀ t, Reaches step (fun u l => ok u l ∧
      ∀ r' v, l ≠ .UPDATE r' key rest (some v)) s' t →
        t.repliesTo r = [] ∧
        ∀ r' v t', ok t (.UPDATE r' key rest (some v)) →
          step t (.UPDATE r' key rest (some v)) = .next t' →
            ∀ u, Reaches step ok t' u → u.repliesTo r = [.value v])

/-- In a run in which no path is a leaf and a branch, and every `WAIT` is
readable, every `WAIT` is answered once. -/
theorem wait_answered_once
    {s s' : Center A} {r : ℕ} {key : Lua A} {rest : List (Lua A)}
    (h : Reaches step Good .init s) (hok : Good s (.WAIT r key rest))
    (hs : step s (.WAIT r key rest) = .next s') :
    AnsweredOnce Good s s' r key rest := by
  obtain ⟨c, hready⟩ := exists_ready h
  obtain ⟨hready', hfresh, hrequests⟩ := hready.step hok hs
  have hunknown := hready.unknown r hfresh
  have hmem : r ∈ s'.requests := hrequests ▸ List.mem_cons_self
  constructor
  · intro v hv t hrun
    rw [hready.sim.value] at hv
    exact answered_run hready' hmem (hunknown.answered hv) hrun
  · intro hnone t hrun
    rw [hready.sim.value] at hnone
    obtain ⟨c', hreadyt, hmemt, hwaits⟩ :=
      waits_run hready' hmem (hunknown.waits hnone) hrun
    refine ⟨?_, fun r' v t' hokt hst u hrunu => ?_⟩
    · rw [hreadyt.sim.repliesTo, hwaits.answers]
      rfl
    · obtain ⟨hreadyu, -, hrequestsu⟩ := hreadyt.step hokt hst
      refine answered_run hreadyu ?_ (hwaits.give v) hrunu
      rw [hrequestsu]
      exact List.mem_cons_of_mem _ hmemt

end Runs

/-! ## Two paths with a common key -/

section Examples

/-- A value is stored below the key 0. -/
def stored : Center ℕ :=
  { (Center.init : Center ℕ).dispatch
      (.UPDATE 0 (.atom 0) [.atom 1] (some (.atom 5))) with
    requests := [0]
    paths := [[.atom 0, .atom 1]] }

theorem reaches_stored
    {ok : Center ℕ → Request ℕ → Prop}
    (h : ok .init (.UPDATE 0 (.atom 0) [.atom 1] (some (.atom 5)))) :
    Reaches step ok .init stored :=
  Reaches.refl.tail _ h rfl

theorem disciplined_stored
    {l : Request ℕ} (h : Apart [.atom 0, .atom 1] l.path) :
    Disciplined stored l := by
  intro p hp _
  rw [List.mem_singleton.mp hp]
  exact h

/-- A `WAIT` for another key below 0, before the key has a value. -/
theorem wait_beside :
    ∃ s', step stored (.WAIT 1 (.atom 0) [.atom 2]) = .next s' ∧
      AnsweredOnce Good stored s' 1 (.atom 0) [.atom 2] := by
  refine ⟨_, rfl, wait_answered_once (reaches_stored ⟨?_, trivial⟩)
    ⟨disciplined_stored (by decide), ?_, .inr ?_⟩ rfl⟩
  · exact fun _ hp => absurd hp List.not_mem_nil
  · rintro ⟨⟩
  · intro q hq hne
    rcases q with _ | ⟨k, _ | ⟨k', ks⟩⟩
    · exact ⟨_, rfl⟩
    · obtain ⟨rfl, -⟩ := List.cons_prefix_cons.mp hq
      exact ⟨_, rfl⟩
    · exact absurd (hq.eq_of_length_le (Nat.le_add_left 2 ks.length)) hne

/-- A `WAIT` for a path with two missing keys below 0 gets an error. -/
theorem wait_fails :
    ¬ ∀ (s s' : Center ℕ) (r : ℕ) (key : Lua ℕ) (rest : List (Lua ℕ)),
      Reaches step Disciplined .init s → Disciplined s (.WAIT r key rest) →
        step s (.WAIT r key rest) = .next s' →
          AnsweredOnce Disciplined s s' r key rest := by
  intro hclaim
  have hanswered := hclaim stored _ 1 (.atom 0) [.atom 2, .atom 3]
    (reaches_stored fun _ hp => absurd hp List.not_mem_nil)
    (disciplined_stored (by decide)) rfl
  have hnothing := (hanswered.2 rfl _ .refl).1
  cases hnothing

end Examples

end SkynetServer.Datacenter
