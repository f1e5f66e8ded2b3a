import Mathlib.Data.List.Infix

/-!
# Trees addressed by paths

A node of a tree has a subtree for every key, most of which are empty.  A path
leads to a subtree, and a subtree is put at a path by making the nodes on the
way, unless there is a leaf on the way.

The second part is about trees in which the paths to the leaves are among
given paths, none of which is a prefix of another.  There a subtree at one of
these paths is changed without any effect on the others.
-/

/-- A tree with keys from `K` and leaves from `L`. -/
inductive PathTree (K L : Type*) where
  | nil
  | leaf (l : L)
  | node (f : K → PathTree K L)

namespace PathTree

variable {K L : Type*}

/-- The subtree at a path. -/
def get : PathTree K L → List K → PathTree K L
  | t, [] => t
  | .node f, k :: ks => get (f k) ks
  | .nil, _ :: _ => .nil
  | .leaf _, _ :: _ => .nil

/-- The leaf at a path. -/
def leaf? (t : PathTree K L) (p : List K) : Option L :=
  match t.get p with
  | .leaf l => some l
  | _ => none

/-- The subtrees of a node, or of the node that takes the place of nothing. -/
def children : PathTree K L → Option (K → PathTree K L)
  | .nil => some fun _ => .nil
  | .leaf _ => none
  | .node f => some f

@[simp]
theorem get_nil (t : PathTree K L) : t.get [] = t := by
  cases t <;> rfl

@[simp]
theorem get_nil_cons (k : K) (ks : List K) :
    (nil : PathTree K L).get (k :: ks) = nil := rfl

@[simp]
theorem get_leaf_cons (l : L) (k : K) (ks : List K) :
    (leaf l : PathTree K L).get (k :: ks) = nil := rfl

@[simp]
theorem get_node_cons (f : K → PathTree K L) (k : K) (ks : List K) :
    (node f).get (k :: ks) = (f k).get ks := rfl

theorem get_of_leaf?
    {t : PathTree K L} {p : List K} {l : L} (h : t.leaf? p = some l) :
    t.get p = leaf l := by
  rw [leaf?] at h
  split at h
  · rename_i l' hget
    cases h
    exact hget
  · cases h

theorem leaf?_empty (p : List K) :
    (node fun _ => (nil : PathTree K L)).leaf? p = none := by
  rcases p with _ | ⟨k, _ | ⟨k', ks⟩⟩ <;> rfl

theorem leaf?_of_get
    {t : PathTree K L} {p : List K} {l : L} (h : t.get p = leaf l) :
    t.leaf? p = some l := by
  rw [leaf?, h]

theorem get_append (t : PathTree K L) (p q : List K) :
    t.get (p ++ q) = (t.get p).get q := by
  induction p generalizing t with
  | nil => rw [List.nil_append, get_nil]
  | cons k ks ih =>
      rw [List.cons_append]
      cases t with
      | nil =>
          rw [get_nil_cons, get_nil_cons]
          cases q <;> rfl
      | leaf l =>
          rw [get_leaf_cons, get_leaf_cons]
          cases q <;> rfl
      | node f => exact ih (f k)

theorem get_children
    {t : PathTree K L} {f : K → PathTree K L} (h : t.children = some f)
    (k : K) (ks : List K) : t.get (k :: ks) = (f k).get ks := by
  cases t with
  | nil =>
      cases h
      cases ks <;> rfl
  | leaf l => cases h
  | node g =>
      cases h
      rfl

section Put

variable [DecidableEq K]

/-- Put a subtree at a path below a node; `none` if a leaf is on the way. -/
def put (f : K → PathTree K L) (k : K) :
    List K → PathTree K L → Option (K → PathTree K L)
  | [], t => some (Function.update f k t)
  | k' :: ks, t =>
    match (f k).children with
    | none => none
    | some g => (put g k' ks t).map fun g => Function.update f k (.node g)

variable {f f' : K → PathTree K L} {k : K} {ks : List K} {t : PathTree K L}

theorem put_cons
    {k' : K} (h : put f k (k' :: ks) t = some f') :
    ∃ g g', (f k).children = some g ∧ put g k' ks t = some g' ∧
      f' = Function.update f k (.node g') := by
  rw [put] at h
  split at h
  · cases h
  · rename_i g hg
    obtain ⟨g', hg', rfl⟩ := Option.map_eq_some_iff.mp h
    exact ⟨g, g', hg, hg', rfl⟩

theorem get_put_self (h : put f k ks t = some f') :
    (node f').get (k :: ks) = t := by
  induction ks generalizing f f' k with
  | nil =>
      cases h
      rw [get_node_cons, Function.update_self, get_nil]
  | cons k' ks ih =>
      obtain ⟨g, g', -, hg', rfl⟩ := put_cons h
      rw [get_node_cons, Function.update_self]
      exact ih hg'

/-- What is not above or below the path stays. -/
theorem get_put_other
    (h : put f k ks t = some f') {q : List K} (hq : ¬ k :: ks <+: q)
    (hq' : ¬ q <+: k :: ks) : (node f').get q = (node f).get q := by
  induction ks generalizing f f' k q with
  | nil =>
      cases q with
      | nil => exact absurd List.nil_prefix hq'
      | cons j q =>
          have hj : j ≠ k := by
            rintro rfl
            exact hq (List.cons_prefix_cons.mpr ⟨rfl, List.nil_prefix⟩)
          cases h
          rw [get_node_cons, get_node_cons, Function.update_of_ne hj]
  | cons k' ks ih =>
      obtain ⟨g, g', hg, hg', rfl⟩ := put_cons h
      cases q with
      | nil => exact absurd List.nil_prefix hq'
      | cons j q =>
          rw [get_node_cons, get_node_cons]
          rcases eq_or_ne j k with rfl | hj
          · rw [Function.update_self]
            have hsub := ih hg' (q := q)
              (fun hp => hq (List.cons_prefix_cons.mpr ⟨rfl, hp⟩))
              (fun hp => hq' (List.cons_prefix_cons.mpr ⟨rfl, hp⟩))
            rw [hsub]
            cases q with
            | nil =>
                exact absurd (List.cons_prefix_cons.mpr ⟨rfl, List.nil_prefix⟩)
                  hq'
            | cons i q => exact (get_children hg i q).symm
          · rw [Function.update_of_ne hj]

/-- A node is made at every place above the path. -/
theorem get_put_above
    (h : put f k ks t = some f') {q : List K} (hq : q <+: k :: ks)
    (hne : q ≠ k :: ks) : ∃ g, (node f').get q = node g := by
  induction ks generalizing f f' k q with
  | nil =>
      cases q with
      | nil => exact ⟨f', rfl⟩
      | cons j q =>
          obtain ⟨rfl, htail⟩ := List.cons_prefix_cons.mp hq
          rw [List.prefix_nil] at htail
          exact absurd (by rw [htail]) hne
  | cons k' ks ih =>
      obtain ⟨g, g', -, hg', rfl⟩ := put_cons h
      cases q with
      | nil => exact ⟨_, rfl⟩
      | cons j q =>
          obtain ⟨rfl, htail⟩ := List.cons_prefix_cons.mp hq
          rw [get_node_cons, Function.update_self]
          exact ih hg' htail fun heq => hne (by rw [heq])

/-- Only a leaf on the way keeps a subtree from being put. -/
theorem exists_leaf_of_put
    (h : put f k ks t = none) :
    ∃ q l, q <+: k :: ks ∧ q ≠ k :: ks ∧ (node f).get q = leaf l := by
  induction ks generalizing f k with
  | nil => cases h
  | cons k' ks ih =>
      rw [put] at h
      split at h
      · rename_i hchildren
        cases hk : f k with
        | leaf l =>
            refine ⟨[k], l, List.cons_prefix_cons.mpr ⟨rfl, List.nil_prefix⟩,
              ?_, ?_⟩
            · intro heq
              cases heq
            · rw [get_node_cons, hk, get_nil]
        | nil | node g => rw [hk] at hchildren; cases hchildren
      · rename_i g hg
        rw [Option.map_eq_none_iff] at h
        obtain ⟨q, l, hq, hne, hleaf⟩ := ih h
        refine ⟨k :: q, l, List.cons_prefix_cons.mpr ⟨rfl, hq⟩, ?_, ?_⟩
        · exact fun heq => hne (List.cons.inj heq).2
        · rw [get_node_cons]
          cases q with
          | nil =>
              rw [get_nil] at hleaf
              cases hleaf
          | cons j q => exact (get_children hg j q).trans hleaf

end Put

/-! ## Paths that are not prefixes of each other -/

/-- Neither path leads through the other. -/
def Apart (p q : List K) : Prop := ¬ p <+: q ∧ ¬ q <+: p

instance [DecidableEq K] (p q : List K) : Decidable (Apart p q) :=
  inferInstanceAs (Decidable (_ ∧ _))

theorem Apart.symm {p q : List K} (h : Apart p q) : Apart q p := ⟨h.2, h.1⟩

/-- Different paths are apart. -/
def PrefixFree (ps : List (List K)) : Prop :=
  ∀ p ∈ ps, ∀ q ∈ ps, p ≠ q → Apart p q

theorem PrefixFree.cons
    {p : List K} {ps : List (List K)} (hfree : PrefixFree ps)
    (hp : ∀ q ∈ ps, q ≠ p → Apart q p) : PrefixFree (p :: ps) := by
  intro q hq q' hq' hne
  rcases List.mem_cons.mp hq with rfl | hmem
  · rcases List.mem_cons.mp hq' with rfl | hmem'
    · exact absurd rfl hne
    · exact (hp q' hmem' hne.symm).symm
  · rcases List.mem_cons.mp hq' with rfl | hmem'
    · exact hp q hmem hne
    · exact hfree q hmem q' hmem' hne

/-- The leaves of the tree are at given paths, and its nodes above them. -/
structure Along (ps : List (List K)) (t : PathTree K L) : Prop where
  leaf : ∀ (q : List K) (l : L), t.get q = leaf l → q ∈ ps
  node : ∀ (q : List K) (f : K → PathTree K L), t.get q = node f → q ≠ [] →
    ∃ p ∈ ps, q <+: p ∧ q ≠ p

section Along

variable {ps : List (List K)} {f f' : K → PathTree K L} {k : K} {ks : List K}
  {t : PathTree K L}

theorem along_empty : Along ps (node fun _ => (nil : PathTree K L)) where
  leaf q l h := by
    cases q with
    | nil => cases h
    | cons k ks =>
        rw [get_node_cons] at h
        cases ks <;> cases h
  node q f h hq := by
    cases q with
    | nil => exact absurd rfl hq
    | cons k ks =>
        rw [get_node_cons] at h
        cases ks <;> cases h

theorem Along.mono
    {ps' : List (List K)} (h : Along ps t) (hps : ∀ p ∈ ps, p ∈ ps') :
    Along ps' t where
  leaf q l hq := hps q (h.leaf q l hq)
  node q f hq hne := by
    obtain ⟨p, hp, hpre⟩ := h.node q f hq hne
    exact ⟨p, hps p hp, hpre⟩

/-- There is no node at a given path. -/
theorem Along.not_node
    {p : List K} (h : Along ps t) (hfree : PrefixFree ps) (hp : p ∈ ps)
    (hne : p ≠ []) (g : K → PathTree K L) : t.get p ≠ .node g := by
  intro hnode
  obtain ⟨q, hq, hpre, hpq⟩ := h.node p g hnode hne
  exact (hfree p hp q hq hpq).1 hpre

variable [DecidableEq K]

/-- There is no leaf above a given path. -/
theorem Along.exists_put
    (h : Along ps (.node f)) (hfree : PrefixFree ps) (hp : k :: ks ∈ ps) :
    ∃ f', put f k ks t = some f' := by
  rw [← Option.ne_none_iff_exists']
  intro hnone
  obtain ⟨q, l, hpre, hne, hleaf⟩ := exists_leaf_of_put hnone
  exact (hfree q (h.leaf q l hleaf) _ hp hne).1 hpre

/-- The subtree at another path stays. -/
theorem get_put_of_ne
    {q : List K} (hfree : PrefixFree ps) (hp : k :: ks ∈ ps) (hq : q ∈ ps)
    (hne : q ≠ k :: ks) (hput : put f k ks t = some f') :
    (node f').get q = (node f).get q := by
  obtain ⟨hpq, hqp⟩ := hfree _ hp q hq hne.symm
  exact get_put_other hput hpq hqp

/-- A leaf, or nothing, is put at a given path. -/
theorem Along.put
    (h : Along ps (.node f)) (hp : k :: ks ∈ ps)
    (ht : ∀ g, t ≠ .node g) (hput : put f k ks t = some f') :
    Along ps (.node f') := by
  have hbelow : ∀ j q, (PathTree.node f').get (k :: ks ++ j :: q) = nil := by
    intro j q
    rw [get_append, get_put_self hput]
    cases t with
    | nil | leaf l => rfl
    | node g => exact absurd rfl (ht g)
  have hcases : ∀ q, (q = k :: ks) ∨ (q <+: k :: ks ∧ q ≠ k :: ks) ∨
      (PathTree.node f').get q = nil ∨
      (PathTree.node f').get q = (PathTree.node f).get q := by
    intro q
    by_cases hpre : q <+: k :: ks
    · rcases eq_or_ne q (k :: ks) with rfl | hne
      · exact .inl rfl
      · exact .inr (.inl ⟨hpre, hne⟩)
    · by_cases hext : k :: ks <+: q
      · obtain ⟨q', rfl⟩ := hext
        cases q' with
        | nil =>
            rw [List.append_nil]
            exact .inl rfl
        | cons j q' => exact .inr (.inr (.inl (hbelow j q')))
      · exact .inr (.inr (.inr (get_put_other hput hext hpre)))
  constructor
  · intro q l hq
    rcases hcases q with rfl | ⟨hpre, hne⟩ | hnil | hsame
    · exact hp
    · obtain ⟨g, hg⟩ := get_put_above hput hpre hne
      rw [hg] at hq
      cases hq
    · rw [hnil] at hq
      cases hq
    · rw [hsame] at hq
      exact h.leaf q l hq
  · intro q g hq hne
    rcases hcases q with rfl | ⟨hpre, hne'⟩ | hnil | hsame
    · rw [get_put_self hput] at hq
      exact absurd hq (ht g)
    · exact ⟨_, hp, hpre, hne'⟩
    · rw [hnil] at hq
      cases hq
    · rw [hsame] at hq
      exact h.node q g hq hne

/-- The leaves after a leaf, or nothing, was put at a given path. -/
theorem Along.leaf?_put
    (h : Along ps (.node f)) (hfree : PrefixFree ps) (hp : k :: ks ∈ ps)
    (ht : ∀ g, t ≠ .node g) (hput : PathTree.put f k ks t = some f') :
    (PathTree.node f').leaf? =
      Function.update (PathTree.node f).leaf? (k :: ks) (t.leaf? []) := by
  have h' := h.put hp ht hput
  funext q
  rcases eq_or_ne q (k :: ks) with rfl | hne
  · rw [Function.update_self, leaf?, get_put_self hput, leaf?, get_nil]
  · rw [Function.update_of_ne hne]
    by_cases hq : q ∈ ps
    · rw [leaf?, get_put_of_ne hfree hp hq hne hput, leaf?]
    · have hnone : ∀ {u : PathTree K L}, Along ps u → u.leaf? q = none := by
        intro u hu
        rw [Option.eq_none_iff_forall_ne_some]
        exact fun l hl => hq (hu.leaf q l (get_of_leaf? hl))
      rw [hnone h', hnone h]

end Along

end PathTree
