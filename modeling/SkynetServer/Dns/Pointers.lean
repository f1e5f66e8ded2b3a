import SkynetServer.Dns.Answers

/-!
# Pointers that lead in a circle

The loop of `unpack_name` ends if and only if the pointers and labels of the
name never lead back to a position they came from.  All names of a packet are
read one behind the other, so `resolve` ends if that holds of each.
-/

namespace SkynetServer.Dns

open Loops Octets

/-! ## The layout of names -/

section Layout

variable (chunk : List UInt8)

/-- The name goes on at another position. -/
inductive Leads (p : ℕ) : ℕ → Prop
  | pointer {hi lo : UInt8} (hhi : chunk[p - 1]? = some hi) (h : 192 ≤ hi)
      (hlo : chunk[p - 1 + 1]? = some lo) :
      Leads p ((hi.toNat - 192) * 256 + lo.toNat + 1)
  | label {tag : UInt8} (htag : chunk[p - 1]? = some tag) (hne : tag ≠ 0)
      (h : tag < 192) (hsize : p + tag.toNat ≤ chunk.length) :
      Leads p (p + 1 + tag.toNat)

/-- The pointers and labels from the position on lead into a circle. -/
def Circular (p : ℕ) : Prop :=
  ∃ q, Relation.ReflTransGen (Leads chunk) p q ∧
    Relation.TransGen (Leads chunk) q q

/-- The name at the position ends in front of another, without what its
pointer leads to. -/
inductive NameEnds : ℕ → ℕ → Prop
  | last {p : ℕ} (h : chunk[p - 1]? = some 0) : NameEnds p (p + 1)
  | pointer {p : ℕ} {hi : UInt8} (hhi : chunk[p - 1]? = some hi)
      (h : 192 ≤ hi) : NameEnds p (p + 2)
  | label {p e : ℕ} {tag : UInt8} (htag : chunk[p - 1]? = some tag)
      (hne : tag ≠ 0) (h : tag < 192) (he : NameEnds (p + 1 + tag.toNat) e) :
      NameEnds p e

/-- The name at the position comes to its zero byte. -/
def Complete (p : ℕ) : Prop :=
  ∃ q, Relation.ReflTransGen (Leads chunk) p q ∧ chunk[q - 1]? = some 0

/-- The next position of the loop of `unpack_name`. -/
def next (p : ℕ) : Option ℕ :=
  match readPart chunk p with
  | .ok (.pointer offset) => some (offset + 1)
  | .ok (.label label) => some (p + 1 + label.length)
  | _ => none

end Layout

/-! ## One round -/

section Rounds

variable {chunk : List UInt8} {p q : ℕ}

theorem unpack_one :
    unpack chunk p 1 =
      match chunk[p - 1]? with
      | some b => .ok [b]
      | none =>
        if chunk.length < p - 1 then .error .position else .error .short := by
  rw [unpack]
  by_cases hlt : p - 1 < chunk.length
  · rw [if_neg (by omega), if_neg (by omega),
      List.getElem?_eq_getElem hlt, List.drop_eq_getElem_cons hlt]
    rfl
  · rw [List.getElem?_eq_none (Nat.le_of_not_lt hlt)]
    by_cases hpos : chunk.length < p - 1
    · simp only [if_pos hpos]
    · rw [if_neg hpos, if_pos (by omega)]
      simp only [if_neg hpos]

theorem unpack_two
    {hi : UInt8} (hhi : chunk[p - 1]? = some hi) :
    unpack chunk p 2 =
      match chunk[p - 1 + 1]? with
      | some lo => .ok [hi, lo]
      | none => .error .short := by
  obtain ⟨hlt, rfl⟩ := List.getElem?_eq_some_iff.mp hhi
  rw [unpack, if_neg (by omega)]
  by_cases hlo : p - 1 + 1 < chunk.length
  · rw [if_neg (by omega), List.getElem?_eq_getElem hlo,
      List.drop_eq_getElem_cons hlt, List.drop_eq_getElem_cons hlo]
    rfl
  · rw [if_pos (by omega), List.getElem?_eq_none (Nat.le_of_not_lt hlo)]

theorem tag_pointer_iff (tag : UInt8) : tag &&& 0xc0 = 0xc0 ↔ 192 ≤ tag := by
  revert tag
  decide +kernel

theorem offset_eq (hi lo : UInt8) (hhi : 192 ≤ hi) :
    number [hi, lo] &&& 0x3fff = (hi.toNat - 192) * 256 + lo.toNat := by
  have hmask : (0x3fff : ℕ) = 2 ^ 14 - 1 := by decide
  have hge : 192 ≤ hi.toNat := hhi
  have hlt := hi.toNat_lt
  have hlo := lo.toNat_lt
  have hnumber : number [hi, lo] = 256 * (256 * 0 + hi.toNat) + lo.toNat := rfl
  rw [hmask, Nat.and_two_pow_sub_one_eq_mod, hnumber]
  omega

/-- What stands at the position. -/
inductive Reads (chunk : List UInt8) (p : ℕ) : Except Failure Part → Prop
  | fail {e : Failure} (hleads : ∀ q, ¬ Leads chunk p q)
      (hlast : chunk[p - 1]? ≠ some 0) : Reads chunk p (.error e)
  | pointer {hi lo : UInt8} (hhi : chunk[p - 1]? = some hi) (h : 192 ≤ hi)
      (hlo : chunk[p - 1 + 1]? = some lo) :
      Reads chunk p (.ok (.pointer ((hi.toNat - 192) * 256 + lo.toNat)))
  | last (h : chunk[p - 1]? = some 0) : Reads chunk p (.ok .last)
  | label {tag : UInt8} {label : List UInt8}
      (htag : chunk[p - 1]? = some tag) (hne : tag ≠ 0) (h : tag < 192)
      (hlength : label.length = tag.toNat)
      (hsize : p + tag.toNat ≤ chunk.length) :
      Reads chunk p (.ok (.label label))

theorem unpack_label
    {tag : UInt8} (htag : chunk[p - 1]? = some tag) :
    (∃ label, unpack chunk (p + 1) tag.toNat = .ok label ∧
      label.length = tag.toNat ∧ p + tag.toNat ≤ chunk.length) ∨
    ∃ e, unpack chunk (p + 1) tag.toNat = .error e ∧
      ¬ p + tag.toNat ≤ chunk.length := by
  obtain ⟨hlt, -⟩ := List.getElem?_eq_some_iff.mp htag
  rw [unpack, if_neg (by omega), Nat.add_sub_cancel]
  by_cases hsize : p + tag.toNat ≤ chunk.length
  · refine Or.inl ⟨_, if_neg (by omega), ?_, hsize⟩
    rw [List.length_take_of_le]
    rw [List.length_drop]
    omega
  · exact Or.inr ⟨.short, if_pos (by omega), hsize⟩

theorem readPart_reads (chunk : List UInt8) (p : ℕ) :
    Reads chunk p (readPart chunk p) := by
  rw [readPart, unpack_one]
  cases htag : chunk[p - 1]? with
  | none =>
      have hleads : ∀ q, ¬ Leads chunk p q := by
        intro q hq
        cases hq with
        | pointer hhi => cases htag.symm.trans hhi
        | label hlabel => cases htag.symm.trans hlabel
      have hlast : chunk[p - 1]? ≠ some 0 := by
        rw [htag]
        exact fun h => (by cases h)
      dsimp only
      split
      · exact .fail hleads hlast
      · exact .fail hleads hlast
  | some tag =>
      change Reads chunk p (if tag &&& 0xc0 = 0xc0 then _ else _)
      by_cases hpointer : 192 ≤ tag
      · have hne : chunk[p - 1]? ≠ some 0 := by
          rw [htag]
          rintro ⟨⟩
          exact absurd hpointer (by decide)
        rw [if_pos ((tag_pointer_iff tag).mpr hpointer), unpack_two htag]
        cases hlo : chunk[p - 1 + 1]? with
        | some lo =>
            have hoffset := offset_eq tag lo hpointer
            change Reads chunk p
              (.ok (.pointer (number [tag, lo] &&& 0x3fff)))
            rw [hoffset]
            exact .pointer htag hpointer hlo
        | none =>
            refine .fail (fun q hq => ?_) hne
            cases hq with
            | pointer _ _ h => cases hlo.symm.trans h
            | label hlabel _ hlt =>
                cases htag.symm.trans hlabel
                exact absurd hpointer (UInt8.not_le.mpr hlt)
      · rw [if_neg fun h => hpointer ((tag_pointer_iff tag).mp h)]
        change Reads chunk p (if tag = 0 then _ else
          (unpack chunk (p + 1) tag.toNat).map .label)
        by_cases hzero : tag = 0
        · rw [if_pos hzero]
          exact .last (hzero ▸ htag)
        · rw [if_neg hzero]
          rcases unpack_label htag with
            ⟨label, hlabel, hlength, hsize⟩ | ⟨e, he, hsize⟩
          · rw [hlabel]
            exact .label htag hzero (UInt8.not_le.mp hpointer) hlength hsize
          · rw [he]
            refine .fail (fun q hq => ?_) ?_
            · cases hq with
              | pointer hhi h =>
                  cases htag.symm.trans hhi
                  exact hpointer h
              | label hlabel _ _ h =>
                  cases htag.symm.trans hlabel
                  exact hsize h
            · rw [htag]
              intro h
              exact hzero (Option.some.inj h)

/-- The loop goes on where the name does. -/
theorem next_eq_some_iff : next chunk p = some q ↔ Leads chunk p q := by
  have hreads := readPart_reads chunk p
  rw [next]
  generalize readPart chunk p = r at hreads
  cases hreads with
  | fail hleads _ => exact iff_of_false (fun h => (by cases h)) (hleads q)
  | pointer hhi h hlo =>
      constructor
      · rintro ⟨⟩
        exact .pointer hhi h hlo
      · intro hq
        cases hq with
        | pointer hhi' _ hlo' =>
            cases hhi.symm.trans hhi'
            cases hlo.symm.trans hlo'
            rfl
        | label htag _ hlt =>
            cases hhi.symm.trans htag
            exact absurd h (UInt8.not_le.mpr hlt)
  | last hlast =>
      refine iff_of_false (fun h => (by cases h)) fun hq => ?_
      cases hq with
      | pointer hhi h =>
          cases hlast.symm.trans hhi
          exact absurd h (by decide)
      | label htag hne =>
          cases hlast.symm.trans htag
          exact hne rfl
  | label htag hne h hlength hsize =>
      change some (p + 1 + _) = some q ↔ _
      rw [hlength]
      constructor
      · rintro ⟨⟩
        exact .label htag hne h hsize
      · intro hq
        cases hq with
        | pointer hhi h' =>
            cases htag.symm.trans hhi
            exact absurd h' (UInt8.not_le.mpr h)
        | label htag' =>
            cases htag.symm.trans htag'
            rfl

theorem finite_next (chunk : List UInt8) :
    {q | ∃ p, next chunk p = some q}.Finite := by
  refine (Set.finite_Iic (65536 + chunk.length)).subset ?_
  rintro q ⟨p, hp⟩
  rw [Set.mem_Iic]
  cases next_eq_some_iff.mp hp with
  | pointer hhi h hlo =>
      rename_i hi lo
      have hhi := hi.toNat_lt
      have hlo := lo.toNat_lt
      omega
  | label htag hne h hsize => omega

/-- The pointers do not lead into a circle: exactly then the rounds end. -/
theorem ends_next_iff (chunk : List UInt8) (p : ℕ) :
    Ends (next chunk) p ↔ ¬ Circular chunk p := by
  have hsteps : Steps (next chunk) = Leads chunk :=
    funext fun p => funext fun q => propext next_eq_some_iff
  rw [ends_iff (finite_next chunk), Cyclic, hsteps]
  rfl

end Rounds

/-! ## Names -/

section Names

variable {chunk : List UInt8}

/-- The rounds do not suffice as long as the loop goes on. -/
theorem nameLoop_eq_none_iff
    (rounds : ℕ) (t : List (List UInt8)) (jump_pointer : Option ℕ) (left : ℕ) :
    nameLoop chunk rounds t jump_pointer left = none ↔
      iter (next chunk) rounds left ≠ none := by
  induction rounds generalizing t jump_pointer left with
  | zero => exact iff_of_true rfl fun h => (by cases h)
  | succ rounds ih =>
      rw [nameLoop, iter, next]
      cases readPart chunk left with
      | error e => exact iff_of_false (fun h => (by cases h)) fun h => h rfl
      | ok part =>
          cases part with
          | pointer offset => exact ih _ _ _
          | last => exact iff_of_false (fun h => (by cases h)) fun h => h rfl
          | label label => exact ih _ _ _

/-- `unpack_name` returns or raises an error unless there is a circle. -/
theorem unpack_name_ends_iff (chunk : List UInt8) (left : ℕ) :
    (∃ rounds r, unpack_name rounds chunk left = some r) ↔
      ¬ Circular chunk left := by
  rw [← ends_next_iff]
  refine exists_congr fun rounds => ?_
  rw [← Option.ne_none_iff_exists', unpack_name, ne_eq,
    nameLoop_eq_none_iff, not_ne_iff]

/-- The position behind the name, and that the name has a zero byte. -/
theorem nameLoop_spec
    {rounds : ℕ} {t : List (List UInt8)} {jump_pointer : Option ℕ}
    {left : ℕ} {name : List UInt8} {e : ℕ}
    (h : nameLoop chunk rounds t jump_pointer left = some (.ok (name, e))) :
    (∃ e', NameEnds chunk left e' ∧ e = jump_pointer.getD e') ∧
      Complete chunk left := by
  induction rounds generalizing t jump_pointer left with
  | zero => cases h
  | succ rounds ih =>
      have hreads := readPart_reads chunk left
      rw [nameLoop] at h
      generalize readPart chunk left = r at hreads h
      cases hreads with
      | fail => cases h
      | pointer hhi hge hlo =>
          obtain ⟨⟨e', he', heq⟩, q, hq, hzero⟩ := ih h
          refine ⟨⟨left + 2, .pointer hhi hge, ?_⟩, q, ?_, hzero⟩
          · rw [heq]
            cases jump_pointer with
            | none | some j => rfl
          · exact hq.head (.pointer hhi hge hlo)
      | last hlast =>
          cases h
          exact ⟨⟨left + 1, .last hlast, rfl⟩, left, .refl, hlast⟩
      | label htag hne hlt hlength hsize =>
          obtain ⟨⟨e', he', heq⟩, q, hq, hzero⟩ := ih h
          rw [hlength] at he' hq
          exact ⟨⟨e', .label htag hne hlt he', heq⟩, q,
            hq.head (.label htag hne hlt hsize), hzero⟩

end Names

/-! ## Packets -/

section Packets

variable {content : List UInt8}

/-- The answer at a position is complete, and the next one is behind it. -/
structure AnswerEnds
    (content : List UInt8)
    (left next : ℕ) : Prop where
  complete : Complete content left
  ends : ∃ e bs rdata, NameEnds content left e ∧
    unpack content e 10 = .ok bs ∧
    unpack content (e + 10) (number (bs.drop 8)) = .ok rdata ∧
    (number (bs.take 2) = 1 → 4 ≤ rdata.length) ∧
    (number (bs.take 2) = 28 → 16 ≤ rdata.length) ∧
    next = e + 10 + number (bs.drop 8)

/-- No name of these answers leads into a circle. -/
def NoCircle (content : List UInt8) : ℕ → ℕ → Prop
  | 0, _ => True
  | n + 1, left =>
    ¬ Circular content left ∧
      ∀ next, AnswerEnds content left next → NoCircle content n next

/-- No name of the packet leads into a circle, as far as it is read. -/
def PacketSound (content : List UInt8) : Prop :=
  12 ≤ content.length → number ((content.drop 4).take 2) = 1 →
    ¬ Circular content 13 ∧
      ∀ e bs, Complete content 13 → NameEnds content 13 e →
        unpack content e 4 = .ok bs →
        NoCircle content (number ((content.drop 6).take 2)) (e + 4)

/-- A run whose result does not depend on the rounds, if they suffice. -/
def Settles {α : Type} (f : ℕ → Run α) (r : Except Failure α) : Prop :=
  (∀ rounds, f rounds = none ∨ f rounds = some r) ∧
    ∃ enough, ∀ rounds ≥ enough, f rounds = some r

/-- No number of rounds suffices. -/
def Hangs {α : Type} (f : ℕ → Run α) : Prop := ∀ rounds, f rounds = none

theorem Settles.const
    {α : Type} (r : Except Failure α) : Settles (fun _ => some r) r :=
  ⟨fun _ => Or.inr rfl, 0, fun _ _ => rfl⟩

theorem Settles.andThen
    {α β : Type} {f : ℕ → Run α} {a : α} {g : ℕ → α → Run β}
    {r : Except Failure β} (hf : Settles f (.ok a))
    (hg : Settles (fun rounds => g rounds a) r) :
    Settles (fun rounds => (f rounds).andThen (g rounds)) r := by
  obtain ⟨hall, enough, hsome⟩ := hf
  obtain ⟨hall', enough', hsome'⟩ := hg
  refine ⟨fun rounds => ?_, max enough enough', fun rounds hge => ?_⟩
  · rcases hall rounds with h | h
    · exact Or.inl (congrArg (Run.andThen · (g rounds)) h)
    · change (f rounds).andThen (g rounds) = none ∨
        (f rounds).andThen (g rounds) = some r
      rw [h]
      exact hall' rounds
  · change (f rounds).andThen (g rounds) = some r
    rw [hsome rounds (le_of_max_le_left hge)]
    exact hsome' rounds (le_of_max_le_right hge)

theorem Settles.andThen_error
    {α β : Type} {f : ℕ → Run α} {e : Failure} (g : ℕ → α → Run β)
    (hf : Settles f (.error e)) :
    Settles (fun rounds => (f rounds).andThen (g rounds)) (.error e) := by
  obtain ⟨hall, enough, hsome⟩ := hf
  refine ⟨fun rounds => ?_, enough, fun rounds hge => ?_⟩
  · change (f rounds).andThen (g rounds) = none ∨
      (f rounds).andThen (g rounds) = some (.error e)
    rcases hall rounds with h | h
    · exact Or.inl (h ▸ rfl)
    · exact Or.inr (h ▸ rfl)
  · change (f rounds).andThen (g rounds) = some (.error e)
    rw [hsome rounds hge]
    rfl

theorem Hangs.andThen
    {α β : Type} {f : ℕ → Run α} (g : ℕ → α → Run β)
    (hf : Hangs f) : Hangs fun rounds => (f rounds).andThen (g rounds) := by
  intro rounds
  change (f rounds).andThen (g rounds) = none
  rw [hf rounds]
  rfl

theorem Settles.andThen_hangs
    {α β : Type} {f : ℕ → Run α} {a : α} {g : ℕ → α → Run β}
    (hf : Settles f (.ok a)) (hg : Hangs fun rounds => g rounds a) :
    Hangs fun rounds => (f rounds).andThen (g rounds) := by
  intro rounds
  change (f rounds).andThen (g rounds) = none
  rcases hf.1 rounds with h | h
  · rw [h]
    rfl
  · rw [h]
    exact hg rounds

theorem nameLoop_mono
    {rounds rounds' : ℕ} {t : List (List UInt8)} {jump_pointer : Option ℕ}
    {left : ℕ} {r : Except Failure (List UInt8 × ℕ)}
    (h : nameLoop content rounds t jump_pointer left = some r)
    (hle : rounds ≤ rounds') :
    nameLoop content rounds' t jump_pointer left = some r := by
  induction rounds generalizing t jump_pointer left rounds' with
  | zero => cases h
  | succ rounds ih =>
      obtain ⟨more, rfl⟩ := Nat.exists_eq_add_of_le hle
      rw [Nat.add_right_comm]
      rw [nameLoop] at h ⊢
      cases hpart : readPart content left with
      | error e =>
          rw [hpart] at h
          exact h
      | ok part =>
          rw [hpart] at h
          cases part with
          | pointer offset | label label => exact ih h (Nat.le_add_right _ _)
          | last => exact h

theorem Leads.unique
    {p q q' : ℕ} (h : Leads content p q) (h' : Leads content p q') : q = q' :=
  Option.some.inj
    ((next_eq_some_iff.mpr h).symm.trans (next_eq_some_iff.mpr h'))

/-- A complete name stays complete on its way. -/
theorem Complete.next
    {p q : ℕ} (h : Complete content p)
    (hpq : Leads content p q) : Complete content q := by
  obtain ⟨z, hz, hzero⟩ := h
  rcases Relation.ReflTransGen.cases_head hz with rfl | ⟨r, hr, hrz⟩
  · cases hpq with
    | pointer hhi hge =>
        cases hzero.symm.trans hhi
        exact absurd hge (by decide)
    | label htag hne =>
        cases hzero.symm.trans htag
        exact absurd rfl hne
  · exact ⟨z, hpq.unique hr ▸ hrz, hzero⟩

theorem not_complete_of_error
    {rounds : ℕ} {t : List (List UInt8)} {jump_pointer : Option ℕ}
    {left : ℕ} {e : Failure}
    (h : nameLoop content rounds t jump_pointer left = some (.error e)) :
    ¬ Complete content left := by
  induction rounds generalizing t jump_pointer left with
  | zero => cases h
  | succ rounds ih =>
      have hreads := readPart_reads content left
      rw [nameLoop] at h
      generalize readPart content left = r at hreads h
      intro hcomplete
      cases hreads with
      | fail hleads hlast =>
          obtain ⟨z, hz, hzero⟩ := hcomplete
          rcases Relation.ReflTransGen.cases_head hz with rfl | ⟨r, hr, -⟩
          · exact hlast hzero
          · exact hleads r hr
      | pointer hhi hge hlo =>
          exact ih h (hcomplete.next (.pointer hhi hge hlo))
      | last hlast => cases h
      | label htag hne hlt hlength hsize =>
          refine ih h ?_
          rw [hlength]
          exact hcomplete.next (.label htag hne hlt hsize)

theorem NameEnds.unique
    {p e e' : ℕ}
    (h : NameEnds content p e) (h' : NameEnds content p e') : e = e' := by
  induction h with
  | last hlast =>
      cases h' with
      | last => rfl
      | pointer hhi hge =>
          cases hlast.symm.trans hhi
          exact absurd hge (by decide)
      | label htag hne =>
          cases hlast.symm.trans htag
          exact absurd rfl hne
  | pointer hhi hge =>
      cases h' with
      | last hlast =>
          cases hlast.symm.trans hhi
          exact absurd hge (by decide)
      | pointer => rfl
      | label htag _ hlt =>
          cases htag.symm.trans hhi
          exact absurd hge (UInt8.not_le.mpr hlt)
  | label htag hne hlt _ ih =>
      cases h' with
      | last hlast =>
          cases hlast.symm.trans htag
          exact absurd rfl hne
      | pointer hhi hge =>
          cases htag.symm.trans hhi
          exact absurd hge (UInt8.not_le.mpr hlt)
      | label htag' _ _ he' =>
          cases htag.symm.trans htag'
          exact ih he'

/-- What becomes of a name. -/
theorem unpack_name_cases (content : List UInt8) (left : ℕ) :
    (Circular content left ∧
      Hangs fun rounds => unpack_name rounds content left) ∨
    ¬ Circular content left ∧
      ((∃ name e, Settles (fun rounds => unpack_name rounds content left)
          (.ok (name, e)) ∧ Complete content left ∧ NameEnds content left e) ∨
        ∃ e, Settles (fun rounds => unpack_name rounds content left)
          (.error e) ∧ ¬ Complete content left) := by
  by_cases hcircular : Circular content left
  · refine Or.inl ⟨hcircular, fun rounds => ?_⟩
    by_contra hne
    obtain ⟨r, hr⟩ := Option.ne_none_iff_exists'.mp hne
    exact (unpack_name_ends_iff content left).mp ⟨rounds, r, hr⟩ hcircular
  · refine Or.inr ⟨hcircular, ?_⟩
    obtain ⟨enough, r, hr⟩ :=
      (unpack_name_ends_iff content left).mpr hcircular
    have hsettles : Settles (fun rounds => unpack_name rounds content left)
        r := by
      refine ⟨fun rounds => ?_, enough, fun rounds => nameLoop_mono hr⟩
      cases hother : unpack_name rounds content left with
      | none => exact Or.inl hother
      | some r' =>
          have hmax := nameLoop_mono hother (le_max_left rounds enough)
          cases hmax.symm.trans
            (nameLoop_mono hr (le_max_right rounds enough))
          exact Or.inr hother
    cases r with
    | error e => exact Or.inr ⟨e, hsettles, not_complete_of_error hr⟩
    | ok result =>
        obtain ⟨⟨e, he, heq⟩, hcomplete⟩ := nameLoop_spec hr
        cases heq
        exact Or.inl ⟨result.1, _, hsettles, hcomplete, he⟩

/-- What becomes of an answer. -/
theorem unpack_answer_cases (content : List UInt8) (left : ℕ) :
    (Circular content left ∧
      Hangs fun rounds => unpack_answer rounds content left) ∨
    ¬ Circular content left ∧
      ((∃ answer e bs, Settles
          (fun rounds => unpack_answer rounds content left)
          (.ok (answer, e + 10 + number (bs.drop 8))) ∧
        Complete content left ∧ NameEnds content left e ∧
        unpack content e 10 = .ok bs ∧
        unpack content (e + 10) (number (bs.drop 8)) = .ok answer.rdata ∧
        answer.atype = number (bs.take 2)) ∨
      ∃ f, Settles (fun rounds => unpack_answer rounds content left)
        (.error f) ∧ ∀ next, ¬ AnswerEnds content left next) := by
  rcases unpack_name_cases content left with ⟨hcircular, hhangs⟩ |
    ⟨hcircular, ⟨name, e, hsettles, hcomplete, he⟩ | ⟨f, hsettles, hnot⟩⟩
  · exact Or.inl ⟨hcircular, hhangs.andThen _⟩
  · refine Or.inr ⟨hcircular, ?_⟩
    cases hfields : unpack content e 10 with
    | error f =>
        refine Or.inr ⟨f, hsettles.andThen ?_, fun next hnext => ?_⟩
        · dsimp only
          rw [hfields]
          exact .const _
        · obtain ⟨e', bs, rdata, he', hbs, -⟩ := hnext.ends
          rw [← he.unique he', hfields] at hbs
          cases hbs
    | ok bs =>
        cases hrdata : unpack content (e + 10) (number (bs.drop 8)) with
        | error f =>
            refine Or.inr ⟨f, hsettles.andThen ?_, fun next hnext => ?_⟩
            · dsimp only
              rw [hfields]
              change Settles (fun _ => some (Except.map _
                (unpack content (e + 10) (number (bs.drop 8))))) _
              rw [hrdata]
              exact .const _
            · obtain ⟨e', bs', rdata, he', hbs, hr, -⟩ := hnext.ends
              rw [← he.unique he', hfields] at hbs
              cases hbs
              rw [← he.unique he', hrdata] at hr
              cases hr
        | ok rdata =>
            refine Or.inl ⟨⟨name, number (bs.take 2),
              number ((bs.drop 2).take 2), number ((bs.drop 4).take 4),
              rdata⟩, e, bs, hsettles.andThen ?_, hcomplete, he, hfields,
              hrdata, rfl⟩
            dsimp only
            rw [hfields]
            change Settles (fun _ => some (Except.map _
              (unpack content (e + 10) (number (bs.drop 8))))) _
            rw [hrdata]
            exact .const _
  · refine Or.inr ⟨hcircular, Or.inr ⟨f, hsettles.andThen_error _, ?_⟩⟩
    exact fun next hnext => hnot hnext.complete

theorem unpack_rdata_cases (rdata : List UInt8) (n : ℕ) :
    (∃ bs, unpack rdata 1 n = .ok bs ∧ n ≤ rdata.length) ∨
      ∃ f, unpack rdata 1 n = .error f ∧ ¬ n ≤ rdata.length := by
  rw [unpack, if_neg (Nat.not_lt_zero _)]
  by_cases h : rdata.length < 1 - 1 + n
  · exact Or.inr ⟨.short, if_pos h, by omega⟩
  · exact Or.inl ⟨_, if_neg h, by omega⟩

/-- An address is added if the data suffices for it. -/
theorem add_cases (acc : Answers) (answer : Answer) :
    ((∃ acc', acc.add answer = .ok acc') ∧
      (answer.atype = 1 → 4 ≤ answer.rdata.length) ∧
      (answer.atype = 28 → 16 ≤ answer.rdata.length)) ∨
    (∃ f, acc.add answer = .error f) ∧
      ¬ ((answer.atype = 1 → 4 ≤ answer.rdata.length) ∧
        (answer.atype = 28 → 16 ≤ answer.rdata.length)) := by
  rw [Answers.add]
  by_cases hv4 : answer.atype = 1
  · have hv6 : answer.atype ≠ 28 := by omega
    rw [if_pos hv4]
    rcases unpack_rdata_cases answer.rdata 4 with
      ⟨bs, hbs, hle⟩ | ⟨f, hf, hle⟩
    · rw [hbs]
      exact Or.inl ⟨⟨_, rfl⟩, fun _ => hle, fun h => absurd h hv6⟩
    · rw [hf]
      exact Or.inr ⟨⟨f, rfl⟩, fun h => hle (h.1 hv4)⟩
  · rw [if_neg hv4]
    by_cases hv6 : answer.atype = 28
    · rw [if_pos hv6]
      rcases unpack_rdata_cases answer.rdata 16 with
        ⟨bs, hbs, hle⟩ | ⟨f, hf, hle⟩
      · rw [hbs]
        exact Or.inl ⟨⟨_, rfl⟩, fun h => absurd h hv4, fun _ => hle⟩
      · rw [hf]
        exact Or.inr ⟨⟨f, rfl⟩, fun h => hle (h.2 hv6)⟩
    · rw [if_neg hv6]
      exact Or.inl ⟨⟨acc, rfl⟩, fun h => absurd h hv4, fun h => absurd h hv6⟩

/-- The loop over the answers settles if no name leads into a circle, and hangs
otherwise. -/
theorem answersLoop_cases (content : List UInt8) (n left : ℕ) (acc : Answers) :
    (NoCircle content n left ∧
      ∃ r, Settles (fun rounds => answersLoop rounds content n left acc) r) ∨
    ¬ NoCircle content n left ∧
      Hangs fun rounds => answersLoop rounds content n left acc := by
  induction n generalizing left acc with
  | zero => exact Or.inl ⟨trivial, .ok acc, .const _⟩
  | succ n ih =>
      rcases unpack_answer_cases content left with ⟨hcircular, hhangs⟩ |
        ⟨hcircular, ⟨answer, e, bs, hsettles, hcomplete, he, hbs, hrdata,
          htype⟩ | ⟨f, hsettles, hnot⟩⟩
      · exact Or.inr ⟨fun h => h.1 hcircular, hhangs.andThen _⟩
      · rcases add_cases acc answer with ⟨⟨acc', hadd⟩, hsize⟩ |
          ⟨⟨f, hadd⟩, hsize⟩
        · have hends : AnswerEnds content left
              (e + 10 + number (bs.drop 8)) :=
            ⟨hcomplete, e, bs, answer.rdata, he, hbs, hrdata,
              htype ▸ hsize.1, htype ▸ hsize.2, rfl⟩
          have honly : ∀ next, AnswerEnds content left next →
              next = e + 10 + number (bs.drop 8) := by
            rintro next ⟨-, e', bs', rdata, he', hbs', -, -, -, rfl⟩
            rw [← he.unique he', hbs] at hbs'
            cases hbs'
            rw [he.unique he']
          rcases ih (e + 10 + number (bs.drop 8)) acc' with
            ⟨hrest, r, hr⟩ | ⟨hrest, hhangs⟩
          · refine Or.inl ⟨⟨hcircular, fun next hnext => ?_⟩, r,
              hsettles.andThen ?_⟩
            · rw [honly next hnext]
              exact hrest
            · dsimp only
              rw [hadd]
              exact hr
          · refine Or.inr ⟨fun h => hrest (h.2 _ hends),
              hsettles.andThen_hangs ?_⟩
            dsimp only
            rw [hadd]
            exact hhangs
        · refine Or.inl ⟨⟨hcircular, fun next hnext => ?_⟩, .error f,
            hsettles.andThen ?_⟩
          · obtain ⟨-, e', bs', rdata, he', hbs', hr, hv4, hv6, -⟩ := hnext
            rw [← he.unique he', hbs] at hbs'
            cases hbs'
            rw [← he.unique he', hrdata] at hr
            cases hr
            rw [htype] at hsize
            exact absurd ⟨hv4, hv6⟩ hsize
          · dsimp only
            rw [hadd]
            exact .const _
      · refine Or.inl ⟨⟨hcircular, fun next hnext => ?_⟩, .error f,
          hsettles.andThen_error _⟩
        exact absurd hnext (hnot next)

theorem Settles.exists
    {α : Type} {f : ℕ → Run α} {r : Except Failure α}
    (h : Settles f r) : ∃ rounds r, f rounds = some r := by
  obtain ⟨-, enough, hsome⟩ := h
  exact ⟨enough, r, hsome enough (Nat.le_refl _)⟩

theorem Hangs.not_exists
    {α : Type} {f : ℕ → Run α}
    (h : Hangs f) : ¬ ∃ rounds r, f rounds = some r := by
  rintro ⟨rounds, r, hr⟩
  cases (h rounds).symm.trans hr

theorem resolve_settles
    {content : List UInt8} (hlength : 12 ≤ content.length)
    (hcount : number ((content.drop 4).take 2) = 1) :
    (fun rounds => resolve rounds content) = fun rounds =>
      (unpack_question rounds content 13).andThen fun (question, left) =>
        (answersLoop rounds content (number ((content.drop 6).take 2)) left
          ⟨number (content.take 2), question, [], [], none⟩).andThen
            fun answers => some (.ok (some answers)) := by
  funext rounds
  rw [resolve, if_neg (Nat.not_lt.mpr hlength),
    if_neg (not_not_intro hcount)]

/-- `resolve` returns or raises an error unless a name leads into a circle. -/
theorem resolve_ends_iff (content : List UInt8) :
    (∃ rounds r, resolve rounds content = some r) ↔ PacketSound content := by
  by_cases hlength : 12 ≤ content.length
  swap
  · refine iff_of_true ⟨0, .ok none, ?_⟩ fun h => absurd h hlength
    rw [resolve, if_pos (Nat.lt_of_not_le hlength)]
  by_cases hcount : number ((content.drop 4).take 2) = 1
  swap
  · refine iff_of_true ⟨0, .error .malformed, ?_⟩ fun _ h => absurd h hcount
    rw [resolve, if_neg (Nat.not_lt.mpr hlength), if_pos hcount]
  have hresolve := resolve_settles hlength hcount
  have hsound : PacketSound content ↔ ¬ Circular content 13 ∧
      ∀ e bs, Complete content 13 → NameEnds content 13 e →
        unpack content e 4 = .ok bs →
        NoCircle content (number ((content.drop 6).take 2)) (e + 4) :=
    ⟨fun h => h hlength hcount, fun h _ _ => h⟩
  rw [hsound]
  rcases unpack_name_cases content 13 with ⟨hcircular, hhangs⟩ |
    ⟨hcircular, ⟨name, e, hsettles, hcomplete, he⟩ | ⟨f, hsettles, hnot⟩⟩
  · have hresult : Hangs fun rounds => resolve rounds content := by
      rw [hresolve]
      exact (hhangs.andThen _).andThen _
    exact iff_of_false hresult.not_exists fun h => h.1 hcircular
  · cases hfields : unpack content e 4 with
    | error f =>
        have hquestion : Settles
            (fun rounds => unpack_question rounds content 13) (.error f) := by
          refine hsettles.andThen ?_
          dsimp only
          rw [hfields]
          exact .const _
        have hresult : Settles (fun rounds => resolve rounds content)
            (.error f) := by
          rw [hresolve]
          exact hquestion.andThen_error _
        refine iff_of_true hresult.exists ⟨hcircular, fun e' bs _ he' h => ?_⟩
        rw [← he.unique he', hfields] at h
        cases h
    | ok bs =>
        have hquestion : Settles
            (fun rounds => unpack_question rounds content 13)
            (.ok (⟨name, number (bs.take 2), number (bs.drop 2)⟩,
              e + 4)) := by
          refine hsettles.andThen ?_
          dsimp only
          rw [hfields]
          exact .const _
        rcases answersLoop_cases content (number ((content.drop 6).take 2))
          (e + 4) ⟨number (content.take 2),
            ⟨name, number (bs.take 2), number (bs.drop 2)⟩, [], [], none⟩ with
          ⟨hrest, r, hr⟩ | ⟨hrest, hhangs⟩
        · have hresult : ∃ r, Settles
              (fun rounds => resolve rounds content) r := by
            rw [hresolve]
            cases r with
            | error f =>
                exact ⟨.error f, hquestion.andThen (hr.andThen_error _)⟩
            | ok answers =>
                exact ⟨.ok (some answers),
                  hquestion.andThen (hr.andThen (.const _))⟩
          obtain ⟨r, hresult⟩ := hresult
          refine iff_of_true hresult.exists
            ⟨hcircular, fun e' bs' _ he' _ => ?_⟩
          rw [← he.unique he']
          exact hrest
        · have hresult : Hangs fun rounds => resolve rounds content := by
            rw [hresolve]
            exact hquestion.andThen_hangs (hhangs.andThen _)
          refine iff_of_false hresult.not_exists fun h => ?_
          exact hrest (h.2 e bs hcomplete he hfields)
  · have hresult : Settles (fun rounds => resolve rounds content)
        (.error f) := by
      rw [hresolve]
      exact (hsettles.andThen_error _).andThen_error _
    refine iff_of_true hresult.exists ⟨hcircular, fun e bs h => ?_⟩
    exact absurd h hnot

/-- `unpack_name` and `resolve` end exactly on names without a circle, and the
position that `unpack_name` returns is the one behind the name. -/
theorem names_end_iff (content : List UInt8) :
    (∀ left, (∃ rounds r, unpack_name rounds content left = some r) ↔
      ¬ Circular content left) ∧
    (∀ rounds left name e,
      unpack_name rounds content left = some (.ok (name, e)) →
        NameEnds content left e) ∧
    ((∃ rounds r, resolve rounds content = some r) ↔ PacketSound content) := by
  refine ⟨unpack_name_ends_iff content, fun rounds left name e h => ?_,
    resolve_ends_iff content⟩
  obtain ⟨⟨e', he', heq⟩, -⟩ := nameLoop_spec h
  cases heq
  exact he'

/-- A question whose name is a pointer to itself. -/
theorem resolve_self_pointer :
    ¬ ∃ rounds r, resolve rounds
      [0, 1, 128, 0, 0, 1, 0, 0, 0, 0, 0, 0, 192, 12] = some r := by
  have hname : ∀ rounds t jump_pointer, nameLoop
      [0, 1, 128, 0, 0, 1, 0, 0, 0, 0, 0, 0, 192, 12] rounds t jump_pointer
        13 = none := by
    intro rounds
    induction rounds with
    | zero => exact fun _ _ => rfl
    | succ rounds ih =>
        intro t jump_pointer
        have hpart : readPart
            [0, 1, 128, 0, 0, 1, 0, 0, 0, 0, 0, 0, 192, 12] 13 =
              .ok (.pointer 12) := by
          decide +kernel
        rw [nameLoop, hpart]
        exact ih _ _
  have hhangs : Hangs fun rounds => unpack_name rounds
      [0, 1, 128, 0, 0, 1, 0, 0, 0, 0, 0, 0, 192, 12] 13 :=
    fun rounds => hname rounds [] none
  have hresult : Hangs fun rounds => resolve rounds
      [0, 1, 128, 0, 0, 1, 0, 0, 0, 0, 0, 0, 192, 12] := by
    rw [resolve_settles (by decide) (by decide +kernel)]
    exact (hhangs.andThen _).andThen _
  exact hresult.not_exists

end Packets

end SkynetServer.Dns
