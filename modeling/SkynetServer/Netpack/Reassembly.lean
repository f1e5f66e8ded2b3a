import SkynetServer.Netpack.Queue
import SkynetServer.Support.Framing

/-!
# Package reassembly

However the streams of the sockets are cut and interleaved, the packages
dispatched for an fd are the complete packages of the stream it received, and
its uncomplete record is the tail of that stream.

The state of the queue is described by `records`, the records of an fd in a
hash chain, and by the list of packages its ring holds.  Each function of the
source has one lemma on both.
-/

namespace SkynetServer.Netpack

open Framing

/-- The records of an fd in a hash chain. -/
def records (q : Option Queue) (fd : Fd) (h : ℕ) : List Uncomplete :=
  match q with
  | none => []
  | some q => (q.hash h).filter fun uc => uc.pack.id = fd

/-- The packages in the ring. -/
def Holds : Option Queue → List Pack → Prop
  | none, nps => nps = []
  | some q, nps => q.toRingBuffer.Holds nps

/-- A package with its bytes. -/
def Pack.of (fd : Fd) (body : List UInt8) : Pack :=
  ⟨fd, body.length, body.map some⟩

/-- The block of a package of which only the first bytes were written. -/
def partialBuffer (size : ℕ) (bytes : List UInt8) : Buffer :=
  bytes.map some ++ malloc (size - bytes.length)

/-- The records that keep the tail of a stream. -/
inductive Keeps (fd : Fd) : List Uncomplete → List UInt8 → Prop
  | nothing : Keeps fd [] []
  | header (uc : Uncomplete) (a : UInt8) :
      uc.pack.id = fd → uc.read = -1 → uc.header = a.toNat →
        Keeps fd [uc] [a]
  | body (uc : Uncomplete) (a b : UInt8) (bytes : List UInt8) :
      uc.pack = ⟨fd, number a b, partialBuffer (number a b) bytes⟩ →
        uc.read = bytes.length → bytes.length < number a b →
          Keeps fd [uc] (a :: b :: bytes)

/-- Of all records, only those of an fd changed, and they now keep a
tail. -/
structure Files (q q' : Option Queue) (fd : Fd) (tail : List UInt8) :
    Prop where
  own : Keeps fd (records q' fd (hashFd fd)) tail
  other : ∀ fd' h, fd' ≠ fd ∨ h ≠ hashFd fd →
    records q' fd' h = records q fd' h

/-! ## Blocks -/

section Blocks

variable {bytes : List UInt8} {size : ℕ}

theorem readSize_eq (a b : UInt8) : readSize a b = number a b := by
  have hb : b.toNat < 2 ^ 8 := b.toNat_lt
  rw [readSize, number, ← Nat.shiftLeft_add_eq_or_of_lt hb, Nat.shiftLeft_eq]

/-- Copying behind the bytes that were written. -/
theorem memcpy_partial
    {part : List UInt8} (hsize : size ≤ bytes.length)
    {total : ℕ} (htotal : part.length + size ≤ total) :
    memcpy (partialBuffer total part) part.length bytes size =
      some (partialBuffer total (part ++ bytes.take size)) := by
  have hlength : (partialBuffer total part).length = total := by
    rw [partialBuffer, malloc, List.length_append, List.length_map,
      List.length_replicate]
    omega
  have htake : (partialBuffer total part).take part.length =
      part.map some := by
    rw [partialBuffer, List.take_left' (List.length_map _)]
  have hdrop : (partialBuffer total part).drop (part.length + size) =
      malloc (total - (part.length + size)) := by
    rw [partialBuffer, ← List.drop_drop, List.drop_left' (List.length_map _),
      malloc, malloc, List.drop_replicate]
    congr 1
    omega
  rw [memcpy, if_pos ⟨hsize, by rw [hlength]; exact htotal⟩, htake, hdrop,
    partialBuffer, List.map_append, List.length_append,
    List.length_take_of_le hsize]

theorem partialBuffer_full (body : List UInt8) :
    partialBuffer body.length body = body.map some := by
  rw [partialBuffer, Nat.sub_self]
  exact List.append_nil _

theorem memcpy_malloc {n : ℕ} (hn : n ≤ bytes.length) (hsize : n ≤ size) :
    memcpy (malloc size) 0 bytes n =
      some (partialBuffer size (bytes.take n)) := by
  have hpart : ([] : List UInt8).length + n ≤ size := by simpa using hsize
  exact memcpy_partial hn hpart

end Blocks

/-! ## Records -/

section Records

variable (q : Option Queue) (fd : Fd)

theorem unlink_eq (fd : Fd) (ucs : List Uncomplete) :
    unlink fd ucs = none ∧ (ucs.filter fun uc => uc.pack.id = fd) = [] ∨
    ∃ uc rest, unlink fd ucs = some (uc, rest) ∧
      (∀ fd', (ucs.filter fun uc => uc.pack.id = fd') =
        if fd' = fd then uc :: (rest.filter fun uc => uc.pack.id = fd')
        else rest.filter fun uc => uc.pack.id = fd') := by
  induction ucs with
  | nil => exact .inl ⟨rfl, rfl⟩
  | cons uc next ih =>
      by_cases hid : uc.pack.id = fd
      · refine .inr ⟨uc, next, by rw [unlink, if_pos hid], fun fd' => ?_⟩
        by_cases hfd : fd' = fd
        · rw [if_pos hfd, List.filter_cons_of_pos (by simp [hid, hfd])]
        · have hne : uc.pack.id ≠ fd' := fun h => hfd (h.symm.trans hid)
          rw [if_neg hfd, List.filter_cons_of_neg (by simp [hne])]
      · rcases ih with ⟨hnone, hempty⟩ | ⟨found, rest, hsome, hfilter⟩
        · refine .inl ⟨?_, ?_⟩
          · rw [unlink, if_neg hid, hnone]
            rfl
          · rw [List.filter_cons_of_neg (by simp [hid]), hempty]
        · refine .inr ⟨found, uc :: rest, ?_, fun fd' => ?_⟩
          · rw [unlink, if_neg hid, hsome]
            rfl
          · by_cases hfd : fd' = fd
            · have hne : uc.pack.id ≠ fd' := fun h => hid (h.trans hfd)
              rw [List.filter_cons_of_neg (by simp [hne]), hfilter,
                if_pos hfd, if_pos hfd,
                List.filter_cons_of_neg (by simp [hne])]
            · rw [List.filter_cons, hfilter, if_neg hfd, if_neg hfd,
                List.filter_cons]

/-- An fd without a record. -/
theorem findUncomplete_of_nil (h : records q fd (hashFd fd) = []) :
    findUncomplete q fd = (none, q) := by
  cases q with
  | none => rfl
  | some q =>
      rcases unlink_eq fd (q.hash (hashFd fd)) with
        ⟨hnone, -⟩ | ⟨uc, rest, -, hfilter⟩
      · rw [findUncomplete, hnone]
      · have hown := hfilter fd
        rw [if_pos rfl] at hown
        exact absurd (h.symm.trans hown) (List.cons_ne_nil _ _).symm

/-- The record of an fd leaves its chain. -/
theorem findUncomplete_of_cons
    {uc : Uncomplete} {ucs : List Uncomplete}
    (h : records q fd (hashFd fd) = uc :: ucs) :
    ∃ q', findUncomplete q fd = (some uc, some q') ∧
      records (some q') fd (hashFd fd) = ucs ∧
      (∀ fd' h, fd' ≠ fd ∨ h ≠ hashFd fd →
        records (some q') fd' h = records q fd' h) ∧
      ∀ nps, Holds q nps → Holds (some q') nps := by
  cases q with
  | none => cases h
  | some q =>
      rcases unlink_eq fd (q.hash (hashFd fd)) with
        ⟨-, hempty⟩ | ⟨found, rest, hsome, hfilter⟩
      · exact absurd (h.symm.trans hempty) (List.cons_ne_nil _ _)
      · have hown := hfilter fd
        rw [if_pos rfl] at hown
        have hcons := h.symm.trans hown
        obtain ⟨rfl, rfl⟩ := List.cons_eq_cons.1 hcons
        refine ⟨{ q with hash := Function.update q.hash (hashFd fd) rest },
          ?_, ?_, ?_, fun nps hnps => hnps⟩
        · rw [findUncomplete, hsome]
        · rw [records]
          simp only [Function.update_self]
        · intro fd' h' hne
          rw [records, records]
          by_cases hh : h' = hashFd fd
          · have hfd : fd' ≠ fd := hne.resolve_right (fun h => h hh)
            subst hh
            simp only [Function.update_self]
            rw [hfilter fd', if_neg hfd]
          · simp only [Function.update_of_ne hh]

variable {tail : List UInt8}

/-- A closed fd leaves no record, and the others stay. -/
theorem records_closeUncomplete
    (h : Keeps fd (records q fd (hashFd fd)) tail) :
    Files q (closeUncomplete q fd) fd [] := by
  generalize hrecords : records q fd (hashFd fd) = ucs at h
  rw [closeUncomplete]
  cases ucs with
  | nil =>
      rw [findUncomplete_of_nil q fd hrecords]
      refine ⟨?_, fun _ _ _ => rfl⟩
      rw [hrecords]
      exact .nothing
  | cons uc ucs =>
      obtain ⟨q', hfind, hempty, hagree, -⟩ :=
        findUncomplete_of_cons q fd hrecords
      rw [hfind]
      refine ⟨?_, hagree⟩
      cases h <;> · rw [hempty]; exact .nothing

theorem records_getQueue (h : ℕ) :
    records (some (getQueue q)) fd h = records q fd h := by
  cases q <;> rfl

theorem Holds.getQueue {q : Option Queue} {nps : List Pack} (h : Holds q nps) :
    Holds (some (getQueue q)) nps := by
  cases q with
  | some q => exact h
  | none =>
      cases h
      exact ⟨by decide, by decide, rfl, fun i a ha => by cases ha⟩

/-- Linking a record in front of its chain. -/
theorem records_link
    (q : Queue) (uc : Uncomplete) (fd : Fd) (h : ℕ) :
    records (some { q with
      hash := Function.update q.hash (hashFd uc.pack.id)
        (uc :: q.hash (hashFd uc.pack.id)) }) fd h =
      if fd = uc.pack.id ∧ h = hashFd fd then uc :: records (some q) fd h
      else records (some q) fd h := by
  rw [records, records]
  by_cases hh : h = hashFd uc.pack.id
  · subst hh
    simp only [Function.update_self]
    by_cases hid : fd = uc.pack.id
    · rw [if_pos ⟨hid, by rw [hid]⟩,
        List.filter_cons_of_pos (by simp [hid])]
    · rw [if_neg (fun h => hid h.1),
        List.filter_cons_of_neg (by simpa using Ne.symm hid)]
  · simp only [Function.update_of_ne hh]
    rw [if_neg]
    rintro ⟨rfl, hchain⟩
    exact hh hchain

/-- A record is linked for an fd that has none. -/
theorem files_link
    {q : Queue} {uc : Uncomplete} {fd : Fd}
    (hid : uc.pack.id = fd) (hempty : records (some q) fd (hashFd fd) = [])
    (hkeeps : Keeps fd [uc] tail) :
    Files (some q) (some { q with
      hash := Function.update q.hash (hashFd fd)
        (uc :: q.hash (hashFd fd)) }) fd tail := by
  subst hid
  refine ⟨?_, fun fd' h hne => ?_⟩
  · rw [records_link, if_pos ⟨rfl, rfl⟩, hempty]
    exact hkeeps
  · rw [records_link, if_neg]
    rintro ⟨rfl, rfl⟩
    rcases hne with hne | hne
    · exact hne rfl
    · exact hne rfl

theorem files_saveUncomplete
    {q : Option Queue} {uc : Uncomplete} {fd : Fd}
    (hid : uc.pack.id = fd) (hempty : records q fd (hashFd fd) = [])
    (hkeeps : Keeps fd [uc] tail) :
    Files q (some (saveUncomplete q uc)) fd tail := by
  subst hid
  have hempty' : records (some (getQueue q)) uc.pack.id
      (hashFd uc.pack.id) = [] := by
    rw [records_getQueue]
    exact hempty
  have hlink := files_link rfl hempty' hkeeps
  refine ⟨hlink.own, fun fd' h hne => ?_⟩
  exact (hlink.other fd' h hne).trans (records_getQueue q fd' h)

end Records

/-! ## Pushing packages -/

section Push

variable {q : Option Queue} {fd : Fd} {nps : List Pack}

theorem records_pushData
    (q : Option Queue) (fd : Fd) (buffer : Buffer) (size : ℕ) (fd' : Fd)
    (h : ℕ) :
    records (some (pushData q fd buffer size)) fd' h = records q fd' h := by
  rw [← records_getQueue q]
  unfold pushData
  dsimp only
  split <;> rfl

/-- The package is the last one in the ring, also in a new ring. -/
theorem Holds.pushData
    (h : Holds q nps) (fd : Fd) (buffer : Buffer) (size : ℕ) :
    Holds (some (pushData q fd buffer size))
      (nps ++ [⟨fd, size, buffer⟩]) := by
  have hring := h.getQueue
  unfold Netpack.pushData
  dsimp only
  split
  · rename_i heq
    exact RingBuffer.Holds.grow hring _ (by decide) heq
  · rename_i hne
    exact RingBuffer.Holds.push hring _ hne

variable {bytes : List UInt8}

/-- A stream with enough bytes starts with a package. -/
theorem exists_body
    {size : ℕ} (h : size ≤ bytes.length) :
    ∃ body rest, bytes = body ++ rest ∧ body.length = size :=
  ⟨bytes.take size, bytes.drop size, (List.take_append_drop size bytes).symm,
    List.length_take_of_le h⟩

theorem pushClone_eq
    (q : Option Queue) (fd : Fd) (body rest : List UInt8) :
    pushClone q fd (body ++ rest) body.length =
      some (pushData q fd (body.map some) body.length) := by
  have hle : body.length ≤ (body ++ rest).length := by
    rw [List.length_append]
    exact Nat.le_add_right _ _
  rw [pushClone, memcpy_malloc hle (Nat.le_refl _), List.take_left,
    partialBuffer_full]
  rfl

theorem saveBody_eq
    (q : Option Queue) (fd : Fd) {size : ℕ}
    (h : bytes.length < size) :
    saveBody q fd size bytes =
      some (saveUncomplete q
        ⟨⟨fd, size, partialBuffer size bytes⟩, bytes.length, 0⟩) := by
  rw [saveBody, memcpy_malloc (Nat.le_refl _) (Nat.le_of_lt h),
    List.take_length]
  rfl

/-- What a function of the source did with bytes of an fd that has no
record: the packages `more` are in the ring behind those before, and the
records keep the tail. -/
structure Pushed (q : Option Queue) (nps : List Pack) (q' : Option Queue)
    (fd : Fd) (bodies : List (List UInt8)) (tail : List UInt8) : Prop where
  files : Files q q' fd tail
  holds : Holds q' (nps ++ bodies.map (Pack.of fd))

theorem pushed_saveHeader
    (hempty : records q fd (hashFd fd) = []) (hholds : Holds q nps)
    (a : UInt8) :
    Pushed q nps (some (saveHeader q fd a)) fd [] [a] := by
  refine ⟨files_saveUncomplete rfl hempty (.header _ a rfl rfl rfl), ?_⟩
  rw [List.map_nil, List.append_nil]
  exact hholds.getQueue

theorem pushed_saveBody
    (hempty : records q fd (hashFd fd) = []) (hholds : Holds q nps)
    {a b : UInt8} (hlt : bytes.length < number a b) :
    ∃ q', saveBody q fd (number a b) bytes = some q' ∧
      Pushed q nps (some q') fd [] (a :: b :: bytes) := by
  refine ⟨_, saveBody_eq q fd hlt, ?_, ?_⟩
  · exact files_saveUncomplete rfl hempty (.body _ a b bytes rfl rfl hlt)
  · rw [List.map_nil, List.append_nil]
    exact hholds.getQueue

/-- Packages and a tail behind a first package. -/
theorem Pushed.cons
    {q' : Option Queue} {body : List UInt8} {bodies : List (List UInt8)}
    {tail : List UInt8}
    (h : Pushed (some (pushData q fd (body.map some) body.length))
      (nps ++ [Pack.of fd body]) q' fd bodies tail) :
    Pushed q nps q' fd (body :: bodies) tail := by
  refine ⟨⟨h.files.own, fun fd' c hne => ?_⟩, ?_⟩
  · rw [h.files.other fd' c hne, records_pushData]
  · have hholds := h.holds
    rwa [List.append_assoc] at hholds

/-- Nothing is left behind a package. -/
theorem pushed_nothing
    (hempty : records q fd (hashFd fd) = []) (hholds : Holds q nps) :
    Pushed q nps q fd [] [] := by
  refine ⟨⟨?_, fun _ _ _ => rfl⟩, ?_⟩
  · rw [hempty]
    exact .nothing
  · rw [List.map_nil, List.append_nil]
    exact hholds

theorem pushMore_spec
    (bytes : List UInt8) (hbytes : bytes ≠ [])
    (hempty : records q fd (hashFd fd) = []) (hholds : Holds q nps) :
    ∃ q', pushMore q fd bytes = some q' ∧
      Pushed q nps (some q') fd (parse bytes).1 (parse bytes).2 := by
  induction hn : bytes.length using Nat.strong_induction_on
    generalizing q nps bytes with
  | _ n ih =>
    match bytes with
    | [] => exact absurd rfl hbytes
    | [a] =>
        refine ⟨_, by rw [pushMore], ?_⟩
        rw [parse_of_incomplete (.header a)]
        exact pushed_saveHeader hempty hholds a
    | a :: b :: bytes =>
        by_cases hlt : bytes.length < number a b
        · obtain ⟨q', hq', hpushed⟩ := pushed_saveBody hempty hholds hlt
          refine ⟨q', ?_, ?_⟩
          · rw [pushMore, readSize_eq, if_pos hlt, hq']
          · rw [parse_of_incomplete (.body a b bytes hlt)]
            exact hpushed
        · obtain ⟨body, rest, rfl, hbody⟩ := exists_body (Nat.not_lt.1 hlt)
          have hempty' : records (some (pushData q fd (body.map some)
              body.length)) fd (hashFd fd) = [] := by
            rw [records_pushData]
            exact hempty
          have hholds' := hholds.pushData fd (body.map some) body.length
          rw [pushMore, readSize_eq, if_neg hlt, parse_package hbody, ← hbody,
            pushClone_eq, List.drop_left]
          change ∃ q', (if rest.length > 0 then
            pushMore (some (pushData q fd (body.map some) body.length)) fd rest
              else some _) = some q' ∧ _
          by_cases hrest : rest = []
          · subst hrest
            rw [if_neg (by simp), parse_of_incomplete .nil]
            exact ⟨_, rfl, (pushed_nothing hempty' hholds').cons⟩
          · rw [if_pos (List.length_pos_iff.2 hrest)]
            have hshort : rest.length < n := by
              rw [← hn, List.length_cons, List.length_cons,
                List.length_append]
              omega
            obtain ⟨q', hq', hpushed⟩ :=
              ih rest.length hshort rest hrest hempty' hholds' rfl
            exact ⟨q', hq', hpushed.cons⟩

end Push

/-! ## Filtering -/

section Filter

variable {fd : Fd} {nps : List Pack}

/-- What the filter did with a stream: the packages that became complete are
returned, if there is one and nothing is left, or in the ring. -/
inductive Filtered (q : Option Queue) (fd : Fd) :
    Option Queue → List (List UInt8) × List UInt8 → Result → Prop
  | none (q' : Option Queue) (tail : List UInt8) :
      Pushed q [] q' fd [] tail → Filtered q fd q' ([], tail) .none
  | data (q' : Option Queue) (body : List UInt8) :
      Pushed q [] q' fd [] [] →
        Filtered q fd q' ([body], []) (.data (Pack.of fd body))
  | more (q' : Queue) (bodies : List (List UInt8)) (tail : List UInt8) :
      Pushed q [] (some q') fd bodies tail →
        Filtered q fd (some q') (bodies, tail) .more

theorem start_spec
    {q : Option Queue} (bytes : List UInt8) (hbytes : bytes ≠ [])
    (hempty : records q fd (hashFd fd) = []) (hholds : Holds q []) :
    ∃ q' result, start q fd bytes = some (q', result) ∧
      Filtered q fd q' (parse bytes) result := by
  match bytes with
  | [] => exact absurd rfl hbytes
  | [a] =>
      refine ⟨_, .none, rfl, ?_⟩
      rw [parse_of_incomplete (.header a)]
      exact .none _ _ (pushed_saveHeader hempty hholds a)
  | a :: b :: bytes =>
      by_cases hlt : bytes.length < number a b
      · obtain ⟨q', hq', hpushed⟩ := pushed_saveBody hempty hholds hlt
        refine ⟨some q', .none, ?_, ?_⟩
        · rw [start, readSize_eq, if_pos hlt, hq']
          rfl
        · rw [parse_of_incomplete (.body a b bytes hlt)]
          exact .none _ _ hpushed
      · obtain ⟨body, rest, rfl, hbody⟩ := exists_body (Nat.not_lt.1 hlt)
        rw [start, readSize_eq, if_neg hlt, parse_package hbody, ← hbody]
        by_cases hrest : rest = []
        · subst hrest
          rw [List.append_nil, if_pos rfl,
            memcpy_malloc (Nat.le_refl _) (Nat.le_refl _), List.take_length,
            partialBuffer_full, parse_of_incomplete .nil]
          exact ⟨q, _, rfl, .data _ body (pushed_nothing hempty hholds)⟩
        · have hne : (body ++ rest).length ≠ body.length := by
            have hpos := List.length_pos_iff.2 hrest
            rw [List.length_append]
            omega
          have hempty' : records (some (pushData q fd (body.map some)
              body.length)) fd (hashFd fd) = [] := by
            rw [records_pushData]
            exact hempty
          obtain ⟨q', hq', hpushed⟩ := pushMore_spec rest hrest hempty'
            (hholds.pushData fd (body.map some) body.length)
          refine ⟨some q', .more, ?_, .more _ _ _ hpushed.cons⟩
          rw [if_neg hne, pushClone_eq, List.drop_left]
          simp only [Option.bind_eq_bind, Option.bind_some, hq']
          rfl

theorem fill_spec
    {q : Queue} {uc : Uncomplete} {a b : UInt8} {part : List UInt8}
    (bytes : List UInt8)
    (hpack : uc.pack = ⟨fd, number a b, partialBuffer (number a b) part⟩)
    (hread : uc.read = part.length) (hpart : part.length ≤ number a b)
    (hempty : records (some q) fd (hashFd fd) = [])
    (hholds : Holds (some q) []) :
    ∃ q' result, fill q fd uc bytes = some (q', result) ∧
      Filtered (some q) fd (some q') (parse (a :: b :: (part ++ bytes)))
        result := by
  have hneed : (uc.pack.size : ℤ) - uc.read =
      ((number a b - part.length : ℕ) : ℤ) := by
    rw [hpack, hread]
    dsimp only
    omega
  rw [fill, hneed, hread]
  simp only [Int.toNat_natCast, hpack]
  by_cases hlt : (bytes.length : ℤ) < ((number a b - part.length : ℕ) : ℤ)
  · have hlt' : (part ++ bytes).length < number a b := by
      rw [List.length_append]
      omega
    rw [if_pos hlt, memcpy_partial (Nat.le_refl _) (by
      rw [← List.length_append]
      exact Nat.le_of_lt hlt'), List.take_length]
    refine ⟨_, .none, rfl, ?_⟩
    rw [parse_of_incomplete (.body a b _ hlt')]
    refine .none _ _ ⟨files_link rfl hempty (.body _ a b _ rfl ?_ hlt'), ?_⟩
    · rw [List.length_append]
      rfl
    · exact hholds
  · have hneeded : number a b - part.length ≤ bytes.length := by omega
    obtain ⟨body, rest, rfl, hbody⟩ := exists_body hneeded
    have hwhole : (part ++ body).length = number a b := by
      rw [List.length_append, hbody]
      omega
    rw [if_neg hlt, if_neg (by omega), memcpy_partial
      (by rw [List.length_append]; omega) (by omega), ← hbody, List.take_left,
      List.drop_left, ← hwhole, partialBuffer_full, ← List.append_assoc,
      parse_package hwhole]
    by_cases hrest : rest = []
    · subst hrest
      rw [parse_of_incomplete .nil]
      exact ⟨q, _, rfl, .data _ _ (pushed_nothing hempty hholds)⟩
    · have hempty' : records (some (pushData (some q) fd
          ((part ++ body).map some) (part ++ body).length)) fd
          (hashFd fd) = [] := by
        rw [records_pushData]
        exact hempty
      obtain ⟨q', hq', hpushed⟩ := pushMore_spec rest hrest hempty'
        (hholds.pushData fd ((part ++ body).map some) (part ++ body).length)
      refine ⟨q', .more, ?_, .more _ _ _ hpushed.cons⟩
      have hpos : rest.length ≠ 0 :=
        Nat.ne_of_gt (List.length_pos_iff.2 hrest)
      simp only [Option.bind_eq_bind, Option.bind_some]
      rw [if_neg hpos, hq']
      rfl

theorem Pushed.of_agree
    {q₀ q q' : Option Queue} {bodies : List (List UInt8)} {tail : List UInt8}
    (hagree : ∀ fd' h, fd' ≠ fd ∨ h ≠ hashFd fd →
      records q fd' h = records q₀ fd' h)
    (h : Pushed q [] q' fd bodies tail) : Pushed q₀ [] q' fd bodies tail :=
  ⟨⟨h.files.own, fun fd' c hne =>
    (h.files.other fd' c hne).trans (hagree fd' c hne)⟩, h.holds⟩

theorem Filtered.of_agree
    {q₀ q q' : Option Queue} {parsed : List (List UInt8) × List UInt8}
    {result : Result}
    (hagree : ∀ fd' h, fd' ≠ fd ∨ h ≠ hashFd fd →
      records q fd' h = records q₀ fd' h)
    (h : Filtered q fd q' parsed result) :
    Filtered q₀ fd q' parsed result := by
  cases h with
  | none q' tail h => exact .none q' tail (h.of_agree hagree)
  | data q' body h => exact .data q' body (h.of_agree hagree)
  | more q' bodies tail h => exact .more q' bodies tail (h.of_agree hagree)

/-- Every package that becomes complete is returned or in the ring, and the
records keep what is left. -/
theorem filterData_spec
    {q : Option Queue} {tail : List UInt8}
    (bytes : List UInt8) (hbytes : bytes ≠ [])
    (hkeeps : Keeps fd (records q fd (hashFd fd)) tail) (hholds : Holds q []) :
    ∃ q' result, filterData q fd bytes = some (q', result) ∧
      Filtered q fd q' (parse (tail ++ bytes)) result := by
  generalize hrecords : records q fd (hashFd fd) = ucs at hkeeps
  cases hkeeps with
  | nothing =>
      rw [filterData, findUncomplete_of_nil q fd hrecords]
      exact start_spec bytes hbytes hrecords hholds
  | header uc a hid hread hheader =>
      obtain ⟨q₁, hfind, hempty, hagree, hring⟩ :=
        findUncomplete_of_cons q fd hrecords
      match bytes with
      | [] => exact absurd rfl hbytes
      | b :: bytes =>
          have hsize : b.toNat ||| uc.header <<< 8 = number a b := by
            rw [hheader, Nat.or_comm]
            exact readSize_eq a b
          have hheader' : readHeader uc (b :: bytes) =
              some ({ uc with
                pack := ⟨fd, number a b, malloc (number a b)⟩
                read := 0 }, bytes) := by
            unfold readHeader
            rw [if_pos (by rw [hread]; decide), if_pos hread]
            simp only [hsize, hid]
          have hpack : ({ uc with
              pack := ⟨fd, number a b, malloc (number a b)⟩
              read := 0 } : Uncomplete).pack =
              ⟨fd, number a b, partialBuffer (number a b) []⟩ := rfl
          obtain ⟨q', result, hfill, hfiltered⟩ := fill_spec bytes hpack rfl
            (Nat.zero_le _) hempty (hring [] hholds)
          refine ⟨some q', result, ?_, hfiltered.of_agree hagree⟩
          rw [filterData, hfind]
          simp only [hheader', Option.bind_eq_bind, Option.bind_some, hfill]
          rfl
  | body uc a b part hpack hread hlt =>
      obtain ⟨q₁, hfind, hempty, hagree, hring⟩ :=
        findUncomplete_of_cons q fd hrecords
      have hheader : readHeader uc bytes = some (uc, bytes) := by
        unfold readHeader
        rw [if_neg (by omega)]
      obtain ⟨q', result, hfill, hfiltered⟩ := fill_spec bytes hpack hread
        (Nat.le_of_lt hlt) hempty (hring [] hholds)
      refine ⟨some q', result, ?_, hfiltered.of_agree hagree⟩
      rw [filterData, hfind]
      simp only [hheader, Option.bind_eq_bind, Option.bind_some, hfill]
      rfl

end Filter

/-! ## The gate -/

theorem dispatchQueue_spec
    {q : Queue} {nps : List Pack} (hholds : Holds (some q) nps)
    {n : ℕ} (hn : nps.length < n) :
    ∃ q', dispatchQueue n q = some (nps, q') ∧ Holds (some q') [] ∧
      ∀ fd h, records (some q') fd h = records (some q) fd h := by
  induction n generalizing q nps with
  | zero => exact absurd hn (Nat.not_lt_zero _)
  | succ n ih =>
      rw [dispatchQueue]
      cases nps with
      | nil =>
          have hpop : lpop q = some (none, q) := by
            rw [lpop, if_pos ((RingBuffer.Holds.head_eq_tail_iff hholds).2 rfl)]
          rw [hpop]
          exact ⟨q, rfl, hholds, fun _ _ => rfl⟩
      | cons np nps =>
          have hne : q.head ≠ q.tail := fun heq =>
            absurd ((RingBuffer.Holds.head_eq_tail_iff hholds).1 heq)
              (List.cons_ne_nil _ _)
          have hpop : lpop q = some (some np,
              { q with toRingBuffer := q.toRingBuffer.drop }) := by
            rw [lpop, if_neg hne, RingBuffer.Holds.first hholds]
            rfl
          have hdrop : Holds
              (some { q with toRingBuffer := q.toRingBuffer.drop }) nps :=
            RingBuffer.Holds.drop hholds
          obtain ⟨q', hq', hempty, hrecords⟩ :=
            ih hdrop (Nat.lt_of_succ_lt_succ hn)
          refine ⟨q', ?_, hempty, hrecords⟩
          simp only [hpop, Option.bind_eq_bind, Option.bind_some, hq']
          rfl

namespace State

/-- The bytes received on an fd. -/
def received (cs : List Chunk) (fd : Fd) : List UInt8 :=
  (cs.filter fun c => c.fd = fd).flatMap Chunk.bytes

/-- The packages dispatched for every fd are those of the stream it
received, and its record keeps the tail. -/
structure Reassembled (s : State) (stream : Fd → List UInt8) : Prop where
  ring : Holds s.queue []
  delivered : ∀ fd, (s.delivered.filter fun np => np.id = fd) =
    (parse (stream fd)).1.map (Pack.of fd)
  own : ∀ fd, Keeps fd (records s.queue fd (hashFd fd)) (parse (stream fd)).2
  other : ∀ fd h, h ≠ hashFd fd → records s.queue fd h = []

theorem reassembled_init : init.Reassembled fun _ => [] := by
  have hparse : parse [] = ([], []) := parse_of_incomplete .nil
  refine ⟨rfl, fun fd => ?_, fun fd => ?_, fun _ _ _ => rfl⟩
  · rw [hparse]
    rfl
  · rw [hparse]
    exact .nothing

variable {stream : Fd → List UInt8}

/-- The state after the packages of a chunk were dispatched. -/
theorem Reassembled.next
    {s : State} (h : s.Reassembled stream)
    {fd : Fd} {bytes : List UInt8} {q' : Option Queue}
    {bodies : List (List UInt8)} {tail : List UInt8}
    (hparse : parse ((parse (stream fd)).2 ++ bytes) = (bodies, tail))
    (hfiles : Files s.queue q' fd tail) (hring : Holds q' []) :
    (⟨q', s.delivered ++ bodies.map (Pack.of fd)⟩ : State).Reassembled
      (Function.update stream fd (stream fd ++ bytes)) := by
  have hwhole : parse (stream fd ++ bytes) =
      ((parse (stream fd)).1 ++ bodies, tail) := by
    rw [parse_append, hparse]
  refine ⟨hring, fun fd' => ?_, fun fd' => ?_, fun fd' c hne => ?_⟩
  · rw [List.filter_append, h.delivered fd']
    by_cases hfd : fd' = fd
    · subst hfd
      have hall : ((bodies.map (Pack.of fd')).filter fun np => np.id = fd') =
          bodies.map (Pack.of fd') := by
        rw [List.filter_eq_self]
        intro np hnp
        obtain ⟨body, -, rfl⟩ := List.mem_map.1 hnp
        exact decide_eq_true rfl
      rw [Function.update_self, hwhole, hall, List.map_append]
    · have hnone : ((bodies.map (Pack.of fd)).filter fun np => np.id = fd') =
          [] := by
        rw [List.filter_eq_nil_iff]
        intro np hnp
        obtain ⟨body, -, rfl⟩ := List.mem_map.1 hnp
        intro heq
        exact hfd (of_decide_eq_true heq).symm
      rw [Function.update_of_ne hfd, hnone, List.append_nil]
  · by_cases hfd : fd' = fd
    · subst hfd
      rw [Function.update_self, hwhole]
      exact hfiles.own
    · rw [Function.update_of_ne hfd]
      dsimp only
      rw [hfiles.other fd' _ (.inl hfd)]
      exact h.own fd'
  · dsimp only
    by_cases hfd : fd' = fd
    · subst hfd
      rw [hfiles.other fd' c (.inr hne)]
      exact h.other fd' c hne
    · rw [hfiles.other fd' c (.inl hfd)]
      exact h.other fd' c hne

/-- One chunk extends the stream of its fd. -/
theorem Reassembled.receive
    {s : State} (h : s.Reassembled stream)
    (c : Chunk) :
    ∃ s', s.receive c = some s' ∧
      s'.Reassembled
        (Function.update stream c.fd (stream c.fd ++ c.bytes)) := by
  obtain ⟨q', result, hfilter, hfiltered⟩ :=
    filterData_spec c.bytes c.nonempty (h.own c.fd) h.ring
  generalize hparse : parse ((parse (stream c.fd)).2 ++ c.bytes) = parsed
    at hfiltered
  rw [State.receive, hfilter]
  cases hfiltered with
  | none q' tail hpushed =>
      refine ⟨_, rfl, ?_⟩
      have hnext := h.next hparse hpushed.files hpushed.holds
      rwa [List.map_nil, List.append_nil] at hnext
  | data q' body hpushed =>
      exact ⟨_, rfl, h.next hparse hpushed.files hpushed.holds⟩
  | more q' bodies tail hpushed =>
      have hholds := hpushed.holds
      rw [List.nil_append] at hholds
      obtain ⟨q'', hdispatch, hempty, hrecords⟩ :=
        dispatchQueue_spec hholds (RingBuffer.Holds.length_lt hholds)
      have hfiles : Files s.queue (some q'') c.fd tail := by
        refine ⟨?_, fun fd' i hne => ?_⟩
        · rw [hrecords]
          exact hpushed.files.own
        · rw [hrecords]
          exact hpushed.files.other fd' i hne
      refine ⟨_, ?_, h.next hparse hfiles hempty⟩
      simp only [Option.bind_eq_bind, Option.bind_some, hdispatch]
      rfl

/-- The chunks of a list extend the streams of their fds. -/
theorem Reassembled.receiveAll
    {s : State} (h : s.Reassembled stream)
    (cs : List Chunk) :
    ∃ s', cs.foldlM State.receive s = some s' ∧
      s'.Reassembled fun fd => stream fd ++ received cs fd := by
  induction cs generalizing s stream with
  | nil =>
      refine ⟨s, rfl, ?_⟩
      simpa only [received, List.filter_nil, List.flatMap_nil,
        List.append_nil] using h
  | cons c cs ih =>
      obtain ⟨s₁, hs₁, h₁⟩ := h.receive c
      obtain ⟨s', hs', h'⟩ := ih h₁
      refine ⟨s', ?_, ?_⟩
      · rw [List.foldlM_cons, hs₁]
        exact hs'
      · have hstream : (fun fd => Function.update stream c.fd
            (stream c.fd ++ c.bytes) fd ++ received cs fd) =
            fun fd => stream fd ++ received (c :: cs) fd := by
          funext fd
          by_cases hfd : fd = c.fd
          · subst hfd
            rw [Function.update_self, received, received,
              List.filter_cons_of_pos (by simp), List.flatMap_cons,
              List.append_assoc]
          · rw [Function.update_of_ne hfd, received, received,
              List.filter_cons_of_neg (by simpa using Ne.symm hfd)]
        rwa [hstream] at h'

/-- Whatever chunks arrive in whatever order, the gate dispatches for every
fd the complete packages of the stream it received, in order, and keeps the
tail of the stream in at most one record of the fd, in its own chain. -/
theorem packages_reassembled (cs : List Chunk) :
    ∃ s, cs.foldlM State.receive init = some s ∧
      s.Reassembled (received cs) := by
  obtain ⟨s, hs, h⟩ := reassembled_init.receiveAll cs
  refine ⟨s, hs, ?_⟩
  simpa only [List.nil_append] using h

end State

/-! ## Packages written by `lpack` -/

theorem parse_lpack
    {msg bytes : List UInt8} (h : lpack msg = some bytes) (rest : List UInt8) :
    parse (bytes ++ rest) = (msg :: (parse rest).1, (parse rest).2) := by
  rw [lpack] at h
  split at h
  · cases h
  · rename_i hshort
    have hsize : msg.length =
        number (UInt8.ofNat ((msg.length >>> 8) &&& 0xff))
          (UInt8.ofNat (msg.length &&& 0xff)) := by
      have hhigh : (msg.length >>> 8) &&& 0xff = msg.length / 256 := by
        rw [Nat.shiftRight_eq_div_pow]
        exact (Nat.and_two_pow_sub_one_eq_mod _ 8).trans
          (Nat.mod_eq_of_lt (by omega))
      have hlow : msg.length &&& 0xff = msg.length % 256 :=
        Nat.and_two_pow_sub_one_eq_mod _ 8
      rw [hhigh, hlow, number, UInt8.toNat_ofNat', UInt8.toNat_ofNat']
      omega
    cases h
    exact parse_package hsize

/-- A stream of messages written by `lpack` is read back. -/
theorem parse_lpack_flatten
    {msgs packed : List (List UInt8)} (h : msgs.mapM lpack = some packed) :
    parse packed.flatten = (msgs, []) := by
  induction msgs generalizing packed with
  | nil =>
      cases h
      exact parse_of_incomplete .nil
  | cons msg msgs ih =>
      rw [List.mapM_cons] at h
      obtain ⟨bytes, hbytes, hrest⟩ := Option.bind_eq_some_iff.1 h
      obtain ⟨more, hmore, hcons⟩ := Option.bind_eq_some_iff.1 hrest
      cases hcons
      rw [List.flatten_cons, parse_lpack hbytes, ih hmore]

/-- Messages written by `lpack` are dispatched whole, however their stream is
cut. -/
theorem State.packed_messages_delivered
    {cs : List Chunk} {fd : Fd} {msgs packed : List (List UInt8)}
    (hpacked : msgs.mapM lpack = some packed)
    (hreceived : received cs fd = packed.flatten) :
    ∃ s, cs.foldlM State.receive init = some s ∧
      (s.delivered.filter fun np => np.id = fd) = msgs.map (Pack.of fd) ∧
      records s.queue fd (hashFd fd) = [] := by
  obtain ⟨s, hs, h⟩ := reassembled_init.receiveAll cs
  have hparse : parse ([] ++ received cs fd) = (msgs, []) := by
    rw [List.nil_append, hreceived]
    exact parse_lpack_flatten hpacked
  refine ⟨s, hs, ?_, ?_⟩
  · rw [h.delivered, hparse]
  · have hown := h.own fd
    rw [hparse] at hown
    generalize records s.queue fd (hashFd fd) = ucs at hown
    cases hown
    rfl

/-- Two messages in three chunks, the second of which ends one package and
begins the next. -/
theorem State.packed_messages_delivered_three :
    ∃ s, ([⟨5, [0], by decide⟩, ⟨5, [1, 65, 0], by decide⟩,
        ⟨5, [2, 66, 67], by decide⟩] : List Chunk).foldlM State.receive init =
          some s ∧
      (s.delivered.filter fun np => np.id = 5) =
        [⟨5, 1, [some 65]⟩, ⟨5, 2, [some 66, some 67]⟩] ∧
      records s.queue 5 (hashFd 5) = [] := by
  have hpacked : ([[65], [66, 67]] : List (List UInt8)).mapM lpack =
      some [[0, 1, 65], [0, 2, 66, 67]] := by decide
  exact State.packed_messages_delivered hpacked (by decide)

end SkynetServer.Netpack
