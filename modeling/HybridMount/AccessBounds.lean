import HybridMount.RuleDeletion

/-! The memory which an addition touches: the bytes of its page, the paths that it
stores, and the lengths of the ancestors that it cuts from them. -/

namespace HybridMount.Vfs

open LittleEndian

/-- A range of bytes of the page or of a stored path with its terminator, or the length
of an ancestor of a path. -/
inductive Access where
  | page (start stop : Nat)
  | stored (length : Nat) (start stop : Int)
  | ancestor (pathLen : Nat) (len : Int)

def Access.Inside (dataSize : Nat) : Access → Prop
  | page _ stop => stop ≤ dataSize
  | stored length start stop => 0 ≤ start ∧ stop ≤ length + 1
  | ancestor pathLen len => 1 ≤ len ∧ len ≤ pathLen

/-- The loop over trailing slashes looks at the last byte of what is left. -/
def stripAccesses (base : Nat) (path : Bytes) : List Access :=
  if _h : 1 < path.length then
    .page (base + (path.length - 1)) (base + path.length) ::
      if path.getLast? = some SLASH then stripAccesses base path.dropLast else []
  else []
  termination_by path.length
  decreasing_by
    rw [List.length_dropLast]
    omega

/-- A path is read from the page and stored with its terminator. -/
def copyAccesses (base : Nat) (path : Bytes) : List Access :=
  [.page base (base + path.length), .stored path.length 0 path.length,
    .stored path.length path.length (path.length + 1)]

/-- The loop of `hm_capture_native_descendants` over the components from `start` on, as
far as it can come. -/
def captureAccesses (path : Bytes) (start : Nat) : List Access :=
  if _h : start < path.length then
    let stop := start + ((path.drop start).takeWhile fun b => b ≠ SLASH).length
    .stored path.length start (min (stop + 1) path.length : Nat) :: .stored path.length start stop ::
      captureAccesses path (stop + 1)
  else []
  termination_by path.length - start

/-- One round of the loop over the ancestors: the search for the slash, the lengths of
parent and child, the lookups of the parent, the byte at the slash which is put aside and
back, and a generated parent. Without a slash this byte is the one before the path. -/
def cutAccesses (path : Bytes) (cut : Cut) : List Access :=
  match cut.slash with
  | none => [.stored path.length 0 cut.pLen, .ancestor cut.pLen (-1), .stored path.length (-1) 0]
  | some i =>
    [.stored path.length i cut.pLen, .ancestor cut.pLen (parentLen i), .stored path.length (i + 1) cut.pLen,
      .stored path.length 0 (parentLen i + 1), .stored path.length i (i + 1),
      .stored (parentLen i) 0 (parentLen i + 1)] ++
        captureAccesses path (if parentLen i = 1 then 1 else parentLen i + 1)

namespace Kernel

/-- The rounds of the loop over the ancestors. -/
def reached (env : Nat → Answers) (vPath : Bytes) (uid : UInt32) : List Cut → Rule → Kernel → List Cut
  | [], _, _ => []
  | cut :: rest, current, k =>
    cut ::
      match cut.slash.bind fun i => nearest vPath uid (parentLen i) k with
      | some _ => []
      | none =>
        match (env k.clock).kernPath, cut.slash with
        | none, some i =>
          if (env (k.clock + 1)).alloc = false ∨ (env (k.clock + 2)).alloc = false then []
          else
            let made := generate (vPath.take (parentLen i)) uid current cut.childLen k.tick.tick.tick
            reached env vPath uid rest made.1 made.2
        | _, _ => []

/-- The rule of a request and the table with which the loop over its ancestors starts. -/
def loopStart (env : Nat → Answers) (request : Request) (k : Kernel) : Option (Rule × Kernel) :=
  match allocRule env request k with
  | (.ok rule, k) => some (rule, shadowExisting rule k)
  | (.error _, _) => none

def rounds (env : Nat → Answers) (rule : Rule) (k : Kernel) : List Cut :=
  reached env rule.vPath rule.targetUid (cuts rule.vPath rule.vPath.length) rule k

/-- What adding one rule touches, where its paths start at `base`. -/
def addAccesses (env : Nat → Answers) (base : Nat) (request : Request) (k : Kernel) : List Access :=
  stripAccesses base request.vPath ++
    (if request.bare then [] else stripAccesses (base + request.vPath.length) request.rPath) ++
    (if (env k.clock).alloc then
      copyAccesses base (request.rule 0 false).vPath ++
        copyAccesses (base + request.vPath.length) (request.rule 0 false).rPath
    else []) ++
    match loopStart env request k with
    | some (rule, k) => (rounds env rule k).flatMap (cutAccesses rule.vPath)
    | none => []

/-- The records which a page executes, each with its request and the table that it meets. -/
def addMoments (env : Nat → Answers) (payload : Protocol.Payload) (k : Kernel) :
    List (Nat × Request × Kernel) :=
  (moments (addRecord env payload.buffer)
    ((addRules (addRecord env payload.buffer) payload (some k)).2.executed.map Prod.fst) (some k)).filterMap
      fun x => x.2.map fun k => (x.1.offset + RULE_HEADER_LEN, requestAt payload.buffer x.1, k)

def pageAccesses (env : Nat → Answers) (payload : Protocol.Payload) (k : Kernel) : List Access :=
  (addRules (addRecord env payload.buffer) payload (some k)).2.reads.map
    (fun range => Access.page range.1 range.2) ++
    (addMoments env payload k).flatMap fun x => addAccesses env x.1 x.2.1 x.2.2

end Kernel

section

variable {dataSize base start n : Nat} {path : Bytes} {cut : Cut}

theorem stripAccesses_inside (h : base + path.length ≤ dataSize) :
    ∀ a ∈ stripAccesses base path, a.Inside dataSize := by
  induction path using stripAccesses.induct with
  | case1 path hlong ih =>
    rw [stripAccesses, dif_pos hlong]
    intro a ha
    rcases List.mem_cons.mp ha with rfl | ha
    · exact h
    · split at ha
      · exact ih (by rw [List.length_dropLast]; omega) a ha
      · cases ha
  | case2 path hshort =>
    rw [stripAccesses, dif_neg hshort]
    simp

theorem copyAccesses_inside (h : base + path.length ≤ dataSize) :
    ∀ a ∈ copyAccesses base path, a.Inside dataSize := by
  simp only [copyAccesses, List.mem_cons, List.not_mem_nil, or_false]
  rintro a (rfl | rfl | rfl)
  · exact h
  · simp only [Access.Inside]
    omega
  · simp only [Access.Inside]
    omega

theorem captureAccesses_inside : ∀ a ∈ captureAccesses path start, a.Inside dataSize := by
  induction start using captureAccesses.induct path with
  | case1 start hlt stop ih =>
    rw [captureAccesses, dif_pos hlt]
    have hstop : stop ≤ path.length := by
      have hle := (List.takeWhile_sublist (p := fun b : UInt8 => b ≠ SLASH) (l := path.drop start)).length_le
      rw [List.length_drop] at hle
      show start + _ ≤ _
      omega
    intro a ha
    rcases List.mem_cons.mp ha with rfl | ha
    · simp only [Access.Inside]
      omega
    · rcases List.mem_cons.mp ha with rfl | ha
      · simp only [Access.Inside]
        omega
      · exact ih a ha
  | case2 start hge =>
    rw [captureAccesses, dif_neg hge]
    simp

theorem parentLen_bounds {i : Nat} (hi : i < n) (hn : 1 < n) : 1 ≤ parentLen i ∧ parentLen i ≤ n := by
  unfold parentLen
  split <;> omega

/-- The steps from a prefix of a path have decreasing lengths, and their slashes lie inside. -/
theorem cuts_spec (hn : n ≤ path.length) : ∀ cut ∈ cuts path n, 1 < cut.pLen ∧ cut.pLen ≤ n ∧
    ∀ i, cut.slash = some i → i < cut.pLen := by
  induction n using cuts.induct path with
  | case1 n hshort =>
    rw [cuts, if_pos hshort]
    simp
  | case2 n hlong hnone =>
    rw [cuts, if_neg hlong]
    split
    · simp only [List.mem_singleton]
      rintro cut rfl
      refine ⟨?_, le_rfl, by simp⟩
      show 1 < n
      omega
    · rename_i i hsome
      rw [hnone] at hsome
      cases hsome
  | case3 n hlong i hsome ih =>
    have hlt := lastSlash_lt hsome
    rw [List.length_take] at hlt
    rw [cuts, if_neg hlong]
    split
    · rename_i hnone
      rw [hnone] at hsome
      cases hsome
    · rename_i j hj
      have hij : i = j := Option.some.inj (hsome.symm.trans hj)
      subst hij
      intro cut hcut
      rcases List.mem_cons.mp hcut with rfl | hcut
      · refine ⟨?_, le_rfl, ?_⟩
        · show 1 < n
          omega
        · intro j hj
          have hij := Option.some.inj hj
          show j < n
          omega
      · obtain ⟨hlow, hhigh, hslash⟩ := ih (by omega) cut hcut
        exact ⟨hlow, by omega, hslash⟩

theorem length_cuts_le : (cuts path n).length ≤ n := by
  induction n using cuts.induct path with
  | case1 n hshort =>
    rw [cuts, if_pos hshort]
    exact Nat.zero_le _
  | case2 n hlong hnone =>
    rw [cuts, if_neg hlong]
    split
    · rw [List.length_singleton]
      omega
    · rename_i i hsome
      rw [hnone] at hsome
      cases hsome
  | case3 n hlong i hsome ih =>
    have hlt := lastSlash_lt hsome
    rw [List.length_take] at hlt
    rw [cuts, if_neg hlong]
    split
    · rw [List.length_singleton]
      omega
    · rename_i j hj
      have hij : i = j := Option.some.inj (hsome.symm.trans hj)
      subst hij
      rw [List.length_cons]
      omega

theorem cutAccesses_inside (hcut : cut ∈ cuts path path.length) :
    (∀ a ∈ cutAccesses path cut, a.Inside dataSize) ↔ cut.slash ≠ none := by
  obtain ⟨hlow, hhigh, hslash⟩ := cuts_spec le_rfl cut hcut
  unfold cutAccesses
  cases hs : cut.slash with
  | none =>
    simp only [ne_eq, not_true_eq_false, iff_false]
    intro hall
    have hbefore := hall (.stored path.length (-1) 0) (by simp)
    simp only [Access.Inside] at hbefore
    omega
  | some i =>
    have hi := hslash i hs
    obtain ⟨hone, hle⟩ := parentLen_bounds hi hlow
    simp only [ne_eq, reduceCtorEq, not_false_eq_true, iff_true]
    intro a ha
    rcases List.mem_append.mp ha with ha | ha
    · simp only [List.mem_cons, List.not_mem_nil, or_false] at ha
      rcases ha with rfl | rfl | rfl | rfl | rfl | rfl <;> simp only [Access.Inside] <;> omega
    · exact captureAccesses_inside a ha

end

section

variable {σ : Type} {format : RecordFormat} {exec : Record → σ → Int32 × σ} {buffer : Bytes} {bufEnd : Nat}
  {walk : Walk σ}

/-- Whatever the page holds, headers and data are read in front of its end. -/
theorem walkRecords_reads (h : ∀ range ∈ walk.reads, range.2 ≤ bufEnd) :
    ∀ range ∈ (walkRecords format exec buffer bufEnd walk).reads, range.2 ≤ bufEnd := by
  have hheader : ∀ walk : Walk σ, (∀ range ∈ walk.reads, range.2 ≤ bufEnd) →
      format.headerLen ≤ bufEnd - walk.cursor →
      ∀ range ∈ walk.reads ++ [(walk.cursor, walk.cursor + format.headerLen)], range.2 ≤ bufEnd := by
    intro walk h hmore range hrange
    have hpos := format.positive
    rcases List.mem_append.mp hrange with hrange | hrange
    · exact h range hrange
    · rw [List.mem_singleton.mp hrange]
      simp only
      omega
  fun_induction walkRecords format exec buffer bufEnd walk with
  | case1 walk hmore record read hbad failed =>
    have hreads : failed.reads = walk.reads ++ [(walk.cursor, walk.cursor + format.headerLen)] :=
      note_reads ..
    rw [hreads]
    exact hheader walk h hmore
  | case2 walk hmore record read hgood ih =>
    apply ih
    have hreads : (read.execute exec format.headerLen record).reads =
        read.reads ++ [(walk.cursor + format.headerLen, walk.cursor + format.headerLen + record.size)] := by
      simp [Walk.execute, read]
    have hpos := format.positive
    have hlt : ¬ bufEnd - (walk.cursor + format.headerLen) < record.size := fun hh => hgood (Or.inl hh)
    rw [hreads]
    intro range hrange
    rcases List.mem_append.mp hrange with hrange | hrange
    · exact hheader walk h hmore range hrange
    · rw [List.mem_singleton.mp hrange]
      simp only
      omega
  | case3 walk hdone => exact h

theorem walkRecords_records (hoffset : ∀ at', (format.header buffer at').offset = at')
    (h : ∀ x ∈ walk.executed, x.1.offset + format.headerLen + x.1.size ≤ bufEnd) :
    ∀ x ∈ (walkRecords format exec buffer bufEnd walk).executed,
      x.1.offset + format.headerLen + x.1.size ≤ bufEnd := by
  fun_induction walkRecords format exec buffer bufEnd walk with
  | case1 walk hmore record read hbad failed =>
    have hexecuted : failed.executed = walk.executed := note_executed ..
    rw [hexecuted]
    exact h
  | case2 walk hmore record read hgood ih =>
    apply ih
    have hexecuted : (read.execute exec format.headerLen record).executed =
        walk.executed ++ [(record, (exec record walk.state).1)] := by
      simp [Walk.execute, read]
    have hrecord : record.offset = walk.cursor := hoffset walk.cursor
    have hpos := format.positive
    have hlt : ¬ bufEnd - (walk.cursor + format.headerLen) < record.size := fun hh => hgood (Or.inl hh)
    rw [hexecuted]
    intro x hx
    rcases List.mem_append.mp hx with hx | hx
    · exact h x hx
    · rw [List.mem_singleton.mp hx]
      simp only
      omega
  | case3 walk hdone => exact h

@[simp] theorem close_reads : (walk.close bufEnd).reads = walk.reads := by
  unfold Walk.close
  split <;> simp

theorem runBatch_inside (hoffset : ∀ buffer at', (format.header buffer at').offset = at')
    (exec : Record → σ → Int32 × σ) (silent : σ → Int32) (payload : Protocol.Payload) (state : σ) :
    (∀ range ∈ (runBatch format exec silent payload state).2.reads, range.2 ≤ payload.dataSize) ∧
    ∀ x ∈ (runBatch format exec silent payload state).2.executed,
      x.1.offset + format.headerLen + x.1.size ≤ payload.dataSize ∧
        payload.dataSize ≤ payload.buffer.length := by
  unfold runBatch
  simp only
  split
  · simp
  · rename_i hgood
    rw [apply_ite Prod.snd, ite_self, close_executed, close_reads]
    refine ⟨walkRecords_reads (by simp), ?_⟩
    intro x hx
    exact ⟨walkRecords_records (hoffset payload.buffer) (by simp) x hx, by omega⟩

end

namespace Kernel

section

variable {env : Nat → Answers} {vPath : Bytes} {uid : UInt32} {cs : List Cut} {cut : Cut}
  {current rule : Rule}
  {k : Kernel} {payload : Protocol.Payload} {request : Request}

/-- The loop ends at the ancestor of its round `j`: a rule or the kernel provides it, or
there is no memory to generate it. -/
def StopsAt (env : Nat → Answers) (vPath : Bytes) (uid : UInt32) (k : Kernel) (j : Nat) (cut : Cut) : Prop :=
  match cut.slash with
  | none => True
  | some i =>
    nearest vPath uid (parentLen i) k ≠ none ∨ (env (k.clock + 3 * j)).kernPath ≠ none ∨
      (env (k.clock + 3 * j + 1)).alloc = false ∨ (env (k.clock + 3 * j + 2)).alloc = false

theorem clock_injectChild (alloc : Bool) (dir : Nat) (rule : Rule) (childLen : Nat) (k : Kernel) :
    (injectChild alloc dir rule childLen k).2.clock = k.clock := by
  rcases injectChild_cases alloc dir rule childLen k with ⟨children, capacity, h, -⟩ | ⟨-, -, h⟩ <;>
    rw [h] <;> rfl

theorem stopsAt_generate (path : Bytes) (child : Rule) (childLen : Nat) (j : Nat) :
    StopsAt env vPath uid (generate path uid child childLen k.tick.tick.tick).2 j cut ↔
      StopsAt env vPath uid k (j + 1) cut := by
  obtain ⟨-, hsame, -⟩ := generate_spec path uid child childLen k.tick.tick.tick
  have hclock : (generate path uid child childLen k.tick.tick.tick).2.clock = k.clock + 3 :=
    clock_injectChild ..
  have hnearest : ∀ len, nearest vPath uid len (generate path uid child childLen k.tick.tick.tick).2 =
      nearest vPath uid len k := by
    intro len
    have hroot : (generate path uid child childLen k.tick.tick.tick).2.root = k.root := hsame.root
    simp only [nearest, hroot]
  have hstep : k.clock + 3 + 3 * j = k.clock + 3 * (j + 1) := by omega
  unfold StopsAt
  rw [hclock, hstep]
  cases cut.slash with
  | none => exact Iff.rfl
  | some i =>
    simp only [hnearest]

/-- A round is reached when the loop does not end before it. -/
theorem mem_reached_iff : cut ∈ reached env vPath uid cs current k ↔
    ∃ j, cs[j]? = some cut ∧ ∀ i < j, ∀ earlier, cs[i]? = some earlier →
    ¬ StopsAt env vPath uid k i earlier := by
  induction cs generalizing current k with
  | nil => simp [reached]
  | cons first rest ih =>
    have hzero : k.clock + 3 * 0 = k.clock := rfl
    -- The rounds after the first are reached only when the first one generates its ancestor.
    have hrest : cut ∈ (reached env vPath uid (first :: rest) current k).tail ↔
        ¬ StopsAt env vPath uid k 0 first ∧ ∃ j, rest[j]? = some cut ∧
          ∀ i < j, ∀ earlier, rest[i]? = some earlier → ¬ StopsAt env vPath uid k (i + 1) earlier := by
      simp only [reached, List.tail_cons]
      cases hs : first.slash with
      | none => simp [StopsAt, hs]
      | some s =>
        have hstop : StopsAt env vPath uid k 0 first ↔ nearest vPath uid (parentLen s) k ≠ none ∨
            (env k.clock).kernPath ≠ none ∨ (env (k.clock + 1)).alloc = false ∨
              (env (k.clock + 2)).alloc = false := by
          simp only [StopsAt, hs, hzero]
        rw [hstop]
        simp only [Option.bind_some]
        cases hn : nearest vPath uid (parentLen s) k with
        | some ex => simp
        | none =>
          cases hk : (env k.clock).kernPath with
          | some found => simp
          | none =>
            by_cases hmem : (env (k.clock + 1)).alloc = false ∨ (env (k.clock + 2)).alloc = false
            · simp [hmem]
            · simp only [hmem, if_false, ih, stopsAt_generate, ne_eq, not_true_eq_false, or_self,
                not_false_eq_true,
                true_and]
    have hhead : reached env vPath uid (first :: rest) current k =
        first :: (reached env vPath uid (first :: rest) current k).tail := rfl
    rw [hhead, List.mem_cons, hrest]
    constructor
    · rintro (rfl | ⟨hfirst, j, hj, hbefore⟩)
      · exact ⟨0, rfl, fun i hi => absurd hi (Nat.not_lt_zero i)⟩
      · refine ⟨j + 1, hj, ?_⟩
        intro i hi earlier hearlier
        cases i with
        | zero =>
          rw [← Option.some.inj hearlier]
          exact hfirst
        | succ i => exact hbefore i (by omega) earlier hearlier
    · rintro ⟨j, hj, hbefore⟩
      cases j with
      | zero => exact Or.inl (Option.some.inj hj).symm
      | succ j =>
        right
        refine ⟨hbefore 0 (Nat.succ_pos j) first rfl, j, hj, ?_⟩
        intro i hi earlier hearlier
        exact hbefore (i + 1) (by omega) earlier hearlier

/-- Before the loop over the ancestors comes to a path without a slash, it ends at an ancestor. -/
def Anchored (env : Nat → Answers) (rule : Rule) (k : Kernel) : Prop :=
  ∀ (j : Nat) (cut : Cut), (cuts rule.vPath rule.vPath.length)[j]? = some cut → cut.slash = none →
    ∃ i < j, ∃ earlier, (cuts rule.vPath rule.vPath.length)[i]? = some earlier ∧
      StopsAt env rule.vPath rule.targetUid k i earlier

theorem rounds_slash_iff : (∀ cut ∈ rounds env rule k, cut.slash ≠ none) ↔ Anchored env rule k := by
  unfold rounds Anchored
  constructor
  · intro hall j cut hj hnone
    by_contra hno
    apply hall cut _ hnone
    rw [mem_reached_iff]
    exact ⟨j, hj, fun i hi earlier hearlier hstop => hno ⟨i, hi, earlier, hearlier, hstop⟩⟩
  · intro hanchored cut hcut hnone
    obtain ⟨j, hj, hbefore⟩ := mem_reached_iff.mp hcut
    obtain ⟨i, hi, earlier, hearlier, hstop⟩ := hanchored j cut hj hnone
    exact hbefore i hi earlier hearlier hstop

theorem length_reached_le (cs : List Cut) (current : Rule) (k : Kernel) :
    (reached env vPath uid cs current k).length ≤ cs.length := by
  induction cs generalizing current k with
  | nil => exact le_rfl
  | cons cut rest ih =>
    simp only [reached, List.length_cons]
    split
    · simp
    · split
      · split
        · simp
        · exact Nat.succ_le_succ (ih _ _)
      · simp

/-- An addition whose paths lie in the data touches nothing outside exactly when its loop
meets no path without a slash. -/
theorem addAccesses_inside {dataSize base : Nat}
    (hfits : base + request.vPath.length + request.rPath.length ≤ dataSize) :
    (∀ a ∈ addAccesses env base request k, a.Inside dataSize) ↔
      ∀ rule m, loopStart env request k = some (rule, m) → Anchored env rule m := by
  have hrounds : ∀ rule m, (∀ a ∈ (rounds env rule m).flatMap (cutAccesses rule.vPath), a.Inside dataSize) ↔
      Anchored env rule m := by
    intro rule m
    rw [← rounds_slash_iff]
    have hcuts : ∀ cut ∈ rounds env rule m, cut ∈ cuts rule.vPath rule.vPath.length := by
      intro cut hcut
      obtain ⟨j, hj, -⟩ := mem_reached_iff.mp hcut
      exact List.mem_of_getElem? hj
    simp only [List.mem_flatMap, forall_exists_index, and_imp]
    constructor
    · intro hall cut hcut
      exact (cutAccesses_inside (hcuts cut hcut)).mp fun a ha => hall a cut hcut ha
    · intro hall a cut hcut ha
      exact (cutAccesses_inside (hcuts cut hcut)).mpr (hall cut hcut) a ha
  have hv := length_stripSlashes_le request.vPath
  have hr : (request.rule 0 false).rPath.length ≤ request.rPath.length := by
    have hle := length_stripSlashes_le request.rPath
    unfold Request.rule
    cases request.bare with
    | true => simp
    | false => simpa using hle
  have hbefore : ∀ a ∈ stripAccesses base request.vPath ++
      (if request.bare then [] else stripAccesses (base + request.vPath.length) request.rPath) ++
      (if (env k.clock).alloc then
        copyAccesses base (request.rule 0 false).vPath ++
          copyAccesses (base + request.vPath.length) (request.rule 0 false).rPath
      else []), a.Inside dataSize := by
    intro a ha
    rcases List.mem_append.mp ha with ha | ha
    · rcases List.mem_append.mp ha with ha | ha
      · exact stripAccesses_inside (by omega) a ha
      · split at ha
        · cases ha
        · exact stripAccesses_inside (by omega) a ha
    · split at ha
      · rcases List.mem_append.mp ha with ha | ha
        · exact copyAccesses_inside (show base + (stripSlashes request.vPath).length ≤ dataSize by omega) a ha
        · exact copyAccesses_inside (by omega) a ha
      · cases ha
  unfold addAccesses
  rw [List.forall_mem_append, and_iff_right hbefore]
  cases hs : loopStart env request k with
  | none => simp
  | some start =>
    obtain ⟨rule, m⟩ := start
    simp only [Option.some.injEq, Prod.mk.injEq, and_imp]
    rw [hrounds rule m]
    constructor
    · rintro hanchored rule' m' rfl rfl
      exact hanchored
    · exact fun hall => hall rule m rfl rfl

/-- No access of a page leaves the announced data or a stored path, every ancestor has a
length, and the loops over the ancestors end. -/
structure StaysInside (env : Nat → Answers) (payload : Protocol.Payload) (k : Kernel) : Prop where
  inside : ∀ a ∈ pageAccesses env payload k, a.Inside payload.dataSize
  ends : ∀ x ∈ addMoments env payload k, ∀ rule m, loopStart env x.2.1 x.2.2 = some (rule, m) →
    (rounds env rule m).length ≤ rule.vPath.length

theorem fits_of_addMoments {x : Nat × Request × Kernel} (h : x ∈ addMoments env payload k) :
    x.1 + x.2.1.vPath.length + x.2.1.rPath.length ≤ payload.dataSize := by
  obtain ⟨y, hy, hx⟩ := List.mem_filterMap.mp h
  obtain ⟨m, hm, rfl⟩ := Option.map_eq_some_iff.mp hx
  have hrecord : y.1 ∈ (addRules (addRecord env payload.buffer) payload (some k)).2.executed.map
      Prod.fst := by
    have hfirst : ∀ (records : List Record) (s : Option Kernel),
        ∀ z ∈ moments (addRecord env payload.buffer) records s, z.1 ∈ records := by
      intro records
      induction records with
      | nil => simp [moments]
      | cons record rest ih =>
        intro s z hz
        rcases List.mem_cons.mp hz with rfl | hz
        · exact List.mem_cons_self
        · exact List.mem_cons_of_mem _ (ih _ z hz)
    exact hfirst _ _ y hy
  obtain ⟨z, hz, hzy⟩ := List.mem_map.mp hrecord
  have hoffset : ∀ buffer at', (ruleFormat.header buffer at').offset = at' := fun _ _ => rfl
  obtain ⟨hinside, hbuffer⟩ :=
    (runBatch_inside hoffset (addRecord env payload.buffer) (fun _ => 0) payload (some k)).2 z hz
  have hheader : ruleFormat.headerLen = RULE_HEADER_LEN := rfl
  rw [hzy, hheader, Record.size] at hinside
  simp only [requestAt, vPathAt, List.length_take, List.length_drop]
  omega

/-- A page stays inside exactly when every addition meets an ancestor, a real parent or
its end before it comes to a path of several bytes without a slash. -/
theorem stays_inside_iff (env : Nat → Answers) (payload : Protocol.Payload) (k : Kernel) :
    StaysInside env payload k ↔ ∀ x ∈ addMoments env payload k, ∀ rule m,
      loopStart env x.2.1 x.2.2 = some (rule, m) → Anchored env rule m := by
  have hoffset : ∀ buffer at', (ruleFormat.header buffer at').offset = at' := fun _ _ => rfl
  have hreads := (runBatch_inside hoffset (addRecord env payload.buffer) (fun _ => 0) payload (some k)).1
  constructor
  · intro h x hx
    apply (addAccesses_inside (fits_of_addMoments hx)).mp
    intro a ha
    apply h.inside
    exact List.mem_append_right _ (List.mem_flatMap.mpr ⟨x, hx, ha⟩)
  · intro hall
    refine ⟨?_, ?_⟩
    · intro a ha
      rcases List.mem_append.mp ha with ha | ha
      · obtain ⟨range, hrange, rfl⟩ := List.mem_map.mp ha
        exact hreads range hrange
      · obtain ⟨x, hx, ha⟩ := List.mem_flatMap.mp ha
        exact (addAccesses_inside (fits_of_addMoments hx)).mpr (hall x hx) a ha
    · intro x _ rule m _
      exact (length_reached_le _ _ _).trans length_cuts_le

/-- The relative path `ab` has no slash, and the byte before it is read. -/
theorem stays_inside_refuted : ¬ ∀ env payload k, Reachable AnyPath k → payload.buffer.length = BUFFER_LEN →
    StaysInside env payload k := by
  intro hall
  have hfits : RULE_HEADER_LEN + (Request.mk [97, 98] [] 4 0).vPath.length +
      (Request.mk [97, 98] [] 4 0).rPath.length ≤
      BUFFER_LEN := by decide
  have hinside := hall (fun _ => generous) (pageFor ⟨[97, 98], [], 4, 0⟩) boot .boot (length_pageFor hfits)
  obtain ⟨record, -, hrequest, hexecuted, -⟩ :=
    @pageFor_served (fun _ => generous) ⟨[97, 98], [], 4, 0⟩ hfits (by decide : 4 < 2 ^ 32) (some boot)
  have hmoment : (record.offset + RULE_HEADER_LEN, (⟨[97, 98], [], 4, 0⟩ : Request), boot) ∈
      addMoments (fun _ => generous) (pageFor ⟨[97, 98], [], 4, 0⟩) boot := by
    unfold addMoments
    rw [hexecuted]
    simp [moments, hrequest]
  have hstart : loopStart (fun _ => generous) ⟨[97, 98], [], 4, 0⟩ boot =
      some (⟨0, [97, 98], [], 4, 0⟩,
        shadowExisting ⟨0, [97, 98], [], 4, 0⟩ { boot.tick.tick with nextId := 1 }) := by
    have hpath : stripSlashes ([97, 98] : Bytes) = [97, 98] := by
      rw [stripSlashes, dif_neg (by decide)]
    rw [loopStart, allocRule_whiteout, hpath]
    rfl
  have hanchored := (addAccesses_inside (fits_of_addMoments hmoment)).mp
    (fun a ha => hinside.inside a (List.mem_append_right _ (List.mem_flatMap.mpr ⟨_, hmoment, ha⟩))) _ _ hstart
  have hnone : lastSlash (([97, 98] : Bytes).take 2) = none := by decide
  have hcuts : cuts ([97, 98] : Bytes) ([97, 98] : Bytes).length = [⟨2, none⟩] := by
    rw [cuts, if_neg (by decide)]
    split
    · rfl
    · rename_i i hsome
      have hsame : none = some i := hnone.symm.trans hsome
      cases hsame
  obtain ⟨i, hi, -⟩ := hanchored 0 ⟨2, none⟩ (by rw [hcuts]; rfl) rfl
  exact absurd hi (Nat.not_lt_zero i)

end

end Kernel

end HybridMount.Vfs
