import HybridMount.ChildLinks

/-! The links between the rules while a new rule is attached, and after it is rolled back. -/

namespace HybridMount.Vfs.Kernel

open LittleEndian

/-- The loop over the ancestors comes to a native directory, or to one of the parent path in which
no entry has the name and uid, and makes no rule which is there before. The answers are read
from time `t` on. -/
def Sheltered (env : Nat → Answers) (vPath : Bytes) (uid : UInt32) (k : Kernel) :
    List Cut → Bytes → Nat → Prop
  | [], _, _ => True
  | cut :: rest, path, t =>
    match cut.slash.bind fun i => nearest vPath uid (parentLen i) k with
    | some ex =>
      (env t).capture = 0 → ∀ dir, k.thisDir ex.id = some dir →
        ¬ Taken k dir uid (path.drop (path.length - cut.childLen))
    | none =>
      match (env t).kernPath with
      | some (.virtual (some dir)) =>
        (env (t + 1)).capture = 0 →
          (∃ p ∈ k.rules, k.thisDir p.id = some dir ∧ parentPath path = some p.vPath) ∧
          ¬ Taken k dir uid (path.drop (path.length - cut.childLen))
      | some _ => True
      | none =>
        (env (t + 1)).alloc = true → (env (t + 2)).alloc = true → ∀ i, cut.slash = some i →
          (∀ r ∈ k.rules, ¬ (r.vPath = vPath.take (parentLen i) ∧ r.targetUid = uid)) ∧
            Sheltered env vPath uid k rest (vPath.take (parentLen i)) (t + 3)

/-- The table without the rule in whose place the new one comes. -/
def cleared (rule : Rule) (k : Kernel) : Kernel :=
  match Art.searchExact rule.vPath 0 rule.targetUid k.root with
  | some existing => detachRule existing false k
  | none => k

section

variable {S S' L L' old : Set Rule} {k k' m : Kernel} {rule r p x target current : Rule}
  {dir childLen base : Nat} {alloc : Bool}
  {env : Nat → Answers} {generated generated' entered chain : List Rule} {uid : UInt32} {path vPath : Bytes}
    {err : Int32}

/-- What was loose is attached, or still loose. -/
theorem Linked.settle (h : Linked S L k) (hsettled : ∀ x ∈ S, x ∈ L → x ∈ L' ∨ Attached S L' k x) :
    Linked S L' k := by
  refine ⟨h.toHoused, h.born, h.ids, h.gone, h.unborn, h.untagged, h.owns, h.current, h.distinct,
    fun x hx => ?_⟩
  by_cases hl : x ∈ L
  · rcases hsettled x hx hl with hl' | hatt
    · exact .loose hl'
    · exact hatt
  · exact (h.attached x hx).carry (fun hin => absurd hin hl) rfl (fun _ hh => hh) fun _ hp _ hb =>
      .under hp hb

/-- A child set which is empty takes a rule in without memory. -/
theorem injectChild_empty (h : (k.dirs dir).children = []) (alloc : Bool) (rule : Rule) (childLen : Nat) :
    injectChild alloc dir rule childLen k =
      (0, (k.place rule childLen (some dir)).setDir dir { k.dirs dir with children := [rule] }) := by
  simp [injectChild, h]

/-- A directory is generated above a rule, as a new rule with a directory node which takes the other in. -/
theorem generate_eq (hfresh : (k.dirs k.nextDir).children = []) (path : Bytes) (uid : UInt32) (current : Rule)
    (childLen : Nat) : (generate path uid current childLen k).2 =
      (injectChild true k.nextDir current childLen
        (giveDir ⟨k.nextId, path, [], IS_DIR ||| VIRTUAL_DIR, uid⟩ { k with nextId := k.nextId + 1 })).2 := by
  have hgiven : ((giveDir ⟨k.nextId, path, [], IS_DIR ||| VIRTUAL_DIR, uid⟩
      { k with nextId := k.nextId + 1 }).dirs k.nextDir).children = [] := by
    rw [giveDir, setOwner_children]
    exact hfresh
  have hstart : (({ k with nextId := k.nextId + 1, nextDir := k.nextDir + 1 } : Kernel).dirs
      k.nextDir).children = [] :=
    hfresh
  rw [injectChild_empty hgiven]
  simp only [generate, injectChild_empty hstart]
  simp only [giveDir, setOwner, setDir, place, Function.update_self, Function.update_idem]

theorem Linked.generate (h : Linked S {current} k) (hin : current ∈ S)
    (hout : ∀ d, current ∉ (k.dirs d).children)
    (hpath : parentPath current.vPath = some path) (uid : UInt32) (childLen : Nat) :
    Linked (insert (generate path uid current childLen k).1 S) {(generate path uid current childLen k).1}
      (generate path uid current childLen k).2 := by
  have hfresh := (h.fresh k.nextDir le_rfl).1
  have hmade : (Kernel.generate path uid current childLen k).1 =
    ⟨k.nextId, path, [], IS_DIR ||| VIRTUAL_DIR, uid⟩ := rfl
  rw [generate_eq hfresh, hmade]
  generalize hnew : (⟨k.nextId, path, [], IS_DIR ||| VIRTUAL_DIR, uid⟩ : Rule) = made
  have hid : made.id = k.nextId := by rw [← hnew]
  have hvPath : made.vPath = path := by rw [← hnew]
  have hnone : k.thisDir made.id = none := (h.unborn made.id hid.ge).1
  have hgiven := (h.enter hid).giveDir (Set.mem_insert made S) hnone
  have hchildren : ∀ d, ((Kernel.giveDir made { k with nextId := k.nextId + 1 }).dirs d).children =
      (k.dirs d).children :=
    fun d => setOwner_children ..
  have hne : current ≠ made := by
    intro heq
    have hlt := h.born current (Or.inl hin)
    rw [heq] at hlt
    omega
  refine hgiven.inject (Or.inr ⟨made, Set.mem_insert made S, Function.update_self .., ?_⟩)
    (Set.mem_insert_of_mem made hin)
    (Set.mem_insert_of_mem made rfl) ?_ ?_ ?_ ?_
  · rw [hpath, hvPath]
  · intro d
    rw [hchildren d]
    exact hout d
  · intro x hx hxc
    rcases Set.mem_insert_iff.mp hx with hx | hx
    · exact hx
    · exact absurd hx hxc
  · intro c hc
    rw [hchildren, hfresh] at hc
    cases hc
  · rw [injectChild_empty ((hchildren k.nextDir).trans hfresh)]

/-- A rule on its way into the table, with those that are made for it. -/
structure Coming (old : Set Rule) (chain : List Rule) (current : Rule) (k : Kernel) : Prop where
  linked : Linked (old ∪ {x | x ∈ chain}) {current} k
  fresh : ∀ p ∈ old, p ∉ chain
  member : current ∈ chain
  outside : ∀ d, current ∉ (k.dirs d).children

/-- After an attempt to attach the rule: without success the new rules need no parent. -/
structure Came (old : Set Rule) (chain : List Rule) (err : Int32) (k k' : Kernel) : Prop where
  linked : Linked (old ∪ {x | x ∈ chain}) {x | err ≠ 0 ∧ x ∈ chain} k'
  closed : Closed k chain → Closed k' chain

theorem Coming.mem (h : Coming old chain current k) : current ∈ old ∪ {x | x ∈ chain} := Or.inr h.member

theorem Coming.of_dirs (h : Coming old chain current k) (hs : SameDirs k k') (hv : k'.victims = k.victims) :
    Coming old chain current k' := by
  refine ⟨h.linked.of_dirs hs hv, h.fresh, h.member, ?_⟩
  rw [hs.dirs]
  exact h.outside

theorem Coming.tick (h : Coming old chain current k) : Coming old chain current k.tick :=
    h.of_dirs (dirs_tick k) rfl

theorem Coming.newDir (h : Coming old chain current k) :
    Coming old chain current { k with nextDir := k.nextDir + 1 } :=
  ⟨h.linked.newDir, h.fresh, h.member, h.outside⟩

theorem Coming.hook (h : Coming old chain current k) {number : Nat} (hnone : k.hooks number = none)
    (hlt : dir < k.nextDir)
    (htag : (k.dirs dir).tag = none) :
    Coming old chain current { k with hooks := Function.update k.hooks number (some dir) } :=
  ⟨h.linked.hook hnone hlt htag, h.fresh, h.member, h.outside⟩

theorem Coming.failed (h : Coming old chain current k) (herr : err ≠ 0) : Came old chain err k k := by
  refine ⟨h.linked.loosen ?_, id⟩
  intro x _ hx
  rw [Set.mem_singleton_iff.mp hx]
  exact ⟨herr, h.member⟩

/-- Two states with the same directory nodes and owners. -/
theorem Came.from {k₀ : Kernel} (h : Came old chain err k k') (hdirs : k.dirs = k₀.dirs)
    (hthis : k.thisDir = k₀.thisDir) :
    Came old chain err k₀ k' := by
  refine ⟨h.linked, fun hclosed => h.closed ?_⟩
  unfold Closed
  rw [hdirs, hthis]
  exact hclosed

theorem injectChild_frame (alloc : Bool) (dir : Nat) (rule : Rule) (childLen : Nat) (k : Kernel) :
    (injectChild alloc dir rule childLen k).2.thisDir = k.thisDir ∧
      ∀ d, d ≠ dir → (injectChild alloc dir rule childLen k).2.dirs d = k.dirs d := by
  rcases injectChild_cases alloc dir rule childLen k with ⟨children, capacity, heq, -⟩ | ⟨-, -, heq⟩
  · rw [heq]
    exact ⟨rfl, fun d hd => Function.update_of_ne hd _ _⟩
  · rw [heq]
    exact ⟨rfl, fun _ _ => rfl⟩

/-- A directory in which a rule can hang belongs to none of the new ones. -/
theorem Coming.foreign (h : Coming old chain current k) (hroof : Roof old k dir r) (hx : x ∈ chain) :
    k.thisDir x.id ≠ some dir := by
  intro ht
  have htag := h.linked.owns x (Or.inl (Or.inr hx)) dir ht
  rcases hroof with hh | ⟨p, hp, hthis, -⟩
  · rw [h.linked.untagged dir hh] at htag
    cases htag
  · rw [h.linked.owns p (Or.inl (Or.inl hp)) dir hthis, Option.some.injEq, Option.some.injEq] at htag
    exact h.fresh p hp (htag ▸ hx)

theorem Coming.join (h : Coming old chain current k) (hroof : Roof old k dir current)
    (hfree : ∀ c ∈ (k.dirs dir).children, c.targetUid = current.targetUid →
      k.nameOf c = current.childName childLen → Hooked k dir) :
    Came old chain (injectChild alloc dir current childLen k).1 k
      (injectChild alloc dir current childLen k).2 := by
  have hwide : Roof (old ∪ {x | x ∈ chain}) k dir current := by
    refine hroof.imp_right ?_
    rintro ⟨p, hp, hsame⟩
    exact ⟨p, Or.inl hp, hsame⟩
  obtain ⟨hthis, hdirs⟩ := injectChild_frame alloc dir current childLen k
  refine ⟨?_, ?_⟩
  · by_cases hzero : (injectChild alloc dir current childLen k).1 = 0
    · refine h.linked.inject hwide h.mem rfl h.outside ?_ (fun c hc hu hn => Or.inr (hfree c hc hu hn)) hzero
      exact fun x hx hne => absurd hx hne
    · refine (h.linked.inject_failed (h.linked.roof_lt hwide) h.mem rfl h.outside hzero).loosen ?_
      intro x _ hx
      rw [Set.mem_singleton_iff.mp hx]
      exact ⟨hzero, h.member⟩
  · intro hclosed x hx d ht c hc
    rw [hthis] at ht
    rw [hdirs d fun heq => h.foreign hroof hx (heq ▸ ht)] at hc
    exact hclosed x hx d ht c hc

/-- The parent exists outside the table. -/
theorem Coming.attachReal {found : Inode} (h : Coming old chain current k)
    (hplace : ∀ dir, found = .virtual (some dir) → (env k.clock).capture = 0 → Roof old k dir current ∧
      ¬ ∃ c ∈ (k.dirs dir).children, c.targetUid = current.targetUid ∧
        k.nameOf c = current.childName childLen) :
    Came old chain (attachReal env found current childLen k).1 k
      (attachReal env found current childLen k).2 := by
  unfold Kernel.attachReal
  cases found with
  | virtual dirNode =>
    cases dirNode with
    | none => exact h.failed (by decide : ENOTDIR ≠ 0)
    | some dir =>
      by_cases hcapture : (env k.clock).capture = 0
      · simp only [hcapture, ne_eq, not_true_eq_false, if_false]
        obtain ⟨hroof, hfree⟩ := hplace dir rfl hcapture
        exact (h.tick.tick.join hroof fun c hc hu hn => absurd ⟨c, hc, hu, hn⟩ hfree).from rfl rfl
      · simp only [hcapture, ne_eq, not_false_eq_true, if_true]
        exact (h.tick.failed hcapture).from rfl rfl
  | native number =>
    cases hhook : k.hooks number with
    | some dir =>
      simp only [hhook]
      by_cases hhijack : (env k.clock).hijack = 0
      · simp only [hhijack, ne_eq, not_true_eq_false, if_false]
        have hh : Hooked k dir := ⟨number, hhook⟩
        exact (h.tick.tick.join (Or.inl hh) fun _ _ _ _ => hh).from rfl rfl
      · simp only [hhijack, ne_eq, not_false_eq_true, if_true]
        exact (h.tick.failed hhijack).from rfl rfl
    | none =>
      simp only [hhook]
      split
      · exact (h.tick.failed (by decide : ENOMEM ≠ 0)).from rfl rfl
      · split
        · rename_i hhijack
          exact (h.tick.newDir.tick.failed hhijack).from rfl rfl
        · have hfresh := h.linked.fresh k.nextDir le_rfl
          have hhooked := h.tick.newDir.tick.tick.hook hhook (Nat.lt_succ_self k.nextDir) hfresh.2
          have hempty : (({ k.tick with nextDir := k.nextDir + 1 } : Kernel).tick.tick.dirs
            k.nextDir).children = [] := hfresh.1
          rw [injectChild_empty hempty, if_neg (by simp)]
          have hh : Hooked { ({ k.tick with nextDir := k.nextDir + 1 } : Kernel).tick.tick with
              hooks := Function.update k.hooks number (some k.nextDir) } k.nextDir :=
                ⟨number, Function.update_self ..⟩
          have hjoined := @Coming.join old _ current k.nextDir childLen true chain hhooked (Or.inl hh)
            fun _ _ _ _ => hh
          rw [injectChild_empty] at hjoined
          · exact hjoined.from rfl rfl
          · exact hfresh.1

theorem parentLen_lt {path : Bytes} {i : Nat} (hslash : lastSlash path = some i) (hlong : 1 < path.length) :
    parentLen i < path.length := by
  have hlt := lastSlash_lt hslash
  unfold parentLen
  split
  · exact hlong
  · exact hlt

/-- The parent of a prefix of a path is a prefix of it as well. -/
theorem parentPath_within {i : Nat} (hpre : path <+: vPath) (hslash : lastSlash path = some i)
    (hlong : 1 < path.length) :
    parentPath path = some (vPath.take (parentLen i)) ∧ (vPath.take (parentLen i)).length = parentLen i := by
  have hlt := parentLen_lt hslash hlong
  have hle := hpre.length_le
  have hpath : path = vPath.take path.length := List.prefix_iff_eq_take.mp hpre
  refine ⟨?_, ?_⟩
  · rw [parentPath, if_neg (not_le.mpr hlong), hslash, Option.map_some, hpath, List.take_take,
      min_eq_left hlt.le]
  · rw [List.length_take, min_eq_left (hlt.le.trans hle)]

/-- The steps from a prefix of the path on: none from the root, else one to its parent and
those from there on. -/
theorem cuts_within {cs : List Cut} (hpre : path <+: vPath) (hcs : cs = cuts vPath path.length) :
    (cs = [] → path.length ≤ 1) ∧ ∀ cut rest, cs = cut :: rest → 1 < path.length ∧
    cut = ⟨path.length, lastSlash path⟩ ∧
      ∀ i, lastSlash path = some i → rest = cuts vPath (parentLen i) := by
  have hpath : vPath.take path.length = path := (List.prefix_iff_eq_take.mp hpre).symm
  have hzero : ∀ n ≤ 1, cuts vPath n = [] := by
    intro n hn
    rw [cuts, if_pos hn]
  by_cases hshort : path.length ≤ 1
  · rw [hcs, hzero _ hshort]
    exact ⟨fun _ => hshort, fun cut rest h => absurd h.symm (List.cons_ne_nil _ _)⟩
  · rw [cuts, if_neg hshort] at hcs
    split at hcs
    · rename_i hnone
      rw [hpath] at hnone
      rw [hcs]
      refine ⟨fun h => absurd h (List.cons_ne_nil _ _), ?_⟩
      intro cut rest h
      cases h
      exact ⟨not_le.mp hshort, by rw [hnone], fun i hi => by rw [hnone] at hi; cases hi⟩
    · rename_i i hsome
      rw [hpath] at hsome
      rw [hcs]
      refine ⟨fun h => absurd h (List.cons_ne_nil _ _), ?_⟩
      intro cut rest h
      cases h
      refine ⟨not_le.mp hshort, by rw [hsome], fun j hj => ?_⟩
      rw [hsome, Option.some.injEq] at hj
      subst hj
      unfold parentLen
      split
      · rename_i hi
        rw [hi, hzero 0 (Nat.zero_le 1), hzero 1 le_rfl]
      · rfl

/-- The new directory node holds the one rule, and the other nodes are as before. -/
theorem generate_frame (hfresh : (k.dirs k.nextDir).children = []) (path : Bytes) (uid : UInt32)
    (current : Rule)
    (childLen : Nat) :
    (generate path uid current childLen k).2.thisDir = Function.update k.thisDir k.nextId (some k.nextDir) ∧
      (generate path uid current childLen k).2.parentDir = Function.update k.parentDir current.id
        (some k.nextDir) ∧
      (generate path uid current childLen k).2.clock = k.clock ∧
      ((generate path uid current childLen k).2.dirs k.nextDir).children = [current] ∧
      ∀ d, d ≠ k.nextDir → (generate path uid current childLen k).2.dirs d = k.dirs d := by
  have hstart : (({ k with nextId := k.nextId + 1, nextDir := k.nextDir + 1 } : Kernel).dirs
      k.nextDir).children = [] :=
    hfresh
  simp only [generate, injectChild_empty hstart]
  refine ⟨rfl, rfl, rfl, ?_, fun d hd => ?_⟩
  · simp only [setOwner, setDir, Function.update_self]
  · simp only [setOwner, setDir, place, Function.update_of_ne hd]

/-- The parents made for a rule: above it, none of them in the table before and no two of one path. -/
structure MadeFor (m : Kernel) (target : Rule) (generated : List Rule) : Prop where
  uid : ∀ r ∈ generated, r.targetUid = target.targetUid
  free : ∀ r ∈ generated, ∀ x ∈ m.rules, ¬ (x.vPath = r.vPath ∧ x.targetUid = target.targetUid)
  order : (generated ++ [target]).Pairwise fun a b => a.vPath.length < b.vPath.length

/-- The loop over the ancestors of a rule has come up to one of them. -/
structure Climb (base : Nat) (m : Kernel) (target : Rule) (entered generated : List Rule) (current : Rule)
    (k : Kernel) :
    Prop where
  growing : Growing base m entered k
  pending : Pending base k current
  coming : Coming {p | p ∈ m.rules} (target :: generated) current k
  unplaced : k.parentDir current.id = none
  uid : current.targetUid = target.targetUid
  path : current.vPath <+: target.vPath
  made : MadeFor m target generated
  top : ∀ r ∈ generated ++ [target], current.vPath.length ≤ r.vPath.length

theorem Climb.tick (h : Climb base m target entered generated current k) :
    Climb base m target entered generated current k.tick :=
  ⟨h.growing.tick, h.pending.tick, h.coming.tick, h.unplaced, h.uid, h.path, h.made, h.top⟩

/-- One step of the loop: a parent is made, of a path and uid which is not in the table. -/
theorem Climb.next (h : Climb base m target entered generated current k) {i : Nat}
    (hslash : lastSlash current.vPath = some i)
    (hlong : 1 < current.vPath.length)
    (hfree : ∀ x ∈ m.rules, ¬ (x.vPath = target.vPath.take (parentLen i) ∧ x.targetUid = target.targetUid))
    (childLen : Nat) :
    Climb base m target (current :: entered)
        ((generate (target.vPath.take (parentLen i)) target.targetUid current childLen k).1 :: generated)
        (generate (target.vPath.take (parentLen i)) target.targetUid current childLen k).1
        (generate (target.vPath.take (parentLen i)) target.targetUid current childLen k).2 ∧
      (Closed k (target :: generated) →
        Closed (generate (target.vPath.take (parentLen i)) target.targetUid current childLen k).2
          (target :: (generate (target.vPath.take (parentLen i)) target.targetUid current childLen k).1 ::
            generated)) := by
  obtain ⟨hpath, hlen⟩ := parentPath_within h.path hslash hlong
  have hlt := parentLen_lt hslash hlong
  have hlinked := h.coming.linked
  have hfresh := (hlinked.fresh k.nextDir le_rfl).1
  obtain ⟨hthis, hparent, -, hown, hother⟩ :=
    generate_frame hfresh (target.vPath.take (parentLen i)) target.targetUid current childLen
  obtain ⟨hgrown, hpending⟩ :=
    @generate_grows k current base m entered target.targetUid (target.vPath.take (parentLen i))
    h.growing h.pending childLen
  have hmade := hlinked.generate h.coming.mem h.coming.outside hpath target.targetUid childLen
  have hrule : (generate (target.vPath.take (parentLen i)) target.targetUid current childLen k).1 =
      ⟨k.nextId, target.vPath.take (parentLen i), [], IS_DIR ||| VIRTUAL_DIR, target.targetUid⟩ := rfl
  generalize generate (target.vPath.take (parentLen i)) target.targetUid current childLen k = made at *
  have hid : made.1.id = k.nextId := by rw [hrule]
  have hvPath : made.1.vPath = target.vPath.take (parentLen i) := by rw [hrule]
  have huid : made.1.targetUid = target.targetUid := by rw [hrule]
  have hborn : ∀ x ∈ ({p | p ∈ m.rules} ∪ {x | x ∈ target :: generated} : Set Rule), x.id < k.nextId :=
    fun x hx => hlinked.born x (Or.inl hx)
  have hshort : ∀ r ∈ generated ++ [target], made.1.vPath.length < r.vPath.length := by
    intro r hr
    rw [hvPath, hlen]
    exact lt_of_lt_of_le hlt (h.top r hr)
  refine ⟨⟨hgrown, hpending, ⟨?_, ?_, ?_, ?_⟩, ?_, huid, ?_, ⟨?_, ?_, ?_⟩, ?_⟩, ?_⟩
  · refine hmade.congr ?_
    intro x
    simp only [Set.mem_union, Set.mem_ofPred_eq, Set.mem_insert_iff, List.mem_cons]
    tauto
  · intro p hp hmem
    rcases List.mem_cons.mp hmem with hp' | hmem
    · exact h.coming.fresh p hp (hp' ▸ List.mem_cons_self)
    · rcases List.mem_cons.mp hmem with hp' | hmem
      · have hlow := hborn p (Or.inl hp)
        rw [hp', hid] at hlow
        exact lt_irrefl _ hlow
      · exact h.coming.fresh p hp (List.mem_cons_of_mem _ hmem)
  · simp
  · exact fun d hc => hpending.outside d made.1 hc rfl
  · have hne : k.nextId ≠ current.id := (Nat.ne_of_lt h.pending.born).symm
    rw [hparent, hid, Function.update_of_ne hne]
    exact (hlinked.unborn k.nextId le_rfl).2
  · rw [hvPath]
    exact List.take_prefix _ _
  · intro r hr
    rcases List.mem_cons.mp hr with rfl | hr
    · exact huid
    · exact h.made.uid r hr
  · intro r hr
    rcases List.mem_cons.mp hr with rfl | hr
    · rw [hvPath]
      exact hfree
    · exact h.made.free r hr
  · exact List.pairwise_cons.mpr ⟨hshort, h.made.order⟩
  · intro r hr
    rcases List.mem_cons.mp hr with rfl | hr
    · exact le_rfl
    · exact (hshort r hr).le
  · intro hclosed x hx d ht c hc
    have hcases : x = made.1 ∨ x ∈ target :: generated := by
      simp only [List.mem_cons] at hx ⊢
      tauto
    have hkeep : c ∈ target :: generated → c ∈ target :: made.1 :: generated := by
      simp only [List.mem_cons]
      tauto
    apply hkeep
    rcases hcases with rfl | hin
    · rw [hthis, hid, Function.update_self, Option.some.injEq] at ht
      rw [← ht, hown, List.mem_singleton] at hc
      rw [hc]
      exact h.coming.member
    · rw [hthis, Function.update_of_ne (Nat.ne_of_lt (hborn x (Or.inr hin)))] at ht
      rw [hother d (Nat.ne_of_lt (hlinked.given x.id d ht))] at hc
      exact hclosed x hin d ht c hc

/-- After the loop: everything hangs below a parent or, when the loop has failed, at least all
but the new rules. -/
structure Climbed (m : Kernel) (target : Rule) (start generated : List Rule) (err : Int32)
    (k k' : Kernel) : Prop where
  linked : Linked ({p | p ∈ m.rules} ∪ {x | x ∈ target :: generated})
    {x | err ≠ 0 ∧ x ∈ target :: generated} k'
  closed : Closed k (target :: start) → Closed k' (target :: generated)
  made : MadeFor m target generated

theorem Climb.stop (h : Climb base m target entered generated current k)
    (hcame : Came {p | p ∈ m.rules} (target :: generated) err k k') :
    Climbed m target generated generated err k k' :=
  ⟨hcame.linked, hcame.closed, h.made⟩

theorem nearest_path {len : Nat} {ex : Rule} (hsound : Art.Sound k.root)
    (hex : nearest vPath uid len k = some ex) :
    ex.vPath = vPath.take len := by
  unfold nearest at hex
  split at hex
  · rename_i ex' hfound
    rw [← Option.some.inj hex]
    exact (Art.searchExact_sound hsound hfound).2.1
  · split at hex
    · exact (Art.searchExact_sound hsound hex).2.1
    · cases hex

theorem attach_climbed {cs : List Cut} (hm : Ground base m) (hsync : Synced m)
    (h : Climb base m target entered generated current k) (hcs : cs = cuts target.vPath current.vPath.length)
    (hshelter : Sheltered env target.vPath target.targetUid m cs current.vPath k.clock)
    (ha : attach env target.vPath target.targetUid cs current generated k = some (err, generated', k')) :
    Climbed m target generated generated' err k k' := by
  induction cs generalizing current generated entered k with
  | nil =>
    simp only [attach, Option.some.injEq, Prod.mk.injEq] at ha
    obtain ⟨rfl, rfl, rfl⟩ := ha
    have hshort := (cuts_within h.path hcs).1 rfl
    refine ⟨h.coming.linked.settle ?_, id, h.made⟩
    intro x _ hx
    rw [Set.mem_singleton_iff.mp hx]
    exact Or.inr (.top h.unplaced hshort)
  | cons cut rest ih =>
    obtain ⟨hlong, hcut, hrest⟩ := (cuts_within h.path hcs).2 cut rest rfl
    have hslash : cut.slash = lastSlash current.vPath := by rw [hcut]
    have hnearest : ∀ len, nearest target.vPath target.targetUid len k =
        nearest target.vPath target.targetUid len m := by
      intro len
      simp only [nearest, h.growing.root]
    have htaken : ∀ dir < m.nextDir, ¬ Taken m dir target.targetUid (current.childName cut.childLen) →
        ¬ ∃ c ∈ (k.dirs dir).children, c.targetUid = current.targetUid ∧
          k.nameOf c = current.childName cut.childLen := by
      intro dir hlt hnot hex
      obtain ⟨c, hc, hu, hn⟩ := hex
      rw [h.growing.old dir hlt] at hc
      rw [growing_nameOf h.growing (hm.children dir c hc)] at hn
      exact hnot ⟨c, hc, hu.trans h.uid, hn⟩
    unfold attach at ha
    unfold Sheltered at hshelter
    simp only [hnearest] at ha
    cases hex : (cut.slash.bind fun i => nearest target.vPath target.targetUid (parentLen i) m) with
    | some ex =>
      simp only [hex] at ha hshelter
      obtain ⟨i, hi, hfound⟩ := Option.bind_eq_some_iff.mp hex
      have hholds := nearest_sound hm.sound hfound
      have hthis := h.growing.thisDir ex.id (hm.stored ex hholds)
      rw [hthis] at ha
      split at ha
      · simp only [Option.some.injEq, Prod.mk.injEq] at ha
        obtain ⟨rfl, rfl, rfl⟩ := ha
        exact h.stop (h.coming.failed (by decide : ENOTDIR ≠ 0))
      · cases hd : m.thisDir ex.id with
        | none =>
          simp only [hd, Option.some.injEq, Prod.mk.injEq] at ha
          obtain ⟨rfl, rfl, rfl⟩ := ha
          exact h.stop (h.coming.failed (by decide : ENOMEM ≠ 0))
        | some dir =>
          simp only [hd] at ha
          split at ha
          · rename_i hcapture
            simp only [Option.some.injEq, Prod.mk.injEq] at ha
            obtain ⟨rfl, rfl, rfl⟩ := ha
            exact h.stop ((h.coming.tick.failed hcapture).from rfl rfl)
          · rename_i hcapture
            simp only [Option.some.injEq, Prod.mk.injEq] at ha
            obtain ⟨rfl, rfl, rfl⟩ := ha
            have hroof : Roof {p | p ∈ m.rules} k dir current := by
              refine Or.inr ⟨ex, (hsync.holds ex).mp hholds, hthis.trans hd, ?_⟩
              rw [(parentPath_within h.path (hslash.symm.trans hi) hlong).1, nearest_path hm.sound hfound]
            have hfree := htaken dir (hm.housed.given ex.id dir hd) (hshelter (not_not.mp hcapture) dir hd)
            exact h.stop ((h.coming.tick.tick.join hroof fun c hc hu hn => absurd ⟨c, hc, hu, hn⟩ hfree).from
              rfl rfl)
    | none =>
      simp only [hex] at ha hshelter
      cases hpathAt : (env k.clock).kernPath with
      | some found =>
        simp only [hpathAt, Option.some.injEq, Prod.mk.injEq] at ha hshelter
        obtain ⟨rfl, rfl, rfl⟩ := ha
        refine h.stop ((h.coming.tick.attachReal ?_).from rfl rfl)
        intro dir hdir hcapture
        subst hdir
        obtain ⟨⟨p, hp, hthis, hparent⟩, hnot⟩ := hshelter hcapture
        have hlow := hm.stored p ((hsync.holds p).mpr hp)
        have hroof : Roof {p | p ∈ m.rules} k dir current :=
          Or.inr ⟨p, hp, (h.growing.thisDir p.id hlow).trans hthis, hparent⟩
        exact ⟨hroof, htaken dir (hm.housed.given p.id dir hthis) hnot⟩
      | none =>
        simp only [hpathAt] at ha hshelter
        cases hi : cut.slash with
        | none => simp [hi] at ha
        | some i =>
          simp only [hi] at ha
          split at ha
          · simp only [Option.some.injEq, Prod.mk.injEq] at ha
            obtain ⟨rfl, rfl, rfl⟩ := ha
            exact h.stop ((h.coming.tick.tick.failed (by decide : ENOMEM ≠ 0)).from rfl rfl)
          · rename_i halloc
            split at ha
            · simp only [Option.some.injEq, Prod.mk.injEq] at ha
              obtain ⟨rfl, rfl, rfl⟩ := ha
              exact h.stop ((h.coming.tick.tick.tick.failed (by decide : ENOMEM ≠ 0)).from rfl rfl)
            · rename_i halloc'
              simp only [Bool.not_eq_false] at halloc halloc'
              obtain ⟨hfree, hnext⟩ := hshelter halloc halloc' i hi
              have hat := hslash.symm.trans hi
              obtain ⟨hclimb, hclosed⟩ := h.tick.tick.tick.next hat hlong hfree cut.childLen
              have hclock := (@generate_frame k.tick.tick.tick (h.coming.linked.fresh k.nextDir le_rfl).1
                (target.vPath.take (parentLen i)) target.targetUid current cut.childLen).2.2.1
              have hlength := (parentPath_within h.path hat hlong).2
              have hdone := ih hclimb ?_ ?_ ha
              · exact ⟨hdone.linked, fun hc => hdone.closed (hclosed hc), hdone.made⟩
              · exact (hrest i hat).trans (congrArg (cuts target.vPath) hlength.symm)
              · rw [hclock]
                exact hnext

theorem victims_retract (rule : Rule) (k : Kernel) : (retract rule k).victims = k.victims ++ [rule] := by
  unfold retract
  split
  · unfold detachRule
    simp only [Bool.false_eq_true, if_false]
    split
    · rfl
    · rw [victims_deleteChild]
      rfl
  · split
    · show (deleteChild rule k).2.victims ++ [rule] = _
      rw [victims_deleteChild]
    · rfl

theorem dropped_retract (h : Housed k) (rule : Rule) : Dropped [rule] k (retract rule k) :=
  dropped_deleteChild h (retract_same rule k) (victims_retract rule k)

theorem dropped_rollback (h : Housed k) (target : Rule) (generated : List Rule) :
    Dropped (target :: generated.reverse) k (rollbackGeneratedTopology target generated k) := by
  have hfold : ∀ (rules : List Rule) (m : Kernel), Housed m →
      Dropped rules m (rules.foldl (fun k rule => retract rule k) m) := by
    intro rules
    induction rules with
    | nil => exact fun m hm => Dropped.nil hm
    | cons rule rest ih =>
      intro m hm
      have hfirst := dropped_retract hm rule
      exact hfirst.trans (ih _ hfirst.housed)
  exact hfold (target :: generated.reverse) k h

/-- A roll back takes the new rules out again, unless a directory which one of them has taken
over holds others. -/
theorem Linked.rollback {old : Set Rule}
    (h : Linked (old ∪ {x | x ∈ target :: generated}) {x | err ≠ 0 ∧ x ∈ target :: generated} k)
    (hfresh : ∀ p ∈ old, p ∉ target :: generated) (hclosed : Closed k (target :: generated)) :
    Linked old ∅ (rollbackGeneratedTopology target generated k) := by
  have hsame : ∀ x, x ∈ target :: generated.reverse ↔ x ∈ target :: generated := by simp
  have hreversed : Closed k (target :: generated.reverse) :=
    fun r hr d ht c hc => (hsame c).mpr (hclosed r ((hsame r).mp hr) d ht c hc)
  have hdropped := h.drop (fun r hr => Or.inr ((hsame r).mp hr))
    (dropped_rollback h.toHoused target generated) hreversed
  refine (hdropped.loosen ?_).congr ?_
  · intro x hx hl
    exact absurd ((hsame x).mpr hl.2) hx.2
  · intro x
    constructor
    · exact fun hx => ⟨Or.inl hx, fun hmem => hfresh x hx ((hsame x).mp hmem)⟩
    · rintro ⟨hx | hx, hout⟩
      · exact hx
      · exact absurd ((hsame x).mpr hx) hout

/-- The directory node goes over to a directory rule; otherwise it has to be empty. -/
theorem Linked.handOver {existing : Rule} (h : Linked S {rule} k) (hrule : rule ∈ S)
    (hexisting : existing ∈ S)
    (hne : rule ≠ existing) (hpath : rule.vPath = existing.vPath)
    (hempty : ∀ d, k.thisDir rule.id = some d → (k.dirs d).children = [])
    (hkeep : k.hasChildren existing = true → rule.has IS_DIR = true) :
    Linked S {rule} (handOver rule existing k) ∧ Closed (handOver rule existing k) [existing] := by
  unfold Kernel.handOver
  cases hd : k.thisDir existing.id with
  | none =>
    refine ⟨h, ?_⟩
    intro r hr d ht
    rw [List.mem_singleton.mp hr, hd] at ht
    cases ht
  | some dir =>
    simp only
    split
    · refine ⟨h.transfer hexisting hrule hne hpath hd hempty, ?_⟩
      intro r hr d ht
      have hnone : Function.update (Function.update k.thisDir rule.id (some dir)) existing.id none r.id =
        some d := ht
      rw [List.mem_singleton.mp hr, Function.update_self] at hnone
      cases hnone
    · rename_i hfile
      refine ⟨h, ?_⟩
      intro r hr d ht c hc
      rw [List.mem_singleton.mp hr, hd, Option.some.injEq] at ht
      subst ht
      have hchildren : k.hasChildren existing = true := by
        simp only [hasChildren, hd]
        exact decide_eq_true (List.ne_nil_of_mem hc)
      exact absurd (hkeep hchildren) hfile

/-- A rule which is allocated, before anything is looked up for it. -/
structure Allotted (k : Kernel) (rule : Rule) (m : Kernel) : Prop where
  id : rule.id = k.nextId
  linked : Linked (insert rule {p | p ∈ k.rules}) {rule} m
  outside : ∀ d, rule ∉ (m.dirs d).children
  unplaced : m.parentDir rule.id = none
  empty : ∀ d, m.thisDir rule.id = some d → (m.dirs d).children = []
  thisDir : ∀ x ∈ k.rules, m.thisDir x.id = k.thisDir x.id
  children : ∀ d, (m.dirs d).children = (k.dirs d).children
  childLen : m.childLen = k.childLen
  victims : m.victims = k.victims
  clock : m.clock = k.clock + if rule.has IS_DIR = true then 3 else 2

theorem allocRule_allotted {request : Request} (h : Linked {p | p ∈ k.rules} ∅ k)
    (halloc : allocRule env request k = (.ok rule, m)) : Allotted k rule m := by
  unfold allocRule at halloc
  split at halloc
  · simp at halloc
  · split at halloc
    · simp at halloc
    · rename_i isDir _
      simp only at halloc
      generalize hrule : request.rule k.nextId isDir = made at halloc
      have hid : made.id = k.nextId := by
        rw [← hrule]
        rfl
      have hloose : Linked {p | p ∈ k.rules} ∅ k.tick.tick := h.tick.tick
      have hentered := hloose.enter hid
      rw [insert_empty_eq] at hentered
      have hnone := h.unborn k.nextId le_rfl
      have hout : ∀ d, made ∉ (k.dirs d).children := by
        intro d hc
        have hlt := h.born made (Or.inl (h.current d made hc))
        omega
      have hother : ∀ x ∈ k.rules, x.id ≠ made.id := by
        intro x hx heq
        have hlt := h.born x (Or.inl hx)
        omega
      split at halloc
      · rename_i hfile
        simp only [Prod.mk.injEq, Except.ok.injEq] at halloc
        obtain ⟨rfl, rfl⟩ := halloc
        refine ⟨hid, hentered, hout, ?_, ?_, fun _ _ => rfl, fun _ => rfl, rfl, rfl, ?_⟩
        · rw [hid]
          exact hnone.2
        · intro d ht
          rw [hid] at ht
          exact absurd (hnone.1.symm.trans ht) (by simp)
        · rw [if_neg (by simp [hfile])]
          rfl
      · rename_i hdir
        split at halloc
        · simp at halloc
        · simp only [Prod.mk.injEq, Except.ok.injEq] at halloc
          obtain ⟨rfl, rfl⟩ := halloc
          have hmade :
              (giveDir made ({ k.tick.tick with nextId := k.nextId + 1 } : Kernel).tick).thisDir made.id =
                some k.nextDir := Function.update_self ..
          have hchildren : ∀ d, ((giveDir made
              ({ k.tick.tick with nextId := k.nextId + 1 } : Kernel).tick).dirs d).children =
              (k.dirs d).children := fun d => setOwner_children ..
          refine ⟨hid, hentered.tick.giveDir (Set.mem_insert made _) ?_, ?_, ?_, ?_, ?_, hchildren, rfl, rfl, ?_⟩
          · rw [hid]
            exact hnone.1
          · intro d hc
            rw [hchildren d] at hc
            exact hout d hc
          · rw [hid]
            exact hnone.2
          · intro d ht
            rw [← Option.some.inj (hmade.symm.trans ht), hchildren]
            exact (h.fresh k.nextDir le_rfl).1
          · exact fun x hx => Function.update_of_ne (hother x hx) _ _
          · rw [if_pos (by simpa using hdir)]
            rfl

/-- What taking a rule off leaves as it was. -/
structure Detached (rule : Rule) (k k' : Kernel) : Prop where
  rules : k'.rules = k.rules.erase rule
  root : k'.root = Art.removeLeaf rule k.root 0
  thisDir : k'.thisDir = k.thisDir
  parentDir : k'.parentDir = k.parentDir
  childLen : k'.childLen = k.childLen
  clock : k'.clock = k.clock

theorem detachRule_detached (rule : Rule) (k : Kernel) : Detached rule k (detachRule rule false k) := by
  have hclock : ∀ m : Kernel, (deleteChild rule m).2.clock = m.clock := by
    intro m
    unfold deleteChild
    split
    · rfl
    · simp only
      split <;> rfl
  unfold detachRule
  simp only [Bool.false_eq_true, if_false]
  split
  · exact ⟨rfl, rfl, rfl, rfl, rfl, rfl⟩
  · have hleaving := deleteChild_leaving rule (k.unlink rule)
    exact ⟨hleaving.rules, hleaving.root, hleaving.thisDir, hleaving.parentDir, hleaving.childLen, hclock _⟩

theorem dropped_detachRule (h : Housed k) (rule : Rule) : Dropped [rule] k (detachRule rule false k) := by
  apply dropped_deleteChild h (detachRule_same rule k)
  unfold detachRule
  simp only [Bool.false_eq_true, if_false]
  split
  · rfl
  · rw [victims_deleteChild]
    rfl

/-- What handing a directory over leaves as it was. -/
theorem handOver_frame (rule existing : Rule) (k : Kernel) :
    (handOver rule existing k).parentDir = k.parentDir ∧ (handOver rule existing k).childLen = k.childLen ∧
      (handOver rule existing k).clock = k.clock ∧
      (∀ d, ((handOver rule existing k).dirs d).children = (k.dirs d).children) ∧
      ∀ id, id ≠ rule.id → id ≠ existing.id → (handOver rule existing k).thisDir id = k.thisDir id := by
  unfold handOver
  split
  · split
    · refine ⟨rfl, rfl, rfl, fun d => setOwner_children .., fun id hr he => ?_⟩
      exact (Function.update_of_ne he _ _).trans (Function.update_of_ne hr _ _)
    · exact ⟨rfl, rfl, rfl, fun _ => rfl, fun _ _ _ => rfl⟩
  · exact ⟨rfl, rfl, rfl, fun _ => rfl, fun _ _ _ => rfl⟩

theorem handOver_thisDir {existing : Rule} (hne : rule.id ≠ existing.id)
    (ht : (handOver rule existing k).thisDir rule.id = some dir) :
    k.thisDir existing.id = some dir ∨ k.thisDir rule.id = some dir := by
  unfold handOver at ht
  split at ht
  · rename_i d hd
    split at ht
    · left
      have hupdate : Function.update (Function.update k.thisDir rule.id (some d)) existing.id none rule.id =
        some dir := ht
      rw [Function.update_of_ne hne, Function.update_self] at hupdate
      rw [hd, hupdate]
    · exact Or.inr ht
  · exact Or.inr ht

/-- The new rule has come in the place of the old one, if there is one. -/
structure Shadowed (k : Kernel) (rule : Rule) (m : Kernel) : Prop where
  coming : Coming {p | p ∈ (shadowExisting rule m).rules} [rule] rule (shadowExisting rule m)
  unplaced : (shadowExisting rule m).parentDir rule.id = none
  clock : (shadowExisting rule m).clock = m.clock
  closed : (∀ existing, Art.searchExact rule.vPath 0 rule.targetUid k.root = some existing →
    k.hasChildren existing = false) → Closed (shadowExisting rule m) [rule]
  rules : (shadowExisting rule m).rules = (cleared rule k).rules
  root : (shadowExisting rule m).root = (cleared rule k).root
  thisDir : ∀ x ∈ (cleared rule k).rules, (shadowExisting rule m).thisDir x.id = (cleared rule k).thisDir x.id
  childLen : (shadowExisting rule m).childLen = (cleared rule k).childLen
  children : ∀ d, ((shadowExisting rule m).dirs d).children = ((cleared rule k).dirs d).children

theorem Allotted.shadowed (h : Allotted k rule m) (hk : Housed k) (hsync : Synced k) (hsame : SameTable k m)
    (hkeep : ∀ existing, Art.searchExact rule.vPath 0 rule.targetUid k.root = some existing →
      k.hasChildren existing = true → rule.has IS_DIR = true) : Shadowed k rule m := by
  have hnew : rule ∉ k.rules := by
    intro hmem
    have hlt := hsync.allocated rule hmem
    rw [h.id] at hlt
    exact lt_irrefl _ hlt
  cases hfound : Art.searchExact rule.vPath 0 rule.targetUid k.root with
  | none =>
    have hshadow : shadowExisting rule m = m := by
      unfold shadowExisting
      rw [hsame.root, hfound]
    have hcleared : cleared rule k = k := by
      unfold cleared
      rw [hfound]
    have hlinked : Linked ({p | p ∈ m.rules} ∪ {x | x ∈ [rule]}) {rule} m := by
      refine h.linked.congr ?_
      intro x
      rw [hsame.rules]
      simp only [Set.mem_union, Set.mem_ofPred_eq, Set.mem_insert_iff, List.mem_singleton]
      exact or_comm
    constructor
    all_goals rw [hshadow]
    · refine ⟨hlinked, ?_, List.mem_singleton_self rule, h.outside⟩
      intro p hp hmem
      have hp' : p ∈ m.rules := hp
      rw [hsame.rules] at hp'
      exact hnew (List.mem_singleton.mp hmem ▸ hp')
    · exact h.unplaced
    · intro _ x hx d ht c hc
      rw [List.mem_singleton.mp hx] at ht
      rw [h.empty d ht] at hc
      cases hc
    · rw [hcleared, hsame.rules]
    · rw [hcleared, hsame.root]
    · rw [hcleared]
      exact h.thisDir
    · rw [hcleared, h.childLen]
    · rw [hcleared]
      exact h.children
  | some existing =>
    obtain ⟨hholds, hpath, huid⟩ := Art.searchExact_sound hsync.sound hfound
    have hex := (hsync.holds existing).mp hholds
    have hne : rule ≠ existing := fun heq => hnew (heq ▸ hex)
    have hshadow : shadowExisting rule m = detachRule existing false (handOver rule existing m) := by
      unfold shadowExisting
      rw [hsame.root, hfound]
    have hcleared : cleared rule k = detachRule existing false k := by
      unfold cleared
      rw [hfound]
    have hchildren : m.hasChildren existing = k.hasChildren existing := by
      simp only [hasChildren, h.thisDir existing hex, h.children]
    obtain ⟨hlinked, hclosed⟩ :=
      h.linked.handOver (Set.mem_insert rule _) (Set.mem_insert_of_mem rule hex) hne hpath.symm h.empty
      fun hc => hkeep existing hfound (hchildren ▸ hc)
    obtain ⟨hparent, hlen, hclock, hsets, hthis⟩ := handOver_frame rule existing m
    have hdetached := detachRule_detached existing (handOver rule existing m)
    have hdetached' := detachRule_detached existing k
    have hdropped := dropped_detachRule hlinked.toHoused existing
    have htable := (same_handOver rule existing m).1
    have hrules : (detachRule existing false (handOver rule existing m)).rules =
        (detachRule existing false k).rules := by
      rw [hdetached.rules, hdetached'.rules, htable.rules, hsame.rules]
    have hids : ∀ x y, x ∈ k.rules → y ∈ k.rules → x.id = y.id → x = y := fun x y hx hy =>
      h.linked.ids x y (Or.inl (Set.mem_insert_of_mem rule hx)) (Or.inl (Set.mem_insert_of_mem rule hy))
    have hlisted : ∀ x, x ∈ (detachRule existing false k).rules ↔ x ≠ existing ∧ x ∈ k.rules := by
      intro x
      rw [hdetached'.rules, hsync.nodup.mem_erase_iff]
    have hsets' : ∀ d, ((detachRule existing false (handOver rule existing m)).dirs d).children =
        (k.dirs d).children.erase existing := by
      intro d
      rw [(detachRule_same existing _).dirs, deleteChild_children hlinked.toHoused, hsets, h.children]
    constructor
    all_goals rw [hshadow]
    · refine ⟨?_, ?_, List.mem_singleton_self rule, ?_⟩
      · refine (hlinked.drop ?_ hdropped hclosed).congr ?_
        · intro r hr
          rw [List.mem_singleton.mp hr]
          exact Set.mem_insert_of_mem rule hex
        · intro x
          simp only [Set.mem_union, Set.mem_ofPred_eq, Set.mem_sdiff, Set.mem_insert_iff, List.mem_singleton,
            hrules, hlisted]
          constructor
          · rintro (⟨hx, hxr⟩ | rfl)
            · exact ⟨Or.inr hxr, hx⟩
            · exact ⟨Or.inl rfl, hne⟩
          · rintro ⟨rfl | hxr, hx⟩
            · exact Or.inr rfl
            · exact Or.inl ⟨hx, hxr⟩
      · intro p hp hmem
        have hp' : p ∈ (detachRule existing false (handOver rule existing m)).rules := hp
        rw [hrules, hlisted, List.mem_singleton.mp hmem] at hp'
        exact hnew hp'.2
      · intro d hc
        rw [hsets' d] at hc
        exact h.outside d (h.children d ▸ List.mem_of_mem_erase hc)
    · rw [hdetached.parentDir, hparent]
      exact h.unplaced
    · rw [hdetached.clock, hclock]
    · intro hnone x hx d ht c hc
      have hnochild := hnone existing hfound
      rw [List.mem_singleton.mp hx, hdetached.thisDir] at ht
      have hin : c ∈ (m.dirs d).children := by
        rw [hsets' d] at hc
        exact h.children d ▸ List.mem_of_mem_erase hc
      have hruleId : rule.id ≠ existing.id := by
        intro heq
        have hlt := hsync.allocated existing hex
        rw [← heq, h.id] at hlt
        exact lt_irrefl _ hlt
      rcases handOver_thisDir hruleId ht with hold | hown
      · rw [← hchildren, hasChildren, hold] at hnochild
        exact absurd hnochild (by simpa using List.ne_nil_of_mem hin)
      · rw [h.empty d hown] at hin
        cases hin
    · rw [hcleared, hrules]
    · rw [hcleared, hdetached.root, hdetached'.root, htable.root, hsame.root]
    · intro x hx
      rw [hcleared] at hx ⊢
      obtain ⟨hxe, hxk⟩ := (hlisted x).mp hx
      have hid : x.id ≠ rule.id := by
        intro heq
        have hlt := hsync.allocated x hxk
        rw [heq, h.id] at hlt
        exact lt_irrefl _ hlt
      have hid' : x.id ≠ existing.id := fun heq => hxe (hids x existing hxk hex heq)
      rw [hdetached.thisDir, hdetached'.thisDir, hthis x.id hid hid', h.thisDir x hxk]
    · rw [hcleared, hdetached.childLen, hdetached'.childLen, hlen, h.childLen]
    · intro d
      rw [hcleared, hsets', (detachRule_same existing k).dirs, deleteChild_children hk]

end

end HybridMount.Vfs.Kernel
