import HybridMount.AdditionFrame

/-! What a deletion takes along: upwards, every virtual directory whose children all go. -/

namespace HybridMount.Vfs.Kernel

open LittleEndian

/-- The nodes which `pruneEmptyVirtualDirs` reads. -/
def pruneReads : Nat → Option Nat → Kernel → List Nat
  | 0, _, _ => []
  | _ + 1, none, _ => []
  | fuel + 1, some dir, k =>
    if (k.dirs dir).children ≠ [] then [dir]
    else
      match (k.dirs dir).tag with
      | some (some owner) =>
        if owner.has VIRTUAL_DIR then
          let result := deleteChild owner (k.unlink owner)
          dir :: (k.parentDir owner.id).toList ++ pruneReads fuel result.1 result.2
        else [dir]
      | _ => [dir]

/-- The nodes which `detachRule` reads. -/
def detachReads (rule : Rule) (k : Kernel) : List Nat :=
  let result := deleteChild rule (k.unlink rule)
  (k.parentDir rule.id).toList ++ pruneReads (k.nextDir + 1) result.1 result.2

/-- The nodes which `delRule` reads once it has found the rule. -/
def delReads (env : Nat → Answers) (rule : Rule) (k : Kernel) : List Nat :=
  (k.thisDir rule.id).toList ++
    if k.hasChildren rule then
      if rule.flags = IS_DIR ||| VIRTUAL_DIR ∨ (env k.clock).alloc = false then []
        else (k.parentDir rule.id).toList
    else detachReads rule k

/-- What goes with a rule: a virtual directory that one of them stands in goes when all its children do. -/
inductive Falls (k : Kernel) (rule : Rule) : Rule → Prop
  | self : Falls k rule rule
  | parent {r owner : Rule} {dir : Nat} (h : Falls k rule r) (hdir : k.parentDir r.id = some dir)
      (hchildren : ∀ c, c ∈ (k.dirs dir).children → Falls k rule c)
      (howner : (k.dirs dir).tag = some (some owner)) (hflag : owner.has VIRTUAL_DIR = true) :
        Falls k rule owner

/-- After the rules `gone` are taken off the table. -/
structure Stripped (k : Kernel) (gone : List Rule) (k' : Kernel) : Prop where
  housed : Housed k'
  synced : Synced k'
  nextDir : k'.nextDir = k.nextDir
  parentDir : k'.parentDir = k.parentDir
  tag : ∀ d, (k'.dirs d).tag = (k.dirs d).tag
  children : ∀ d c, c ∈ (k'.dirs d).children ↔ c ∈ (k.dirs d).children ∧ c ∉ gone
  rules : ∀ r, r ∈ k'.rules ↔ r ∈ k.rules ∧ r ∉ gone

section

variable {k k' : Kernel} {rule r : Rule} {gone : List Rule} {start : Option Nat} {dir : Nat}

theorem Stripped.cons (h : Stripped k gone k') (owner : Rule) :
    Stripped k (owner :: gone) (deleteChild owner (k'.unlink owner)).2 := by
  have hunlinked := h.housed.of_same (dirs_unlink owner k')
  have hleaving := deleteChild_leaving owner (k'.unlink owner)
  have hsync := h.synced.unlink owner
  constructor
  · exact hunlinked.deleteChild owner
  · exact hsync.of_same ⟨hleaving.rules, hleaving.root, hleaving.nextId.ge⟩
  · exact hleaving.nextDir.trans h.nextDir
  · exact hleaving.parentDir.trans h.parentDir
  · exact fun d => (hleaving.tag d).trans (h.tag d)
  · intro d c
    have hchildren : ((k'.unlink owner).dirs d).children = (k'.dirs d).children := rfl
    rw [deleteChild_children hunlinked, hchildren, (h.housed.nodup d).mem_erase_iff, h.children d c]
    simp only [List.mem_cons, not_or]
    tauto
  · intro r
    have hrules : (k'.unlink owner).rules = k'.rules.erase owner := rfl
    rw [hleaving.rules, hrules, h.synced.nodup.mem_erase_iff, h.rules r]
    simp only [List.mem_cons, not_or]
    tauto

theorem deleteChild_parent (rule : Rule) (k : Kernel) :
    (deleteChild rule k).1 = (k.parentDir rule.id).filter fun dir => (k.dirs dir).tag.isSome := by
  unfold deleteChild
  cases k.parentDir rule.id with
  | none => rfl
  | some dir =>
    simp only [Option.filter_some]
    split <;> rfl

theorem Stripped.parent (h : Stripped k gone k') (owner : Rule) : (deleteChild owner (k'.unlink owner)).1 =
    (k.parentDir owner.id).filter fun dir => (k.dirs dir).tag.isSome := by
  have hparent : (k'.unlink owner).parentDir = k.parentDir := h.parentDir
  have htag : ∀ d, ((k'.unlink owner).dirs d).tag = (k.dirs d).tag := h.tag
  rw [deleteChild_parent, hparent]
  simp only [htag]

theorem Stripped.falls_owner (h : Stripped k gone k') (hfalls : ∀ r ∈ gone, Falls k rule r)
    (hstart : ∃ r ∈ gone, k.parentDir r.id = some dir) (hempty : (k'.dirs dir).children = []) {owner : Rule}
    (howner : (k.dirs dir).tag = some (some owner)) (hflag : owner.has VIRTUAL_DIR = true) :
    Falls k rule owner := by
  obtain ⟨r, hr, hdir⟩ := hstart
  refine .parent (hfalls r hr) hdir ?_ howner hflag
  intro c hc
  by_contra hout
  have hmem := (h.children dir c).mpr ⟨hc, fun hgone => hout (hfalls c hgone)⟩
  rw [hempty] at hmem
  cases hmem

/-- The parents of the rules that are gone in the end are those of the first ones and the nodes read since. -/
def Reads (k : Kernel) (gone gone' : List Rule) (reads : List Nat) : Prop :=
  ∀ d, (∃ r ∈ gone', k.parentDir r.id = some d) ↔ (∃ r ∈ gone, k.parentDir r.id = some d) ∨ d ∈ reads

theorem Reads.refl : Reads k gone gone [] := by
  intro d
  simp

theorem Reads.stay (hstart : ∃ r ∈ gone, k.parentDir r.id = some dir) : Reads k gone gone [dir] := by
  intro d
  refine ⟨Or.inl, ?_⟩
  rintro (h | h)
  · exact h
  · rw [List.mem_singleton.mp h]
    exact hstart

theorem Reads.step {gone' : List Rule} {owner : Rule} {reads : List Nat}
    (h : Reads k (owner :: gone) gone' reads)
    (hstart : ∃ r ∈ gone, k.parentDir r.id = some dir) :
    Reads k gone gone' (dir :: (k.parentDir owner.id).toList ++ reads) := by
  intro d
  rw [h d]
  simp only [List.mem_cons, exists_eq_or_imp, List.cons_append, List.mem_append, Option.mem_toList]
  constructor
  · rintro ((hown | hold) | hread)
    · exact .inr (.inr (.inl hown))
    · exact .inl hold
    · exact .inr (.inr (.inr hread))
  · rintro (hold | rfl | hown | hread)
    · exact .inl (.inr hold)
    · exact .inl (.inr hstart)
    · exact .inl (.inl hown)
    · exact .inr hread

theorem prune_within {fuel : Nat} (h : Stripped k gone k') (hfalls : ∀ r ∈ gone, Falls k rule r)
    (hstart : ∀ dir, start = some dir → ∃ r ∈ gone, k.parentDir r.id = some dir) :
    ∃ gone', gone ⊆ gone' ∧ Stripped k gone' (pruneEmptyVirtualDirs fuel start k') ∧
    (∀ r ∈ gone', Falls k rule r) ∧
      Reads k gone gone' (pruneReads fuel start k') := by
  induction fuel generalizing gone k' start with
  | zero => exact ⟨gone, List.Subset.refl _, h, hfalls, .refl⟩
  | succ fuel ih =>
    cases start with
    | none => exact ⟨gone, List.Subset.refl _, h, hfalls, .refl⟩
    | some dir =>
      have hstay := Reads.stay (hstart dir rfl)
      unfold pruneEmptyVirtualDirs pruneReads
      split
      · exact ⟨gone, List.Subset.refl _, h, hfalls, hstay⟩
      · rename_i hempty
        rw [h.tag dir]
        rcases howner : (k.dirs dir).tag with _ | _ | owner
        · exact ⟨gone, List.Subset.refl _, h, hfalls, hstay⟩
        · exact ⟨gone, List.Subset.refl _, h, hfalls, hstay⟩
        · dsimp only
          split
          · rename_i hflag
            have hfall := h.falls_owner hfalls (hstart dir rfl) (not_not.mp hempty) howner hflag
            have hnext : ∀ d, (deleteChild owner (k'.unlink owner)).1 = some d →
                ∃ r ∈ owner :: gone, k.parentDir r.id = some d := by
              intro d hd
              rw [h.parent] at hd
              exact ⟨owner, List.mem_cons_self, (Option.filter_eq_some_iff.mp hd).1⟩
            obtain ⟨gone', hsub, hstripped, hall, hreads⟩ :=
              ih (h.cons owner) (List.forall_mem_cons.mpr ⟨hfall, hfalls⟩) hnext
            refine ⟨gone', fun r hr => hsub (List.mem_cons_of_mem _ hr), hstripped, hall, ?_⟩
            rw [h.parentDir]
            exact hreads.step (hstart dir rfl)
          · exact ⟨gone, List.Subset.refl _, h, hfalls, hstay⟩

/-- Whatever stands in the directory has its owner gone, if pruning can take it. -/
def Settled (k : Kernel) (gone : List Rule) (dir : Nat) : Prop :=
  ∀ owner, (k.dirs dir).tag = some (some owner) → owner.has VIRTUAL_DIR = true → owner ∈ gone

theorem Settled.mono {gone' : List Rule} (h : Settled k gone dir) (hsub : gone ⊆ gone') :
    Settled k gone' dir :=
  fun owner ht hf => hsub (h owner ht hf)

theorem falls_closed (hrule : rule ∈ gone) (hclosed : ∀ r ∈ gone, ∀ dir, k.parentDir r.id = some dir →
    Settled k gone dir ∨ ∃ c ∈ (k.dirs dir).children, c ∉ gone) (h : Falls k rule r) : r ∈ gone := by
  induction h with
  | self => exact hrule
  | parent h hdir hchildren howner hflag ih ihc =>
    rcases hclosed _ ih _ hdir with hsettled | ⟨c, hc, hout⟩
    · exact hsettled _ howner hflag
    · exact absurd (ihc c hc) hout

/-- The loop takes away only what falls, and with enough steps all of it. The directories it
has passed are in `seen`. -/
theorem prune_falls {fuel : Nat} {seen : Finset Nat} (hh : Housed k) (h : Stripped k gone k')
    (hrule : rule ∈ gone)
    (hfalls : ∀ r ∈ gone, Falls k rule r)
    (hstart : ∀ dir, start = some dir → ∃ r ∈ gone, k.parentDir r.id = some dir)
    (hpassed : ∀ r ∈ gone, ∀ dir, k.parentDir r.id = some dir → start = some dir ∨ Settled k gone dir)
    (hseen : ∀ dir ∈ seen, dir < k.nextDir ∧ Settled k gone dir) (hfuel : k.nextDir < fuel + seen.card) :
    ∃ gone', Stripped k gone' (pruneEmptyVirtualDirs fuel start k') ∧ (∀ r, r ∈ gone' ↔ Falls k rule r) ∧
      Reads k gone gone' (pruneReads fuel start k') := by
  have hlow : seen ⊆ Finset.range k.nextDir := fun dir hd => Finset.mem_range.mpr (hseen dir hd).1
  induction fuel generalizing gone k' start seen with
  | zero =>
    have hcard := Finset.card_le_card hlow
    rw [Finset.card_range] at hcard
    omega
  | succ fuel ih =>
    have hstop : (∀ r ∈ gone, ∀ dir, k.parentDir r.id = some dir → Settled k gone dir ∨
        ∃ c ∈ (k.dirs dir).children, c ∉ gone) → ∀ r, r ∈ gone ↔ Falls k rule r :=
      fun hclosed r => ⟨hfalls r, falls_closed hrule hclosed⟩
    cases start with
    | none =>
      refine ⟨gone, h, hstop fun r hr dir hdir => ?_, .refl⟩
      rcases hpassed r hr dir hdir with hnone | hsettled
      · cases hnone
      · exact Or.inl hsettled
    | some dir =>
      have hothers : (Settled k gone dir ∨ ∃ c ∈ (k.dirs dir).children, c ∉ gone) → ∀ r, r ∈ gone ↔
          Falls k rule r := by
        intro hdir
        refine hstop fun r hr d hd => ?_
        rcases hpassed r hr d hd with heq | hsettled
        · rw [← Option.some.inj heq]
          exact hdir
        · exact Or.inl hsettled
      by_cases hmem : dir ∈ seen
      · -- the parents of a rule that is gone already: everything that falls is gone
        obtain ⟨gone', hsub, hstripped, hall, hreads⟩ :=
          @prune_within k k' rule gone (some dir) (fuel + 1) h hfalls hstart
        refine ⟨gone', hstripped, fun r => ⟨hall r, fun hr => ?_⟩, hreads⟩
        exact hsub ((hothers (Or.inl (hseen dir hmem).2) r).mpr hr)
      · have hstay := Reads.stay (hstart dir rfl)
        unfold pruneEmptyVirtualDirs pruneReads
        split
        · rename_i hne
          refine ⟨gone, h, hothers (Or.inr ?_), hstay⟩
          obtain ⟨c, hc⟩ := List.exists_mem_of_ne_nil _ hne
          exact ⟨c, (h.children dir c).mp hc⟩
        · rename_i hempty
          rw [h.tag dir]
          have hstop : (∀ owner, (k.dirs dir).tag = some (some owner) → owner.has VIRTUAL_DIR = true →
              owner ∈ gone) →
              ∃ gone', Stripped k gone' k' ∧ (∀ r, r ∈ gone' ↔ Falls k rule r) ∧ Reads k gone gone' [dir] :=
            fun hnone => ⟨gone, h, hothers (Or.inl hnone), hstay⟩
          rcases howner : (k.dirs dir).tag with _ | _ | owner
          · exact hstop fun x hx => by simp [howner] at hx
          · exact hstop fun x hx => by simp [howner] at hx
          · dsimp only
            split
            · rename_i hflag
              have hfall := h.falls_owner hfalls (hstart dir rfl) (not_not.mp hempty) howner hflag
              have hsub : gone ⊆ owner :: gone := List.subset_cons_self _ _
              have hsettled : Settled k (owner :: gone) dir := by
                intro x hx _
                rw [howner] at hx
                rw [← Option.some.inj (Option.some.inj hx)]
                exact List.mem_cons_self
              have hlt : dir < k.nextDir := by
                by_contra hge
                rw [(hh.fresh dir (by omega)).2] at howner
                cases howner
              have hparent := h.parent owner
              have hnext := @ih _ (owner :: gone) (deleteChild owner (k'.unlink owner)).1 (insert dir seen)
                (h.cons owner)
                (List.mem_cons_of_mem _ hrule) (List.forall_mem_cons.mpr ⟨hfall, hfalls⟩) ?_ ?_ ?_ ?_ ?_
              · obtain ⟨gone', hstripped, hall, hreads⟩ := hnext
                refine ⟨gone', hstripped, hall, ?_⟩
                rw [h.parentDir]
                exact hreads.step (hstart dir rfl)
              · intro d hd
                rw [hparent] at hd
                exact ⟨owner, List.mem_cons_self, (Option.filter_eq_some_iff.mp hd).1⟩
              · intro r hr d hd
                rcases List.mem_cons.mp hr with rfl | hr
                · by_cases htag : (k.dirs d).tag.isSome
                  · left
                    rw [hparent, hd, Option.filter_some, if_pos htag]
                  · right
                    intro x hx
                    rw [hx] at htag
                    exact absurd rfl htag
                · right
                  rcases hpassed r hr d hd with heq | hpast
                  · rw [← Option.some.inj heq]
                    exact hsettled
                  · exact hpast.mono hsub
              · intro d hd
                rcases Finset.mem_insert.mp hd with rfl | hd
                · exact ⟨hlt, hsettled⟩
                · exact ⟨(hseen d hd).1, (hseen d hd).2.mono hsub⟩
              · rw [Finset.card_insert_of_notMem hmem]
                omega
              · intro d hd
                rcases Finset.mem_insert.mp hd with rfl | hd
                · exact Finset.mem_range.mpr hlt
                · exact hlow hd
            · rename_i hflag
              refine hstop fun x hx hf => ?_
              rw [howner] at hx
              rw [← Option.some.inj (Option.some.inj hx)] at hf
              exact absurd hf hflag

theorem Stripped.refl (hh : Housed k) (hs : Synced k) : Stripped k [] k :=
  ⟨hh, hs, rfl, rfl, fun _ => rfl, by simp, by simp⟩

/-- A rule without children goes with all that falls with it, and nothing else does. The nodes which are
read are those that the fallen rules stand in. -/
theorem detachRule_falls (hh : Housed k) (hs : Synced k) (rule : Rule) :
    (∀ r, r ∈ (detachRule rule true k).rules ↔ r ∈ k.rules ∧ ¬ Falls k rule r) ∧
      ∀ d, d ∈ detachReads rule k ↔ ∃ r, Falls k rule r ∧ k.parentDir r.id = some d := by
  have hfirst := (Stripped.refl hh hs).cons rule
  have hparent := (Stripped.refl hh hs).parent rule
  have hfalls : ∀ r ∈ [rule], Falls k rule r := by
    intro r hr
    rw [List.mem_singleton.mp hr]
    exact .self
  have hstep : ∃ gone, Stripped k gone (detachRule rule true k) ∧ (∀ r, r ∈ gone ↔ Falls k rule r) ∧
      ∀ d, (∃ r ∈ gone, k.parentDir r.id = some d) ↔ d ∈ detachReads rule k := by
    cases hp : k.parentDir rule.id with
    | none =>
      have hdef : detachRule rule true k = k.unlink rule := by
        unfold detachRule
        simp only [show (k.unlink rule).parentDir rule.id = none from hp]
      rw [hdef]
      have hsame : (deleteChild rule (k.unlink rule)).2 = k.unlink rule := by
        unfold deleteChild
        rw [show (k.unlink rule).parentDir rule.id = none from hp]
      rw [hsame] at hfirst
      refine ⟨[rule], hfirst, fun r => ⟨hfalls r, falls_closed List.mem_cons_self ?_⟩, fun d => ?_⟩
      · intro r hr dir hdir
        rw [List.mem_singleton.mp hr, hp] at hdir
        cases hdir
      · have hreads : detachReads rule k = [] := by
          unfold detachReads
          dsimp only
          rw [hparent, hp]
          rfl
        simp [hreads, hp]
    | some parent =>
      have hdef : detachRule rule true k = pruneEmptyVirtualDirs (k.nextDir + 1)
          (deleteChild rule (k.unlink rule)).1
          (deleteChild rule (k.unlink rule)).2 := by
        unfold detachRule
        simp only [show (k.unlink rule).parentDir rule.id = some parent from hp, if_true]
        rfl
      rw [hdef]
      have hprune := @prune_falls k _ rule [rule] (deleteChild rule (k.unlink rule)).1
        (k.nextDir + 1) ∅ hh hfirst
        List.mem_cons_self hfalls ?_ ?_ (by simp) (by simp)
      · obtain ⟨gone, hstripped, hall, hreads⟩ := hprune
        refine ⟨gone, hstripped, hall, fun d => ?_⟩
        rw [hreads d]
        simp [detachReads]
      · intro dir hd
        rw [hparent] at hd
        exact ⟨rule, List.mem_cons_self, (Option.filter_eq_some_iff.mp hd).1⟩
      · intro r hr dir hdir
        rw [List.mem_singleton.mp hr] at hdir
        rw [hparent, hdir, Option.filter_some]
        by_cases htag : (k.dirs dir).tag.isSome
        · left
          rw [if_pos htag]
        · right
          intro owner howner
          rw [howner] at htag
          exact absurd rfl htag
  obtain ⟨gone, hstripped, hall, hreads⟩ := hstep
  refine ⟨fun r => by rw [hstripped.rules r, hall r], fun d => ?_⟩
  rw [← hreads d]
  simp only [hall]

/-- Every node that a deletion reads is still there: the rule's own one, the one which its stand-in joins,
and those that the fallen rules stand in. -/
structure Standing (held : Nat → Prop) (env : Nat → Answers) (rule : Rule) (k : Kernel) : Prop where
  own : ∀ d, k.thisDir rule.id = some d → ¬ GivenBack held k d
  joined : k.hasChildren rule = true → rule.flags ≠ IS_DIR ||| VIRTUAL_DIR → (env k.clock).alloc = true →
    ∀ d, k.parentDir rule.id = some d → ¬ GivenBack held k d
  fallen : k.hasChildren rule = false → ∀ r, Falls k rule r → ∀ d, k.parentDir r.id = some d →
    ¬ GivenBack held k d

theorem standing_iff (hh : Housed k) (hs : Synced k) (held : Nat → Prop) (env : Nat → Answers) (rule : Rule) :
    (∀ d ∈ delReads env rule k, ¬ GivenBack held k d) ↔ Standing held env rule k := by
  have hdetach := (detachRule_falls hh hs rule).2
  unfold delReads
  constructor
  · intro hall
    refine ⟨fun d hd => hall d ?_, fun hc hf ha d hd => hall d ?_, fun hc r hr d hd => hall d ?_⟩
    · rw [hd]
      simp
    · rw [if_pos hc, if_neg (by simp [hf, ha]), hd]
      simp
    · rw [if_neg (by simp [hc])]
      exact List.mem_append_right _ ((hdetach d).mpr ⟨r, hr, hd⟩)
  · intro hstanding d hd
    rcases List.mem_append.mp hd with hd | hd
    · exact hstanding.own d (by simpa using hd)
    · cases hc : k.hasChildren rule with
      | true =>
        rw [if_pos hc] at hd
        split at hd
        · cases hd
        · rename_i hno
          simp only [not_or, Bool.not_eq_false] at hno
          exact hstanding.joined hc hno.1 hno.2 d (by simpa using hd)
      | false =>
        rw [if_neg (by simp [hc])] at hd
        obtain ⟨r, hr, hparent⟩ := (hdetach d).mp hd
        exact hstanding.fallen hc r hr d hparent

end

/-- A deletion uses no directory node that has been freed. It takes the rule and parents which
nobody asked for and which lose all their children. A rule that has children stays as such a parent,
with the same children. -/
structure Spares (held : Nat → Prop) (asked : List Rule) (env : Nat → Answers) (rule : Rule) (k : Kernel)
    (result : Int32 × Kernel) : Prop where
  intact : ∀ d ∈ delReads env rule k, ¬ GivenBack held k d
  gone : ∀ r ∈ k.rules, r ∉ result.2.rules → r = rule ∨ (r ∉ asked ∧ Falls k rule r)
  kept : ∀ r ∈ k.rules, r ∈ asked → r ≠ rule → r ∈ result.2.rules
  stays : result.1 = 0 → k.hasChildren rule = true →
    ∃ p ∈ result.2.rules, (p = rule ∨ p ∉ k.rules) ∧ p ∉ asked ∧
    p.flags = IS_DIR ||| VIRTUAL_DIR ∧ p.vPath = rule.vPath ∧ p.targetUid = rule.targetUid ∧
      ∃ dir, k.thisDir rule.id = some dir ∧ result.2.thisDir p.id = some dir ∧
        (result.2.dirs dir).children = (k.dirs dir).children

/-- Nothing that was asked for falls with a rule without children. One with children is not
asked for with the flags of a generated parent, and does not stand in its own directory. -/
structure Sparing (held : Nat → Prop) (asked : List Rule) (env : Nat → Answers) (rule : Rule)
    (k : Kernel) : Prop where
  standing : Standing held env rule k
  falls : k.hasChildren rule = false → ∀ r ∈ k.rules, r ∈ asked → Falls k rule r → r = rule
  marked : k.hasChildren rule = true → rule.flags = IS_DIR ||| VIRTUAL_DIR → rule ∉ asked
  apart : k.hasChildren rule = true → rule.flags ≠ IS_DIR ||| VIRTUAL_DIR → StandIn env rule k →
    k.parentDir rule.id ≠ k.thisDir rule.id

section

variable {held : Nat → Prop} {asked : List Rule} {k k' : Kernel} {env : Nat → Answers} {target : Target}
  {rule : Rule}

theorem rollback_nextId (target : Rule) (generated : List Rule) (k : Kernel) :
    (rollbackGeneratedTopology target generated k).nextId = k.nextId := by
  have hfold : ∀ (rules : List Rule) (m : Kernel), (rules.foldl (fun k rule => retract rule k) m).nextId =
      m.nextId := by
    intro rules
    induction rules with
    | nil => exact fun _ => rfl
    | cons rule rest ih =>
      intro m
      exact (ih (retract rule m)).trans
        ((retract_same rule m).nextId.trans (deleteChild_leaving rule m).nextId)
  exact hfold (target :: generated.reverse) k

theorem nextId_injectChild (alloc : Bool) (dir : Nat) (rule : Rule) (childLen : Nat) (k : Kernel) :
    (injectChild alloc dir rule childLen k).2.nextId = k.nextId := by
  rcases injectChild_cases alloc dir rule childLen k with ⟨children, capacity, h, -⟩ | ⟨-, -, h⟩ <;>
    rw [h] <;> rfl

theorem nextId_preserve (rule : Rule) : k.nextId ≤ (preserveVirtualParent env rule k).2.nextId := by
  have henter : (enterParent env (copyParent rule k.tick).1 (copyParent rule k.tick).2).2.nextId =
      k.nextId + 1 := by
    unfold enterParent
    simp only
    split
    · rfl
    · split
      · exact nextId_injectChild ..
      · rfl
  unfold preserveVirtualParent
  split
  · exact le_rfl
  · split
    · exact le_rfl
    · simp only
      split
      · exact (Nat.le_succ _).trans henter.ge
      · have htake := (same_takeDir (copyParent rule k.tick).1 rule
          (enterParent env (copyParent rule k.tick).1 (copyParent rule k.tick).2).2).nextId
        rw [henter] at htake
        exact (Nat.le_succ _).trans htake

theorem addRule_nextId {request : Request} {err : Int32} (h : Served asked k) (hfits : request.Fits)
    (ha : addRule env request k = some (err, k')) :
    k.nextId ≤ k'.nextId ∧ ∀ r ∈ requested env request k, r.id < k'.nextId := by
  rcases allocRule_spec env hfits k with ⟨e, m, hfail, hsame, -⟩ | ⟨isDir, m, hmade, hsame, -, hlt⟩
  · simp only [addRule, hfail, Option.some.injEq, Prod.mk.injEq] at ha
    obtain ⟨-, rfl⟩ := ha
    exact ⟨hsame.nextId, by simp [requested, hfail]⟩
  · obtain ⟨e, generated, k₁, k₂, made, hattach, hdirs, -, hend⟩ := addRule_ends hmade ha
    have hshadow := (shrunk_shadowExisting (h.synced.of_same hsame) (request.rule k.nextId isDir)).nextId
    obtain ⟨hkeep, -, -⟩ := attach_spec hattach (by simp) List.nodup_nil le_rfl
    have hid := hkeep.nextId
    have hnext : k'.nextId = k₂.nextId := by
      rcases hend with ⟨-, rfl, -⟩ | ⟨-, rfl, -⟩
      · rfl
      · exact rollback_nextId _ _ _
    have hlt' : k.nextId < k'.nextId := by
      rw [hnext, hdirs.nextId]
      omega
    refine ⟨hlt'.le, ?_⟩
    intro r hr
    simp only [requested, hmade, List.mem_singleton] at hr
    rw [hr]
    exact hlt'

theorem nextId_delRule {vPath : Bytes} {beyond : UInt8} {uid : UInt32} (h : Synced k) :
    k.nextId ≤ (delRule env vPath beyond uid k).2.nextId := by
  unfold delRule
  simp only
  split
  · exact le_rfl
  · split
    · exact nextId_preserve _
    · exact (shrunk_detachRule h _ true).nextId.ge

theorem nextId_clearAll (k : Kernel) : k.nextId ≤ (clearAll k).nextId := by
  have hfold : ∀ (rules : List Rule) (m : Kernel), (rules.foldl emptyParent m).nextId = m.nextId := by
    intro rules
    induction rules with
    | nil => exact fun _ => rfl
    | cons rule rest ih =>
      intro m
      rw [List.foldl_cons, ih]
      unfold emptyParent
      split <;> rfl
  have hretire := (same_retire
    { k.rules.foldl emptyParent k with rules := [], victims := k.rules, root := .null }).nextId
  exact (hfold k.rules k).ge.trans hretire

theorem Served.born (h : Served asked k) : ∀ r ∈ asked, r.id < k.nextId := by
  induction h with
  | boot => simp
  | add h hfits hknown ha ih =>
    obtain ⟨hle, hnew⟩ := addRule_nextId h hfits ha
    intro r hr
    rcases List.mem_append.mp hr with hr | hr
    · exact lt_of_lt_of_le (ih r hr) hle
    · exact hnew r hr
  | del env vPath beyond uid h ih => exact fun r hr => lt_of_lt_of_le (ih r hr) (nextId_delRule h.synced)
  | retire h ih => exact fun r hr => lt_of_lt_of_le (ih r hr) (same_retire _).nextId
  | clear h ih => exact fun r hr => lt_of_lt_of_le (ih r hr) (nextId_clearAll _)

theorem mem_injectChild {alloc : Bool} {dir childLen : Nat}
    (hok : (injectChild alloc dir rule childLen k).1 = 0) :
    rule ∈ ((injectChild alloc dir rule childLen k).2.dirs dir).children := by
  rcases injectChild_cases alloc dir rule childLen k with ⟨children, capacity, heq, hcase⟩ | ⟨-, -, heq⟩
  · rw [heq]
    show rule ∈ (Function.update k.dirs dir _ dir).children
    rw [Function.update_self]
    rcases hcase with ⟨old, hold, -, -, hchildren⟩ | ⟨-, hchildren⟩
    · obtain ⟨s, t, -, hr⟩ := replace_split hold rule
      simp [hchildren, hr]
    · simp [hchildren]
  · rw [heq] at hok
    exact absurd hok (by decide : ENOMEM ≠ 0)

/-- Where the copy of a directory rule gets to. -/
theorem enterParent_dirs (h : Housed k)
    (hok : (enterParent env (copyParent rule k.tick).1 (copyParent rule k.tick).2).1 = 0) :
    (enterParent env (copyParent rule k.tick).1 (copyParent rule k.tick).2).2.thisDir =
      Function.update k.thisDir k.nextId (k.thisDir rule.id) ∧
    (∀ d, k.parentDir rule.id ≠ some d →
      ((enterParent env (copyParent rule k.tick).1 (copyParent rule k.tick).2).2.dirs d).children =
        (k.dirs d).children) ∧
    ∀ d, k.parentDir rule.id = some d → (copyParent rule k.tick).1 ∈
      ((enterParent env (copyParent rule k.tick).1 (copyParent rule k.tick).2).2.dirs d).children := by
  have hcopy := copyParent_housed h.tick rule
  have hparent : (copyParent rule k.tick).2.parentDir (copyParent rule k.tick).1.id = k.parentDir rule.id :=
    Function.update_self ..
  have hinsert := hcopy.of_same ((dirs_tick _).trans
    (dirs_treeInsert (env (copyParent rule k.tick).2.clock).alloc (copyParent rule k.tick).1
      (copyParent rule k.tick).2.tick))
  have hout : Outside k (copyParent rule k.tick).1 := outside_of_new h le_rfl
  unfold enterParent at hok ⊢
  simp only [hparent] at hok ⊢
  split at hok
  · rename_i hfail
    exact absurd hok hfail
  · rename_i hfine
    rw [if_neg hfine]
    cases hp : k.parentDir rule.id with
    | none => exact ⟨rfl, fun _ _ => rfl, by simp⟩
    | some dir =>
      rw [hp] at hok
      have hentering := injectChild_entering hinsert.tick (h.below _ dir hp) (Nat.lt_succ_self k.nextId) hout
        (env (treeInsert (env (copyParent rule k.tick).2.clock).alloc (copyParent rule k.tick).1
          (copyParent rule k.tick).2.tick).2.clock).alloc
        ((copyParent rule k.tick).2.childLen (copyParent rule k.tick).1.id)
      refine ⟨hentering.thisDir, ?_, ?_⟩
      · intro d hd
        exact congrArg DirNode.children (hentering.dirs d fun heq => hd (by rw [heq]))
      · intro d hd
        rw [← Option.some.inj hd]
        exact mem_injectChild hok

theorem takeDir_thisDir {parent : Rule} {id : Nat} (hne : id ≠ rule.id) :
    (takeDir parent rule k).thisDir id = k.thisDir id := by
  unfold takeDir
  simp only [Function.update_of_ne hne]
  split <;> rfl

theorem takeDir_children (parent rule : Rule) (k : Kernel) (d : Nat) :
    ((takeDir parent rule k).dirs d).children = (k.dirs d).children := by
  unfold takeDir
  simp only
  split
  · exact setOwner_children ..
  · rfl

theorem thisDir_of_hasChildren (h : k.hasChildren rule = true) : ∃ dir, k.thisDir rule.id = some dir := by
  unfold hasChildren at h
  cases hd : k.thisDir rule.id with
  | none => simp [hd] at h
  | some dir => exact ⟨dir, rfl⟩

theorem copyParent_fresh (h : Synced k) : ∀ r ∈ k.rules, r ≠ (copyParent rule k.tick).1 := by
  intro r hr heq
  have hlt := h.allocated r hr
  rw [heq] at hlt
  exact lt_irrefl k.nextId hlt

/-- A rule without children takes along whatever falls with it. -/
theorem detach_spares_iff (h : Served asked k) (hchildren : k.hasChildren rule = false) :
    Spares held asked env rule k (0, detachRule rule true k) ↔ Sparing held asked env rule k := by
  have hgone := (detachRule_falls h.housed h.synced rule).1
  have hstanding := standing_iff h.housed h.synced held env rule
  constructor
  · intro hspares
    refine ⟨hstanding.mp hspares.intact, fun _ r hr hasked hfall =>
      ?_, by simp [hchildren], by simp [hchildren]⟩
    by_contra hne
    exact ((hgone r).mp (hspares.kept r hr hasked hne)).2 hfall
  · intro hsparing
    refine ⟨hstanding.mpr hsparing.standing, ?_, ?_, by simp [hchildren]⟩
    · intro r hr hout
      have hfall : Falls k rule r := by
        by_contra hno
        exact hout ((hgone r).mpr ⟨hr, hno⟩)
      by_cases hasked : r ∈ asked
      · exact Or.inl (hsparing.falls hchildren r hr hasked hfall)
      · exact Or.inr ⟨hasked, hfall⟩
    · intro r hr hasked hne
      exact (hgone r).mpr ⟨hr, fun hfall => hne (hsparing.falls hchildren r hr hasked hfall)⟩

/-- A rule which already has the flags of a generated parent is left as it is. -/
theorem marked_spares_iff (h : Served asked k) (hrule : rule ∈ k.rules)
    (hchildren : k.hasChildren rule = true)
    (hflags : rule.flags = IS_DIR ||| VIRTUAL_DIR) :
    Spares held asked env rule k (0, k) ↔ Sparing held asked env rule k := by
  obtain ⟨dir, hdir⟩ := thisDir_of_hasChildren hchildren
  have hstanding := standing_iff h.housed h.synced held env rule
  constructor
  · intro hspares
    refine ⟨hstanding.mp hspares.intact, by simp [hchildren], fun _ _ => ?_,
      fun _ hother => absurd hflags hother⟩
    obtain ⟨p, hp, hold, hasked, -⟩ := hspares.stays rfl hchildren
    rcases hold with rfl | hnew
    · exact hasked
    · exact absurd hp hnew
  · intro hsparing
    exact ⟨hstanding.mpr hsparing.standing, fun r hr hout => absurd hr hout, fun r hr _ _ => hr, fun _ _ =>
      ⟨rule, hrule, Or.inl rfl, hsparing.marked hchildren hflags, hflags, rfl, rfl, dir, hdir, hdir, rfl⟩⟩

section Copied

variable (hsync : Synced k) (hrule : rule ∈ k.rules) (hflags : rule.flags ≠ IS_DIR ||| VIRTUAL_DIR)

include hflags

theorem preserve_copied (hstand : StandIn env rule k) (hzero : (preserveVirtualParent env rule k).1 = 0) :
    preserveVirtualParent env rule k = (0, unlink rule (takeDir (copyParent rule k.tick).1 rule
      (enterParent env (copyParent rule k.tick).1 (copyParent rule k.tick).2).2)) ∧
    (enterParent env (copyParent rule k.tick).1 (copyParent rule k.tick).2).1 = 0 := by
  unfold preserveVirtualParent at hzero ⊢
  rw [if_neg hflags, if_neg (by simp [hstand.1])] at hzero ⊢
  simp only at hzero ⊢
  split at hzero
  · rename_i hfail
    exact absurd hzero hfail
  · rename_i hok
    rw [if_neg hok]
    exact ⟨rfl, not_not.mp hok⟩

include hsync hrule

/-- The copy stands for the rule, and the other rules stay. -/
theorem mem_preserve (hstand : StandIn env rule k) (hzero : (preserveVirtualParent env rule k).1 = 0) {r : Rule} :
    r ∈ (preserveVirtualParent env rule k).2.rules ↔
    r ≠ rule ∧ (r ∈ k.rules ∨ r = (copyParent rule k.tick).1) := by
  have hcopied : (copyParent rule k).1 = (copyParent rule k.tick).1 := rfl
  obtain ⟨-, hrules, -⟩ := @enterParent_spec k rule env hsync hrule
  rw [hcopied] at hrules
  have htake := same_takeDir (copyParent rule k.tick).1 rule
    (enterParent env (copyParent rule k.tick).1 (copyParent rule k.tick).2).2
  rw [(preserve_copied hflags hstand hzero).1]
  show r ∈ (takeDir _ rule _).rules.erase rule ↔ _
  rw [htake.rules, hrules, List.Nodup.mem_erase_iff, List.mem_append, List.mem_singleton]
  rw [← List.concat_eq_append, List.nodup_concat]
  exact ⟨fun hin => copyParent_fresh hsync _ hin rfl, hsync.nodup⟩

/-- A preservation which fails loses no rule. -/
theorem preserve_keeps (herr : (preserveVirtualParent env rule k).1 ≠ 0) :
    ∀ r ∈ k.rules, r ∈ (preserveVirtualParent env rule k).2.rules := by
  intro r hr
  have hcopied : (copyParent rule k).1 = (copyParent rule k.tick).1 := rfl
  obtain ⟨-, hrules, -⟩ := @enterParent_spec k rule env hsync hrule
  rw [hcopied] at hrules
  unfold preserveVirtualParent at herr ⊢
  rw [if_neg hflags] at herr ⊢
  split at herr
  · rename_i halloc
    rw [if_pos halloc]
    exact hr
  · rename_i halloc
    rw [if_neg halloc]
    simp only at herr ⊢
    split at herr
    · rename_i hfail
      rw [if_pos hfail]
      show r ∈ (enterParent env _ _).2.rules.erase _
      rw [hrules]
      exact (List.mem_erase_of_ne (copyParent_fresh hsync r hr)).mpr (List.mem_append_left _ hr)
    · exact absurd rfl herr

omit hsync hrule

/-- A copy takes over the children, unless it has become one of them itself. -/
theorem copied_spares_iff (h : Served asked k) (hrule : rule ∈ k.rules)
    (hchildren : k.hasChildren rule = true)
    (hstand : StandIn env rule k) (hzero : (preserveVirtualParent env rule k).1 = 0) :
    Spares held asked env rule k (preserveVirtualParent env rule k) ↔ Sparing held asked env rule k := by
  have hsync := h.synced
  have hstanding := standing_iff h.housed hsync held env rule
  have hmem := fun r => @mem_preserve k env rule hsync hrule hflags hstand hzero r
  obtain ⟨hpreserved, hok⟩ := preserve_copied hflags hstand hzero
  obtain ⟨hthis, hother, hown⟩ := enterParent_dirs h.housed hok
  have hthisDir : (preserveVirtualParent env rule k).2.thisDir (copyParent rule k.tick).1.id =
      k.thisDir rule.id := by
    rw [hpreserved]
    show (takeDir _ rule _).thisDir k.nextId = _
    rw [takeDir_thisDir (Nat.ne_of_gt (hsync.allocated rule hrule)), hthis, Function.update_self]
  have hdirs : ∀ d, ((preserveVirtualParent env rule k).2.dirs d).children =
      ((enterParent env (copyParent rule k.tick).1 (copyParent rule k.tick).2).2.dirs d).children := by
    intro d
    rw [hpreserved]
    exact takeDir_children _ rule _ d
  obtain ⟨dir, hdir⟩ := thisDir_of_hasChildren hchildren
  constructor
  · intro hspares
    refine ⟨hstanding.mp hspares.intact, by simp [hchildren], fun _ heq => absurd heq hflags,
      fun _ _ _ heq => ?_⟩
    obtain ⟨p, hp, hold, -, -, -, -, d, hd, hpd, hsame⟩ := hspares.stays hzero hchildren
    rw [hdir] at hd
    obtain rfl := Option.some.inj hd
    rw [hdirs] at hsame
    have hin := hown dir (heq.trans hdir)
    rw [hsame] at hin
    exact lt_irrefl k.nextId (h.housed.placed dir _ hin).1
  · intro hsparing
    have hapart := hsparing.apart hchildren hflags hstand
    refine ⟨hstanding.mpr hsparing.standing, ?_, ?_, ?_⟩
    · intro r hr hout
      by_contra hno
      rw [not_or] at hno
      exact hout ((hmem r).mpr ⟨hno.1, Or.inl hr⟩)
    · exact fun r hr _ hne => (hmem r).mpr ⟨hne, Or.inl hr⟩
    · intro _ _
      refine ⟨(copyParent rule k.tick).1, (hmem _).mpr ⟨(copyParent_fresh hsync rule hrule).symm, Or.inr rfl⟩,
        Or.inr fun hin => copyParent_fresh hsync _ hin rfl, ?_, rfl, rfl, rfl, dir, hdir,
          hthisDir.trans hdir, ?_⟩
      · exact fun hasked => lt_irrefl k.nextId (h.born _ hasked)
      · rw [hdirs]
        exact hother dir fun heq => hapart (heq.trans hdir.symm)

end Copied

/-- A deletion spares what it has to spare exactly under these conditions. -/
theorem deletion_spares_iff (held : Nat → Prop) (h : Served asked k) (hl : lookup target k = some rule) :
    Spares held asked env rule k (delRule env target.vPath target.beyond target.uid k) ↔
    Sparing held asked env rule k := by
  have hsync := h.synced
  have hrule := (sought_of_lookup hsync hl).1
  have hsearch : Art.searchExact (stripSlashes target.vPath)
      ((target.vPath ++ [target.beyond]).getD (stripSlashes target.vPath).length 0) target.uid k.root =
        some rule := hl
  have hdel : delRule env target.vPath target.beyond target.uid k =
      if k.hasChildren rule then preserveVirtualParent env rule k else (0, detachRule rule true k) := by
    simp only [delRule, hsearch]
  rw [hdel]
  cases hchildren : k.hasChildren rule with
  | false =>
    rw [if_neg (by simp)]
    exact detach_spares_iff h hchildren
  | true =>
    rw [if_pos rfl]
    by_cases hflags : rule.flags = IS_DIR ||| VIRTUAL_DIR
    · rw [preserveVirtualParent, if_pos hflags]
      exact marked_spares_iff h hrule hchildren hflags
    · rcases @preserve_spec k rule env hsync hrule hflags with ⟨hstand, hzero, -, -⟩ | ⟨hstand, herr, -⟩
      · exact copied_spares_iff hflags h hrule hchildren hstand hzero
      · have hkept := preserve_keeps hsync hrule hflags herr
        have hstanding := standing_iff h.housed hsync held env rule
        refine ⟨fun hspares => ⟨hstanding.mp hspares.intact, by simp [hchildren],
          fun _ heq => absurd heq hflags,
          fun _ _ hstands => absurd hstands hstand⟩, fun hsparing => ⟨hstanding.mpr hsparing.standing,
          fun r hr hout => absurd (hkept r hr) hout, fun r hr _ _ => hkept r hr,
            fun hzero => absurd hzero herr⟩⟩

end

/-- An opaque `/a` with a whiteout of `/a/b` in it. -/
def opaqueA : Kernel := added (fun _ => generous) ⟨[SLASH, 97], [], 8, 0⟩ boot

def opaqueHidingB : Kernel := added (fun _ => generous) ⟨[SLASH, 97, SLASH, 98], [], 4, 0⟩ opaqueA

def opaqueRequests : List Rule := [] ++ requested (fun _ => generous) ⟨[SLASH, 97], [], 8, 0⟩ boot ++
  requested (fun _ => generous) ⟨[SLASH, 97, SLASH, 98], [], 4, 0⟩ opaqueA

theorem opaqueHidingB_served : Served opaqueRequests opaqueHidingB :=
  (Served.next .boot (by decide) (known_directory 0 boot) (by decide +kernel)).next (by decide)
    (known_directory 0 opaqueA)
    (by decide +kernel)

/-- A generated parent stays in the place of the opaque directory and keeps the whiteout. -/
theorem deletion_spares_hidden : Served opaqueRequests opaqueHidingB ∧
    lookup ⟨[SLASH, 97], 0, 0⟩ opaqueHidingB = some ⟨0, [SLASH, 97], [], 11, 0⟩ ∧
    Spares (fun _ => False) opaqueRequests (fun _ => generous) ⟨0, [SLASH, 97], [], 11, 0⟩ opaqueHidingB
      (delRule (fun _ => generous) [SLASH, 97] 0 0 opaqueHidingB) := by
  have hl : lookup ⟨[SLASH, 97], 0, 0⟩ opaqueHidingB = some ⟨0, [SLASH, 97], [], 11, 0⟩ := by decide +kernel
  have hchildren : opaqueHidingB.hasChildren ⟨0, [SLASH, 97], [], 11, 0⟩ = true := by decide +kernel
  have hthis : opaqueHidingB.thisDir 0 = some 0 := by decide +kernel
  have hparent : opaqueHidingB.parentDir 0 = some 1 := by decide +kernel
  have howner : (opaqueHidingB.dirs 0).tag ≠ some none := by decide +kernel
  have hnative : (opaqueHidingB.dirs 1).tag ≠ some none := by decide +kernel
  refine ⟨opaqueHidingB_served, hl, (@deletion_spares_iff opaqueRequests opaqueHidingB (fun _ => generous)
    ⟨[SLASH, 97], 0, 0⟩ _ (fun _ => False) opaqueHidingB_served hl).mpr ⟨⟨?_, ?_, ?_⟩, ?_, ?_, ?_⟩⟩
  · intro d hd hgone
    rw [hthis] at hd
    obtain rfl := Option.some.inj hd
    exact howner hgone.1
  · intro _ _ _ d hd hgone
    rw [hparent] at hd
    obtain rfl := Option.some.inj hd
    exact hnative hgone.1
  · simp [hchildren]
  · simp [hchildren]
  · exact fun _ hflags => absurd hflags (by decide)
  · intro _ _ _ heq
    rw [hparent, hthis] at heq
    exact absurd heq (by decide)

/-- The opaque directory goes with the whiteout although it was asked for. -/
theorem deletion_spares_refuted : ¬ ∀ held asked k env (target : Target) rule, Served asked k →
    lookup target k = some rule →
    Spares held asked env rule k (delRule env target.vPath target.beyond target.uid k) := by
  intro hall
  have hasked : requested (fun _ => generous) ⟨[SLASH, 97], [], 8, 0⟩ boot =
      [⟨0, [SLASH, 97], [], 11, 0⟩] := by
    decide +kernel
  have hspares := hall (fun _ => False) _ opaqueHidingB (fun _ => generous) ⟨[SLASH, 97, SLASH, 98], 0, 0⟩
    ⟨1, [SLASH, 97, SLASH, 98], [], 4, 0⟩ opaqueHidingB_served (by decide +kernel)
  have hkept := hspares.kept ⟨0, [SLASH, 97], [], 11, 0⟩ (by decide +kernel)
    (by rw [opaqueRequests, hasked]; simp) (by decide)
  exact absurd hkept (by decide +kernel)

end HybridMount.Vfs.Kernel
