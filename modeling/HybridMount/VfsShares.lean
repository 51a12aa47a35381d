import HybridMount.BackendWinners
import HybridMount.VfsCompleteness

/-! The share of one module in the rules of a plan. Where nothing of another module stands at or
below what it hides, a module has the rules which it would have alone. -/

namespace HybridMount.Plan

/-- The VFS sources at a path, in the order of the tree. -/
def heard (tree : MountNode) (path : Names) : List MountSource :=
  (MountTree.sourcesAt path tree).filter fun s => s.backend = .vfs

/-- A source that hides what another module has at its target or below. -/
def MountSource.Solid (s : MountSource) : Prop := s.fileType ≠ .directory ∨ s.replace = true

instance (s : MountSource) : Decidable s.Solid := inferInstanceAs (Decidable (_ ∨ _))

/-- The module whose first source replaces the directory at a path. -/
def claimAt (tree : MountNode) (path : Names) : Option String :=
  (heard tree path).head?.bind fun s => if s.replace then some s.moduleId else none

/-- What the rule generator takes for a directory. -/
def DirAt (tree : MountNode) (path : Names) : Prop :=
  (∃ first, (heard tree path).head? = some first ∧ first.fileType = .directory) ∨ ∃ rest, rest ≠ [] ∧
    heard tree (path ++ rest) ≠ []

/-- The nearest replaced directory on the way to a path is the module's. -/
def Owns (tree : MountNode) (path : Names) (id : String) : Prop :=
  ∃ above, above <+: path ∧ claimAt tree above = some id ∧
    ∀ between, above <+: between → between <+: path → between ≠ above → claimAt tree between = none

/-- No directory on the way to a path is replaced. -/
def Unowned (tree : MountNode) (path : Names) : Prop := ∀ between, between <+: path →
    claimAt tree between = none

variable {tree tree' node child : MountNode} {path current above rest : Names} {rule : VfsRule}
  {first s : MountSource}
  {owner owner' : Option String} {id name : String} {input input' : PlanInput} {m n : ModuleRecord}
    {modules : List ModuleRecord}
  {builder builder' : PlanBuilder}

section Nodes

theorem heard_of_find (h : tree.find compare path = some node) :
    heard tree path = node.value.sources.filter fun s => s.backend = .vfs := by
  simp [heard, MountTree.sourcesAt, Trie.valueAt, h]

theorem heard_find (h : heard tree path ≠ []) : ∃ node, tree.find compare path = some node := by
  cases hnode : tree.find compare path with
  | none => simp [heard, MountTree.sourcesAt, Trie.valueAt, hnode] at h
  | some node => exact ⟨node, rfl⟩

theorem heard_head (h : tree.find compare path = some node) :
    (heard tree path).head? = MountNode.sourceFor node .vfs := by
  rw [heard_of_find h, List.head?_filter]
  rfl

theorem heard_cons (h : OrderedMap.get compare name tree.children = some child) :
    heard tree (name :: path) = heard child path := by
  simp [heard, MountTree.sourcesAt, Trie.valueAt, Trie.find, h]

theorem claimAt_cons (h : OrderedMap.get compare name tree.children = some child) :
    claimAt tree (name :: path) = claimAt child path := by
  rw [claimAt, heard_cons h, claimAt]

theorem vfsAt_iff_heard (h : tree.find compare path = some node) : VfsAt node (fun _ => True) ↔
    heard tree path ≠ [] := by
  rw [heard_of_find h, ne_eq, List.filter_eq_nil_iff]
  simp [VfsAt]

theorem isVfsDir_iff_dirAt (ht : tree.Ordered compare) (h : tree.find compare path = some node) :
    isVfsDir node = true ↔ DirAt tree path := by
  rw [isVfsDir_iff (ht.find h), DirAt, heard_head h]
  apply or_congr_right
  constructor
  · rintro ⟨rest, below, hne, hbelow, hat⟩
    exact ⟨rest, hne, (vfsAt_iff_heard (find_below h hbelow)).mp hat⟩
  · rintro ⟨rest, hne, hheard⟩
    obtain ⟨below, hfind⟩ := heard_find hheard
    have hbelow : node.find compare rest = some below := by
      rw [Trie.find_append, h, Option.bind_some] at hfind
      exact hfind
    exact ⟨rest, below, hne, hbelow, (vfsAt_iff_heard hfind).mpr hheard⟩

theorem DirAt.find (h : DirAt tree path) : ∃ node, tree.find compare path = some node := by
  rcases h with ⟨first, hfirst, -⟩ | ⟨rest, -, hheard⟩
  · refine heard_find fun hnil => ?_
    rw [hnil] at hfirst
    cases hfirst
  · obtain ⟨below, hbelow⟩ := heard_find hheard
    rw [Trie.find_append] at hbelow
    obtain ⟨node, hnode, -⟩ := Option.bind_eq_some_iff.mp hbelow
    exact ⟨node, hnode⟩

theorem owner_eq : (collectNode owner current tree).2 = (claimAt tree []).or owner := by
  rw [claimAt, heard_head rfl]
  unfold collectNode
  dsimp only
  cases hfirst : MountNode.sourceFor tree .vfs with
  | none => rfl
  | some first =>
    by_cases hreplace : first.replace = true
    · simp [hreplace]
    · simp [hreplace]

theorem owns_nil : Owns tree [] id ↔ claimAt tree [] = some id := by
  constructor
  · rintro ⟨above, habove, hclaim, -⟩
    rwa [List.prefix_nil.mp habove] at hclaim
  · exact fun hclaim => ⟨[], List.nil_prefix, hclaim, fun between _ hbetween hne =>
      absurd (List.prefix_nil.mp hbetween) hne⟩

theorem unowned_nil : Unowned tree [] ↔ claimAt tree [] = none := by
  constructor
  · exact fun h => h [] List.nil_prefix
  · intro h between hbetween
    rwa [List.prefix_nil.mp hbetween]

theorem unowned_cons (h : OrderedMap.get compare name tree.children = some child) :
    Unowned tree (name :: path) ↔ claimAt tree [] = none ∧ Unowned child path := by
  constructor
  · intro hno
    refine ⟨hno [] List.nil_prefix, fun between hbetween => ?_⟩
    rw [← claimAt_cons h]
    exact hno _ ((List.prefix_cons_inj name).mpr hbetween)
  · rintro ⟨hroot, hno⟩ between hbetween
    rcases List.prefix_cons_iff.mp hbetween with rfl | ⟨rest, rfl, hrest⟩
    · exact hroot
    · rw [claimAt_cons h]
      exact hno rest hrest

theorem owns_cons (h : OrderedMap.get compare name tree.children = some child) :
    Owns tree (name :: path) id ↔ Owns child path id ∨ claimAt tree [] = some id ∧ Unowned child path := by
  constructor
  · rintro ⟨above, habove, hclaim, hbetween⟩
    rcases List.prefix_cons_iff.mp habove with rfl | ⟨rest, rfl, hrest⟩
    · refine .inr ⟨hclaim, fun between hpre => ?_⟩
      rw [← claimAt_cons h]
      exact hbetween _ List.nil_prefix ((List.prefix_cons_inj name).mpr hpre) (by simp)
    · refine .inl ⟨rest, hrest, claimAt_cons h ▸ hclaim, fun between hlow hhigh hne => ?_⟩
      rw [← claimAt_cons h]
      exact hbetween _ ((List.prefix_cons_inj name).mpr hlow) ((List.prefix_cons_inj name).mpr hhigh)
        (by simpa using hne)
  · rintro (⟨above, habove, hclaim, hbetween⟩ | ⟨hclaim, hno⟩)
    · refine ⟨name :: above, (List.prefix_cons_inj name).mpr habove, (claimAt_cons h).trans hclaim,
        fun between hlow hhigh hne => ?_⟩
      rcases List.prefix_cons_iff.mp hhigh with rfl | ⟨rest, rfl, hrest⟩
      · cases List.prefix_nil.mp hlow
      · rw [claimAt_cons h]
        exact hbetween rest ((List.prefix_cons_inj name).mp hlow) hrest (by simpa using hne)
    · refine ⟨[], List.nil_prefix, hclaim, fun between _ hhigh hne => ?_⟩
      rcases List.prefix_cons_iff.mp hhigh with rfl | ⟨rest, rfl, hrest⟩
      · exact absurd rfl hne
      · rw [claimAt_cons h]
        exact hno rest hrest

/-- The owner that comes down to a path is the nearest one. -/
theorem descend_owns (h : Trie.descend compare collectNode owner current path tree = some (owner', node)) :
    (collectNode owner' (current ++ path) node).2 = some id ↔ Owns tree path id ∨ owner = some id ∧
    Unowned tree path := by
  induction path generalizing tree owner current with
  | nil =>
    cases h
    rw [owner_eq, Option.or_eq_some_iff, owns_nil, unowned_nil, and_comm]
  | cons name rest ih =>
    cases hget : OrderedMap.get compare name tree.children with
    | none => simp [Trie.descend, hget] at h
    | some child =>
      simp only [Trie.descend, hget, Option.bind_some] at h
      have hh := ih h
      rw [List.append_assoc, List.singleton_append] at hh
      rw [hh, owner_eq, Option.or_eq_some_iff, owns_cons hget, unowned_cons hget, or_assoc]
      apply or_congr_right
      tauto

end Nodes

section Rules

/-- The rules of a tree as its VFS sources decide them. -/
theorem mem_rules_iff (ht : tree.Ordered compare) : rule ∈ buildVfsRules tree ↔
    (DirAt tree rule.action.virtualPath ∧ rule.action = .opaqueDir rule.action.virtualPath ∧
      Owns tree rule.action.virtualPath rule.moduleId) ∨
    ¬ DirAt tree rule.action.virtualPath ∧ ∃ s, (heard tree rule.action.virtualPath).reverse.find?
      (fun s => s.fileType ≠ .directory) = some s ∧
      actionFor rule.action.virtualPath s = some rule.action ∧ s.moduleId = rule.moduleId := by
  have hlast : ∀ node : MountNode, tree.find compare rule.action.virtualPath = some node →
      node.value.sources.reverse.find? (fun source => source.backend = .vfs && source.fileType ≠ .directory) =
        (heard tree rule.action.virtualPath).reverse.find? fun s => s.fileType ≠ .directory := by
    intro node hnode
    rw [heard_of_find hnode, ← List.filter_reverse, List.find?_filter]
    simp
  rw [mem_buildVfsRules ht]
  constructor
  · rintro ⟨owner, node, hdescend, hrule⟩
    have hnode := Trie.descend_find hdescend
    have howns := @descend_owns _ _ _ _ _ _ rule.moduleId hdescend
    rw [List.nil_append] at howns
    rcases mem_collectNode hrule with ⟨hdir, haction, howner⟩ | ⟨hdir, s, hs, haction, hid⟩
    · refine .inl ⟨(isVfsDir_iff_dirAt ht hnode).mp hdir, haction, ?_⟩
      rcases howns.mp howner with h | ⟨h, -⟩
      · exact h
      · cases h
    · refine .inr ⟨?_, s, (hlast node hnode).symm.trans hs, haction, hid⟩
      rw [← isVfsDir_iff_dirAt ht hnode, hdir]
      exact Bool.false_ne_true
  · rintro (⟨hdir, haction, howns⟩ | ⟨hdir, s, hs, haction, hid⟩)
    · obtain ⟨node, hnode⟩ := hdir.find
      obtain ⟨owner, hdescend⟩ := Trie.exists_descend collectNode none [] hnode
      have howner := (descend_owns hdescend).mpr (.inl howns)
      rw [List.nil_append] at howner
      refine ⟨owner, node, hdescend, ?_⟩
      unfold collectNode at howner ⊢
      dsimp only at howner ⊢
      rw [if_pos ((isVfsDir_iff_dirAt ht hnode).mpr hdir), howner]
      exact List.mem_singleton.mpr (by rw [← haction])
    · have hne : heard tree rule.action.virtualPath ≠ [] := by
        intro hnil
        rw [hnil] at hs
        cases hs
      obtain ⟨node, hnode⟩ := heard_find hne
      obtain ⟨owner, hdescend⟩ := Trie.exists_descend collectNode none [] hnode
      have hfalse : isVfsDir node = false := by
        rw [← Bool.not_eq_true, isVfsDir_iff_dirAt ht hnode]
        exact hdir
      refine ⟨owner, node, hdescend, ?_⟩
      unfold collectNode
      dsimp only
      rw [hfalse, hlast node hnode, hs]
      simp [haction, hid]

/-- The trees agree at and below whatever the module hides in the first. -/
def SameBelow (tree tree' : MountNode) (id : String) : Prop :=
  ∀ path s, s ∈ heard tree path → s.moduleId = id → s.Solid →
    ∀ rest, heard tree (path ++ rest) = heard tree' (path ++ rest)

theorem dirAt_congr (h : ∀ rest, heard tree (path ++ rest) = heard tree' (path ++ rest)) : DirAt tree path ↔
    DirAt tree' path := by
  have hhere := h []
  rw [List.append_nil] at hhere
  simp only [DirAt, hhere, h]

theorem claimAt_source (h : claimAt tree path = some id) :
    ∃ s ∈ heard tree path, s.moduleId = id ∧ s.Solid := by
  obtain ⟨s, hs, hid⟩ := Option.bind_eq_some_iff.mp h
  by_cases hreplace : s.replace = true
  · rw [if_pos hreplace] at hid
    exact ⟨s, List.mem_of_head? hs, Option.some.inj hid, .inr hreplace⟩
  · rw [if_neg hreplace] at hid
    cases hid

/-- A rule of the module in one tree is one of the other. -/
theorem SameBelow.keeps (ht : tree.Ordered compare) (ht' : tree'.Ordered compare)
    (h : SameBelow tree tree' rule.moduleId)
    (hrule : rule ∈ buildVfsRules tree) : rule ∈ buildVfsRules tree' := by
  rw [mem_rules_iff ht']
  rcases (mem_rules_iff ht).mp hrule with ⟨hdir, haction, above, habove, hclaim, hbetween⟩ |
    ⟨hdir, s, hs, haction, hid⟩
  · obtain ⟨s, hs, hid, hsolid⟩ := claimAt_source hclaim
    have hsame := h above s hs hid hsolid
    have hclaims : ∀ q, above <+: q → claimAt tree q = claimAt tree' q := by
      rintro q ⟨rest, rfl⟩
      rw [claimAt, hsame rest, claimAt]
    obtain ⟨rest, hrest⟩ := habove
    refine .inl ⟨?_, haction, above, ⟨rest, hrest⟩, (hclaims above (List.prefix_refl _)) ▸ hclaim,
      fun between hlow hhigh hne => ?_⟩
    · refine (dirAt_congr fun below => ?_).mp hdir
      rw [← hrest, List.append_assoc]
      exact hsame _
    · rw [← hclaims between hlow]
      exact hbetween between hlow hhigh hne
  · have hmem := List.mem_reverse.mp (List.mem_of_find?_eq_some hs)
    have hkind : s.fileType ≠ .directory := by simpa using List.find?_some hs
    have hsame := h _ s hmem hid (.inl hkind)
    have hhere := hsame []
    rw [List.append_nil] at hhere
    exact .inr ⟨fun hdir' => hdir ((dirAt_congr hsame).mpr hdir'), s, hhere ▸ hs, haction, hid⟩

end Rules

section Modules

/-- Ordering a list by a total order and leaving elements out of it commute. -/
theorem filter_orderedInsert {α : Type} {r : α → α → Prop} [DecidableRel r] [IsTrans α r] (p : α → Bool)
    (a : α) {l : List α}
    (hl : l.Pairwise r) : (l.orderedInsert r a).filter p = if p a then (l.filter p).orderedInsert r a
      else l.filter p := by
  induction l with
  | nil =>
    by_cases ha : p a = true
    · simp [ha]
    · simp [ha]
  | cons b l ih =>
    obtain ⟨hb, hl⟩ := List.pairwise_cons.mp hl
    by_cases hab : r a b
    · rw [List.orderedInsert_cons_of_le r l hab, List.filter_cons]
      by_cases ha : p a = true
      · rw [if_pos ha, if_pos ha]
        cases hrest : (b :: l).filter p with
        | nil => rfl
        | cons c rest =>
          have hc : c ∈ b :: l := List.mem_of_mem_filter (hrest ▸ List.mem_cons_self)
          have hac : r a c := by
            rcases List.mem_cons.mp hc with rfl | hc
            · exact hab
            · exact IsTrans.trans _ _ _ hab (hb c hc)
          rw [List.orderedInsert_cons_of_le r rest hac]
      · rw [if_neg ha, if_neg ha]
    · rw [List.orderedInsert_of_not_le r l hab, List.filter_cons, ih hl, List.filter_cons]
      by_cases hpb : p b = true
      · simp only [hpb, if_true]
        by_cases ha : p a = true
        · simp only [ha, if_true, List.orderedInsert_of_not_le r _ hab]
        · simp only [ha, Bool.false_eq_true, if_false]
      · simp only [hpb, Bool.false_eq_true, if_false]

theorem filter_insertionSort {α : Type} {r : α → α → Prop} [DecidableRel r] [Std.Total r] [IsTrans α r]
    (p : α → Bool) (l : List α) :
    (l.insertionSort r).filter p = (l.filter p).insertionSort r := by
  induction l with
  | nil => rfl
  | cons a l ih =>
    rw [List.insertionSort_cons, filter_orderedInsert p a (List.pairwise_insertionSort r l), ih,
      List.filter_cons]
    by_cases ha : p a = true
    · simp only [ha, if_true, List.insertionSort_cons]
    · simp only [ha, Bool.false_eq_true, if_false]

/-- What a module contributes for VFS. -/
def vfsDecisions (input : PlanInput) (m : ModuleRecord) : List EntryDecision :=
  (decisions m (input.rulesOf m) input.layout).filter fun d => d.mode = .vfs

/-- Where a decision's source is in the tree. -/
def PlanInput.place (input : PlanInput) (d : EntryDecision) : Names := targetComponents (input.target d)

/-- Nothing of the one module stands at or below what the other hides. -/
def Clear (input : PlanInput) (m n : ModuleRecord) : Prop :=
  ∀ d ∈ vfsDecisions input m, (sourceOf m d).Solid → ∀ e ∈ vfsDecisions input n,
    ¬ input.place d <+: input.place e

instance (input : PlanInput) (m n : ModuleRecord) : Decidable (Clear input m n) :=
    inferInstanceAs (Decidable (∀ d ∈ vfsDecisions input m,
  (sourceOf m d).Solid → ∀ e ∈ vfsDecisions input n, ¬ input.place d <+: input.place e))

/-- The module has no VFS source at the path. -/
def Silent (input : PlanInput) (m : ModuleRecord) (path : Names) : Prop :=
    ∀ d ∈ vfsDecisions input m, input.place d ≠ path

theorem heard_insert {target : Names} {source : MountSource} (h : Sorted tree) :
    heard (MountTree.insert tree target source) path =
    if path = targetComponents target ∧ source.backend = .vfs
      then (heard tree path ++ [source]).insertionSort SourceLe
    else heard tree path := by
  have hsort : ∀ l : List MountSource, l.insertionSort (fun left right => sourceOrder left right ≠ .gt) =
      l.insertionSort SourceLe :=
    fun _ => rfl
  rw [heard, MountTree.sourcesAt_insert]
  by_cases hpath : path = targetComponents target
  · rw [if_pos hpath, hsort, filter_insertionSort, List.filter_append]
    by_cases hbackend : source.backend = .vfs
    · rw [if_pos ⟨hpath, hbackend⟩]
      simp [heard, hbackend]
    · rw [if_neg (fun hh => hbackend hh.2)]
      simp only [List.filter_cons, hbackend, decide_false, Bool.false_eq_true, if_false, List.filter_nil,
        List.append_nil]
      rw [List.Pairwise.insertionSort_eq ((h path).filter _), heard]
  · rw [if_neg hpath, if_neg (fun hh => hpath hh.1), heard]

theorem heard_insert_congr {target : Names} {source : MountSource} (h : Sorted tree) (h' : Sorted tree')
    (heq : heard tree path = heard tree' path) :
    heard (MountTree.insert tree target source) path = heard (MountTree.insert tree' target source) path := by
  rw [heard_insert h, heard_insert h', heq]

theorem Sorted.insertModule (h : Sorted tree) (m : ModuleRecord) : Sorted (insertModule input tree m) :=
  Sorted.insertModules h [m]

theorem heard_insertModule_congr (h : Sorted tree) (h' : Sorted tree')
    (heq : heard tree path = heard tree' path) :
    heard (insertModule input tree m) path = heard (insertModule input tree' m) path := by
  unfold insertModule
  induction decisions m (input.rulesOf m) input.layout generalizing tree tree' with
  | nil => exact heq
  | cons d rest ih => exact ih h.insert h'.insert (heard_insert_congr h h' heq)

theorem heard_insertModule_silent (h : Sorted tree) (hm : Silent input m path) :
    heard (insertModule input tree m) path = heard tree path := by
  have hstep : ∀ (chosen : List EntryDecision) (tree : MountNode),
      chosen ⊆ decisions m (input.rulesOf m) input.layout → Sorted tree →
      heard (chosen.foldl (insertDecision m input.layout) tree) path = heard tree path := by
    intro chosen
    induction chosen with
    | nil => exact fun _ _ _ => rfl
    | cons d rest ih =>
      intro tree hsub h
      refine (ih _ (List.subset_of_cons_subset hsub) h.insert).trans ?_
      rw [heard_insert h, if_neg]
      rintro ⟨hpath, hmode⟩
      exact hm d (List.mem_filter.mpr ⟨hsub List.mem_cons_self, by simpa [sourceOf] using hmode⟩) hpath.symm
  exact hstep _ _ (List.Subset.refl _) h

theorem sorted_root : Sorted MountTree.root := by
  intro path
  rw [sourcesAt_root]
  exact .nil

/-- Modules which are silent at a path may be left out. -/
theorem heard_filter {p : ModuleRecord → Bool} (hsilent : ∀ n ∈ modules, p n = false → Silent input n path)
    (h : Sorted tree) (h' : Sorted tree') (heq : heard tree path = heard tree' path) :
    heard (modules.foldl (insertModule input) tree) path = heard
      ((modules.filter p).foldl (insertModule input) tree') path := by
  induction modules generalizing tree tree' with
  | nil => exact heq
  | cons m rest ih =>
    have hrest : ∀ n ∈ rest, p n = false → Silent input n path :=
      fun n hn => hsilent n (List.mem_cons_of_mem _ hn)
    rw [List.foldl_cons]
    cases hp : p m with
    | true =>
      rw [List.filter_cons_of_pos hp, List.foldl_cons]
      exact ih hrest (h.insertModule m) (h'.insertModule m) (heard_insertModule_congr h h' heq)
    | false =>
      rw [List.filter_cons_of_neg (by simp [hp])]
      exact ih hrest (h.insertModule m) h'
        ((heard_insertModule_silent h (hsilent m List.mem_cons_self hp)).trans heq)

/-- Modules in the order of their ids. -/
def IdLe (left right : ModuleRecord) : Prop := compare left.id right.id ≠ .gt

instance : DecidableRel IdLe := fun left right => inferInstanceAs (Decidable (compare left.id right.id ≠ .gt))

instance : Std.Total IdLe where
  total a b := by
    unfold IdLe
    rw [@Std.OrientedCmp.eq_swap String compare _ b.id a.id]
    cases compare a.id b.id with
    | lt => simp
    | eq => simp
    | gt => simp

instance : IsTrans ModuleRecord IdLe where
  trans a b c hab hbc := by
    unfold IdLe at *
    simp only [Ordering.ne_gt_iff_isLE] at *
    exact Std.TransCmp.isLE_trans hab hbc

theorem planned_filter (input : PlanInput) (p : ModuleRecord → Bool) : input.planned.filter p =
    (input.modules.filter fun m => p m &&
      (m.mountable && !input.config.isModuleBlacklisted m.id)).insertionSort IdLe := by
  rw [PlanInput.planned, List.filter_filter]
  exact @filter_insertionSort _ IdLe _ _ _ _ _

end Modules

section Shares

theorem mem_heard_plan (h : planModules input = .ok builder) : s ∈ heard builder.tree path ↔
    ∃ m ∈ input.planned, ∃ d ∈ vfsDecisions input m, s = sourceOf m d ∧ path = input.place d := by
  rw [heard, List.mem_filter, mem_plan_tree h]
  constructor
  · rintro ⟨⟨m, d, ⟨hm, hd⟩, rfl, hpath⟩, hmode⟩
    exact ⟨m, hm, d, List.mem_filter.mpr ⟨hd, hmode⟩, rfl, hpath⟩
  · rintro ⟨m, hm, d, hd, rfl, hpath⟩
    obtain ⟨hd, hmode⟩ := List.mem_filter.mp hd
    exact ⟨⟨m, d, ⟨hm, hd⟩, rfl, hpath⟩, hmode⟩

theorem rule_contribution (h : planModules input = .ok builder) (hrule : rule ∈ buildVfsRules builder.tree) :
    ∃ m ∈ input.planned, ∃ d ∈ vfsDecisions input m, (sourceOf m d).Solid ∧ m.id = rule.moduleId := by
  have hsource : ∃ q, ∃ s ∈ heard builder.tree q, s.moduleId = rule.moduleId ∧ s.Solid := by
    rcases (mem_rules_iff (ordered_plan_tree h)).mp hrule
      with ⟨-, -, above, -, hclaim, -⟩ | ⟨-, s, hs, -, hid⟩
    · exact ⟨above, claimAt_source hclaim⟩
    · have hkind : s.fileType ≠ .directory := by simpa using List.find?_some hs
      exact ⟨_, s, List.mem_reverse.mp (List.mem_of_find?_eq_some hs), hid, .inl hkind⟩
  obtain ⟨q, s, hs, hid, hsolid⟩ := hsource
  obtain ⟨m, hm, d, hd, rfl, -⟩ := (mem_heard_plan h).mp hs
  exact ⟨m, hm, d, hd, hsolid, hid⟩

theorem rule_above (h : planModules input = .ok builder) (hrule : rule ∈ buildVfsRules builder.tree) :
    ∃ m ∈ input.planned, ∃ d ∈ vfsDecisions input m, rule.action.virtualPath <+: input.place d := by
  have hsource : ∃ rest, ∃ s, s ∈ heard builder.tree (rule.action.virtualPath ++ rest) := by
    rcases (mem_rules_iff (ordered_plan_tree h)).mp hrule with ⟨hdir, -⟩ | ⟨-, s, hs, -⟩
    · rcases hdir with ⟨first, hfirst, -⟩ | ⟨rest, -, hne⟩
      · exact ⟨[], first, by simpa using List.mem_of_head? hfirst⟩
      · exact ⟨rest, List.exists_mem_of_ne_nil _ hne⟩
    · exact ⟨[], s, by simpa using List.mem_reverse.mp (List.mem_of_find?_eq_some hs)⟩
  obtain ⟨rest, s, hs⟩ := hsource
  obtain ⟨m, hm, d, hd, -, hpath⟩ := (mem_heard_plan h).mp hs
  exact ⟨m, hm, d, hd, rest, hpath⟩

theorem heard_share {p : ModuleRecord → Bool} (h : planModules input = .ok builder)
    (hclear : ∀ n ∈ input.planned, p n = false → Clear input m n) {d : EntryDecision}
    (hd : d ∈ vfsDecisions input m)
    (hsolid : (sourceOf m d).Solid) (rest : Names) :
    heard builder.tree (input.place d ++ rest) =
      heard ((input.planned.filter p).foldl (insertModule input) MountTree.root) (input.place d ++ rest) := by
  rw [planModules_tree h]
  refine heard_filter (fun n hn hp e he heq => ?_) sorted_root sorted_root rfl
  exact hclear n hn hp d hd hsolid e he ⟨rest, heq.symm⟩

theorem share_mono {modules' : List ModuleRecord} {p : ModuleRecord → Bool}
    (h : planModules input = .ok builder)
    (h' : planModules { input with modules := modules' } = .ok builder')
    (hsame : input.planned.filter p = ({ input with modules := modules' } : PlanInput).planned.filter p)
    (hclear : ∀ m ∈ input.planned, m.id = rule.moduleId → ∀ n ∈ input.planned, p n = false → Clear input m n)
    (hclear' : ∀ m ∈ input.planned, m.id = rule.moduleId →
      ∀ n ∈ ({ input with modules := modules' } : PlanInput).planned, p n = false → Clear input m n)
    (hrule : rule ∈ buildVfsRules builder.tree) : rule ∈ buildVfsRules builder'.tree := by
  refine SameBelow.keeps (ordered_plan_tree h) (ordered_plan_tree h')
    (fun path s hs hsid hsolid rest => ?_) hrule
  obtain ⟨m, hm, d, hd, rfl, rfl⟩ := (mem_heard_plan h).mp hs
  rw [heard_share h (hclear m hm hsid) hd hsolid, hsame]
  exact (heard_share h' (hclear' m hm hsid) hd hsolid rest).symm

theorem processModule_vfs {b b' : PlanBuilder}
    (h : processModule m (input.rulesOf m) input.layout b = .ok b') :
    id ∈ b'.vfsModuleIds.keys ↔ id ∈ b.vfsModuleIds.keys ∨ m.id = id ∧ vfsDecisions input m ≠ [] := by
  obtain ⟨registered, hregister, hoverlays⟩ := Fallible.bind_ok h
  have hkept : registered.vfsModuleIds = b.vfsModuleIds :=
    (registered_all_view (v := PlanBuilder.vfsModuleIds) (fun _ _ _ => rfl) hregister).trans
      (noted_view (v := PlanBuilder.vfsModuleIds) fun _ _ => rfl)
  have hsteady : OverlaySteady fun b' => b'.vfsModuleIds = registered.vfsModuleIds :=
    .of_view (fun _ _ _ _ _ => rfl) fun _ _ _ _ => rfl
  rw [← hkept]
  rcases hsteady.addOverlays hoverlays rfl with ⟨hwhole, hb'⟩ | ⟨mid, hmid, rfl⟩
  · have hnone : vfsDecisions input m = [] := by
      simp only [isWholeOverlay, Bool.and_eq_true, List.all_eq_true, decide_eq_true_eq] at hwhole
      refine List.filter_eq_nil_iff.mpr fun d hd => ?_
      simp [hwhole.1 d hd]
    simp [hb', hnone]
  · have hmagic : (collectMagic m (decisions m (input.rulesOf m) input.layout) mid).vfsModuleIds =
        registered.vfsModuleIds := by
      unfold collectMagic
      split
      · exact hmid
      · exact hmid
    have hany : ((decisions m (input.rulesOf m) input.layout).any fun d => d.mode = .vfs) = true ↔
        vfsDecisions input m ≠ [] := by
      simp [vfsDecisions]
    unfold collectVfs
    split
    · rename_i hsome
      rw [OrderedMap.Map.mem_keys_add, hmagic, or_comm]
      simp [hany.mp hsome, eq_comm]
    · rename_i hnone
      rw [hmagic]
      simp [not_not.mp (fun hh => hnone (hany.mpr hh))]

theorem mem_vfsModuleIds (h : planModules input = .ok builder) :
    id ∈ builder.vfsModuleIds.keys ↔ ∃ m ∈ input.planned, m.id = id ∧ vfsDecisions input m ≠ [] := by
  refine Fallible.foldlM_invariant
    (fun done b => id ∈ b.vfsModuleIds.keys ↔ ∃ m ∈ done, m.id = id ∧ vfsDecisions input m ≠ [])
      ?_ h (by simp)
  intro done m b b' hb hstep
  rw [processModule_vfs hstep, hb]
  simp only [List.mem_append, List.mem_singleton, or_and_right, exists_or, exists_eq_left]

end Shares

end HybridMount.Plan
