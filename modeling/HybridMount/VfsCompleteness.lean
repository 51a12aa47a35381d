import HybridMount.PlanConflicts
import HybridMount.VfsRules

/-! Which of the VFS sources of a tree are heard when its rules are built. -/

namespace HybridMount.Plan

/-- A source of VFS at a node. -/
def VfsAt (node : MountNode) (p : MountSource → Prop) : Prop :=
    ∃ s ∈ node.value.sources, s.backend = .vfs ∧ p s

/-- Something of VFS stands strictly below a node. -/
def VfsBelow (node : MountNode) : Prop :=
  ∃ rest below, rest ≠ [] ∧ node.find compare rest = some below ∧ VfsAt below fun _ => True

/-- A directory of VFS, by a source of its own or for what it holds. -/
def VfsDirectory (node : MountNode) : Prop := VfsAt node (fun s => s.fileType = .directory) ∨ VfsBelow node

/-- A module replaces the directory. -/
def VfsReplaced (node : MountNode) : Prop := VfsAt node fun s => s.fileType = .directory ∧ s.replace = true

/-- The rules of a tree: one for a target at most, every file and every replaced directory has its
own, and there are no others. -/
structure RulesComplete (tree : MountNode) : Prop where
  unique : ((buildVfsRules tree).map fun rule => rule.action.virtualPath).Nodup
  payload : ∀ path node, tree.find compare path = some node → VfsAt node (fun s => s.fileType ≠ .directory) →
    ∃ rule ∈ buildVfsRules tree, rule.action.virtualPath = path ∧
      (∀ other ∈ buildVfsRules tree, other.action.virtualPath = path → other = rule) ∧
        VfsAt node fun s => actionFor path s = some rule.action ∧ s.moduleId = rule.moduleId
  replaced : ∀ path node, tree.find compare path = some node → VfsReplaced node →
    ∀ rest below, node.find compare rest = some below → VfsDirectory below →
      ∃ moduleId, ⟨.opaqueDir (path ++ rest), moduleId⟩ ∈ buildVfsRules tree
  confined : ∀ rule ∈ buildVfsRules tree, ∃ node, tree.find compare rule.action.virtualPath = some node ∧
    (VfsAt node (fun _ => True) ∨
      ∃ above n, above <+: rule.action.virtualPath ∧ tree.find compare above = some n ∧ VfsReplaced n)

/-- Where modules disagree, the first source is the one they would all have followed. -/
structure FirstDecides (tree : MountNode) : Prop where
  /-- No directory comes first at, and nothing stands below, what a module has as a file. -/
  files : ∀ path node first, tree.find compare path = some node → MountNode.sourceFor node .vfs = some first →
    VfsAt node (fun s => s.fileType ≠ .directory) → first.fileType ≠ .directory ∧ ¬ VfsBelow node
  /-- A replaced directory has a first source that replaces, there or above. -/
  owners : ∀ path node, tree.find compare path = some node → VfsReplaced node →
    ∃ above n, above <+: path ∧ tree.find compare above = some n ∧ n.value.replaceFor .vfs = true
  /-- In a replaced directory directories come first. -/
  directories : ∀ path node, tree.find compare path = some node → VfsReplaced node →
    ∀ rest below first, node.find compare rest = some below → MountNode.sourceFor below .vfs = some first →
      VfsAt below (fun s => s.fileType = .directory) → first.fileType = .directory

variable {tree node n below : MountNode} {path rest current : Names} {rule : VfsRule}
  {first source s : MountSource}
  {owner owner' : Option String} {p : MountSource → Prop}

theorem VfsAt.mono {p' : MountSource → Prop} (h : VfsAt node p) (hp : ∀ s, p s → p' s) : VfsAt node p' := by
  obtain ⟨s, hs, hbackend, hps⟩ := h
  exact ⟨s, hs, hbackend, hp s hps⟩

theorem sourceFor_vfsAt (h : MountNode.sourceFor node .vfs = some first) (hp : p first) : VfsAt node p :=
  ⟨first, List.mem_of_find?_eq_some h, by simpa using List.find?_some h, hp⟩

theorem VfsAt.sourceFor (h : VfsAt node p) : ∃ first, MountNode.sourceFor node .vfs = some first := by
  obtain ⟨s, hs, hbackend, -⟩ := h
  cases hfirst : MountNode.sourceFor node .vfs with
  | some first => exact ⟨first, rfl⟩
  | none =>
    have hh := List.find?_eq_none.mp hfirst s hs
    simp [hbackend] at hh

theorem hasBackend_vfs (ht : node.Ordered compare) :
    MountNode.hasBackend node .vfs = true ↔ ∃ rest below, node.find compare rest = some below ∧
    VfsAt below fun _ => True := by
  rw [MountNode.hasBackend, Trie.any_find ht]
  constructor
  · rintro ⟨rest, below, hfind, hsome⟩
    obtain ⟨first, hfirst⟩ := Option.isSome_iff_exists.mp hsome
    exact ⟨rest, below, hfind, sourceFor_vfsAt hfirst trivial⟩
  · rintro ⟨rest, below, hfind, hat⟩
    obtain ⟨first, hfirst⟩ := hat.sourceFor
    exact ⟨rest, below, hfind, Option.isSome_iff_exists.mpr ⟨first, hfirst⟩⟩

theorem children_vfs (ht : node.Ordered compare) :
    (node.children.any fun child => MountNode.hasBackend child.2 .vfs) = true ↔ VfsBelow node := by
  obtain ⟨hs, hc⟩ := ht
  rw [List.any_eq_true]
  constructor
  · rintro ⟨child, hchild, hbackend⟩
    obtain ⟨rest, below, hfind, hat⟩ := (hasBackend_vfs (hc child hchild)).mp hbackend
    exact ⟨child.1 :: rest, below, by simp, by simp [Trie.find, OrderedMap.get_of_mem hs hchild, hfind], hat⟩
  · rintro ⟨rest, below, hne, hfind, hat⟩
    cases rest with
    | nil => exact absurd rfl hne
    | cons name rest =>
      cases hget : OrderedMap.get compare name node.children with
      | none => simp [Trie.find, hget] at hfind
      | some child =>
        simp only [Trie.find, hget, Option.bind_some] at hfind
        have hmem := OrderedMap.get_mem hget
        exact ⟨(name, child), hmem, (hasBackend_vfs (hc _ hmem)).mpr ⟨rest, below, hfind, hat⟩⟩

theorem isVfsDir_iff (ht : node.Ordered compare) :
    isVfsDir node = true ↔
    (∃ first, MountNode.sourceFor node .vfs = some first ∧ first.fileType = .directory) ∨ VfsBelow node := by
  rw [isVfsDir, Bool.or_eq_true, children_vfs ht]
  simp [Option.any_eq_true]

theorem owner_isSome :
    (collectNode owner current node).2.isSome = (owner.isSome || node.value.replaceFor .vfs) := by
  unfold collectNode Contributions.replaceFor
  simp only [MountNode.sourceFor]
  cases hfirst : node.value.sourceFor .vfs with
  | none => simp
  | some first =>
    by_cases hreplace : first.replace = true
    · simp [hreplace]
    · simp [hreplace]

theorem mem_collectNode (h : rule ∈ (collectNode owner current node).1) :
    (isVfsDir node = true ∧ rule.action = .opaqueDir current ∧ (collectNode owner current node).2 =
      some rule.moduleId) ∨
      isVfsDir node = false ∧ ∃ s, node.value.sources.reverse.find?
        (fun source => source.backend = .vfs && source.fileType ≠ .directory) = some s ∧
          actionFor current s = some rule.action ∧ s.moduleId = rule.moduleId := by
  unfold collectNode at h ⊢
  dsimp only at h ⊢
  split at h
  · rename_i hdir
    simp only [Option.mem_toList, Option.map_eq_some_iff] at h
    obtain ⟨moduleId, howner, rfl⟩ := h
    exact .inl ⟨hdir, rfl, howner⟩
  · rename_i hdir
    split at h
    · rename_i s hlast
      simp only [Option.mem_toList, Option.map_eq_some_iff] at h
      obtain ⟨action, haction, rfl⟩ := h
      exact .inr ⟨by simpa using hdir, s, hlast, haction, rfl⟩
    · cases h

theorem actionFor_path {action : VfsAction} (h : actionFor current s = some action) :
    action.virtualPath = current := by
  unfold actionFor at h
  split at h
  · cases h
    rfl
  · cases h
    rfl
  · cases h
    rfl
  · cases h

theorem actionFor_ne_opaqueDir : actionFor current s ≠ some (.opaqueDir path) := by
  unfold actionFor
  split
  · simp
  · simp
  · simp
  · simp

theorem collectNode_path (h : rule ∈ (collectNode owner current node).1) :
    rule.action.virtualPath = current := by
  rcases mem_collectNode h with ⟨-, haction, -⟩ | ⟨-, s, -, haction, -⟩
  · rw [haction]
    rfl
  · exact actionFor_path haction

theorem collectNode_length : (collectNode owner current node).1.length ≤ 1 := by
  have hone : ∀ o : Option VfsRule, o.toList.length ≤ 1 := fun o => by cases o <;> simp
  unfold collectNode
  dsimp only
  split
  · exact hone _
  · split
    · exact hone _
    · simp

theorem buildVfsRules_nodup (ht : tree.Ordered compare) :
    ((buildVfsRules tree).map fun rule => rule.action.virtualPath).Nodup :=
  Trie.nodup_collect (fun _ _ _ _ h => collectNode_path h) (fun _ _ _ => collectNode_length) ht

theorem mem_buildVfsRules (ht : tree.Ordered compare) : rule ∈ buildVfsRules tree ↔
    ∃ owner node, Trie.descend compare collectNode none [] rule.action.virtualPath tree = some (owner, node) ∧
      rule ∈ (collectNode owner rule.action.virtualPath node).1 := by
  rw [buildVfsRules, Trie.mem_collect_descend ht]
  constructor
  · rintro ⟨q, owner, node, hdescend, hrule⟩
    rw [List.nil_append] at hrule
    obtain rfl := collectNode_path hrule
    exact ⟨owner, node, hdescend, hrule⟩
  · rintro ⟨owner, node, hdescend, hrule⟩
    exact ⟨_, owner, node, hdescend, by simpa using hrule⟩

/-- The owner comes down from the first sources on the way. -/
theorem descend_owner (h : Trie.descend compare collectNode owner current path tree = some (owner', node)) :
    (collectNode owner' (current ++ path) node).2.isSome = true ↔
      owner.isSome = true ∨ ∃ above n, above <+: path ∧ tree.find compare above = some n ∧
        n.value.replaceFor .vfs = true := by
  induction path generalizing tree owner current with
  | nil =>
    cases h
    rw [owner_isSome, Bool.or_eq_true]
    apply or_congr_right
    constructor
    · exact fun hreplace => ⟨[], _, List.nil_prefix, rfl, hreplace⟩
    · rintro ⟨above, n, habove, hfind, hreplace⟩
      rw [List.prefix_nil.mp habove] at hfind
      cases hfind
      exact hreplace
  | cons name rest ih =>
    cases hget : OrderedMap.get compare name tree.children with
    | none => simp [Trie.descend, hget] at h
    | some child =>
      simp only [Trie.descend, hget, Option.bind_some] at h
      have hh := ih h
      rw [List.append_assoc, List.singleton_append] at hh
      rw [hh, owner_isSome, Bool.or_eq_true, or_assoc]
      apply or_congr_right
      constructor
      · rintro (hreplace | ⟨above, n, habove, hfind, hreplace⟩)
        · exact ⟨[], tree, List.nil_prefix, rfl, hreplace⟩
        · exact ⟨name :: above, n, (List.prefix_cons_inj name).mpr habove, by simp [Trie.find, hget, hfind],
            hreplace⟩
      · rintro ⟨above, n, habove, hfind, hreplace⟩
        rcases List.prefix_cons_iff.mp habove with rfl | ⟨rest', rfl, hrest⟩
        · cases hfind
          exact .inl hreplace
        · simp only [Trie.find, hget, Option.bind_some] at hfind
          exact .inr ⟨rest', n, hrest, hfind, hreplace⟩

/-- Does a first source on the way to a path replace its directory? -/
def Owned (tree : MountNode) (path : Names) : Prop :=
  ∃ above n, above <+: path ∧ tree.find compare above = some n ∧ n.value.replaceFor .vfs = true

theorem opaque_iff (ht : tree.Ordered compare) (hnode : tree.find compare path = some node) :
    (∃ moduleId, ⟨.opaqueDir path, moduleId⟩ ∈ buildVfsRules tree) ↔
    isVfsDir node = true ∧ Owned tree path := by
  constructor
  · rintro ⟨moduleId, hrule⟩
    obtain ⟨owner, node', hdescend, hrule⟩ := (mem_buildVfsRules ht).mp hrule
    obtain rfl := Option.some.inj (hnode.symm.trans (Trie.descend_find hdescend))
    rcases mem_collectNode hrule with ⟨hdir, -, howner⟩ | ⟨-, s, -, haction, -⟩
    · have hsome := (descend_owner hdescend).mp (by rw [List.nil_append, howner]; rfl)
      exact ⟨hdir, by simpa [Owned, VfsAction.virtualPath] using hsome⟩
    · exact absurd haction actionFor_ne_opaqueDir
  · rintro ⟨hdir, howned⟩
    obtain ⟨owner, hdescend⟩ := Trie.exists_descend collectNode none [] hnode
    have hsome := (descend_owner hdescend).mpr (.inr howned)
    rw [List.nil_append] at hsome
    obtain ⟨moduleId, howner⟩ := Option.isSome_iff_exists.mp hsome
    refine ⟨moduleId, (mem_buildVfsRules ht).mpr ⟨owner, node, hdescend, ?_⟩⟩
    unfold collectNode at howner ⊢
    dsimp only at howner ⊢
    rw [if_pos hdir, howner]
    simp [VfsAction.virtualPath]

/-- A node which is no directory has the rule of its last source. -/
theorem payload_of_last (ht : tree.Ordered compare) (hnode : tree.find compare path = some node)
    (hdir : isVfsDir node = false)
    (hat : VfsAt node fun s => s.fileType ≠ .directory) :
    ∃ rule ∈ buildVfsRules tree, rule.action.virtualPath = path ∧
      VfsAt node fun s => actionFor path s = some rule.action ∧ s.moduleId = rule.moduleId := by
  obtain ⟨s, hs, hbackend, htype⟩ := hat
  cases hlast : node.value.sources.reverse.find?
    (fun source => source.backend = .vfs && source.fileType ≠ .directory) with
  | none =>
    have hh := List.find?_eq_none.mp hlast s (List.mem_reverse.mpr hs)
    simp [hbackend, htype] at hh
  | some last =>
    have hmem := List.mem_reverse.mp (List.mem_of_find?_eq_some hlast)
    have hkind := List.find?_some hlast
    simp only [ne_eq, decide_not, Bool.and_eq_true, decide_eq_true_eq, Bool.not_eq_true',
      decide_eq_false_iff_not] at hkind
    obtain ⟨action, haction⟩ : ∃ action, actionFor path last = some action := by
      unfold actionFor
      cases htype' : last.fileType with
      | directory => exact absurd htype' hkind.2
      | regularFile => exact ⟨_, rfl⟩
      | symlink => exact ⟨_, rfl⟩
      | whiteout => exact ⟨_, rfl⟩
    have hpath := actionFor_path haction
    obtain ⟨owner, hdescend⟩ := Trie.exists_descend collectNode none [] hnode
    refine ⟨⟨action, last.moduleId⟩, (mem_buildVfsRules ht).mpr ⟨owner, node, ?_, ?_⟩, hpath, last, hmem,
      hkind.1, haction, rfl⟩
    · rw [hpath]
      exact hdescend
    · unfold collectNode
      dsimp only
      rw [hdir, hlast, hpath]
      simp [haction]

theorem find_below (hnode : tree.find compare path = some node)
    (hbelow : node.find compare rest = some below) :
    tree.find compare (path ++ rest) = some below := by
  rw [Trie.find_append, hnode, Option.bind_some, hbelow]

theorem FirstDecides.complete (ht : tree.Ordered compare) (h : FirstDecides tree) : RulesComplete tree := by
  have hfile : ∀ path node, tree.find compare path = some node →
      VfsAt node (fun s => s.fileType ≠ .directory) →
      isVfsDir node = false := by
    intro path node hnode hat
    obtain ⟨first, hfirst⟩ := hat.sourceFor
    obtain ⟨htype, hbelow⟩ := h.files path node first hnode hfirst hat
    rw [← Bool.not_eq_true, isVfsDir_iff (ht.find hnode)]
    rintro (⟨first', hfirst', htype'⟩ | hbelow')
    · obtain rfl := Option.some.inj (hfirst.symm.trans hfirst')
      exact htype htype'
    · exact hbelow hbelow'
  refine ⟨buildVfsRules_nodup ht, ?_, ?_, ?_⟩
  · intro path node hnode hat
    obtain ⟨rule, hrule, hpath, hcarries⟩ := payload_of_last ht hnode (hfile path node hnode hat) hat
    refine ⟨rule, hrule, hpath, ?_, hcarries⟩
    intro other hother hpath'
    exact List.inj_on_of_nodup_map (buildVfsRules_nodup ht) hother hrule (hpath'.trans hpath.symm)
  · intro path node hnode hreplaced rest below hbelow hdirectory
    have hfind := find_below hnode hbelow
    apply (opaque_iff ht hfind).mpr
    constructor
    · apply (isVfsDir_iff (ht.find hfind)).mpr
      rcases hdirectory with hat | hdown
      · obtain ⟨first, hfirst⟩ := hat.sourceFor
        exact .inl ⟨first, hfirst, h.directories path node hnode hreplaced rest below first hbelow hfirst hat⟩
      · exact .inr hdown
    · obtain ⟨above, n, habove, hfind', hreplace⟩ := h.owners path node hnode hreplaced
      exact ⟨above, n, habove.trans (List.prefix_append path rest), hfind', hreplace⟩
  · intro rule hrule
    obtain ⟨owner, node, hdescend, hnode⟩ := (mem_buildVfsRules ht).mp hrule
    have hfind := Trie.descend_find hdescend
    refine ⟨node, hfind, ?_⟩
    rcases mem_collectNode hnode with ⟨hdir, -, howner⟩ | ⟨-, s, hlast, -, -⟩
    · have hsome := (descend_owner hdescend).mp (by rw [List.nil_append, howner]; rfl)
      simp only [Option.isSome_none, Bool.false_eq_true, false_or] at hsome
      obtain ⟨above, n, habove, hn, hreplace⟩ := hsome
      obtain ⟨first, hfirst, hreplace⟩ := (Option.any_eq_true _ _).mp hreplace
      by_cases htype : first.fileType = .directory
      · exact .inr ⟨above, n, habove, hn, sourceFor_vfsAt hfirst ⟨htype, hreplace⟩⟩
      · -- A first source that is no directory has nothing of VFS below it, so this is its own node.
        obtain ⟨-, hempty⟩ := h.files above n first hn hfirst (sourceFor_vfsAt hfirst htype)
        obtain ⟨rest, hrest⟩ := habove
        rw [← hrest, Trie.find_append, hn, Option.bind_some] at hfind
        cases rest with
        | nil =>
          cases hfind
          exact .inl (sourceFor_vfsAt hfirst trivial)
        | cons name rest =>
          rcases (isVfsDir_iff ((ht.find hn).find hfind)).mp hdir
            with ⟨first', hfirst', -⟩ | ⟨rest', below, hne, hbelow, hat⟩
          · exact absurd ⟨_, node, by simp, hfind, sourceFor_vfsAt hfirst' trivial⟩ hempty
          · exact absurd ⟨(name :: rest) ++ rest', below, by simp, find_below hfind hbelow, hat⟩ hempty
    · have hkind := List.find?_some hlast
      simp only [Bool.and_eq_true, decide_eq_true_eq] at hkind
      exact .inl ⟨s, List.mem_reverse.mp (List.mem_of_find?_eq_some hlast), hkind.1, trivial⟩

theorem RulesComplete.firstDecides (ht : tree.Ordered compare) (h : RulesComplete tree) :
    FirstDecides tree := by
  have hfile : ∀ path node, tree.find compare path = some node →
      VfsAt node (fun s => s.fileType ≠ .directory) →
      isVfsDir node = false := by
    intro path node hnode hat
    obtain ⟨rule, hrule, hpath, -, s, -, -, haction, -⟩ := h.payload path node hnode hat
    obtain ⟨owner, node', hdescend, hmem⟩ := (mem_buildVfsRules ht).mp hrule
    rw [hpath] at hdescend hmem
    obtain rfl := Option.some.inj (hnode.symm.trans (Trie.descend_find hdescend))
    rcases mem_collectNode hmem with ⟨-, hcleared, -⟩ | ⟨hdir, -⟩
    · rw [hcleared] at haction
      exact absurd haction actionFor_ne_opaqueDir
    · exact hdir
  have hcleared : ∀ path node, tree.find compare path = some node → VfsReplaced node → ∀ rest below,
      node.find compare rest = some below → VfsDirectory below → isVfsDir below = true ∧
        Owned tree (path ++ rest) := by
    intro path node hnode hreplaced rest below hbelow hdirectory
    have hfind := find_below hnode hbelow
    exact (opaque_iff ht hfind).mp (h.replaced path node hnode hreplaced rest below hbelow hdirectory)
  have hfiles : ∀ path node first, tree.find compare path = some node →
      MountNode.sourceFor node .vfs = some first →
      VfsAt node (fun s => s.fileType ≠ .directory) → first.fileType ≠ .directory ∧ ¬ VfsBelow node := by
    intro path node first hnode hfirst hat
    have hdir := hfile path node hnode hat
    rw [← Bool.not_eq_true, isVfsDir_iff (ht.find hnode), not_or] at hdir
    exact ⟨fun htype => hdir.1 ⟨first, hfirst, htype⟩, hdir.2⟩
  refine ⟨hfiles, ?_, ?_⟩
  · intro path node hnode hreplaced
    have howned := (hcleared path node hnode hreplaced [] node rfl (.inl (hreplaced.mono fun _ hs => hs.1))).2
    rw [List.append_nil] at howned
    exact howned
  · intro path node hnode hreplaced rest below first hbelow hfirst hat
    have hdir := (hcleared path node hnode hreplaced rest below hbelow (.inl hat)).1
    have hfind := find_below hnode hbelow
    by_contra htype
    rw [hfile (path ++ rest) below hfind (sourceFor_vfsAt hfirst htype)] at hdir
    cases hdir

/-- The rules of an accepted plan are complete exactly when its trees leave the generator no choice. -/
theorem rules_complete_iff {input : PlanInput} {plan : MountPlan} (h : buildPlan input = .ok plan) :
    RulesComplete plan.tree ↔ FirstDecides plan.tree := by
  obtain ⟨builder, hfinished⟩ := buildPlan_finished h
  have ht : plan.tree.Ordered compare := hfinished.tree ▸ ordered_plan_tree hfinished.modules
  exact ⟨RulesComplete.firstDecides ht, FirstDecides.complete ht⟩

/-- The modules of VFS want the same of every target. -/
structure Agreed (input : PlanInput) : Prop where
  alike : ∀ m d m' d', Planned input m d → Planned input m' d' → d.mode = .vfs → d'.mode = .vfs →
    targetComponents (input.target d) = targetComponents (input.target d') →
      (d.entry.fileType = .directory ↔ d'.entry.fileType = .directory) ∧ d.entry.replace = d'.entry.replace
  files : ∀ m d m' d', Planned input m d → Planned input m' d' → d.mode = .vfs → d'.mode = .vfs →
    d.entry.fileType ≠ .directory →
    targetComponents (input.target d) <+: targetComponents (input.target d') →
      targetComponents (input.target d) = targetComponents (input.target d')

section

variable {input : PlanInput} {plan : MountPlan} {builder : PlanBuilder}

theorem VfsAt.planned (hmodules : planModules input = .ok builder)
    (hnode : builder.tree.find compare path = some node) (h : VfsAt node p) :
    ∃ m d, Planned input m d ∧ d.mode = .vfs ∧ targetComponents (input.target d) = path ∧
    p (sourceOf m d) := by
  obtain ⟨s, hs, hbackend, hp⟩ := h
  obtain ⟨m, d, hd, rfl, rfl⟩ := (mem_plan_tree hmodules).mp (mem_sourcesAt_find.mpr ⟨node, hnode, hs⟩)
  exact ⟨m, d, hd, hbackend, rfl, hp⟩

/-- Where no two modules disagree, every first source is one they all follow. -/
theorem Agreed.firstDecides (h : Agreed input) (hplan : buildPlan input = .ok plan) :
    FirstDecides plan.tree := by
  obtain ⟨builder, hmodules, htree, -⟩ := buildPlan_ok hplan
  rw [htree]
  have hfirst : ∀ p path node first, builder.tree.find compare path = some node →
      MountNode.sourceFor node .vfs = some first →
      VfsAt node p → ∃ s, p s ∧ (first.fileType = .directory ↔ s.fileType = .directory) ∧
        first.replace = s.replace := by
    intro p path node first hnode hsource hat
    obtain ⟨m, d, hd, hmode, hpath, hp⟩ := hat.planned hmodules hnode
    obtain ⟨m', d', hd', hmode', hpath', rfl⟩ :=
      (sourceFor_vfsAt (p := (first = ·)) hsource rfl).planned hmodules hnode
    obtain ⟨htype, hreplace⟩ := h.alike m' d' m d hd' hd hmode' hmode (hpath'.trans hpath.symm)
    exact ⟨sourceOf m d, hp, htype, hreplace⟩
  refine ⟨?_, ?_, ?_⟩
  · intro path node first hnode hsource hat
    obtain ⟨s, htype, hsame, -⟩ := hfirst _ path node first hnode hsource hat
    refine ⟨fun hdir => htype (hsame.mp hdir), ?_⟩
    rintro ⟨rest, below, hne, hbelow, hat'⟩
    obtain ⟨m, d, hd, hmode, hpath, htype'⟩ := hat.planned hmodules hnode
    obtain ⟨m', d', hd', hmode', hpath', -⟩ := hat'.planned hmodules (find_below hnode hbelow)
    have hsame' := h.files m d m' d' hd hd' hmode hmode' htype' ⟨rest, hpath.symm ▸ hpath'.symm⟩
    rw [hpath, hpath'] at hsame'
    exact hne (by simpa using hsame')
  · intro path node hnode hreplaced
    obtain ⟨first, hsource⟩ := hreplaced.sourceFor
    obtain ⟨s, ⟨-, hreplace⟩, -, hsame⟩ := hfirst _ path node first hnode hsource hreplaced
    refine ⟨path, node, List.prefix_refl _, hnode, ?_⟩
    rw [Contributions.replaceFor, show node.value.sourceFor .vfs = some first from hsource,
      Option.any_some, hsame]
    exact hreplace
  · intro path node hnode _ rest below first hbelow hsource hat
    obtain ⟨s, htype, hsame, -⟩ := hfirst _ _ below first (find_below hnode hbelow) hsource hat
    exact hsame.mpr htype

end

/-- Two modules share a directory and the second one replaces it. -/
def laterReplace : PlanInput where
  modules := [namedModule "a" [],
    { id := "b", sourcePath := ["modules", "b"], entries := [{ etcEntry with
      replace := true }, tools "x" .regularFile] }]
  config := { defaultMode := .vfs, rules := [], moduleBlacklist := [] }
  layout := { roots := [("system", ["system"])], errors := [], mountPoints := [] }
  vfsAvailable := true

/-- One module has a file where the other has a directory. -/
def fileAndDirectory : PlanInput := opposed "tools" .regularFile .vfs []

/-- Both modules replace the directory. -/
def bothReplace : PlanInput :=
  { laterReplace with
    modules := laterReplace.modules.map fun m =>
      { m with entries := [{ etcEntry with replace := true }, tools m.id .regularFile] } }

theorem bothReplace_agreed : Agreed bothReplace := by
  have hpairs : ∀ m ∈ bothReplace.planned, ∀ d ∈ decisions m (bothReplace.rulesOf m) bothReplace.layout,
      ∀ m' ∈ bothReplace.planned, ∀ d' ∈ decisions m' (bothReplace.rulesOf m') bothReplace.layout,
        (targetComponents (bothReplace.target d) = targetComponents (bothReplace.target d') →
          (d.entry.fileType = .directory ↔ d'.entry.fileType = .directory) ∧
            d.entry.replace = d'.entry.replace) ∧
        (d.entry.fileType ≠ .directory →
          targetComponents (bothReplace.target d) <+: targetComponents (bothReplace.target d') →
          targetComponents (bothReplace.target d) =
            targetComponents (bothReplace.target d')) := by decide +kernel
  exact ⟨fun m d m' d' hd hd' _ _ => (hpairs m hd.module d hd.decision m' hd'.module d' hd'.decision).1,
    fun m d m' d' hd hd' _ _ => (hpairs m hd.module d hd.decision m' hd'.module d' hd'.decision).2⟩

theorem rules_complete_laterReplace :
    (∃ plan, buildPlan laterReplace = .ok plan ∧ (RulesComplete plan.tree ↔ FirstDecides plan.tree)) ∧
      ∃ plan, buildPlan bothReplace = .ok plan ∧ RulesComplete plan.tree ∧
        (buildVfsRules plan.tree).length = 3 := by
  constructor
  · obtain ⟨plan, hplan⟩ := exists_plan
      (show (buildPlan laterReplace).toOption.isSome = true by decide +kernel)
    exact ⟨plan, hplan, rules_complete_iff hplan⟩
  · obtain ⟨plan, hplan, hrules⟩ :=
      @buildPlan_of_view _ bothReplace (fun plan => (buildVfsRules plan.tree).length) 3 (by decide +kernel)
    exact ⟨plan, hplan, (rules_complete_iff hplan).mpr (bothReplace_agreed.firstDecides hplan), hrules⟩

/-- The second module's replacement is not heard, nor is the file beside a directory. -/
theorem rules_incomplete : (∃ plan, buildPlan laterReplace = .ok plan ∧ ¬ RulesComplete plan.tree) ∧
    ∃ plan, buildPlan fileAndDirectory = .ok plan ∧ ¬ RulesComplete plan.tree := by
  constructor
  · obtain ⟨plan, hplan, hview⟩ := @buildPlan_of_view _ laterReplace
      (fun plan => (MountTree.sourcesAt ["system", "etc"] plan.tree, buildVfsRules plan.tree))
      ([⟨"a", ["system", "etc"], ["modules", "a", "system", "etc"], .directory, false, .vfs⟩,
          ⟨"b", ["system", "etc"], ["modules", "b", "system", "etc"], .directory, true, .vfs⟩],
        [⟨.inject ["system", "etc", "x"] ["modules", "b", "system", "etc", "x"], "b"⟩]) (by decide +kernel)
    obtain ⟨hsources, hrules⟩ := Prod.mk.inj hview
    refine ⟨plan, hplan, fun hcomplete => ?_⟩
    have hmem : ⟨"b", ["system", "etc"], ["modules", "b", "system", "etc"], .directory, true, .vfs⟩ ∈
        MountTree.sourcesAt ["system", "etc"] plan.tree := by simp [hsources]
    obtain ⟨node, hnode, hsource⟩ := mem_sourcesAt_find.mp hmem
    have hreplaced : VfsReplaced node := ⟨_, hsource, rfl, rfl, rfl⟩
    obtain ⟨moduleId, hrule⟩ :=
      hcomplete.replaced _ node hnode hreplaced [] node rfl (.inl (hreplaced.mono fun _ hs => hs.1))
    simp [hrules] at hrule
  · obtain ⟨plan, hplan, hview⟩ := @buildPlan_of_view _ fileAndDirectory
      (fun plan => (MountTree.sourcesAt ["system", "etc", "tools"] plan.tree, buildVfsRules plan.tree))
      ([⟨"a", ["system", "etc", "tools"], ["modules", "a", "system", "etc", "tools"], .regularFile, false, .vfs⟩,
          ⟨"b", ["system", "etc", "tools"], ["modules", "b", "system", "etc", "tools"], .directory,
            false, .vfs⟩],
        [⟨.inject ["system", "etc", "tools", "x"] ["modules", "b", "system", "etc", "tools", "x"], "b"⟩])
        (by decide +kernel)
    obtain ⟨hsources, hrules⟩ := Prod.mk.inj hview
    refine ⟨plan, hplan, fun hcomplete => ?_⟩
    have hmem : ⟨"a", ["system", "etc", "tools"], ["modules", "a", "system", "etc", "tools"], .regularFile,
        false, .vfs⟩ ∈
        MountTree.sourcesAt ["system", "etc", "tools"] plan.tree := by simp [hsources]
    obtain ⟨node, hnode, hsource⟩ := mem_sourcesAt_find.mp hmem
    obtain ⟨rule, hrule, hpath, -⟩ := hcomplete.payload _ node hnode ⟨_, hsource, rfl, by simp⟩
    rw [hrules, List.mem_singleton] at hrule
    rw [hrule] at hpath
    simp [VfsAction.virtualPath] at hpath

end HybridMount.Plan
