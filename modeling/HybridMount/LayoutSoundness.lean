import HybridMount.Discovery
import HybridMount.Fallible

/-! What a discovered layout says is so: a partition is admitted with a root that its candidates agree
on, or else rejected, in whatever order the mounts are listed. -/

namespace HybridMount.Discovery

open Plan (Names PartitionDiagnostic PartitionLayout)

/-- A child mount, by its path from the root, as an evidence sees it. -/
def child? (snapshot : LayoutSnapshot) (path : PathEvidence) (mount : Mount) :
    Option (Names × (Nat × Nat × String × Names)) :=
  match path.canonical.isPrefixOf? mount.mountPoint with
  | none => none
  | some [] => none
  | some relative =>
    ((snapshot.paths mount.mountPoint).filter fun probe => probe.visibleMountId = mount.mntId).map fun probe =>
      (relative, (probe.dev, probe.ino, mount.majmin, mount.root))

/-- Nothing is unknown about a mount if it lies below the path. -/
def Inspected (snapshot : LayoutSnapshot) (path : PathEvidence) (mount : Mount) : Prop :=
  path.canonical <+: mount.mountPoint → path.canonical ≠ mount.mountPoint →
    snapshot.pathErrors mount.mountPoint = none ∧ (snapshot.paths mount.mountPoint).isSome = true

def subtreeOf (snapshot : LayoutSnapshot) (path : PathEvidence) : Subtree :=
  (snapshot.mounts.filterMap (child? snapshot path)).foldl
    (fun subtree e => OrderedMap.insert compare e.1 e.2 subtree) []

/-- Two evidences show one directory tree, and no mount below either is unknown. -/
structure SameTree (snapshot : LayoutSnapshot) (a b : PathEvidence) : Prop where
  device : a.dev = b.dev
  inode : a.ino = b.ino
  inspected : ∀ m ∈ snapshot.mounts, Inspected snapshot a m ∧ Inspected snapshot b m
  mounts : a.canonical ≠ b.canonical → ∃ am bm, visibleMount snapshot a = some am ∧
    visibleMount snapshot b = some bm ∧
    am.majmin = bm.majmin ∧ fsPath am a = fsPath bm b
  children : a.canonical ≠ b.canonical → ∀ e, (∃ m ∈ snapshot.mounts, child? snapshot a m = some e) ↔
    ∃ m ∈ snapshot.mounts, child? snapshot b m = some e

/-- A root that both candidates allow. -/
structure Sound (snapshot : LayoutSnapshot) (name : String) (root : Names) : Prop where
  probed : snapshot.pathErrors (top name) = none ∧ snapshot.pathErrors (nested name) = none
  chosen : ∃ probe, (snapshot.paths (top name) = some probe ∨ snapshot.paths (nested name) = some probe) ∧
    probe.canonical = root ∧
    probe.isDir = true ∧ (root = top name ∨ root = systemRoot snapshot ++ [name]) ∧
    (∃ m ∈ snapshot.mounts, m.mntId = probe.visibleMountId ∧ m.mountPoint <+: root) ∧ ∀ m ∈ snapshot.mounts,
      Inspected snapshot probe m
  agree : ∀ a b, snapshot.paths (top name) = some a → snapshot.paths (nested name) = some b →
    SameTree snapshot a b

/-- A diagnostic without its text. -/
def unreasoned (diagnostic : PartitionDiagnostic) : PartitionDiagnostic := { diagnostic with reason := "" }

/-- The same layout but for the texts of its diagnostics. -/
structure SameLayout (left right : LayoutRecord) : Prop where
  roots : left.layout.roots = right.layout.roots
  identities : left.identities = right.identities
  mountPoints : left.layout.mountPoints = right.layout.mountPoints
  errors : left.layout.errors.map (fun e => (e.1, unreasoned e.2)) = right.layout.errors.map fun e =>
    (e.1, unreasoned e.2)

variable {snapshot : LayoutSnapshot} {path a b probe : PathEvidence} {mount am : Mount} {mounts : List Mount}
  {subtree : Subtree} {id : PartitionIdentity}
  {name code : String} {record left right : LayoutRecord} {managed extras : List String}
    {root : Names} {α : Type}

section Identity

/-- The step of the walk over the mounts. -/
theorem inspectChild_eq (h : Inspected snapshot path mount) : inspectChild snapshot path subtree mount =
    .ok ((child? snapshot path mount).elim subtree fun e => OrderedMap.insert compare e.1 e.2 subtree) := by
  unfold inspectChild child?
  cases hpre : path.canonical.isPrefixOf? mount.mountPoint with
  | none => rfl
  | some relative =>
    cases relative with
    | nil => rfl
    | cons first rest =>
      have hpoint : mount.mountPoint = path.canonical ++ first :: rest := List.isPrefixOf?_eq_some.mp hpre
      obtain ⟨herror, hprobe⟩ := h (hpoint ▸ List.prefix_append _ _) fun heq => by simp [hpoint] at heq
      obtain ⟨probe, hprobe⟩ := Option.isSome_iff_exists.mp hprobe
      simp only [herror, hprobe]
      by_cases hid : probe.visibleMountId = mount.mntId
      · simp [Option.filter, hid]
      · simp [Option.filter, hid]

theorem inspected_of_ok {subtree' : Subtree} (h : inspectChild snapshot path subtree mount = .ok subtree') :
    Inspected snapshot path mount := by
  intro hpre hne
  obtain ⟨rest, hpoint⟩ := hpre
  rw [inspectChild, ← hpoint, List.isPrefixOf?_append, hpoint] at h
  cases rest with
  | nil => exact absurd (by simpa using hpoint) hne
  | cons first rest =>
    cases herror : snapshot.pathErrors mount.mountPoint with
    | some error => simp [herror] at h
    | none =>
      cases hprobe : snapshot.paths mount.mountPoint with
      | none => simp [herror, hprobe] at h
      | some probe => simp

theorem foldlM_inspectChild (h : ∀ m ∈ mounts, Inspected snapshot path m) :
    mounts.foldlM (inspectChild snapshot path) subtree =
      .ok ((mounts.filterMap (child? snapshot path)).foldl
        (fun subtree e => OrderedMap.insert compare e.1 e.2 subtree) subtree) := by
  induction mounts generalizing subtree with
  | nil => rfl
  | cons m rest ih =>
    obtain ⟨hm, hrest⟩ := List.forall_mem_cons.mp h
    rw [List.foldlM_cons, inspectChild_eq hm]
    cases hchild : child? snapshot path m with
    | none =>
      rw [List.filterMap_cons_none hchild]
      exact ih hrest
    | some e =>
      rw [List.filterMap_cons_some hchild]
      exact ih hrest

theorem identity_eq (h : ∀ m ∈ snapshot.mounts, Inspected snapshot path m) :
    identity snapshot path = .ok ⟨path.canonical, path.dev, path.ino, subtreeOf snapshot path⟩ := by
  rw [identity, foldlM_inspectChild h]
  rfl

theorem identity_ok (h : identity snapshot path = .ok id) :
    (∀ m ∈ snapshot.mounts, Inspected snapshot path m) ∧
    id = ⟨path.canonical, path.dev, path.ino, subtreeOf snapshot path⟩ := by
  have hinspected : ∀ m ∈ snapshot.mounts, Inspected snapshot path m := by
    intro m hm
    obtain ⟨subtree, hfold, -⟩ := Fallible.bind_ok h
    obtain ⟨before, after, hstep⟩ := Fallible.foldlM_each hfold hm
    exact inspected_of_ok hstep
  refine ⟨hinspected, ?_⟩
  rw [identity_eq hinspected] at h
  exact (Except.ok.inj h).symm

/-- With distinct mount ids one mount at most is visible at a path. -/
theorem child_unique (hids : (snapshot.mounts.map Mount.mntId).Nodup) {k : Names}
    {v v' : Nat × Nat × String × Names}
    (h : (k, v) ∈ snapshot.mounts.filterMap (child? snapshot path))
    (h' : (k, v') ∈ snapshot.mounts.filterMap (child? snapshot path)) : v = v' := by
  have hshape : ∀ (v : Nat × Nat × String × Names) (m : Mount), child? snapshot path m = some (k, v) →
      m.mountPoint = path.canonical ++ k ∧
      ∃ probe, snapshot.paths m.mountPoint = some probe ∧ probe.visibleMountId = m.mntId ∧
        v = (probe.dev, probe.ino, m.majmin, m.root) := by
    intro v m hchild
    unfold child? at hchild
    cases hpre : path.canonical.isPrefixOf? m.mountPoint with
    | none => simp [hpre] at hchild
    | some relative =>
      cases relative with
      | nil => simp [hpre] at hchild
      | cons first rest =>
        simp only [hpre, Option.map_eq_some_iff, Option.filter_eq_some_iff, decide_eq_true_eq, Prod.mk.injEq]
          at hchild
        obtain ⟨probe, ⟨hprobe, hid⟩, rfl, rfl⟩ := hchild
        exact ⟨List.isPrefixOf?_eq_some.mp hpre, probe, hprobe, hid, rfl⟩
  obtain ⟨m, hm, hchild⟩ := List.mem_filterMap.mp h
  obtain ⟨m', hm', hchild'⟩ := List.mem_filterMap.mp h'
  obtain ⟨hpoint, probe, hprobe, hid, rfl⟩ := hshape v m hchild
  obtain ⟨hpoint', probe', hprobe', hid', rfl⟩ := hshape v' m' hchild'
  rw [hpoint] at hprobe
  rw [hpoint', hprobe, Option.some.injEq] at hprobe'
  subst hprobe'
  obtain rfl := List.inj_on_of_nodup_map hids hm hm' (hid.symm.trans hid')
  rfl

theorem mem_subtreeOf (hids : (snapshot.mounts.map Mount.mntId).Nodup)
    {e : Names × (Nat × Nat × String × Names)} :
    e ∈ subtreeOf snapshot path ↔ ∃ m ∈ snapshot.mounts, child? snapshot path m = some e := by
  rw [subtreeOf, OrderedMap.mem_foldl_insert fun k v v' h h' => child_unique hids h h', List.mem_filterMap]

end Identity

section Roots

theorem visibleMount_spec (h : visibleMount snapshot path = some mount) :
    mount ∈ snapshot.mounts ∧ mount.mntId = path.visibleMountId ∧ mount.mountPoint <+: path.canonical := by
  have hp := List.find?_some h
  simp only [Bool.and_eq_true, decide_eq_true_eq, List.isPrefixOf_iff_prefix] at hp
  exact ⟨List.mem_of_find?_eq_some h, hp⟩

theorem probeError_none (h : probeError snapshot name root probe = none) : probe.isDir = true ∧
    (probe.canonical = top name ∨ probe.canonical = root ++ [name]) ∧
    ∃ m, visibleMount snapshot probe = some m := by
  unfold probeError at h
  split at h
  · cases h
  rename_i hdir
  split at h
  · cases h
  rename_i hroots
  split at h
  · cases h
  rename_i hvisible
  refine ⟨by simpa using hdir, ?_, Option.ne_none_iff_exists'.mp (by simpa using hvisible)⟩
  by_cases htop : probe.canonical = top name
  · exact .inl htop
  · exact .inr (by_contra fun hnested => hroots ⟨htop, hnested⟩)

theorem chooseAlias_ok (hids : (snapshot.mounts.map Mount.mntId).Nodup)
    (h : chooseAlias snapshot a b = .ok probe)
    (hprobe : ∀ m ∈ snapshot.mounts, Inspected snapshot probe m) :
    SameTree snapshot a b ∧ (probe = a ∨ probe = b) := by
  unfold chooseAlias at h
  split at h
  · cases h
  rename_i hnode
  simp only [ne_eq, Prod.mk.injEq, not_not] at hnode
  split at h
  · rename_i hsame
    cases h
    have hboth : ∀ m ∈ snapshot.mounts, Inspected snapshot a m ∧ Inspected snapshot b m := by
      intro m hm
      refine ⟨hprobe m hm, ?_⟩
      rw [Inspected, ← hsame]
      exact hprobe m hm
    exact ⟨⟨hnode.1, hnode.2, hboth, fun hne => absurd hsame hne, fun hne => absurd hsame hne⟩, .inl rfl⟩
  split at h
  · rename_i am bm ham hbm
    dsimp only at h
    split at h
    · cases h
    rename_i hfs
    simp only [ne_eq, not_or, not_not] at hfs
    obtain ⟨leftId, hleft, h⟩ := Fallible.bind_ok h
    obtain ⟨rightId, hright, h⟩ := Fallible.bind_ok h
    obtain ⟨hinspected, rfl⟩ := identity_ok hleft
    obtain ⟨hinspected', rfl⟩ := identity_ok hright
    split at h
    · cases h
    rename_i hview
    simp only [ne_eq, not_not] at hview
    refine ⟨⟨hnode.1, hnode.2, fun m hm => ⟨hinspected m hm, hinspected' m hm⟩,
      fun _ => ⟨am, bm, ham, hbm, hfs⟩, fun _ e => ?_⟩, ?_⟩
    · rw [← mem_subtreeOf hids, ← mem_subtreeOf hids, hview]
    · cases h
      split
      · exact .inl rfl
      · exact .inr rfl
  · cases h

theorem chooseManaged_sound (hids : (snapshot.mounts.map Mount.mntId).Nodup)
    (h : chooseManaged snapshot name = .ok id) :
    Sound snapshot name id.canonical := by
  obtain ⟨probe, hroot, hidentity⟩ := Fallible.bind_ok h
  obtain ⟨hinspected, rfl⟩ := identity_ok hidentity
  unfold chooseRoot at hroot
  dsimp only at hroot
  split at hroot
  · cases hroot
  rename_i herrors
  split at hroot
  · cases hroot
  rename_i hprobes
  simp only [List.findSome?_cons, List.findSome?_nil] at herrors hprobes
  have hprobed : snapshot.pathErrors (top name) = none ∧ snapshot.pathErrors (nested name) = none := by
    cases htop : snapshot.pathErrors (top name) with
    | some error => simp [htop] at herrors
    | none =>
      cases hnested : snapshot.pathErrors (nested name) with
      | some error => simp [htop, hnested] at herrors
      | none => exact ⟨rfl, rfl⟩
  have hfine : ∀ p, snapshot.paths (top name) = some p ∨ snapshot.paths (nested name) = some p →
      probeError snapshot name (systemRoot snapshot) p = none := by
    intro p hp
    cases herror : probeError snapshot name (systemRoot snapshot) p with
    | none => rfl
    | some error =>
      rcases hp with hp | hp
      · simp [hp, herror] at hprobes
      · cases htop : snapshot.paths (top name) with
        | none => simp [htop, hp, herror] at hprobes
        | some q =>
          cases hq : probeError snapshot name (systemRoot snapshot) q with
          | none => simp [htop, hp, herror, hq] at hprobes
          | some error => simp [htop, hq] at hprobes
  have hchosen : (snapshot.paths (top name) = some probe ∨ snapshot.paths (nested name) = some probe) ∧
      ∀ a b, snapshot.paths (top name) = some a → snapshot.paths (nested name) = some b →
        SameTree snapshot a b := by
    split at hroot
    · rename_i a b ha hb
      obtain ⟨hsame, hone⟩ := chooseAlias_ok hids hroot hinspected
      have hprobe : snapshot.paths (top name) = some probe ∨ snapshot.paths (nested name) = some probe := by
        rcases hone with rfl | rfl
        · exact .inl ha
        · exact .inr hb
      refine ⟨hprobe, fun a' b' ha' hb' => ?_⟩
      rw [ha, Option.some.injEq] at ha'
      rw [hb, Option.some.injEq] at hb'
      rwa [← ha', ← hb']
    · rename_i b ha hb
      cases hroot
      exact ⟨.inr hb, fun a' b' ha' _ => by rw [ha] at ha'; cases ha'⟩
    · rename_i a ha hb
      split at hroot
      · cases hroot
        exact ⟨.inl ha, fun a' b' _ hb' => by rw [hb] at hb'; cases hb'⟩
      · cases hroot
    · cases hroot
  obtain ⟨hdir, hroots, m, hvisible⟩ := probeError_none (hfine probe hchosen.1)
  obtain ⟨hm, hid, hpre⟩ := visibleMount_spec hvisible
  exact ⟨hprobed, ⟨probe, hchosen.1, rfl, hdir, hroots, ⟨m, hm, hid, hpre⟩, hinspected⟩, hchosen.2⟩

end Roots

section Settling

theorem root_settle {chosen : Except String PartitionIdentity} {other : String} :
    (settle name code record chosen).layout.root? other =
    if other = name then (chosen.toOption.map PartitionIdentity.canonical).or (record.layout.root? other)
      else record.layout.root? other := by
  cases chosen with
  | error reason => simp [settle, reject, PartitionLayout.root?, Except.toOption]
  | ok id =>
    simp only [settle, accept, PartitionLayout.root?, OrderedMap.get_insert, Except.toOption, Option.map_some,
      Option.some_or]

theorem error_settle {chosen : Except String PartitionIdentity} {other : String} :
    (settle name code record chosen).layout.error? other =
    match chosen with
    | .ok _ => record.layout.error? other
    | .error reason =>
      if other = name then some ⟨name, code, reason, []⟩ else record.layout.error? other := by
  cases chosen with
  | error reason => simp only [settle, reject, PartitionLayout.error?, OrderedMap.get_insert]
  | ok id => rfl

/-- What the layout says about a partition once it has been chosen. -/
def Settled (snapshot : LayoutSnapshot) (name : String) (record : LayoutRecord) : Prop :=
  match chooseManaged snapshot name with
  | .ok id => record.layout.root? name = some id.canonical ∧ record.layout.error? name = none
  | .error reason =>
    record.layout.root? name = none ∧
      record.layout.error? name = some ⟨name, managedCode snapshot name, reason, []⟩

/-- Nothing is said about a partition. -/
def Fresh (name : String) (record : LayoutRecord) : Prop := record.layout.root? name = none ∧
    record.layout.error? name = none

/-- Two records say the same about a partition. -/
def SameOf (name : String) (left right : LayoutRecord) : Prop :=
  left.layout.root? name = right.layout.root? name ∧ left.layout.error? name = right.layout.error? name

theorem Settled.same (hsame : SameOf name left right) (h : Settled snapshot name right) :
    Settled snapshot name left := by
  unfold Settled at h ⊢
  rwa [hsame.1, hsame.2]

theorem Fresh.same (hsame : SameOf name left right) (h : Fresh name right) :
    Fresh name left := ⟨hsame.1.trans h.1, hsame.2.trans h.2⟩

theorem sameOf_settle {chosen : Except String PartitionIdentity} {other : String} (hne : name ≠ other) :
    SameOf name (settle other code record chosen) record := by
  constructor
  · rw [root_settle, if_neg hne]
  · rw [error_settle]
    split
    · rfl
    · rw [if_neg hne]

theorem settled_discoverManaged (h : Fresh name record ∨ Settled snapshot name record) :
    Settled snapshot name (discoverManaged snapshot record name) := by
  unfold Settled discoverManaged at *
  cases hchosen : chooseManaged snapshot name with
  | ok id =>
    simp only [hchosen] at h
    refine ⟨?_, ?_⟩
    · simp [root_settle, Except.toOption]
    · rw [error_settle]
      exact h.elim And.right And.right
  | error reason =>
    simp only [hchosen] at h
    refine ⟨?_, ?_⟩
    · rw [root_settle, if_pos rfl]
      exact h.elim And.left And.left
    · rw [error_settle]
      exact if_pos rfl

theorem settled_foldl (h : Fresh name record ∨ Settled snapshot name record)
    (hname : name ∈ managed ∨ Settled snapshot name record) :
    Settled snapshot name (managed.foldl (discoverManaged snapshot) record) := by
  induction managed generalizing record with
  | nil => exact hname.resolve_left List.not_mem_nil
  | cons other rest ih =>
    by_cases hother : name = other
    · subst hother
      have hnext := settled_discoverManaged h
      exact ih (.inr hnext) (.inr hnext)
    · have hsame : SameOf name (discoverManaged snapshot record other) record := sameOf_settle hother
      refine ih (h.imp (·.same hsame) (·.same hsame)) (hname.imp (fun hin => ?_) (·.same hsame))
      exact (List.mem_cons.mp hin).resolve_left hother

theorem sameOf_extras (hname : name ∉ extras) :
    SameOf name (extras.foldl (discoverExtra snapshot) record) record := by
  induction extras generalizing record with
  | nil => exact ⟨rfl, rfl⟩
  | cons other rest ih =>
    rw [List.mem_cons, not_or] at hname
    have hrest : SameOf name (rest.foldl (discoverExtra snapshot) (discoverExtra snapshot record other))
        (discoverExtra snapshot record other) :=
      ih hname.2
    have hstep : SameOf name (discoverExtra snapshot record other) record := by
      unfold discoverExtra
      split
      · exact sameOf_settle hname.1
      · exact ⟨rfl, rfl⟩
    exact ⟨hrest.1.trans hstep.1, hrest.2.trans hstep.2⟩

theorem fresh_discoverSystem (hname : name ≠ "system") : Fresh name (discoverSystem snapshot) := by
  have hcmp : compare name "system" ≠ .eq := fun h => hname (Std.LawfulEqCmp.eq_of_compare h)
  unfold Fresh discoverSystem
  split
  · simp [PartitionLayout.root?, PartitionLayout.error?, OrderedMap.get, hcmp]
  · simp [reject, PartitionLayout.root?, PartitionLayout.error?, OrderedMap.get, OrderedMap.insert, hcmp]

theorem settled_discoverLayout (hmanaged : name ∈ managed) (hsystem : name ≠ "system")
    (hextra : name ∉ extras) :
    Settled snapshot name (discoverLayout snapshot managed extras) := by
  have hsettled : Settled snapshot name
      (managed.foldl (discoverManaged snapshot) (discoverSystem snapshot)) :=
    settled_foldl (.inl (fresh_discoverSystem hsystem)) (.inl hmanaged)
  exact hsettled.same (sameOf_extras hextra)

end Settling

section Reordering

/-- The outcome without the text of an error. -/
theorem identity_perm (hids : (snapshot.mounts.map Mount.mntId).Nodup) (hperm : mounts.Perm snapshot.mounts) :
    (identity { snapshot with mounts } path).toOption = (identity snapshot path).toOption := by
  have hsubtree : subtreeOf { snapshot with mounts } path = subtreeOf snapshot path :=
    (OrderedMap.foldl_insert_perm (hperm.symm.filterMap _) fun k v v' h h' => child_unique hids h h').symm
  by_cases h : ∀ m ∈ snapshot.mounts, Inspected snapshot path m
  · have h' : ∀ m ∈ mounts, Inspected { snapshot with mounts } path m := fun m hm => h m (hperm.mem_iff.mp hm)
    rw [identity_eq h, identity_eq h', hsubtree]
  · have hnot : ∀ s : LayoutSnapshot, ¬ (∀ m ∈ s.mounts, Inspected s path m) →
        (identity s path).toOption = none := by
      intro s hs
      cases hid : identity s path with
      | error reason => rfl
      | ok id => exact absurd (identity_ok hid).1 hs
    rw [hnot snapshot h, hnot { snapshot with mounts } fun h' => h fun m hm => h' m (hperm.mem_iff.mpr hm)]

theorem find?_perm {l l' : List α} {p : α → Bool} (hperm : l.Perm l')
    (h : ∀ x ∈ l, ∀ y ∈ l, p x = true → p y = true → x = y) :
    l.find? p = l'.find? p := by
  cases hl : l.find? p with
  | none =>
    refine (List.find?_eq_none.mpr fun x hx => ?_).symm
    exact List.find?_eq_none.mp hl x (hperm.mem_iff.mpr hx)
  | some x =>
    cases hl' : l'.find? p with
    | none =>
      exact absurd (List.find?_some hl)
        (List.find?_eq_none.mp hl' x (hperm.mem_iff.mp (List.mem_of_find?_eq_some hl)))
    | some y =>
      rw [h x (List.mem_of_find?_eq_some hl) y (hperm.mem_iff.mpr (List.mem_of_find?_eq_some hl'))
        (List.find?_some hl) (List.find?_some hl')]

theorem visibleMount_perm (hids : (snapshot.mounts.map Mount.mntId).Nodup)
    (hperm : mounts.Perm snapshot.mounts) :
    visibleMount { snapshot with mounts } path = visibleMount snapshot path := by
  refine (find?_perm hperm.symm fun x hx y hy hpx hpy => ?_).symm
  simp only [Bool.and_eq_true, decide_eq_true_eq] at hpx hpy
  exact List.inj_on_of_nodup_map hids hx hy (hpx.1.trans hpy.1.symm)

theorem bind_toOption {β ε : Type} {x y : Except ε α} {f g : α → Except ε β} (h : x.toOption = y.toOption)
    (hf : ∀ a, (f a).toOption = (g a).toOption) : (x >>= f).toOption = (y >>= g).toOption := by
  cases x with
  | error e =>
    cases y with
    | error e' => rfl
    | ok b => cases h
  | ok a =>
    cases y with
    | error e' => cases h
    | ok b =>
      cases h
      exact hf a

theorem chooseAlias_perm (hids : (snapshot.mounts.map Mount.mntId).Nodup)
    (hperm : mounts.Perm snapshot.mounts) :
    (chooseAlias { snapshot with mounts } a b).toOption = (chooseAlias snapshot a b).toOption := by
  unfold chooseAlias
  simp only [visibleMount_perm hids hperm]
  split
  · rfl
  split
  · rfl
  split
  · split
    · rfl
    · exact bind_toOption (identity_perm hids hperm) fun left => bind_toOption (identity_perm hids hperm)
        fun right => rfl
  · rfl

theorem chooseManaged_perm (hids : (snapshot.mounts.map Mount.mntId).Nodup)
    (hperm : mounts.Perm snapshot.mounts) :
    (chooseManaged { snapshot with mounts } name).toOption = (chooseManaged snapshot name).toOption := by
  refine bind_toOption ?_ fun root => identity_perm hids hperm
  have hprobes : probeError { snapshot with mounts } name (systemRoot snapshot) =
      probeError snapshot name (systemRoot snapshot) := by
    funext probe
    unfold probeError
    rw [visibleMount_perm hids hperm]
  unfold chooseRoot
  simp only [visibleMount_perm hids hperm]
  rw [show systemRoot { snapshot with mounts } = systemRoot snapshot from rfl, hprobes]
  split
  · rfl
  split
  · rfl
  split
  · exact chooseAlias_perm hids hperm
  · rfl
  · rfl
  · rfl

theorem SameLayout.refl (record : LayoutRecord) : SameLayout record record := ⟨rfl, rfl, rfl, rfl⟩

theorem SameLayout.settle {chosen chosen' : Except String PartitionIdentity} (h : SameLayout left right)
    (hchosen : chosen.toOption = chosen'.toOption) :
    SameLayout (settle name code left chosen) (settle name code right chosen') := by
  cases chosen with
  | error reason =>
    cases chosen' with
    | ok id => cases hchosen
    | error reason' =>
      refine ⟨h.roots, h.identities, h.mountPoints, ?_⟩
      simp only [Discovery.settle, reject]
      rw [OrderedMap.insert_map unreasoned, OrderedMap.insert_map unreasoned, h.errors]
      rfl
  | ok id =>
    cases chosen' with
    | error reason' => cases hchosen
    | ok id' =>
      cases hchosen
      refine ⟨?_, ?_, h.mountPoints, h.errors⟩
      · simp only [Discovery.settle, accept, h.roots]
      · simp only [Discovery.settle, accept, h.identities]

theorem SameLayout.foldl {step step' : LayoutRecord → String → LayoutRecord} {names : List String}
    (h : SameLayout left right)
    (hstep : ∀ name left right, SameLayout left right → SameLayout (step left name) (step' right name)) :
    SameLayout (names.foldl step left) (names.foldl step' right) := by
  induction names generalizing left right with
  | nil => exact h
  | cons name rest ih => exact ih (hstep name left right h)

theorem sameLayout_system (hids : (snapshot.mounts.map Mount.mntId).Nodup)
    (hperm : mounts.Perm snapshot.mounts) :
    SameLayout (discoverSystem { snapshot with mounts }) (discoverSystem snapshot) := by
  have hsystem : (systemIdentity { snapshot with mounts }).toOption = (systemIdentity snapshot).toOption := by
    unfold systemIdentity
    dsimp only
    cases snapshot.paths ["system"] with
    | none => rfl
    | some probe =>
      dsimp only
      split
      · exact identity_perm hids hperm
      · rfl
  unfold discoverSystem
  cases hid : systemIdentity snapshot with
  | ok id =>
    rw [hid] at hsystem
    rw [Fallible.ok_of_toOption hsystem]
    exact .refl _
  | error reason =>
    rw [hid] at hsystem
    cases hid' : systemIdentity { snapshot with mounts } with
    | ok id => rw [hid'] at hsystem; cases hsystem
    | error reason' => exact ⟨rfl, rfl, rfl, rfl⟩

theorem visiblePoints_perm (hperm : mounts.Perm snapshot.mounts) :
    visiblePoints { snapshot with mounts } = visiblePoints snapshot := by
  have hfold : ∀ mounts : List Mount,
      mounts.foldl (fun points m => OrderedMap.insert compare m.mountPoint () points) [] =
      (mounts.map fun m => (m.mountPoint, ())).foldl
        (fun points (e : Names × Unit) => OrderedMap.insert compare e.1 e.2 points) [] := by
    intro mounts
    rw [List.foldl_map]
  unfold visiblePoints
  rw [hfold, hfold]
  exact congrArg (List.map Prod.fst)
    (OrderedMap.foldl_insert_perm ((hperm.filter _).map _) fun _ _ _ _ _ => rfl)

/-- The layout is the same for every order of the mounts, but for the mount which a diagnostic names first. -/
theorem sameLayout_perm (hids : (snapshot.mounts.map Mount.mntId).Nodup) (hperm : mounts.Perm snapshot.mounts)
    (managed extras : List String) :
    SameLayout (discoverLayout { snapshot with mounts } managed extras)
      (discoverLayout snapshot managed extras) := by
  have hmanaged : SameLayout (managed.foldl (discoverManaged { snapshot with mounts })
      (discoverSystem { snapshot with mounts }))
      (managed.foldl (discoverManaged snapshot) (discoverSystem snapshot)) :=
    (sameLayout_system hids hperm).foldl fun name left right h => h.settle (chooseManaged_perm hids hperm)
  have hextras : SameLayout (extras.foldl (discoverExtra { snapshot with mounts }) _)
      (extras.foldl (discoverExtra snapshot) _) :=
    hmanaged.foldl fun name left right h => by
      unfold discoverExtra
      dsimp only
      split
      · exact h.settle (identity_perm hids hperm)
      · exact h
  exact ⟨hextras.roots, hextras.identities, visiblePoints_perm hperm, hextras.errors⟩

end Reordering

/-- A managed partition has one sound root or one diagnostic, and the order of the mounts shows only
in the texts of diagnostics. -/
theorem discovery_sound {snapshot : LayoutSnapshot} (hids : (snapshot.mounts.map Mount.mntId).Nodup)
    (managed extras : List String) :
    (∀ name ∈ managed, name ≠ "system" → name ∉ extras →
      let layout := (discoverLayout snapshot managed extras).layout
      (∃ root, layout.root? name = some root ∧ layout.error? name = none ∧ Sound snapshot name root) ∨
        layout.root? name = none ∧ ∃ diagnostic, layout.error? name = some diagnostic ∧
          diagnostic.partition = name) ∧
      ∀ mounts : List Mount, mounts.Perm snapshot.mounts →
        SameLayout (discoverLayout { snapshot with mounts } managed extras)
          (discoverLayout snapshot managed extras) := by
  refine ⟨fun name hname hsystem hextra => ?_, fun mounts hperm => sameLayout_perm hids hperm managed extras⟩
  have hsettled : Settled snapshot name (discoverLayout snapshot managed extras) :=
    settled_discoverLayout hname hsystem hextra
  unfold Settled at hsettled
  split at hsettled
  · rename_i id hchosen
    exact .inl ⟨id.canonical, hsettled.1, hsettled.2, chooseManaged_sound hids hchosen⟩
  · exact .inr ⟨hsettled.1, _, hsettled.2, rfl⟩

def systemMount : Mount := ⟨[], [], 1, "0:7"⟩

def vendorMount : Mount := ⟨["vendor"], ["vendor"], 2, "0:7"⟩

/-- Two mounts below the vendor partition cannot be inspected. -/
def unreadableChildren : LayoutSnapshot where
  mounts := [systemMount, vendorMount, ⟨[], ["vendor", "dsp"], 3, "0:8"⟩,
    ⟨[], ["vendor", "firmware"], 4, "0:9"⟩]
  paths path :=
    if path = ["system"] then some ⟨["system"], 7, 2, 1, true⟩
    else if path = ["vendor"] then some ⟨["vendor"], 7, 42, 2, true⟩
    else none
  pathErrors path := if path = ["vendor", "dsp"] ∨ path = ["vendor", "firmware"]
    then some "Permission denied (os error 13)" else none

/-- A directory of a partition's name on the root file system. -/
def plainDirectory : LayoutSnapshot where
  mounts := [systemMount]
  paths path :=
    if path = ["system"] then some ⟨["system"], 7, 2, 1, true⟩
    else if path = ["product"] then some ⟨["product"], 7, 42, 1, true⟩
    else none
  pathErrors _ := none

theorem discovery_sound_vendor : SameLayout
    (discoverLayout { unreadableChildren with mounts := unreadableChildren.mounts.reverse } ["vendor"] [])
    (discoverLayout unreadableChildren ["vendor"] []) :=
  (discovery_sound (by decide +kernel) ["vendor"] []).2 _ (List.reverse_perm _)

/-- A diagnostic names the mount that is listed first; and a managed partition which is also an extra
one is both rejected and admitted. -/
theorem layout_depends_on_order :
    (discoverLayout { unreadableChildren with mounts := unreadableChildren.mounts.reverse } ["vendor"]
    []).layout ≠
        (discoverLayout unreadableChildren ["vendor"] []).layout ∧
      (discoverLayout plainDirectory ["product"] ["product"]).layout.root? "product" ≠ none ∧
        (discoverLayout plainDirectory ["product"] ["product"]).layout.error? "product" ≠ none := by
  decide +kernel

end HybridMount.Discovery
