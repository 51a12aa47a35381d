import HybridMount.Fallible
import HybridMount.MagicMount
import HybridMount.PlanTree

/-! What Magic Mount makes visible: at each path the entry of a module, or what is hidden or merged
there, or what the real tree has; and what it stages for a directory which it rebuilds. -/

namespace HybridMount.Plan.Magic

open Fallible
open FsTree (Straight WellNamed)

/-- A file, a link or a directory; of other entries nothing is said. -/
def seen (entry : Option Files) : Option (FsTree.Shown String String) :=
    (entry.map FsTree.shown).filter fun what => what ≠ .special

/-- The child that Magic has something in. -/
def magicChild (node : MountNode) (name : String) : Option MountNode :=
  (OrderedMap.get compare name node.children).filter fun child => MountNode.hasBackend child .magic

def modulePath (node : MountNode) : Names := (node.value.modulePathFor .magic).getD []

def realAt (real : Files) (path : Names) : Option Files := (stat real path).toOption

/-- The entries which the staged directory takes over from the real one. -/
def listing (real : Files) (node : MountNode) (path : Names) : List (String × Files) :=
  if node.value.replaceFor .magic then []
  else
    match stat real path with
    | .ok (.dir entries) => entries
    | _ => []

section Merge

variable (setting : Setting) (real : Files)

/-- The entry of a node itself. -/
def ownEntry (node : MountNode) : Option (FsTree.Shown String String) :=
  match MountNode.fileTypeFor node .magic with
  | some .regularFile => some (.file (setting.content (modulePath node)))
  | some .symlink => some (.symlink (setting.link (modulePath node)))
  | some .directory => some .directory
  | _ => none

/-- The merge declared for what is below the path of a node: the entries of the children of Magic and,
unless the directory is replaced, those of the real one. -/
def merged : MountNode → Names → Names → Option (FsTree.Shown String String)
  | node, _, [] => ownEntry setting node
  | node, path, name :: rest =>
    if MountNode.fileTypeFor node .magic = some .directory then
      match magicChild node name with
      | some child => merged child (path ++ [name]) rest
      | none =>
        if node.value.replaceFor .magic then none
          else seen ((realAt real path).bind fun above => above.find (name :: rest))
    else none

end Merge

/-- A directory of Magic at a path below a node. -/
inductive Reaches : MountNode → Names → MountNode → Prop
  | here {node : MountNode} (htype : MountNode.fileTypeFor node .magic = some .directory) :
      Reaches node [] node
  | child {node child n : MountNode} {name : String} {rest : Names}
      (htype : MountNode.fileTypeFor node .magic = some .directory)
      (hchild : magicChild node name = some child) (hrest : Reaches child rest n) :
        Reaches node (name :: rest) n

/-- What a directory may stand on: on a directory, a replaced one on anything, and on nothing if a
module has it. -/
def Stands (real : Files) (node : MountNode) (path : Names) : Prop :=
  (∃ entries, stat real path = .ok (.dir entries)) ∨
    (node.value.replaceFor .magic = true ∧ ∃ entry, stat real path = .ok entry) ∨
      (stat real path = .error .notFound ∧ node.value.modulePathFor .magic ≠ none)

def AllStand (real : Files) (node : MountNode) (path : Names) : Prop := ∀ rest n, Reaches node rest n →
    Stands real n (path ++ rest)

variable {setting : Setting} {real : Files} {node child n : MountNode} {path rest : Names} {name : String}
  {entries : List (String × Files)}
  {entry : Files} {made : Option Files} {run run' : MagicRun} {progress progress' : Progress}
    {names : List String}

section Nodes

theorem run_childMounts (children : List (String × MountNode)) :
    (childMounts setting children).run? name =
      ((OrderedMap.get compare name children).filter fun child => MountNode.hasBackend child .magic).map
        (doMount setting) := by
  unfold Children.run?
  induction children with
  | nil => rfl
  | cons first rest ih =>
    obtain ⟨key, child⟩ := first
    simp only [childMounts, OrderedMap.get]
    by_cases hkey : compare name key = .eq
    · simp only [hkey, if_true]
      by_cases hmagic : MountNode.hasBackend child .magic = true
      · simp [hmagic]
      · simp [hmagic]
    · simp only [hkey, if_false]
      exact ih

theorem run_magicChild (node : MountNode) :
    (childMounts setting node.children).run? name = (magicChild node name).map (doMount setting) :=
    run_childMounts node.children

theorem keys_childMounts (children : List (String × MountNode)) :
    (childMounts setting children).map Prod.fst = children.map Prod.fst := by
  induction children with
  | nil => rfl
  | cons first rest ih =>
    obtain ⟨key, child⟩ := first
    rw [childMounts, List.map_cons, List.map_cons, ih]

theorem mem_childMounts {children : List (String × MountNode)} {op : Option Mounting}
    (h : (name, op) ∈ childMounts setting children) :
    ∃ child, (name, child) ∈ children ∧ op = if MountNode.hasBackend child .magic
      then some (doMount setting child) else none := by
  induction children with
  | nil => cases h
  | cons first rest ih =>
    obtain ⟨key, child⟩ := first
    rw [childMounts] at h
    rcases List.mem_cons.mp h with hfirst | hrest
    · cases hfirst
      exact ⟨child, List.mem_cons_self, rfl⟩
    · obtain ⟨child, hmem, hop⟩ := ih hrest
      exact ⟨child, List.mem_cons_of_mem _ hmem, hop⟩

theorem keys_nodup (hordered : node.Ordered compare) : (node.children.map Prod.fst).Nodup := by
  obtain ⟨hsorted, -⟩ := hordered
  have hkeys : (OrderedMap.Map.keys ⟨node.children, hsorted⟩).Nodup := OrderedMap.Map.nodup_keys
  exact hkeys

theorem op_magicChild {op : Option Mounting} (hordered : node.Ordered compare)
    (h : (name, op) ∈ childMounts setting node.children) :
    op = (magicChild node name).map (doMount setting) := by
  obtain ⟨child, hmem, rfl⟩ := mem_childMounts h
  obtain ⟨hsorted, -⟩ := hordered
  rw [magicChild, OrderedMap.get_of_mem hsorted hmem]
  by_cases hmagic : MountNode.hasBackend child .magic = true
  · simp [hmagic]
  · simp [hmagic]

theorem magicChild_mem (hchild : magicChild node name = some child) :
    (name, child) ∈ node.children ∧ MountNode.hasBackend child .magic = true := by
  obtain ⟨hget, hmagic⟩ := Option.filter_eq_some_iff.mp hchild
  exact ⟨OrderedMap.get_mem hget, hmagic⟩

theorem ordered_child (hordered : node.Ordered compare) (hchild : magicChild node name = some child) :
    child.Ordered compare := by
  obtain ⟨-, hbelow⟩ := hordered
  exact hbelow _ (magicChild_mem hchild).1

theorem mem_ops (hordered : node.Ordered compare) (hchild : magicChild node name = some child) :
    (name, some (doMount setting child)) ∈ childMounts setting node.children := by
  have hkey : name ∈ (childMounts setting node.children).map Prod.fst := by
    rw [keys_childMounts]
    exact List.mem_map_of_mem (magicChild_mem hchild).1
  obtain ⟨⟨key, op⟩, hmem, rfl⟩ := List.mem_map.mp hkey
  have hop := op_magicChild hordered hmem
  rw [hchild] at hop
  exact hop ▸ hmem

theorem doMount_symlink {hasTmpfs : Bool} (htype : MountNode.fileTypeFor node .magic = some .symlink) :
    doMount setting node path hasTmpfs run = mountSymlink setting node path hasTmpfs run := by
  obtain ⟨value, children⟩ := node
  simp only [doMount, htype]

theorem doMount_regularFile {hasTmpfs : Bool}
    (htype : MountNode.fileTypeFor node .magic = some .regularFile) :
    doMount setting node path hasTmpfs run = mountRegularFile setting node path hasTmpfs run := by
  obtain ⟨value, children⟩ := node
  simp only [doMount, htype]

theorem doMount_directory {hasTmpfs : Bool} (htype : MountNode.fileTypeFor node .magic = some .directory) :
    doMount setting node path hasTmpfs run = mountDirectory setting node (childMounts setting node.children)
      path hasTmpfs run := by
  obtain ⟨value, children⟩ := node
  simp only [doMount, htype]

theorem doMount_whiteout {hasTmpfs : Bool} (htype : MountNode.fileTypeFor node .magic = some .whiteout) :
    doMount setting node path hasTmpfs run = .ok (run.ignored node, none) := by
  obtain ⟨value, children⟩ := node
  simp only [doMount, htype]

/-- A node that Magic has something in has a type. -/
theorem typed_of_hasBackend (h : MountNode.hasBackend node .magic = true) :
    ∃ fileType, MountNode.fileTypeFor node .magic = some fileType := by
  obtain ⟨value, children⟩ := node
  unfold MountNode.fileTypeFor MountNode.sourceFor
  cases hsource : Contributions.sourceFor value .magic with
  | some source => exact ⟨source.fileType, rfl⟩
  | none =>
    have hbelow : children.any (fun child => MountNode.hasBackend child.2 .magic) = true := by
      rw [MountNode.hasBackend, Trie.any, hsource] at h
      simp only [Option.isSome_none, Bool.false_or] at h
      clear hsource
      induction children with
      | nil => cases h
      | cons first rest ih =>
        rw [Trie.anyAmong, Bool.or_eq_true] at h
        rw [List.any_cons, Bool.or_eq_true]
        exact h.imp_right ih
    exact ⟨.directory, by simp [hbelow]⟩

theorem hasBackend_of_typed {fileType : NodeFileType}
    (h : MountNode.fileTypeFor node .magic = some fileType) :
    MountNode.hasBackend node .magic = true := by
  obtain ⟨value, children⟩ := node
  unfold MountNode.fileTypeFor MountNode.sourceFor at h
  rw [MountNode.hasBackend, Trie.any, Bool.or_eq_true]
  cases hsource : Contributions.sourceFor value .magic with
  | some source => exact .inl rfl
  | none =>
    rw [hsource, Option.map_none, Option.none_or] at h
    split at h
    · rename_i hbelow
      refine .inr ?_
      clear h hsource
      induction children with
      | nil => cases hbelow
      | cons first rest ih =>
        rw [List.any_cons, Bool.or_eq_true] at hbelow
        rw [Trie.anyAmong, Bool.or_eq_true]
        exact hbelow.imp_right ih
    · cases h

theorem modulePathFor_own {source : MountSource} (h : node.value.sourceFor .magic = some source) :
    node.value.modulePathFor .magic = some (modulePath node) := by
  have hsome : node.value.modulePathFor .magic = some source.sourcePath := by
    simp [Contributions.modulePathFor, h]
  rw [modulePath, hsome]
  rfl

theorem sourceFor_of_type {fileType : NodeFileType} (h : MountNode.fileTypeFor node .magic = some fileType)
    (hne : fileType ≠ .directory) :
    ∃ source, node.value.sourceFor .magic = some source := by
  cases hsource : node.value.sourceFor .magic with
  | some source => exact ⟨source, rfl⟩
  | none =>
    have hnone : MountNode.sourceFor node .magic = none := hsource
    simp only [MountNode.fileTypeFor, hnone, Option.map_none, Option.none_or] at h
    split at h
    · cases h
      exact absurd rfl hne
    · cases h

theorem modulePathFor_of_replace (h : node.value.replaceFor .magic = true) :
    node.value.modulePathFor .magic ≠ none := by
  unfold Contributions.replaceFor at h
  obtain ⟨source, hsource, -⟩ := (Option.any_eq_true _ _).mp h
  rw [modulePathFor_own hsource]
  simp

theorem replaces_eq : replaces node = node.value.replaceFor .magic := by
  cases hreplace : node.value.replaceFor .magic with
  | false => simp [replaces, hreplace]
  | true => simp [replaces, hreplace, Option.isSome_iff_ne_none.mpr (modulePathFor_of_replace hreplace)]

end Nodes

section Declared

theorem reaches_below (hchild : magicChild node name = some child)
    (htype : MountNode.fileTypeFor node .magic = some .directory)
    (h : AllStand real node path) : AllStand real child (path ++ [name]) := by
  intro rest n hreach
  have hh := h (name :: rest) n (.child htype hchild hreach)
  rw [List.append_assoc]
  exact hh

theorem allStand_of (hstands : Stands real node path)
    (hbelow : ∀ name child, magicChild node name = some child → AllStand real child (path ++ [name])) :
    AllStand real node path := by
  intro rest n hreach
  cases hreach with
  | here htype =>
    rw [List.append_nil]
    exact hstands
  | child htype hchild hrest =>
    have hh := hbelow _ _ hchild _ _ hrest
    rw [List.append_assoc] at hh
    exact hh

theorem allStand_of_type (htype : MountNode.fileTypeFor node .magic ≠ some .directory) :
    AllStand real node path := by
  intro rest n hreach
  cases hreach with
  | here hdir => exact absurd hdir htype
  | child hdir hchild hrest => exact absurd hdir htype

theorem merged_of_type (htype : MountNode.fileTypeFor node .magic ≠ some .directory) :
    merged setting real node path (name :: rest) = none := by
  rw [merged, if_neg htype]

theorem merged_child (htype : MountNode.fileTypeFor node .magic = some .directory)
    (hchild : magicChild node name = some child) :
    merged setting real node path (name :: rest) = merged setting real child (path ++ [name]) rest := by
  rw [merged, if_pos htype, hchild]

/-- Where Magic has nothing, the listed entry is seen. -/
theorem merged_listing (htype : MountNode.fileTypeFor node .magic = some .directory)
    (hchild : magicChild node name = none) :
    merged setting real node path (name :: rest) =
    seen (((listing real node path).lookup name).bind fun entry => entry.find rest) := by
  rw [merged, if_pos htype, hchild]
  unfold listing realAt
  cases hreplace : node.value.replaceFor .magic with
  | true => simp [seen]
  | false =>
    cases hstat : stat real path with
    | error e => simp [Except.toOption]
    | ok above =>
      cases above with
      | dir entries => simp [Except.toOption, FsTree.find]
      | file content => simp [Except.toOption, FsTree.find]
      | symlink text => simp [Except.toOption, FsTree.find]
      | special => simp [Except.toOption, FsTree.find]

theorem listing_named (hnamed : WellNamed real) :
    ((listing real node path).map Prod.fst).Nodup ∧ ∀ name entry, (name, entry) ∈ listing real node path →
    WellNamed entry := by
  have hnone : (([] : List (String × Files)).map Prod.fst).Nodup ∧
      ∀ name entry, (name, entry) ∈ ([] : List (String × Files)) → WellNamed entry :=
    ⟨List.nodup_nil, fun _ _ h => by cases h⟩
  unfold listing
  split
  · exact hnone
  · split
    · rename_i entries hstat
      obtain ⟨place, hplace⟩ := FsTree.find_of_stat hstat
      have hnodup := hnamed place entries hplace
      refine ⟨hnodup, fun name entry hmem => ?_⟩
      have hfind : real.find (place ++ [name]) = some entry := by
        rw [FsTree.find_child, hplace]
        exact FsTree.lookup_of_mem hnodup hmem
      exact WellNamed.below hnamed hfind
    · exact hnone

end Declared

section Mirrors

theorem lookup_mirrorEntries (hnodup : (entries.map Prod.fst).Nodup) :
    (mirrorEntries setting path entries).lookup name = (entries.lookup name).bind
    (mountMirror setting (path ++ [name])) := by
  induction entries with
  | nil => rfl
  | cons first rest ih =>
    obtain ⟨key, entry⟩ := first
    rw [List.map_cons, List.nodup_cons] at hnodup
    have hrest := ih hnodup.2
    rw [mirrorEntries, List.lookup_append, hrest]
    by_cases hkey : name = key
    · subst hkey
      have hnone : rest.lookup name = none := FsTree.lookup_eq_none.mpr hnodup.1
      rw [hnone, List.lookup_cons_self, Option.bind_some]
      cases mountMirror setting (path ++ [name]) entry with
      | none => rfl
      | some made => simp
    · have hbeq : (name == key) = false := by simpa using hkey
      rw [List.lookup_cons, hbeq]
      cases mountMirror setting (path ++ [key]) entry with
      | none => rfl
      | some made => simp [List.lookup_cons, hbeq]

/-- A mirror shows what the real entry shows. -/
theorem seen_mirror (hnamed : WellNamed entry) :
    seen ((mountMirror setting path entry).bind fun made => made.find rest) = seen (entry.find rest) := by
  induction rest generalizing entry path with
  | nil =>
    cases entry with
    | file content => simp [mountMirror]
    | symlink text => simp [mountMirror]
    | special =>
      rw [mountMirror]
      rfl
    | dir entries =>
      rw [mountMirror]
      split
      · simp
      · simp [seen, FsTree.shown]
  | cons name rest ih =>
    cases entry with
    | file content => rfl
    | symlink text => rfl
    | special => rfl
    | dir entries =>
      rw [mountMirror]
      split
      · rfl
      · have hnodup : (entries.map Prod.fst).Nodup := hnamed [] entries FsTree.find_nil
        simp only [Option.bind_some, FsTree.find, lookup_mirrorEntries hnodup]
        cases hlookup : entries.lookup name with
        | none => rfl
        | some child =>
          have hfind : (FsTree.dir entries).find [name] = some child := by simp [FsTree.find, hlookup]
          exact ih (WellNamed.below hnamed hfind)

end Mirrors

end HybridMount.Plan.Magic
