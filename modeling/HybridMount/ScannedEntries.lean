import HybridMount.OrderedLists
import HybridMount.ScannerWalk

/-! What the planner may rely on: the entries of a module are exactly what lies below its
partition directories outside of links, removed directories and markers. -/

namespace HybridMount.Scanner

open Plan

variable {resolves : Names → Bool} {q rest : Names} {dir node root : FileTree} {e : ModuleEntry}
  {partition : String}

section Meaning

def entryAt (dir : FileTree) (q : Names) : Option FsEntry := dir.valueAt compare q

def IsDir (dir : FileTree) (q : Names) : Prop := ∃ marked, entryAt dir q = some (.directory marked)

/-- The directory at a path has a valid remove marker. -/
def Removed (dir : FileTree) (q : Names) : Prop :=
    ∃ content, entryAt dir (q ++ [REMOVE_DIR_FILE_NAME]) = some (.file content)

/-- The directory at a path has a replace marker: the attribute of an opaque directory, or a
marker which exists when links are followed. -/
def Replaced (resolves : Names → Bool) (dir : FileTree) (q : Names) : Prop :=
  entryAt dir q = some (.directory true) ∨ ∃ entry, entryAt dir (q ++ [REPLACE_DIR_FILE_NAME]) = some entry ∧
    ∀ target, entry = .symlink target → resolves (q ++ [REPLACE_DIR_FILE_NAME]) = true

/-- A directory without a valid remove marker. -/
def Entered (dir : FileTree) (q : Names) : Prop := IsDir dir q ∧ ¬ Removed dir q

/-- What an entry says about the path which it names. -/
structure StandsFor (resolves : Names → Bool) (dir : FileTree) (e : ModuleEntry) : Prop where
  kind : ∃ entry, entryAt dir e.relative = some entry ∧
    (¬ (IsDir dir e.relative ∧ Removed dir e.relative) → classifyFileType entry = some e.fileType) ∧
      e.linkTarget = readLink entry
  removed : IsDir dir e.relative → Removed dir e.relative → e.fileType = .whiteout
  replace : e.replace = true ↔ IsDir dir e.relative ∧ Replaced resolves dir e.relative ∧
    ¬ Removed dir e.relative
  directoryRemove : e.directoryRemove = true ↔ IsDir dir e.relative ∧ Removed dir e.relative
  markerError : e.markerError.isSome = true ↔ IsDir dir e.relative ∧ ¬ Removed dir e.relative ∧
    (entryAt dir (e.relative ++ [REMOVE_DIR_FILE_NAME])).isSome = true

variable (hfind : dir.find compare q = some node)

include hfind

theorem entryAt_node : entryAt dir q = some node.value := by
  rw [entryAt, Trie.valueAt, hfind, Option.map_some]

theorem entryAt_child (name : String) : entryAt dir (q ++ [name]) = (child name node).map Trie.value := by
  rw [entryAt, Trie.valueAt, Trie.find_append, hfind, Option.bind_some, child]
  cases hget : OrderedMap.get compare name node.children with
  | none => rw [Trie.find, hget, Option.bind_none]
  | some found =>
    rw [Trie.find, hget, Option.bind_some]
    rfl

theorem isDirectory_iff : node.value.isDirectory = true ↔ IsDir dir q := by
  rw [IsDir, entryAt_node hfind]
  cases node.value with
  | directory marked => exact ⟨fun _ => ⟨marked, rfl⟩, fun _ => rfl⟩
  | file content => simp [FsEntry.isDirectory]
  | symlink target => simp [FsEntry.isDirectory]
  | special kind device => simp [FsEntry.isDirectory]

theorem removeMarker_iff : (removeMarker node).1 = true ↔ Removed dir q := by
  rw [Removed, entryAt_child hfind, removeMarker]
  cases (child REMOVE_DIR_FILE_NAME node).map Trie.value with
  | none => simp
  | some entry => cases entry <;> simp

theorem removeMarker_error : (removeMarker node).2.isSome = true ↔ ¬ Removed dir q ∧
    (entryAt dir (q ++ [REMOVE_DIR_FILE_NAME])).isSome = true := by
  rw [Removed, entryAt_child hfind, removeMarker]
  cases (child REMOVE_DIR_FILE_NAME node).map Trie.value with
  | none => simp
  | some entry => cases entry <;> simp

theorem isReplaceDir_iff (resolves : Names → Bool) : isReplaceDir resolves q node = true ↔
    Replaced resolves dir q := by
  rw [Replaced, entryAt_node hfind, entryAt_child hfind, isReplaceDir, Bool.or_eq_true, decide_eq_true_eq,
    Option.some.injEq]
  refine or_congr_right ?_
  cases (child REPLACE_DIR_FILE_NAME node).map Trie.value with
  | none => simp [pathExists]
  | some entry => cases entry <;> simp [pathExists]

theorem isOpen_iff : isOpen node = true ↔ Entered dir q := by
  rw [isOpen, Bool.and_eq_true, Bool.not_eq_true', Entered, ← isDirectory_iff hfind, ← removeMarker_iff hfind,
    Bool.not_eq_true]

theorem directoryEntry_standsFor (hd : node.value.isDirectory = true) :
    StandsFor resolves dir (directoryEntry resolves q node) := by
  have hremoved := removeMarker_iff hfind
  have herror := removeMarker_error hfind
  have hreplace := isReplaceDir_iff hfind resolves
  have hisDir : IsDir dir q := (isDirectory_iff hfind).mp hd
  obtain ⟨marked, hmarked⟩ := id hisDir
  refine ⟨⟨_, hmarked, fun hnot => ?_, rfl⟩, fun _ hr => ?_, ?_, ?_, ?_⟩
  · have hkept : (removeMarker node).1 = false :=
      Bool.eq_false_iff.mpr fun hr => hnot ⟨hisDir, hremoved.mp hr⟩
    simp [directoryEntry, hkept, classifyFileType]
  · have hgone : (removeMarker node).1 = true := hremoved.mpr hr
    simp [directoryEntry, hgone]
  · simp [directoryEntry, ← hremoved, ← hreplace, hisDir, and_comm]
  · simp [directoryEntry, ← hremoved, hisDir]
  · simp only [directoryEntry, herror, hisDir, true_and]

theorem scanEntry_standsFor (hs : scanEntry resolves q node = some e) : StandsFor resolves dir e := by
  cases hd : node.value.isDirectory with
  | true =>
    rw [scanEntry_directory _ _ hd, Option.some.injEq] at hs
    exact hs ▸ directoryEntry_standsFor hfind hd
  | false =>
    have hno : ¬ IsDir dir q := by
      rw [← isDirectory_iff hfind, hd]
      exact Bool.false_ne_true
    rw [scanEntry_other hd, Option.map_eq_some_iff] at hs
    obtain ⟨fileType, hclass, rfl⟩ := hs
    refine ⟨⟨_, entryAt_node hfind, fun _ => hclass, rfl⟩, fun hh => absurd hh hno, ?_, ?_, ?_⟩
    · simp [hno]
    · simp [hno]
    · simp [hno]

end Meaning

section Partitions

variable {extraPartitions : List PartitionName} {entries : List ModuleEntry} {partitions : List String}

theorem nodup_partitionNames : (partitionNames extraPartitions).Nodup :=
  (List.perm_insertionSort _ _).nodup_iff.mpr (List.nodup_dedup _)

theorem partitionRoot_iff : partitionRoot dir partition = some root ↔
    dir.find compare [partition] = some root ∧ root.value.isDirectory = true := by
  rw [partitionRoot, Option.filter_eq_some_iff, Trie.find, child]
  cases OrderedMap.get compare partition dir.children with
  | none => simp
  | some found => simp [Trie.find]

/-- Does the root of a partition have an entry of its own? -/
def rootRecorded (resolves : Names → Bool) (partition : String) (root : FileTree) : Bool :=
  (removeMarker root).1 || (removeMarker root).2.isSome ||
    (partition ≠ "system" && isReplaceDir resolves [partition] root)

theorem partitionEntries_root (h : partitionRoot dir partition = some root) :
    partitionEntries resolves dir partition =
    (if rootRecorded resolves partition root then [directoryEntry resolves [partition] root] else []) ++
      (if (removeMarker root).1 then [] else walk resolves [partition] root) := by
  simp only [partitionEntries, h]
  rfl

theorem mem_partitionEntries : e ∈ partitionEntries resolves dir partition ↔
    ∃ root, partitionRoot dir partition = some root ∧
    (e = directoryEntry resolves [partition] root ∧ rootRecorded resolves partition root = true ∨
      (removeMarker root).1 = false ∧ e ∈ walk resolves [partition] root) := by
  cases hroot : partitionRoot dir partition with
  | none => simp [partitionEntries, hroot]
  | some root =>
    rw [partitionEntries_root hroot, List.mem_append]
    simp only [Option.some.injEq, exists_eq_left']
    cases rootRecorded resolves partition root with
    | true => cases (removeMarker root).1 <;> simp
    | false => cases (removeMarker root).1 <;> simp

theorem mem_moduleEntries : e ∈ moduleEntries resolves dir extraPartitions ↔
    ∃ partition ∈ partitionNames extraPartitions, e ∈ partitionEntries resolves dir partition := by
  rw [moduleEntries, List.mem_insertionSort, List.mem_flatMap]

theorem relative_of_mem_partitionEntries (h : e ∈ partitionEntries resolves dir partition) :
    [partition] <+: e.relative := by
  obtain ⟨root, -, ⟨rfl, -⟩ | ⟨-, hwalk⟩⟩ := mem_partitionEntries.mp h
  · exact List.prefix_rfl
  · obtain ⟨rest, -, hrest⟩ := relative_of_mem_walk hwalk
    exact hrest ▸ List.prefix_append _ _

theorem nodup_partitionEntries (h : Lawful dir) (partition : String) :
    ((partitionEntries resolves dir partition).map ModuleEntry.relative).Nodup := by
  cases hroot : partitionRoot dir partition with
  | none =>
    rw [partitionEntries, hroot]
    exact List.nodup_nil
  | some root =>
    have hlawful := (h.find (partitionRoot_iff.mp hroot).1).1
    rw [partitionEntries_root hroot, List.map_append]
    refine List.Nodup.append ?_ ?_ fun q hq hq' => ?_
    · split
      · exact List.nodup_singleton _
      · exact List.nodup_nil
    · split
      · exact List.nodup_nil
      · exact nodup_walk hlawful _
    · have hown : q = [partition] := by
        split at hq
        · exact List.mem_singleton.mp hq
        · cases hq
      split at hq'
      · cases hq'
      · obtain ⟨x, hx, hxq⟩ := List.mem_map.mp hq'
        obtain ⟨rest, hne, hrest⟩ := relative_of_mem_walk hx
        rw [hrest, hown] at hxq
        exact hne (List.append_right_eq_self.mp hxq)

theorem nodup_moduleEntries (resolves : Names → Bool) (extraPartitions : List PartitionName)
    (h : Lawful dir) :
    ((moduleEntries resolves dir extraPartitions).map ModuleEntry.relative).Nodup := by
  have hperm := (List.perm_insertionSort
    (fun left right : ModuleEntry => compare (text left.relative) (text right.relative) ≠ .gt)
    ((partitionNames extraPartitions).flatMap (partitionEntries resolves dir))).map ModuleEntry.relative
  refine hperm.nodup_iff.mpr ?_
  rw [List.map_flatMap]
  refine List.nodup_flatMap.mpr ⟨fun partition _ => nodup_partitionEntries h partition, ?_⟩
  refine nodup_partitionNames.imp fun {p p'} hne q hq hq' => ?_
  obtain ⟨x, hx, rfl⟩ := List.mem_map.mp hq
  obtain ⟨y, hy, hyx⟩ := List.mem_map.mp hq'
  have hp := relative_of_mem_partitionEntries hx
  have hp' := relative_of_mem_partitionEntries hy
  rw [hyx] at hp'
  have hsame : [p] = [p'] := (List.prefix_of_prefix_length_le hp hp' (by simp)).eq_of_length (by simp)
  exact hne (List.cons.inj hsame).1

/-- The entries which the planner is given for one module directory. -/
structure WellFormed (resolves : Names → Bool) (dir : FileTree) (partitions : List String)
    (entries : List ModuleEntry) : Prop where
  increasing : entries.Pairwise fun left right => compare (text left.relative) (text right.relative) = .lt
  inside : ∀ e ∈ entries, ∃ partition ∈ partitions, IsDir dir [partition] ∧ [partition] <+: e.relative
  linked : ∀ partition target, entryAt dir [partition] = some (.symlink target) →
    ∀ e ∈ entries, ¬ [partition] <+: e.relative
  closed : ∀ e ∈ entries, ∀ above, above <+: e.relative → above ≠ e.relative → 2 ≤ above.length →
    ∃ parent ∈ entries, parent.relative = above
  entered : ∀ e ∈ entries, ∀ above, above <+: e.relative → above ≠ e.relative → above ≠ [] → Entered dir above
  unmarked : ∀ e ∈ entries, ∀ name ∈ e.relative.tail, isMarker name = false
  meaning : ∀ e ∈ entries, StandsFor resolves dir e
  roots : ∀ partition, (∃ e ∈ entries, e.relative = [partition]) ↔
    partition ∈ partitions ∧ IsDir dir [partition] ∧
    ((entryAt dir ([partition] ++ [REMOVE_DIR_FILE_NAME])).isSome = true ∨ partition ≠ "system" ∧
      Replaced resolves dir [partition])
  complete : ∀ partition ∈ partitions, ∀ rest, rest ≠ [] →
    ∀ entry, entryAt dir (partition :: rest) = some entry →
    (classifyFileType entry).isSome = true → (∀ name ∈ rest, isMarker name = false) →
    (∀ above, above <+: partition :: rest → above ≠ partition :: rest → above ≠ [] → Entered dir above) →
    ∃ e ∈ entries, e.relative = partition :: rest

theorem find_partition (h : dir.find compare [partition] = some root) (below : Names) :
    dir.find compare (partition :: below) = root.find compare below := by
  rw [← List.singleton_append, Trie.find_append, h, Option.bind_some]

/-- An entry with the node which it names: the root of a partition, or a node which the walk visits below one. -/
theorem moduleEntries_node (h : Lawful dir) (he : e ∈ moduleEntries resolves dir extraPartitions) :
    ∃ partition ∈ partitionNames extraPartitions, ∃ rest node, e.relative = partition :: rest ∧
    IsDir dir [partition] ∧
      dir.find compare (partition :: rest) = some node ∧
        scanEntry resolves (partition :: rest) node = some e ∧
      (∀ name ∈ rest, isMarker name = false) ∧
      ∀ above, above <+: partition :: rest → above ≠ partition :: rest → above ≠ [] → Entered dir above := by
  obtain ⟨partition, hp, hentry⟩ := mem_moduleEntries.mp he
  obtain ⟨root, hroot, hown | ⟨hkept, hwalk⟩⟩ := mem_partitionEntries.mp hentry
  · obtain ⟨hfind, hdir⟩ := partitionRoot_iff.mp hroot
    obtain ⟨rfl, -⟩ := hown
    refine ⟨partition, hp, [], root, rfl, (isDirectory_iff hfind).mp hdir, hfind,
      scanEntry_directory _ _ hdir,
      fun _ hh => absurd hh List.not_mem_nil, fun above hpre hne hnil => ?_⟩
    have hpos := List.length_pos_iff.mpr hnil
    exact absurd (hpre.eq_of_length_le (Nat.succ_le_of_lt hpos)) hne
  · obtain ⟨hfind, hdir⟩ := partitionRoot_iff.mp hroot
    obtain ⟨rest, node, hv, hs⟩ := mem_walk.mp hwalk
    obtain ⟨hrest, hnode, hnames, habove⟩ := (visited_iff (h.find hfind).1).mp hv
    have hsub := find_partition hfind
    refine ⟨partition, hp, rest, node, scanEntry_relative hs, (isDirectory_iff hfind).mp hdir,
      (hsub rest).trans hnode, hs, hnames,
      fun above hpre hne hnil => ?_⟩
    cases above with
    | nil => exact absurd rfl hnil
    | cons first below =>
      obtain ⟨rfl, hpre'⟩ := List.cons_prefix_cons.mp hpre
      by_cases hb : below = []
      · subst hb
        have hopen : isOpen root = true := by rw [isOpen, hdir, hkept]; rfl
        exact (isOpen_iff hfind).mp hopen
      · obtain ⟨opened, hopened, ho⟩ := habove below hpre' hb fun heq => hne (heq ▸ rfl)
        exact (isOpen_iff ((hsub below).trans hopened)).mp ho

/-- Below a partition directory the walk comes everywhere but behind links, removed directories and markers. -/
theorem mem_moduleEntries_of_entered (h : Lawful dir) (hp : partition ∈ partitionNames extraPartitions)
    (hne : rest ≠ [])
    (hnode : dir.find compare (partition :: rest) = some node)
    (hs : scanEntry resolves (partition :: rest) node = some e)
    (hnames : ∀ name ∈ rest, isMarker name = false)
    (habove : ∀ above, above <+: partition :: rest → above ≠ partition :: rest → above ≠ [] →
      Entered dir above) :
    e ∈ moduleEntries resolves dir extraPartitions := by
  obtain ⟨root, hroot, hrest⟩ : ∃ root, dir.find compare [partition] = some root ∧
      root.find compare rest = some node := by
    rw [← List.singleton_append, Trie.find_append] at hnode
    exact Option.bind_eq_some_iff.mp hnode
  have hsub := find_partition hroot
  have hopen : isOpen root = true := (isOpen_iff hroot).mpr <|
    habove [partition] (List.cons_prefix_cons.mpr ⟨rfl, List.nil_prefix⟩)
      (fun heq => hne (List.cons.inj heq).2.symm) (List.cons_ne_nil _ _)
  have hvisited : Visited root rest node := by
    refine (visited_iff (h.find hroot).1).mpr ⟨hne, hrest, hnames, fun above hpre hnil hneq => ?_⟩
    have hentered := habove (partition :: above) (List.cons_prefix_cons.mpr ⟨rfl, hpre⟩)
      (fun heq => hneq (List.cons.inj heq).2)
      (List.cons_ne_nil _ _)
    obtain ⟨below, hbelow⟩ := hpre
    have hthere : ∃ opened, root.find compare above = some opened := by
      rw [← hbelow, Trie.find_append] at hrest
      obtain ⟨opened, hopened, -⟩ := Option.bind_eq_some_iff.mp hrest
      exact ⟨opened, hopened⟩
    obtain ⟨opened, hopened⟩ := hthere
    exact ⟨opened, hopened, (isOpen_iff ((hsub above).trans hopened)).mpr hentered⟩
  rw [isOpen, Bool.and_eq_true, Bool.not_eq_true'] at hopen
  exact mem_moduleEntries.mpr ⟨partition, hp, mem_partitionEntries.mpr
    ⟨root, partitionRoot_iff.mpr ⟨hroot, hopen.1⟩, .inr ⟨hopen.2, mem_walk.mpr ⟨rest, node, hvisited, hs⟩⟩⟩⟩

theorem text_inj {q q' : Names} (hq : q ≠ []) (hq' : q' ≠ []) (hplain : ∀ name ∈ q, PlainName name)
    (hplain' : ∀ name ∈ q', PlainName name) (h : text q = text q') : q = q' := by
  have hslash : "/".toList = ['/'] := by decide +kernel
  have hback : ∀ names : Names, names ≠ [] → (∀ name ∈ names, PlainName name) →
      (text names).toList.splitOn '/' = names.map String.toList := by
    intro names hne hnames
    rw [text, String.toList_intercalate, hslash]
    refine List.splitOn_intercalate _ (fun chars hc => ?_) (by simpa using hne)
    obtain ⟨name, hname, rfl⟩ := List.mem_map.mp hc
    exact (hnames name hname).2.2.2
  have hmaps : q.map String.toList = q'.map String.toList := by
    rw [← hback q hq hplain, h, hback q' hq' hplain']
  exact List.map_injective_iff.mpr (fun _ _ => String.toList_inj.mp) hmaps

theorem increasing_moduleEntries (h : Lawful dir) :
    (moduleEntries resolves dir extraPartitions).Pairwise fun left right =>
      compare (text left.relative) (text right.relative) = .lt := by
  have hsorted : (moduleEntries resolves dir extraPartitions).Pairwise fun left right =>
      compare (text left.relative) (text right.relative) ≠ .gt :=
    @Comparison.pairwise_insertionSort _ (compareOn fun e : ModuleEntry => text e.relative) _
      ((partitionNames extraPartitions).flatMap (partitionEntries resolves dir))
  have hdiffer := List.pairwise_map.mp (nodup_moduleEntries resolves extraPartitions h)
  refine (hsorted.and hdiffer).imp_of_mem fun {e e'} he he' hh => ?_
  obtain ⟨hle, hne⟩ := hh
  cases hc : compare (text e.relative) (text e'.relative) with
  | lt => rfl
  | gt => exact absurd hc hle
  | eq =>
    obtain ⟨partition, -, rest, node, hrel, -, hfind, -⟩ := moduleEntries_node h he
    obtain ⟨partition', -, rest', node', hrel', -, hfind', -⟩ := moduleEntries_node h he'
    have htext := Std.LawfulEqCmp.eq_of_compare hc
    rw [hrel, hrel'] at htext hne
    exact absurd (text_inj (List.cons_ne_nil _ _) (List.cons_ne_nil _ _) (h.find hfind).2
      (h.find hfind').2 htext) hne

theorem rootRecorded_iff (h : dir.find compare [partition] = some root) :
    rootRecorded resolves partition root = true ↔
    (entryAt dir ([partition] ++ [REMOVE_DIR_FILE_NAME])).isSome = true ∨ partition ≠ "system" ∧
    Replaced resolves dir [partition] := by
  have hmarker : ((removeMarker root).1 || (removeMarker root).2.isSome) =
      (entryAt dir ([partition] ++ [REMOVE_DIR_FILE_NAME])).isSome := by
    rw [entryAt_child h, removeMarker]
    cases (child REMOVE_DIR_FILE_NAME root).map Trie.value with
    | none => rfl
    | some entry => cases entry <;> rfl
  rw [rootRecorded, hmarker, Bool.or_eq_true, Bool.and_eq_true, decide_eq_true_eq,
    isReplaceDir_iff h resolves]

theorem wellFormed_moduleEntries (h : Lawful dir) :
    WellFormed resolves dir (partitionNames extraPartitions)
      (moduleEntries resolves dir extraPartitions) where
  increasing := increasing_moduleEntries h
  inside e he := by
    obtain ⟨partition, hp, rest, node, hrel, hdir, -⟩ := moduleEntries_node h he
    exact ⟨partition, hp, hdir, hrel ▸ List.cons_prefix_cons.mpr ⟨rfl, List.nil_prefix⟩⟩
  linked partition target hlink e he hpre := by
    obtain ⟨partition', hp, rest, node, hrel, ⟨marked, hdir⟩, -⟩ := moduleEntries_node h he
    rw [hrel] at hpre
    obtain ⟨rfl, -⟩ := List.cons_prefix_cons.mp hpre
    rw [hlink] at hdir
    cases hdir
  closed e he above hpre hne hlen := by
    obtain ⟨partition, hp, rest, node, hrel, -, hfind, -, hnames, habove⟩ := moduleEntries_node h he
    rw [hrel] at hpre hne
    cases above with
    | nil => simp at hlen
    | cons first below =>
      obtain ⟨rfl, hpre'⟩ := List.cons_prefix_cons.mp hpre
      have hbelow : below ≠ [] := by
        intro hnil
        simp [hnil] at hlen
      have hentered := habove _ hpre hne (List.cons_ne_nil _ _)
      obtain ⟨opened, hopened⟩ : ∃ opened, dir.find compare (first :: below) = some opened := by
        obtain ⟨after, hafter⟩ := hpre
        rw [← hafter, Trie.find_append] at hfind
        obtain ⟨opened, hopened, -⟩ := Option.bind_eq_some_iff.mp hfind
        exact ⟨opened, hopened⟩
      have hscan := scanEntry_directory resolves (first :: below) ((isDirectory_iff hopened).mpr hentered.1)
      refine ⟨_, mem_moduleEntries_of_entered h hp hbelow hopened hscan
        (fun name hn => hnames name (hpre'.subset hn))
        fun q hq hneq hnil => habove q (hq.trans hpre) (fun heq => ?_) hnil, rfl⟩
      rw [heq] at hq
      exact hne (hpre.eq_of_length_le hq.length_le)
  entered e he above hpre hne hnil := by
    obtain ⟨partition, -, rest, node, hrel, -, -, -, -, habove⟩ := moduleEntries_node h he
    rw [hrel] at hpre hne
    exact habove above hpre hne hnil
  unmarked e he name hname := by
    obtain ⟨partition, -, rest, node, hrel, -, -, -, hnames, -⟩ := moduleEntries_node h he
    rw [hrel] at hname
    exact hnames name hname
  meaning e he := by
    obtain ⟨partition, -, rest, node, -, -, hfind, hscan, -⟩ := moduleEntries_node h he
    exact scanEntry_standsFor hfind hscan
  roots partition := by
    constructor
    · intro hh
      obtain ⟨e, he, hrel⟩ := hh
      obtain ⟨partition', hp, hentry⟩ := mem_moduleEntries.mp he
      obtain ⟨root, hroot, ⟨rfl, hrecorded⟩ | ⟨-, hwalk⟩⟩ := mem_partitionEntries.mp hentry
      · obtain rfl := (List.cons.inj hrel).1
        obtain ⟨hfind, hdir⟩ := partitionRoot_iff.mp hroot
        exact ⟨hp, (isDirectory_iff hfind).mp hdir, (rootRecorded_iff hfind).mp hrecorded⟩
      · obtain ⟨rest, hne, hrest⟩ := relative_of_mem_walk hwalk
        rw [hrest] at hrel
        exact absurd (List.cons.inj hrel).2 hne
    · intro hh
      obtain ⟨hp, ⟨marked, hdir⟩, hmarker⟩ := hh
      obtain ⟨root, hfind, hvalue⟩ := Option.map_eq_some_iff.mp hdir
      have hisDir : root.value.isDirectory = true := by
        rw [hvalue]
        rfl
      exact ⟨directoryEntry resolves [partition] root,
        mem_moduleEntries.mpr ⟨partition, hp, mem_partitionEntries.mpr
        ⟨root, partitionRoot_iff.mpr ⟨hfind, hisDir⟩, .inl ⟨rfl, (rootRecorded_iff hfind).mpr hmarker⟩⟩⟩, rfl⟩
  complete partition hp rest hne entry hentry hkind hnames habove := by
    obtain ⟨node, hfind, rfl⟩ := Option.map_eq_some_iff.mp hentry
    obtain ⟨e, hscan⟩ : ∃ e, scanEntry resolves (partition :: rest) node = some e := by
      cases hd : node.value.isDirectory with
      | true => exact ⟨_, scanEntry_directory _ _ hd⟩
      | false =>
        obtain ⟨fileType, hclass⟩ := Option.isSome_iff_exists.mp hkind
        exact ⟨_, by rw [scanEntry_other hd, hclass, Option.map_some]⟩
    exact ⟨e, mem_moduleEntries_of_entered h hp hne hfind hscan hnames habove, scanEntry_relative hscan⟩

end Partitions

end HybridMount.Scanner
