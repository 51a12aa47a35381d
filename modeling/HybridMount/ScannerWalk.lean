import HybridMount.Scanner

/-! The walk of the scanner: which nodes it comes to, and that it lists each of them once. -/

namespace HybridMount.Scanner

open Plan

/-- The names in a directory differ, and each of them is a single name. -/
inductive Lawful : FileTree → Prop
  | intro {t : FileTree} : (t.children.map Prod.fst).Nodup → (∀ e ∈ t.children, PlainName e.1) →
      (∀ e ∈ t.children, Lawful e.2) → Lawful t

/-- How the walk comes to a node below a directory. -/
inductive Visited : FileTree → Names → FileTree → Prop
  | here {t node : FileTree} {name : String} : (name, node) ∈ t.children → isMarker name = false →
      Visited t [name] node
  | deeper {t dir node : FileTree} {name : String} {rest : Names} : (name, dir) ∈ t.children →
      isMarker name = false →
      isOpen dir = true → Visited dir rest node → Visited t (name :: rest) node

variable {resolves : Names → Bool} {path q rest above : Names} {t dir node : FileTree} {e : ModuleEntry}
  {children : List (String × FileTree)} {name : String}

theorem scanEntry_relative (h : scanEntry resolves q node = some e) : e.relative = q := by
  obtain ⟨fileType, -, he⟩ := Option.bind_eq_some_iff.mp h
  cases he
  rfl

/-- The entry of a directory. -/
def directoryEntry (resolves : Names → Bool) (q : Names) (node : FileTree) : ModuleEntry where
  relative := q
  fileType := if (removeMarker node).1 then .whiteout else .directory
  replace := !(removeMarker node).1 && isReplaceDir resolves q node
  directoryRemove := (removeMarker node).1
  markerError := (removeMarker node).2

theorem scanEntry_directory (resolves : Names → Bool) (q : Names) (h : node.value.isDirectory = true) :
    scanEntry resolves q node = some (directoryEntry resolves q node) := by
  cases hv : node.value with
  | directory marked =>
    simp only [scanEntry, hv, classifyFileType, directoryEntry]
    rfl
  | file content => simp [hv, FsEntry.isDirectory] at h
  | symlink target => simp [hv, FsEntry.isDirectory] at h
  | special kind device => simp [hv, FsEntry.isDirectory] at h

theorem scanEntry_other (h : node.value.isDirectory = false) :
    scanEntry resolves q node = (classifyFileType node.value).map fun fileType =>
      { relative := q, fileType := fileType, linkTarget := readLink node.value } := by
  cases hv : node.value with
  | directory marked => simp [hv, FsEntry.isDirectory] at h
  | file content =>
    simp only [scanEntry, hv, classifyFileType]
    rfl
  | symlink target =>
    simp only [scanEntry, hv, classifyFileType]
    rfl
  | special kind device =>
    simp only [scanEntry, hv, classifyFileType]
    split
    · rfl
    · rfl

theorem mem_withBelow {entry : Option ModuleEntry} {below : List ModuleEntry} :
    e ∈ withBelow entry below ↔ ∃ first, entry = some first ∧ (e = first ∨ e ∈ below) := by
  cases entry with
  | none => simp [withBelow]
  | some first => simp [withBelow]

theorem mem_walkAll : e ∈ walkAll resolves path children ↔ ∃ c ∈ children, isMarker c.1 = false ∧
    ∃ first, scanEntry resolves (path ++ [c.1]) c.2 = some first ∧
      (e = first ∨ isOpen c.2 = true ∧ e ∈ walk resolves (path ++ [c.1]) c.2) := by
  induction children with
  | nil => simp [walkAll]
  | cons c rest ih =>
    obtain ⟨name, node⟩ := c
    rw [walkAll, List.mem_append, ih, List.exists_mem_cons_iff]
    refine or_congr_left ?_
    cases hm : isMarker name with
    | true => simp
    | false =>
      rw [if_neg Bool.false_ne_true, mem_withBelow]
      refine ⟨fun h => ⟨rfl, ?_⟩, fun h => ?_⟩
      · obtain ⟨first, hfirst, h⟩ := h
        refine ⟨first, hfirst, h.imp_right fun hbelow => ?_⟩
        cases ho : isOpen node with
        | true => exact ⟨rfl, by rwa [ho, if_pos rfl] at hbelow⟩
        | false => simp [ho] at hbelow
      · obtain ⟨-, first, hfirst, h⟩ := h
        refine ⟨first, hfirst, h.imp_right fun hbelow => ?_⟩
        rw [if_pos hbelow.1]
        exact hbelow.2

theorem mem_walk_children : e ∈ walk resolves path t ↔ ∃ c ∈ t.children, isMarker c.1 = false ∧
    ∃ first, scanEntry resolves (path ++ [c.1]) c.2 = some first ∧
      (e = first ∨ isOpen c.2 = true ∧ e ∈ walk resolves (path ++ [c.1]) c.2) := by
  obtain ⟨value, children⟩ := t
  rw [walk]
  exact mem_walkAll

/-- The walk records exactly what it visits. -/
theorem mem_walk : e ∈ walk resolves path t ↔ ∃ rest node, Visited t rest node ∧
    scanEntry resolves (path ++ rest) node = some e := by
  induction t using Trie.induct generalizing path e with
  | h t ih =>
    rw [mem_walk_children]
    constructor
    · intro h
      obtain ⟨c, hc, hm, first, hfirst, rfl | ⟨ho, hbelow⟩⟩ := h
      · exact ⟨[c.1], c.2, .here hc hm, hfirst⟩
      · obtain ⟨rest, node, hv, hs⟩ := (ih c hc).mp hbelow
        rw [List.append_assoc] at hs
        exact ⟨c.1 :: rest, node, .deeper hc hm ho hv, hs⟩
    · intro h
      obtain ⟨rest, node, hv, hs⟩ := h
      cases hv with
      | here hc hm => exact ⟨_, hc, hm, e, hs, .inl rfl⟩
      | @deeper _ dir _ name rest hc hm ho hv =>
        have hdir : dir.value.isDirectory = true := by
          rw [isOpen, Bool.and_eq_true] at ho
          exact ho.1
        refine ⟨_, hc, hm, _, scanEntry_directory _ _ hdir, .inr ⟨ho, (ih _ hc).mpr ⟨rest, node, hv, ?_⟩⟩⟩
        rw [List.append_assoc]
        exact hs

theorem get_of_mem (hnodup : (children.map Prod.fst).Nodup) (h : (name, node) ∈ children) :
    OrderedMap.get compare name children = some node := by
  induction children with
  | nil => cases h
  | cons c rest ih =>
    rw [List.map_cons, List.nodup_cons] at hnodup
    rcases List.mem_cons.mp h with rfl | h
    · rw [OrderedMap.get, if_pos (by simp)]
    · have hne : ¬ compare name c.1 = .eq := by
        intro heq
        rw [Std.LawfulEqCmp.compare_eq_iff_eq] at heq
        exact hnodup.1 (heq ▸ List.mem_map_of_mem h)
      rw [OrderedMap.get, if_neg hne, ih hnodup.2 h]

theorem Lawful.nodup (h : Lawful t) : (t.children.map Prod.fst).Nodup := by
  cases h with
  | intro hnodup _ _ => exact hnodup

theorem Lawful.plain (h : Lawful t) (hc : (name, node) ∈ t.children) : PlainName name := by
  cases h with
  | intro _ hplain _ => exact hplain _ hc

theorem Lawful.child (h : Lawful t) (hc : (name, node) ∈ t.children) : Lawful node := by
  cases h with
  | intro _ _ hall => exact hall _ hc

theorem Lawful.get_iff (h : Lawful t) : OrderedMap.get compare name t.children = some node ↔
    (name, node) ∈ t.children :=
  ⟨OrderedMap.get_mem, get_of_mem h.nodup⟩

theorem Lawful.find (h : Lawful t) (hfind : t.find compare q = some node) :
    Lawful node ∧ ∀ name ∈ q, PlainName name := by
  induction q generalizing t with
  | nil =>
    cases hfind
    exact ⟨h, fun _ hh => absurd hh List.not_mem_nil⟩
  | cons name q ih =>
    obtain ⟨dir, hget, hrest⟩ := Option.bind_eq_some_iff.mp hfind
    have hc := h.get_iff.mp hget
    obtain ⟨hnode, hplain⟩ := ih (h.child hc) hrest
    exact ⟨hnode, List.forall_mem_cons.mpr ⟨h.plain hc, hplain⟩⟩

theorem visited_ne_nil (h : Visited t rest node) : rest ≠ [] := by
  cases h with
  | here _ _ => exact List.cons_ne_nil _ _
  | deeper _ _ _ _ => exact List.cons_ne_nil _ _

theorem find_child (h : Lawful t) (hc : (name, dir) ∈ t.children) (rest : Names) :
    t.find compare (name :: rest) = dir.find compare rest := by
  rw [Trie.find, get_of_mem h.nodup hc]
  rfl

/-- What stands properly above a path, below its first name. -/
theorem proper_prefix_cons (hpre : above <+: name :: rest) (hne : above ≠ []) (hneq : above ≠ name :: rest) :
    ∃ below, above = name :: below ∧ below <+: rest ∧ below ≠ rest := by
  cases above with
  | nil => exact absurd rfl hne
  | cons first below =>
    obtain ⟨rfl, hbelow⟩ := List.cons_prefix_cons.mp hpre
    exact ⟨below, rfl, hbelow, fun heq => hneq (heq ▸ rfl)⟩

theorem Visited.find (hv : Visited t rest node) (h : Lawful t) : t.find compare rest = some node := by
  induction hv with
  | here hc _ => exact find_child h hc []
  | deeper hc _ _ _ ih => exact (find_child h hc _).trans (ih (h.child hc))

theorem Visited.unmarked (hv : Visited t rest node) : ∀ name ∈ rest, isMarker name = false := by
  induction hv with
  | here _ hm => exact List.forall_mem_cons.mpr ⟨hm, fun _ hh => absurd hh List.not_mem_nil⟩
  | deeper _ hm _ _ ih => exact List.forall_mem_cons.mpr ⟨hm, ih⟩

theorem Visited.opened (hv : Visited t rest node) (h : Lawful t) : ∀ above, above <+: rest → above ≠ [] →
    above ≠ rest →
    ∃ dir, t.find compare above = some dir ∧ isOpen dir = true := by
  induction hv with
  | here _ _ =>
    intro above hpre hne hneq
    obtain ⟨below, -, hpre, hrest⟩ := proper_prefix_cons hpre hne hneq
    exact absurd (List.prefix_nil.mp hpre) hrest
  | @deeper t dir node name rest hc _ ho _ ih =>
    intro above hpre hne hneq
    obtain ⟨below, rfl, hpre, hrest⟩ := proper_prefix_cons hpre hne hneq
    rw [find_child h hc]
    by_cases hnil : below = []
    · subst hnil
      exact ⟨dir, rfl, ho⟩
    · exact ih (h.child hc) below hpre hnil hrest

theorem visited_of_find (h : Lawful t) (hne : rest ≠ []) (hfind : t.find compare rest = some node)
    (hnames : ∀ name ∈ rest, isMarker name = false)
    (habove : ∀ above, above <+: rest → above ≠ [] → above ≠ rest →
      ∃ dir, t.find compare above = some dir ∧ isOpen dir = true) : Visited t rest node := by
  induction rest generalizing t with
  | nil => exact absurd rfl hne
  | cons name rest ih =>
    obtain ⟨dir, hget, hrest⟩ := Option.bind_eq_some_iff.mp hfind
    obtain ⟨hm, hnames⟩ := List.forall_mem_cons.mp hnames
    have hc := h.get_iff.mp hget
    by_cases hnil : rest = []
    · subst hnil
      cases hrest
      exact .here hc hm
    · obtain ⟨opened, hopened, ho⟩ :=
        habove [name] (List.cons_prefix_cons.mpr ⟨rfl, List.nil_prefix⟩) (List.cons_ne_nil _ _)
        (fun heq => hnil (List.cons.inj heq).2.symm)
      rw [find_child h hc] at hopened
      cases hopened
      refine .deeper hc hm ho (ih (h.child hc) hnil hrest hnames fun above hpre hne hneq => ?_)
      have hopen := habove (name :: above) (List.cons_prefix_cons.mpr ⟨rfl, hpre⟩) (List.cons_ne_nil _ _)
        (fun heq => hneq (List.cons.inj heq).2)
      rwa [find_child h hc] at hopen

/-- The walk comes to a node by names which are no markers, through directories which it opens. -/
theorem visited_iff (h : Lawful t) : Visited t rest node ↔ rest ≠ [] ∧ t.find compare rest = some node ∧
    (∀ name ∈ rest, isMarker name = false) ∧
    ∀ above, above <+: rest → above ≠ [] → above ≠ rest → ∃ dir, t.find compare above = some dir ∧
    isOpen dir = true := by
  constructor
  · intro hv
    exact ⟨visited_ne_nil hv, hv.find h, hv.unmarked, hv.opened h⟩
  · intro hh
    obtain ⟨hne, hfind, hnames, habove⟩ := hh
    exact visited_of_find h hne hfind hnames habove

theorem relative_of_mem_walk (h : e ∈ walk resolves path t) :
    ∃ rest, rest ≠ [] ∧ e.relative = path ++ rest := by
  obtain ⟨rest, node, hv, hs⟩ := mem_walk.mp h
  exact ⟨rest, visited_ne_nil hv, scanEntry_relative hs⟩

theorem relative_of_mem_walkAll (h : e ∈ walkAll resolves path children) :
    ∃ c ∈ children, path ++ [c.1] <+: e.relative := by
  obtain ⟨c, hc, -, first, hfirst, rfl | ⟨-, hbelow⟩⟩ := mem_walkAll.mp h
  · refine ⟨c, hc, ?_⟩
    rw [scanEntry_relative hfirst]
  · obtain ⟨rest, -, hrest⟩ := relative_of_mem_walk hbelow
    refine ⟨c, hc, ?_⟩
    rw [hrest]
    exact List.prefix_append _ _

/-- What is found at one name is listed once, and lies there. -/
theorem nodup_withBelow {below : List ModuleEntry} (entry : Option ModuleEntry)
    (hentry : ∀ first, entry = some first → first.relative = path)
    (hbelow : ∀ x ∈ below, ∃ rest, rest ≠ [] ∧ x.relative = path ++ rest)
    (hnodup : (below.map ModuleEntry.relative).Nodup) :
    ((withBelow entry below).map ModuleEntry.relative).Nodup ∧ ∀ x ∈ withBelow entry below,
    path <+: x.relative := by
  cases entry with
  | none => exact ⟨List.nodup_nil, fun x hx => absurd hx List.not_mem_nil⟩
  | some first =>
    have hfirst := hentry first rfl
    rw [withBelow, List.map_cons, List.nodup_cons]
    refine ⟨⟨fun hmem => ?_, hnodup⟩, List.forall_mem_cons.mpr ⟨hfirst ▸ List.prefix_rfl, fun x hx => ?_⟩⟩
    · obtain ⟨x, hx, heq⟩ := List.mem_map.mp hmem
      obtain ⟨rest, hne, hrest⟩ := hbelow x hx
      rw [hrest, hfirst] at heq
      exact hne (List.append_right_eq_self.mp heq)
    · obtain ⟨rest, -, hrest⟩ := hbelow x hx
      exact hrest ▸ List.prefix_append _ _

theorem nodup_walkAll (hnodup : (children.map Prod.fst).Nodup)
    (hbelow : ∀ c ∈ children, ∀ path, ((walk resolves path c.2).map ModuleEntry.relative).Nodup)
    (path : Names) :
    ((walkAll resolves path children).map ModuleEntry.relative).Nodup := by
  induction children with
  | nil => exact List.nodup_nil
  | cons c rest ih =>
    obtain ⟨name, node⟩ := c
    rw [List.map_cons, List.nodup_cons] at hnodup
    obtain ⟨hnode, hrest⟩ := List.forall_mem_cons.mp hbelow
    let below := if isOpen node then walk resolves (path ++ [name]) node else []
    have hinside : ∀ x ∈ below, ∃ rest, rest ≠ [] ∧ x.relative = (path ++ [name]) ++ rest := by
      intro x hx
      cases ho : isOpen node with
      | true => exact relative_of_mem_walk (by simpa [below, ho] using hx)
      | false => simp [below, ho] at hx
    have honce : (below.map ModuleEntry.relative).Nodup := by
      cases ho : isOpen node with
      | true => simpa [below, ho] using hnode (path ++ [name])
      | false => simp [below, ho]
    obtain ⟨hfound, hthere⟩ := nodup_withBelow (scanEntry resolves (path ++ [name]) node)
      (fun _ hs => scanEntry_relative hs) hinside honce
    rw [walkAll, List.map_append]
    cases hm : isMarker name with
    | true =>
      rw [if_pos rfl]
      exact ih hnodup.2 hrest
    | false =>
      rw [if_neg Bool.false_ne_true]
      refine List.Nodup.append hfound (ih hnodup.2 hrest) fun q hq hq' => ?_
      obtain ⟨x, hx, rfl⟩ := List.mem_map.mp hq
      obtain ⟨y, hy, hyx⟩ := List.mem_map.mp hq'
      obtain ⟨c, hc, hpre⟩ := relative_of_mem_walkAll hy
      rw [hyx] at hpre
      have hsame : path ++ [name] = path ++ [c.1] :=
        (List.prefix_of_prefix_length_le (hthere x hx) hpre (by simp)).eq_of_length (by simp)
      have hname : name = c.1 := (List.cons.inj (List.append_cancel_left hsame)).1
      exact hnodup.1 (hname ▸ (List.mem_map_of_mem hc : c.1 ∈ rest.map Prod.fst))

theorem nodup_walk (h : Lawful t) (path : Names) :
    ((walk resolves path t).map ModuleEntry.relative).Nodup := by
  induction t using Trie.induct generalizing path with
  | h t ih =>
    have hnodup := h.nodup
    obtain ⟨value, children⟩ := t
    rw [walk]
    exact nodup_walkAll hnodup (fun c hc path => ih c hc (h.child hc) path) path

end HybridMount.Scanner
