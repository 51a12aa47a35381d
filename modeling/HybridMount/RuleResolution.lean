import HybridMount.OrderedLists
import HybridMount.Planner

/-! The mode of a path is that of the longest path rule above it, unless a rule is spelled with
a slash at its end. -/

namespace HybridMount.Plan

open LongestPrefix

/-- The text of a key without the slashes on either side. -/
def barePath (key : String) : List Char := (normalizeRulePath key).toList.rdropWhile fun c => c = '/'

/-- The path which a key denotes; without any component it is the module itself. -/
def rulePath (key : String) : Names :=
  if barePath key = [] then [] else (Path.segments (barePath key)).map String.ofList

/-- Does the text of a key go on after its last slash? -/
def endsInName (key : String) : Bool := (normalizeRulePath key).toList.getLast?.any fun c => c ≠ '/'

def Config.pathRules (config : Config) (moduleId : String) : List (String × Mode) :=
  ((OrderedMap.get compare moduleId config.rules).map ModuleRule.paths).getD []

def Config.defaultFor (config : Config) (moduleId : String) : Mode :=
  ((OrderedMap.get compare moduleId config.rules).bind ModuleRule.defaultMode).getD config.defaultMode

/-- The mode of the longest rule on the way to a path, or else the default. -/
def Declares (paths : List (String × Mode)) (default : Mode) (path : Names) (mode : Mode) : Prop :=
  (∃ r, Longest (fun r => rulePath r.1) paths path r ∧ r.2 = mode) ∨ (∀ r ∈ paths, ¬ rulePath r.1 <+: path) ∧
    default = mode

/-- Keys that denote one path have one mode. -/
def OneMode (paths : List (String × Mode)) : Prop :=
    ∀ r ∈ paths, ∀ s ∈ paths, rulePath r.1 = rulePath s.1 → r.2 = s.2

variable {paths sub : List (String × Mode)} {default mode mode' : Mode} {path q relative : Names}
  {key : String} {config : Config}
  {moduleId : String} {r s : String × Mode} {cs ds rest : List Char}

section Segments

theorem segments_ne_nil : Path.segments cs ≠ [] := by
  cases cs with
  | nil => simp [Path.segments]
  | cons c cs =>
    rw [Path.segments]
    split
    · simp
    · split
      · simp
      · simp

theorem segments_slash : Path.segments (cs ++ '/' :: rest) = Path.segments cs ++ Path.segments rest := by
  induction cs with
  | nil => simp [Path.segments]
  | cons c cs ih =>
    rw [List.cons_append, Path.segments, Path.segments, ih]
    split
    · rfl
    · cases hcs : Path.segments cs with
      | nil => exact absurd hcs segments_ne_nil
      | cons first others => rfl

theorem intercalate_segments (cs : List Char) : ['/'].intercalate (Path.segments cs) = cs := by
  induction cs with
  | nil => rfl
  | cons c cs ih =>
    rw [Path.segments]
    split
    · rename_i hc
      rw [List.intercalate_cons_of_ne_nil segments_ne_nil, ih, hc]
      rfl
    · cases hcs : Path.segments cs with
      | nil => exact absurd hcs segments_ne_nil
      | cons first others =>
        rw [hcs] at ih
        cases others with
        | nil =>
          rw [List.intercalate_singleton] at ih ⊢
          rw [ih]
        | cons second others =>
          rw [List.intercalate_cons_cons] at ih ⊢
          rw [List.cons_append, List.cons_append, ih]

theorem segments_injective (h : Path.segments cs = Path.segments ds) : cs = ds := by
  rw [← intercalate_segments cs, h, intercalate_segments]

theorem intercalate_append {front back : List (List Char)} (hfront : front ≠ []) (hback : back ≠ []) :
    ['/'].intercalate (front ++ back) = ['/'].intercalate front ++ '/' :: ['/'].intercalate back := by
  induction front with
  | nil => exact absurd rfl hfront
  | cons first front ih =>
    cases front with
    | nil =>
      rw [List.cons_append, List.nil_append, List.intercalate_cons_of_ne_nil hback,
        List.intercalate_singleton]
      simp
    | cons second front =>
      have hnext := ih (List.cons_ne_nil _ _)
      rw [List.cons_append, List.intercalate_cons_of_ne_nil (by simp), hnext, List.intercalate_cons_cons]
      simp

theorem segments_prefix : Path.segments cs <+: Path.segments ds ↔
    ds = cs ∨ ∃ rest, ds = cs ++ '/' :: rest := by
  constructor
  · rintro ⟨more, hmore⟩
    by_cases hnil : more = []
    · rw [hnil, List.append_nil] at hmore
      exact .inl (segments_injective hmore).symm
    · refine .inr ⟨['/'].intercalate more, ?_⟩
      rw [← intercalate_segments ds, ← hmore, intercalate_append segments_ne_nil hnil, intercalate_segments]
  · rintro (rfl | ⟨rest, rfl⟩)
    · exact List.prefix_refl _
    · rw [segments_slash]
      exact List.prefix_append _ _

theorem isSameOrBelow_text {path above : String} : isSameOrBelow (splitPath path) (splitPath above) = true ↔
    path = above ∨ ∃ rest, path = above ++ "/" ++ rest := by
  rw [isSameOrBelow_iff, splitPath, splitPath, List.prefix_map_iff_of_injective fun _ _ =>
    String.ofList_injective, segments_prefix]
  constructor
  · rintro (h | ⟨rest, h⟩)
    · exact .inl (String.toList_injective h)
    · refine .inr ⟨String.ofList rest, String.toList_injective ?_⟩
      simpa using h
  · rintro (rfl | ⟨rest, rfl⟩)
    · exact .inl rfl
    · exact .inr ⟨rest.toList, by simp⟩

end Segments

section Keys

theorem rulePath_of_name (h : endsInName key = true) : rulePath key = splitPath (normalizeRulePath key) := by
  obtain ⟨c, hlast, hc⟩ := Option.any_eq_true _ _ |>.mp h
  have hbare : barePath key = (normalizeRulePath key).toList := by
    refine List.rdropWhile_eq_self_iff.mpr fun hne => ?_
    rw [List.getLast?_eq_some_getLast hne, Option.some.injEq] at hlast
    simpa [hlast] using hc
  have hne : barePath key ≠ [] := by
    rw [hbare]
    rintro hnil
    rw [hnil] at hlast
    cases hlast
  rw [rulePath, if_neg hne, hbare, splitPath]

theorem rulePath_ne_nil (h : endsInName key = true) : rulePath key ≠ [] := by
  rw [rulePath_of_name h, splitPath]
  simp [segments_ne_nil]

/-- Behind the last slash of another key there is an empty component. -/
theorem mem_splitPath_of_not_name (h : endsInName key = false) : "" ∈ splitPath (normalizeRulePath key) := by
  have hlast : ∀ c, (normalizeRulePath key).toList.getLast? = some c → c = '/' := by
    intro c hc
    rw [endsInName, hc] at h
    simpa using h
  cases hget : (normalizeRulePath key).toList.getLast? with
  | none =>
    rw [List.getLast?_eq_none_iff] at hget
    rw [splitPath, hget]
    decide
  | some c =>
    obtain ⟨front, hfront⟩ := List.getLast?_eq_some_iff.mp hget
    rw [hlast c hget] at hfront
    rw [splitPath, hfront, segments_slash]
    simp [Path.segments]

theorem heard_iff (hempty : "" ∉ relative) : splitPath (normalizeRulePath key) <+: relative ↔
    endsInName key = true ∧ rulePath key <+: relative := by
  constructor
  · intro h
    have hname : endsInName key = true := by
      by_contra hnot
      rw [Bool.not_eq_true] at hnot
      exact hempty (h.subset (mem_splitPath_of_not_name hnot))
    exact ⟨hname, rulePath_of_name hname ▸ h⟩
  · rintro ⟨hname, h⟩
    exact rulePath_of_name hname ▸ h

end Keys

section Declared

theorem Declares.unique (hmode : OneMode paths) (h : Declares paths default path mode)
    (h' : Declares paths default path mode') : mode = mode' := by
  rcases h with ⟨r, hr, rfl⟩ | ⟨hnone, rfl⟩
  · rcases h' with ⟨s, hs, rfl⟩ | ⟨hnone, -⟩
    · exact hmode r hr.mem s hs.mem (hr.key_eq hs)
    · exact absurd hr.onPath (hnone r hr.mem)
  · rcases h' with ⟨s, hs, -⟩ | ⟨-, rfl⟩
    · exact absurd hs.onPath (hnone s hs.mem)
    · rfl

theorem Declares.congr (h : ∀ r ∈ paths, rulePath r.1 <+: path ↔ rulePath r.1 <+: q)
    (hd : Declares paths default path mode) :
    Declares paths default q mode := by
  rcases hd with ⟨r, hr, hm⟩ | ⟨hnone, hm⟩
  · exact .inl ⟨r, hr.congr h, hm⟩
  · exact .inr ⟨fun r hr hpre => hnone r hr ((h r hr).mpr hpre), hm⟩

theorem exists_declares (paths : List (String × Mode)) (default : Mode) (path : Names) :
    ∃ mode, Declares paths default path mode := by
  by_cases h : ∃ r ∈ paths, rulePath r.1 <+: path
  · obtain ⟨r, hr⟩ : ∃ r, Longest (fun r : String × Mode => rulePath r.1) paths path r := exists_longest h
    exact ⟨_, .inl ⟨r, hr, rfl⟩⟩
  · exact ⟨_, .inr ⟨fun r hr hpre => h ⟨r, hr, hpre⟩, rfl⟩⟩

theorem OneMode.filter (p : String × Mode → Bool) (h : OneMode paths) : OneMode (paths.filter p) :=
  fun r hr s hs => h r (List.mem_of_mem_filter hr) s (List.mem_of_mem_filter hs)

end Declared

namespace ModuleRulesView

section Sorting

def KeyLe (left right : String × Mode) : Prop := keyOrder left right ≠ .gt

instance : DecidableRel KeyLe := fun left right => inferInstanceAs (Decidable (keyOrder left right ≠ .gt))

instance : Std.TransCmp keyOrder :=
  inferInstanceAs (Std.TransCmp
    (compareLex (fun left right : String × Mode =>
    compareOn (fun r : String × Mode => r.1.utf8ByteSize) right left)
    (compareOn Prod.fst)))

instance : Std.Total KeyLe where
  total a b := Comparison.total a b

instance : IsTrans (String × Mode) KeyLe where
  trans _ _ _ hab hbc := Comparison.trans hab hbc

theorem KeyLe.size (h : KeyLe r s) : s.1.utf8ByteSize ≤ r.1.utf8ByteSize := by
  by_contra hlt
  have hgt : compare s.1.utf8ByteSize r.1.utf8ByteSize = .gt := Nat.compare_eq_gt.mpr (by omega)
  simp [KeyLe, keyOrder, hgt] at h

theorem KeyLe.keys (h : KeyLe r s) (hpre : splitPath r.1 <+: splitPath s.1) :
    splitPath r.1 = splitPath s.1 := by
  rcases isSameOrBelow_text.mp (isSameOrBelow_iff.mpr hpre) with heq | ⟨rest, hrest⟩
  · rw [heq]
  · have hsize := h.size
    rw [hrest, String.utf8ByteSize_append, String.utf8ByteSize_append] at hsize
    have hslash : "/".utf8ByteSize = 1 := by decide
    omega

end Sorting

section Resolve

theorem pathRules_new : (new moduleId config true).pathRules =
    ((config.pathRules moduleId).map fun path => (normalizeRulePath path.1, path.2)).insertionSort KeyLe := by
  have hdegrade : (fun path : String × Mode => (path.1, degrade true path.2)) = id := by
    funext path
    simp [degrade]
  simp only [new, hdegrade, List.map_id]
  rw [Config.pathRules]
  cases OrderedMap.get compare moduleId config.rules with
  | none => rfl
  | some rule => rfl

theorem defaultMode_new : (new moduleId config true).defaultMode = config.defaultFor moduleId := by
  simp [new, degrade, Config.defaultFor]

theorem resolveMode_degrade : (new moduleId config false).resolveMode relative =
    degrade false ((new moduleId config true).resolveMode relative) := by
  have hdegrade : ∀ mode, degrade true mode = mode := fun mode => by simp [degrade]
  simp only [resolveMode, new, hdegrade, List.find?_map, Function.comp_def, Option.map_map, Prod.mk.eta,
    List.map_id']
  generalize List.find? _ _ = found
  cases found with
  | none => rfl
  | some path => rfl

/-- Only the keys which end in a name are ever heard. -/
theorem resolveMode_declares (config : Config) (moduleId : String) (hempty : "" ∉ relative) :
    Declares ((config.pathRules moduleId).filter fun s => endsInName s.1)
      (config.defaultFor moduleId) relative
      ((new moduleId config true).resolveMode relative) := by
  rw [resolveMode, pathRules_new, defaultMode_new]
  set sorted := ((config.pathRules moduleId).map fun path => (normalizeRulePath path.1, path.2)).insertionSort
    KeyLe
  have hmem : ∀ r, r ∈ sorted ↔
      ∃ path ∈ config.pathRules moduleId, (normalizeRulePath path.1, path.2) = r := by
    intro r
    rw [List.mem_insertionSort, List.mem_map]
  have hheard : ∀ path ∈ config.pathRules moduleId, splitPath (normalizeRulePath path.1) <+: relative ↔
      path ∈ (config.pathRules moduleId).filter (fun s => endsInName s.1) ∧ rulePath path.1 <+: relative := by
    intro path hpath
    rw [heard_iff hempty, List.mem_filter, and_iff_right hpath]
  cases hfind : sorted.find? fun path => isSameOrBelow relative (splitPath path.1) with
  | none =>
    refine .inr ⟨fun r hr hpre => ?_, rfl⟩
    have hin := List.mem_of_mem_filter hr
    have hnot := List.find?_eq_none.mp hfind _ ((hmem _).mpr ⟨r, hin, rfl⟩)
    exact hnot (isSameOrBelow_iff.mpr ((hheard r hin).mpr ⟨hr, hpre⟩))
  | some found =>
    have hsorted : sorted.Pairwise fun r s => splitPath r.1 <+: splitPath s.1 →
        splitPath r.1 = splitPath s.1 :=
      (List.pairwise_insertionSort KeyLe _).imp fun h => h.keys
    have hlongest : Longest (fun r => splitPath r.1) sorted relative found := longest_find? hsorted hfind
    obtain ⟨path, hpath, rfl⟩ := (hmem found).mp hlongest.mem
    obtain ⟨hnamed, hpre⟩ := (hheard path hpath).mp hlongest.onPath
    refine .inl ⟨path, ⟨hnamed, hpre, fun other hother hon => ?_⟩, rfl⟩
    have hin := List.mem_of_mem_filter hother
    have hle := hlongest.longest _ ((hmem _).mpr ⟨other, hin, rfl⟩) ((hheard other hin).mpr ⟨hother, hon⟩)
    have hends : endsInName path.1 = true := (List.mem_filter.mp hnamed).2
    have hends' : endsInName other.1 = true := (List.mem_filter.mp hother).2
    rwa [← rulePath_of_name hends, ← rulePath_of_name hends'] at hle

end Resolve

end ModuleRulesView

open ModuleRulesView

theorem prefix_singleton {α : Type} {l : List α} {a : α} (h : l <+: [a]) : l = [] ∨ l = [a] := by
  rcases List.prefix_cons_iff.mp h with hnil | ⟨rest, hrest, hpre⟩
  · exact .inl hnil
  · rw [List.prefix_nil.mp hpre] at hrest
    exact .inr hrest

theorem exists_unruled (paths : List (String × Mode)) : ∃ name :
    String, name ≠ "" ∧ ∀ r ∈ paths, rulePath r.1 <+: [name] → rulePath r.1 = [] := by
  obtain ⟨name, hname⟩ := Infinite.exists_notMem_finset ("" :: paths.flatMap fun r => rulePath r.1).toFinset
  rw [List.mem_toFinset, List.mem_cons, not_or] at hname
  refine ⟨name, hname.1, fun r hr hpre => ?_⟩
  rcases prefix_singleton hpre with hnil | hone
  · exact hnil
  · exact absurd (List.mem_flatMap.mpr ⟨r, hr, by simp [hone]⟩) hname.2

theorem Declares.heard (h : ∀ r ∈ paths, endsInName r.1 = false → "" ∉ rulePath r.1 →
    Declares (paths.filter fun s => endsInName s.1) default (rulePath r.1) r.2) (hempty : "" ∉ relative)
    (hd : Declares paths default relative mode) :
    Declares (paths.filter fun s => endsInName s.1) default relative mode := by
  rcases hd with ⟨r, hr, rfl⟩ | ⟨hnone, hm⟩
  · by_cases hend : endsInName r.1 = true
    · refine .inl ⟨r, ⟨List.mem_filter.mpr ⟨hr.mem, by simpa using hend⟩, hr.onPath, fun s hs => ?_⟩, rfl⟩
      exact hr.longest s (List.mem_of_mem_filter hs)
    · rw [Bool.not_eq_true] at hend
      refine (h r hr.mem hend fun hin => hempty (hr.onPath.subset hin)).congr fun s hs =>
        ⟨fun hpre => hpre.trans hr.onPath, fun hpre => ?_⟩
      exact List.prefix_of_prefix_length_le hpre hr.onPath (hr.longest s (List.mem_of_mem_filter hs) hpre)
  · exact .inr ⟨fun r hr => hnone r (List.mem_of_mem_filter hr), hm⟩

/-- Every path has the mode of the longest rule above it exactly when each rule whose key does not end
in a name agrees with the longest other rule above it. -/
theorem resolves_longest_iff (hmode : OneMode (config.pathRules moduleId)) :
    (∀ relative : Names, relative ≠ [] → "" ∉ relative →
      Declares (config.pathRules moduleId) (config.defaultFor moduleId) relative
        ((new moduleId config true).resolveMode relative) ∧
        (new moduleId config false).resolveMode relative ≠ .vfs ∧
          ((new moduleId config true).resolveMode relative ≠ .vfs →
            (new moduleId config false).resolveMode relative = (new moduleId config true).resolveMode relative)) ↔
      ∀ r ∈ config.pathRules moduleId, endsInName r.1 = false → "" ∉ rulePath r.1 →
        Declares ((config.pathRules moduleId).filter fun s => endsInName s.1) (config.defaultFor moduleId)
          (rulePath r.1) r.2 := by
  have hnamed := hmode.filter fun s => endsInName s.1
  constructor
  · intro h r hr hend hempty
    by_cases hroot : rulePath r.1 = []
    · obtain ⟨name, hname, hunruled⟩ := exists_unruled (config.pathRules moduleId)
      have hpath : "" ∉ [name] := by simpa using hname.symm
      have hdeclared := (h [name] (List.cons_ne_nil _ _) hpath).1
      have hheard := resolveMode_declares config moduleId hpath
      have hlongest : Longest (fun r => rulePath r.1) (config.pathRules moduleId) [name] r := by
        refine ⟨hr, ?_, fun s hs hpre => ?_⟩
        · simp only [hroot, List.nil_prefix]
        · simp only [hunruled s hs hpre, hroot, le_refl]
      have hsame : (new moduleId config true).resolveMode [name] = r.2 :=
        hdeclared.unique hmode (.inl ⟨r, hlongest, rfl⟩)
      rw [hsame] at hheard
      refine hheard.congr fun s hs => ?_
      have hends : endsInName s.1 = true := (List.mem_filter.mp hs).2
      have hne := rulePath_ne_nil hends
      rw [hroot, List.prefix_nil]
      exact ⟨fun hpre => absurd (hunruled s (List.mem_of_mem_filter hs) hpre) hne,
        fun hnil => absurd hnil hne⟩
    · have hdeclared := (h (rulePath r.1) hroot hempty).1
      have hheard := resolveMode_declares config moduleId hempty
      have hlongest : Longest (fun r => rulePath r.1) (config.pathRules moduleId) (rulePath r.1) r :=
        ⟨hr, List.prefix_refl _, fun s _ hpre => hpre.length_le⟩
      have hsame : (new moduleId config true).resolveMode (rulePath r.1) = r.2 :=
        hdeclared.unique hmode (.inl ⟨r, hlongest, rfl⟩)
      rwa [hsame] at hheard
  · intro h relative _ hempty
    have hheard := resolveMode_declares config moduleId hempty
    refine ⟨?_, ?_, fun hvfs => ?_⟩
    · obtain ⟨mode, hdeclared⟩ :=
        exists_declares (config.pathRules moduleId) (config.defaultFor moduleId) relative
      suffices hsame : Declares ((config.pathRules moduleId).filter fun s => endsInName s.1)
          (config.defaultFor moduleId) relative mode by
        rwa [hheard.unique hnamed hsame]
      exact hdeclared.heard h hempty
    · rw [resolveMode_degrade, degrade]
      split
      · decide
      · rename_i hnot
        exact fun hvfs => hnot ⟨hvfs, rfl⟩
    · rw [resolveMode_degrade, degrade, if_neg fun hboth => hvfs hboth.1]

def nestedConfig : Config where
  defaultMode := .overlay
  rules := [("fonts", ⟨none, [("/system/fonts", .magic), ("system", .vfs)]⟩)]
  moduleBlacklist := []

theorem resolves_longest_fonts : (new "fonts" nestedConfig false).resolveMode ["system", "fonts", "a.ttf"] =
    (new "fonts" nestedConfig true).resolveMode ["system", "fonts", "a.ttf"] := by
  have hmode : OneMode (nestedConfig.pathRules "fonts") := by
    unfold OneMode
    decide +kernel
  have hnames : ∀ r ∈ nestedConfig.pathRules "fonts", endsInName r.1 = true := by decide +kernel
  have hresolves := (resolves_longest_iff hmode).mpr fun r hr hend => by rw [hnames r hr] at hend; cases hend
  exact (hresolves ["system", "fonts", "a.ttf"] (by decide) (by decide)).2.2 (by decide +kernel)

/-- The same rule with a slash at its end. -/
def slashedConfig : Config where
  defaultMode := .overlay
  rules := [("fonts", ⟨none, [("/system/fonts/", .magic)]⟩)]
  moduleBlacklist := []

theorem slashed_rule_unheard : OneMode (slashedConfig.pathRules "fonts") ∧
    ¬ Declares (slashedConfig.pathRules "fonts") (slashedConfig.defaultFor "fonts")
      ["system", "fonts", "a.ttf"]
      ((new "fonts" slashedConfig true).resolveMode ["system", "fonts", "a.ttf"]) := by
  have hmode : OneMode (slashedConfig.pathRules "fonts") := by
    unfold OneMode
    decide +kernel
  refine ⟨hmode, fun h => ?_⟩
  have hmagic : Declares (slashedConfig.pathRules "fonts") (slashedConfig.defaultFor "fonts")
      ["system", "fonts", "a.ttf"] .magic :=
    .inl ⟨("/system/fonts/", .magic), ⟨by decide +kernel, by decide +kernel, by decide +kernel⟩, rfl⟩
  have hoverlay : (new "fonts" slashedConfig true).resolveMode ["system", "fonts", "a.ttf"] = .overlay := by
    decide +kernel
  rw [h.unique hmode hmagic] at hoverlay
  cases hoverlay

end HybridMount.Plan
