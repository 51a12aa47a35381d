import HybridMount.MagicMerge

/-! The entries of a directory are handled one after the other: first those of the real directory, then
the children which it does not have. -/

namespace HybridMount.Plan.Magic

open Fallible

/-- What holds of a directory when some of its names have been handled is kept by each further name. -/
structure Handles (setting : Setting) (node : MountNode) (path : Names) (hasTmpfs : Bool)
    (entries : List (String × Files))
    (I : List String → Progress → Prop) (E : Prop) : Prop where
  child : ∀ names progress name child, magicChild node name = some child → name ∉ names → I names progress →
    Ends (doMount setting child (path ++ [name]) hasTmpfs progress.run)
      (fun r => ∀ processed, I (names ++ [name]) (Progress.stage ⟨r.1, progress.staged, processed⟩ name r.2)) E
  other : ∀ names progress name entry, (name, entry) ∈ entries → magicChild node name = none → name ∉ names →
    I names progress →
    I (names ++ [name]) (if hasTmpfs then
      Progress.stage ⟨progress.run.recordMirror setting (path ++ [name]) entry, progress.staged,
        progress.processed⟩ name
        (mountMirror setting (path ++ [name]) entry) else progress)

variable {setting : Setting} {node child : MountNode} {path : Names} {hasTmpfs : Bool} {name : String}
  {entries : List (String × Files)}
  {entry : Files} {run : MagicRun} {progress : Progress} {names : List String}
    {I : List String → Progress → Prop} {E : Prop}

/-- Just the names that Magic has something at have been processed. -/
def Processed (node : MountNode) (names : List String) (progress : Progress) : Prop :=
  ∀ key, key ∈ progress.processed ↔ key ∈ names ∧ (magicChild node key).isSome

theorem Handles.each (h : Handles setting node path hasTmpfs entries I E) (hmem : (name, entry) ∈ entries)
    (hname : name ∉ names)
    (hi : I names progress) (hprocessed : Processed node names progress) :
    Ends (mountEntry setting (childMounts setting node.children) path hasTmpfs progress (name, entry))
      (fun p => I (names ++ [name]) p ∧ Processed node (names ++ [name]) p) E := by
  unfold mountEntry
  rw [run_magicChild]
  cases hchild : magicChild node name with
  | none =>
    have hother := h.other names progress name entry hmem hchild hname hi
    have hkept : ∀ key, key ∈ progress.processed ↔ key ∈ names ++ [name] ∧ (magicChild node key).isSome := by
      intro key
      rw [hprocessed, List.mem_append, List.mem_singleton, or_and_right]
      refine (or_iff_left ?_).symm
      rintro ⟨rfl, hsome⟩
      rw [hchild] at hsome
      cases hsome
    cases hasTmpfs with
    | false => exact Ends.ok ⟨hother, hkept⟩
    | true => exact Ends.ok ⟨hother, hkept⟩
  | some child =>
    have hends := h.child names progress name child hchild hname hi
    simp only [Option.map_some]
    cases hdone : doMount setting child (path ++ [name]) hasTmpfs progress.run with
    | error e =>
      rw [hdone] at hends
      exact Ends.error hends
    | ok r =>
      refine Ends.ok ⟨hends.of_ok hdone _, fun key => ?_⟩
      simp only [Progress.stage]
      rw [List.mem_append, hprocessed, List.mem_append, List.mem_singleton, or_and_right]
      refine or_congr_right ⟨fun heq => ⟨heq, ?_⟩, And.left⟩
      rw [heq, hchild]
      rfl

theorem Handles.all (h : Handles setting node path hasTmpfs entries I E)
    (hnodup : (entries.map Prod.fst).Nodup)
    (hi : I [] ⟨run, [], []⟩) :
    Ends (entries.foldlM (mountEntry setting (childMounts setting node.children) path hasTmpfs) ⟨run, [], []⟩)
      (fun p => I (entries.map Prod.fst) p ∧ Processed node (entries.map Prod.fst) p) E := by
  refine Ends.foldlM (fun before p => I (before.map Prod.fst) p ∧ Processed node (before.map Prod.fst) p) ?_
    ⟨hi, fun key => by simp⟩
  intro before entry progress hpre hbefore
  have hmem : entry ∈ entries := hpre.subset (List.mem_append_right _ List.mem_cons_self)
  have hfresh : entry.1 ∉ before.map Prod.fst := by
    have hnodup' := (hpre.map Prod.fst).sublist.nodup hnodup
    rw [List.map_append, List.nodup_append] at hnodup'
    intro hold
    exact hnodup'.2.2 _ hold _ List.mem_cons_self rfl
  rw [List.map_append]
  exact h.each hmem hfresh hbefore.1 hbefore.2

/-- A child which the real directory did not bring up. -/
def isLate (progress : Progress) (op : String × Option Mounting) : Bool :=
    op.2.isSome && !progress.processed.contains op.1

/-- The names handled after some of the children. -/
def handled (names : List String) (progress : Progress) (before : List (String × Option Mounting)) :
    List String :=
  names ++ (before.filter (isLate progress)).map Prod.fst

theorem handled_append {before : List (String × Option Mounting)} {op : Option Mounting} :
    handled names progress (before ++ [(name, op)]) =
      if isLate progress (name, op) then handled names progress before ++ [name]
        else handled names progress before := by
  simp only [handled, List.filter_append, List.filter_cons, List.filter_nil, List.map_append]
  split
  · simp
  · simp

theorem not_mem_handled {before ops : List (String × Option Mounting)} {op : Option Mounting}
    (hkeys : (ops.map Prod.fst).Nodup)
    (hpre : before ++ [(name, op)] <+: ops) (hname : name ∉ names) :
    name ∉ handled names progress before := by
  intro hold
  rcases List.mem_append.mp hold with hold | hlate
  · exact hname hold
  · have hnodup := (hpre.map Prod.fst).sublist.nodup hkeys
    rw [List.map_append, List.nodup_append] at hnodup
    exact hnodup.2.2 _ ((List.filter_sublist.map Prod.fst).subset hlate) _ List.mem_cons_self rfl

/-- What one child of Magic adds, if no real entry had its name. -/
theorem Handles.late_child (h : Handles setting node path hasTmpfs entries I E) {first now : Progress}
    {op : Option Mounting}
    (hop : op = (magicChild node name).map (doMount setting)) (hsame : now.processed = first.processed)
    (hfresh : isLate first (name, op) = true → name ∉ names) (hi : I names now) :
    Ends (mountMissing path hasTmpfs now (name, op))
      (fun p => p.processed = first.processed ∧
        I (if isLate first (name, op) then names ++ [name] else names) p) E := by
  subst hop
  unfold mountMissing
  cases hchild : magicChild node name with
  | none => exact Ends.ok ⟨hsame, hi⟩
  | some child =>
    rw [hchild] at hfresh
    rw [hsame]
    cases hcontains : first.processed.contains name with
    | true =>
      simp only [isLate, Option.map_some, hcontains, if_true, Option.isSome_some, Bool.not_true,
        Bool.and_false, Bool.false_eq_true, if_false]
      exact Ends.ok ⟨hsame, hi⟩
    | false =>
      have hlate : isLate first (name, some (doMount setting child)) = true := by
        rw [isLate, hcontains]
        rfl
      simp only [Option.map_some, hlate, if_true, Bool.false_eq_true, if_false]
      exact Ends.bind (h.child _ now name child hchild (hfresh hlate) hi) fun r hr => Ends.ok ⟨rfl, hr _⟩

/-- Afterwards the names of all children of Magic have been handled. -/
theorem Handles.missing (h : Handles setting node path hasTmpfs entries I E) (hordered : node.Ordered compare)
    (hi : I names progress)
    (hprocessed : Processed node names progress) :
    Ends ((childMounts setting node.children).foldlM (mountMissing path hasTmpfs) progress)
      (fun p => ∃ names', I (names ++ names') p ∧ ∀ name child, magicChild node name = some child →
        name ∈ names ++ names') E := by
  let ops := childMounts setting node.children
  have hkeys : (ops.map Prod.fst).Nodup := by
    rw [keys_childMounts]
    exact keys_nodup hordered
  have hfold : Ends (ops.foldlM (mountMissing path hasTmpfs) progress)
      (fun p => p.processed = progress.processed ∧ I (handled names progress ops) p) E := by
    refine Ends.foldlM (fun before p => p.processed = progress.processed ∧
      I (handled names progress before) p) ?_ ⟨rfl, ?_⟩
    · intro before op p hpre hbefore
      obtain ⟨name, doing⟩ := op
      have hmem : (name, doing) ∈ ops := hpre.subset (List.mem_append_right _ List.mem_cons_self)
      have hdoing := op_magicChild hordered hmem
      rw [handled_append]
      refine h.late_child hdoing hbefore.1 (fun hlate => not_mem_handled hkeys hpre fun hname => ?_) hbefore.2
      rw [isLate, hdoing, Option.isSome_map, Bool.and_eq_true] at hlate
      have hheld := (hprocessed name).mpr ⟨hname, hlate.1⟩
      simp [hheld] at hlate
    · simpa [handled] using hi
  refine hfold.imp (fun p hp => ⟨_, hp.2, fun name child hchild => ?_⟩) id
  by_cases hname : name ∈ names
  · exact List.mem_append_left _ hname
  · have hnot : name ∉ progress.processed := fun hold => hname ((hprocessed name).mp hold).1
    refine List.mem_append_right _
      (List.mem_map.mpr ⟨_, List.mem_filter.mpr ⟨mem_ops hordered hchild, ?_⟩, rfl⟩)
    simpa [isLate] using hnot

end HybridMount.Plan.Magic
