import HybridMount.Discovery

/-! Where the paths of modules go: both spellings of a partition have one answer, and paths leave
their partition's root only into a root nested with it. -/

namespace HybridMount.Plan.PartitionLayout

/-- Empty, with an empty or dotted component (an absolute path begins with an empty one), or with a
backslash, a zero character or a colon. -/
def Malformed (relative : Names) : Prop :=
  relative = [] ∨ ∃ name ∈ relative, name = "" ∨ name = "." ∨ name = ".." ∨ '\\' ∈ name.toList ∨
    '\x00' ∈ name.toList ∨ ':' ∈ name.toList

def Known (layout : PartitionLayout) (name : String) : Prop := (layout.root? name).isSome = true ∨
    (layout.error? name).isSome = true

/-- The partition of a path and the rest of it. -/
inductive Spells (layout : PartitionLayout) : Names → String → Names → Prop
  | legacy {name : String} {rest : Names} : name ≠ "system" → layout.Known name →
      Spells layout ("system" :: name :: rest) name rest
  | plain {name : String} {rest : Names} :
      (name = "system" → ∀ other tail, rest = other :: tail → other ≠ "system" → ¬ layout.Known other) →
      Spells layout (name :: rest) name rest

variable {layout : PartitionLayout} {relative relative' rest rest' : Names} {name name' : String}
  {target target' : Names}

section Spelling

theorem badComponent_iff : badComponent name = true ↔
    name = "" ∨ name = "." ∨ name = ".." ∨ '\\' ∈ name.toList ∨ '\x00' ∈ name.toList ∨ ':' ∈ name.toList := by
  have hchar : ∀ c : Char, c.toNat = 0x5c ∨ c.toNat = 0 ∨ c.toNat = 0x3a ↔
      c = '\\' ∨ c = '\x00' ∨ c = ':' := by
    intro c
    have heq : ∀ d : Char, c.toNat = d.toNat ↔ c = d :=
      fun d => ⟨fun h => Char.ext (UInt32.toNat_inj.mp h), fun h => h ▸ rfl⟩
    exact or_congr (heq '\\') (or_congr (heq '\x00') (heq ':'))
  simp only [badComponent, Bool.or_eq_true, decide_eq_true_eq, List.any_eq_true, List.contains_iff_mem,
    List.mem_cons, List.not_mem_nil, or_false,
    hchar, or_assoc]
  refine or_congr_right (or_congr_right (or_congr_right ?_))
  constructor
  · rintro ⟨c, hc, rfl | rfl | rfl⟩
    · exact .inl hc
    · exact .inr (.inl hc)
    · exact .inr (.inr hc)
  · rintro (h | h | h)
    · exact ⟨_, h, .inl rfl⟩
    · exact ⟨_, h, .inr (.inl rfl)⟩
    · exact ⟨_, h, .inr (.inr rfl)⟩

theorem malformed_iff : Malformed relative ↔ relative = [] ∨ relative.any badComponent = true := by
  simp only [Malformed, List.any_eq_true, badComponent_iff]

/-- The prefix of the legacy spelling is never at fault. -/
theorem malformed_legacy : Malformed ("system" :: name :: rest) ↔ Malformed (name :: rest) := by
  have hsystem : badComponent "system" = false := by decide +kernel
  simp only [malformed_iff, reduceCtorEq, false_or, List.any_cons, hsystem, Bool.false_or]

theorem Spells.logical (h : layout.Spells relative name rest) :
    relative ≠ [] ∧ layout.logicalPartition relative = name ∧
    relative.drop (layout.rootLen relative) = rest := by
  cases h with
  | legacy hne hknown =>
    have hname : layout.logicalPartition ("system" :: name :: rest) = name := by
      rw [logicalPartition, if_pos ⟨rfl, hne, hknown⟩]
    refine ⟨List.cons_ne_nil _ _, hname, ?_⟩
    simp only [rootLen, hname, hne, ne_eq, not_false_eq_true, and_self, if_true]
    rfl
  | plain hplain =>
    refine ⟨List.cons_ne_nil _ _, ?_⟩
    cases rest with
    | nil => exact ⟨rfl, rfl⟩
    | cons other tail =>
      have hnot : ¬ (name = "system" ∧ other ≠ "system" ∧
          ((layout.root? other).isSome ∨ (layout.error? other).isSome)) :=
        fun h => hplain h.1 other tail rfl h.2.1 h.2.2
      have hname : layout.logicalPartition (name :: other :: tail) = name := by
        rw [logicalPartition, if_neg hnot]
      refine ⟨hname, ?_⟩
      have hlen : layout.rootLen (name :: other :: tail) = 1 := by
        simp only [rootLen, hname]
        exact if_neg fun h => h.2 h.1
      rw [hlen]
      rfl

theorem exists_spells (layout : PartitionLayout) (h : relative ≠ []) :
    ∃ name rest, layout.Spells relative name rest := by
  cases relative with
  | nil => exact absurd rfl h
  | cons first rest =>
    by_cases hlegacy : first = "system" ∧ ∃ other tail, rest = other :: tail ∧ other ≠ "system" ∧
      layout.Known other
    · obtain ⟨rfl, other, tail, rfl, hne, hknown⟩ := hlegacy
      exact ⟨other, tail, .legacy hne hknown⟩
    · exact ⟨first, rest, .plain fun hfirst other tail hrest hne hknown =>
        hlegacy ⟨hfirst, other, tail, hrest, hne, hknown⟩⟩

end Spelling

section Mapping

theorem mapTarget_spells (h : layout.Spells relative name rest) (hformed : ¬ Malformed relative) :
    layout.mapTarget relative =
    match layout.error? name with
    | some diagnostic => .error (.partitionSkipped name diagnostic.reason)
    | none => .ok (name, layout.rootOf name ++ rest) := by
  obtain ⟨hne, hname, hrest⟩ := h.logical
  rw [malformed_iff] at hformed
  rw [mapTarget, if_neg hformed]
  cases herror : layout.error? name with
  | none => simp only [targetOf, hname, hrest, herror]
  | some diagnostic => simp only [hname, herror]

theorem mapTarget_malformed (h : Malformed relative) :
    layout.mapTarget relative = .error (.invalidModulePath relative) := by
  rw [mapTarget, if_pos (malformed_iff.mp h)]

theorem mapTarget_legacy (hne : name ≠ "system") (hknown : layout.Known name) :
    (layout.mapTarget ("system" :: name :: rest)).toOption = (layout.mapTarget (name :: rest)).toOption ∧
      (¬ Malformed (name :: rest) → layout.mapTarget ("system" :: name :: rest) =
        layout.mapTarget (name :: rest)) := by
  have hsame : ¬ Malformed (name :: rest) → layout.mapTarget ("system" :: name :: rest) =
      layout.mapTarget (name :: rest) := by
    intro hformed
    have hplain : layout.Spells (name :: rest) name rest := .plain fun hsystem => absurd hsystem hne
    rw [mapTarget_spells hplain hformed,
      mapTarget_spells (.legacy hne hknown) (malformed_legacy.not.mpr hformed)]
  refine ⟨?_, hsame⟩
  by_cases hformed : Malformed (name :: rest)
  · rw [mapTarget_malformed hformed, mapTarget_malformed (malformed_legacy.mpr hformed)]
    rfl
  · rw [hsame hformed]

theorem mapTarget_nested (h : layout.Spells relative name rest) (h' : layout.Spells relative' name' rest')
    (hpaths : ¬ name :: rest <+: name' :: rest') (ht : layout.mapTarget relative = .ok (name, target))
    (ht' : layout.mapTarget relative' = .ok (name', target')) (hbelow : target <+: target') :
    name ≠ name' ∧
    (layout.rootOf name <+: layout.rootOf name' ∨ layout.rootOf name' <+: layout.rootOf name) := by
  obtain ⟨-, hname, hrest⟩ := h.logical
  obtain ⟨-, hname', hrest'⟩ := h'.logical
  obtain ⟨-, -, -, htarget, -⟩ := mapTarget_ok ht
  obtain ⟨-, -, -, htarget', -⟩ := mapTarget_ok ht'
  rw [targetOf, hname, hrest] at htarget
  rw [targetOf, hname', hrest'] at htarget'
  subst htarget htarget'
  refine ⟨?_, ?_⟩
  · rintro rfl
    exact hpaths ((List.prefix_cons_inj name).mpr ((List.prefix_append_right_inj _).mp hbelow))
  · exact List.prefix_or_prefix_of_prefix ((List.prefix_append _ _).trans hbelow) (List.prefix_append _ _)

end Mapping

/-- A path is refused exactly when it is malformed or its partition is rejected, and else goes below its
partition's root; both spellings agree; and paths of which neither leads to the other are mapped below
each other only where the roots of their partitions are. -/
theorem map_target_sound (layout : PartitionLayout) :
    (∀ relative, Malformed relative → ∃ e, layout.mapTarget relative = .error e) ∧
      (∀ relative, ¬ Malformed relative → ∃ name rest, layout.Spells relative name rest ∧
        layout.mapTarget relative =
        match layout.error? name with
        | some diagnostic => .error (.partitionSkipped name diagnostic.reason)
        | none => .ok (name, (layout.root? name).getD [name] ++ rest)) ∧
      (∀ name rest, name ≠ "system" → layout.Known name →
        (layout.mapTarget ("system" :: name :: rest)).toOption = (layout.mapTarget (name :: rest)).toOption ∧
          (¬ Malformed (name :: rest) → layout.mapTarget ("system" :: name :: rest) =
            layout.mapTarget (name :: rest))) ∧
      ∀ relative relative' name name' rest rest' target target', layout.Spells relative name rest →
        layout.Spells relative' name' rest' →
        ¬ name :: rest <+: name' :: rest' → layout.mapTarget relative = .ok (name, target) →
          layout.mapTarget relative' = .ok (name', target') →
        target <+: target' → name ≠ name' ∧
          (layout.rootOf name <+: layout.rootOf name' ∨ layout.rootOf name' <+: layout.rootOf name) := by
  refine ⟨fun relative h => ⟨_, mapTarget_malformed h⟩, fun relative hformed => ?_,
    fun name rest hne hknown => mapTarget_legacy hne hknown,
    fun relative relative' name name' rest rest' target target' h h' => mapTarget_nested h h'⟩
  have hne : relative ≠ [] := fun hnil => hformed (.inl hnil)
  obtain ⟨name, rest, hspells⟩ := exists_spells layout hne
  exact ⟨name, rest, hspells, mapTarget_spells hspells hformed⟩

/-- The extension partition is a directory of the system partition. -/
def nestedExtension : Discovery.LayoutSnapshot where
  mounts := [⟨[], [], 1, "0:7"⟩]
  paths path :=
    if path = ["system"] then some ⟨["system"], 7, 2, 1, true⟩
    else if path = ["system", "system_ext"] then some ⟨["system", "system_ext"], 7, 3, 1, true⟩
    else none
  pathErrors _ := none

/-- The names share a beginning only, but one target is below the other. -/
theorem system_above_extension : "system".toList <+: "system_ext".toList ∧
    (let layout := (Discovery.discoverLayout nestedExtension ["system_ext"] []).layout
    layout.mapTarget ["system"] = .ok ("system", ["system"]) ∧
      layout.mapTarget ["system_ext", "app"] = .ok ("system_ext", ["system", "system_ext", "app"]) ∧
        ["system"] <+: ["system", "system_ext", "app"]) := by
  decide +kernel

end HybridMount.Plan.PartitionLayout
