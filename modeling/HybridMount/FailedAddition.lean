import HybridMount.AdditionFrame

/-! When a failed addition leaves the table as it was. The rule in whose place a new one
comes is taken off before the new one is in, and nothing puts it back. -/

namespace HybridMount.Vfs.Kernel

open LittleEndian

section

variable {asked : List Rule} {k k' : Kernel} {env : Nat → Answers} {request : Request} {err : Int32}

/-- An addition fails without a trace: the same rules on the list and in the tree, and the
same children in every child set. -/
structure Unchanged (k k' : Kernel) : Prop where
  rules : ∀ r, r ∈ k'.rules ↔ r ∈ k.rules
  map : ∀ r, Art.Holds r k'.root ↔ Art.Holds r k.root
  children : ∀ dir, (k'.dirs dir).children.Perm (k.dirs dir).children

/-- Once its rule is made, the addition takes no rule of its path and uid off the table and
does not come to a directory where its entry is taken. -/
def Undisturbing (env : Nat → Answers) (request : Request) (k : Kernel) : Prop :=
  ∀ rule m, allocRule env request k = (.ok rule, m) →
    Art.searchExact rule.vPath 0 rule.targetUid k.root = none ∧
      ¬ Displaces env rule.vPath rule.targetUid m (cuts rule.vPath rule.vPath.length) rule.vPath m.clock

theorem shadowExisting_none {rule : Rule} {m : Kernel}
    (h : Art.searchExact rule.vPath 0 rule.targetUid m.root = none) :
    shadowExisting rule m = m := by
  unfold shadowExisting
  rw [h]

theorem shadowExisting_gone {rule existing : Rule} {m : Kernel} (h : Synced m)
    (hfound : Art.searchExact rule.vPath 0 rule.targetUid m.root = some existing) :
    existing ∉ (shadowExisting rule m).rules := by
  unfold shadowExisting
  rw [hfound]
  exact not_mem_detachRule (h.of_same (same_handOver rule existing m).1) existing false

/-- A failed addition changes nothing exactly when it displaces nothing. -/
theorem failed_addition_iff (h : Served asked k) (hfits : request.Fits) (hknown : Known env k)
    (ha : addRule env request k = some (err, k')) (herr : err ≠ 0) : Unchanged k k' ↔
    Undisturbing env request k := by
  have hsync' := addRule_synced h.synced hfits ha
  have hmap : (∀ r, r ∈ k'.rules ↔ r ∈ k.rules) → ∀ r, Art.Holds r k'.root ↔ Art.Holds r k.root := by
    intro hrules r
    rw [hsync'.holds, h.synced.holds, hrules]
  cases halloc : allocRule env request k with
  | mk result m =>
    rcases allocRule_spec env hfits k with ⟨e, m', hfail, hsame, -⟩ | ⟨isDir, m', hmade, hsame, -, hlt⟩
    · -- no rule is made
      rw [halloc, Prod.mk.injEq] at hfail
      obtain ⟨rfl, rfl⟩ := hfail
      simp only [addRule, halloc, Option.some.injEq, Prod.mk.injEq] at ha
      obtain ⟨-, rfl⟩ := ha
      have hrules : ∀ r, r ∈ m.rules ↔ r ∈ k.rules := by simp [hsame.rules]
      have hchildren := (allocRule_housed h.housed env request).2.2
      rw [halloc] at hchildren
      refine iff_of_true ⟨hrules, hmap hrules, fun d => by rw [hchildren]⟩ ?_
      intro rule m' hok
      simp [halloc] at hok
    · rw [halloc, Prod.mk.injEq] at hmade
      obtain ⟨rfl, rfl⟩ := hmade
      generalize request.rule k.nextId isDir = rule at halloc
      obtain ⟨e, generated, k₁, k₂, made, hattach, hdirs, hsub, hend⟩ := addRule_ends halloc ha
      rcases hend with ⟨hzero, -⟩ | ⟨-, rfl, hlisted⟩
      · exact absurd hzero herr
      have hsyncm := h.synced.of_same hsame
      have hshrunk := shrunk_shadowExisting hsyncm rule
      obtain ⟨hid, hground, -, -, -⟩ := addition_ground h.housed h.synced hfits halloc
      have hout := addition_outcome h.housed h.synced hfits hknown halloc hattach
      obtain ⟨hkeep, hgen, hnodup⟩ := attach_spec hattach (by simp) List.nodup_nil le_rfl
      have hnew : ∀ r ∈ rule :: generated, k.nextId ≤ r.id := by
        intro r hr
        rcases List.mem_cons.mp hr with rfl | hr
        · exact hid.ge
        · have hlow := (hgen r hr).low
          rw [hshrunk.nextId] at hlow
          omega
      have hold : ∀ r ∈ (shadowExisting rule m).rules, r.id < k.nextId := by
        intro r hr
        have hr' := hshrunk.subset hr
        rw [hsame.rules] at hr'
        exact h.synced.allocated r hr'
      have hhoused := hout.housed.of_same hdirs
      obtain ⟨-, -, hchildren⟩ := rollback_spec hhoused rule generated
      have hrules := rollback_rules rule generated k₂
      have hfilter : ∀ d, ((rollbackGeneratedTopology rule generated k₂).dirs d).children =
          (k₁.dirs d).children.filter (· ∉ rule :: generated) := by
        intro d
        rw [hchildren, (hhoused.nodup d).sdiff_eq_filter, hdirs.dirs]
        exact List.filter_congr fun x _ => by simp
      rw [hkeep.rules] at hlisted
      constructor
      · intro hsame' rule' m' hok
        rw [halloc, Prod.mk.injEq, Except.ok.injEq] at hok
        obtain ⟨rfl, rfl⟩ := hok
        have hnone : Art.searchExact rule.vPath 0 rule.targetUid k.root = none := by
          cases hfound : Art.searchExact rule.vPath 0 rule.targetUid k.root with
          | none => rfl
          | some existing =>
            have hin := (h.synced.holds existing).mp (Art.searchExact_sound h.synced.sound hfound).1
            rw [← hsame.root] at hfound
            have hgone := shadowExisting_gone hsyncm hfound
            have hback := (hsame'.rules existing).mpr hin
            rw [hrules, hlisted] at hback
            rcases List.mem_append.mp (List.diff_subset _ _ hback) with hmem | hmem
            · exact absurd hmem hgone
            · have hge := hnew existing (List.mem_cons_of_mem _ (hsub.subset hmem))
              have hlow := h.synced.allocated existing hin
              omega
        refine ⟨hnone, fun hdisplaced => ?_⟩
        rw [← hsame.root] at hnone
        rw [shadowExisting_none hnone] at hout
        obtain ⟨d, hlen⟩ := hout.lost hdisplaced
        have heq := (hsame'.children d).length_eq
        have hbefore := (allocRule_housed h.housed env request).2.2 d
        rw [halloc] at hbefore
        rw [hfilter, ← hbefore] at heq
        exact absurd heq (Nat.ne_of_lt hlen)
      · intro hund
        obtain ⟨hnone, hdisplaced⟩ := hund rule m halloc
        rw [← hsame.root] at hnone
        rw [shadowExisting_none hnone] at hout hlisted hold
        have hmem : ∀ r, r ∈ (rollbackGeneratedTopology rule generated k₂).rules ↔ r ∈ k.rules := by
          intro r
          have hnodup' : (m.rules ++ made).Nodup := by
            refine List.nodup_append.mpr ⟨hsyncm.nodup, hnodup.sublist hsub, ?_⟩
            intro a ha b hb hab
            have hlow := hold a ha
            have hge := hnew b (List.mem_cons_of_mem _ (hsub.subset hb))
            rw [hab] at hlow
            omega
          rw [hrules, hlisted, hnodup'.mem_sdiff_iff, List.mem_append, ← hsame.rules]
          constructor
          · rintro ⟨hmem | hmem, hout'⟩
            · exact hmem
            · have hgenerated := hsub.subset hmem
              simp [hgenerated] at hout'
          · intro hmem
            refine ⟨Or.inl hmem, ?_⟩
            intro hin
            have hlow := hold r hmem
            have hge := hnew r (by simpa using hin)
            omega
        refine ⟨hmem, hmap hmem, fun d => ?_⟩
        have hbefore := (allocRule_housed h.housed env request).2.2 d
        rw [halloc] at hbefore
        rw [hfilter, hout.kept hdisplaced d, hbefore]

end

/-- Memory runs out after the time `last`. -/
def starved (last : Nat) (t : Nat) : Answers := { generous with alloc := t ≤ last }

theorem known_starved (last : Nat) (k : Kernel) : Known (starved last) k := by
  intro t dir h
  cases h

/-- Without the memory for a larger child set, a whiteout of `/b` fails and leaves that of `/a` alone. -/
theorem failed_addition_hidden :
    ∃ k', addRule (starved hidingA.clock) (hide [98] 0) hidingA = some (ENOMEM, k') ∧
    Unchanged hidingA k' := by
  have hfails : (addRule (starved hidingA.clock) (hide [98] 0) hidingA).map Prod.fst = some ENOMEM := by
    decide +kernel
  cases ha : addRule (starved hidingA.clock) (hide [98] 0) hidingA with
  | none => simp [ha] at hfails
  | some outcome =>
    obtain ⟨err, k'⟩ := outcome
    simp only [ha, Option.map_some, Option.some.injEq] at hfails
    subst hfails
    refine ⟨k', rfl, (failed_addition_iff hidingA_served (by decide) (known_starved _ _) ha (by decide)).mpr ?_⟩
    intro rule m halloc
    have hmade : (allocRule (starved hidingA.clock) (hide [98] 0) hidingA).1.toOption =
        some (hidden 1 [98] 0) := by
      decide +kernel
    have hjoin : ¬ Displaces (starved hidingA.clock) [SLASH, 98] 0
        (allocRule (starved hidingA.clock) (hide [98] 0) hidingA).2 (cuts [SLASH, 98] 2) [SLASH, 98]
        (allocRule (starved hidingA.clock) (hide [98] 0) hidingA).2.clock := by
      decide +kernel
    rw [halloc] at hmade hjoin
    obtain rfl := Option.some.inj hmade
    exact ⟨by decide +kernel, hjoin⟩

theorem failed_addition_refuted : ¬ ∀ asked k env request err k', Served asked k → request.Fits → Known env k →
    addRule env request k = some (err, k') → err ≠ 0 → Unchanged k k' := by
  intro hall
  have hserved := Served.next hidingA_served (by decide) (known_directory 0 hidingA)
    (by decide +kernel : (addRule (fun _ => generous) (hide [98] 0) hidingA).isSome = true)
  have hfails : (addRule (starved (added (fun _ => generous) (hide [98] 0) hidingA).clock) (hide [97] 0)
      (added (fun _ => generous) (hide [98] 0) hidingA)).map (fun x => (x.1, x.2.rules)) =
        some (ENOMEM, [hidden 1 [98] 0]) := by decide +kernel
  have hbefore : (added (fun _ => generous) (hide [98] 0) hidingA).rules =
      [hidden 0 [97] 0, hidden 1 [98] 0] := by
    decide +kernel
  generalize added (fun _ => generous) (hide [98] 0) hidingA = k at *
  cases ha : addRule (starved k.clock) (hide [97] 0) k with
  | none => simp [ha] at hfails
  | some outcome =>
    obtain ⟨err, k'⟩ := outcome
    simp only [ha, Option.map_some, Option.some.injEq, Prod.mk.injEq] at hfails
    obtain ⟨rfl, hafter⟩ := hfails
    have hsame := (hall _ k _ _ _ k' hserved (by decide) (known_starved _ _) ha (by decide)).rules
      (hidden 0 [97] 0)
    rw [hafter, hbefore] at hsame
    exact absurd (hsame.mpr List.mem_cons_self) (by decide)

end HybridMount.Vfs.Kernel
