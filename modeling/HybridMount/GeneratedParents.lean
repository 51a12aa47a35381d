import HybridMount.DeletionFrame
import HybridMount.Listing
import HybridMount.RuleReconcile

/-! The parents that the kernel module makes, and what they do to the reload of a module
whose rules they connect. -/

namespace HybridMount

namespace Vfs.Kernel

open LittleEndian

/-- A directory rule of the module's own: the flags of a parent and no real path. -/
def Connecting (rule : Rule) : Prop := rule.flags = IS_DIR ||| VIRTUAL_DIR ∧ rule.rPath = []

section

variable {asked : List Rule} {k k' : Kernel} {env : Nat → Answers} {request : Request} {rule : Rule} {err : Int32}

theorem preserve_listed (h : Synced k) (hrule : rule ∈ k.rules) :
    ∀ r ∈ (preserveVirtualParent env rule k).2.rules, r ∈ k.rules ∨ Connecting r := by
  obtain ⟨-, hrules, -⟩ := @enterParent_spec k rule env h hrule
  have hall : ∀ r ∈ k.rules ++ [(copyParent rule k).1], r ∈ k.rules ∨ Connecting r := by
    intro r hr
    rcases List.mem_append.mp hr with hr | hr
    · exact Or.inl hr
    · rw [List.mem_singleton.mp hr]
      exact Or.inr ⟨rfl, rfl⟩
  unfold preserveVirtualParent
  split
  · exact fun r hr => Or.inl hr
  · split
    · exact fun r hr => Or.inl hr
    · simp only
      split
      · intro r hr
        have hmem := List.mem_of_mem_erase hr
        rw [hrules] at hmem
        exact hall r hmem
      · intro r hr
        have hmem := List.mem_of_mem_erase hr
        rw [(same_takeDir ..).rules, hrules] at hmem
        exact hall r hmem

theorem addRule_listed (h : Served asked k) (hfits : request.Fits)
    (ha : addRule env request k = some (err, k')) :
    ∀ r ∈ k'.rules, r ∈ k.rules ∨ r ∈ requested env request k ∨ Connecting r := by
  rcases allocRule_spec env hfits k with ⟨e, m, hfail, hsame, -⟩ | ⟨isDir, m, hmade, hsame, -, -⟩
  · simp only [addRule, hfail, Option.some.injEq, Prod.mk.injEq] at ha
    obtain ⟨-, rfl⟩ := ha
    intro r hr
    rw [hsame.rules] at hr
    exact Or.inl hr
  · obtain ⟨e, generated, k₁, k₂, made, hattach, -, hsub, hend⟩ := addRule_ends hmade ha
    obtain ⟨hkeep, hgen, -⟩ := attach_spec hattach (by simp) List.nodup_nil le_rfl
    have hshrunk := shrunk_shadowExisting (h.synced.of_same hsame) (request.rule k.nextId isDir)
    have hrequested : requested env request k = [request.rule k.nextId isDir] := by
      simp only [requested, hmade]
    have hall : ∀ r ∈ k₁.rules ++ made ++ [request.rule k.nextId isDir],
        r ∈ k.rules ∨ r ∈ requested env request k ∨ Connecting r := by
      intro r hr
      rw [hrequested]
      rcases List.mem_append.mp hr with hr | hr
      · rcases List.mem_append.mp hr with hr | hr
        · rw [hkeep.rules] at hr
          have hold := hshrunk.subset hr
          rw [hsame.rules] at hold
          exact Or.inl hold
        · have hmember := hgen r (hsub.subset hr)
          exact Or.inr (Or.inr ⟨hmember.flags, hmember.rPath⟩)
      · exact Or.inr (Or.inl hr)
    intro r hr
    rcases hend with ⟨-, rfl, hrules⟩ | ⟨-, rfl, hrules⟩
    · rw [hrules] at hr
      exact hall r hr
    · rw [rollback_rules, hrules] at hr
      exact hall r (List.mem_append_left _ (List.diff_subset _ _ hr))

theorem delRule_listed {vPath : Bytes} {beyond : UInt8} {uid : UInt32} (h : Synced k) :
    ∀ r ∈ (delRule env vPath beyond uid k).2.rules, r ∈ k.rules ∨ Connecting r := by
  unfold delRule
  simp only
  split
  · exact fun r hr => Or.inl hr
  · rename_i rule hfound
    have hrule := (h.holds rule).mp (Art.searchExact_sound h.sound hfound).1
    split
    · intro r hr
      exact preserve_listed h hrule r hr
    · exact fun r hr => Or.inl ((shrunk_detachRule h rule true).subset hr)

/-- A table lists what was asked for and parents which connect it, and nothing else. -/
theorem Served.listed (h : Served asked k) : ∀ r ∈ k.rules, r ∈ asked ∨ Connecting r := by
  induction h with
  | boot => exact fun r hr => absurd hr List.not_mem_nil
  | add h hfits hknown ha ih =>
    intro r hr
    rcases addRule_listed h hfits ha r hr with hr | hr | hr
    · rcases ih r hr with hr | hr
      · exact Or.inl (List.mem_append_left _ hr)
      · exact Or.inr hr
    · exact Or.inl (List.mem_append_right _ hr)
    · exact Or.inr hr
  | del env vPath beyond uid h ih =>
    intro r hr
    rcases delRule_listed h.synced r hr with hr | hr
    · exact ih r hr
    · exact Or.inr hr
  | retire h ih =>
    intro r hr
    rw [(same_retire _).rules] at hr
    exact ih r hr
  | clear h ih =>
    intro r hr
    rw [(clearAll_rules _).1] at hr
    cases hr

end

end Vfs.Kernel

/-- What the daemon's listing makes of a rule of the table. -/
def savedOf (rule : Vfs.Rule) : SavedRule :=
  ⟨"", rule.listed.virtualPath, rule.listed.realPath, rule.listed.flags, rule.listed.uid⟩

/-- The rules of a module stand in the table with nothing but the parents that connect them,
each above one of them and global or of its uid. -/
structure Alone (before initial : List SavedRule) : Prop where
  unique : (before.map SavedRule.key).Nodup
  present : ∀ b ∈ before, ∃ actual ∈ initial, semanticEqual b actual = true
  parents : ∀ actual ∈ initial, (∀ b ∈ before, b.key ≠ actual.key) → derivedParent actual = true ∧
    ∃ b ∈ before, (actual.uid = 0 ∨ actual.uid = b.uid) ∧ ancestor actual.virtualPath b.virtualPath = true

/-- No rule comes to the path of a parent or above it, and below a private parent all are of its uid. -/
def Unobstructed (before after initial : List SavedRule) : Prop :=
  ∀ parent ∈ initial, (∀ b ∈ before, b.key ≠ parent.key) → ∀ rule ∈ before ++ after,
    rule.virtualPath ≠ parent.virtualPath ∧ ancestor rule.virtualPath parent.virtualPath = false ∧
      (ancestor parent.virtualPath rule.virtualPath = true → parent.uid = 0 ∨ parent.uid = rule.uid)

section

variable {before after initial : List SavedRule} {actual owned : SavedRule} {parent child : String}

theorem derived_of_connecting {rule : Vfs.Rule} (h : Vfs.Kernel.Connecting rule) :
    derivedParent (savedOf rule) = true := by
  obtain ⟨hflags, hreal⟩ := h
  have hempty : fromUtf8Lossy [] = "" := by decide
  simp only [savedOf, Vfs.Rule.listed, derivedParent, hflags, hreal, hempty]
  decide

theorem ancestor_iff : ancestor parent child = true ↔ parent ≠ child ∧ parent.toList <+: child.toList ∧
    (parent = "/" ∨ (child.toList.drop parent.toList.length).head? = some '/') := by
  simp only [ancestor, stripPrefix, Bool.and_eq_true, bne_iff_ne, ne_eq]
  refine and_congr_right fun _ => ?_
  by_cases hpre : parent.toList <+: child.toList
  · simp [hpre]
  · simp [hpre]

theorem ancestor_asymm (h : ancestor parent child = true) : ancestor child parent = false := by
  obtain ⟨hne, hpre, -⟩ := ancestor_iff.mp h
  cases hback : ancestor child parent with
  | false => rfl
  | true =>
    obtain ⟨-, hpre', -⟩ := ancestor_iff.mp hback
    have hlen := hpre.length_le
    have hlen' := hpre'.length_le
    exact absurd (String.toList_inj.mp (hpre.eq_of_length (by omega))) hne

/-- What a derived parent that belongs to nobody conflicts with. -/
theorem conflicts_derived (hd : derivedParent actual = true) : conflicts actual owned = false ↔
    owned.virtualPath ≠ actual.virtualPath ∧ ancestor owned.virtualPath actual.virtualPath = false ∧
      (ancestor actual.virtualPath owned.virtualPath = true → actual.uid = 0 ∨ actual.uid = owned.uid) := by
  have huid : (actual.uid == 0 || actual.uid == owned.uid) = true ↔
      actual.uid = 0 ∨ actual.uid = owned.uid := by
    simp
  unfold conflicts generatedAncestor
  rw [hd, Bool.and_true]
  cases habove : ancestor actual.virtualPath owned.virtualPath with
  | true =>
    have hne : actual.virtualPath ≠ owned.virtualPath := (ancestor_iff.mp habove).1
    simp only [ancestor_asymm habove, ne_eq, Ne.symm hne, not_false_eq_true, true_and, forall_const, ← huid,
      Bool.and_true, Bool.or_true, Bool.or_false, Bool.not_eq_false']
  | false =>
    simp only [Bool.and_false, Bool.not_false, Bool.true_and, Bool.or_false, Bool.or_eq_false_iff,
      beq_eq_false_iff_ne,
      ne_eq, Bool.false_eq_true, false_imp_iff, and_true]
    rw [eq_comm]

/-- A module that is alone in the table can be reloaded exactly where its parents are not in the way. -/
theorem preflight_accepts_iff {τ : Type} [RuleTable τ] {s : Session τ}
    (h : Alone before (RuleTable.listing s.machine.rules)) (hafter : (after.map SavedRule.key).Nodup)
    (hanswered : s.faults.head?.join = none) :
    (Rules.preflight before after s).result = .ok () ↔
    Unobstructed before after (RuleTable.listing s.machine.rules) := by
  generalize hlisted : RuleTable.listing s.machine.rules = initial at h ⊢
  have hlist : (Op.list s).result = .ok initial := by
    unfold Op.list Op.query
    simp only [Bind.bind, Traced.Prog.bind, Op.note, Traced.Prog.update, Op.schedule, id_eq,
      hanswered, Op.machine]
    exact congrArg Except.ok hlisted
  have hrun : (Rules.preflight before after s).result = .ok () ↔
      ∃ foreign, validateSnapshot initial before after = .ok foreign := by
    unfold Rules.preflight
    simp only [Bind.bind, Traced.Prog.bind, hlist, Traced.Prog.ofExcept]
    cases validateSnapshot initial before after with
    | error e => simp
    | ok foreign => exact iff_of_true rfl ⟨foreign, rfl⟩
  rw [hrun]
  constructor
  · rintro ⟨foreign, hok⟩ parent hparent hnot rule hrule
    obtain ⟨-, -, -, rfl, hclear⟩ := validateSnapshot_eq_ok.mp hok
    have hforeign := mem_foreignRules.mpr ⟨hparent, hnot⟩
    exact (conflicts_derived (h.parents parent hparent hnot).1).mp (hclear parent hforeign rule hrule)
  · intro hclear
    refine ⟨foreignRules initial before, validateSnapshot_eq_ok.mpr ⟨h.unique, hafter, h.present, rfl, ?_⟩⟩
    intro actual hactual rule hrule
    obtain ⟨hmem, hnot⟩ := mem_foreignRules.mp hactual
    exact (conflicts_derived (h.parents actual hmem hnot).1).mpr (hclear actual hmem hnot rule hrule)

end

/-- The first lookup of a path, at time 2, finds nothing. -/
def withoutA (t : Nat) : Vfs.Answers :=
  { Vfs.Kernel.generous with kernPath := if t = 2 then none else some (.native 0) }

theorem known_withoutA (k : Vfs.Kernel) : Vfs.Kernel.Known withoutA k := by
  intro t dir h
  have hpath : (if t = 2 then none else some (Vfs.Inode.native 0)) = some (.virtual (some dir)) := h
  split at hpath <;> cases hpath

/-- A whiteout of `/a/b` where there is no `/a`, so that the kernel makes the parent. -/
def hidingBelow : Vfs.Kernel := Vfs.Kernel.added withoutA ⟨[47, 97, 47, 98], [], 4, 0⟩ Vfs.Kernel.boot

/-- The table as the daemon lists it. -/
def connectedTable : FlatTable := ⟨[⟨"", "/a", "", 3, 0⟩, ⟨"", "/a/b", "", 4, 0⟩], by decide⟩

theorem hidingBelow_listed : connectedTable.rules = hidingBelow.rules.map savedOf := by decide +kernel

def connectedSession : Session FlatTable where
  machine := { rules := connectedTable, uids := [], stored := none, root := 1, mounts := [], unmounts := [] }
  faults := []

def ownedWhiteout : SavedRule := ⟨"fonts", "/a/b", "", 4, 0⟩

theorem connectedSession_alone : Alone [ownedWhiteout] connectedTable.rules := by
  constructor
  · decide
  · decide
  · decide

/-- Another whiteout below the parent. -/
theorem preflight_accepts_sibling :
    (Rules.preflight [ownedWhiteout] [⟨"fonts", "/a/c", "", 4, 0⟩] connectedSession).result = .ok () := by
  refine (preflight_accepts_iff connectedSession_alone (by decide) rfl).mpr ?_
  unfold Unobstructed
  decide

/-- The module cannot be reloaded with an opaque `/a`, as the kernel's own parent of its rule stands there. -/
theorem preflight_refuses_parent :
    ¬ ∀ (before after : List SavedRule) (s : Session FlatTable) (asked : List Vfs.Rule)
    (k : Vfs.Kernel), Vfs.Kernel.Served asked k → s.machine.rules.rules = k.rules.map savedOf →
      Alone before s.machine.rules.rules → (after.map SavedRule.key).Nodup → s.faults.head?.join = none →
        (Rules.preflight before after s).result = .ok () := by
  intro hall
  have hserved := Vfs.Kernel.Served.next .boot (by decide) (known_withoutA _)
    (by decide +kernel : (Vfs.Kernel.addRule withoutA ⟨[47, 97, 47, 98], [], 4, 0⟩ Vfs.Kernel.boot).isSome = true)
  have hok := hall [ownedWhiteout] [⟨"fonts", "/a", "", 8, 0⟩] connectedSession _ hidingBelow hserved
    hidingBelow_listed
    connectedSession_alone (by decide) rfl
  exact absurd hok (by decide)

end HybridMount
