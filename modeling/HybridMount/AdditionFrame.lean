import HybridMount.KernelDirectories
import HybridMount.RuleDeletion

/-! What an addition leaves in the child sets, also when it fails on the way. -/

namespace HybridMount.Vfs.Kernel

open LittleEndian

/-- A child set has an entry of the name and uid. -/
def Taken (k : Kernel) (dir : Nat) (uid : UInt32) (name : Bytes) : Prop :=
  ∃ c ∈ (k.dirs dir).children, c.targetUid = uid ∧ k.nameOf c = name

/-- The child set that was there before and the name in it at which the loop over the ancestors
enters the path, or the ancestor it has got to. The answers are read from time `t` on. -/
def joins (env : Nat → Answers) (vPath : Bytes) (uid : UInt32) (k : Kernel) :
    List Cut → Bytes → Nat → Option (Nat × Bytes)
  | [], _, _ => none
  | cut :: rest, path, t =>
    match cut.slash.bind fun i => nearest vPath uid (parentLen i) k with
    | some ex =>
      if ex.has IS_DIR = true ∧ (env t).capture = 0 then
        (k.thisDir ex.id).map fun dir => (dir, path.drop (path.length - cut.childLen))
      else none
    | none =>
      match (env t).kernPath with
      | some (.virtual dirNode) =>
        if (env (t + 1)).capture = 0 then dirNode.map fun dir =>
          (dir, path.drop (path.length - cut.childLen)) else none
      | some (.native number) =>
        if (env (t + 1)).hijack = 0 then
          (k.hooks number).map fun dir => (dir, path.drop (path.length - cut.childLen))
        else none
      | none =>
        if (env (t + 1)).alloc = true ∧ (env (t + 2)).alloc = true then
          cut.slash.bind fun i => joins env vPath uid k rest (vPath.take (parentLen i)) (t + 3)
        else none

/-- The entry at the place where the chain of a rule joins the others is taken. -/
def Displaces (env : Nat → Answers) (vPath : Bytes) (uid : UInt32) (k : Kernel) (cs : List Cut) (path : Bytes)
    (t : Nat) : Prop :=
  ∃ place ∈ joins env vPath uid k cs path t, Taken k place.1 uid place.2

instance (k : Kernel) (dir : Nat) (uid : UInt32) (name : Bytes) : Decidable (Taken k dir uid name) :=
  inferInstanceAs (Decidable (∃ c ∈ (k.dirs dir).children, _))

instance (env : Nat → Answers) (vPath : Bytes) (uid : UInt32) (k : Kernel) (cs : List Cut)
    (path : Bytes) (t : Nat) :
    Decidable (Displaces env vPath uid k cs path t) :=
  inferInstanceAs (Decidable (∃ place ∈ joins env vPath uid k cs path t, Taken k place.1 uid place.2))

/-- After an addition: apart from the rules it entered, the child sets are those of `m`,
unless an entry was displaced. -/
structure Outcome (base : Nat) (m : Kernel) (entered : List Rule) (displaced : Prop) (k : Kernel) : Prop where
  housed : Housed k
  nextDir : m.nextDir ≤ k.nextDir
  kept : ¬ displaced → ∀ dir, (k.dirs dir).children.filter (· ∉ entered) = (m.dirs dir).children
  lost : displaced → ∃ dir, ((k.dirs dir).children.filter (· ∉ entered)).length < (m.dirs dir).children.length

section

variable {k k' m : Kernel} {rule r target : Rule} {alloc : Bool} {dir childLen base : Nat}
  {env : Nat → Answers}
  {entered generated generated' : List Rule} {uid : UInt32} {path vPath : Bytes} {err : Int32} {cs : List Cut}

/-- What the rules of the directory nodes before an addition are: older than those it makes. -/
structure Ground (base : Nat) (m : Kernel) : Prop where
  housed : Housed m
  sound : Art.Sound m.root
  stored : ∀ r, Art.Holds r m.root → r.id < base
  children : ∀ dir, ∀ c ∈ (m.dirs dir).children, c.id < base

theorem Growing.outcome (h : Growing base m entered k) (hm : Ground base m) {all : List Rule}
    (hall : ∀ r ∈ all, base ≤ r.id) (hsub : entered ⊆ all) : Outcome base m all False k := by
  refine ⟨h.housed, h.nextDir, fun _ d => ?_, False.elim⟩
  by_cases hd : d < m.nextDir
  · rw [h.old d hd, List.filter_eq_self]
    intro c hc
    have hlt := hm.children d c hc
    simp only [decide_eq_true_eq]
    intro hmem
    have hle := hall c hmem
    omega
  · rw [(hm.housed.fresh d (by omega)).1, List.filter_eq_nil_iff]
    intro c hc
    simpa using hsub (h.new d (by omega) hc)

theorem growing_nameOf (h : Growing base m entered k) (hr : r.id < base) : k.nameOf r = m.nameOf r := by
  simp only [nameOf, h.childLen r.id hr]

theorem place_nameOf (hne : r.id ≠ rule.id) : (k.place rule childLen (some dir)).nameOf r = k.nameOf r := by
  simp only [nameOf, place, Function.update_of_ne hne]

/-- The pending rule is entered into a directory that was there before. -/
theorem inject_outcome (h : Growing base m entered k) (hm : Ground base m) (hrule : Pending base k rule)
    (hdir : dir < m.nextDir) (alloc : Bool) (childLen : Nat) {all : List Rule} (hall : ∀ r ∈ all, base ≤ r.id)
    (hsub : entered ⊆ all) (hin : rule ∈ all) :
    Outcome base m all (Taken m dir rule.targetUid (rule.childName childLen))
      (injectChild alloc dir rule childLen k).2 := by
  obtain ⟨hmade, hborn, hout⟩ := hrule
  have hle := h.nextDir
  have hlt : dir < k.nextDir := by omega
  have henter := injectChild_entering h.housed hlt hborn hout alloc childLen
  have hbefore := h.outcome hm hall hsub
  have hsame : ∀ d, d ≠ dir → ((injectChild alloc dir rule childLen k).2.dirs d).children.filter (· ∉ all) =
      (m.dirs d).children := by
    intro d hd
    rw [henter.dirs d hd]
    exact hbefore.kept not_false d
  have hown := hbefore.kept not_false dir
  have htaken : Taken m dir rule.targetUid (rule.childName childLen) ↔ ∃ c ∈ (k.dirs dir).children,
      c.targetUid = rule.targetUid ∧ (k.place rule childLen (some dir)).nameOf c =
        rule.childName childLen := by
    unfold Taken
    rw [h.old dir hdir]
    apply exists_congr
    intro c
    refine and_congr_right fun hc => ?_
    have hlt := hm.children dir c hc
    rw [place_nameOf (by omega), growing_nameOf h hlt]
  rw [htaken]
  refine ⟨henter.housed, by rw [henter.nextDir]; exact hle, ?_, ?_⟩
  · intro hno d
    by_cases hd : d = dir
    · subst hd
      rcases injectChild_cases alloc d rule childLen k with ⟨children, capacity, heq, hcase⟩ | ⟨-, -, heq⟩
      · have hchildren : children = (k.dirs d).children ++ [rule] := by
          rcases hcase with ⟨old, hold, hu, hn, -⟩ | ⟨-, hchildren⟩
          · exact absurd ⟨old, hold, hu, hn⟩ hno
          · exact hchildren
        rw [heq]
        show (Function.update k.dirs d _ d).children.filter _ = _
        rw [Function.update_self]
        simp only [hchildren, List.filter_append, hown]
        simp [hin]
      · rw [heq]
        exact hown
    · exact hsame d hd
  · rintro ⟨c, hc, hu, hn⟩
    refine ⟨dir, ?_⟩
    rcases injectChild_cases alloc dir rule childLen k with ⟨children, capacity, heq, hcase⟩ | ⟨-, -, heq⟩
    · rcases hcase with ⟨old, hold, -, -, hchildren⟩ | ⟨hnone, -⟩
      · obtain ⟨s, t, hl, hr⟩ := replace_split hold rule
        have hkept : (s ++ t).filter (· ∉ all) = s ++ t := by
          rw [List.filter_eq_self]
          intro x hx
          have hmem : x ∈ (m.dirs dir).children := by
            rw [← h.old dir hdir, hl]
            simp only [List.mem_append, List.mem_cons] at hx ⊢
            tauto
          have hlt := hm.children dir x hmem
          simp only [decide_eq_true_eq]
          intro hmem'
          have hge := hall x hmem'
          omega
        rw [heq]
        show ((Function.update k.dirs dir _ dir).children.filter _).length < _
        rw [Function.update_self, ← h.old dir hdir, hl]
        simp only [hchildren, hr, List.filter_append, List.filter_cons, hin, not_true_eq_false, decide_false,
          Bool.false_eq_true, if_false] at hkept ⊢
        rw [hkept]
        simp
      · exact absurd ⟨hu, hn⟩ (hnone c hc)
    · have hzero := (injectChild_zero_iff alloc dir rule childLen k).mpr
        (Or.inr (Or.inr (Or.inr ⟨c, hc, hu, hn⟩)))
      rw [heq] at hzero
      exact absurd hzero (by decide : ENOMEM ≠ 0)

theorem Outcome.congr {p q : Prop} (h : Outcome base m entered p k) (hiff : q ↔ p) :
    Outcome base m entered q k :=
  ⟨h.housed, h.nextDir, fun hq => h.kept fun hp => hq (hiff.mpr hp), fun hq => h.lost (hiff.mp hq)⟩

theorem Growing.undisplaced {p : Prop} (h : Growing base m entered k) (hm : Ground base m) {all : List Rule}
    (hall : ∀ r ∈ all, base ≤ r.id) (hsub : entered ⊆ all) (hp : ¬ p) : Outcome base m all p k :=
  (h.outcome hm hall hsub).congr (iff_false_intro hp)

/-- The parent exists outside the table. -/
theorem attachReal_outcome {found : Inode} (h : Growing base m entered k) (hm : Ground base m)
    (hrule : Pending base k rule) (hknown : ∀ dir, found = .virtual (some dir) → dir < m.nextDir)
    (childLen : Nat)
    {all : List Rule} (hall : ∀ r ∈ all, base ≤ r.id) (hsub : entered ⊆ all) (hin : rule ∈ all) :
    Outcome base m all
      (∃ dir ∈ (match found with
          | .virtual dirNode => if (env k.clock).capture = 0 then dirNode else none
          | .native number => if (env k.clock).hijack = 0 then m.hooks number else none),
        Taken m dir rule.targetUid (rule.childName childLen))
      (attachReal env found rule childLen k).2 := by
  have hinject : ∀ dir alloc, dir < m.nextDir → Outcome base m all
      (Taken m dir rule.targetUid (rule.childName childLen))
      (injectChild alloc dir rule childLen k.tick.tick).2 :=
    fun dir alloc hdir => inject_outcome h.tick.tick hm hrule.tick.tick hdir alloc childLen hall hsub hin
  unfold attachReal
  cases found with
  | virtual dirNode =>
    cases dirNode with
    | none => exact h.undisplaced hm hall hsub (by simp)
    | some dir =>
      by_cases hcapture : (env k.clock).capture = 0
      · simp only [hcapture, ne_eq, not_true_eq_false, if_false, if_true]
        exact (hinject dir _ (hknown dir rfl)).congr (by simp)
      · simp only [hcapture, ne_eq, not_false_eq_true, if_false, if_true]
        exact h.tick.undisplaced hm hall hsub (by simp)
  | native number =>
    simp only [h.hooks]
    cases hhook : m.hooks number with
    | some dir =>
      by_cases hhijack : (env k.clock).hijack = 0
      · simp only [hhijack, ne_eq, not_true_eq_false, if_false, if_true]
        exact (hinject dir _ (hm.housed.hooked number dir hhook)).congr (by simp)
      · simp only [hhijack, ne_eq, not_false_eq_true, if_false, if_true]
        exact h.tick.undisplaced hm hall hsub (by simp)
    | none =>
      simp only [ite_self]
      split
      · exact h.tick.undisplaced hm hall hsub (by simp)
      · split
        · exact h.tick.newDir.tick.undisplaced hm hall hsub (by simp)
        · have hnew := h.tick.newDir.tick.tick
          have hpending : Pending base ({ k.tick with nextDir := k.nextDir + 1 } : Kernel).tick.tick rule :=
            ⟨hrule.made, hrule.born, hrule.outside⟩
          have hgrown := hnew.inject hpending h.nextDir (Nat.lt_succ_self k.nextDir)
            (env (k.tick.clock + 1)).alloc childLen
          have hout := hgrown.undisplaced hm hall (List.cons_subset.mpr ⟨hin, hsub⟩)
            (by simp : ¬ ∃ dir ∈ (none : Option Nat), Taken m dir rule.targetUid (rule.childName childLen))
          split
          · exact hout
          · refine ⟨hout.housed.setHook number k.nextDir ?_, hout.nextDir, hout.kept, hout.lost⟩
            have henter := injectChild_entering hnew.housed (Nat.lt_succ_self k.nextDir) hpending.born
              hpending.outside
              (env (k.tick.clock + 1)).alloc childLen
            rw [henter.nextDir]
            exact Nat.lt_succ_self k.nextDir

theorem nearest_sound {len : Nat} {ex : Rule} (hsound : Art.Sound k.root)
    (hex : nearest vPath uid len k = some ex) :
    Art.Holds ex k.root := by
  unfold nearest at hex
  split at hex
  · rename_i ex' hfound
    rw [← Option.some.inj hex]
    exact (Art.searchExact_sound hsound hfound).1
  · split at hex
    · exact (Art.searchExact_sound hsound hex).1
    · cases hex

/-- The loop over the ancestors, from any of them on. -/
theorem attach_outcome (h : Growing base m entered k) (hm : Ground base m) (hrule : Pending base k rule)
    (hknown : Known env m) (huid : rule.targetUid = uid) (hpath : path = rule.vPath)
    (hall : ∀ r ∈ target :: generated, base ≤ r.id) (hsub : entered ⊆ target :: generated)
    (hin : rule ∈ target :: generated)
    (ha : attach env vPath uid cs rule generated k = some (err, generated', k')) :
    Outcome base m (target :: generated') (Displaces env vPath uid m cs path k.clock) k' := by
  induction cs generalizing rule generated k path entered with
  | nil =>
    simp only [attach, Option.some.injEq, Prod.mk.injEq] at ha
    obtain ⟨-, rfl, rfl⟩ := ha
    exact h.undisplaced hm hall hsub (by simp [Displaces, joins])
  | cons cut rest ih =>
    have hname : path.drop (path.length - cut.childLen) = rule.childName cut.childLen := by
      rw [hpath]
      rfl
    have hnearest : ∀ len, nearest vPath uid len k = nearest vPath uid len m := by
      intro len
      simp only [nearest, h.root]
    unfold attach at ha
    unfold Displaces joins
    simp only [hnearest] at ha
    rw [hname]
    cases hex : (cut.slash.bind fun i => nearest vPath uid (parentLen i) m) with
    | some ex =>
      simp only [hex] at ha ⊢
      obtain ⟨i, -, hi⟩ := Option.bind_eq_some_iff.mp hex
      have hthis := h.thisDir ex.id (hm.stored ex (nearest_sound hm.sound hi))
      split at ha
      · rename_i hdir
        simp only [Option.some.injEq, Prod.mk.injEq] at ha
        obtain ⟨-, rfl, rfl⟩ := ha
        exact h.undisplaced hm hall hsub (by simp [hdir])
      · rename_i hdir
        rw [hthis] at ha
        cases hd : m.thisDir ex.id with
        | none =>
          simp only [hd, Option.some.injEq, Prod.mk.injEq] at ha
          obtain ⟨-, rfl, rfl⟩ := ha
          exact h.undisplaced hm hall hsub (by simp)
        | some dir =>
          simp only [hd] at ha
          split at ha
          · rename_i hcapture
            simp only [Option.some.injEq, Prod.mk.injEq] at ha
            obtain ⟨-, rfl, rfl⟩ := ha
            exact h.tick.undisplaced hm hall hsub (by simp [hcapture])
          · rename_i hcapture
            simp only [Option.some.injEq, Prod.mk.injEq] at ha
            obtain ⟨-, rfl, rfl⟩ := ha
            have hout := inject_outcome h.tick.tick hm hrule.tick.tick (hm.housed.given ex.id dir hd)
              (env (k.clock + 1)).alloc cut.childLen hall hsub hin
            rw [huid] at hout
            exact hout.congr (by simp [not_not.mp hcapture, hdir])
    | none =>
      simp only [hex] at ha ⊢
      cases hpathAt : (env k.clock).kernPath with
      | some found =>
        simp only [hpathAt, Option.some.injEq, Prod.mk.injEq] at ha
        obtain ⟨-, rfl, rfl⟩ := ha
        have hreal := @attachReal_outcome k.tick m rule base env entered found h.tick hm hrule.tick
          (fun dir hd => hknown k.clock dir (by rw [hpathAt, hd])) cut.childLen _ hall hsub hin
        rw [huid] at hreal
        cases found with
        | virtual dirNode =>
          by_cases hcapture : (env (k.clock + 1)).capture = 0
          · exact hreal.congr (by simp [tick, hcapture])
          · exact hreal.congr (by simp [tick, hcapture])
        | native number =>
          by_cases hhijack : (env (k.clock + 1)).hijack = 0
          · exact hreal.congr (by simp [tick, hhijack])
          · exact hreal.congr (by simp [tick, hhijack])
      | none =>
        simp only [hpathAt] at ha ⊢
        cases hslash : cut.slash with
        | none => simp [hslash] at ha
        | some i =>
          simp only [hslash] at ha
          split at ha
          · rename_i halloc
            simp only [Option.some.injEq, Prod.mk.injEq] at ha
            obtain ⟨-, rfl, rfl⟩ := ha
            exact h.tick.tick.undisplaced hm hall hsub (by simp [halloc])
          · rename_i halloc
            split at ha
            · rename_i halloc'
              simp only [Option.some.injEq, Prod.mk.injEq] at ha
              obtain ⟨-, rfl, rfl⟩ := ha
              exact h.tick.tick.tick.undisplaced hm hall hsub (by simp [halloc'])
            · rename_i halloc'
              obtain ⟨hgrown, hpending⟩ := @generate_grows k.tick.tick.tick rule base m entered uid
                (vPath.take (parentLen i)) h.tick.tick.tick hrule.tick.tick.tick cut.childLen
              have hclock : (generate (vPath.take (parentLen i)) uid rule cut.childLen
                  k.tick.tick.tick).2.clock =
                  k.clock + 3 := by
                have henter := injectChild_entering h.housed.tick.tick.tick.newId.newDir
                  (Nat.lt_succ_self k.nextDir)
                  (Nat.lt_succ_of_lt hrule.born) hrule.outside true cut.childLen
                exact henter.clock
              have hrec : Outcome base m (target :: generated')
                  (Displaces env vPath uid m rest (vPath.take (parentLen i))
                  (generate (vPath.take (parentLen i)) uid rule cut.childLen k.tick.tick.tick).2.clock) k' :=
                ih hgrown hpending rfl rfl
                (fun r hr => by
                  rcases List.mem_cons.mp hr with rfl | hr
                  · exact hall r List.mem_cons_self
                  · rcases List.mem_cons.mp hr with rfl | hr
                    · exact hpending.made
                    · exact hall r (List.mem_cons_of_mem _ hr))
                (by
                  intro r hr
                  have hmem : r ∈ target :: generated := by
                    rcases List.mem_cons.mp hr with rfl | hr
                    · exact hin
                    · exact hsub hr
                  simp only [List.mem_cons] at hmem ⊢
                  tauto)
                (by simp) ha
              rw [hclock] at hrec
              simp only [Bool.not_eq_false] at halloc halloc'
              exact hrec.congr (by simp [Displaces, halloc, halloc'])

theorem deleteChild_unlink (r : Rule) :
    SameDirs (deleteChild rule k).2 (deleteChild rule (k.unlink r)).2 := by
  have hparent : (k.unlink r).parentDir rule.id = k.parentDir rule.id := rfl
  unfold deleteChild
  rw [hparent]
  cases k.parentDir rule.id with
  | none => exact dirs_unlink r k
  | some dir =>
    simp only
    by_cases hmem : rule ∈ (k.dirs dir).children
    · rw [if_pos hmem, if_pos (show rule ∈ ((k.unlink r).dirs dir).children from hmem)]
      exact ⟨rfl, rfl, rfl, rfl, rfl, rfl, rfl⟩
    · rw [if_neg hmem, if_neg (show rule ∉ ((k.unlink r).dirs dir).children from hmem)]
      exact ⟨rfl, rfl, rfl, rfl, rfl, rfl, rfl⟩

theorem detachRule_same (rule : Rule) (k : Kernel) :
    SameDirs (deleteChild rule k).2 (detachRule rule false k) := by
  unfold detachRule
  simp only [Bool.false_eq_true, if_false]
  split
  · rename_i hnone
    have hid : (deleteChild rule k).2 = k := by
      unfold deleteChild
      rw [show k.parentDir rule.id = none from hnone]
    rw [hid]
    exact dirs_unlink rule k
  · exact deleteChild_unlink rule

theorem retract_same (rule : Rule) (k : Kernel) : SameDirs (deleteChild rule k).2 (retract rule k) := by
  unfold retract
  split
  · exact detachRule_same rule k
  · cases hp : k.parentDir rule.id with
    | none =>
      simp only [Option.isSome_none, Bool.false_eq_true, if_false]
      unfold deleteChild
      rw [hp]
      exact ⟨rfl, rfl, rfl, rfl, rfl, rfl, rfl⟩
    | some dir =>
      simp only [Option.isSome_some, if_true]
      exact ⟨rfl, rfl, rfl, rfl, rfl, rfl, rfl⟩

theorem Housed.retract (h : Housed k) (rule : Rule) : Housed (retract rule k) :=
  (h.deleteChild rule).of_same (retract_same rule k)

theorem retract_children (h : Housed k) (rule : Rule) (d : Nat) :
    ((retract rule k).dirs d).children = (k.dirs d).children.erase rule := by
  rw [(retract_same rule k).dirs, deleteChild_children h]

theorem retract_rules (rule : Rule) (k : Kernel) : (retract rule k).rules = k.rules.erase rule := by
  unfold retract
  split
  · unfold detachRule
    simp only [Bool.false_eq_true, if_false]
    split
    · rfl
    · exact (deleteChild_leaving rule (k.unlink rule)).rules
  · rename_i hnot
    rw [List.erase_of_not_mem hnot]
    split
    · exact (deleteChild_leaving rule k).rules
    · rfl

theorem rollback_rules (target : Rule) (generated : List Rule) (k : Kernel) :
    (rollbackGeneratedTopology target generated k).rules = k.rules.diff (target :: generated.reverse) := by
  have hfold : ∀ (rules : List Rule) (m : Kernel),
      (rules.foldl (fun k rule => retract rule k) m).rules = m.rules.diff rules := by
    intro rules
    induction rules with
    | nil => exact fun _ => rfl
    | cons rule rest ih =>
      intro m
      rw [List.diff_cons, ← retract_rules]
      exact ih (retract rule m)
  exact hfold (target :: generated.reverse) k

/-- A roll back takes the rules it is given out of the child sets. -/
theorem rollback_spec (h : Housed k) (target : Rule) (generated : List Rule) :
    Housed (rollbackGeneratedTopology target generated k) ∧
      (rollbackGeneratedTopology target generated k).nextDir = k.nextDir ∧
      ∀ d, ((rollbackGeneratedTopology target generated k).dirs d).children =
        (k.dirs d).children.diff (target :: generated.reverse) := by
  have hfold : ∀ (rules : List Rule) (m : Kernel), Housed m →
      Housed (rules.foldl (fun k rule => retract rule k) m) ∧
        (rules.foldl (fun k rule => retract rule k) m).nextDir = m.nextDir ∧
        ∀ d, ((rules.foldl (fun k rule => retract rule k) m).dirs d).children =
          (m.dirs d).children.diff rules := by
    intro rules
    induction rules with
    | nil => exact fun m hm => ⟨hm, rfl, fun _ => rfl⟩
    | cons rule rest ih =>
      intro m hm
      obtain ⟨hh, hd, hc⟩ := ih (retract rule m) (hm.retract rule)
      refine ⟨hh, ?_, ?_⟩
      · exact hd.trans ((retract_same rule m).nextDir.trans (deleteChild_leaving rule m).nextDir)
      · intro d
        rw [List.diff_cons, ← retract_children hm]
        exact hc d
  exact hfold (target :: generated.reverse) k h

theorem treeInsert_listed (h : (treeInsert alloc rule k).1 = 0) :
    (treeInsert alloc rule k).2.rules = k.rules ++ [rule] :=
  if_pos h

theorem treeInsert_unlisted (h : (treeInsert alloc rule k).1 ≠ 0) :
    (treeInsert alloc rule k).2.rules = k.rules :=
  if_neg h

theorem insertAll_rules (env : Nat → Answers) (generated : List Rule) (k : Kernel) :
    ∃ made, made.Sublist generated ∧ (insertAll env generated k).2.rules = k.rules ++ made := by
  induction generated generalizing k with
  | nil => exact ⟨[], List.Sublist.slnil, by simp [insertAll]⟩
  | cons rule rest ih =>
    unfold insertAll
    simp only
    split
    · rename_i herr
      refine ⟨[], List.nil_sublist _, ?_⟩
      rw [treeInsert_unlisted herr, List.append_nil]
      rfl
    · rename_i hok
      obtain ⟨made, hsub, hrules⟩ := ih (treeInsert (env k.clock).alloc rule k.tick).2
      refine ⟨rule :: made, hsub.cons_cons rule, ?_⟩
      rw [hrules, treeInsert_listed (not_not.mp hok), List.append_assoc]
      rfl

/-- How an addition ends once its rule is made: its topology is attached, as many of the
generated rules as possible are listed, and all of it is rolled back after an error. -/
theorem addRule_ends {request : Request} (halloc : allocRule env request k = (.ok rule, m))
    (ha : addRule env request k = some (err, k')) :
    ∃ e generated k₁ k₂ made, attach env rule.vPath rule.targetUid (cuts rule.vPath rule.vPath.length) rule []
        (shadowExisting rule m) = some (e, generated, k₁) ∧ SameDirs k₁ k₂ ∧
      made.Sublist generated ∧ ((err = 0 ∧ k' = k₂ ∧ k₂.rules = k₁.rules ++ made ++ [rule]) ∨
        (err ≠ 0 ∧ k' = rollbackGeneratedTopology rule generated k₂ ∧ k₂.rules = k₁.rules ++ made)) := by
  simp only [addRule, halloc, generateVirtualTopology] at ha
  cases hattach : attach env rule.vPath rule.targetUid (cuts rule.vPath rule.vPath.length) rule []
      (shadowExisting rule m) with
  | none => simp [hattach] at ha
  | some outcome =>
    obtain ⟨e, generated, k₁⟩ := outcome
    simp only [hattach] at ha
    have hinserted : ∃ result : Int32 × Kernel,
        (if e ≠ 0 then (e, k₁) else insertAll env generated k₁) = result ∧
        SameDirs k₁ result.2 ∧ ∃ made, made.Sublist generated ∧ result.2.rules = k₁.rules ++ made := by
      by_cases he : e ≠ 0
      · exact ⟨_, if_pos he, SameDirs.refl k₁, [], List.nil_sublist _, by simp⟩
      · exact ⟨_, if_neg he, dirs_insertAll env generated k₁, insertAll_rules env generated k₁⟩
    obtain ⟨result, heq, hsame, made, hsub, hrules⟩ := hinserted
    rw [heq] at ha
    by_cases herr : result.1 = 0
    · simp only [herr, ne_eq, not_true_eq_false, if_false] at ha
      by_cases htree : (treeInsert (env result.2.clock).alloc rule result.2.tick).1 = 0
      · simp only [htree, not_true_eq_false, if_false, Option.some.injEq, Prod.mk.injEq] at ha
        obtain ⟨rfl, rfl⟩ := ha
        refine ⟨e, generated, k₁, _, made, rfl, hsame.trans ((dirs_tick _).trans (dirs_treeInsert ..)), hsub,
          Or.inl ⟨rfl, rfl, ?_⟩⟩
        rw [treeInsert_listed htree, ← hrules]
        rfl
      · simp only [htree, not_false_eq_true, if_true, Option.some.injEq, Prod.mk.injEq] at ha
        obtain ⟨rfl, rfl⟩ := ha
        refine ⟨e, generated, k₁, _, made, rfl, hsame.trans ((dirs_tick _).trans (dirs_treeInsert ..)), hsub,
          Or.inr ⟨htree, rfl, ?_⟩⟩
        rw [treeInsert_unlisted htree]
        exact hrules
    · simp only [ne_eq, herr, not_false_eq_true, if_true, Option.some.injEq, Prod.mk.injEq] at ha
      obtain ⟨rfl, rfl⟩ := ha
      exact ⟨e, generated, k₁, result.2, made, rfl, hsame, hsub, Or.inr ⟨herr, rfl, hrules⟩⟩

theorem setOwner_children (dir : Nat) (owner : Option Rule) (k : Kernel) (d : Nat) :
    ((k.setOwner dir owner).dirs d).children = (k.dirs d).children := by
  show (Function.update k.dirs dir _ d).children = _
  by_cases hd : d = dir
  · rw [hd, Function.update_self]
  · rw [Function.update_of_ne hd]

theorem allocRule_housed (h : Housed k) (env : Nat → Answers) (request : Request) :
    Housed (allocRule env request k).2 ∧ k.nextDir ≤ (allocRule env request k).2.nextDir ∧
      ∀ d, ((allocRule env request k).2.dirs d).children = (k.dirs d).children := by
  unfold allocRule
  split
  · exact ⟨h.tick, le_rfl, fun _ => rfl⟩
  · split
    · exact ⟨h.tick.tick, le_rfl, fun _ => rfl⟩
    · simp only
      have hmade : Housed { k.tick.tick with nextId := k.nextId + 1 } := h.tick.tick.newId
      split
      · exact ⟨hmade, le_rfl, fun _ => rfl⟩
      · split
        · exact ⟨hmade.tick, le_rfl, fun _ => rfl⟩
        · refine ⟨?_, Nat.le_succ _, fun d => setOwner_children ..⟩
          apply (hmade.tick.newDir.setThisDir _ (some k.nextDir) ?_).setOwner (Nat.lt_succ_self k.nextDir)
          intro d hd
          rw [← Option.some.inj hd]
          exact Nat.lt_succ_self k.nextDir

theorem handOver_housed (h : Housed k) (rule existing : Rule) : Housed (handOver rule existing k) ∧
    (handOver rule existing k).nextDir = k.nextDir ∧
      ∀ d, ((handOver rule existing k).dirs d).children = (k.dirs d).children := by
  unfold handOver
  cases hd : k.thisDir existing.id with
  | none => exact ⟨h, rfl, fun _ => rfl⟩
  | some dir =>
    simp only
    split
    · have hlt := h.given existing.id dir hd
      refine ⟨?_, rfl, fun d => setOwner_children ..⟩
      apply ((h.setOwner hlt (some rule)).setThisDir rule.id (some dir) ?_).setThisDir existing.id none
      · simp
      · intro d hd'
        rw [← Option.some.inj hd']
        exact hlt
    · exact ⟨h, rfl, fun _ => rfl⟩

theorem shadowExisting_housed (h : Housed k) (rule : Rule) : Housed (shadowExisting rule k) ∧
    (shadowExisting rule k).nextDir = k.nextDir ∧
      ∀ d, ((shadowExisting rule k).dirs d).children ⊆ (k.dirs d).children := by
  unfold shadowExisting
  split
  · rename_i existing _
    obtain ⟨hhoused, hnext, hchildren⟩ := handOver_housed h rule existing
    have hsame := detachRule_same existing (handOver rule existing k)
    refine ⟨(hhoused.deleteChild existing).of_same hsame, ?_, ?_⟩
    · exact hsame.nextDir.trans ((deleteChild_leaving existing _).nextDir.trans hnext)
    · intro d
      rw [hsame.dirs, deleteChild_children hhoused, hchildren]
      exact List.erase_subset
  · exact ⟨h, rfl, fun _ _ hc => hc⟩

/-- The state in which the topology of a rule is attached, for an addition which gets that far. -/
theorem addition_ground {request : Request} (h : Housed k) (hsync : Synced k) (hfits : request.Fits)
    (halloc : allocRule env request k = (.ok rule, m)) :
    rule.id = k.nextId ∧ Ground k.nextId (shadowExisting rule m) ∧
      Growing k.nextId (shadowExisting rule m) [] (shadowExisting rule m) ∧
        Pending k.nextId (shadowExisting rule m) rule ∧
        k.nextDir ≤ (shadowExisting rule m).nextDir := by
  obtain ⟨hhoused, hle, hchildren⟩ := allocRule_housed h env request
  rw [halloc] at hhoused hle hchildren
  rcases allocRule_spec env hfits k with ⟨err, m', hfail, -⟩ | ⟨isDir, m', hmade, hsame, -, hlt⟩
  · simp [hfail] at halloc
  · rw [halloc, Prod.mk.injEq, Except.ok.injEq] at hmade
    obtain ⟨hrule, rfl⟩ := hmade
    have hid : rule.id = k.nextId := by
      rw [hrule]
      rfl
    obtain ⟨hhoused', hnext, hsub⟩ := shadowExisting_housed hhoused rule
    have hshrunk := shrunk_shadowExisting (hsync.of_same hsame) rule
    have hmem : ∀ d, ∀ c ∈ ((shadowExisting rule m).dirs d).children, c.id < k.nextId := by
      intro d c hc
      have hc' := hsub d hc
      rw [hchildren] at hc'
      exact (h.placed d c hc').1
    have hborn : k.nextId < (shadowExisting rule m).nextId := by
      rw [hshrunk.nextId]
      exact hlt
    refine ⟨hid, ⟨hhoused', hshrunk.synced.sound, ?_, hmem⟩, ?_, ⟨hid.ge, by omega, ?_⟩, ?_⟩
    · intro r hr
      have hlisted := hshrunk.subset ((hshrunk.synced.holds r).mp hr)
      rw [hsame.rules] at hlisted
      exact hsync.allocated r hlisted
    · refine ⟨hhoused', le_rfl, hborn, rfl, rfl, fun _ _ => rfl, fun _ _ => rfl, fun _ _ => rfl, ?_⟩
      intro d hd
      rw [(hhoused'.fresh d hd).1]
      exact List.Subset.refl _
    · intro d c hc
      have hlow := hmem d c hc
      omega
    · rw [hnext]
      exact hle

/-- What an addition that makes its rule leaves of the directory nodes, before a roll back. -/
theorem addition_outcome {request : Request} (h : Housed k) (hsync : Synced k) (hfits : request.Fits)
    (hknown : Known env k) (halloc : allocRule env request k = (.ok rule, m)) {e : Int32} {k₁ : Kernel}
    (hattach : attach env rule.vPath rule.targetUid (cuts rule.vPath rule.vPath.length) rule []
      (shadowExisting rule m) = some (e, generated, k₁)) :
    Outcome k.nextId (shadowExisting rule m) (rule :: generated)
      (Displaces env rule.vPath rule.targetUid (shadowExisting rule m)
      (cuts rule.vPath rule.vPath.length) rule.vPath
        (shadowExisting rule m).clock) k₁ := by
  obtain ⟨hid, hground, hgrow, hpending, hle⟩ := addition_ground h hsync hfits halloc
  refine attach_outcome hgrow hground hpending (known_mono hknown hle) rfl rfl ?_ (List.nil_subset _)
    List.mem_cons_self hattach
  intro r hr
  rw [List.mem_singleton.mp hr]
  exact hid.ge

theorem Housed.addRule {request : Request} (h : Housed k) (hsync : Synced k) (hfits : request.Fits)
    (hknown : Known env k) (ha : addRule env request k = some (err, k')) :
    Housed k' ∧ k.nextDir ≤ k'.nextDir := by
  cases halloc : allocRule env request k with
  | mk result m =>
    cases result with
    | error e =>
      simp only [Kernel.addRule, halloc, Option.some.injEq, Prod.mk.injEq] at ha
      obtain ⟨-, rfl⟩ := ha
      obtain ⟨hhoused, hle, -⟩ := allocRule_housed h env request
      rw [halloc] at hhoused hle
      exact ⟨hhoused, hle⟩
    | ok rule =>
      obtain ⟨e, generated, k₁, k₂, made, hattach, hsame, -, hend⟩ := addRule_ends halloc ha
      have hout := addition_outcome h hsync hfits hknown halloc hattach
      obtain ⟨-, -, -, -, hle⟩ := addition_ground h hsync hfits halloc
      have hhoused := hout.housed.of_same hsame
      have hle' : k.nextDir ≤ k₂.nextDir := by
        rw [hsame.nextDir]
        exact hle.trans hout.nextDir
      rcases hend with ⟨-, rfl, -⟩ | ⟨-, rfl, -⟩
      · exact ⟨hhoused, hle'⟩
      · obtain ⟨hback, hnext, -⟩ := rollback_spec hhoused rule generated
        exact ⟨hback, by rw [hnext]; exact hle'⟩

theorem Housed.prune (h : Housed k) (fuel : Nat) (start : Option Nat) :
    Housed (pruneEmptyVirtualDirs fuel start k) := by
  induction fuel generalizing k start with
  | zero => exact h
  | succ fuel ih =>
    cases start with
    | none => exact h
    | some dir =>
      unfold pruneEmptyVirtualDirs
      split
      · exact h
      · split
        · split
          · exact ih ((h.of_same (dirs_unlink _ _)).deleteChild _) _
          · exact h
        · exact h

theorem Housed.detachRule (h : Housed k) (rule : Rule) (prune : Bool) : Housed (detachRule rule prune k) := by
  cases prune with
  | false => exact (h.deleteChild rule).of_same (detachRule_same rule k)
  | true =>
    unfold Kernel.detachRule
    have hunlink := h.of_same (dirs_unlink rule k)
    simp only
    split
    · exact hunlink
    · exact (hunlink.deleteChild rule).prune _ _

theorem takeDir_housed (h : Housed k) (parent rule : Rule) : Housed (takeDir parent rule k) := by
  unfold takeDir
  simp only
  apply Housed.setThisDir _ rule.id none (by simp)
  split
  · rename_i dir hd
    exact h.setOwner (h.given parent.id dir hd) _
  · exact h

theorem copyParent_housed (h : Housed k) (rule : Rule) : Housed (copyParent rule k).2 := by
  have hnew := h.newId
  constructor
  · exact hnew.fresh
  · exact (hnew.setThisDir k.nextId (k.thisDir rule.id) (h.given rule.id)).given
  · exact hnew.hooked
  · intro id d hd
    have hupdate : Function.update k.parentDir k.nextId (k.parentDir rule.id) id = some d := hd
    by_cases hid : id = k.nextId
    · rw [hid, Function.update_self] at hupdate
      exact h.below rule.id d hupdate
    · rw [Function.update_of_ne hid] at hupdate
      exact h.below id d hupdate
  · intro d c hc
    obtain ⟨hlt, hp⟩ := h.placed d c hc
    refine ⟨Nat.lt_succ_of_lt hlt, ?_⟩
    show Function.update k.parentDir k.nextId (k.parentDir rule.id) c.id = some d
    rw [Function.update_of_ne (Nat.ne_of_lt hlt), hp]
  · exact hnew.nodup

theorem enterParent_housed (h : Housed k) (rule : Rule) :
    Housed (enterParent env (copyParent rule k).1 (copyParent rule k).2).2 := by
  have hcopy := copyParent_housed h rule
  have hinsert := hcopy.of_same ((dirs_tick _).trans
    (dirs_treeInsert (env (copyParent rule k).2.clock).alloc (copyParent rule k).1
      (copyParent rule k).2.tick))
  have hout : Outside k (copyParent rule k).1 := outside_of_new h le_rfl
  unfold enterParent
  simp only
  split
  · exact hinsert
  · split
    · rename_i dir hd
      exact (injectChild_entering hinsert.tick (hcopy.below _ dir hd) (Nat.lt_succ_self k.nextId)
        hout _ _).housed
    · exact hinsert

theorem Housed.preserveVirtualParent (h : Housed k) (rule : Rule) :
    Housed (preserveVirtualParent env rule k).2 := by
  have henter := @enterParent_housed k.tick env h.tick rule
  unfold Kernel.preserveVirtualParent
  split
  · exact h
  · split
    · exact h.tick
    · simp only
      split
      · exact henter.of_same ⟨rfl, rfl, rfl, rfl, rfl, rfl, rfl⟩
      · exact (takeDir_housed henter _ _).of_same (dirs_unlink _ _)

theorem Housed.delRule {beyond : UInt8} (h : Housed k) : Housed (delRule env vPath beyond uid k).2 := by
  unfold Kernel.delRule
  simp only
  split
  · exact h
  · split
    · exact h.preserveVirtualParent _
    · exact h.detachRule _ _

theorem Housed.retire (h : Housed k) : Housed (retire k) := by
  have hfold : ∀ (rules : List Rule) (m : Kernel), Housed m → Housed (rules.foldl disown m) := by
    intro rules
    induction rules with
    | nil => exact fun m hm => hm
    | cons rule rest ih =>
      intro m hm
      apply ih
      unfold disown
      split
      · rename_i dir hd
        exact hm.setOwner (hm.given rule.id dir hd) _
      · exact hm
  exact (hfold k.victims k h).of_same ⟨rfl, rfl, rfl, rfl, rfl, rfl, rfl⟩

theorem Housed.emptyParent (h : Housed k) (rule : Rule) : Housed (emptyParent k rule) := by
  unfold Kernel.emptyParent
  split
  · rename_i dir hdir
    exact h.setDir (h.below rule.id dir hdir) _ List.nodup_nil fun c hc => absurd hc List.not_mem_nil
  · exact h

theorem Housed.clearAll (h : Housed k) : Housed (clearAll k) := by
  have hfold : ∀ (rules : List Rule) (m : Kernel), Housed m → Housed (rules.foldl Kernel.emptyParent m) := by
    intro rules
    induction rules with
    | nil => exact fun m hm => hm
    | cons rule rest ih => exact fun m hm => ih _ (hm.emptyParent rule)
  exact Housed.retire ((hfold k.rules k h).of_same ⟨rfl, rfl, rfl, rfl, rfl, rfl, rfl⟩)

end

theorem boot_housed : Housed boot :=
  ⟨fun _ _ => ⟨rfl, rfl⟩, by simp [boot], by simp [boot], by simp [boot], by simp [boot], by simp [boot]⟩

instance (request : Request) : Decidable request.Fits := inferInstanceAs (Decidable (_ ∧ _))

/-- The rule which an addition makes, if it gets that far. -/
def requested (env : Nat → Answers) (request : Request) (k : Kernel) : List Rule :=
  match (allocRule env request k).1 with
  | .ok rule => [rule]
  | .error _ => []

/-- The tables which the records of additions and deletions and the clearing of all rules lead to, with
the rules that were asked for. The victims of a request are retired at its end. -/
inductive Served : List Rule → Kernel → Prop
  | boot : Served [] boot
  | add {asked : List Rule} {k k' : Kernel} {env : Nat → Answers} {request : Request} {err : Int32}
      (h : Served asked k)
      (hfits : request.Fits) (hknown : Known env k) (ha : addRule env request k = some (err, k')) :
      Served (asked ++ requested env request k) k'
  | del {asked : List Rule} {k : Kernel} (env : Nat → Answers) (vPath : Bytes) (beyond : UInt8) (uid : UInt32)
      (h : Served asked k) : Served asked (delRule env vPath beyond uid k).2
  | retire {asked : List Rule} {k : Kernel} (h : Served asked k) : Served asked (retire k)
  | clear {asked : List Rule} {k : Kernel} (h : Served asked k) : Served asked (clearAll k)

section

variable {asked : List Rule} {k k' : Kernel} {env : Nat → Answers} {request : Request} {err : Int32}

theorem Served.synced (h : Served asked k) : Synced k := by
  induction h with
  | boot => exact boot_synced
  | add h hfits hknown ha ih => exact addRule_synced ih hfits ha
  | del env vPath beyond uid h ih => exact delRule_synced ih
  | retire h ih => exact ih.of_same (same_retire _)
  | clear h ih => exact clearAll_synced _

theorem Served.housed (h : Served asked k) : Housed k := by
  induction h with
  | boot => exact boot_housed
  | add h hfits hknown ha ih => exact (ih.addRule h.synced hfits hknown ha).1
  | del env vPath beyond uid h ih => exact ih.delRule
  | retire h ih => exact ih.retire
  | clear h ih => exact ih.clearAll

end

/-- The state after an addition, the same as before when it never ends. -/
def added (env : Nat → Answers) (request : Request) (k : Kernel) : Kernel :=
  (addRule env request k).elim k Prod.snd

theorem Served.next {asked : List Rule} {k : Kernel} {env : Nat → Answers} {request : Request}
    (h : Served asked k)
    (hfits : request.Fits) (hknown : Known env k) (hsome : (addRule env request k).isSome = true) :
    Served (asked ++ requested env request k) (added env request k) := by
  unfold added
  cases ha : addRule env request k with
  | none => simp [ha] at hsome
  | some outcome => exact h.add hfits hknown ha

theorem known_directory (number : Nat) (k : Kernel) : Known (fun _ => directory number) k := by
  intro t dir h
  cases h

/-- A whiteout of `/a`. -/
def hidingA : Kernel := added (fun _ => generous) (hide [97] 0) boot

theorem hidingA_served : Served ([] ++ requested (fun _ => generous) (hide [97] 0) boot) hidingA :=
  Served.next .boot (by decide) (known_directory 0 boot) (by decide +kernel)

end HybridMount.Vfs.Kernel
