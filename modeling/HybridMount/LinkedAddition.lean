import HybridMount.AccessBounds
import HybridMount.AncestorLinks

/-! What an addition does to a table in which every rule has its place. -/

namespace HybridMount.Vfs.Kernel

open LittleEndian

/-- No answer from time `t` on makes a request fail. -/
def Unhindered (env : Nat → Answers) (t : Nat) : Prop :=
  ∀ t' ≥ t, (env t').alloc = true ∧ (env t').capture = 0 ∧ (env t').hijack = 0

/-- The loop over the ancestors comes to a directory in which a rule can stand. -/
def Lands (env : Nat → Answers) (vPath : Bytes) (uid : UInt32) (k : Kernel) : List Cut → Nat → Prop
  | [], _ => True
  | cut :: rest, t =>
    match cut.slash.bind fun i => nearest vPath uid (parentLen i) k with
    | some ex => ex.has IS_DIR = true ∧ ∃ dir, k.thisDir ex.id = some dir
    | none =>
      match (env t).kernPath with
      | some found => found ≠ .virtual none
      | none => Lands env vPath uid k rest (t + 3)

/-- No child array is so large that doubling it leaves the range of `int`. -/
def Roomy (k : Kernel) : Prop := ∀ dir, ChildArray.newCap (k.dirs dir).capacity < 2 ^ 31

/-- The list holds no two rules of one path and uid, and each of them has its place. -/
structure Intact (k : Kernel) : Prop where
  synced : Synced k
  linked : Linked {p | p ∈ k.rules} ∅ k
  unique : ∀ r ∈ k.rules, ∀ r' ∈ k.rules, r.vPath = r'.vPath → r.targetUid = r'.targetUid → r = r'

/-- When the parents of a new rule are looked up. -/
def ascent (rule : Rule) (k : Kernel) : Nat := k.clock + if rule.has IS_DIR = true then 3 else 2

/-- The new rule comes to a place which is free, and where it takes over from a directory with
children it is a directory itself and nothing fails. -/
structure Orderly (env : Nat → Answers) (request : Request) (k : Kernel) : Prop where
  sheltered : ∀ rule ∈ requested env request k, Sheltered env rule.vPath rule.targetUid (cleared rule k)
    (cuts rule.vPath rule.vPath.length) rule.vPath (ascent rule k)
  replaces : ∀ rule ∈ requested env request k, ∀ existing,
    Art.searchExact rule.vPath 0 rule.targetUid k.root = some existing → k.hasChildren existing = true →
      rule.has IS_DIR = true ∧ Roomy k ∧ Unhindered env (ascent rule k) ∧
        Lands env rule.vPath rule.targetUid (cleared rule k) (cuts rule.vPath rule.vPath.length)
          (ascent rule k)

section

variable {k k' m : Kernel} {rule r p x target current : Rule} {dir childLen base : Nat} {alloc : Bool}
  {env : Nat → Answers} {generated generated' entered chain : List Rule} {uid : UInt32} {path vPath : Bytes}
    {err : Int32}

/-- Two states in which the loop over the ancestors meets the same. -/
structure SameView (k k' : Kernel) : Prop where
  rules : k'.rules = k.rules
  root : k'.root = k.root
  thisDir : ∀ p ∈ k.rules, k'.thisDir p.id = k.thisDir p.id
  childLen : k'.childLen = k.childLen
  children : ∀ d, (k'.dirs d).children = (k.dirs d).children

theorem SameView.taken (h : SameView k k') (dir : Nat) (uid : UInt32) (name : Bytes) :
    Taken k' dir uid name ↔ Taken k dir uid name := by
  unfold Taken nameOf
  rw [h.children, h.childLen]

theorem SameView.nearest (h : SameView k k') (vPath : Bytes) (uid : UInt32) (len : Nat) :
    nearest vPath uid len k' = nearest vPath uid len k := by
  unfold Kernel.nearest
  rw [h.root]

theorem SameView.found (h : SameView k k') (hsync : Synced k) {ex : Rule} {slash : Option Nat}
    (hex : (slash.bind fun i => Kernel.nearest vPath uid (parentLen i) k) = some ex) :
    k'.thisDir ex.id = k.thisDir ex.id := by
  obtain ⟨i, -, hfound⟩ := Option.bind_eq_some_iff.mp hex
  exact h.thisDir ex ((hsync.holds ex).mp (nearest_sound hsync.sound hfound))

theorem SameView.sheltered (h : SameView k k') (hsync : Synced k) {cs : List Cut} {t : Nat}
    (hs : Sheltered env vPath uid k cs path t) : Sheltered env vPath uid k' cs path t := by
  induction cs generalizing path t with
  | nil => trivial
  | cons cut rest ih =>
    unfold Sheltered at hs ⊢
    simp only [h.nearest, h.taken, h.rules]
    cases hex : (cut.slash.bind fun i => Kernel.nearest vPath uid (parentLen i) k) with
    | some ex =>
      simp only [hex] at hs ⊢
      rw [h.found hsync hex]
      exact hs
    | none =>
      simp only [hex] at hs ⊢
      cases hpath : (env t).kernPath with
      | some found =>
        simp only [hpath] at hs ⊢
        cases found with
        | native number => trivial
        | virtual dirNode =>
          cases dirNode with
          | none => trivial
          | some dir =>
            intro hcapture
            obtain ⟨⟨p, hp, hthis, hparent⟩, hfree⟩ := hs hcapture
            exact ⟨⟨p, hp, (h.thisDir p hp).trans hthis, hparent⟩, hfree⟩
      | none =>
        simp only [hpath] at hs ⊢
        intro halloc halloc' i hi
        obtain ⟨hfree, hrest⟩ := hs halloc halloc' i hi
        exact ⟨hfree, ih hrest⟩

theorem SameView.lands (h : SameView k k') (hsync : Synced k) {cs : List Cut} {t : Nat}
    (hl : Lands env vPath uid k cs t) : Lands env vPath uid k' cs t := by
  induction cs generalizing t with
  | nil => trivial
  | cons cut rest ih =>
    unfold Lands at hl ⊢
    simp only [h.nearest]
    cases hex : (cut.slash.bind fun i => Kernel.nearest vPath uid (parentLen i) k) with
    | some ex =>
      simp only [hex] at hl ⊢
      rw [h.found hsync hex]
      exact hl
    | none =>
      simp only [hex] at hl ⊢
      cases hpath : (env t).kernPath with
      | some found =>
        simp only [hpath] at hl ⊢
        exact hl
      | none =>
        simp only [hpath] at hl ⊢
        exact ih hl

theorem Unhindered.later {t t' : Nat} (h : Unhindered env t) (hle : t ≤ t') : Unhindered env t' :=
  fun s hs => h s (hle.trans hs)

theorem Roomy.setDir {d : Nat} {node : DirNode} (h : Roomy k)
    (hnode : ChildArray.newCap node.capacity < 2 ^ 31) :
    Roomy (k.setDir d node) := by
  intro dir
  show ChildArray.newCap (Function.update k.dirs d node dir).capacity < 2 ^ 31
  rw [Function.update_apply]
  split
  · exact hnode
  · exact h dir

theorem Roomy.deleteChild (h : Roomy k) (rule : Rule) : Roomy (deleteChild rule k).2 := by
  unfold Kernel.deleteChild
  split
  · exact h
  · rename_i dir hparent
    simp only
    split
    · apply h.setDir
      show ChildArray.newCap (if (k.dirs dir).children.length ≤ 2 then 0 else (k.dirs dir).capacity) < 2 ^ 31
      split
      · decide
      · exact h dir
    · exact h

theorem Roomy.shadowExisting (h : Roomy k) (rule : Rule) : Roomy (shadowExisting rule k) := by
  have hdetach : ∀ {m : Kernel} (existing : Rule), Roomy m → Roomy (detachRule existing false m) := by
    intro m existing hm
    unfold detachRule
    simp only
    split
    · exact hm
    · exact Roomy.deleteChild (k := m.unlink existing) hm existing
  unfold Kernel.shadowExisting
  split
  · rename_i existing hfound
    apply hdetach
    unfold handOver
    split
    · rename_i dir hthis
      split
      · exact h.setDir (h dir)
      · exact h
    · exact h
  · exact h

theorem Roomy.allocRule {request : Request} (h : Roomy k) (hmade : allocRule env request k = (.ok rule, m)) :
    Roomy m := by
  unfold Kernel.allocRule at hmade
  split at hmade
  · simp at hmade
  · split at hmade
    · simp at hmade
    · simp only at hmade
      split at hmade
      · rw [← (Prod.mk.inj hmade).2]
        exact h
      · split at hmade
        · simp at hmade
        · rw [← (Prod.mk.inj hmade).2]
          unfold giveDir
          exact Roomy.setDir h (h _)

/-- An array with room to grow takes every rule. -/
theorem injectChild_allocated (h : Roomy k) (dir : Nat) (rule : Rule) (childLen : Nat) :
    (injectChild true dir rule childLen k).1 = 0 := by
  rcases injectChild_cases true dir rule childLen k with ⟨children, capacity, heq, -⟩ | ⟨hfull, -, -⟩
  · rw [heq]
  · exact absurd ⟨rfl, h dir⟩ hfull

theorem Roomy.generate (h : Roomy k) (hfresh : (k.dirs k.nextDir).children = []) (path : Bytes) (uid : UInt32)
    (child : Rule)
    (childLen : Nat) : Roomy (generate path uid child childLen k).2 := by
  have hinject : Roomy (injectChild true k.nextDir child childLen
      { k with nextId := k.nextId + 1, nextDir := k.nextDir + 1 }).2 := by
    simp only [injectChild, hfresh, List.find?_nil, if_true]
    exact Roomy.setDir h (h k.nextDir)
  exact Roomy.setDir hinject (hinject k.nextDir)

theorem attachReal_lands {found : Inode} (hroom : Roomy k) (hgood : Unhindered env k.clock)
    (hfound : found ≠ .virtual none) (rule : Rule)
    (childLen : Nat) : (attachReal env found rule childLen k).1 = 0 ∧
      Unhindered env (attachReal env found rule childLen k).2.clock := by
  have hfirst := hgood k.clock le_rfl
  have hsecond := hgood (k.clock + 1) (Nat.le_succ _)
  have hthird := hgood (k.clock + 1 + 1) ((Nat.le_succ _).trans (Nat.le_succ _))
  have hafter : ∀ n, Unhindered env (k.clock + n) := fun n => hgood.later (Nat.le_add_right _ n)
  have htaken : Roomy k.tick.tick := hroom
  unfold attachReal
  cases found with
  | virtual dirNode =>
    cases dirNode with
    | none => exact absurd rfl hfound
    | some dir =>
      simp only [hfirst.2.1, hsecond.1, ne_eq, not_true_eq_false, if_false, clock_injectChild]
      exact ⟨injectChild_allocated htaken _ _ _, hafter 2⟩
  | native number =>
    cases hhook : k.hooks number with
    | some dir =>
      simp only [hhook, hfirst.2.2, hsecond.1, ne_eq, not_true_eq_false, if_false, clock_injectChild]
      exact ⟨injectChild_allocated htaken _ _ _, hafter 2⟩
    | none =>
      have hborn : Roomy ({ k.tick with nextDir := k.nextDir + 1 } : Kernel).tick.tick := hroom
      have hnew := injectChild_allocated hborn k.nextDir rule childLen
      simp only [tick] at hnew
      simp only [hhook, tick, hfirst.1, hsecond.2.2, hthird.1, Bool.true_eq_false, ne_eq,
        not_true_eq_false, if_false,
        hnew, clock_injectChild]
      exact ⟨trivial, hafter 3⟩

/-- Where nothing fails the loop ends in a directory. -/
theorem attach_lands {cs : List Cut} (hm : Ground base m) (h : Growing base m entered k)
    (hpend : Pending base k current)
    (hroom : Roomy k) (hgood : Unhindered env k.clock) (hlands : Lands env vPath uid m cs k.clock)
    (ha : attach env vPath uid cs current generated k = some (err, generated', k')) :
    err = 0 ∧ Unhindered env k'.clock := by
  induction cs generalizing current generated entered k with
  | nil =>
    simp only [attach, Option.some.injEq, Prod.mk.injEq] at ha
    obtain ⟨rfl, -, rfl⟩ := ha
    exact ⟨rfl, hgood⟩
  | cons cut rest ih =>
    have hnearest : ∀ len, nearest vPath uid len k = nearest vPath uid len m := by
      intro len
      simp only [nearest, h.root]
    have hnow := fun n => hgood (k.clock + n) (Nat.le_add_right _ n)
    have hafter : ∀ n, Unhindered env (k.clock + n) := fun n => hgood.later (Nat.le_add_right _ n)
    unfold attach at ha
    unfold Lands at hlands
    simp only [hnearest] at ha
    cases hex : (cut.slash.bind fun i => nearest vPath uid (parentLen i) m) with
    | some ex =>
      simp only [hex] at ha hlands
      obtain ⟨hdir, dir, hd⟩ := hlands
      obtain ⟨i, -, hfound⟩ := Option.bind_eq_some_iff.mp hex
      have hthis := h.thisDir ex.id (hm.stored ex (nearest_sound hm.sound hfound))
      rw [hthis, hd] at ha
      have hfirst := (hgood k.clock le_rfl).2.1
      simp only [hdir, hfirst, (hnow 1).1, Bool.true_eq_false, ne_eq, not_true_eq_false, if_false,
        injectChild_allocated (k := k.tick.tick) hroom, Option.some.injEq, Prod.mk.injEq] at ha
      obtain ⟨rfl, -, rfl⟩ := ha
      rw [clock_injectChild]
      exact ⟨rfl, hafter 2⟩
    | none =>
      simp only [hex] at ha hlands
      cases hpathAt : (env k.clock).kernPath with
      | some found =>
        simp only [hpathAt, Option.some.injEq, Prod.mk.injEq] at ha hlands
        obtain ⟨rfl, -, rfl⟩ := ha
        exact attachReal_lands (k := k.tick) hroom (hafter 1) hlands current cut.childLen
      | none =>
        simp only [hpathAt] at ha hlands
        cases hi : cut.slash with
        | none => simp [hi] at ha
        | some i =>
          simp only [hi, (hnow 1).1, (hnow 2).1, Bool.true_eq_false, if_false] at ha
          obtain ⟨hgrown, hpending⟩ := @generate_grows k.tick.tick.tick current base m entered uid
            (vPath.take (parentLen i)) h.tick.tick.tick hpend.tick.tick.tick cut.childLen
          have hclock := (@generate_frame k.tick.tick.tick (h.housed.fresh k.nextDir le_rfl).1
            (vPath.take (parentLen i)) uid current cut.childLen).2.2.1
          have hgrowing : Roomy (generate (vPath.take (parentLen i)) uid current cut.childLen
              k.tick.tick.tick).2 :=
            Roomy.generate (k := k.tick.tick.tick) hroom (h.housed.fresh k.nextDir le_rfl).1 _ _ _ _
          refine ih hgrown hpending hgrowing ?_ ?_ ha
          · rw [hclock]
            exact hafter 3
          · rw [hclock]
            exact hlands

theorem treeInsert_zero (h : Synced k) (hrule : Admissible rule) (hnew : rule ∉ k.rules) :
    (treeInsert true rule k).1 = 0 := by
  have hfresh : ¬ Art.Holds rule k.root := fun hh => hnew ((h.holds rule).mp hh)
  rcases Art.insert_sound h.sound hrule.named hfresh true with ⟨hzero, -⟩ | ⟨hfalse, -⟩
  · exact hzero
  · cases hfalse

theorem insertAll_zero (h : Synced k) (hnodup : generated.Nodup)
    (hgen : ∀ r ∈ generated, Admissible r ∧ r.id < k.nextId ∧ r ∉ k.rules) (hgood : Unhindered env k.clock) :
    (insertAll env generated k).1 = 0 ∧ Unhindered env (insertAll env generated k).2.clock := by
  induction generated generalizing k with
  | nil => exact ⟨rfl, hgood⟩
  | cons rule rest ih =>
    obtain ⟨hrule, hid, hnew⟩ := hgen rule List.mem_cons_self
    obtain ⟨hnot, hrest⟩ := List.nodup_cons.mp hnodup
    have htick : Synced k.tick := h.of_same (same_tick k)
    have halloc := (hgood k.clock le_rfl).1
    have hzero : (treeInsert true rule k.tick).1 = 0 := treeInsert_zero htick hrule hnew
    have hsync : Synced (treeInsert true rule k.tick).2 := htick.treeInsert hrule hid hnew true
    unfold insertAll
    simp only [halloc, hzero, ne_eq, not_true_eq_false, if_false]
    refine ih hsync hrest ?_ (hgood.later (Nat.le_succ _))
    intro r hr
    obtain ⟨hadm, hlt, hno⟩ := hgen r (List.mem_cons_of_mem _ hr)
    refine ⟨hadm, hlt, ?_⟩
    rw [treeInsert_listed hzero]
    intro hmem
    rcases List.mem_append.mp hmem with hmem | hmem
    · exact hno hmem
    · exact hnot (List.mem_singleton.mp hmem ▸ hr)

theorem insertAll_made (env : Nat → Answers) (generated : List Rule) (k : Kernel) :
    ∃ made, made.Sublist generated ∧ (insertAll env generated k).2.rules = k.rules ++ made ∧
      ((insertAll env generated k).1 = 0 → made = generated) := by
  induction generated generalizing k with
  | nil => exact ⟨[], List.Sublist.slnil, by simp [insertAll], fun _ => rfl⟩
  | cons rule rest ih =>
    unfold insertAll
    simp only
    split
    · rename_i herr
      refine ⟨[], List.nil_sublist _, ?_, fun hzero => absurd hzero herr⟩
      rw [treeInsert_unlisted herr, List.append_nil]
      rfl
    · rename_i hok
      obtain ⟨made, hsub, hrules, hall⟩ := ih (treeInsert (env k.clock).alloc rule k.tick).2
      refine ⟨rule :: made, hsub.cons_cons rule, ?_, fun hzero => by rw [hall hzero]⟩
      rw [hrules, treeInsert_listed (not_not.mp hok), List.append_assoc]
      rfl

theorem victims_insertAll (env : Nat → Answers) (generated : List Rule) (k : Kernel) :
    (insertAll env generated k).2.victims = k.victims := by
  induction generated generalizing k with
  | nil => rfl
  | cons rule rest ih =>
    unfold insertAll
    simp only
    split
    · rfl
    · exact ih _

theorem addRule_finish {request : Request} (halloc : allocRule env request k = (.ok rule, m))
    (ha : addRule env request k = some (err, k')) :
    ∃ e generated k₁ k₂ made, attach env rule.vPath rule.targetUid (cuts rule.vPath rule.vPath.length) rule []
        (shadowExisting rule m) = some (e, generated, k₁) ∧ SameDirs k₁ k₂ ∧ k₂.victims = k₁.victims ∧
      made.Sublist generated ∧
      ((err = 0 ∧ k' = k₂ ∧ k₂.rules = k₁.rules ++ made ++ [rule] ∧ e = 0 ∧ made = generated) ∨
        (err ≠ 0 ∧ k' = rollbackGeneratedTopology rule generated k₂ ∧ k₂.rules = k₁.rules ++ made)) := by
  simp only [addRule, halloc, generateVirtualTopology] at ha
  cases hattach : attach env rule.vPath rule.targetUid (cuts rule.vPath rule.vPath.length) rule []
      (shadowExisting rule m) with
  | none => simp [hattach] at ha
  | some outcome =>
    obtain ⟨e, generated, k₁⟩ := outcome
    simp only [hattach] at ha
    have hinserted : ∃ result : Int32 × Kernel,
        (if e ≠ 0 then (e, k₁) else insertAll env generated k₁) = result ∧
        SameDirs k₁ result.2 ∧ result.2.victims = k₁.victims ∧ ∃ made, made.Sublist generated ∧
          result.2.rules = k₁.rules ++ made ∧ (result.1 = 0 → e = 0 ∧ made = generated) := by
      by_cases he : e ≠ 0
      · exact ⟨_, if_pos he, SameDirs.refl k₁, rfl, [], List.nil_sublist _, by simp,
          fun hzero => absurd hzero he⟩
      · obtain ⟨made, hsub, hrules, hall⟩ := insertAll_made env generated k₁
        exact ⟨_, if_neg he, dirs_insertAll env generated k₁, victims_insertAll env generated k₁, made,
          hsub, hrules,
          fun hzero => ⟨not_not.mp he, hall hzero⟩⟩
    obtain ⟨result, heq, hsame, hvictims, made, hsub, hrules, hall⟩ := hinserted
    rw [heq] at ha
    by_cases herr : result.1 = 0
    · simp only [herr, ne_eq, not_true_eq_false, if_false] at ha
      have hlast := hsame.trans ((dirs_tick _).trans
        (dirs_treeInsert (env result.2.clock).alloc rule result.2.tick))
      by_cases htree : (treeInsert (env result.2.clock).alloc rule result.2.tick).1 = 0
      · simp only [htree, not_true_eq_false, if_false, Option.some.injEq, Prod.mk.injEq] at ha
        obtain ⟨rfl, rfl⟩ := ha
        refine ⟨e, generated, k₁, _, made, rfl, hlast, hvictims, hsub, Or.inl ⟨rfl, rfl, ?_, hall herr⟩⟩
        rw [treeInsert_listed htree, ← hrules]
        rfl
      · simp only [htree, not_false_eq_true, if_true, Option.some.injEq, Prod.mk.injEq] at ha
        obtain ⟨rfl, rfl⟩ := ha
        refine ⟨e, generated, k₁, _, made, rfl, hlast, hvictims, hsub, Or.inr ⟨htree, rfl, ?_⟩⟩
        rw [treeInsert_unlisted htree]
        exact hrules
    · simp only [ne_eq, herr, not_false_eq_true, if_true, Option.some.injEq, Prod.mk.injEq] at ha
      obtain ⟨rfl, rfl⟩ := ha
      exact ⟨e, generated, k₁, result.2, made, rfl, hsame, hvictims, hsub, Or.inr ⟨herr, rfl, hrules⟩⟩

/-- The rules which the loop makes can be listed. -/
theorem attach_admissible (h : Synced k) (htarget : Admissible target)
    (ha : attach env target.vPath target.targetUid (cuts target.vPath target.vPath.length) target [] k =
      some (err, generated, m)) :
    Synced m ∧ generated.Nodup ∧ (∀ r ∈ generated, Admissible r ∧ r.id < m.nextId ∧ r ∉ m.rules) ∧
      m.rules = k.rules ∧ ∀ r ∈ generated, k.nextId ≤ r.id := by
  obtain ⟨hsame, hgen, hnodup⟩ := attach_spec ha (by simp) List.nodup_nil le_rfl
  refine ⟨h.of_same hsame, hnodup, ?_, hsame.rules, fun r hr => (hgen r hr).low⟩
  intro r hr
  have hr' := hgen r hr
  refine ⟨?_, hr'.high, ?_⟩
  · obtain ⟨len, hlen⟩ := hr'.path
    have hadm := htarget.ancestor len r.id r.flags r.targetUid
    obtain ⟨id, vPath, rPath, flags, uid⟩ := r
    simp only at hlen
    have hempty : rPath = [] := hr'.rPath
    rw [hlen, hempty]
    exact hadm
  · intro hmem
    rw [hsame.rules] at hmem
    have hlt := h.allocated r hmem
    have hle := hr'.low
    omega

/-- Where nothing fails and the loop ends in a directory, the addition succeeds. -/
theorem addRule_succeeds {request : Request} (h : Housed k) (hsync : Synced k) (hfits : request.Fits)
    (halloc : allocRule env request k = (.ok rule, m)) (hroom : Roomy k)
    (hgood : Unhindered env (shadowExisting rule m).clock)
    (hlands : Lands env rule.vPath rule.targetUid (shadowExisting rule m) (cuts rule.vPath rule.vPath.length)
      (shadowExisting rule m).clock)
    (ha : addRule env request k = some (err, k')) : err = 0 := by
  obtain ⟨hid, hground, hgrow, hpend, -⟩ := addition_ground h hsync hfits halloc
  rcases allocRule_spec env hfits k with ⟨e, m', hfail, -⟩ | ⟨isDir, m', hmade, hsame, hadm, hlt⟩
  · simp [hfail] at halloc
  rw [halloc, Prod.mk.injEq, Except.ok.injEq] at hmade
  obtain ⟨hrule, rfl⟩ := hmade
  rw [← hrule] at hadm
  have hshrunk := shrunk_shadowExisting (hsync.of_same hsame) rule
  simp only [addRule, halloc, generateVirtualTopology] at ha
  cases hattach : attach env rule.vPath rule.targetUid (cuts rule.vPath rule.vPath.length) rule []
      (shadowExisting rule m) with
  | none => simp [hattach] at ha
  | some outcome =>
    obtain ⟨e, generated, k₁⟩ := outcome
    obtain ⟨rfl, hlater⟩ := attach_lands hground hgrow hpend ((hroom.allocRule halloc).shadowExisting rule)
      hgood hlands hattach
    obtain ⟨hsync₁, hnodup, hgen, hrules, hlow⟩ := attach_admissible hshrunk.synced hadm hattach
    obtain ⟨hzero, hlast⟩ := insertAll_zero hsync₁ hnodup hgen hlater
    obtain ⟨hsync₂, -, hmem⟩ := @insertAll_spec k₁ env generated hsync₁ hnodup hgen
    simp only [hattach, ne_eq, not_true_eq_false, if_false, hzero] at ha
    have hnew : rule ∉ (insertAll env generated k₁).2.rules := by
      intro hin
      rcases hmem rule hin with hin | hin
      · rw [hrules] at hin
        have hold := hshrunk.subset hin
        rw [hsame.rules] at hold
        have hbefore := hsync.allocated rule hold
        omega
      · have hmadeLate := hlow rule hin
        rw [hshrunk.nextId] at hmadeLate
        omega
    have htree : (treeInsert (env (insertAll env generated k₁).2.clock).alloc rule
        (insertAll env generated k₁).2.tick).1 = 0 := by
      rw [(hlast _ le_rfl).1]
      exact treeInsert_zero (hsync₂.of_same (same_tick _)) hadm hnew
    simp only [htree, not_true_eq_false, if_false, Option.some.injEq, Prod.mk.injEq] at ha
    exact ha.1.symm

theorem allocRule_failed {request : Request} {e : Int32} (h : Linked {p | p ∈ k.rules} ∅ k)
    (halloc : allocRule env request k = (.error e, m)) : Linked {p | p ∈ m.rules} ∅ m := by
  have hnew : Linked {p | p ∈ k.rules} ∅ ({ k.tick.tick with nextId := k.nextId + 1 } : Kernel).tick := by
    have hcounted := h.of_links h.toHoused.newId
      ⟨Nat.le_succ _, rfl, rfl, rfl, rfl, fun _ _ => ⟨rfl, rfl, rfl⟩, fun _ _ => ⟨rfl, rfl⟩⟩
    exact hcounted.of_dirs ⟨rfl, rfl, rfl, rfl, rfl, rfl, rfl⟩ rfl
  unfold allocRule at halloc
  split at halloc
  · simp only [Prod.mk.injEq] at halloc
    rw [← halloc.2]
    exact h.tick
  · split at halloc
    · simp only [Prod.mk.injEq] at halloc
      rw [← halloc.2]
      exact h.tick.tick
    · simp only at halloc
      split at halloc
      · simp at halloc
      · split at halloc
        · simp only [Prod.mk.injEq] at halloc
          rw [← halloc.2]
          exact hnew
        · simp at halloc

/-- The exact search finds every rule of a table without doubles. -/
theorem Intact.found (h : Intact k) (hr : r ∈ k.rules) :
    Art.searchExact r.vPath 0 r.targetUid k.root = some r := by
  obtain ⟨x, hx⟩ := Art.searchExact_found h.synced.sound ((h.synced.holds r).mpr hr) (Or.inl rfl)
  obtain ⟨hholds, hpath, huid⟩ := Art.searchExact_sound h.synced.sound hx
  rw [hx, h.unique x ((h.synced.holds x).mp hholds) r hr hpath huid]

/-- No rule of the path and uid is left. -/
theorem Intact.cleared (h : Intact k) (rule : Rule) (hx : x ∈ (cleared rule k).rules) :
    x ∈ k.rules ∧ ¬ (x.vPath = rule.vPath ∧ x.targetUid = rule.targetUid) := by
  unfold Kernel.cleared at hx
  cases hfound : Art.searchExact rule.vPath 0 rule.targetUid k.root with
  | none =>
    simp only [hfound] at hx
    refine ⟨hx, fun hkey => ?_⟩
    have hsearch := h.found hx
    rw [hkey.1, hkey.2, hfound] at hsearch
    cases hsearch
  | some existing =>
    simp only [hfound] at hx
    rw [(detachRule_detached existing k).rules, h.synced.nodup.mem_erase_iff] at hx
    refine ⟨hx.2, fun hkey => ?_⟩
    have hsearch := h.found hx.2
    rw [hkey.1, hkey.2, hfound, Option.some.injEq] at hsearch
    exact hx.1 hsearch.symm

theorem cleared_synced (h : Synced k) (rule : Rule) : Synced (cleared rule k) := by
  unfold cleared
  split
  · exact (shrunk_detachRule h _ false).synced
  · exact h

/-- Rules of different lengths are told apart by their paths. -/
theorem MadeFor.same_path (h : MadeFor m target generated) (hr : r ∈ generated ++ [target])
    (hx : x ∈ generated ++ [target])
    (hpath : r.vPath = x.vPath) : r = x := by
  have hpairs : (generated ++ [target]).Pairwise fun a b => a.vPath = b.vPath → a = b := by
    refine h.order.imp ?_
    intro a b hlt heq
    rw [heq] at hlt
    exact absurd hlt (lt_irrefl _)
  have hsymm : Std.Symm fun a b : Rule => a.vPath = b.vPath → a = b :=
    ⟨fun _ _ hab heq => (hab heq.symm).symm⟩
  exact hpairs.forall_of_forall (fun _ _ _ => rfl) hr hx hpath

/-- A roll back leaves the rules which were listed before. -/
theorem mem_rollback {old made : List Rule} (hrules : k.rules = old ++ made) (hsub : made.Sublist generated)
    (hold : old.Nodup)
    (hnodup : generated.Nodup) (hnew : ∀ r ∈ old, r ∉ target :: generated) (x : Rule) :
    x ∈ (rollbackGeneratedTopology target generated k).rules ↔ x ∈ old := by
  have hall : (old ++ made).Nodup := by
    refine List.nodup_append.mpr ⟨hold, hnodup.sublist hsub, ?_⟩
    intro a ha b hb hab
    exact hnew a ha (List.mem_cons_of_mem _ (hab ▸ hsub.subset hb))
  have hback : x ∈ target :: generated.reverse ↔ x ∈ target :: generated := by simp
  rw [rollback_rules, hrules, hall.mem_sdiff_iff, List.mem_append, hback]
  constructor
  · rintro ⟨hx | hx, hout⟩
    · exact hx
    · exact absurd (List.mem_cons_of_mem _ (hsub.subset hx)) hout
  · exact fun hx => ⟨Or.inl hx, hnew x hx⟩

theorem Shadowed.view (h : Shadowed k rule m) : SameView (cleared rule k) (shadowExisting rule m) :=
  ⟨h.rules, h.root, h.thisDir, h.childLen, h.children⟩

/-- An addition whose rule is made: what the loop leaves, and how the request ends. -/
theorem addRule_intact {request : Request} (h : Intact k) (hfits : request.Fits)
    (horderly : Orderly env request k)
    (ha : addRule env request k = some (err, k')) : Intact k' := by
  have hsync' := addRule_synced h.synced hfits ha
  cases halloc : allocRule env request k with
  | mk result m =>
    rcases allocRule_spec env hfits k with ⟨e, m', hfail, hsame, -⟩ | ⟨isDir, m', hmade, hsame, hadm, -⟩
    · rw [halloc, Prod.mk.injEq] at hfail
      obtain ⟨rfl, rfl⟩ := hfail
      have hlinked := allocRule_failed h.linked halloc
      simp only [addRule, halloc, Option.some.injEq, Prod.mk.injEq] at ha
      obtain ⟨-, rfl⟩ := ha
      refine ⟨hsync', hlinked, ?_⟩
      rw [hsame.rules]
      exact h.unique
    · rw [halloc, Prod.mk.injEq] at hmade
      obtain ⟨rfl, rfl⟩ := hmade
      generalize request.rule k.nextId isDir = rule at halloc hadm
      have hrequested : rule ∈ requested env request k := by
        simp [requested, halloc]
      have hallot := allocRule_allotted h.linked halloc
      have hshadow := hallot.shadowed h.linked.toHoused h.synced hsame fun existing hfound hchildren =>
        (horderly.replaces rule hrequested existing hfound hchildren).1
      have hclock : (shadowExisting rule m).clock = ascent rule k := hshadow.clock.trans hallot.clock
      have hview := hshadow.view
      have hclear := cleared_synced h.synced rule
      obtain ⟨hid, hground, hgrow, hpend, -⟩ := addition_ground h.linked.toHoused h.synced hfits halloc
      have hshrunk := shrunk_shadowExisting (h.synced.of_same hsame) rule
      have hold : ∀ x ∈ (shadowExisting rule m).rules, x ∈ k.rules ∧
          ¬ (x.vPath = rule.vPath ∧ x.targetUid = rule.targetUid) := by
        intro x hx
        rw [hshadow.rules] at hx
        exact h.cleared rule hx
      have hclimb : Climb k.nextId (shadowExisting rule m) rule [] [] rule (shadowExisting rule m) := by
        refine ⟨hgrow, hpend, hshadow.coming, hshadow.unplaced, rfl, List.prefix_rfl,
          ⟨by simp, by simp, by simp⟩, ?_⟩
        intro r hr
        rw [List.mem_singleton.mp hr]
      have hshelter := hview.sheltered hclear (horderly.sheltered rule hrequested)
      rw [← hclock] at hshelter
      obtain ⟨e, generated, k₁, k₂, made, hattach, hdirs, hvictims, hsub, hend⟩ := addRule_finish halloc ha
      have hclimbed := attach_climbed hground hshrunk.synced hclimb rfl hshelter hattach
      have hlinked := hclimbed.linked.of_dirs hdirs hvictims
      obtain ⟨-, hnodup, -, hkeep, hlow⟩ := attach_admissible hshrunk.synced hadm hattach
      have hnew : ∀ p ∈ (shadowExisting rule m).rules, p ∉ rule :: generated := by
        intro p hp hmem
        have hlt := h.synced.allocated p (hold p hp).1
        rcases List.mem_cons.mp hmem with rfl | hmem
        · exact absurd hid (Nat.ne_of_lt hlt)
        · have hlow' := hlow p hmem
          have hshadowId := hpend.born
          omega
      rcases hend with ⟨rfl, rfl, hrules, rfl, rfl⟩ | ⟨herr, rfl, hrules⟩
      · have hmem : ∀ x, x ∈ k'.rules ↔ x ∈ (shadowExisting rule m).rules ∨ x ∈ made ++ [rule] := by
          intro x
          rw [hrules, hkeep, List.append_assoc, List.mem_append]
        refine ⟨hsync', (hlinked.loosen ?_).congr ?_, ?_⟩
        · exact fun x _ hx => absurd rfl hx.1
        · intro x
          have hsame' : x ∈ made ++ [rule] ↔ x ∈ rule :: made := by simp [or_comm]
          exact (hmem x).trans (or_congr_right hsame')
        · have hapart : ∀ x ∈ (shadowExisting rule m).rules, ∀ r ∈ made ++ [rule],
              ¬ (x.vPath = r.vPath ∧ x.targetUid = r.targetUid) := by
            intro x hx r hr hkey
            rcases List.mem_append.mp hr with hr | hr
            · exact hclimbed.made.free r hr x hx ⟨hkey.1, hkey.2.trans (hclimbed.made.uid r hr)⟩
            · rw [List.mem_singleton.mp hr] at hkey
              exact (hold x hx).2 hkey
          intro r hr r' hr' hpath huid
          rcases (hmem r).mp hr with hr | hr
          · rcases (hmem r').mp hr' with hr' | hr'
            · exact h.unique r (hold r hr).1 r' (hold r' hr').1 hpath huid
            · exact absurd ⟨hpath, huid⟩ (hapart r hr r' hr')
          · rcases (hmem r').mp hr' with hr' | hr'
            · exact absurd ⟨hpath.symm, huid.symm⟩ (hapart r' hr' r hr)
            · exact hclimbed.made.same_path hr hr' hpath
      · have hclosed : Closed k₂ (rule :: generated) := by
          have hstart : Closed (shadowExisting rule m) [rule] := by
            apply hshadow.closed
            intro existing hfound
            by_contra hchildren
            obtain ⟨-, hroom, hgood, hlands⟩ :=
              horderly.replaces rule hrequested existing hfound (by simpa using hchildren)
            have hview' := hview.lands hclear hlands
            rw [← hclock] at hgood hview'
            exact herr (addRule_succeeds h.linked.toHoused h.synced hfits halloc hroom hgood hview' ha)
          have hend := hclimbed.closed hstart
          unfold Closed at hend ⊢
          rw [hdirs.dirs, hdirs.thisDir]
          exact hend
        have hfresh : ∀ p ∈ (shadowExisting rule m).rules, p ∉ rule :: generated := hnew
        have hmem := mem_rollback (hrules.trans (congrArg (· ++ made) hkeep)) hsub hshrunk.synced.nodup
          hnodup hfresh
        refine ⟨hsync', (hlinked.rollback hfresh hclosed).congr hmem, ?_⟩
        intro r hr r' hr'
        exact h.unique r (hold r ((hmem r).mp hr)).1 r' (hold r' ((hmem r').mp hr')).1

end

end HybridMount.Vfs.Kernel
