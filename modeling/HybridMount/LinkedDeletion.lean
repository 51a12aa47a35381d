import HybridMount.LinkedAddition

/-! What a deletion, a clearing and the end of a request do to a table in which every rule has
its place. -/

namespace HybridMount.Vfs.Kernel

open LittleEndian

section

variable {S L : Set Rule} {k k' m : Kernel} {rule copy r p x : Rule} {dir childLen : Nat} {alloc : Bool}
  {env : Nat → Answers}

/-- Entering a rule reads and changes the child sets and the places of rules only. -/
theorem injectChild_congr (hdirs : k'.dirs = k.dirs)
    (hlen : Function.update k'.childLen r.id childLen = Function.update k.childLen r.id childLen)
    (hparent : ∀ d, Function.update k'.parentDir r.id d = Function.update k.parentDir r.id d) (alloc : Bool)
    (dir : Nat) :
    (injectChild alloc dir r childLen k').1 = (injectChild alloc dir r childLen k).1 ∧
      (injectChild alloc dir r childLen k').2.dirs = (injectChild alloc dir r childLen k).2.dirs ∧
      (injectChild alloc dir r childLen k').2.childLen = (injectChild alloc dir r childLen k).2.childLen ∧
      (injectChild alloc dir r childLen k').2.parentDir =
        (injectChild alloc dir r childLen k).2.parentDir := by
  have hname : ∀ c, (k'.place r childLen (some dir)).nameOf c = (k.place r childLen (some dir)).nameOf c := by
    intro c
    simp only [nameOf, place, hlen]
  unfold injectChild
  simp only [hdirs, hname]
  split
  · exact ⟨rfl, by simp only [setDir, place, hdirs], hlen, hparent _⟩
  · split
    · exact ⟨rfl, by simp only [setDir, place, hdirs], hlen, hparent _⟩
    · split
      · exact ⟨rfl, by simp only [setDir, place, hdirs], hlen, hparent _⟩
      · split
        · exact ⟨rfl, by simp only [setDir, place, hdirs], hlen, hparent _⟩
        · refine ⟨rfl, hdirs, ?_, ?_⟩
          · simp only [place, hlen]
          · simp only [place, Function.update_idem, hparent]

theorem Linked.retire (h : Linked S L k) : Linked S L (retire k) := by
  have hfold : ∀ (vs : List Rule) (m : Kernel), m.thisDir = k.thisDir → Housed m →
      Housed (vs.foldl disown m) ∧ SameDirs { m with dirs := (vs.foldl disown m).dirs } (vs.foldl disown m) ∧
        (∀ d, ((vs.foldl disown m).dirs d).children = (m.dirs d).children) ∧
        ∀ d, ((vs.foldl disown m).dirs d).tag = (m.dirs d).tag ∨ ∃ v ∈ vs, k.thisDir v.id = some d := by
    intro vs
    induction vs with
    | nil => exact fun m _ hm => ⟨hm, ⟨rfl, rfl, rfl, rfl, rfl, rfl, rfl⟩, fun _ => rfl, fun _ => Or.inl rfl⟩
    | cons v rest ih =>
      intro m hthis hm
      simp only [List.foldl_cons]
      cases hd : m.thisDir v.id with
      | none =>
        have hdisown : disown m v = m := by
          unfold disown
          rw [hd]
        rw [hdisown]
        obtain ⟨hh, hs, hc, ht⟩ := ih m hthis hm
        refine ⟨hh, hs, hc, fun d => (ht d).imp_right ?_⟩
        rintro ⟨w, hw, hwd⟩
        exact ⟨w, List.mem_cons_of_mem _ hw, hwd⟩
      | some dir =>
        have hdisown : disown m v = m.setOwner dir none := by
          unfold disown
          rw [hd]
        rw [hdisown]
        obtain ⟨hh, hs, hc, ht⟩ := ih (m.setOwner dir none) hthis (hm.setOwner (hm.given v.id dir hd) none)
        refine ⟨hh, hs, fun d => (hc d).trans (setOwner_children ..), fun d => ?_⟩
        rcases ht d with htag | ⟨w, hw, hwd⟩
        · by_cases hdd : d = dir
          · exact Or.inr ⟨v, List.mem_cons_self, by rw [← hthis, hd, hdd]⟩
          · left
            rw [htag]
            show (Function.update m.dirs dir _ d).tag = _
            rw [Function.update_of_ne hdd]
        · exact Or.inr ⟨w, List.mem_cons_of_mem _ hw, hwd⟩
  obtain ⟨hhoused, hsame, hchildren, htags⟩ := hfold k.victims k rfl h.toHoused
  have hhooks : (Kernel.retire k).hooks = k.hooks := hsame.hooks
  have hthis : (Kernel.retire k).thisDir = k.thisDir := hsame.thisDir
  have htag : ∀ d, ((Kernel.retire k).dirs d).tag = (k.dirs d).tag ∨
    ∃ v ∈ k.victims, k.thisDir v.id = some d := htags
  have hretired : Housed (Kernel.retire k) := hhoused.of_same ⟨rfl, rfl, rfl, rfl, rfl, rfl, rfl⟩
  apply h.retag hretired
  · refine ⟨hsame.nextId, fun v hv => absurd hv List.not_mem_nil, hsame.parentDir, hsame.childLen,
      ?_, hchildren⟩
    exact fun d hh => (Linked.hooked_iff hhooks d).mpr hh
  · rw [hthis]
    exact fun id hle => (h.unborn id hle).1
  · intro d hh
    have hnone := h.untagged d ((Linked.hooked_iff hhooks d).mp hh)
    rcases htag d with heq | ⟨v, hv, hd⟩
    · rw [heq, hnone]
    · rw [h.owns v (Or.inr hv) d hd] at hnone
      cases hnone
  · intro x hx d ht
    rw [hthis] at ht
    rcases hx with hx | hx
    · have hown := h.owns x (Or.inl hx) d ht
      rcases htag d with heq | ⟨v, hv, hd⟩
      · rw [heq, hown]
      · rw [h.owns v (Or.inr hv) d hd, Option.some.injEq, Option.some.injEq] at hown
        exact absurd hx (hown ▸ h.gone v hv)
    · exact absurd hx List.not_mem_nil
  · intro p hp d ht _
    exact ⟨p, hp, rfl, by rw [hthis, ht]⟩

/-- A rule in a virtual directory hangs below the rule which the directory belongs to. -/
theorem Linked.hangs (h : Linked S ∅ k) (hr : r ∈ S) (hdir : k.parentDir r.id = some dir)
    (htag : (k.dirs dir).tag.isSome = true) :
    ∃ p ∈ S, k.thisDir p.id = some dir ∧ r ∈ (k.dirs dir).children := by
  cases h.attached r hr with
  | loose hl => exact absurd hl (Set.notMem_empty r)
  | top hnone hlen =>
    rw [hdir] at hnone
    cases hnone
  | native hp hh =>
    rw [hdir, Option.some.injEq] at hp
    subst hp
    rw [h.untagged dir hh] at htag
    cases htag
  | under hp hb =>
    have hparent := hb.parent
    rw [hdir, Option.some.injEq] at hparent
    subst hparent
    exact ⟨_, hp, hb.owner, hb.child⟩

/-- One rule goes, off the list as well as out of its child set. -/
theorem Linked.without (h : Linked {p | p ∈ k.rules} ∅ k) (hs : Synced k) (hr : r ∈ k.rules)
    (hdropped : Dropped [r] k k')
    (hrules : k'.rules = k.rules.erase r) (hempty : ∀ d, k.thisDir r.id = some d → (k.dirs d).children = []) :
    Linked {p | p ∈ k'.rules} ∅ k' := by
  refine (h.drop ?_ hdropped ?_).congr ?_
  · intro x hx
    rw [List.mem_singleton.mp hx]
    exact hr
  · intro x hx d ht c hc
    rw [List.mem_singleton.mp hx] at ht
    rw [hempty d ht] at hc
    cases hc
  · intro x
    show x ∈ k'.rules ↔ x ∈ k.rules ∧ x ∉ [r]
    rw [hrules, hs.nodup.mem_erase_iff, List.mem_singleton]
    exact and_comm

theorem dropped_unlink (h : Housed k) (r : Rule) : Dropped [r] k (deleteChild r (k.unlink r)).2 := by
  apply dropped_deleteChild h (deleteChild_unlink r)
  rw [victims_deleteChild]
  rfl

theorem prune_linked {fuel : Nat} {start : Option Nat} (h : Linked {p | p ∈ k.rules} ∅ k) (hs : Synced k)
    (hstart : ∀ d, start = some d → ∃ p ∈ k.rules, k.thisDir p.id = some d) :
    Linked {p | p ∈ (pruneEmptyVirtualDirs fuel start k).rules} ∅ (pruneEmptyVirtualDirs fuel start k) := by
  induction fuel generalizing k start with
  | zero => exact h
  | succ fuel ih =>
    cases start with
    | none => exact h
    | some dir =>
      obtain ⟨p, hp, hthis⟩ := hstart dir rfl
      have htag := h.owns p (Or.inl hp) dir hthis
      unfold pruneEmptyVirtualDirs
      split
      · exact h
      · rename_i hempty
        simp only [htag]
        split
        · have hleaving := deleteChild_leaving p (k.unlink p)
          have hnext : Linked {x | x ∈ (deleteChild p (k.unlink p)).2.rules} ∅
              (deleteChild p (k.unlink p)).2 := by
            refine h.without hs hp (dropped_unlink h.toHoused p) hleaving.rules ?_
            intro d hd
            rw [hthis, Option.some.injEq] at hd
            rw [← hd]
            exact not_not.mp hempty
          have hsync : Synced (deleteChild p (k.unlink p)).2 := (shrunk_deleteChild (hs.unlink p) p).synced
          refine ih hnext hsync ?_
          intro d hd
          rw [deleteChild_parent] at hd
          obtain ⟨hparent, hsome⟩ := Option.filter_eq_some_iff.mp hd
          obtain ⟨q, hq, hqd, hchild⟩ := h.hangs hp hparent hsome
          refine ⟨q, ?_, ?_⟩
          · have hne : q ≠ p := by
              intro heq
              rw [heq, hthis, Option.some.injEq] at hqd
              rw [← hqd, not_not.mp hempty] at hchild
              cases hchild
            rw [hleaving.rules]
            exact (List.mem_erase_of_ne hne).mpr hq
          · rw [hleaving.thisDir]
            exact hqd
        · exact h

theorem detachRule_linked (h : Linked {p | p ∈ k.rules} ∅ k) (hs : Synced k) (hr : r ∈ k.rules)
    (hempty : ∀ d, k.thisDir r.id = some d → (k.dirs d).children = []) :
    Linked {p | p ∈ (detachRule r true k).rules} ∅ (detachRule r true k) := by
  have hleaving := deleteChild_leaving r (k.unlink r)
  have hgone := h.without hs hr (dropped_unlink h.toHoused r) hleaving.rules hempty
  unfold detachRule
  simp only
  split
  · rename_i hnone
    have hsame : (deleteChild r (k.unlink r)).2 = k.unlink r := by
      unfold deleteChild
      rw [hnone]
    rw [hsame] at hgone
    exact hgone
  · simp only [if_true]
    refine prune_linked hgone (shrunk_deleteChild (hs.unlink r) r).synced ?_
    intro d hd
    rw [deleteChild_parent] at hd
    obtain ⟨hparent, hsome⟩ := Option.filter_eq_some_iff.mp hd
    obtain ⟨q, hq, hqd, hchild⟩ := h.hangs hr hparent hsome
    refine ⟨q, ?_, ?_⟩
    · have hne : q ≠ r := by
        intro heq
        rw [heq] at hqd
        rw [hempty d hqd] at hchild
        cases hchild
      rw [hleaving.rules]
      exact (List.mem_erase_of_ne hne).mpr hq
    · rw [hleaving.thisDir]
      exact hqd

/-- The child sets in which rules stand are emptied, and nothing else is touched. -/
structure Emptied (rules : List Rule) (k k' : Kernel) : Prop where
  same : SameDirs { k with dirs := k'.dirs } k'
  tag : ∀ d, (k'.dirs d).tag = (k.dirs d).tag
  children : ∀ d, (k'.dirs d).children = (k.dirs d).children ∨ (k'.dirs d).children = []
  empty : ∀ r ∈ rules, ∀ d, k.parentDir r.id = some d → (k'.dirs d).children = []

theorem emptied_foldl (rules : List Rule) (k : Kernel) : Emptied rules k (rules.foldl emptyParent k) := by
  induction rules generalizing k with
  | nil => exact ⟨⟨rfl, rfl, rfl, rfl, rfl, rfl, rfl⟩, fun _ => rfl, fun _ => Or.inl rfl, by simp⟩
  | cons r rest ih =>
    simp only [List.foldl_cons]
    cases hd : k.parentDir r.id with
    | none =>
      have hstay : emptyParent k r = k := by
        unfold emptyParent
        rw [hd]
      rw [hstay]
      obtain ⟨hsame, htag, hchildren, hempty⟩ := ih k
      refine ⟨hsame, htag, hchildren, ?_⟩
      intro x hx d hparent
      rcases List.mem_cons.mp hx with rfl | hx
      · rw [hd] at hparent
        cases hparent
      · exact hempty x hx d hparent
    | some dir =>
      have hgo : emptyParent k r = k.setDir dir { k.dirs dir with children := [], capacity := 0 } := by
        unfold emptyParent
        rw [hd]
      have hself : ((k.setDir dir { k.dirs dir with children := [], capacity := 0 }).dirs dir) =
          { k.dirs dir with children := [], capacity := 0 } := Function.update_self ..
      have hother : ∀ d, d ≠ dir →
          (k.setDir dir { k.dirs dir with children := [], capacity := 0 }).dirs d = k.dirs d :=
        fun d hne => Function.update_of_ne hne _ _
      rw [hgo]
      obtain ⟨hsame, htag, hchildren, hempty⟩ :=
        ih (k.setDir dir { k.dirs dir with children := [], capacity := 0 })
      refine ⟨hsame, fun d => ?_, fun d => ?_, ?_⟩
      · rw [htag d]
        by_cases hdd : d = dir
        · rw [hdd, hself]
        · rw [hother d hdd]
      · rcases hchildren d with heq | hnil
        · rw [heq]
          by_cases hdd : d = dir
          · rw [hdd, hself]
            exact Or.inr rfl
          · rw [hother d hdd]
            exact Or.inl rfl
        · exact Or.inr hnil
      · intro x hx d hparent
        rcases List.mem_cons.mp hx with rfl | hx
        · rw [hd, Option.some.injEq] at hparent
          rcases hchildren d with heq | hnil
          · rw [heq, ← hparent, hself]
          · exact hnil
        · exact hempty x hx d hparent

/-- Clearing the table empties every child set. -/
theorem clearAll_linked (h : Linked {p | p ∈ k.rules} ∅ k) :
    Linked {p | p ∈ (clearAll k).rules} ∅ (clearAll k) := by
  obtain ⟨hsame, htag, hchildren, hempty⟩ := emptied_foldl k.rules k
  obtain ⟨hdirs, hthis, hparent, hlen, hhooks, hnextDir, hnextId⟩ := hsame
  have hnone : ∀ d, ((k.rules.foldl emptyParent k).dirs d).children = [] := by
    intro d
    rcases hchildren d with heq | hnil
    · by_contra hne
      obtain ⟨c, hc⟩ := List.exists_mem_of_ne_nil _ hne
      rw [heq] at hc
      exact hne (hempty c (h.current d c hc) d (h.placed d c hc).2)
    · exact hnil
  have hcleared : Linked ∅ ∅ { k.rules.foldl emptyParent k with
      rules := [], victims := k.rules, root := .null } := by
    refine ⟨⟨?_, ?_, ?_, ?_, ?_, ?_⟩, ?_, ?_, fun _ _ => Set.notMem_empty _, ?_, ?_, ?_, ?_, ?_,
      fun r hr => absurd hr (Set.notMem_empty r)⟩
    · intro d hle
      exact ⟨hnone d, (htag d).trans (h.fresh d (hnextDir ▸ hle)).2⟩
    · show ∀ id d, (k.rules.foldl emptyParent k).thisDir id = some d →
        d < (k.rules.foldl emptyParent k).nextDir
      rw [hthis, hnextDir]
      exact h.given
    · show ∀ number d, (k.rules.foldl emptyParent k).hooks number = some d →
        d < (k.rules.foldl emptyParent k).nextDir
      rw [hhooks, hnextDir]
      exact h.hooked
    · show ∀ id d, (k.rules.foldl emptyParent k).parentDir id = some d →
        d < (k.rules.foldl emptyParent k).nextDir
      rw [hparent, hnextDir]
      exact h.below
    · intro d c hc
      have hc' : c ∈ ((k.rules.foldl emptyParent k).dirs d).children := hc
      rw [hnone d] at hc'
      cases hc'
    · intro d
      show ((k.rules.foldl emptyParent k).dirs d).children.Nodup
      rw [hnone d]
      exact List.nodup_nil
    · intro r hr
      show r.id < (k.rules.foldl emptyParent k).nextId
      rw [hnextId]
      exact h.born r (hr.elim (fun hin => absurd hin (Set.notMem_empty r)) Or.inl)
    · intro x y hx hy
      exact h.ids x y (hx.elim (fun hin => absurd hin (Set.notMem_empty x)) Or.inl)
        (hy.elim (fun hin => absurd hin (Set.notMem_empty y)) Or.inl)
    · show ∀ id, (k.rules.foldl emptyParent k).nextId ≤ id →
        (k.rules.foldl emptyParent k).thisDir id = none ∧ (k.rules.foldl emptyParent k).parentDir id = none
      rw [hnextId, hthis, hparent]
      exact h.unborn
    · intro d hh
      exact (htag d).trans (h.untagged d ((Linked.hooked_iff (k := k) hhooks d).mp hh))
    · intro r hr d ht
      have ht' : (k.rules.foldl emptyParent k).thisDir r.id = some d := ht
      rw [hthis] at ht'
      exact (htag d).trans (h.owns r (hr.elim (fun hin => absurd hin (Set.notMem_empty r)) Or.inl) d ht')
    · intro d c hc
      have hc' : c ∈ ((k.rules.foldl emptyParent k).dirs d).children := hc
      rw [hnone d] at hc'
      cases hc'
    · intro d
      show (((k.rules.foldl emptyParent k).dirs d).children.map _).Nodup
      rw [hnone d]
      exact List.nodup_nil
  refine hcleared.retire.congr ?_
  intro x
  show x ∈ (clearAll k).rules ↔ x ∈ (∅ : Set Rule)
  rw [(clearAll_rules k).1]
  simp

theorem nameOf_injectChild (alloc : Bool) (dir : Nat) (r : Rule) (childLen : Nat) (k : Kernel) :
    (injectChild alloc dir r childLen k).2.nameOf r = r.childName childLen := by
  rcases injectChild_cases alloc dir r childLen k with ⟨children, capacity, heq, -⟩ | ⟨-, -, heq⟩
  · rw [heq]
    simp only [nameOf, setDir, place, Function.update_self]
  · rw [heq]
    simp only [nameOf, place, Function.update_self]

/-- A new rule comes to the place of another one of its path and uid. -/
theorem Linked.standIn (h : Linked S ∅ k) (hr : rule ∈ S) (hid : copy.id = k.nextId)
    (hpath : copy.vPath = rule.vPath)
    (huid : copy.targetUid = rule.targetUid) (hparent : k.parentDir rule.id = some dir)
    (hzero : (injectChild alloc dir copy (k.childLen rule.id) { k with nextId := k.nextId + 1 }).1 = 0) :
    Linked (insert copy S) {rule}
      (injectChild alloc dir copy (k.childLen rule.id) { k with nextId := k.nextId + 1 }).2 ∧
      ∀ d, rule ∉ ((injectChild alloc dir copy (k.childLen rule.id) { k with nextId := k.nextId + 1 }).2.dirs
        d).children := by
  have hborn := h.born rule (Or.inl hr)
  have hne : rule ≠ copy := by
    intro heq
    rw [heq] at hborn
    omega
  have hent := h.enter hid
  have hout : ∀ d, copy ∉ (({ k with nextId := k.nextId + 1 } : Kernel).dirs d).children := by
    intro d hc
    have hlt := (h.placed d copy hc).1
    omega
  have hname : k.nameOf rule = copy.childName (k.childLen rule.id) := by
    simp only [nameOf, Rule.childName, hpath]
  have hroof : Roof (insert copy S) ({ k with nextId := k.nextId + 1 } : Kernel) dir copy := by
    cases h.attached rule hr with
    | loose hl => exact absurd hl (Set.notMem_empty rule)
    | top hnone hlen =>
      rw [hparent] at hnone
      cases hnone
    | native hp hh =>
      rw [hparent, Option.some.injEq] at hp
      exact Or.inl (hp ▸ hh)
    | under hp hb =>
      have hdir := hb.parent
      rw [hparent, Option.some.injEq] at hdir
      refine Or.inr ⟨_, Set.mem_insert_of_mem copy hp, hdir ▸ hb.owner, ?_⟩
      rw [hpath]
      exact hb.path
  have hfull : ∀ c ∈ (({ k with nextId := k.nextId + 1 } : Kernel).dirs dir).children,
      c.targetUid = copy.targetUid →
      ({ k with nextId := k.nextId + 1 } : Kernel).nameOf c = copy.childName (k.childLen rule.id) →
      c ∈ ({rule} : Set Rule) ∨ Hooked ({ k with nextId := k.nextId + 1 } : Kernel) dir := by
    intro c hc hcuid hcname
    cases h.attached rule hr with
    | loose hl => exact absurd hl (Set.notMem_empty rule)
    | top hnone hlen =>
      rw [hparent] at hnone
      cases hnone
    | native hp hh =>
      rw [hparent, Option.some.injEq] at hp
      exact Or.inr (hp ▸ hh)
    | under hp hb =>
      have hdir := hb.parent
      rw [hparent, Option.some.injEq] at hdir
      have hchild : rule ∈ (k.dirs dir).children := by
        rw [hdir]
        exact hb.child
      have hkey : k.keyIn c = k.keyIn rule := Prod.ext (hcuid.trans huid) (hcname.trans hname.symm)
      exact Or.inl (List.inj_on_of_nodup_map (h.distinct dir) hc hchild hkey)
  have hloose : ∀ x ∈ insert copy (∅ : Set Rule), x ≠ copy → x ∈ ({rule} : Set Rule) := by
    intro x hx hxc
    exact absurd ((Set.mem_insert_iff.mp hx).resolve_left hxc) (Set.notMem_empty x)
  have hlinked := hent.inject hroof (Set.mem_insert copy S) (Set.mem_insert copy ∅) hout hloose hfull hzero
  refine ⟨hlinked, fun d hc => ?_⟩
  have hparent' : (injectChild alloc dir copy (k.childLen rule.id)
      { k with nextId := k.nextId + 1 }).2.parentDir rule.id =
      some dir ∧ (injectChild alloc dir copy (k.childLen rule.id) { k with nextId := k.nextId + 1 }).2.nameOf
        rule =
        k.nameOf rule := by
    have hentering := injectChild_entering hent.toHoused (h.below rule.id dir hparent)
      (lt_of_eq_of_lt hid (Nat.lt_succ_self _))
      (hent.child_id (Set.mem_insert copy S) hout) alloc (k.childLen rule.id)
    have hids : rule.id ≠ copy.id := by omega
    refine ⟨(hentering.parentDir rule.id hids).trans hparent, ?_⟩
    simp only [nameOf, hentering.childLen rule.id hids]
  have hself := nameOf_injectChild alloc dir copy (k.childLen rule.id) { k with nextId := k.nextId + 1 }
  have hd := (hlinked.placed d rule hc).2
  rw [hparent'.1, Option.some.injEq] at hd
  subst hd
  have hkey : (injectChild alloc dir copy (k.childLen rule.id) { k with nextId := k.nextId + 1 }).2.keyIn rule =
      (injectChild alloc dir copy (k.childLen rule.id) { k with nextId := k.nextId + 1 }).2.keyIn copy :=
    Prod.ext huid.symm (hparent'.2.trans (hname.trans hself.symm))
  exact hne (List.inj_on_of_nodup_map (hlinked.distinct dir) hc (mem_injectChild hzero) hkey)

/-- The directory node goes to the copy, and the rule itself goes. -/
theorem Linked.succeed (h : Linked S {rule} k) (hr : rule ∈ S) (hc : copy ∈ S) (hne : copy ≠ rule)
    (hpath : copy.vPath = rule.vPath)
    (hdir : k.thisDir rule.id = some dir) (hnone : k.thisDir copy.id = none)
    (hout : ∀ d, rule ∉ (k.dirs d).children) :
    Linked (S \ {x | x ∈ [rule]}) ∅ { k.setOwner dir (some copy) with
      thisDir := Function.update (Function.update k.thisDir copy.id (some dir)) rule.id none
      victims := k.victims ++ [rule] } := by
  have hgiven := h.transfer hr hc hne hpath hdir (by simp [hnone])
  have hchildren : ∀ d, ((k.setOwner dir (some copy)).dirs d).children = (k.dirs d).children :=
    fun d => setOwner_children ..
  have hdropped : Dropped [rule] { k.setOwner dir (some copy) with
      thisDir := Function.update (Function.update k.thisDir copy.id (some dir)) rule.id none }
        { k.setOwner dir (some copy) with
      thisDir := Function.update (Function.update k.thisDir copy.id (some dir)) rule.id none
      victims := k.victims ++ [rule] } := by
    refine ⟨hgiven.toHoused.of_same ⟨rfl, rfl, rfl, rfl, rfl, rfl, rfl⟩, rfl, rfl, rfl, rfl, rfl, rfl,
      fun _ => rfl,
      fun _ => List.Sublist.refl _, fun d c => ?_⟩
    show c ∈ ((k.setOwner dir (some copy)).dirs d).children ↔
      c ∈ ((k.setOwner dir (some copy)).dirs d).children ∧ c ∉ [rule]
    rw [hchildren d, List.mem_singleton]
    refine ⟨fun hin => ⟨hin, ?_⟩, And.left⟩
    rintro rfl
    exact hout d hin
  refine (hgiven.drop ?_ hdropped ?_).settle ?_
  · intro x hx
    rw [List.mem_singleton.mp hx]
    exact hr
  · intro x hx d ht
    rw [List.mem_singleton.mp hx] at ht
    have hlost : Function.update (Function.update k.thisDir copy.id (some dir)) rule.id none rule.id = none :=
      Function.update_self ..
    exact absurd (hlost.symm.trans ht) (by simp)
  · exact fun x hx hxr => absurd (List.mem_singleton.mpr hxr) hx.2

/-- What the copy enters and takes over, beside what links say. -/
theorem takeDir_same {e : Kernel} (hdirs : e.dirs = k.dirs)
    (hthis : e.thisDir = Function.update k.thisDir copy.id (some dir))
    (hparent : e.parentDir = k.parentDir) (hlen : e.childLen = k.childLen) (hhooks : e.hooks = k.hooks)
    (hnextDir : e.nextDir = k.nextDir) (hnextId : e.nextId = k.nextId) (victims : List Rule) :
    SameDirs { k.setOwner dir (some copy) with
      thisDir := Function.update (Function.update k.thisDir copy.id (some dir)) rule.id none
      victims := victims } (unlink rule (takeDir copy rule e)) := by
  have hgiven : e.thisDir copy.id = some dir := by
    rw [hthis]
    exact Function.update_self ..
  unfold takeDir
  simp only [hgiven]
  refine ⟨?_, ?_, hparent, hlen, hhooks, hnextDir, hnextId⟩
  · simp only [unlink, setOwner, setDir, hdirs]
  · show Function.update e.thisDir rule.id none = _
    rw [hthis]

theorem same_links_copy {e : Kernel} (hdirs : e.dirs = k.dirs) (hvictims : e.victims = k.victims)
    (hhooks : e.hooks = k.hooks)
    (hnextDir : e.nextDir = k.nextDir) (hnextId : e.nextId = k.nextId + 1)
    (hthis : ∀ id, id ≠ k.nextId → e.thisDir id = k.thisDir id)
    (hparent : ∀ id, id ≠ k.nextId → e.parentDir id = k.parentDir id)
    (hlen : ∀ id, id ≠ k.nextId → e.childLen id = k.childLen id) : SameLinks k e := by
  refine ⟨?_, hnextDir, hvictims, hdirs, hhooks, ?_, ?_⟩
  · rw [hnextId]
    exact Nat.le_succ _
  · intro id hlt
    have hne : id ≠ k.nextId := Nat.ne_of_lt hlt
    exact ⟨hthis id hne, hparent id hne, hlen id hne⟩
  · intro id hle
    rw [hnextId] at hle
    have hne : id ≠ k.nextId := by omega
    exact ⟨hthis id hne, hparent id hne⟩

theorem enterParent_cases (env : Nat → Answers) (rule : Rule) (k : Kernel) :
    ∃ m, SameDirs (copyParent rule k.tick).2 m ∧ m.victims = k.victims ∧
      (((enterParent env (copyParent rule k.tick).1 (copyParent rule k.tick).2).1 ≠ 0 ∧
        (enterParent env (copyParent rule k.tick).1 (copyParent rule k.tick).2).2 = m) ∨
      (k.parentDir rule.id = none ∧
        (enterParent env (copyParent rule k.tick).1 (copyParent rule k.tick).2).2 = m) ∨
      ∃ d alloc, k.parentDir rule.id = some d ∧
        enterParent env (copyParent rule k.tick).1 (copyParent rule k.tick).2 =
        injectChild alloc d (copyParent rule k.tick).1 (k.childLen rule.id) m) := by
  have hparent : (copyParent rule k.tick).2.parentDir (copyParent rule k.tick).1.id = k.parentDir rule.id :=
    Function.update_self ..
  have hlen : (copyParent rule k.tick).2.childLen (copyParent rule k.tick).1.id = k.childLen rule.id :=
    Function.update_self ..
  have hinsert := (dirs_tick (copyParent rule k.tick).2).trans
    (dirs_treeInsert (env (copyParent rule k.tick).2.clock).alloc (copyParent rule k.tick).1
      (copyParent rule k.tick).2.tick)
  unfold enterParent
  simp only [hparent, hlen]
  split
  · rename_i hfail
    exact ⟨_, hinsert, rfl, Or.inl ⟨hfail, rfl⟩⟩
  · cases hp : k.parentDir rule.id with
    | none => exact ⟨_, hinsert, rfl, Or.inr (Or.inl ⟨rfl, rfl⟩)⟩
    | some d => exact ⟨_, hinsert.trans (dirs_tick _), rfl, Or.inr (Or.inr ⟨d, _, rfl, rfl⟩)⟩

/-- Before it is entered, the copy is all that is new. -/
theorem copyParent_links (rule : Rule) (hs : SameDirs (copyParent rule k.tick).2 m)
    (hv : m.victims = k.victims) : SameLinks k m := by
  have hother : ∀ id, id ≠ k.nextId → m.thisDir id = k.thisDir id ∧ m.parentDir id = k.parentDir id ∧
      m.childLen id = k.childLen id := by
    intro id hne
    rw [hs.thisDir, hs.parentDir, hs.childLen]
    exact ⟨Function.update_of_ne hne _ _, Function.update_of_ne hne _ _, Function.update_of_ne hne _ _⟩
  exact same_links_copy hs.dirs hv hs.hooks hs.nextDir hs.nextId (fun id hne => (hother id hne).1)
    (fun id hne => (hother id hne).2.1) fun id hne => (hother id hne).2.2

/-- A copy which cannot be entered leaves the links as they are. -/
theorem enterParent_failed
    (hfail : (enterParent env (copyParent rule k.tick).1 (copyParent rule k.tick).2).1 ≠ 0) :
    SameLinks k (enterParent env (copyParent rule k.tick).1 (copyParent rule k.tick).2).2 := by
  obtain ⟨m, hs, hv, hcase⟩ := enterParent_cases env rule k
  have hlinks := copyParent_links rule hs hv
  rcases hcase with ⟨-, heq⟩ | ⟨-, heq⟩ | ⟨d, alloc, -, heq⟩
  · rw [heq]
    exact hlinks
  · rw [heq]
    exact hlinks
  · rw [heq] at hfail ⊢
    rcases injectChild_cases alloc d (copyParent rule k.tick).1 (k.childLen rule.id) m
      with ⟨children, capacity, hdone, -⟩ | ⟨-, -, hfailed⟩
    · rw [hdone] at hfail
      exact absurd rfl hfail
    · rw [hfailed]
      have hother : ∀ id, id ≠ k.nextId → m.parentDir id = k.parentDir id ∧
          m.childLen id = k.childLen id := by
        intro id hne
        rw [hs.parentDir, hs.childLen]
        exact ⟨Function.update_of_ne hne _ _, Function.update_of_ne hne _ _⟩
      refine same_links_copy hlinks.dirs hv hlinks.hooks hlinks.nextDir hs.nextId ?_ ?_ ?_
      · intro id hne
        show m.thisDir id = _
        rw [hs.thisDir]
        exact Function.update_of_ne hne _ _
      · intro id hne
        show Function.update (Function.update m.parentDir k.nextId _) k.nextId none id = _
        rw [Function.update_of_ne hne, Function.update_of_ne hne, (hother id hne).1]
      · intro id hne
        show Function.update (Function.update m.childLen k.nextId _) k.nextId _ id = _
        rw [Function.update_of_ne hne, Function.update_of_ne hne, (hother id hne).2]

theorem injectChild_rest (alloc : Bool) (dir : Nat) (r : Rule) (childLen : Nat) (k : Kernel) :
    (injectChild alloc dir r childLen k).2.thisDir = k.thisDir ∧
    (injectChild alloc dir r childLen k).2.hooks = k.hooks ∧
      (injectChild alloc dir r childLen k).2.nextDir = k.nextDir ∧
        (injectChild alloc dir r childLen k).2.nextId = k.nextId := by
  rcases injectChild_cases alloc dir r childLen k with ⟨children, capacity, heq, -⟩ | ⟨-, -, heq⟩
  · rw [heq]
    exact ⟨rfl, rfl, rfl, rfl⟩
  · rw [heq]
    exact ⟨rfl, rfl, rfl, rfl⟩

/-- The copy takes the place and the directory node of the rule which goes. -/
theorem preserve_succeeds (h : Linked S ∅ k) (hr : rule ∈ S) (hdir : k.thisDir rule.id = some dir)
    (hzero : (enterParent env (copyParent rule k.tick).1 (copyParent rule k.tick).2).1 = 0)
    {victims : List Rule}
    (hv : victims = k.victims ++ [rule]) (hk' : k'.victims = victims)
    (hsame : SameDirs (unlink rule (takeDir (copyParent rule k.tick).1 rule
      (enterParent env (copyParent rule k.tick).1 (copyParent rule k.tick).2).2)) k') :
    Linked (insert (copyParent rule k.tick).1 S \ {x | x ∈ [rule]}) ∅ k' := by
  have hid : (copyParent rule k.tick).1.id = k.nextId := rfl
  have hborn := h.born rule (Or.inl hr)
  have hne : (copyParent rule k.tick).1 ≠ rule := by
    intro heq
    rw [← heq, hid] at hborn
    exact lt_irrefl _ hborn
  have hunborn : k.thisDir (copyParent rule k.tick).1.id = none := (h.unborn k.nextId le_rfl).1
  obtain ⟨m, hs, hvictims, hcase⟩ := enterParent_cases env rule k
  have hthis : m.thisDir = Function.update k.thisDir (copyParent rule k.tick).1.id (some dir) := by
    rw [hs.thisDir, hid, ← hdir]
    rfl
  rcases hcase with ⟨hfail, -⟩ | ⟨hnone, heq⟩ | ⟨d, alloc, hparent, heq⟩
  · exact absurd hzero hfail
  · have hout : ∀ d, rule ∉ (k.dirs d).children := by
      intro d hc
      have hp := (h.placed d rule hc).2
      rw [hnone] at hp
      cases hp
    have hlen : rule.vPath.length ≤ 1 := by
      cases h.attached rule hr with
      | loose hl => exact absurd hl (Set.notMem_empty rule)
      | top _ hlen => exact hlen
      | native hp _ =>
        rw [hnone] at hp
        cases hp
      | under _ hb =>
        have hp := hb.parent
        rw [hnone] at hp
        cases hp
    have hnew : ∀ d, (copyParent rule k.tick).1 ∉ (k.dirs d).children := by
      intro d hc
      exact lt_irrefl k.nextId (h.placed d _ hc).1
    have hplaced := (h.enter hid).place (Set.mem_insert _ S) (Set.mem_insert _ ∅) hnew (k.childLen rule.id)
      none (by simp)
    have hsettled : Linked (insert (copyParent rule k.tick).1 S) {rule}
        (({ k with nextId := k.nextId + 1 } : Kernel).place (copyParent rule k.tick).1
          (k.childLen rule.id) none) := by
      apply hplaced.settle
      intro x _ hx
      rcases Set.mem_insert_iff.mp hx with rfl | hx
      · exact Or.inr (.top (Function.update_self ..) hlen)
      · exact absurd hx (Set.notMem_empty x)
    have hdone := hsettled.succeed (Set.mem_insert_of_mem _ hr) (Set.mem_insert _ S) hne rfl hdir hunborn hout
    refine hdone.of_dirs (SameDirs.trans ?_ hsame) (hk'.trans hv)
    rw [heq]
    refine takeDir_same (k := ({ k with nextId := k.nextId + 1 } : Kernel).place (copyParent rule k.tick).1
      (k.childLen rule.id) none)
      hs.dirs hthis ?_ ?_ hs.hooks hs.nextDir hs.nextId _
    · rw [hs.parentDir]
      show Function.update k.parentDir k.nextId (k.parentDir rule.id) = _
      rw [hnone]
      rfl
    · exact hs.childLen
  · have hcongr := @injectChild_congr { k with nextId := k.nextId + 1 } m (copyParent rule k.tick).1
      (k.childLen rule.id) hs.dirs ?_ ?_ alloc d
    · obtain ⟨hfst, hdirs, hlen, hparents⟩ := hcongr
      rw [heq] at hzero hsame
      obtain ⟨hlinked, hout⟩ := h.standIn hr hid rfl rfl hparent (hfst.symm.trans hzero)
      obtain ⟨hthis₁, hhooks₁, hnextDir₁, hnextId₁⟩ :=
        injectChild_rest alloc d (copyParent rule k.tick).1 (k.childLen rule.id) m
      obtain ⟨hthis₂, hhooks₂, hnextDir₂, hnextId₂⟩ :=
        injectChild_rest alloc d (copyParent rule k.tick).1 (k.childLen rule.id)
        { k with nextId := k.nextId + 1 }
      have hdone := hlinked.succeed (Set.mem_insert_of_mem _ hr) (Set.mem_insert _ S) hne rfl
        ((congrFun hthis₂ rule.id).trans hdir) ((congrFun hthis₂ _).trans hunborn) hout
      have hvictims₂ : (injectChild alloc d (copyParent rule k.tick).1 (k.childLen rule.id)
          { k with nextId := k.nextId + 1 }).2.victims =
          k.victims := victims_injectChild ..
      refine hdone.of_dirs (SameDirs.trans ?_ hsame) ?_
      · refine takeDir_same hdirs ?_ hparents hlen ?_ ?_ ?_ _
        · rw [hthis₁, hthis₂, hthis]
        · exact (hhooks₁.trans hs.hooks).trans hhooks₂.symm
        · exact (hnextDir₁.trans hs.nextDir).trans hnextDir₂.symm
        · exact (hnextId₁.trans hs.nextId).trans hnextId₂.symm
      · show k'.victims = _ ++ [rule]
        rw [hk', hv, hvictims₂]
    · show Function.update m.childLen k.nextId _ = Function.update k.childLen k.nextId _
      rw [hs.childLen]
      exact Function.update_idem ..
    · intro p
      show Function.update m.parentDir k.nextId _ = Function.update k.parentDir k.nextId _
      rw [hs.parentDir]
      exact Function.update_idem ..

theorem enterParent_listed (h : Synced k) (hr : rule ∈ k.rules) :
    (enterParent env (copyParent rule k.tick).1 (copyParent rule k.tick).2).2.rules.erase
    (copyParent rule k.tick).1 = k.rules := by
  obtain ⟨-, hrules, -⟩ := @enterParent_spec k rule env h hr
  have hout : (copyParent rule k.tick).1 ∉ k.rules := fun hin => copyParent_fresh h _ hin rfl
  rw [hrules, List.erase_append_right _ hout]
  show k.rules ++ [(copyParent rule k.tick).1].erase (copyParent rule k.tick).1 = k.rules
  rw [List.erase_cons_head, List.append_nil]

theorem preserve_intact (h : Intact k) (hr : rule ∈ k.rules) (hchildren : k.hasChildren rule = true) :
    Intact (preserveVirtualParent env rule k).2 := by
  have hsync : Synced (preserveVirtualParent env rule k).2 := preserveVirtualParent_synced h.synced hr
  obtain ⟨dir, hdir⟩ := thisDir_of_hasChildren hchildren
  unfold preserveVirtualParent at hsync ⊢
  split
  · exact h
  · rename_i hflags
    rw [if_neg hflags] at hsync
    split
    · exact ⟨h.synced.of_same (same_tick k), h.linked.tick, h.unique⟩
    · rename_i halloc
      rw [if_neg halloc] at hsync
      simp only at hsync ⊢
      split
      · rename_i hfail
        rw [if_pos hfail] at hsync
        have hrules := @enterParent_listed k rule env h.synced hr
        have hlinked : Linked _ _
          { (enterParent env (copyParent rule k.tick).1 (copyParent rule k.tick).2).2 with
            root := Art.removeLeaf (copyParent rule k.tick).1
              (enterParent env (copyParent rule k.tick).1 (copyParent rule k.tick).2).2.root 0
            rules := (enterParent env (copyParent rule k.tick).1 (copyParent rule k.tick).2).2.rules.erase
              (copyParent rule k.tick).1 } :=
          (h.linked.of_links (enterParent_housed h.linked.toHoused.tick rule)
          (enterParent_failed hfail)).of_dirs
            ⟨rfl, rfl, rfl, rfl, rfl, rfl, rfl⟩ rfl
        refine ⟨hsync, hlinked.congr ?_, ?_⟩
        · intro x
          exact (congrArg (x ∈ ·) hrules).to_iff
        · show ∀ r ∈ (enterParent env _ _).2.rules.erase _, ∀ r' ∈ (enterParent env _ _).2.rules.erase _, _
          rw [hrules]
          exact h.unique
      · rename_i hok
        rw [if_neg hok] at hsync
        have hzero := not_not.mp hok
        obtain ⟨-, hrules, hvictims⟩ := @enterParent_spec k rule env h.synced hr
        have hcopied : (copyParent rule k).1 = (copyParent rule k.tick).1 := rfl
        rw [hcopied] at hrules
        have htake := same_takeDir (copyParent rule k.tick).1 rule
          (enterParent env (copyParent rule k.tick).1 (copyParent rule k.tick).2).2
        have htaken : ∀ m : Kernel, (takeDir (copyParent rule k.tick).1 rule m).victims = m.victims := by
          intro m
          unfold takeDir
          simp only
          split <;> rfl
        have hnodup : (k.rules ++ [(copyParent rule k.tick).1]).Nodup := by
          rw [← List.concat_eq_append, List.nodup_concat]
          exact ⟨fun hin => copyParent_fresh h.synced _ hin rfl, h.synced.nodup⟩
        have hmem : ∀ x, x ∈ (unlink rule (takeDir (copyParent rule k.tick).1 rule
            (enterParent env (copyParent rule k.tick).1 (copyParent rule k.tick).2).2)).rules ↔
              x ≠ rule ∧ (x ∈ k.rules ∨ x = (copyParent rule k.tick).1) := by
          intro x
          show x ∈ (takeDir _ rule _).rules.erase rule ↔ _
          rw [htake.rules, hrules, hnodup.mem_erase_iff, List.mem_append, List.mem_singleton]
        have hlinked : Linked _ ∅ (unlink rule (takeDir (copyParent rule k.tick).1 rule
            (enterParent env (copyParent rule k.tick).1 (copyParent rule k.tick).2).2)) :=
          preserve_succeeds h.linked hr hdir hzero rfl ?_ (SameDirs.refl _)
        · refine ⟨hsync, hlinked.congr ?_, ?_⟩
          · intro x
            refine (hmem x).trans ?_
            show _ ↔ (x = _ ∨ x ∈ k.rules) ∧ x ∉ [rule]
            rw [List.mem_singleton]
            tauto
          · have hcopy : ∀ x ∈ k.rules, x ≠ rule →
                ¬ (x.vPath = (copyParent rule k.tick).1.vPath ∧
                  x.targetUid = (copyParent rule k.tick).1.targetUid) :=
              fun x hx hne hkey => hne (h.unique x hx rule hr hkey.1 hkey.2)
            intro r hr r' hr' hpath huid
            obtain ⟨hne, hr⟩ := (hmem r).mp hr
            obtain ⟨hne', hr'⟩ := (hmem r').mp hr'
            rcases hr with hr | rfl
            · rcases hr' with hr' | rfl
              · exact h.unique r hr r' hr' hpath huid
              · exact absurd ⟨hpath, huid⟩ (hcopy r hr hne)
            · rcases hr' with hr' | rfl
              · exact absurd ⟨hpath.symm, huid.symm⟩ (hcopy r' hr' hne')
              · rfl
        · show (takeDir _ rule _).victims ++ [rule] = _
          rw [htaken, hvictims]

/-- A deletion keeps every rule which stays in its place, whatever fails. -/
theorem delRule_intact {vPath : Bytes} {beyond : UInt8} {uid : UInt32} (h : Intact k) :
    Intact (delRule env vPath beyond uid k).2 := by
  have hsync : Synced (delRule env vPath beyond uid k).2 := delRule_synced h.synced
  unfold delRule at hsync ⊢
  simp only at hsync ⊢
  split
  · exact h
  · rename_i found hfound
    simp only [hfound] at hsync
    obtain ⟨hholds, -, -⟩ := Art.searchExact_sound h.synced.sound hfound
    have hlisted := (h.synced.holds found).mp hholds
    cases hchildren : k.hasChildren found with
    | true =>
      rw [if_pos rfl]
      exact preserve_intact h hlisted hchildren
    | false =>
      rw [if_neg (by simp)]
      have hshrunk := shrunk_detachRule h.synced found true
      refine ⟨hshrunk.synced, detachRule_linked h.linked h.synced hlisted ?_, ?_⟩
      · intro d hd
        unfold hasChildren at hchildren
        rw [hd] at hchildren
        simpa using hchildren
      · exact fun r hr r' hr' => h.unique r (hshrunk.subset hr) r' (hshrunk.subset hr')

theorem retire_intact (h : Intact k) : Intact (retire k) := by
  have hsame := same_retire k
  refine ⟨h.synced.of_same hsame, h.linked.retire.congr ?_, ?_⟩
  · intro x
    exact (congrArg (x ∈ ·) hsame.rules).to_iff
  · rw [hsame.rules]
    exact h.unique

theorem clearAll_intact (h : Intact k) : Intact (clearAll k) := by
  refine ⟨clearAll_synced k, clearAll_linked h.linked, ?_⟩
  rw [(clearAll_rules k).1]
  exact fun r hr => absurd hr List.not_mem_nil

theorem boot_intact : Intact boot := by
  refine ⟨boot_synced, ⟨boot_housed, ?_, ?_, ?_, ?_, ?_, ?_, ?_, ?_, ?_⟩,
    fun r hr => absurd hr List.not_mem_nil⟩
  · exact fun r hr => absurd (hr.elim id id) List.not_mem_nil
  · exact fun r _ hr => absurd (hr.elim id id) List.not_mem_nil
  · exact fun r hr => absurd hr List.not_mem_nil
  · exact fun _ _ => ⟨rfl, rfl⟩
  · exact fun _ _ => rfl
  · exact fun r hr => absurd (hr.elim id id) List.not_mem_nil
  · exact fun _ c hc => absurd hc List.not_mem_nil
  · exact fun _ => List.nodup_nil
  · exact fun r hr => absurd hr List.not_mem_nil

end

end HybridMount.Vfs.Kernel
