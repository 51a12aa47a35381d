import HybridMount.DeletionFrame

/-! The rules which are present and the directory nodes in whose child sets they hang. While a
request is under way, some rules need no parent yet. -/

namespace HybridMount.Vfs.Kernel

open LittleEndian

/-- The directory in which a path stands: what comes before its last slash, or the root. -/
def parentPath (path : Bytes) : Option Bytes :=
  if path.length ≤ 1 then none else (lastSlash path).map fun i => path.take (parentLen i)

/-- The node stands behind an inode of the real file system. -/
def Hooked (k : Kernel) (dir : Nat) : Prop := ∃ number, k.hooks number = some dir

/-- The directory node of a rule is the parent of another one. -/
structure HangsBelow (k : Kernel) (rule p : Rule) (dir : Nat) : Prop where
  path : parentPath rule.vPath = some p.vPath
  owner : k.thisDir p.id = some dir
  parent : k.parentDir rule.id = some dir
  child : rule ∈ (k.dirs dir).children

inductive Attached (present loose : Set Rule) (k : Kernel) (rule : Rule) : Prop
  | loose (h : rule ∈ loose)
  | top (hparent : k.parentDir rule.id = none) (hlen : rule.vPath.length ≤ 1)
  | native {dir : Nat} (hparent : k.parentDir rule.id = some dir) (hhook : Hooked k dir)
  | under {p : Rule} {dir : Nat} (hp : p ∈ present) (hbelow : HangsBelow k rule p dir)

def keyIn (k : Kernel) (rule : Rule) : UInt32 × Bytes := (rule.targetUid, k.nameOf rule)

/-- The links between the rules which are present; the loose ones need no parent yet. The rules
which wait to be freed keep their directory nodes until then. -/
structure Linked (present loose : Set Rule) (k : Kernel) : Prop extends Housed k where
  born : ∀ r, r ∈ present ∨ r ∈ k.victims → r.id < k.nextId
  ids : ∀ r r', (r ∈ present ∨ r ∈ k.victims) → (r' ∈ present ∨ r' ∈ k.victims) → r.id = r'.id → r = r'
  gone : ∀ r ∈ k.victims, r ∉ present
  unborn : ∀ id, k.nextId ≤ id → k.thisDir id = none ∧ k.parentDir id = none
  untagged : ∀ dir, Hooked k dir → (k.dirs dir).tag = none
  owns : ∀ r, r ∈ present ∨ r ∈ k.victims → ∀ dir, k.thisDir r.id = some dir →
    (k.dirs dir).tag = some (some r)
  current : ∀ dir, ∀ c ∈ (k.dirs dir).children, c ∈ present
  distinct : ∀ dir, ((k.dirs dir).children.map k.keyIn).Nodup
  attached : ∀ r ∈ present, Attached present loose k r

/-- Two states whose directory nodes differ at most for ids which no rule has. -/
structure SameLinks (k k' : Kernel) : Prop where
  nextId : k.nextId ≤ k'.nextId
  nextDir : k'.nextDir = k.nextDir
  victims : k'.victims = k.victims
  dirs : k'.dirs = k.dirs
  hooks : k'.hooks = k.hooks
  old : ∀ id < k.nextId, k'.thisDir id = k.thisDir id ∧ k'.parentDir id = k.parentDir id ∧
    k'.childLen id = k.childLen id
  unborn : ∀ id, k'.nextId ≤ id → k'.thisDir id = k.thisDir id ∧ k'.parentDir id = k.parentDir id

section

variable {S S' L L' : Set Rule} {k k' : Kernel} {rule r p x : Rule} {dir childLen : Nat} {alloc : Bool}

theorem SameDirs.links (h : SameDirs k k') (hv : k'.victims = k.victims) : SameLinks k k' := by
  obtain ⟨hdirs, hthis, hparent, hlen, hhooks, hdir, hid⟩ := h
  refine ⟨hid.ge, hdir, hv, hdirs, hhooks, fun id _ => ?_, fun id _ => ?_⟩
  · rw [hthis, hparent, hlen]
    exact ⟨rfl, rfl, rfl⟩
  · rw [hthis, hparent]
    exact ⟨rfl, rfl⟩

/-- What is attached stays so when its parent stays below. -/
theorem Attached.carry (h : Attached S L k x) (hloose : x ∈ L → x ∈ L')
    (hparent : k'.parentDir x.id = k.parentDir x.id) (hhook : ∀ d, Hooked k d → Hooked k' d)
    (hbelow : ∀ p ∈ S, ∀ d, HangsBelow k x p d → Attached S' L' k' x) : Attached S' L' k' x := by
  cases h with
  | loose h => exact .loose (hloose h)
  | top hnone hlen => exact .top (hparent.trans hnone) hlen
  | native hp hh => exact .native (hparent.trans hp) (hhook _ hh)
  | under hp hb => exact hbelow _ hp _ hb

theorem Linked.hooked_iff (h : k'.hooks = k.hooks) (d : Nat) : Hooked k' d ↔ Hooked k d := by
  unfold Hooked
  rw [h]

theorem Linked.child_id (h : Linked S L k) (hr : r ∈ S) (hout : ∀ d, r ∉ (k.dirs d).children) :
    Outside k r := by
  intro d c hc heq
  have hcr := h.ids c r (Or.inl (h.current d c hc)) (Or.inl hr) heq
  rw [hcr] at hc
  exact hout d hc

theorem Linked.loosen (h : Linked S L k) (hloose : ∀ x ∈ S, x ∈ L → x ∈ L') : Linked S L' k :=
  ⟨h.toHoused, h.born, h.ids, h.gone, h.unborn, h.untagged, h.owns, h.current, h.distinct,
    fun x hx => (h.attached x hx).carry (hloose x hx) rfl (fun _ hh => hh) fun _ hp _ hb => .under hp hb⟩

/-- Links survive whatever leaves the directory nodes and the rules alone. -/
theorem Linked.of_links (h : Linked S L k) (hhoused : Housed k') (hs : SameLinks k k') : Linked S L k' := by
  obtain ⟨hid, -, hvictims, hdirs, hhooks, hold, hunborn⟩ := hs
  have hkeys : ∀ d, (k.dirs d).children.map k'.keyIn = (k.dirs d).children.map k.keyIn := by
    intro d
    apply List.map_congr_left
    intro c hc
    simp only [keyIn, nameOf, (hold c.id (h.placed d c hc).1).2.2]
  refine ⟨hhoused, ?_, ?_, ?_, ?_, ?_, ?_, ?_, ?_, ?_⟩
  · intro r hr
    rw [hvictims] at hr
    exact lt_of_lt_of_le (h.born r hr) hid
  · intro r r' hr hr'
    rw [hvictims] at hr hr'
    exact h.ids r r' hr hr'
  · rw [hvictims]
    exact h.gone
  · intro id hle
    obtain ⟨ht, hp⟩ := hunborn id hle
    rw [ht, hp]
    exact h.unborn id (hid.trans hle)
  · intro d hh
    rw [hdirs]
    exact h.untagged d ((Linked.hooked_iff hhooks d).mp hh)
  · intro r hr d ht
    rw [hvictims] at hr
    rw [(hold r.id (h.born r hr)).1] at ht
    rw [hdirs]
    exact h.owns r hr d ht
  · rw [hdirs]
    exact h.current
  · intro d
    rw [hdirs, hkeys]
    exact h.distinct d
  · intro r hr
    have hborn := hold r.id (h.born r (Or.inl hr))
    refine (h.attached r hr).carry id hborn.2.1 (fun d hh => (Linked.hooked_iff hhooks d).mpr hh)
      fun p hp d hb => ?_
    refine .under hp ⟨hb.path, ?_, hborn.2.1.trans hb.parent, ?_⟩
    · exact (hold p.id (h.born p (Or.inl hp))).1.trans hb.owner
    · rw [hdirs]
      exact hb.child

theorem Linked.of_dirs (h : Linked S L k) (hs : SameDirs k k') (hv : k'.victims = k.victims) :
    Linked S L k' :=
  h.of_links (h.toHoused.of_same hs) (hs.links hv)

theorem Linked.tick (h : Linked S L k) : Linked S L k.tick := h.of_dirs (dirs_tick k) rfl

/-- A new rule has neither a parent nor a directory node. -/
theorem Linked.enter (h : Linked S L k) (hid : r.id = k.nextId) :
    Linked (insert r S) (insert r L) { k with nextId := k.nextId + 1 } := by
  have hother : ∀ x, x ∈ S ∨ x ∈ k.victims → x.id ≠ r.id := by
    intro x hx heq
    have hlt := h.born x hx
    omega
  have hcases : ∀ x, x ∈ insert r S ∨ x ∈ k.victims → x = r ∨ (x ∈ S ∨ x ∈ k.victims) := by
    intro x hx
    rcases hx with hx | hx
    · exact (Set.mem_insert_iff.mp hx).imp_right Or.inl
    · exact Or.inr (Or.inr hx)
  refine ⟨h.newId, ?_, ?_, ?_, fun id hle => h.unborn id (Nat.le_of_succ_le hle), h.untagged, ?_, ?_,
    h.distinct, ?_⟩
  · intro x hx
    rcases hcases x hx with rfl | hx
    · exact Nat.lt_succ_of_le hid.le
    · exact Nat.lt_succ_of_lt (h.born x hx)
  · intro x y hx hy heq
    rcases hcases x hx with hxr | hxold
    · rcases hcases y hy with hyr | hyold
      · rw [hxr, hyr]
      · rw [hxr] at heq
        exact absurd heq.symm (hother y hyold)
    · rcases hcases y hy with hyr | hyold
      · rw [hyr] at heq
        exact absurd heq (hother x hxold)
      · exact h.ids x y hxold hyold heq
  · intro v hv hmem
    rcases Set.mem_insert_iff.mp hmem with rfl | hmem
    · exact hother v (Or.inr hv) rfl
    · exact h.gone v hv hmem
  · intro x hx d ht
    rcases hcases x hx with rfl | hx
    · have hnone := (h.unborn x.id hid.ge).1
      exact absurd (hnone.symm.trans ht) (by simp)
    · exact h.owns x hx d ht
  · exact fun d c hc => Set.mem_insert_of_mem r (h.current d c hc)
  · intro x hx
    rcases Set.mem_insert_iff.mp hx with rfl | hx
    · exact .loose (Set.mem_insert x L)
    · exact (h.attached x hx).carry (Set.mem_insert_of_mem r) rfl (fun _ hh => hh)
        fun p hp d hb => .under (Set.mem_insert_of_mem r hp) ⟨hb.path, hb.owner, hb.parent, hb.child⟩

/-- A rule which is in no child set can be given any place. -/
theorem Linked.place (h : Linked S L k) (hr : r ∈ S) (hloose : r ∈ L) (hout : ∀ d, r ∉ (k.dirs d).children)
    (childLen : Nat) (parent : Option Nat) (hparent : ∀ d, parent = some d → d < k.nextDir) :
    Linked S L (k.place r childLen parent) := by
  have houtside := h.child_id hr hout
  have hother : ∀ x ∈ S, x ≠ r → (k.place r childLen parent).parentDir x.id = k.parentDir x.id := by
    intro x hx hne
    exact Function.update_of_ne (fun heq => hne (h.ids x r (Or.inl hx) (Or.inl hr) heq)) _ _
  refine ⟨h.toHoused.place houtside childLen parent hparent, h.born, h.ids, h.gone, ?_, h.untagged, h.owns,
    h.current, ?_, ?_⟩
  · intro id hle
    have hne : id ≠ r.id := by
      intro heq
      rw [heq] at hle
      exact absurd (h.born r (Or.inl hr)) (not_lt.mpr hle)
    obtain ⟨ht, hp⟩ := h.unborn id hle
    exact ⟨ht, (Function.update_of_ne hne _ _).trans hp⟩
  · intro d
    have hsame : (k.dirs d).children.map (k.place r childLen parent).keyIn =
        (k.dirs d).children.map k.keyIn := by
      apply List.map_congr_left
      intro c hc
      simp only [keyIn, nameOf, Kernel.place, Function.update_of_ne (houtside d c hc)]
    show ((k.dirs d).children.map _).Nodup
    rw [hsame]
    exact h.distinct d
  · intro x hx
    by_cases hxr : x = r
    · rw [hxr]
      exact .loose hloose
    · have hp := hother x hx hxr
      exact (h.attached x hx).carry id hp (fun _ hh => hh)
        fun p hpresent d hb => .under hpresent ⟨hb.path, hb.owner, hp.trans hb.parent, hb.child⟩

/-- A directory node in which a rule can hang. -/
def Roof (present : Set Rule) (k : Kernel) (dir : Nat) (rule : Rule) : Prop :=
  Hooked k dir ∨ ∃ p ∈ present, k.thisDir p.id = some dir ∧ parentPath rule.vPath = some p.vPath

theorem Linked.roof_lt (h : Linked S L k) (hroof : Roof S k dir r) : dir < k.nextDir := by
  rcases hroof with ⟨number, hn⟩ | ⟨p, -, ht, -⟩
  · exact h.hooked number dir hn
  · exact h.given p.id dir ht

/-- A new child set which holds the rule and what is still to hang there. -/
theorem Linked.adopt (h : Linked S L k) (hroof : Roof S k dir r) (hp : k.parentDir r.id = some dir) (hr : r ∈ S)
    {children : List Rule} (capacity : Nat) (hin : r ∈ children) (hnodup : children.Nodup)
    (hmem : ∀ c ∈ children, c = r ∨ c ∈ (k.dirs dir).children)
    (hkept : ∀ c ∈ (k.dirs dir).children, c ∈ children ∨ c ∈ L' ∨ Hooked k dir)
    (hdistinct : (children.map k.keyIn).Nodup) (hL : ∀ x ∈ L, x ≠ r → x ∈ L') :
    Linked S L' (k.setDir dir ⟨children, capacity, (k.dirs dir).tag⟩) := by
  have hsame : ∀ d, d ≠ dir → (k.setDir dir ⟨children, capacity, (k.dirs dir).tag⟩).dirs d = k.dirs d :=
    fun d hd => Function.update_of_ne hd _ _
  have hnew : (k.setDir dir ⟨children, capacity, (k.dirs dir).tag⟩).dirs dir =
      ⟨children, capacity, (k.dirs dir).tag⟩ :=
    Function.update_self ..
  have htag : ∀ d, ((k.setDir dir ⟨children, capacity, (k.dirs dir).tag⟩).dirs d).tag = (k.dirs d).tag := by
    intro d
    by_cases hd : d = dir
    · rw [hd, hnew]
    · rw [hsame d hd]
  have hplaced : ∀ c ∈ children, c.id < k.nextId ∧ k.parentDir c.id = some dir := by
    intro c hc
    rcases hmem c hc with rfl | hc
    · exact ⟨h.born c (Or.inl hr), hp⟩
    · exact h.placed dir c hc
  refine ⟨h.toHoused.setDir (h.roof_lt hroof) _ hnodup hplaced, h.born, h.ids, h.gone, h.unborn, ?_,
    ?_, ?_, ?_, ?_⟩
  · intro d hh
    rw [htag d]
    exact h.untagged d hh
  · intro x hx d ht
    rw [htag d]
    exact h.owns x hx d ht
  · intro d c hc
    by_cases hd : d = dir
    · rw [hd, hnew] at hc
      rcases hmem c hc with rfl | hc
      · exact hr
      · exact h.current dir c hc
    · rw [hsame d hd] at hc
      exact h.current d c hc
  · intro d
    by_cases hd : d = dir
    · rw [hd, hnew]
      exact hdistinct
    · rw [hsame d hd]
      exact h.distinct d
  · intro x hx
    by_cases hxr : x = r
    · rw [hxr]
      rcases hroof with hh | ⟨p, hpresent, ht, hpath⟩
      · exact .native hp hh
      · refine .under hpresent ⟨hpath, ht, hp, ?_⟩
        rw [hnew]
        exact hin
    · refine (h.attached x hx).carry (fun hl => hL x hl hxr) rfl (fun _ hh => hh) fun p hpresent d hb => ?_
      by_cases hdd : d = dir
      · subst hdd
        rcases hkept x hb.child with hc | hl | hh
        · refine .under hpresent ⟨hb.path, hb.owner, hb.parent, ?_⟩
          rw [hnew]
          exact hc
        · exact .loose hl
        · exact .native hb.parent hh
      · refine .under hpresent ⟨hb.path, hb.owner, hb.parent, ?_⟩
        rw [hsame d hdd]
        exact hb.child

/-- A rule takes its place in a directory. Where the directory is not a native one, the
children of its key are loose from then on. -/
theorem Linked.inject (h : Linked S L k) (hroof : Roof S k dir r) (hr : r ∈ S) (hloose : r ∈ L)
    (hout : ∀ d, r ∉ (k.dirs d).children) (hL : ∀ x ∈ L, x ≠ r → x ∈ L')
    (hfull : ∀ c ∈ (k.dirs dir).children, c.targetUid = r.targetUid → k.nameOf c = r.childName childLen →
      c ∈ L' ∨ Hooked k dir)
    (hzero : (injectChild alloc dir r childLen k).1 = 0) :
    Linked S L' (injectChild alloc dir r childLen k).2 := by
  have hlt := h.roof_lt hroof
  have hplace := h.place hr hloose hout childLen (some dir) fun d hd => Option.some.inj hd ▸ hlt
  have hself : (k.place r childLen (some dir)).parentDir r.id = some dir := Function.update_self ..
  have hname : (k.place r childLen (some dir)).nameOf r = r.childName childLen := by
    simp only [nameOf, Kernel.place, Function.update_self]
  have houtside := h.child_id hr hout
  have hdistinct := hplace.distinct dir
  have hnodup := (injectChild_entering h.toHoused hlt (h.born r (Or.inl hr)) houtside alloc
    childLen).housed.nodup dir
  rcases injectChild_cases alloc dir r childLen k with ⟨children, capacity, heq, hcase⟩ | ⟨-, -, heq⟩
  · have hchildren : ((injectChild alloc dir r childLen k).2.dirs dir).children = children := by
      rw [heq]
      show (Function.update k.dirs dir _ dir).children = _
      rw [Function.update_self]
    rw [hchildren] at hnodup
    rw [heq]
    rcases hcase with ⟨old, hold, huid, hkey, rfl⟩ | ⟨hno, rfl⟩
    · obtain ⟨s, t, hsplit, hreplace⟩ := replace_split hold r
      have hsplit' : ((k.place r childLen (some dir)).dirs dir).children = s ++ old :: t := hsplit
      rw [hreplace] at hnodup ⊢
      apply hplace.adopt hroof hself hr capacity (by simp) hnodup
      · intro c hc
        rw [hsplit']
        simp only [List.mem_append, List.mem_cons] at hc ⊢
        tauto
      · intro c hc
        by_cases hco : c = old
        · right
          rw [hco]
          rw [place_nameOf (houtside dir old hold)] at hkey
          exact hfull old hold huid hkey
        · left
          rw [hsplit'] at hc
          simp only [List.mem_append, List.mem_cons] at hc ⊢
          tauto
      · have hkeys : (k.place r childLen (some dir)).keyIn r = (k.place r childLen (some dir)).keyIn old :=
          Prod.ext huid.symm (hname.trans hkey.symm)
        rw [hsplit', List.map_append, List.map_cons] at hdistinct
        rw [List.map_append, List.map_cons, hkeys]
        exact hdistinct
      · exact hL
    · apply hplace.adopt hroof hself hr capacity (by simp) hnodup
      · intro c hc
        simp only [List.mem_append, List.mem_singleton] at hc
        exact hc.symm
      · exact fun c hc => Or.inl (List.mem_append_left _ hc)
      · rw [List.map_append, List.nodup_append]
        refine ⟨hdistinct, by simp, ?_⟩
        intro a ha b hb hab
        obtain ⟨c, hc, rfl⟩ := List.mem_map.mp ha
        simp only [List.map_cons, List.map_nil, List.mem_singleton] at hb
        rw [hb] at hab
        exact hno c hc ⟨congrArg Prod.fst hab, (congrArg Prod.snd hab).trans hname⟩
      · exact hL
  · rw [heq] at hzero
    exact absurd hzero (by decide : ENOMEM ≠ 0)

/-- Without memory for the array the rule stays outside. -/
theorem Linked.inject_failed (h : Linked S L k) (hlt : dir < k.nextDir) (hr : r ∈ S) (hloose : r ∈ L)
    (hout : ∀ d, r ∉ (k.dirs d).children) (hfail : (injectChild alloc dir r childLen k).1 ≠ 0) :
    Linked S L (injectChild alloc dir r childLen k).2 := by
  rcases injectChild_cases alloc dir r childLen k with ⟨children, capacity, heq, -⟩ | ⟨-, -, heq⟩
  · rw [heq] at hfail
    exact absurd rfl hfail
  · rw [heq]
    have hplace := h.place hr hloose hout childLen (some dir) fun d hd => Option.some.inj hd ▸ hlt
    exact hplace.place hr hloose hout childLen none (by simp)

/-- Two states with the same child sets, where directory nodes may have changed hands. -/
structure SameChildren (k k' : Kernel) : Prop where
  nextId : k'.nextId = k.nextId
  victims : ∀ v ∈ k'.victims, v ∈ k.victims
  parentDir : k'.parentDir = k.parentDir
  childLen : k'.childLen = k.childLen
  hooks : ∀ d, Hooked k d → Hooked k' d
  children : ∀ d, (k'.dirs d).children = (k.dirs d).children

/-- What hangs in a directory node still hangs below a rule of the same path when every
node with children has such an owner. -/
theorem Linked.retag (h : Linked S L k) (hhoused : Housed k') (hs : SameChildren k k')
    (hunborn : ∀ id, k.nextId ≤ id → k'.thisDir id = none)
    (huntagged : ∀ d, Hooked k' d → (k'.dirs d).tag = none)
    (howns : ∀ x, x ∈ S ∨ x ∈ k'.victims → ∀ d, k'.thisDir x.id = some d → (k'.dirs d).tag = some (some x))
    (hheirs : ∀ p ∈ S, ∀ d, k.thisDir p.id = some d → (k.dirs d).children ≠ [] →
      ∃ p' ∈ S, p'.vPath = p.vPath ∧ k'.thisDir p'.id = some d) : Linked S L k' := by
  obtain ⟨hid, hvictims, hparent, hlen, hhooks, hchildren⟩ := hs
  have hwider : ∀ x, x ∈ S ∨ x ∈ k'.victims → x ∈ S ∨ x ∈ k.victims := fun x hx => hx.imp id (hvictims x)
  have hkeys : k'.keyIn = k.keyIn := by
    funext x
    simp only [keyIn, nameOf, hlen]
  refine ⟨hhoused, ?_, fun x y hx hy => h.ids x y (hwider x hx) (hwider y hy),
    fun v hv => h.gone v (hvictims v hv), ?_,
    huntagged, howns, ?_, ?_, ?_⟩
  · intro x hx
    rw [hid]
    exact h.born x (hwider x hx)
  · intro i hle
    rw [hid] at hle
    rw [hparent]
    exact ⟨hunborn i hle, (h.unborn i hle).2⟩
  · intro d c hc
    rw [hchildren d] at hc
    exact h.current d c hc
  · intro d
    rw [hchildren d, hkeys]
    exact h.distinct d
  · intro x hx
    refine (h.attached x hx).carry id (congrFun hparent x.id) hhooks fun p hp d hb => ?_
    obtain ⟨p', hp', hsame, ht'⟩ := hheirs p hp d hb.owner (List.ne_nil_of_mem hb.child)
    refine .under hp' ⟨hb.path.trans (congrArg some hsame.symm), ht',
      (congrFun hparent x.id).trans hb.parent, ?_⟩
    rw [hchildren d]
    exact hb.child

theorem Linked.giveDir (h : Linked S L k) (hr : r ∈ S) (hnone : k.thisDir r.id = none) :
    Linked S L (Kernel.giveDir r k) := by
  have hother : ∀ d, d ≠ k.nextDir → (Kernel.giveDir r k).dirs d = k.dirs d :=
    fun d hd => Function.update_of_ne hd _ _
  have hself : (Kernel.giveDir r k).dirs k.nextDir = { k.dirs k.nextDir with tag := some (some r) } :=
    Function.update_self ..
  have hthis : ∀ x, x ∈ S ∨ x ∈ k.victims → x ≠ r → (Kernel.giveDir r k).thisDir x.id = k.thisDir x.id := by
    intro x hx hne
    exact Function.update_of_ne (fun heq => hne (h.ids x r hx (Or.inl hr) heq)) _ _
  have hhoused : Housed (Kernel.giveDir r k) := by
    apply (h.newDir.setThisDir r.id (some k.nextDir) ?_).setOwner (Nat.lt_succ_self k.nextDir)
    intro d hd
    rw [← Option.some.inj hd]
    exact Nat.lt_succ_self k.nextDir
  apply h.retag hhoused
  · exact ⟨rfl, fun v hv => hv, rfl, rfl, fun _ hh => hh, fun d => setOwner_children ..⟩
  · intro i hle
    have hne : i ≠ r.id := by
      intro heq
      rw [heq] at hle
      exact absurd (h.born r (Or.inl hr)) (not_lt.mpr hle)
    exact (Function.update_of_ne hne _ _).trans (h.unborn i hle).1
  · intro d hh
    have hlt : d < k.nextDir := by
      obtain ⟨number, hn⟩ := hh
      exact h.hooked number d hn
    rw [hother d (Nat.ne_of_lt hlt)]
    exact h.untagged d hh
  · intro x hx d ht
    by_cases hxr : x = r
    · have hnew : (Kernel.giveDir r k).thisDir r.id = some k.nextDir := Function.update_self ..
      rw [hxr] at ht
      rw [← Option.some.inj (hnew.symm.trans ht), hself, hxr]
    · rw [hthis x hx hxr] at ht
      rw [hother d (Nat.ne_of_lt (h.given x.id d ht))]
      exact h.owns x hx d ht
  · intro p hp d ht _
    refine ⟨p, hp, rfl, ?_⟩
    rw [hthis p (Or.inl hp), ht]
    intro heq
    rw [heq, hnone] at ht
    cases ht

/-- A directory node goes over to another rule of the same path. -/
theorem Linked.transfer (h : Linked S L k) {old new : Rule} (hold : old ∈ S) (hnew : new ∈ S)
    (hne : new ≠ old)
    (hpath : new.vPath = old.vPath) (hdir : k.thisDir old.id = some dir)
    (hempty : ∀ d, k.thisDir new.id = some d → (k.dirs d).children = []) :
    Linked S L { k.setOwner dir (some new) with
      thisDir := Function.update (Function.update k.thisDir new.id (some dir)) old.id none } := by
  have hids : ∀ x y, (x ∈ S ∨ x ∈ k.victims) → (y ∈ S ∨ y ∈ k.victims) → x ≠ y → x.id ≠ y.id :=
    fun x y hx hy hxy heq => hxy (h.ids x y hx hy heq)
  have holdDir : Function.update (Function.update k.thisDir new.id (some dir)) old.id none old.id = none :=
    Function.update_self ..
  have hnewDir : Function.update (Function.update k.thisDir new.id (some dir)) old.id none new.id =
      some dir := by
    rw [Function.update_of_ne (hids new old (Or.inl hnew) (Or.inl hold) hne), Function.update_self]
  have hother : ∀ x, x ∈ S ∨ x ∈ k.victims → x ≠ old → x ≠ new →
      Function.update (Function.update k.thisDir new.id (some dir)) old.id none x.id = k.thisDir x.id := by
    intro x hx hxo hxn
    rw [Function.update_of_ne (hids x old hx (Or.inl hold) hxo),
      Function.update_of_ne (hids x new hx (Or.inl hnew) hxn)]
  have hlt := h.given old.id dir hdir
  have htag := h.owns old (Or.inl hold) dir hdir
  have hself : (k.setOwner dir (some new)).dirs dir = { k.dirs dir with tag := some (some new) } :=
    Function.update_self ..
  have hdirs : ∀ d, d ≠ dir → (k.setOwner dir (some new)).dirs d = k.dirs d :=
    fun d hd => Function.update_of_ne hd _ _
  have hhoused : Housed { k.setOwner dir (some new) with
      thisDir := Function.update (Function.update k.thisDir new.id (some dir)) old.id none } := by
    apply ((h.setOwner hlt (some new)).setThisDir new.id (some dir) ?_).setThisDir old.id none (by simp)
    intro d hd
    rw [← Option.some.inj hd]
    exact hlt
  apply h.retag hhoused
  · exact ⟨rfl, fun v hv => hv, rfl, rfl, fun _ hh => hh, fun d => setOwner_children ..⟩
  · intro i hle
    have hunborn : ∀ y ∈ S, i ≠ y.id := by
      intro y hy heq
      rw [heq] at hle
      exact absurd (h.born y (Or.inl hy)) (not_lt.mpr hle)
    exact (Function.update_of_ne (hunborn old hold) _ _).trans
      ((Function.update_of_ne (hunborn new hnew) _ _).trans (h.unborn i hle).1)
  · intro d hh
    have hnone := h.untagged d hh
    have hd : d ≠ dir := by
      intro heq
      rw [heq, htag] at hnone
      cases hnone
    show ((k.setOwner dir (some new)).dirs d).tag = none
    rw [hdirs d hd]
    exact hnone
  · intro x hx d ht
    show ((k.setOwner dir (some new)).dirs d).tag = _
    by_cases hxo : x = old
    · rw [hxo] at ht
      exact absurd (holdDir.symm.trans ht) (by simp)
    · by_cases hxn : x = new
      · rw [hxn] at ht ⊢
        have hd : dir = d := Option.some.inj (hnewDir.symm.trans ht)
        rw [← hd, hself]
      · have ht' := (hother x hx hxo hxn).symm.trans ht
        have htag' := h.owns x hx d ht'
        have hd : d ≠ dir := by
          intro heq
          rw [heq, htag] at htag'
          exact hxo (Option.some.inj (Option.some.inj htag')).symm
        rw [hdirs d hd]
        exact htag'
  · intro p hp d ht hchildren
    by_cases hpo : p = old
    · rw [hpo] at ht ⊢
      exact ⟨new, hnew, hpath, hnewDir.trans (hdir.symm.trans ht)⟩
    · by_cases hpn : p = new
      · rw [hpn] at ht
        exact absurd (hempty d ht) hchildren
      · exact ⟨p, hp, rfl, (hother p (Or.inl hp) hpo hpn).trans ht⟩

/-- A new directory node goes behind an inode which has none. -/
theorem Linked.hook (h : Linked S L k) {number : Nat} (hnone : k.hooks number = none) (hlt : dir < k.nextDir)
    (htag : (k.dirs dir).tag = none) :
    Linked S L { k with hooks := Function.update k.hooks number (some dir) } := by
  apply h.retag (h.setHook number dir hlt)
  · refine ⟨rfl, fun v hv => hv, rfl, rfl, ?_, fun _ => rfl⟩
    intro d hh
    obtain ⟨n, hn⟩ := hh
    refine ⟨n, ?_⟩
    show Function.update k.hooks number (some dir) n = some d
    rw [Function.update_of_ne, hn]
    intro heq
    rw [heq, hnone] at hn
    cases hn
  · exact fun i hle => (h.unborn i hle).1
  · intro d hh
    obtain ⟨n, hn⟩ := hh
    have hupdate : Function.update k.hooks number (some dir) n = some d := hn
    by_cases hnn : n = number
    · rw [hnn, Function.update_self] at hupdate
      rw [← Option.some.inj hupdate]
      exact htag
    · rw [Function.update_of_ne hnn] at hupdate
      exact h.untagged d ⟨n, hupdate⟩
  · exact h.owns
  · exact fun p hp d ht _ => ⟨p, hp, rfl, ht⟩

theorem Linked.newDir (h : Linked S L k) : Linked S L { k with nextDir := k.nextDir + 1 } := by
  apply h.retag h.toHoused.newDir
  · exact ⟨rfl, fun v hv => hv, rfl, rfl, fun _ hh => hh, fun _ => rfl⟩
  · exact fun i hle => (h.unborn i hle).1
  · exact h.untagged
  · exact h.owns
  · exact fun p hp d ht _ => ⟨p, hp, rfl, ht⟩

/-- Rules have gone out of the child sets and wait to be freed. -/
structure Dropped (gone : List Rule) (k k' : Kernel) : Prop where
  housed : Housed k'
  nextId : k'.nextId = k.nextId
  thisDir : k'.thisDir = k.thisDir
  parentDir : k'.parentDir = k.parentDir
  childLen : k'.childLen = k.childLen
  hooks : k'.hooks = k.hooks
  victims : k'.victims = k.victims ++ gone
  tag : ∀ d, (k'.dirs d).tag = (k.dirs d).tag
  sub : ∀ d, (k'.dirs d).children.Sublist (k.dirs d).children
  children : ∀ d c, c ∈ (k'.dirs d).children ↔ c ∈ (k.dirs d).children ∧ c ∉ gone

/-- The directories of these rules hold none but them. -/
def Closed (k : Kernel) (gone : List Rule) : Prop :=
  ∀ r ∈ gone, ∀ d, k.thisDir r.id = some d → ∀ c ∈ (k.dirs d).children, c ∈ gone

/-- Rules go whose directories hold none but them. -/
theorem Linked.drop {gone : List Rule} (h : Linked S L k) (hgone : ∀ r ∈ gone, r ∈ S) (hs : Dropped gone k k')
    (hclosed : Closed k gone) : Linked (S \ {x | x ∈ gone}) L k' := by
  obtain ⟨hhoused, hid, hthis, hparent, hlen, hhooks, hvictims, htag, hsub, hchildren⟩ := hs
  have hknown : ∀ x, x ∈ S \ {x | x ∈ gone} ∨ x ∈ k'.victims → x ∈ S ∨ x ∈ k.victims := by
    intro x hx
    rcases hx with hx | hx
    · exact Or.inl hx.1
    · rw [hvictims, List.mem_append] at hx
      exact hx.symm.imp_left (hgone x)
  refine ⟨hhoused, ?_, fun x y hx hy => h.ids x y (hknown x hx) (hknown y hy), ?_, ?_, ?_, ?_, ?_, ?_, ?_⟩
  · intro x hx
    rw [hid]
    exact h.born x (hknown x hx)
  · intro v hv hmem
    rw [hvictims, List.mem_append] at hv
    rcases hv with hv | hv
    · exact h.gone v hv hmem.1
    · exact hmem.2 hv
  · rw [hid, hthis, hparent]
    exact h.unborn
  · intro d hh
    rw [htag d]
    exact h.untagged d ((Linked.hooked_iff hhooks d).mp hh)
  · intro x hx d ht
    rw [hthis] at ht
    rw [htag d]
    exact h.owns x (hknown x hx) d ht
  · intro d c hc
    obtain ⟨hc, hout⟩ := (hchildren d c).mp hc
    exact ⟨h.current d c hc, hout⟩
  · intro d
    have hkeys : k'.keyIn = k.keyIn := by
      funext x
      simp only [keyIn, nameOf, hlen]
    rw [hkeys]
    exact (h.distinct d).sublist ((hsub d).map k.keyIn)
  · intro x hx
    refine (h.attached x hx.1).carry id (congrFun hparent x.id)
      (fun d hh => (Linked.hooked_iff hhooks d).mpr hh)
      fun p hp d hb => ?_
    have hstays : p ∈ S \ {x | x ∈ gone} := ⟨hp, fun hmem => hx.2 (hclosed p hmem d hb.owner x hb.child)⟩
    refine .under hstays ⟨hb.path, ?_, (congrFun hparent x.id).trans hb.parent,
      (hchildren d x).mpr ⟨hb.child, hx.2⟩⟩
    rw [hthis]
    exact hb.owner

theorem Dropped.nil (h : Housed k) : Dropped [] k k :=
  ⟨h, rfl, rfl, rfl, rfl, rfl, (List.append_nil _).symm, fun _ => rfl, fun _ => List.Sublist.refl _, by simp⟩

theorem Dropped.trans {m : Kernel} {gone more : List Rule} (h : Dropped gone k m) (h' : Dropped more m k') :
    Dropped (gone ++ more) k k' := by
  refine ⟨h'.housed, h'.nextId.trans h.nextId, h'.thisDir.trans h.thisDir, h'.parentDir.trans h.parentDir,
    h'.childLen.trans h.childLen, h'.hooks.trans h.hooks, ?_, fun d => (h'.tag d).trans (h.tag d),
    fun d => (h'.sub d).trans (h.sub d), ?_⟩
  · rw [h'.victims, h.victims, List.append_assoc]
  · intro d c
    rw [h'.children d c, h.children d c, List.mem_append]
    tauto

theorem dropped_deleteChild (h : Housed k) (hs : SameDirs (deleteChild r k).2 k')
    (hv : k'.victims = k.victims ++ [r]) :
    Dropped [r] k k' := by
  have hleaving := deleteChild_leaving r k
  have hchildren : ∀ d, (k'.dirs d).children = (k.dirs d).children.erase r := by
    intro d
    rw [hs.dirs, deleteChild_children h]
  refine ⟨(h.deleteChild r).of_same hs, hs.nextId.trans hleaving.nextId, hs.thisDir.trans hleaving.thisDir,
    hs.parentDir.trans hleaving.parentDir, hs.childLen.trans hleaving.childLen, hs.hooks.trans hleaving.hooks,
      hv, ?_, ?_, ?_⟩
  · intro d
    rw [hs.dirs]
    exact hleaving.tag d
  · intro d
    rw [hchildren d]
    exact List.erase_sublist
  · intro d c
    rw [hchildren d, (h.nodup d).mem_erase_iff, List.mem_singleton]
    exact and_comm

theorem Linked.congr (h : Linked S L k) (hS : ∀ x, x ∈ S' ↔ x ∈ S) : Linked S' L k := by
  have heq : S' = S := Set.ext hS
  rw [heq]
  exact h

end

end HybridMount.Vfs.Kernel
