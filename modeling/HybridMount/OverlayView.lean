import HybridMount.OverlayMount

/-! What an overlay shows at and below its target, child mounts included, and what a failed
one leaves behind. -/

namespace HybridMount

open Mounted Overlaid Plan Traced

def MountEffect.isTarget : MountEffect → Bool
  | .target _ => true
  | .staging _ => false

/-- A step which leaves the live mounts alone, reports no target and is not cut short. -/
def Prepares {α : Type} (live : LiveTree) (m : Mounting α) (Q : α → Prop) : Prop :=
  Sat (fun _ => True) (fun e => e.isTarget = false) (fun s => s.live = live) m
    (fun a s => s.live = live ∧ Q a) (fun e s => s.live = live ∧ e ≠ .unfinished)

namespace Prepares

variable {α β : Type} {live : LiveTree} {m : Mounting α} {f : α → Mounting β} {Q Q' : α → Prop} {R : β → Prop}

theorem bind (hm : Prepares live m Q) (hf : ∀ a, Q a → Prepares live (f a) R) : Prepares live (m >>= f) R :=
  Sat.bind hm fun a => Sat.given (hf a)

theorem pure {a : α} (h : Q a) : Prepares live (Pure.pure a) Q := Sat.pure fun _ hs => ⟨hs, h⟩

theorem weaken (hm : Prepares live m Q) (h : ∀ a, Q a → Q' a) : Prepares live m Q' :=
  Sat.weaken hm (fun a _ hq => ⟨hq.1, h a hq.2⟩) fun _ _ he => he

theorem fail {e : Error} (h : e ≠ .unfinished) : Prepares live (Prog.fail e : Mounting α) Q :=
  Sat.fail fun _ hs => ⟨hs, h⟩

theorem get : Prepares live Prog.get fun s => s.live = live := Sat.get fun _ hs => ⟨hs, hs⟩

theorem syscall (failure : String) : Prepares live (HybridMount.syscall failure) fun _ => True := by
  intro s hs _
  unfold HybridMount.syscall
  cases s.failing with
  | nil => exact ⟨fun _ he => absurd he List.not_mem_nil, hs, trivial⟩
  | cons failing rest =>
    cases failing with
    | true => exact ⟨fun _ he => absurd he List.not_mem_nil, hs, fun he => Error.noConfusion he⟩
    | false => exact ⟨fun _ he => absurd he List.not_mem_nil, hs, trivial⟩

theorem staging (path : Names) : Prepares live (onEffect (.staging path)) fun _ => True :=
  Sat.update fun _ hs _ => ⟨rfl, hs, trivial⟩

theorem createRandomDir (stagingRoot : Names) :
    Prepares live (HybridMount.createRandomDir stagingRoot) fun _ => True := by
  refine bind (syscall _) fun _ _ => ?_
  exact fun s hs _ => ⟨fun _ he => absurd he List.not_mem_nil, hs, trivial⟩

theorem mountOverlayCore (lowerDirs : List Layer) (dest : Names) :
    Prepares live (HybridMount.mountOverlayCore lowerDirs dest) fun shown =>
    shown = stack .directory lowerDirs :=
  bind (syscall _) fun _ _ => pure rfl

theorem stageLayers (stagingRoot : Names) (layers : List Layer) :
    Prepares live (HybridMount.stageLayers stagingRoot layers) fun layer =>
      layer = lower (stack .directory layers) := by
  refine bind (createRandomDir _) fun dir _ => bind (mountOverlayCore _ _) fun shown hshown => ?_
  exact bind (staging _) fun _ _ => pure (by rw [hshown])

/-- However often the tail is collapsed, the layers show the same. -/
theorem collapse (stagingRoot : Names) (layers : List Layer) :
    Prepares live (collapseStagingLayers (HybridMount.stageLayers stagingRoot) layers) fun collapsed =>
      stack .directory collapsed = stack .directory layers := by
  induction hn : layers.length using Nat.strong_induction_on generalizing layers with
  | _ n ih =>
    rw [collapseStagingLayers]
    split
    · exact pure rfl
    · rename_i hlong
      refine bind (stageLayers _ _) fun staged hstaged => ?_
      have hlt : (layers.take (layers.length - (maxLayers - 1)) ++ [staged]).length < n := by
        simp only [maxLayers, List.length_append, List.length_take, List.length_singleton] at hlong ⊢
        omega
      refine weaken (ih _ hlt _ rfl) fun collapsed hc => ?_
      rw [hc, hstaged, stack_append_stack, List.take_append_drop]

theorem mountOverlayfs (lowerDirs : List Layer) (shown : Names → Option Entry) (dest stagingRoot : Names) :
    Prepares live (HybridMount.mountOverlayfs lowerDirs (lower shown) dest stagingRoot) fun view =>
      view = overlay .directory lowerDirs shown := by
  refine bind (collapse _ _) fun collapsed hc => weaken (mountOverlayCore _ _) fun view hview => ?_
  rw [hview, hc, stack_append_lower]

end Prepares

theorem isBelow_iff {root point : Names} : isBelow root point = true ↔ root <+: point ∧ point ≠ root := by
  simp [isBelow]

theorem mem_childMountPoints {live : LiveTree} {root point : Names} :
    point ∈ childMountPoints live root ↔ point ∈ live.points ∧ isBelow root point = true := by
  simp [childMountPoints]

theorem le_append (xs ys : List Char) : xs ≤ xs ++ ys := by
  induction xs with
  | nil =>
    cases ys with
    | nil => exact le_refl _
    | cons y ys => exact le_of_lt (List.nil_lt_cons y ys)
  | cons x xs ih => exact List.cons_le_cons x ih

/-- A listed point comes before everything below it. -/
theorem childMountPoints_pairwise (live : LiveTree) (root : Names) :
    (childMountPoints live root).Pairwise fun left right => ¬ right <+: left := by
  have : IsTrans Names fun left right => pathText left ≤ pathText right := ⟨fun _ _ _ => le_trans⟩
  have : Std.Total fun left right : Names => pathText left ≤ pathText right := ⟨fun _ _ => le_total _ _⟩
  have hsorted := (List.pairwise_insertionSort (fun left right : Names => pathText left ≤ pathText right)
    (live.points.filter (isBelow root))).sublist (List.dedup_sublist _)
  have hnodup := List.nodup_dedup
    ((live.points.filter (isBelow root)).insertionSort fun left right => pathText left ≤ pathText right)
  refine (hsorted.and hnodup).imp ?_
  rintro left right ⟨hle, hne⟩ ⟨x, rfl⟩
  have htext : pathText (right ++ x) = pathText right ++ pathText x := List.flatMap_append ..
  have heq : pathText right ++ pathText x = pathText right :=
    le_antisymm (htext ▸ hle) (le_append _ _)
  cases x with
  | nil => exact hne (List.append_nil right)
  | cons name x =>
    have hnil := List.append_right_eq_self.mp heq
    simp [pathText] at hnil

/-- Both are of one kind. -/
def sameKind : Entry → Entry → Bool
  | .directory, .directory | .regular _, .regular _ | .symlink _, .symlink _ | .device _, .device _ => true
  | _, _ => false

/-- Every child mount is visible, none is stacked upon another, and the modules hold nothing at or
above its point which would hide it or be of another kind. -/
structure Tame (live : LiveTree) (stock : Names) (moduleRoots : List ModuleRoot) : Prop where
  visible : ∀ c ∈ live.points, isBelow stock c → (live.locate c).2 = []
  once : ∀ c ∈ live.points, isBelow stock c → live.points.count c = 1
  above : ∀ relative, stock ++ relative ∈ live.points → ∀ root ∈ moduleRoots,
    ClearAbove .directory root.entry relative
  kind : ∀ relative, relative ≠ [] → stock ++ relative ∈ live.points → ∀ root ∈ moduleRoots, ∀ held,
    root.entry relative = some held → ∃ entry native,
      held = .shown entry ∧ live.view (stock ++ relative) = some native ∧ sameKind entry native

/-- What was visible under a directory with the module roots laid over it. -/
def merged (live : LiveTree) (stock : Names) (moduleRoots : List ModuleRoot) : Names → Option Entry :=
  overlay .directory (moduleRoots.map ModuleRoot.entry) fun q => live.view (stock ++ q)

/-- A tree which may cover the directory: it shows the merge and has the child mounts again. -/
structure Prepared (live : LiveTree) (stock : Names) (moduleRoots : List ModuleRoot)
    (tree : LiveTree) : Prop where
  layered : tree.Layered
  uncovered : tree.uncovered
  shows : Tame live stock moduleRoots → ∀ q, tree.view q = merged live stock moduleRoots q
  points : Tame live stock moduleRoots → ∀ q, q ≠ [] → tree.points.count q = live.points.count (stock ++ q)
  mounted : Tame live stock moduleRoots → ∀ q, q ≠ [] → stock ++ q ∈ live.points → (tree.locate q).2 = []

/-- A tree put upon the point of a child mount. -/
structure Carries (live : LiveTree) (stock relative : Names) (moduleRoots : List ModuleRoot)
    (tree : LiveTree) :
    Prop where
  layered : tree.Layered
  uncovered : tree.uncovered
  shows : Tame live stock moduleRoots → ∀ q, tree.view q = merged live stock moduleRoots (relative ++ q)
  points : Tame live stock moduleRoots → ∀ q, q ≠ [] →
    tree.points.count q = live.points.count (stock ++ relative ++ q)
  mounted : Tame live stock moduleRoots → ∀ q, q ≠ [] → stock ++ relative ++ q ∈ live.points →
    (tree.locate q).2 = []

variable {live : LiveTree} {stock child relative : Names} {moduleRoots : List ModuleRoot} {tree : LiveTree}

theorem isBelow_append {root point : Names} {q : Names} (h : isBelow root point) :
    isBelow root (point ++ q) := by
  obtain ⟨hpre, hne⟩ := isBelow_iff.mp h
  refine isBelow_iff.mpr ⟨hpre.trans (List.prefix_append point q), fun he => hne ?_⟩
  exact (hpre.eq_of_length_le (by
    have hlen := congrArg List.length he
    simp only [List.length_append] at hlen
    omega)).symm

theorem isBelow_self {relative : Names} (h : relative ≠ []) : isBelow stock (stock ++ relative) := by
  refine isBelow_iff.mpr ⟨List.prefix_append _ _, fun he => h ?_⟩
  exact List.append_right_eq_self.mp he

/-- Below a child mount the layers which hold something there meet the same conditions. -/
theorem Tame.nested (h : Tame live stock moduleRoots) (hr : relative ≠ []) :
    Tame live (stock ++ relative)
      ((moduleRoots.filter fun root => (root.entry relative).isSome).map (·.at relative)) where
  visible c hc hb := by
    obtain ⟨q, rfl⟩ := (isBelow_iff.mp hb).1
    exact h.visible _ hc (isBelow_append (isBelow_self hr))
  once c hc hb := by
    obtain ⟨q, rfl⟩ := (isBelow_iff.mp hb).1
    exact h.once _ hc (isBelow_append (isBelow_self hr))
  above q hq root hroot := by
    obtain ⟨base, hbase, rfl⟩ := List.mem_map.mp hroot
    rw [List.append_assoc] at hq
    intro u hu hne hnq
    refine h.above _ hq base (List.mem_filter.mp hbase).1 _
      ((List.prefix_append_right_inj relative).mpr hu) ?_ ?_
    · exact fun hh => hne (List.append_eq_nil_iff.mp hh).2
    · exact fun hh => hnq (List.append_cancel_left hh)
  kind q hne hq root hroot := by
    obtain ⟨base, hbase, rfl⟩ := List.mem_map.mp hroot
    rw [List.append_assoc] at hq ⊢
    exact h.kind _ (fun hh => hne (List.append_eq_nil_iff.mp hh).2) hq base (List.mem_filter.mp hbase).1

theorem closed_entries (moduleRoots : List ModuleRoot) :
    ∀ layer ∈ moduleRoots.map ModuleRoot.entry, Closed .directory layer := by
  intro layer hl
  obtain ⟨root, -, rfl⟩ := List.mem_map.mp hl
  exact root.closed

theorem Tame.entries (h : Tame live stock moduleRoots) (hp : stock ++ relative ∈ live.points) :
    ∀ layer ∈ moduleRoots.map ModuleRoot.entry, ClearAbove .directory layer relative := by
  intro layer hl
  obtain ⟨root, hroot, rfl⟩ := List.mem_map.mp hl
  exact h.above relative hp root hroot

theorem clone_mounted (hlive : live.Layered) (hr : relative ≠ [])
    (ht : Tame live stock moduleRoots) {q : Names}
    (hq : q ≠ []) (hmem : stock ++ relative ++ q ∈ live.points) :
    ((live.clone (stock ++ relative)).locate q).2 = [] := by
  have hroot := ht.visible _ hmem (isBelow_append (isBelow_self hr))
  rcases Mount.locate_clone hlive (stock ++ relative) q with he | ⟨-, he⟩
  · rw [he]
    exact hroot
  · rw [he] at hroot
    exact absurd (List.append_eq_nil_iff.mp hroot).2 hq

/-- A child mount which no module touches is carried over by a recursive bind. -/
theorem carries_clone (hlive : live.Layered) (hr : relative ≠ []) (hp : stock ++ relative ∈ live.points)
    (hnone : (moduleRoots.filter fun root => (root.entry relative).isSome) = []) :
    Carries live stock relative moduleRoots (live.clone (stock ++ relative)) where
  layered := hlive.clone _
  uncovered := Mount.uncovered_clone _ _
  shows ht q := by
    have hskip : ∀ layer ∈ moduleRoots.map ModuleRoot.entry, layer relative = none := by
      intro layer hl
      obtain ⟨root, hroot, rfl⟩ := List.mem_map.mp hl
      simpa using List.filter_eq_nil_iff.mp hnone root hroot
    rw [Mount.view_clone hlive, merged, overlay_skip (closed_entries _) (ht.entries hp) hskip,
      List.append_assoc]
  points ht q hq := by
    have hle := Mount.count_clone live (stock ++ relative) q
    by_cases hmem : stock ++ relative ++ q ∈ live.points
    · have hone := ht.once _ hmem (isBelow_append (isBelow_self hr))
      have hpos := List.count_pos_iff.mpr (Mount.mem_points_of_root (clone_mounted hlive hr ht hq hmem) hq)
      omega
    · rw [List.count_eq_zero.mpr hmem] at hle ⊢
      omega
  mounted ht q hq hmem := clone_mounted hlive hr ht hq hmem

theorem Tame.not_below_file (ht : Tame live stock moduleRoots) (hr : relative ≠ []) {root : ModuleRoot}
    (hroot : root ∈ moduleRoots) {content : String}
    (hentry : root.entry relative = some (.shown (.regular content))) {q : Names} (hq : q ≠ []) :
    stock ++ relative ++ q ∉ live.points := by
  intro hmem
  rw [List.append_assoc] at hmem
  have hclear := ht.above _ hmem root hroot relative (List.prefix_append _ _) hr
    fun hh => hq (List.append_right_eq_self.mp hh.symm)
  rw [hentry] at hclear
  cases hclear

theorem first_mem {first : ModuleRoot} {rest : List ModuleRoot}
    (hfirst : (moduleRoots.filter fun root => (root.entry relative).isSome) = first :: rest) :
    first ∈ moduleRoots :=
  (List.mem_filter.mp (hfirst ▸ List.mem_cons_self (a := first) (l := rest))).1

/-- A single file is bound upon a file. -/
theorem carries_file {first : ModuleRoot} {rest : List ModuleRoot} {content : String} (hr : relative ≠ [])
    (hp : stock ++ relative ∈ live.points)
    (hfirst : (moduleRoots.filter fun root => (root.entry relative).isSome) = first :: rest)
    (hentry : first.entry relative = some (.shown (.regular content))) :
    Carries live stock relative moduleRoots
      (.mk (fun q => if q = [] then some (.regular content) else none) []) where
  layered := .mk List.Pairwise.nil fun _ hb => absurd hb List.not_mem_nil
  uncovered := rfl
  shows ht q := by
    have hlayers : ((moduleRoots.map ModuleRoot.entry).filter fun layer => (layer relative).isSome) =
        first.entry :: rest.map ModuleRoot.entry := by
      rw [List.filter_map]
      exact congrArg (List.map ModuleRoot.entry) hfirst
    rw [merged, overlay_first (closed_entries _) (ht.entries hp) hr hlayers hentry nofun]
    rfl
  points ht q hq := by
    rw [List.count_eq_zero.mpr (ht.not_below_file hr (first_mem hfirst) hentry hq)]
    rfl
  mounted ht q hq hmem := absurd hmem (ht.not_below_file hr (first_mem hfirst) hentry hq)

/-- A directory below which the modules hold something is prepared in the same way. -/
theorem Prepared.carries (hr : relative ≠ []) (hp : stock ++ relative ∈ live.points)
    (hdir : live.view (stock ++ relative) = some .directory)
    (h : Prepared live (stock ++ relative)
      ((moduleRoots.filter fun root => (root.entry relative).isSome).map (·.at relative)) tree) :
    Carries live stock relative moduleRoots tree where
  layered := h.layered
  uncovered := h.uncovered
  shows ht q := by
    have hclear : ∀ layer ∈ moduleRoots.map ModuleRoot.entry, Clear .directory layer relative := by
      intro layer hl
      refine Clear.of_above (ht.entries hp layer hl) ?_
      obtain ⟨root, hroot, rfl⟩ := List.mem_map.mp hl
      cases he : root.entry relative with
      | none => rfl
      | some held =>
        obtain ⟨entry, native, rfl, hnative, hkind⟩ := ht.kind relative hr hp root hroot held he
        rw [hdir] at hnative
        cases hnative
        cases entry with
        | directory => rfl
        | regular | symlink | device => cases hkind
    rw [h.shows (ht.nested hr), merged, merged, overlay_at hclear, overlay_filter (closed_entries _)]
    rw [List.filter_map, List.map_map, List.map_map]
    simp only [List.append_assoc]
    rfl
  points ht q hq := h.points (ht.nested hr) q hq
  mounted ht q hq hmem := h.mounted (ht.nested hr) q hq hmem

/-- How far the preparation has come once the points `done` are seen to. -/
structure Gathered (live : LiveTree) (stock : Names) (moduleRoots : List ModuleRoot) (done : List Names)
    (prepared : List Names × LiveTree) : Prop where
  layered : prepared.2.Layered
  uncovered : prepared.2.uncovered
  direct : ∀ d ∈ prepared.1, d ∈ done
  covered : ∀ c ∈ done, ∃ d ∈ prepared.1, d <+: c
  shows : Tame live stock moduleRoots → ∀ q, prepared.2.view q =
    if ∃ d ∈ prepared.1, d <+: stock ++ q then merged live stock moduleRoots q
    else overlay .directory (moduleRoots.map ModuleRoot.entry) (live.own stock) q
  points : Tame live stock moduleRoots → ∀ q, prepared.2.points.count q =
    if ∃ d ∈ prepared.1, d <+: stock ++ q then live.points.count (stock ++ q) else 0
  mounted : Tame live stock moduleRoots → ∀ q, (∃ d ∈ prepared.1, d <+: stock ++ q) →
    stock ++ q ∈ live.points →
    (prepared.2.locate q).2 = []

theorem Gathered.start : Gathered live stock moduleRoots []
    ([], .mk (overlay .directory (moduleRoots.map ModuleRoot.entry) (live.own stock)) []) where
  layered := .mk List.Pairwise.nil fun _ hb => absurd hb List.not_mem_nil
  uncovered := rfl
  direct _ hd := hd
  covered _ hc := absurd hc List.not_mem_nil
  shows _ q := by simp [Mount.view, Mount.locate, Mount.locateIn, Mount.tree]
  points _ q := by simp [Mount.points, Mount.pointsIn]
  mounted _ q hd := by simp at hd

theorem Gathered.skip {done : List Names} {prepared : List Names × LiveTree}
    (h : Gathered live stock moduleRoots done prepared) (hd : ∃ d ∈ prepared.1, d <+: child) :
    Gathered live stock moduleRoots (done ++ [child]) prepared where
  layered := h.layered
  uncovered := h.uncovered
  direct d hm := List.mem_append_left _ (h.direct d hm)
  covered c hc := (List.mem_append.mp hc).elim (h.covered c) fun hc => List.mem_singleton.mp hc ▸ hd
  shows := h.shows
  points := h.points
  mounted := h.mounted

theorem attached_iff {direct : List Names} {q : Names} (hq : ¬ relative <+: q) :
    (∃ d ∈ direct ++ [stock ++ relative], d <+: stock ++ q) ↔ ∃ d ∈ direct, d <+: stock ++ q := by
  constructor
  · rintro ⟨d, hd, hpre⟩
    rcases List.mem_append.mp hd with hd | hd
    · exact ⟨d, hd, hpre⟩
    · rw [List.mem_singleton.mp hd] at hpre
      exact absurd ((List.prefix_append_right_inj stock).mp hpre) hq
  · rintro ⟨d, hd, hpre⟩
    exact ⟨d, List.mem_append_left _ hd, hpre⟩

theorem Gathered.attach {done direct : List Names} {view : LiveTree}
    (h : Gathered live stock moduleRoots done (direct, view)) (hr : relative ≠ [])
    (hp : stock ++ relative ∈ live.points) (hskip : ∀ d ∈ direct, ¬ d <+: stock ++ relative)
    (hsorted : ∀ d ∈ done, ¬ stock ++ relative <+: d) (ht : Carries live stock relative moduleRoots tree) :
    Gathered live stock moduleRoots (done ++ [stock ++ relative])
      (direct ++ [stock ++ relative], view.graft relative tree) where
  layered := h.layered.graft ht.layered relative
  uncovered := Mount.uncovered_graft h.uncovered hr
  direct d hd := by
    rcases List.mem_append.mp hd with hd | hd
    · exact List.mem_append_left _ (h.direct d hd)
    · exact List.mem_append_right _ hd
  covered c hc := by
    rcases List.mem_append.mp hc with hc | hc
    · obtain ⟨d, hd, hpre⟩ := h.covered c hc
      exact ⟨d, List.mem_append_left _ hd, hpre⟩
    · rw [List.mem_singleton.mp hc]
      exact ⟨_, List.mem_append_right _ (List.mem_singleton_self _), List.prefix_refl _⟩
  shows htame q := by
    by_cases hq : relative <+: q
    · obtain ⟨r, rfl⟩ := hq
      have hmem : ∃ d ∈ direct ++ [stock ++ relative], d <+: stock ++ (relative ++ r) :=
        ⟨_, List.mem_append_right _
          (List.mem_singleton_self _), by rw [← List.append_assoc]; exact List.prefix_append _ _⟩
      rw [Mount.view_graft h.layered, ht.shows htame, if_pos hmem]
    · rw [Mount.view_graft_elsewhere hq, h.shows htame]
      simp only [attached_iff hq]
  points htame q := by
    rw [(Mount.points_graft view tree relative).count_eq q]
    simp only [List.cons_append, List.count_cons, List.count_append]
    by_cases hq : relative <+: q
    · obtain ⟨r, rfl⟩ := hq
      have hmem : ∃ d ∈ direct ++ [stock ++ relative], d <+: stock ++ (relative ++ r) :=
        ⟨_, List.mem_append_right _
          (List.mem_singleton_self _), by rw [← List.append_assoc]; exact List.prefix_append _ _⟩
      have hold : ¬ ∃ d ∈ direct, d <+: stock ++ (relative ++ r) := by
        rintro ⟨d, hd, hpre⟩
        rw [← List.append_assoc] at hpre
        rcases List.prefix_or_prefix_of_prefix hpre (List.prefix_append _ r) with hlow | hhigh
        · exact hskip d hd hlow
        · exact hsorted d (h.direct d hd) hhigh
      have hmap := List.count_map_of_injective tree.points (relative ++ ·)
        (List.append_right_injective relative) r
      have hview := h.points htame (relative ++ r)
      rw [if_neg hold] at hview
      rw [if_pos hmem, hmap, hview]
      by_cases hempty : r = []
      · subst hempty
        have hnil := List.count_eq_zero.mpr (Mount.nil_not_mem_points ht.uncovered)
        rw [List.append_nil, hnil, htame.once _ hp (isBelow_self hr)]
        simp
      · have hne : ¬ relative = relative ++ r := fun hh => hempty (List.append_right_eq_self.mp hh.symm)
        rw [ht.points htame r hempty, List.append_assoc]
        simp [hne]
    · have hne : ¬ relative = q := fun hh => hq (hh ▸ List.prefix_refl _)
      have hmap : (tree.points.map (relative ++ ·)).count q = 0 := by
        refine List.count_eq_zero.mpr fun hm => ?_
        obtain ⟨x, -, hx⟩ := List.mem_map.mp hm
        exact hq ⟨x, hx⟩
      rw [hmap, h.points htame q]
      simp only [attached_iff hq, beq_iff_eq, hne, if_false, Nat.add_zero, Nat.zero_add]
  mounted htame q hd hmem := by
    by_cases hq : relative <+: q
    · obtain ⟨r, rfl⟩ := hq
      rw [Mount.locate_graft h.layered]
      by_cases hempty : r = []
      · rw [hempty, Mount.locate_root ht.uncovered]
      · exact ht.mounted htame r hempty (by rwa [List.append_assoc])
    · rw [attached_iff hq] at hd
      have hplace := congrArg Prod.snd (Mount.place_graft_elsewhere (m := view) (n := tree) hq)
      exact hplace.trans (h.mounted htame q hd hmem)

theorem Gathered.finish {children : List Names} {prepared : List Names × LiveTree} (hlive : live.Layered)
    (hlisted : ∀ c ∈ live.points, isBelow stock c → c ∈ children)
    (h : Gathered live stock moduleRoots children prepared) : Prepared live stock moduleRoots prepared.2 where
  layered := h.layered
  uncovered := h.uncovered
  shows ht q := by
    rw [h.shows ht q]
    split
    · rfl
    · rename_i hno
      refine overlay_congr (Mount.own_eq_view_of_points hlive fun c hc hpre hne hcq => hno ?_)
      obtain ⟨d, hd, hdc⟩ := h.covered c (hlisted c hc (isBelow_iff.mpr ⟨hpre, hne⟩))
      exact ⟨d, hd, hdc.trans hcq⟩
  points ht q hq := by
    rw [h.points ht q]
    split
    · rfl
    · rename_i hno
      refine (List.count_eq_zero.mpr fun hm => hno ?_).symm
      exact h.covered _ (hlisted _ hm (isBelow_self hq))
  mounted ht q hq hmem := h.mounted ht q (h.covered _ (hlisted _ hmem (isBelow_self hq))) hmem

theorem Prepares.childView {nested : Names → Names → List ModuleRoot → Mounting LiveTree} {target : Names}
    (hlive : live.Layered) (hr : relative ≠ []) (hp : stock ++ relative ∈ live.points)
    (hnested : ∀ target layers,
      Prepares live (nested target (stock ++ relative) layers) (Prepared live (stock ++ relative) layers)) :
    Prepares live (HybridMount.childView nested (stock ++ relative) target relative
      (moduleRoots.filter fun root => (root.entry relative).isSome))
      (Carries live stock relative moduleRoots) := by
  unfold HybridMount.childView
  refine bind get fun s hs => ?_
  rw [hs]
  cases hlayers : moduleRoots.filter fun root => (root.entry relative).isSome with
  | nil => exact bind (syscall _) fun _ _ => pure (carries_clone hlive hr hp hlayers)
  | cons first rest =>
    refine bind (syscall _) fun _ _ => ?_
    split
    · rename_i hdir
      split
      · exact fail nofun
      · refine weaken (hnested target _) fun tree ht => ?_
        rw [← hlayers] at ht
        exact ht.carries hr hp hdir
    · split
      · rename_i content hentry
        exact bind (syscall _) fun _ _ => pure (carries_file hr hp hlayers hentry)
      · exact fail nofun

theorem checkTarget_error {destination : Names} {view : LiveTree} {e : Error}
    (h : checkTarget destination relative view = .error e) : e ≠ .unfinished := by
  have hall : ∀ components : List Names, components.forM (checkComponent destination view) = .error e →
      e ≠ .unfinished := by
    intro components
    induction components with
    | nil => exact fun h => nomatch h
    | cons checked rest ih =>
      intro h
      change (checkComponent destination view checked >>= fun _ => rest.forM _) = _ at h
      cases hc : checkComponent destination view checked with
      | ok _ =>
        rw [hc] at h
        exact ih h
      | error e' =>
        rw [hc] at h
        cases h
        unfold checkComponent at hc
        split at hc
        · cases hc
          exact nofun
        · cases hc
          exact nofun
        · cases hc
  exact hall _ h

/-- What lies below a child mount is fewer than what lies below the directory around it. -/
theorem countP_below_lt {children : List Names} (hr : relative ≠ []) (hc : stock ++ relative ∈ children) :
    children.countP (isBelow (stock ++ relative)) < children.countP (isBelow stock) := by
  have hsub : children.filter (isBelow (stock ++ relative)) =
      (children.filter (isBelow stock)).filter (isBelow (stock ++ relative)) := by
    rw [List.filter_filter]
    refine List.filter_congr fun c _ => ?_
    cases hb : isBelow (stock ++ relative) c with
    | false => rfl
    | true =>
      obtain ⟨q, rfl⟩ := (isBelow_iff.mp hb).1
      rw [isBelow_append (isBelow_self hr)]
      rfl
  rw [List.countP_eq_length_filter, List.countP_eq_length_filter, hsub,
    List.length_filter_lt_length_iff_exists]
  exact ⟨_, List.mem_filter.mpr ⟨hc, isBelow_self hr⟩, by simp [isBelow]⟩

theorem Prepares.prepareChild {nested : Names → Names → List ModuleRoot → Mounting LiveTree}
    {destination : Names}
    {done : List Names} {prepared : List Names × LiveTree} (hlive : live.Layered) (hr : relative ≠ [])
    (hp : stock ++ relative ∈ live.points) (hsorted : ∀ d ∈ done, ¬ stock ++ relative <+: d)
    (hnested : ∀ target layers,
      Prepares live (nested target (stock ++ relative) layers) (Prepared live (stock ++ relative) layers))
    (h : Gathered live stock moduleRoots done prepared) :
    Prepares live (HybridMount.prepareChild nested destination stock moduleRoots prepared (stock ++ relative))
      (Gathered live stock moduleRoots (done ++ [stock ++ relative])) := by
  obtain ⟨direct, view⟩ := prepared
  unfold HybridMount.prepareChild
  simp only [List.drop_left']
  split
  · rename_i hany
    refine pure (h.skip ?_)
    obtain ⟨d, hd, hpre⟩ := List.any_eq_true.mp hany
    exact ⟨d, hd, List.isPrefixOf_iff_prefix.mp hpre⟩
  · rename_i hnone
    refine bind ?_ fun _ (_ : True) => bind (childView hlive hr hp hnested) fun tree ht => pure ?_
    · exact Sat.ofExcept (fun _ s _ hs => ⟨hs, trivial⟩) fun e s he hs => ⟨hs, checkTarget_error he⟩
    · refine h.attach hr hp (fun d hd hpre => hnone ?_) hsorted ht
      exact List.any_eq_true.mpr ⟨d, hd, List.isPrefixOf_iff_prefix.mpr hpre⟩

theorem prepareOverlayView_spec {children : List Names} {stagingRoot : Names} (hlive : live.Layered)
    (hsorted : children.Pairwise fun left right => ¬ right <+: left)
    (hpoints : ∀ c ∈ children, c ∈ live.points) :
    ∀ (fuel : Nat) (destination stock : Names) (moduleRoots : List ModuleRoot),
      children.countP (isBelow stock) < fuel → (∀ c ∈ live.points, isBelow stock c → c ∈ children) →
      Prepares live (prepareOverlayView children stagingRoot fuel destination stock moduleRoots)
        (Prepared live stock moduleRoots) := by
  intro fuel
  induction fuel with
  | zero => exact fun _ _ _ h _ => absurd h (Nat.not_lt_zero _)
  | succ fuel ih =>
    intro destination stock moduleRoots hfuel hlisted
    rw [prepareOverlayView]
    refine Prepares.bind Prepares.get fun s hs => Prepares.bind (Prepares.mountOverlayfs _ _ _ _)
      fun shown hshown => ?_
    rw [hs] at hshown
    have hloop : Prepares live ((children.filter (isBelow stock)).foldlM
        (prepareChild (prepareOverlayView children stagingRoot fuel) destination stock moduleRoots)
        ([], .mk shown [])) (Gathered live stock moduleRoots (children.filter (isBelow stock))) := by
      refine Sat.strengthen (Sat.foldlM (I := fun done prepared (s : MountNamespace) =>
        s.live = live ∧ Gathered live stock moduleRoots done prepared) _ ?_ _) fun s hs =>
          ⟨hs, hshown ▸ Gathered.start⟩
      intro done child rest prepared hsplit
      refine Sat.given fun hprogress => ?_
      have hmem : child ∈ children.filter (isBelow stock) := by rw [hsplit]; simp
      obtain ⟨hchild, hbelow⟩ := List.mem_filter.mp hmem
      obtain ⟨⟨relative, rfl⟩, hne⟩ := isBelow_iff.mp hbelow
      have hr : relative ≠ [] := fun hh => hne (by rw [hh, List.append_nil])
      have hsort := hsorted.sublist (List.filter_sublist (p := isBelow stock))
      rw [hsplit] at hsort
      refine Prepares.prepareChild hlive hr (hpoints _ hchild) ?_ ?_ hprogress
      · exact fun d hd => (List.pairwise_append.mp hsort).2.2 d hd _ (List.mem_cons_self ..)
      · have hlt := countP_below_lt hr hchild
        exact fun target layers => ih target _ layers (by omega) fun c hc hb => hlisted c hc (by
          obtain ⟨q, rfl⟩ := (isBelow_iff.mp hb).1
          exact isBelow_append hbelow)
    refine Prepares.bind hloop fun prepared hp => Prepares.pure (hp.finish hlive fun c hc hb => ?_)
    exact List.mem_filter.mpr ⟨hlisted c hc hb, hb⟩

/-- Whatever is going to be attached has been prepared for the child mounts it is reported with. -/
theorem prepareTarget_spec (hlive : live.Layered) (root : Names) (moduleRoots : List ModuleRoot)
    (stagingRoot : Names) :
    Prepares live (prepareTarget root moduleRoots stagingRoot) fun prepared =>
      prepared.2 = childMountPoints live root ∧ Prepared live root moduleRoots prepared.1 := by
  have hlisted : ∀ c ∈ live.points, isBelow root c → c ∈ childMountPoints live root :=
    fun c hc hb => mem_childMountPoints.mpr ⟨hc, hb⟩
  have hcollect : Prepares live (collectChildMountPoints root) fun children =>
      children = childMountPoints live root :=
    Prepares.bind (Prepares.syscall _) fun _ _ => Prepares.bind Prepares.get fun s hs =>
      Prepares.pure (by rw [hs])
  refine Prepares.bind hcollect fun children hc => ?_
  subst hc
  split
  · rename_i hnone
    refine Prepares.bind Prepares.get fun s hs => Prepares.bind (Prepares.mountOverlayfs _ _ _ _)
      fun shown hshown => ?_
    refine Prepares.pure ⟨rfl, ?_⟩
    rw [hshown, hs]
    have hdone : Gathered live root moduleRoots (childMountPoints live root) _ := hnone ▸ Gathered.start
    exact hdone.finish hlive hlisted
  · refine Prepares.bind (Prepares.createRandomDir _) fun prepared _ => Prepares.bind (Prepares.staging _)
      fun _ _ => ?_
    have hfuel : (childMountPoints live root).countP (isBelow root) <
        (childMountPoints live root).length + 1 :=
      Nat.lt_succ_of_le List.countP_le_length
    refine Prepares.bind (prepareOverlayView_spec hlive (childMountPoints_pairwise live root)
      (fun c hc => (mem_childMountPoints.mp hc).1) _ prepared root moduleRoots hfuel hlisted)
        fun view hview => ?_
    refine Prepares.bind (Prepares.syscall _) fun _ _ => Prepares.pure ⟨rfl, ?_⟩
    rwa [Mount.clone_root hview.uncovered]

theorem report_targets (children : List Names) (s : MountNamespace) :
    Prog.forEach (fun child => onEffect (.target child)) children s = ⟨.ok (), s, children.map .target⟩ := by
  induction children with
  | nil => rfl
  | cons child rest ih =>
    have hhead : onEffect (.target child) s = ⟨.ok (), s, [.target child]⟩ := rfl
    rw [Prog.forEach, Prog.bind_ok hhead, ih]
    rfl

theorem mountOverlay_ok {root : Names} {moduleRoots : List ModuleRoot} {stagingRoot : Names}
    {s s' : MountNamespace}
    {prepared : LiveTree × List Names} {trace : List MountEffect}
    (h : prepareTarget root moduleRoots stagingRoot s = ⟨.ok prepared, s', trace⟩) :
    mountOverlay root moduleRoots stagingRoot s =
      ⟨.ok (), { s' with live := s'.live.graft root prepared.1 },
        trace ++ (root :: prepared.2).map .target⟩ := by
  have hattach : attachLive root prepared.1 s' =
    ⟨.ok (), { s' with live := s'.live.graft root prepared.1 }, []⟩ := rfl
  have hroot : ∀ s, onEffect (.target root) s = ⟨.ok (), s, [.target root]⟩ := fun _ => rfl
  rw [mountOverlay, Prog.bind_ok h, Prog.bind_ok hattach, Prog.bind_ok (hroot _), report_targets]
  rfl

/-- A mounted overlay shows at and below its target the module roots laid over what was visible
there, each child mount included and mounted once; a failed one changes nothing. -/
theorem overlay_merges_live (root : Names) (moduleRoots : List ModuleRoot) (stagingRoot : Names)
    (s : MountNamespace) (hlive : s.live.Layered) (ht : Tame s.live root moduleRoots) :
    match (mountOverlay root moduleRoots stagingRoot s).result with
    | .ok _ => ∃ tree, (mountOverlay root moduleRoots stagingRoot s).state.live = s.live.graft root tree ∧
        (∀ q, (s.live.graft root tree).view (root ++ q) = merged s.live root moduleRoots q) ∧
        (∀ p, ¬ root <+: p → (s.live.graft root tree).view p = s.live.view p) ∧
        ∀ q, q ≠ [] → root ++ q ∈ s.live.points →
          ((s.live.graft root tree).locate (root ++ q)).2 = [] ∧ tree.points.count q = 1
    | .error e => e ≠ .unfinished ∧ (mountOverlay root moduleRoots stagingRoot s).state.live = s.live ∧
        ∀ effect ∈ (mountOverlay root moduleRoots stagingRoot s).trace, effect.isTarget = false := by
  have hspec := prepareTarget_spec hlive root moduleRoots stagingRoot s rfl fun _ _ => trivial
  cases hrun : prepareTarget root moduleRoots stagingRoot s with
  | mk result s' trace =>
    rw [hrun] at hspec
    cases result with
    | error e =>
      rw [mountOverlay, Prog.bind_error hrun]
      exact ⟨hspec.2.2, hspec.2.1, hspec.1⟩
    | ok prepared =>
      obtain ⟨-, hkept, -, hprepared⟩ := hspec
      simp only at hkept
      rw [mountOverlay_ok hrun, hkept]
      refine ⟨prepared.1, rfl, fun q => ?_, fun p hp => Mount.view_graft_elsewhere hp,
        fun q hq hmem => ⟨?_, ?_⟩⟩
      · rw [Mount.view_graft hlive, hprepared.shows ht]
      · rw [Mount.locate_graft hlive]
        exact hprepared.mounted ht q hq hmem
      · rw [hprepared.points ht q hq]
        exact ht.once _ hmem (isBelow_self hq)

/-- A module which replaces one library. -/
def libraryModule : ModuleRoot where
  entry p :=
    if p = [] ∨ p = ["lib"] then some (.shown .directory)
    else if p = ["lib", "libz.so"] then some (.shown (.regular "module")) else none
  closed := by
    intro p x h
    by_cases hp : p = [] ∨ p = ["lib"]
    · simp [hp]
    · exfalso
      push Not at hp
      cases p with
      | nil => exact hp.1 rfl
      | cons y p =>
        cases p with
        | nil => simp_all
        | cons z p => simp at h

/-- A vendor partition with a library directory mounted inside it, and hardware libraries inside that. -/
def vendorNamespace : MountNamespace where
  live := .mk (fun p => if p = [] ∨ p = ["vendor"] ∨ p = ["vendor", "lib"] then some .directory else none)
    [(["vendor", "lib"], .mk (fun p => if p = [] ∨ p = ["hw"] then some .directory
        else if p = ["libz.so"] then some (.regular "stock") else none)
      [(["hw"], .mk (fun p => if p = [] then some .directory else none) [])])]
  staged := 0
  failing := []

example : (mountOverlay ["vendor"] [libraryModule] ["mnt"] vendorNamespace).state.live.view
      ["vendor", "lib", "libz.so"] =
    some (.regular "module") := by decide +kernel

theorem vendorNamespace_points :
    vendorNamespace.live.points = [["vendor", "lib"], ["vendor", "lib", "hw"]] := rfl

theorem vendorNamespace_layered : vendorNamespace.live.Layered := by
  refine .mk (List.pairwise_singleton _ _)
    (List.forall_mem_singleton.mpr (.mk (List.pairwise_singleton _ _) ?_))
  exact List.forall_mem_singleton.mpr (.mk List.Pairwise.nil fun _ h => absurd h List.not_mem_nil)

theorem vendorNamespace_tame : Tame vendorNamespace.live ["vendor"] [libraryModule] := by
  have hrelative : ∀ relative, ["vendor"] ++ relative ∈ vendorNamespace.live.points →
      relative = ["lib"] ∨ relative = ["lib", "hw"] := by
    intro relative h
    simpa [vendorNamespace_points] using h
  refine ⟨by decide +kernel, by decide +kernel, ?_, ?_⟩
  · intro relative h root hroot u hu hne hnr
    rw [List.mem_singleton.mp hroot]
    have hu' := (List.mem_inits u relative).mpr hu
    rcases hrelative relative h with rfl | rfl
    · simp only [List.inits, List.map_cons, List.map_nil, List.mem_cons, List.not_mem_nil, or_false] at hu'
      rcases hu' with rfl | rfl
      · exact absurd rfl hne
      · exact absurd rfl hnr
    · simp only [List.inits, List.map_cons, List.map_nil, List.mem_cons, List.not_mem_nil, or_false] at hu'
      rcases hu' with rfl | rfl | rfl
      · exact absurd rfl hne
      · decide
      · exact absurd rfl hnr
  · intro relative hne h root hroot held hheld
    rw [List.mem_singleton.mp hroot] at hheld
    rcases hrelative relative h with rfl | rfl
    · cases hheld
      exact ⟨.directory, .directory, rfl, by decide +kernel, rfl⟩
    · cases hheld

theorem overlay_merges_live_vendor :
    (mountOverlay ["vendor"] [libraryModule] ["mnt"] vendorNamespace).result = .ok () ∧
    match (mountOverlay ["vendor"] [libraryModule] ["mnt"] vendorNamespace).result with
    | .ok _ => ∃ tree,
        (mountOverlay ["vendor"] [libraryModule] ["mnt"] vendorNamespace).state.live =
          vendorNamespace.live.graft ["vendor"] tree ∧
        (∀ q, (vendorNamespace.live.graft ["vendor"] tree).view (["vendor"] ++ q) =
          merged vendorNamespace.live ["vendor"] [libraryModule] q) ∧
        (∀ p, ¬ ["vendor"] <+: p →
          (vendorNamespace.live.graft ["vendor"] tree).view p = vendorNamespace.live.view p) ∧
        ∀ q, q ≠ [] → ["vendor"] ++ q ∈ vendorNamespace.live.points →
          ((vendorNamespace.live.graft ["vendor"] tree).locate (["vendor"] ++ q)).2 = [] ∧
            tree.points.count q = 1
    | .error e => e ≠ .unfinished ∧
        (mountOverlay ["vendor"] [libraryModule] ["mnt"] vendorNamespace).state.live = vendorNamespace.live ∧
        ∀ effect ∈ (mountOverlay ["vendor"] [libraryModule] ["mnt"] vendorNamespace).trace,
          effect.isTarget = false :=
  ⟨by decide +kernel, overlay_merges_live ["vendor"] [libraryModule] ["mnt"] vendorNamespace
    vendorNamespace_layered
    vendorNamespace_tame⟩

end HybridMount
