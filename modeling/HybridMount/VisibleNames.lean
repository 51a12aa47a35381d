import HybridMount.ReadDirNames

/-! The names a reader gets from a directory, in terms of the map its children stand for. -/

namespace HybridMount.Vfs.ReadDir

open LittleEndian ChildArray

variable {ρ : Type} {N : Naming ρ} {isWhiteout : ρ → Bool} {dir : Directory ρ} {rs : List ρ}
  {m : Bytes × UInt32 → Option ρ} {uid : UInt32} {name : Bytes} {rule : ρ} {set : ChildSet ρ}

/-- The children of a directory stand for a map, in a number that the counter holds; an open
directory of a rule has a backing directory or is virtual. -/
structure Directory.Holds (N : Naming ρ) (dir : Directory ρ) (m : Bytes × UInt32 → Option ρ) :
    Prop where
  agrees : ∀ set, dir.node = some set → Agrees N (set, m)
  absent : dir.node = none → m = fun _ => none
  count : ∀ set, dir.node = some set → (childSlots set.children).1 < 2 ^ 31
  opened : dir.stock = none → dir.virtualDir = true

/-- The rule of a name for a uid: its own, else the global one. -/
def visible (m : Bytes × UInt32 → Option ρ) (uid : UInt32) (name : Bytes) : Option ρ :=
  (m (name, uid)).or (m (name, 0))

def Directory.stockNames (dir : Directory ρ) : List Bytes :=
  match dir.stock with
  | some S => S.names
  | none => []

/-- The entries that a directory without stock names gives of its own. -/
def Directory.dots (dir : Directory ρ) : List Bytes :=
  match dir.stock with
  | some _ => []
  | none => [[46], [46, 46]]

theorem childSlots_count (h : Stores N set rs) : (childSlots set.children).1 = rs.length := by
  have hholds := h.holds
  cases hc : set.children with
  | null =>
    rw [hc] at hholds
    obtain rfl : rs = [] := hholds
    rfl
  | single rule =>
    rw [hc] at hholds
    obtain rfl : rs = [rule] := hholds
    rfl
  | slots arr =>
    rw [hc] at hholds
    exact hholds.count

theorem Directory.Holds.children (h : dir.Holds N m) (uid : UInt32) :
    ∃ rs, Children N dir.node rs ∧ ∀ name, seen N dir.node uid name = visible m uid name := by
  cases hnode : dir.node with
  | none =>
    refine ⟨[], ⟨fun _ => rfl, by simp, by simp⟩, ?_⟩
    intro name
    rw [h.absent hnode]
    rfl
  | some set =>
    obtain ⟨rs, hstores, hmirrors⟩ := h.agrees set hnode
    refine ⟨rs, ⟨by simp, ?_, ?_⟩, ?_⟩
    · intro other hother
      obtain rfl := Option.some.inj hother
      exact hstores
    · rw [← childSlots_count hstores]
      exact h.count set hnode
    · intro name
      exact (Agrees.multimap ⟨rs, hstores, hmirrors⟩).ruleInfo name uid

theorem seen_children (h : Children N dir.node rs) (hseen : seen N dir.node uid name = some rule) :
    rule ∈ rs ∧ N.name rule = name := by
  cases hnode : dir.node with
  | none =>
    rw [hnode] at hseen
    simp [seen] at hseen
  | some set =>
    rw [hnode] at hseen
    have hmem := seen_mem (h.some set hnode) hseen
    exact ⟨hmem.1, hmem.2.1⟩

theorem rules_nodup (h : Children N dir.node rs) : rs.Nodup := by
  cases hnode : dir.node with
  | none =>
    rw [h.none hnode]
    exact List.nodup_nil
  | some set => exact List.Nodup.of_map _ (h.some set hnode).once

variable [DecidableEq ρ]

theorem mem_childNames (h : Children N dir.node rs) :
    name ∈ childNames N isWhiteout dir.node uid rs 0 ↔
      ∃ rule, seen N dir.node uid name = some rule ∧ isWhiteout rule = false := by
  simp only [childNames, List.drop_zero, List.mem_map, List.mem_filter, Bool.and_eq_true,
    decide_eq_true_eq, Bool.not_eq_true']
  constructor
  · rintro ⟨rule, ⟨-, hseen, hwhite⟩, rfl⟩
    exact ⟨rule, hseen, hwhite⟩
  · rintro ⟨rule, hseen, hwhite⟩
    obtain ⟨hmem, rfl⟩ := seen_children h hseen
    exact ⟨rule, ⟨hmem, hseen, hwhite⟩, rfl⟩

theorem childNames_nodup (h : Children N dir.node rs) :
    (childNames N isWhiteout dir.node uid rs 0).Nodup := by
  apply List.Nodup.map_on
  · intro a ha b hb hname
    rw [List.mem_filter, Bool.and_eq_true, decide_eq_true_eq] at ha hb
    rw [hname] at ha
    exact Option.some.inj (ha.2.1.symm.trans hb.2.1)
  · exact (rules_nodup h).filter _

/-- The names of a directory beside its dots. -/
def listed (N : Naming ρ) (isWhiteout : ρ → Bool) (dir : Directory ρ) (uid : UInt32)
    (rs : List ρ) : List Bytes :=
  (dir.stockNames.filter fun name => !hides N dir.node uid name) ++
    childNames N isWhiteout dir.node uid rs 0

theorem listed_nodup (h : Children N dir.node rs) : (listed N isWhiteout dir uid rs).Nodup := by
  apply List.Nodup.append
  · apply List.Nodup.filter
    unfold Directory.stockNames
    cases dir.stock with
    | some S => exact S.nodup
    | none => exact List.nodup_nil
  · exact childNames_nodup h
  · intro name hstock hchild
    obtain ⟨rule, hseen, -⟩ := (mem_childNames h).mp hchild
    have hhidden := (List.mem_filter.mp hstock).2
    simp [hides, hseen] at hhidden

theorem mem_listed (h : Children N dir.node rs) :
    name ∈ listed N isWhiteout dir uid rs ↔
      (name ∈ dir.stockNames ∧ seen N dir.node uid name = none) ∨
        ∃ rule, seen N dir.node uid name = some rule ∧ isWhiteout rule = false := by
  rw [listed, List.mem_append, List.mem_filter, mem_childNames h]
  simp [hides]

theorem remaining_start (dir : Directory ρ) :
    remaining N isWhiteout dir uid rs 0 = dir.dots ++ listed N isWhiteout dir uid rs := by
  have hzero : isVirtualPos 0 = false := by decide
  unfold remaining listed Directory.dots Directory.stockNames
  cases dir.stock with
  | some S =>
    simp only [remainingOf, hzero, S.resume_start, Stock.shown]
    simp
  | none => simp [hzero, dotsFrom]

/-- However the reads are cut, they deliver the stock names for which the uid sees no rule and the
names of the rules it sees that are no whiteouts, each once, after the dots of a directory that has
no stock names; and the listing ends. -/
def ListsOnce (N : Naming ρ) (isWhiteout : ρ → Bool) (dir : Directory ρ)
    (m : Bytes × UInt32 → Option ρ) (uid : UInt32) : Prop :=
  ∃ names : List Bytes, names.Nodup ∧
    (∀ name, name ∈ names ↔ (name ∈ dir.stockNames ∧ visible m uid name = none) ∨
      ∃ rule, visible m uid name = some rule ∧ isWhiteout rule = false) ∧
    ∀ rooms,
      (CursorReads.readAll (getdents N isWhiteout dir false uid) rooms 0).1 <+:
        dir.dots ++ names ∧
      ((CursorReads.readAll (getdents N isWhiteout dir false uid) rooms 0).2 = true →
        (CursorReads.readAll (getdents N isWhiteout dir false uid) rooms 0).1 =
          dir.dots ++ names) ∧
      ((dir.dots ++ names).length < rooms.length →
        (CursorReads.readAll (getdents N isWhiteout dir false uid) rooms 0).2 = true)

theorem listing_names_once (N : Naming ρ) (isWhiteout : ρ → Bool) (dir : Directory ρ)
    (m : Bytes × UInt32 → Option ρ) (h : dir.Holds N m) (uid : UInt32) :
    ListsOnce N isWhiteout dir m uid := by
  obtain ⟨rs, hchildren, hseen⟩ := h.children uid
  have hexact := getdents_exact isWhiteout uid dir hchildren h.opened
  refine ⟨listed N isWhiteout dir uid rs, listed_nodup hchildren, ?_, ?_⟩
  · intro name
    rw [mem_listed hchildren, hseen]
  · intro rooms
    rw [← remaining_start]
    obtain ⟨hpre, hall⟩ := CursorReads.readAll_prefix hexact rooms 0
    exact ⟨hpre, hall, CursorReads.readAll_ends hexact rooms 0⟩

/-- A filesystem directory whose entries are at the positions 0 to 3. -/
def fourEntries : Stock where
  names := [[46], [46, 46], [97], [100]]
  pos := UInt64.ofNat
  resume pos := pos.toNat
  nodup := by decide
  resume_start := rfl
  resume_pos i hi := by
    simp only [List.length_cons, List.length_nil] at hi
    apply UInt64.toNat_ofNat_of_lt'
    exact Nat.lt_of_le_of_lt hi (by decide)
  unpacked i hi := by
    simp only [List.length_cons, List.length_nil] at hi
    interval_cases i <;> decide

def hookedEntries : Directory (Bytes × UInt32) :=
  .hooked fourEntries (run colliding collidingCalls).1

theorem hookedEntries_holds : hookedEntries.Holds colliding (run colliding collidingCalls).2 where
  agrees set hset := by
    obtain rfl := Option.some.inj hset
    exact run_agrees colliding collidingCalls
  absent hnode := by simp [hookedEntries, Directory.node] at hnode
  count set hset := by
    obtain rfl := Option.some.inj hset
    decide +kernel
  opened hstock := by simp [hookedEntries, Directory.stock] at hstock

theorem listing_names_once_hooked : ListsOnce colliding (fun _ => false) hookedEntries
    (run colliding collidingCalls).2 7 :=
  listing_names_once colliding (fun _ => false) hookedEntries _ hookedEntries_holds 7

/-- The names delivered are not only stock names and names of rules: a virtual directory without
children delivers its dots. -/
theorem virtual_listing_has_dots :
    ¬ ∀ (dir : Directory (Bytes × UInt32)) (m : Bytes × UInt32 → Option (Bytes × UInt32))
      (uid : UInt32) (rooms : List Nat), dir.Holds colliding m →
      (CursorReads.readAll (getdents colliding (fun _ => false) dir false uid) rooms 0).2 = true →
      ∀ name,
        name ∈ (CursorReads.readAll (getdents colliding (fun _ => false) dir false uid) rooms 0).1 ↔
          (name ∈ dir.stockNames ∧ visible m uid name = none) ∨
            ∃ rule, visible m uid name = some rule ∧ (fun _ => false) rule = false := by
  intro hclaim
  have hholds : Directory.Holds colliding (.ofRule ⟨none, true, none, none⟩) fun _ => none :=
    ⟨by simp [Directory.node], fun _ => rfl, by simp [Directory.node], fun _ => rfl⟩
  have hdot := (hclaim _ _ 7 [0, 0, 0] hholds (by decide +kernel) [46]).mp (by decide +kernel)
  simp [Directory.stockNames, Directory.stock, visible] at hdot

end HybridMount.Vfs.ReadDir
