import Mathlib.Tactic

/-! Finite maps as lists of entries under increasing keys, for any comparison of keys. -/

namespace OrderedMap

variable {κ ν : Type} (cmp : κ → κ → Ordering)

def get (k : κ) : List (κ × ν) → Option ν
  | [] => none
  | (k', v) :: rest => if cmp k k' = .eq then some v else get k rest

def insert (k : κ) (v : ν) : List (κ × ν) → List (κ × ν)
  | [] => [(k, v)]
  | (k', v') :: rest =>
    match cmp k k' with
    | .lt => (k, v) :: (k', v') :: rest
    | .eq => (k, v) :: rest
    | .gt => (k', v') :: insert k v rest

def Sorted (m : List (κ × ν)) : Prop := m.Pairwise fun x y => cmp x.1 y.1 = .lt

variable {cmp} {k k' : κ} {v : ν} {m n : List (κ × ν)}

theorem get_mem [Std.LawfulEqCmp cmp] (h : get cmp k m = some v) : (k, v) ∈ m := by
  induction m with
  | nil => cases h
  | cons e rest ih =>
    obtain ⟨k', v'⟩ := e
    by_cases hk : cmp k k' = .eq
    · obtain rfl := Std.LawfulEqCmp.eq_of_compare hk
      simp only [get, hk, if_true, Option.some.injEq] at h
      exact h ▸ List.mem_cons_self
    · simp only [get, hk, if_false] at h
      exact List.mem_cons_of_mem _ (ih h)

@[simp] theorem get_insert_self [Std.ReflCmp cmp] : get cmp k (insert cmp k v m) = some v := by
  induction m with
  | nil => simp [get, insert, Std.ReflCmp.compare_self]
  | cons e rest ih =>
    cases hk : cmp k e.1 with
    | lt => simp [insert, hk, get, Std.ReflCmp.compare_self]
    | eq => simp [insert, hk, get, Std.ReflCmp.compare_self]
    | gt => simp [insert, hk, get, ih]

/-- A map whose entries are in order. -/
structure Map (κ ν : Type) (cmp : κ → κ → Ordering) where
  entries : List (κ × ν)
  sorted : Sorted cmp entries

@[simp] theorem get_insert_of_ne [Std.LawfulEqCmp cmp] (hne : k' ≠ k) :
    get cmp k' (insert cmp k v m) = get cmp k' m := by
  have hcmp : cmp k' k ≠ .eq := fun h => hne (Std.LawfulEqCmp.eq_of_compare h)
  induction m with
  | nil => simp [get, insert, hcmp]
  | cons e rest ih =>
    cases hk : cmp k e.1 with
    | lt => simp [insert, hk, get, hcmp]
    | eq =>
      obtain rfl := Std.LawfulEqCmp.eq_of_compare hk
      simp [insert, hk, get, hcmp]
    | gt => simp [insert, hk, get, ih]

theorem get_insert [DecidableEq κ] [Std.LawfulEqCmp cmp] :
    get cmp k' (insert cmp k v m) = if k' = k then some v else get cmp k' m := by
  by_cases h : k' = k
  · simp [h]
  · simp [h]

theorem get_remove [DecidableEq κ] [Std.LawfulEqCmp cmp] :
    get cmp k' (m.filter fun e => e.1 ≠ k) = if k' = k then none else get cmp k' m := by
  induction m with
  | nil => simp [get]
  | cons e rest ih =>
    by_cases he : e.1 = k
    · rw [List.filter_cons_of_neg (by simp [he]), ih]
      by_cases hk : k' = k
      · simp [hk]
      · have hne : cmp k' e.1 ≠ .eq := fun h => hk ((Std.LawfulEqCmp.eq_of_compare h).trans he)
        simp [hk, get, hne]
    · rw [List.filter_cons_of_pos (by simp [he]), get, get, ih]
      by_cases heq : cmp k' e.1 = .eq
      · have hk : k' ≠ k := fun h => he ((Std.LawfulEqCmp.eq_of_compare heq).symm.trans h)
        simp [heq, hk]
      · simp [heq]

theorem mem_insert {e : κ × ν} (h : e ∈ insert cmp k v m) : e = (k, v) ∨ e ∈ m := by
  induction m with
  | nil => simpa [insert] using h
  | cons x rest ih =>
    cases hk : cmp k x.1 with
    | lt => simpa [insert, hk] using h
    | eq =>
      simp only [insert, hk, List.mem_cons] at h ⊢
      tauto
    | gt =>
      simp only [insert, hk, List.mem_cons] at h ⊢
      rcases h with h | h
      · tauto
      · have hh := ih h
        tauto

theorem sorted_insert [Std.LawfulEqCmp cmp] [Std.TransCmp cmp] (h : Sorted cmp m) :
    Sorted cmp (insert cmp k v m) := by
  induction m with
  | nil => simp [insert, Sorted]
  | cons e rest ih =>
    obtain ⟨he, hrest⟩ := List.pairwise_cons.mp h
    cases hk : cmp k e.1 with
    | lt =>
      simp only [insert, hk, Sorted, List.pairwise_cons, List.forall_mem_cons]
      exact ⟨⟨trivial, fun x hx => Std.TransCmp.lt_trans hk (he x hx)⟩, he, hrest⟩
    | eq =>
      obtain rfl := Std.LawfulEqCmp.eq_of_compare hk
      simp only [insert, hk, Sorted, List.pairwise_cons]
      exact ⟨he, hrest⟩
    | gt =>
      simp only [insert, hk, Sorted, List.pairwise_cons]
      refine ⟨fun x hx => ?_, ih hrest⟩
      rcases mem_insert hx with rfl | hx
      · exact Std.OrientedCmp.gt_iff_lt.mp hk
      · exact he x hx

theorem get_of_mem [Std.LawfulEqCmp cmp] [Std.TransCmp cmp] (h : Sorted cmp m) (he : (k, v) ∈ m) :
    get cmp k m = some v := by
  induction m with
  | nil => cases he
  | cons e rest ih =>
    obtain ⟨hlt, hrest⟩ := List.pairwise_cons.mp h
    rcases List.mem_cons.mp he with rfl | he
    · simp [get, Std.ReflCmp.compare_self]
    · have hgt : cmp k e.1 = .gt := Std.OrientedCmp.gt_iff_lt.mpr (hlt _ he)
      simp only [get, hgt, reduceCtorEq, if_false, ih hrest he]

theorem nodup_of_sorted [Std.LawfulEqCmp cmp] (h : Sorted cmp m) : m.Nodup := by
  refine h.imp fun {a b} hlt heq => ?_
  have hself : cmp a.1 a.1 = .eq := Std.ReflCmp.compare_self
  rw [← heq, hself] at hlt
  cases hlt

theorem ext_of_mem [Std.LawfulEqCmp cmp] [Std.TransCmp cmp] (h : Sorted cmp m) (h' : Sorted cmp n)
    (hmem : ∀ e, e ∈ m ↔ e ∈ n) : m = n := by
  have hperm : m.Perm n := (List.perm_ext_iff_of_nodup (nodup_of_sorted h) (nodup_of_sorted h')).mpr hmem
  refine hperm.eq_of_pairwise (fun a b _ _ hab hba => ?_) h h'
  rw [Std.OrientedCmp.gt_iff_lt.mpr hab] at hba
  cases hba

theorem ext_of_get [Std.LawfulEqCmp cmp] [Std.TransCmp cmp] (h : Sorted cmp m) (h' : Sorted cmp n)
    (hget : ∀ k, get cmp k m = get cmp k n) : m = n := by
  refine ext_of_mem h h' fun e => ?_
  obtain ⟨k, v⟩ := e
  exact ⟨fun he => get_mem (hget k ▸ get_of_mem h he), fun he => get_mem ((hget k).trans (get_of_mem h' he))⟩

section Collected

variable {items items' : List (κ × ν)}

theorem sorted_foldl_insert [Std.LawfulEqCmp cmp] [Std.TransCmp cmp] (h : Sorted cmp m) :
    Sorted cmp (items.foldl (fun m e => insert cmp e.1 e.2 m) m) := by
  induction items generalizing m with
  | nil => exact h
  | cons e rest ih => exact ih (sorted_insert h)

/-- The entries which are put one by one into an empty map, when a key has one value. -/
theorem mem_foldl_insert [Std.LawfulEqCmp cmp] [Std.TransCmp cmp] {e : κ × ν}
    (h : ∀ k v v', (k, v) ∈ items → (k, v') ∈ items → v = v') :
    e ∈ items.foldl (fun m e => insert cmp e.1 e.2 m) [] ↔ e ∈ items := by
  induction items using List.reverseRecOn with
  | nil => simp
  | append_singleton front x ih =>
    have hfront : ∀ k v v', (k, v) ∈ front → (k, v') ∈ front → v = v' :=
      fun k v v' hv hv' => h k v v' (List.mem_append_left _ hv) (List.mem_append_left _ hv')
    have hsorted : Sorted cmp (front.foldl (fun m e => insert cmp e.1 e.2 m) []) := sorted_foldl_insert .nil
    rw [List.foldl_append, List.foldl_cons, List.foldl_nil]
    constructor
    · intro he
      rcases mem_insert he with rfl | he
      · simp
      · exact List.mem_append_left _ ((ih hfront).mp he)
    · intro he
      obtain ⟨k, v⟩ := e
      by_cases hk : k = x.1
      · subst hk
        obtain ⟨k, w⟩ := x
        obtain rfl := h k v w he (by simp)
        exact get_mem get_insert_self
      · rcases List.mem_append.mp he with he | he
        · refine get_mem ((get_insert_of_ne hk).trans (get_of_mem hsorted ((ih hfront).mpr he)))
        · exact absurd (congrArg Prod.fst (List.mem_singleton.mp he)) hk

theorem foldl_insert_perm [Std.LawfulEqCmp cmp] [Std.TransCmp cmp] (hperm : items.Perm items')
    (h : ∀ k v v', (k, v) ∈ items → (k, v') ∈ items → v = v') :
    items.foldl (fun m e => insert cmp e.1 e.2 m) [] = items'.foldl (fun m e => insert cmp e.1 e.2 m) [] := by
  have h' : ∀ k v v', (k, v) ∈ items' → (k, v') ∈ items' → v = v' :=
    fun k v v' hv hv' => h k v v' (hperm.mem_iff.mpr hv) (hperm.mem_iff.mpr hv')
  refine ext_of_mem (sorted_foldl_insert .nil) (sorted_foldl_insert .nil) fun e => ?_
  rw [mem_foldl_insert h, mem_foldl_insert h', hperm.mem_iff]

end Collected

theorem insert_map {ν' : Type} (f : ν → ν') :
    (insert cmp k v m).map (fun e => (e.1, f e.2)) = insert cmp k (f v) (m.map fun e => (e.1, f e.2)) := by
  induction m with
  | nil => rfl
  | cons e rest ih =>
    rw [insert, List.map_cons, insert]
    cases cmp k e.1 with
    | lt => rfl
    | eq => rfl
    | gt => simp only [List.map_cons, ih]

namespace Map

def empty : Map κ ν cmp := ⟨[], .nil⟩

def get (m : Map κ ν cmp) (k : κ) : Option ν := OrderedMap.get cmp k m.entries

def keys (m : Map κ ν cmp) : List κ := m.entries.map Prod.fst

def values (m : Map κ ν cmp) : List ν := m.entries.map Prod.snd

@[simp] theorem get_empty : (empty : Map κ ν cmp).get k = none := rfl

/-- The same keys with other values. -/
def mapValues {ν' : Type} (f : ν → ν') (m : Map κ ν cmp) : Map κ ν' cmp :=
  ⟨m.entries.map fun entry => (entry.1, f entry.2), by simpa only [Sorted, List.pairwise_map] using m.sorted⟩

@[simp] theorem keys_empty : (empty : Map κ ν cmp).keys = [] := rfl

variable [Std.LawfulEqCmp cmp] [Std.TransCmp cmp]

def insert (m : Map κ ν cmp) (k : κ) (v : ν) :
    Map κ ν cmp := ⟨OrderedMap.insert cmp k v m.entries, sorted_insert m.sorted⟩

/-- Sets are maps without values. -/
def add (m : Map κ Unit cmp) (k : κ) : Map κ Unit cmp := m.insert k ()

def remove [DecidableEq κ] (m : Map κ ν cmp) (k : κ) :
    Map κ ν cmp := ⟨m.entries.filter fun e => e.1 ≠ k, m.sorted.filter _⟩

variable {m : Map κ ν cmp} {set : Map κ Unit cmp}

omit [Std.TransCmp cmp] in
theorem get_remove [DecidableEq κ] : (m.remove k).get k' = if k' = k then none else m.get k' :=
    OrderedMap.get_remove

theorem get_insert [DecidableEq κ] : (m.insert k v).get k' = if k' = k then some v else m.get k' :=
    OrderedMap.get_insert

theorem mem_entries : (k, v) ∈ m.entries ↔ m.get k = some v := ⟨get_of_mem m.sorted, get_mem⟩

theorem mem_keys : k ∈ m.keys ↔ ∃ v, m.get k = some v := by simp [keys, mem_entries]

omit [Std.TransCmp cmp] in
theorem nodup_keys : m.keys.Nodup := by
  rw [keys, List.Nodup, List.pairwise_map]
  refine m.sorted.imp fun {x y} hlt heq => ?_
  have hself : cmp y.1 y.1 = .eq := Std.ReflCmp.compare_self
  rw [heq, hself] at hlt
  cases hlt

theorem mem_values : v ∈ m.values ↔ ∃ k, m.get k = some v := by simp [values, mem_entries]

theorem mem_keys_add [DecidableEq κ] : k' ∈ (set.add k).keys ↔ k' = k ∨ k' ∈ set.keys := by
  simp only [mem_keys, add, get_insert]
  by_cases h : k' = k
  · simp [h]
  · simp [h]

end Map

end OrderedMap
