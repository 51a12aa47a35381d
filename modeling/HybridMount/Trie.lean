import HybridMount.OrderedMap

/-! Trees whose nodes carry a value and keep their children under increasing keys:
growing a path, finding a node, visiting every node, and searching below one. -/

structure Trie (κ α : Type) where
  value : α
  children : List (κ × Trie κ α)

namespace Trie

variable {κ α β ε σ : Type} (cmp : κ → κ → Ordering)

def find : List κ → Trie κ α → Option (Trie κ α)
  | [], t => some t
  | k :: ks, t => (OrderedMap.get cmp k t.children).bind (find ks)

/-- Follows the keys, adding fresh nodes where there are none; each node entered is edited,
and the last one once more. -/
def grow (fresh : α) (last : α → α) : List (κ × (α → α)) → Trie κ α → Trie κ α
  | [], t => ⟨last t.value, t.children⟩
  | (k, edit) :: rest, t =>
    let child := (OrderedMap.get cmp k t.children).getD ⟨fresh, []⟩
    ⟨t.value, OrderedMap.insert cmp k (grow fresh last rest ⟨edit child.value, child.children⟩) t.children⟩

/-- Without a child and all that is below it. -/
def removeChild [DecidableEq κ] (k : κ) (t : Trie κ α) :
    Trie κ α := ⟨t.value, t.children.filter fun e => e.1 ≠ k⟩

mutual

/-- Visits a node before its children, in the order of their keys; what the visit of a node
returns is handed to its children, and an error ends the walk. -/
def visit (f : σ → List κ → Trie κ α → Except ε σ) (s : σ) (path : List κ) : Trie κ α → Except ε Unit
  | ⟨value, children⟩ => do
    let s' ← f s path ⟨value, children⟩
    visitAll f s' path children
termination_by structural t => t

def visitAll (f : σ → List κ → Trie κ α → Except ε σ) (s : σ) (path : List κ) :
    List (κ × Trie κ α) → Except ε Unit
  | [] => .ok ()
  | (k, child) :: rest => do
    visit f s (path ++ [k]) child
    visitAll f s path rest
termination_by structural children => children

end

mutual

/-- The first answer among the nodes strictly below, parents before children. -/
def firstBelow (p : α → Option β) : Trie κ α → Option β
  | ⟨_, children⟩ => firstAmong p children
termination_by structural t => t

def firstAmong (p : α → Option β) : List (κ × Trie κ α) → Option β
  | [] => none
  | (_, child) :: rest => (p child.value).or ((firstBelow p child).or (firstAmong p rest))
termination_by structural children => children

end

mutual

/-- What the nodes yield, a node before its children; a node hands a state down to them. -/
def collect (f : σ → List κ → Trie κ α → List β × σ) (s : σ) (path : List κ) : Trie κ α → List β
  | ⟨value, children⟩ =>
    let r := f s path ⟨value, children⟩
    r.1 ++ collectAll f r.2 path children
termination_by structural t => t

def collectAll (f : σ → List κ → Trie κ α → List β × σ) (s : σ) (path : List κ) : List (κ × Trie κ α) → List β
  | [] => []
  | (k, child) :: rest => collect f s (path ++ [k]) child ++ collectAll f s path rest
termination_by structural children => children

end

mutual

def any (p : α → Bool) : Trie κ α → Bool
  | ⟨value, children⟩ => p value || anyAmong p children
termination_by structural t => t

def anyAmong (p : α → Bool) : List (κ × Trie κ α) → Bool
  | [] => false
  | (_, child) :: rest => any p child || anyAmong p rest
termination_by structural children => children

end

/-- The state with which the walk of `collect` comes to a node. -/
def descend (f : σ → List κ → Trie κ α → List β × σ) : σ → List κ → List κ → Trie κ α → Option (σ × Trie κ α)
  | s, _, [], t => some (s, t)
  | s, path, k :: ks, t =>
    (OrderedMap.get cmp k t.children).bind fun child => descend f (f s path t).2 (path ++ [k]) ks child

/-- Keys increase at every node. -/
inductive Ordered : Trie κ α → Prop
  | intro {t : Trie κ α} : OrderedMap.Sorted cmp t.children → (∀ e ∈ t.children, Ordered e.2) → Ordered t

def valueAt (path : List κ) (t : Trie κ α) : Option α := (find cmp path t).map value

/-- The edit of the node so many steps down. -/
def editAt (edits : List (κ × (α → α))) : Nat → α → α
  | 0 => id
  | n + 1 => ((edits[n]?).map Prod.snd).getD id

variable {cmp} {t t' n : Trie κ α} {children : List (κ × Trie κ α)} {k : κ} {path q : List κ} {s : σ}
  {f : σ → List κ → Trie κ α → Except ε σ}
  {fresh : α} {last edit : α → α} {edits : List (κ × (α → α))} {p : α → Option β}

mutual

theorem induct {motive : Trie κ α → Prop} (h : ∀ t, (∀ e ∈ t.children, motive e.2) → motive t) : ∀ t, motive t
  | ⟨_, children⟩ => h _ (inductAll h children)

theorem inductAll {motive : Trie κ α → Prop} (h : ∀ t, (∀ e ∈ t.children, motive e.2) → motive t) :
    ∀ (children : List (κ × Trie κ α)), ∀ e ∈ children, motive e.2
  | [] => by simp
  | (_, child) :: rest => List.forall_mem_cons.mpr ⟨induct h child, inductAll h rest⟩

end

theorem find_append {r : List κ} : t.find cmp (path ++ r) = (t.find cmp path).bind (find cmp r) := by
  induction path generalizing t with
  | nil => rfl
  | cons k ks ih =>
    cases hk : OrderedMap.get cmp k t.children with
    | none => simp [find, hk]
    | some child => simp [find, hk, ih]

@[simp] theorem valueAt_nil : t.valueAt cmp [] = some t.value := rfl

theorem valueAt_cons :
    t.valueAt cmp (k :: path) = (OrderedMap.get cmp k t.children).bind (valueAt cmp path) := by
  cases hk : OrderedMap.get cmp k t.children with
  | none => simp [valueAt, find, hk]
  | some child => simp [valueAt, find, hk]

/-- Trees with the same values along all paths are equal. -/
theorem ext_of_valueAt [Std.LawfulEqCmp cmp] [Std.TransCmp cmp] (h : t.Ordered cmp) (h' : t'.Ordered cmp)
    (hvalue : ∀ path, t.valueAt cmp path = t'.valueAt cmp path) : t = t' := by
  induction t using induct generalizing t' with
  | h t ih =>
    obtain ⟨hs, hc⟩ := h
    obtain ⟨hs', hc'⟩ := h'
    have hchildren : t.children = t'.children := by
      refine OrderedMap.ext_of_get hs hs' fun k => ?_
      have hbelow : ∀ path, (OrderedMap.get cmp k t.children).bind (valueAt cmp path) =
          (OrderedMap.get cmp k t'.children).bind (valueAt cmp path) :=
        fun path => by rw [← valueAt_cons, ← valueAt_cons, hvalue]
      cases hk : OrderedMap.get cmp k t.children with
      | none =>
        cases hk' : OrderedMap.get cmp k t'.children with
        | none => rfl
        | some child' => simpa [hk, hk'] using hbelow []
      | some child =>
        cases hk' : OrderedMap.get cmp k t'.children with
        | none => simpa [hk, hk'] using hbelow []
        | some child' =>
          have hmem := OrderedMap.get_mem hk
          have hsame : child = child' := ih _ hmem (hc _ hmem) (hc' _ (OrderedMap.get_mem hk')) fun path => by
            simpa only [hk, hk', Option.bind_some] using hbelow path
          rw [hsame]
    have hroot : t.value = t'.value := by simpa using hvalue []
    cases t
    cases t'
    cases hchildren
    cases hroot
    rfl

section Grow

variable [DecidableEq κ] [Std.LawfulEqCmp cmp] {γ : Type}

theorem valueAt_grow_cons {k' : κ} : (t.grow cmp fresh last ((k, edit) :: edits)).valueAt cmp (k' :: q) =
    if k' = k then
      let child := (OrderedMap.get cmp k t.children).getD ⟨fresh, []⟩
      ((⟨edit child.value, child.children⟩ : Trie κ α).grow cmp fresh last edits).valueAt cmp q
    else t.valueAt cmp (k' :: q) := by
  simp only [valueAt_cons, grow, OrderedMap.get_insert]
  split
  · rfl
  · rfl

theorem valueAt_grow : (t.grow cmp fresh last edits).valueAt cmp q =
    if q <+: edits.map Prod.fst then
      some ((if q.length = edits.length then last else id)
        (editAt edits q.length ((t.valueAt cmp q).getD fresh)))
    else t.valueAt cmp q := by
  induction edits generalizing t q with
  | nil =>
    cases q with
    | nil => simp [grow, editAt]
    | cons k ks => simp [grow, valueAt_cons]
  | cons e rest ih =>
    obtain ⟨k, edit⟩ := e
    cases q with
    | nil => simp [grow, editAt]
    | cons k' ks =>
      rw [valueAt_grow_cons]
      by_cases hk : k' = k
      · subst hk
        rw [if_pos rfl, valueAt_cons]
        simp only [ih, List.map_cons, List.prefix_cons_inj, List.length_cons, Nat.add_right_cancel_iff]
        cases hget : OrderedMap.get cmp k' t.children with
        | none =>
          cases ks with
          | nil => simp [editAt]
          | cons k'' ks => simp [editAt, valueAt_cons, OrderedMap.get]
        | some child =>
          cases ks with
          | nil => simp [editAt]
          | cons k'' ks => simp [editAt, valueAt_cons]
      · rw [if_neg hk]
        simp [List.cons_prefix_cons, hk]

/-- Growing a path whose nodes on the way are not edited. -/
theorem valueAt_grow_path {ks : List κ} : (t.grow cmp fresh last (ks.map fun k => (k, id))).valueAt cmp q =
    if q = ks then some (last ((t.valueAt cmp q).getD fresh))
    else if q <+: ks then some ((t.valueAt cmp q).getD fresh) else t.valueAt cmp q := by
  have hkeys : (ks.map fun k => (k, (id : α → α))).map Prod.fst = ks := by simp [Function.comp_def]
  have hedit : ∀ n, editAt (ks.map fun k => (k, (id : α → α))) n = id := by
    intro n
    cases n with
    | zero => rfl
    | succ n =>
      cases hn : ks[n]? with
      | none => simp [editAt, hn]
      | some k => simp [editAt, hn]
  rw [valueAt_grow, hkeys, hedit]
  by_cases hself : q = ks
  · simp [hself]
  · by_cases hpre : q <+: ks
    · have hlen : q.length ≠ ks.length := fun h => hself (hpre.eq_of_length h)
      simp [hself, hpre, hlen]
    · simp [hself, hpre]

/-- A part of the values which the edits on the way leave alone changes at the end of the path only. -/
theorem view_grow (view : α → γ) (change : γ → γ) (hedits : ∀ e ∈ edits, ∀ a, view (e.2 a) = view a)
    (hlast : ∀ a, view (last a) = change (view a)) :
    (((t.grow cmp fresh last edits).valueAt cmp q).map view).getD (view fresh) =
      if q = edits.map Prod.fst then change (((t.valueAt cmp q).map view).getD (view fresh))
      else ((t.valueAt cmp q).map view).getD (view fresh) := by
  induction edits generalizing t q with
  | nil =>
    cases q with
    | nil => simp [grow, hlast]
    | cons k ks => simp [grow, valueAt_cons]
  | cons e rest ih =>
    obtain ⟨k, edit⟩ := e
    obtain ⟨hedit, hrest⟩ := List.forall_mem_cons.mp hedits
    cases q with
    | nil => simp [grow]
    | cons k' ks =>
      by_cases hk : k' = k
      · subst hk
        rw [valueAt_grow_cons, if_pos rfl]
        simp only [ih hrest, List.map_cons, List.cons.injEq, true_and, valueAt_cons]
        cases hc : OrderedMap.get cmp k' t.children with
        | none =>
          cases ks with
          | nil => simp [hedit]
          | cons k'' ks => simp [valueAt_cons, OrderedMap.get]
        | some child =>
          cases ks with
          | nil => simp [hedit]
          | cons k'' ks => simp [valueAt_cons]
      · rw [valueAt_grow_cons, if_neg hk]
        simp [hk]

/-- Growing a path adds nodes on this path only. -/
theorem find_grow (h : (t.grow cmp fresh last edits).find cmp q = some n) :
    (∃ n', t.find cmp q = some n') ∨ q <+: edits.map Prod.fst := by
  induction edits generalizing t q with
  | nil =>
    cases q with
    | nil => exact .inr List.nil_prefix
    | cons k ks => exact .inl ⟨n, by simpa [grow, find] using h⟩
  | cons e rest ih =>
    obtain ⟨k, edit⟩ := e
    cases q with
    | nil => exact .inr List.nil_prefix
    | cons k' ks =>
      simp only [grow, find, OrderedMap.get_insert] at h
      by_cases hk : k' = k
      · subst hk
        simp only [if_true, Option.bind_some] at h
        rcases ih h with ⟨n', hn'⟩ | hpre
        · cases hget : OrderedMap.get cmp k' t.children with
          | none =>
            cases ks with
            | nil => exact .inr (by simp)
            | cons k'' ks => simp [hget, find, OrderedMap.get] at hn'
          | some child =>
            cases ks with
            | nil => exact .inr (by simp)
            | cons k'' ks =>
              refine .inl ⟨n', ?_⟩
              simp only [hget, Option.getD_some, find] at hn'
              simp [find, hget, hn']
        · exact .inr ((List.prefix_cons_inj k').mpr hpre)
      · simp only [hk, if_false] at h
        exact .inl ⟨n, h⟩

end Grow

theorem ordered_grow [Std.LawfulEqCmp cmp] [Std.TransCmp cmp] (h : t.Ordered cmp) :
    (t.grow cmp fresh last edits).Ordered cmp := by
  induction edits generalizing t with
  | nil =>
    obtain ⟨hs, hc⟩ := h
    exact .intro hs hc
  | cons e rest ih =>
    obtain ⟨k, edit⟩ := e
    obtain ⟨hs, hc⟩ := h
    refine .intro (OrderedMap.sorted_insert hs) ?_
    intro x hx
    rcases OrderedMap.mem_insert hx with rfl | hx
    · apply ih
      cases hk : OrderedMap.get cmp k t.children with
      | none => exact .intro .nil (by simp)
      | some child =>
        obtain ⟨hs', hc'⟩ := hc _ (OrderedMap.get_mem hk)
        exact .intro hs' hc'
    · exact hc x hx

section Remove

variable [DecidableEq κ]

theorem valueAt_removeChild [Std.LawfulEqCmp cmp] : (t.removeChild k).valueAt cmp q = if [k] <+: q then none
      else t.valueAt cmp q := by
  cases q with
  | nil => simp [removeChild]
  | cons k' q =>
    rw [valueAt_cons, removeChild, OrderedMap.get_remove, valueAt_cons]
    by_cases hk : k' = k
    · simp [hk]
    · have hk' : ¬ k = k' := fun h => hk h.symm
      simp [hk, hk', List.cons_prefix_cons]

theorem ordered_removeChild (h : t.Ordered cmp) : (t.removeChild k).Ordered cmp := by
  obtain ⟨hs, hc⟩ := h
  exact .intro (hs.filter _) fun e he => hc e (List.mem_of_mem_filter he)

end Remove

section Collect

variable {g : σ → List κ → Trie κ α → List β × σ} {x : β}

theorem mem_collectAll : x ∈ collectAll g s path children ↔
    ∃ e ∈ children, x ∈ collect g s (path ++ [e.1]) e.2 := by
  induction children with
  | nil => simp [collectAll]
  | cons e rest ih =>
    obtain ⟨k, child⟩ := e
    simp [collectAll, ih]

theorem mem_collect : x ∈ t.collect g s path ↔
    x ∈ (g s path t).1 ∨ ∃ e ∈ t.children, x ∈ e.2.collect g (g s path t).2 (path ++ [e.1]) := by
  obtain ⟨value, children⟩ := t
  simp only [collect, List.mem_append, mem_collectAll]

theorem collect_origin [Std.LawfulEqCmp cmp] [Std.TransCmp cmp] (ht : t.Ordered cmp)
    (h : x ∈ t.collect g s path) :
    ∃ q n s', t.find cmp q = some n ∧ x ∈ (g s' (path ++ q) n).1 := by
  induction t using induct generalizing s path with
  | h t ih =>
    obtain ⟨hs, hc⟩ := ht
    rcases mem_collect.mp h with h | ⟨e, he, h⟩
    · exact ⟨[], t, s, rfl, by simpa using h⟩
    · obtain ⟨q, n, s', hq, hx⟩ := ih e he (hc e he) h
      refine ⟨e.1 :: q, n, s', ?_, by simpa using hx⟩
      rw [find, OrderedMap.get_of_mem hs he, Option.bind_some, hq]

theorem Ordered.find (ht : t.Ordered cmp) [Std.LawfulEqCmp cmp] (h : t.find cmp q = some n) :
    n.Ordered cmp := by
  induction q generalizing t with
  | nil =>
    cases h
    exact ht
  | cons k ks ih =>
    obtain ⟨hs, hc⟩ := ht
    cases hk : OrderedMap.get cmp k t.children with
    | none => simp [Trie.find, hk] at h
    | some child =>
      simp only [Trie.find, hk, Option.bind_some] at h
      exact ih (hc _ (OrderedMap.get_mem hk)) h

theorem descend_find {s' : σ} (h : descend cmp g s path q t = some (s', n)) : t.find cmp q = some n := by
  induction q generalizing t s path with
  | nil =>
    cases h
    rfl
  | cons k ks ih =>
    cases hk : OrderedMap.get cmp k t.children with
    | none => simp [descend, hk] at h
    | some child =>
      simp only [descend, hk, Option.bind_some] at h
      simp only [find, hk, Option.bind_some, ih h]

theorem exists_descend (g : σ → List κ → Trie κ α → List β × σ) (s : σ) (path : List κ)
    (h : t.find cmp q = some n) :
    ∃ s', descend cmp g s path q t = some (s', n) := by
  induction q generalizing t s path with
  | nil =>
    cases h
    exact ⟨s, rfl⟩
  | cons k ks ih =>
    cases hk : OrderedMap.get cmp k t.children with
    | none => simp [find, hk] at h
    | some child =>
      simp only [find, hk, Option.bind_some] at h
      obtain ⟨s', hs'⟩ := ih (g s path t).2 (path ++ [k]) h
      exact ⟨s', by simp [descend, hk, hs']⟩

/-- A walk collects what its nodes yield in the state that comes down to them. -/
theorem mem_collect_descend [Std.LawfulEqCmp cmp] [Std.TransCmp cmp] (ht : t.Ordered cmp) :
    x ∈ t.collect g s path ↔ ∃ q s' n, descend cmp g s path q t = some (s', n) ∧
    x ∈ (g s' (path ++ q) n).1 := by
  induction t using induct generalizing s path with
  | h t ih =>
    obtain ⟨hs, hc⟩ := ht
    rw [mem_collect]
    constructor
    · rintro (h | ⟨e, he, h⟩)
      · exact ⟨[], s, t, rfl, by simpa using h⟩
      · obtain ⟨q, s', n, hq, hx⟩ := (ih e he (hc e he)).mp h
        exact ⟨e.1 :: q, s', n, by simp [descend, OrderedMap.get_of_mem hs he, hq], by simpa using hx⟩
    · rintro ⟨q, s', n, hq, hx⟩
      cases q with
      | nil =>
        cases hq
        exact .inl (by simpa using hx)
      | cons k ks =>
        cases hk : OrderedMap.get cmp k t.children with
        | none => simp [descend, hk] at hq
        | some child =>
          simp only [descend, hk, Option.bind_some] at hq
          have hmem := OrderedMap.get_mem hk
          exact .inr ⟨(k, child), hmem, (ih _ hmem (hc _ hmem)).mpr ⟨ks, s', n, hq, by simpa using hx⟩⟩

section Label

variable {label : β → List κ}

theorem label_collect [Std.LawfulEqCmp cmp] [Std.TransCmp cmp]
    (hlabel : ∀ s path t, ∀ x ∈ (g s path t).1, label x = path)
    (ht : t.Ordered cmp) (h : x ∈ t.collect g s path) : ∃ q, label x = path ++ q := by
  obtain ⟨q, n, s', -, hx⟩ := collect_origin ht h
  exact ⟨q, hlabel s' _ n x hx⟩

/-- Where a node yields one element at most, no two elements of a walk have the same label. -/
theorem nodup_collect [Std.LawfulEqCmp cmp] [Std.TransCmp cmp]
    (hlabel : ∀ s path t, ∀ x ∈ (g s path t).1, label x = path)
    (hone : ∀ s path t, (g s path t).1.length ≤ 1) (ht : t.Ordered cmp) :
    ((t.collect g s path).map label).Nodup := by
  induction t using induct generalizing s path with
  | h t ih =>
    obtain ⟨value, children⟩ := t
    obtain ⟨hs, hc⟩ := ht
    have hnodup : ∀ (s' : σ) (es : List (κ × Trie κ α)), es ⊆ children →
        es.Pairwise (fun x y => cmp x.1 y.1 = .lt) →
        ((collectAll g s' path es).map label).Nodup := by
      intro s' es
      induction es with
      | nil => simp [collectAll]
      | cons e rest ihrest =>
        intro hsub hpair
        obtain ⟨k, child⟩ := e
        obtain ⟨hfirst, hrest⟩ := List.pairwise_cons.mp hpair
        obtain ⟨hmem, hsub'⟩ := List.cons_subset.mp hsub
        rw [collectAll, List.map_append]
        refine List.Nodup.append (ih _ hmem (hc _ hmem)) (ihrest hsub' hrest) ?_
        intro y hy hy'
        obtain ⟨x, hx, rfl⟩ := List.mem_map.mp hy
        obtain ⟨x', hx', heq⟩ := List.mem_map.mp hy'
        obtain ⟨e', he', hx'⟩ := mem_collectAll.mp hx'
        obtain ⟨q, hq⟩ := label_collect hlabel (hc _ hmem) hx
        obtain ⟨q', hq'⟩ := label_collect hlabel (hc _ (hsub' he')) hx'
        have hkey : e'.1 = k := by
          rw [hq, hq', List.append_assoc, List.append_assoc] at heq
          exact (List.cons.inj (List.append_cancel_left heq)).1
        have hlt := hfirst e' he'
        simp [hkey, Std.ReflCmp.compare_self] at hlt
    rw [collect, List.map_append]
    refine List.Nodup.append ?_ (hnodup _ children (List.Subset.refl _) hs) ?_
    · match hg : (g s path ⟨value, children⟩).1, hone s path ⟨value, children⟩ with
      | [], _ => simp
      | [x], _ => simp
      | _ :: _ :: _, hlen => simp at hlen
    · intro y hy hy'
      obtain ⟨x, hx, rfl⟩ := List.mem_map.mp hy
      obtain ⟨x', hx', heq⟩ := List.mem_map.mp hy'
      obtain ⟨e', he', hx'⟩ := mem_collectAll.mp hx'
      obtain ⟨q', hq'⟩ := label_collect hlabel (hc _ he') hx'
      rw [hq', hlabel _ _ _ _ hx, List.append_assoc] at heq
      simp at heq

end Label

end Collect

section Any

variable {pred : α → Bool}

theorem any_eq : t.any pred = (pred t.value || t.children.any fun e => e.2.any pred) := by
  obtain ⟨value, children⟩ := t
  have hamong : anyAmong pred children = children.any fun e => e.2.any pred := by
    induction children with
    | nil => rfl
    | cons e rest ih =>
      obtain ⟨k, child⟩ := e
      simp [anyAmong, ih]
  rw [any, hamong]

theorem any_find [Std.LawfulEqCmp cmp] [Std.TransCmp cmp] (ht : t.Ordered cmp) :
    t.any pred = true ↔ ∃ q n, t.find cmp q = some n ∧ pred n.value = true := by
  induction t using induct with
  | h t ih =>
    obtain ⟨hs, hc⟩ := ht
    rw [any_eq, Bool.or_eq_true, List.any_eq_true]
    constructor
    · rintro (h | ⟨e, he, h⟩)
      · exact ⟨[], t, rfl, h⟩
      · obtain ⟨q, n, hq, hn⟩ := (ih e he (hc e he)).mp h
        exact ⟨e.1 :: q, n, by simp [find, OrderedMap.get_of_mem hs he, hq], hn⟩
    · rintro ⟨q, n, hq, hn⟩
      cases q with
      | nil =>
        cases hq
        exact .inl hn
      | cons k ks =>
        cases hk : OrderedMap.get cmp k t.children with
        | none => simp [find, hk] at hq
        | some child =>
          simp only [find, hk, Option.bind_some] at hq
          have hmem := OrderedMap.get_mem hk
          exact .inr ⟨(k, child), hmem, (ih _ hmem (hc _ hmem)).mpr ⟨ks, n, hq, hn⟩⟩

end Any

section Visit

theorem visitAll_ok (h : visitAll f s path children = .ok ()) :
    ∀ e ∈ children, visit f s (path ++ [e.1]) e.2 = .ok () := by
  induction children with
  | nil => simp
  | cons e rest ih =>
    obtain ⟨k, child⟩ := e
    simp only [visitAll] at h
    cases hv : visit f s (path ++ [k]) child with
    | error err => simp [hv, bind, Except.bind] at h
    | ok u =>
      simp only [hv, bind, Except.bind] at h
      exact List.forall_mem_cons.mpr ⟨hv, ih h⟩

theorem visit_ok (h : t.visit f s path = .ok ()) :
    ∃ s', f s path t = .ok s' ∧ ∀ e ∈ t.children, e.2.visit f s' (path ++ [e.1]) = .ok () := by
  obtain ⟨value, children⟩ := t
  simp only [visit] at h
  cases hf : f s path ⟨value, children⟩ with
  | error err => simp [hf, bind, Except.bind] at h
  | ok s' =>
    simp only [hf, bind, Except.bind] at h
    exact ⟨s', rfl, visitAll_ok h⟩

/-- A walk which ends well has visited every node that can be found. -/
theorem visit_find [Std.LawfulEqCmp cmp] (h : t.visit f s path = .ok ()) (hn : t.find cmp q = some n) :
    ∃ s', n.visit f s' (path ++ q) = .ok () := by
  induction q generalizing t s path with
  | nil =>
    cases hn
    exact ⟨s, by simpa using h⟩
  | cons k ks ih =>
    cases hk : OrderedMap.get cmp k t.children with
    | none => simp [find, hk] at hn
    | some child =>
      simp only [find, hk, Option.bind_some] at hn
      obtain ⟨s', -, hall⟩ := visit_ok h
      obtain ⟨s'', hv⟩ := ih (hall _ (OrderedMap.get_mem hk)) hn
      exact ⟨s'', by simpa using hv⟩

theorem firstAmong_none (h : firstAmong p children = none) :
    ∀ e ∈ children, p e.2.value = none ∧ e.2.firstBelow p = none := by
  induction children with
  | nil => simp
  | cons e rest ih =>
    simp only [firstAmong, Option.or_eq_none_iff] at h
    exact List.forall_mem_cons.mpr ⟨⟨h.1, h.2.1⟩, ih h.2.2⟩

/-- Where the search finds nothing, no node strictly below has an answer. -/
theorem firstBelow_none [Std.LawfulEqCmp cmp] (h : t.firstBelow p = none) (hn : t.find cmp q = some n)
    (hq : q ≠ []) :
    p n.value = none := by
  induction q generalizing t with
  | nil => exact absurd rfl hq
  | cons k ks ih =>
    cases hk : OrderedMap.get cmp k t.children with
    | none => simp [find, hk] at hn
    | some child =>
      simp only [find, hk, Option.bind_some] at hn
      obtain ⟨value, children⟩ := t
      obtain ⟨hp, hbelow⟩ := firstAmong_none h _ (OrderedMap.get_mem hk)
      cases ks with
      | nil =>
        cases hn
        exact hp
      | cons k' ks => exact ih hbelow hn (by simp)

theorem visitAll_passes (h : ∀ e ∈ children, e.2.visit f s (path ++ [e.1]) = .ok ()) :
    visitAll f s path children = .ok () := by
  induction children with
  | nil => rfl
  | cons e rest ih =>
    obtain ⟨k, child⟩ := e
    obtain ⟨hfirst, hrest⟩ := List.forall_mem_cons.mp h
    rw [visitAll, hfirst]
    exact ih hrest

theorem visit_passes [Std.LawfulEqCmp cmp] [Std.TransCmp cmp] (I : σ → Prop) (ht : t.Ordered cmp)
    (hf : ∀ q n s, t.find cmp q = some n → I s → ∃ s', f s (path ++ q) n = .ok s' ∧ I s') (hs : I s) :
    t.visit f s path = .ok () := by
  induction t using induct generalizing s path with
  | h t ih =>
    obtain ⟨hkeys, hc⟩ := ht
    obtain ⟨s', hok, hs'⟩ := hf [] t s rfl hs
    obtain ⟨value, children⟩ := t
    rw [List.append_nil] at hok
    rw [visit, hok]
    refine visitAll_passes fun e he => ih e he (hc e he) (fun q n s'' hn hs'' => ?_) hs'
    obtain ⟨s₃, hok₃, hs₃⟩ := hf (e.1 :: q) n s'' (by simp [find, OrderedMap.get_of_mem hkeys he, hn]) hs''
    exact ⟨s₃, by simpa using hok₃, hs₃⟩

/-- Where no node strictly below has an answer, the search finds nothing. -/
theorem firstBelow_eq_none [Std.LawfulEqCmp cmp] [Std.TransCmp cmp] (ht : t.Ordered cmp)
    (h : ∀ q n, q ≠ [] → t.find cmp q = some n → p n.value = none) : t.firstBelow p = none := by
  induction t using induct with
  | h t ih =>
    obtain ⟨hkeys, hc⟩ := ht
    obtain ⟨value, children⟩ := t
    have hchild : ∀ e ∈ children, p e.2.value = none ∧ e.2.firstBelow p = none := by
      intro e he
      have hget := OrderedMap.get_of_mem hkeys he
      refine ⟨h [e.1] e.2 (by simp) (by simp [find, hget]), ih e he (hc e he) fun q n _ hn => ?_⟩
      exact h (e.1 :: q) n (by simp) (by simp [find, hget, hn])
    have hamong : ∀ rest : List (κ × Trie κ α), (∀ e ∈ rest, p e.2.value = none ∧ e.2.firstBelow p = none) →
        firstAmong p rest = none := by
      intro rest hrest
      induction rest with
      | nil => rfl
      | cons e rest ihr =>
        obtain ⟨he, hall⟩ := List.forall_mem_cons.mp hrest
        simp [firstAmong, he.1, he.2, ihr hall]
    exact hamong children hchild

end Visit

end Trie
