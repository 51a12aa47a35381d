import Mathlib.Tactic

/-! Trees of files, links and directories: looking a path up with and without following links,
and covering a place with something else. -/

inductive FsTree (ν γ ℓ : Type) where
  | file (content : γ)
  | symlink (text : ℓ)
  | special
  | dir (entries : List (ν × FsTree ν γ ℓ))

namespace FsTree

/-- What a tree is without what it holds. -/
inductive Shown (γ ℓ : Type) where
  | file (content : γ)
  | symlink (text : ℓ)
  | special
  | directory
  deriving DecidableEq, Repr

/-- A component of a path or of the text of a link. -/
inductive Step (ν : Type) where
  | root
  | up
  | here
  | name (name : ν)

inductive LookupError where
  | notFound
  | notDirectory
  | loop
  deriving DecidableEq, Repr

section Places

variable {ν : Type} {place path : List ν} {n m : ν}

/-- Neither of two places is below the other. -/
def Apart (place path : List ν) : Prop := ¬ place <+: path ∧ ¬ path <+: place

theorem Apart.below (h : Apart place path) (rest : List ν) : Apart place (path ++ rest) := by
  refine ⟨fun hpre => ?_, fun hpre => h.2 ((List.prefix_append path rest).trans hpre)⟩
  rcases List.prefix_or_prefix_of_prefix hpre (List.prefix_append path rest) with hh | hh
  · exact h.1 hh
  · exact h.2 hh

theorem apart_siblings (hne : n ≠ m) (hpre : path ++ [n] <+: place) (rest : List ν) :
    Apart place (path ++ m :: rest) := by
  have hchild : ∀ q, path ++ [n] <+: q → ¬ path ++ m :: rest <+: q := by
    intro q hq hq'
    rcases List.prefix_or_prefix_of_prefix hq hq' with hh | hh
    · have hcons := (List.prefix_append_right_inj path).mp hh
      exact hne (List.cons_prefix_cons.mp hcons).1
    · have hcons := (List.prefix_append_right_inj path).mp hh
      exact hne (List.cons_prefix_cons.mp hcons).1.symm
  exact ⟨fun hplace => hchild _ (hpre.trans hplace) (List.prefix_refl _), hchild place hpre⟩

end Places

variable {ν γ ℓ : Type}

def shown : FsTree ν γ ℓ → Shown γ ℓ
  | .file content => .file content
  | .symlink text => .symlink text
  | .special => .special
  | .dir _ => .directory

variable [DecidableEq ν]

/-- What lies at a path whose directories are all real ones. -/
def find : List ν → FsTree ν γ ℓ → Option (FsTree ν γ ℓ)
  | [], t => some t
  | n :: rest, .dir entries => (entries.lookup n).bind (find rest)
  | _ :: _, _ => none

/-- Cover what lies at a place. -/
def mount : FsTree ν γ ℓ → List ν → FsTree ν γ ℓ → FsTree ν γ ℓ
  | _, [], x => x
  | .dir entries, n :: rest, x => .dir (entries.map fun e => if e.1 = n then (e.1, mount e.2 rest x) else e)
  | t, _ :: _, _ => t

def look (t : FsTree ν γ ℓ) (path : List ν) : Option (Shown γ ℓ) := (t.find path).map shown

mutual

/-- Does everything in the tree pass? -/
def every (p : FsTree ν γ ℓ → Bool) : FsTree ν γ ℓ → Bool
  | .file content => p (.file content)
  | .symlink text => p (.symlink text)
  | .special => p .special
  | .dir entries => p (.dir entries) && everyEntry p entries

def everyEntry (p : FsTree ν γ ℓ → Bool) : List (ν × FsTree ν γ ℓ) → Bool
  | [] => true
  | (_, t) :: rest => every p t && everyEntry p rest

end

/-- No name appears twice in a directory. -/
def WellNamed (t : FsTree ν γ ℓ) : Prop := ∀ path entries, t.find path = some (.dir entries) →
    (entries.map Prod.fst).Nodup

/-- The first tree after any covers of such places. -/
inductive Covered (T : List ν → Prop) (t : FsTree ν γ ℓ) : FsTree ν γ ℓ → Prop
  | refl : Covered T t t
  | mount {s : FsTree ν γ ℓ} {place : List ν} (x : FsTree ν γ ℓ) : Covered T t s → T place →
      Covered T t (s.mount place x)

/-- No link stands at a path or on the way to it. -/
def Straight (t : FsTree ν γ ℓ) (path : List ν) : Prop := ∀ q, q <+: path →
    ∀ text, t.look q ≠ some (.symlink text)

section Walk

variable (parse : ℓ → List (Step ν))

/-- The place which a path leads to; `jump` goes on behind a link. -/
def walkWith (t : FsTree ν γ ℓ) (jump : List ν → List (Step ν) → Except LookupError (List ν)) :
    List ν → List (Step ν) → Except LookupError (List ν)
  | place, [] => .ok place
  | _, .root :: rest => walkWith t jump [] rest
  | place, .up :: rest => walkWith t jump place.dropLast rest
  | place, .here :: rest => walkWith t jump place rest
  | place, .name n :: rest =>
    match t.look (place ++ [n]) with
    | none => .error .notFound
    | some (.symlink text) => jump place (parse text ++ rest)
    | some .directory => walkWith t jump (place ++ [n]) rest
    | some _ => if rest.isEmpty then .ok (place ++ [n]) else .error .notDirectory

/-- So many links are followed at most. -/
def walk (t : FsTree ν γ ℓ) : Nat → List ν → List (Step ν) → Except LookupError (List ν)
  | 0 => walkWith parse t fun _ _ => .error .loop
  | n + 1 => walkWith parse t (walk t n)

def maxLinks : Nat := 40

def resolve (t : FsTree ν γ ℓ) (path : List ν) : Except LookupError (List ν) :=
    walk parse t maxLinks [] (path.map .name)

/-- What a path leads to. -/
def stat (t : FsTree ν γ ℓ) (path : List ν) : Except LookupError (FsTree ν γ ℓ) := do
  let place ← resolve parse t path
  (t.find place).elim (.error .notFound) .ok

/-- What a path names, though it be a link. -/
def lstat (t : FsTree ν γ ℓ) (path : List ν) : Except LookupError (Shown γ ℓ) :=
  match path.getLast? with
  | none => .ok t.shown
  | some n => do
    let place ← resolve parse t path.dropLast
    match t.find place with
    | some (.dir entries) => ((entries.lookup n).map shown).elim (.error .notFound) .ok
    | _ => .error .notDirectory

end Walk

variable {parse : ℓ → List (Step ν)} {t s x y : FsTree ν γ ℓ} {path place rest q : List ν} {n : ν}
  {entries : List (ν × FsTree ν γ ℓ)}
  {T T' : List ν → Prop} {jump jump' : List ν → List (Step ν) → Except LookupError (List ν)}

section Entries

theorem lookup_of_mem (hnodup : (entries.map Prod.fst).Nodup) (h : (n, x) ∈ entries) :
    entries.lookup n = some x := by
  induction entries with
  | nil => cases h
  | cons e rest ih =>
    rw [List.map_cons, List.nodup_cons] at hnodup
    rcases List.mem_cons.mp h with rfl | h
    · simp
    · have hne : (n == e.1) = false := by
        rw [beq_eq_false_iff_ne]
        rintro rfl
        exact hnodup.1 (List.mem_map.mpr ⟨_, h, rfl⟩)
      rw [List.lookup_cons, hne]
      exact ih hnodup.2 h

theorem lookup_eq_none : entries.lookup n = none ↔ n ∉ entries.map Prod.fst := by
  rw [List.lookup_eq_none_iff]
  constructor
  · intro h hmem
    obtain ⟨e, he, rfl⟩ := List.mem_map.mp hmem
    simpa using h e he
  · intro h e he
    rw [bne_iff_ne]
    rintro rfl
    exact h (List.mem_map_of_mem he)

end Entries

section Find

@[simp] theorem find_nil : t.find [] = some t := by
  cases t <;> rfl

theorem find_append : t.find (path ++ rest) = (t.find path).bind (find rest) := by
  induction path generalizing t with
  | nil => simp
  | cons n path ih =>
    cases t with
    | dir entries =>
      simp only [List.cons_append, find]
      cases entries.lookup n with
      | none => rfl
      | some child => exact ih
    | file content => rfl
    | symlink text => rfl
    | special => rfl

theorem find_child : t.find (path ++ [n]) = (t.find path).bind fun above =>
    match above with
    | .dir entries => entries.lookup n
    | _ => none := by
  rw [find_append]
  congr 1
  funext above
  cases above with
  | dir entries => simp [find]
  | file content => rfl
  | symlink text => rfl
  | special => rfl

theorem WellNamed.below (h : WellNamed t) (hfind : t.find path = some x) : WellNamed x := by
  intro rest entries hrest
  refine h (path ++ rest) entries ?_
  rw [find_append, hfind]
  exact hrest

theorem lookup_mount (f : FsTree ν γ ℓ → FsTree ν γ ℓ) (m : ν) :
    (entries.map fun e => if e.1 = n then (e.1, f e.2) else e).lookup m =
      if m = n then (entries.lookup m).map f else entries.lookup m := by
  induction entries with
  | nil => simp
  | cons e rest ih =>
    obtain ⟨k, child⟩ := e
    by_cases hm : m = k
    · subst hm
      by_cases hn : m = n
      · simp [hn]
      · simp [hn]
    · have hbeq : (m == k) = false := by simpa using hm
      by_cases hk : k = n
      · have hmn : m ≠ n := fun h => hm (h.trans hk.symm)
        have hbeq' : (m == n) = false := by simpa using hmn
        simp only [List.map_cons, hk, if_true, List.lookup_cons, ih, hbeq', hmn, if_false]
      · simp only [List.map_cons, hk, if_false, List.lookup_cons, hbeq, ih]

/-- Above a covered place the cover is found in what was there. -/
theorem find_mount_above : (t.mount (path ++ rest) x).find path = (t.find path).map fun above =>
    above.mount rest x := by
  induction path generalizing t with
  | nil => simp
  | cons n path ih =>
    cases t with
    | dir entries =>
      simp only [List.cons_append, mount, find]
      rw [lookup_mount fun child => child.mount (path ++ rest) x, if_pos rfl]
      cases entries.lookup n with
      | none => rfl
      | some child => exact ih
    | file content => rfl
    | symlink text => rfl
    | special => rfl

theorem find_mount_self (h : t.find place = some y) : (t.mount place x).find (place ++ q) = x.find q := by
  have habove : (t.mount (place ++ []) x).find place = some x := by
    rw [find_mount_above, h]
    rfl
  rw [List.append_nil] at habove
  rw [find_append, habove, Option.bind_some]

theorem find_mount_apart (h : Apart place path) : (t.mount place x).find path = t.find path := by
  obtain ⟨h, h'⟩ := h
  induction place generalizing t path with
  | nil => exact absurd List.nil_prefix h
  | cons n place ih =>
    cases path with
    | nil => exact absurd List.nil_prefix h'
    | cons m path =>
      cases t with
      | dir entries =>
        simp only [mount, find]
        rw [lookup_mount fun child => child.mount place x]
        by_cases hmn : m = n
        · subst hmn
          rw [if_pos rfl]
          cases entries.lookup m with
          | none => rfl
          | some child =>
            exact ih (fun hpre => h ((List.prefix_cons_inj m).mpr hpre)) fun hpre =>
              h' ((List.prefix_cons_inj m).mpr hpre)
        · rw [if_neg hmn]
      | file content => rfl
      | symlink text => rfl
      | special => rfl

theorem shown_mount_above (hrest : rest ≠ []) : (t.mount rest x).shown = t.shown := by
  cases rest with
  | nil => exact absurd rfl hrest
  | cons n rest =>
    cases t with
    | dir entries => rfl
    | file content => rfl
    | symlink text => rfl
    | special => rfl

/-- A cover shows at its place and below only. -/
theorem look_mount (h : ¬ place <+: path) : (t.mount place x).look path = t.look path := by
  by_cases h' : path <+: place
  · obtain ⟨rest, rfl⟩ := h'
    have hrest : rest ≠ [] := fun hnil => h (by rw [hnil, List.append_nil])
    rw [look, find_mount_above, Option.map_map]
    exact congrArg (fun f => (t.find path).map f) (funext fun above => shown_mount_above hrest)
  · rw [look, find_mount_apart ⟨h, h'⟩, look]

end Find

section Straightness

theorem straight_look (h : Straight t (place ++ path)) (hq : q <+: path) (text : ℓ) :
    t.look (place ++ q) ≠ some (.symlink text) :=
  h _ ((List.prefix_append_right_inj place).mpr hq) text

/-- Without links on the way a walk stays on the path. -/
theorem walkWith_place (hs : Straight t (place ++ path)) {r : List ν}
    (h : walkWith parse t jump place (path.map .name) = .ok r) :
    r = place ++ path := by
  induction path generalizing place with
  | nil =>
    cases h
    simp
  | cons n path ih =>
    have hlook := straight_look hs (List.prefix_append [n] path)
    have hrest : Straight t ((place ++ [n]) ++ path) := by
      rw [List.append_assoc]
      exact hs
    simp only [List.map_cons, walkWith] at h
    split at h
    · cases h
    · rename_i text heq
      exact absurd heq (hlook text)
    · rw [ih hrest h, List.append_assoc]
      rfl
    · split at h
      · rename_i hempty
        cases h
        have hnil : path = [] := by simpa using hempty
        rw [hnil]
      · cases h

theorem walkWith_congr (hs : Straight t (place ++ path))
    (hsame : ∀ q, q <+: path → s.look (place ++ q) = t.look (place ++ q)) :
    walkWith parse s jump place (path.map .name) = walkWith parse t jump' place (path.map .name) := by
  induction path generalizing place with
  | nil => rfl
  | cons n path ih =>
    have hlook := straight_look hs (List.prefix_append [n] path)
    have hrest : Straight t ((place ++ [n]) ++ path) := by
      rw [List.append_assoc]
      exact hs
    have hih := ih hrest fun q hq => by
      rw [List.append_assoc]
      exact hsame (n :: q) ((List.prefix_cons_inj n).mpr hq)
    simp only [List.map_cons, walkWith]
    rw [hsame [n] (List.prefix_append [n] path)]
    cases hshown : t.look (place ++ [n]) with
    | none => rfl
    | some what =>
      cases what with
      | file content => rfl
      | symlink text => exact absurd hshown (hlook text)
      | special => rfl
      | directory => exact hih

theorem walkWith_found (hs : Straight t (place ++ path)) (h : t.find (place ++ path) = some x) :
    walkWith parse t jump place (path.map .name) = .ok (place ++ path) := by
  induction path generalizing place with
  | nil => simp [walkWith]
  | cons n path ih =>
    have hlook := straight_look hs (List.prefix_append [n] path)
    have hsplit : place ++ n :: path = (place ++ [n]) ++ path := by simp
    rw [hsplit] at hs h ⊢
    have hih := ih hs h
    rw [find_append] at h
    obtain ⟨y, hy, hx⟩ := Option.bind_eq_some_iff.mp h
    simp only [List.map_cons, walkWith, look, hy, Option.map_some]
    cases y with
    | dir entries => exact hih
    | symlink text => exact absurd (by rw [look, hy]; rfl) (hlook text)
    | file content =>
      cases path with
      | nil => simp [shown]
      | cons m path => cases hx
    | special =>
      cases path with
      | nil => simp [shown]
      | cons m path => cases hx

theorem walk_eq (parse : ℓ → List (Step ν)) (t : FsTree ν γ ℓ) (n : Nat) :
    ∃ jump, walk parse t n = walkWith parse t jump := by
  cases n with
  | zero => exact ⟨_, rfl⟩
  | succ n => exact ⟨_, rfl⟩

theorem resolve_place (hs : Straight t path) {r : List ν} (h : resolve parse t path = .ok r) : r = path := by
  obtain ⟨jump, hwalk⟩ := walk_eq parse t maxLinks
  rw [resolve, hwalk] at h
  have hplace : r = [] ++ path := walkWith_place hs h
  exact hplace

theorem resolve_congr (hs : Straight t path) (hsame : ∀ q, q <+: path → s.look q = t.look q) :
    resolve parse s path = resolve parse t path := by
  obtain ⟨jump, hwalk⟩ := walk_eq parse t maxLinks
  obtain ⟨jump', hwalk'⟩ := walk_eq parse s maxLinks
  rw [resolve, resolve, hwalk, hwalk']
  have hstraight : Straight t ([] ++ path) := hs
  exact walkWith_congr hstraight hsame

theorem resolve_found (hs : Straight t path) (h : t.find path = some x) :
    resolve parse t path = .ok path := by
  obtain ⟨jump, hwalk⟩ := walk_eq parse t maxLinks
  rw [resolve, hwalk]
  have hstraight : Straight t ([] ++ path) := hs
  exact walkWith_found hstraight h

theorem stat_found (hs : Straight t path) (h : t.find path = some x) : stat parse t path = .ok x := by
  simp only [stat, resolve_found hs h, bind, Except.bind, h, Option.elim_some]

theorem stat_congr (hs : Straight t path) (hsame : ∀ q, q <+: path → s.look q = t.look q)
    (hfind : s.find path = t.find path) :
    stat parse s path = stat parse t path := by
  rw [stat, stat, resolve_congr hs hsame]
  cases hresolve : resolve parse t path with
  | error e => rfl
  | ok place =>
    obtain rfl := resolve_place hs hresolve
    simp only [bind, Except.bind, hfind]

/-- An entry of a directory reached without links. -/
theorem lstat_child (hs : Straight t path) (h : t.find path = some (.dir entries)) :
    lstat parse t (path ++ [n]) = ((entries.lookup n).map shown).elim (.error .notFound) .ok := by
  unfold lstat
  simp only [List.getLast?_append, List.getLast?_singleton, Option.some_or, List.dropLast_concat,
    resolve_found hs h, bind, Except.bind, h]

end Straightness

section Every

variable {p : FsTree ν γ ℓ → Bool}

omit [DecidableEq ν] in
theorem every_self (h : every p t = true) : p t = true := by
  cases t with
  | dir entries =>
    rw [every, Bool.and_eq_true] at h
    exact h.1
  | file content => rwa [every] at h
  | symlink text => rwa [every] at h
  | special => rwa [every] at h

theorem every_lookup (h : everyEntry p entries = true) (hlookup : entries.lookup n = some x) :
    every p x = true := by
  induction entries with
  | nil => cases hlookup
  | cons e rest ih =>
    obtain ⟨m, y⟩ := e
    rw [everyEntry, Bool.and_eq_true] at h
    rw [List.lookup_cons] at hlookup
    cases hm : n == m with
    | true =>
      rw [hm] at hlookup
      cases hlookup
      exact h.1
    | false =>
      rw [hm] at hlookup
      exact ih h.2 hlookup

theorem every_find (h : every p t = true) (hfind : t.find path = some x) : every p x = true := by
  induction path generalizing t with
  | nil =>
    rw [find_nil] at hfind
    cases hfind
    exact h
  | cons n path ih =>
    cases t with
    | dir entries =>
      rw [every, Bool.and_eq_true] at h
      obtain ⟨child, hlookup, hchild⟩ := Option.bind_eq_some_iff.mp hfind
      exact ih (every_lookup h.2 hlookup) hchild
    | file content => cases hfind
    | symlink text => cases hfind
    | special => cases hfind

end Every

/-- Are the names in the directory different? -/
def distinctNames : FsTree ν γ ℓ → Bool
  | .dir entries => (entries.map Prod.fst).Nodup
  | _ => true

def isLink : FsTree ν γ ℓ → Bool
  | .symlink _ => true
  | _ => false

theorem wellNamed_of_every (h : every distinctNames t = true) : WellNamed t := by
  intro path entries hfind
  exact of_decide_eq_true (every_self (every_find h hfind))

theorem straight_of_every (h : every (fun x => !isLink x) t = true) : Straight t path := by
  intro q _ text hlook
  obtain ⟨x, hfind, hshown⟩ := Option.map_eq_some_iff.mp hlook
  have hnot := every_self (every_find h hfind)
  cases x with
  | symlink text => cases hnot
  | file content => cases hshown
  | special => cases hshown
  | dir entries => cases hshown

section Links

theorem Straight.above (h : Straight t path) (hq : q <+: path) : Straight t q := fun p hp => h p (hp.trans hq)

/-- What is looked up lies somewhere. -/
theorem find_of_stat (h : stat parse t path = .ok x) : ∃ place, t.find place = some x := by
  unfold stat at h
  cases hresolve : resolve parse t path with
  | error e =>
    rw [hresolve] at h
    cases h
  | ok place =>
    rw [hresolve] at h
    cases hfind : t.find place with
    | none =>
      simp only [bind, Except.bind, hfind] at h
      cases h
    | some y =>
      simp only [bind, Except.bind, hfind] at h
      cases h
      exact ⟨place, hfind⟩

end Links

section Covers

theorem Covered.mono (h : Covered T t s) (hT : ∀ place, T place → T' place) : Covered T' t s := by
  induction h with
  | refl => exact .refl
  | mount x _ hplace ih => exact .mount x ih (hT _ hplace)

theorem Covered.trans (h : Covered T t s) (h' : Covered T s y) : Covered T t y := by
  induction h' with
  | refl => exact h
  | mount x _ hplace ih => exact .mount x ih hplace

theorem Covered.look (h : Covered T t s) (hT : ∀ place, T place → ¬ place <+: path) :
    s.look path = t.look path := by
  induction h with
  | refl => rfl
  | mount x _ hplace ih => rw [look_mount (hT _ hplace), ih]

theorem Covered.find (h : Covered T t s) (hT : ∀ place, T place → Apart place path) :
    s.find path = t.find path := by
  induction h with
  | refl => rfl
  | mount x _ hplace ih => rw [find_mount_apart (hT _ hplace), ih]

/-- Covers elsewhere do not change what a path without links leads to. -/
theorem Covered.stat (h : Covered T t s) (hs : Straight t path) (hT : ∀ place, T place → Apart place path) :
    stat parse s path = stat parse t path :=
  stat_congr hs (fun _ hq => h.look fun place hplace hpre => (hT place hplace).1 (hpre.trans hq)) (h.find hT)

end Covers

end FsTree
