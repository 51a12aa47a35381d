import Mathlib.Tactic

/-! Trees of mounts. A mount shows the entries of one file system and carries what is
attached inside it, the newest attachment first. A lookup enters the first attachment
at or above its path and goes on inside. -/

theorem List.isPrefixOf?_eq_some {ν : Type} [DecidableEq ν] {c p q : List ν} :
    c.isPrefixOf? p = some q ↔ p = c ++ q := by
  induction c generalizing p with
  | nil => simp [List.isPrefixOf?, eq_comm]
  | cons x c ih =>
    cases p with
    | nil => simp [List.isPrefixOf?]
    | cons y p =>
      simp only [List.isPrefixOf?, List.cons_append, List.cons.injEq]
      by_cases hxy : x = y
      · simp [hxy, ih]
      · simp [hxy, Ne.symm hxy]

theorem List.isPrefixOf?_append {ν : Type} [DecidableEq ν] (c q : List ν) : c.isPrefixOf? (c ++ q) = some q :=
  List.isPrefixOf?_eq_some.mpr rfl

theorem List.isPrefixOf?_eq_none {ν : Type} [DecidableEq ν] {c p : List ν} :
    c.isPrefixOf? p = none ↔ ¬ c <+: p := by
  constructor
  · rintro hnone ⟨q, rfl⟩
    rw [List.isPrefixOf?_append] at hnone
    cases hnone
  · intro hno
    cases h : c.isPrefixOf? p with
    | none => rfl
    | some q => exact absurd ⟨q, (List.isPrefixOf?_eq_some.mp h).symm⟩ hno

namespace Mounted

inductive Mount (ν ε : Type) where
  | mk (tree : List ν → Option ε) (attached : List (List ν × Mount ν ε))

/-- Why the kernel does not unmount a path: nothing is visible there, what is visible is
not the root of a mount, or mounts are attached below. -/
inductive Refusal where
  | noent
  | inval
  | busy
  deriving DecidableEq, Repr

namespace Mount

variable {ν ε : Type}

def tree : Mount ν ε → List ν → Option ε
  | mk tree _ => tree

def attached : Mount ν ε → List (List ν × Mount ν ε)
  | mk _ attached => attached

/-- Nothing is stacked upon the root of the mount. -/
def uncovered (m : Mount ν ε) : Bool := m.attached.all fun a => !a.1.isEmpty

/-- No attachment lies at or below an older one, since a lookup never leads there. -/
inductive Layered : Mount ν ε → Prop
  | mk {tree : List ν → Option ε} {attached : List (List ν × Mount ν ε)} :
      (attached.map Prod.fst).Pairwise (fun newer older => ¬ older <+: newer) →
      (∀ a ∈ attached, Layered a.2) → Layered (mk tree attached)

mutual

/-- The points at which the mounts of the tree are attached, the hidden ones included. -/
def points : Mount ν ε → List (List ν)
  | mk _ attached => pointsIn attached

def pointsIn : List (List ν × Mount ν ε) → List (List ν)
  | [] => []
  | (c, m) :: rest => c :: (points m).map (c ++ ·) ++ pointsIn rest

end

variable [DecidableEq ν]

mutual

/-- The mount on which a lookup ends, and the path inside it. -/
def locate : Mount ν ε → List ν → Mount ν ε × List ν
  | mk tree attached, p => (locateIn attached p).getD (mk tree attached, p)

def locateIn : List (List ν × Mount ν ε) → List ν → Option (Mount ν ε × List ν)
  | [], _ => none
  | (c, m) :: rest, p =>
    match c.isPrefixOf? p with
    | some q => some (locate m q)
    | none => locateIn rest p

end

/-- The file system in which a lookup ends, and the path inside it. -/
def place (m : Mount ν ε) (p : List ν) : (List ν → Option ε) × List ν := ((m.locate p).1.tree, (m.locate p).2)

/-- What is visible at a path. -/
def view (m : Mount ν ε) (p : List ν) : Option ε := (m.locate p).1.tree (m.locate p).2

mutual

/-- Attach `n` where a lookup of the path ends. -/
def graft : Mount ν ε → List ν → Mount ν ε → Mount ν ε
  | mk tree attached, p, n => mk tree ((graftIn attached p n).getD ((p, n) :: attached))

def graftIn : List (List ν × Mount ν ε) → List ν → Mount ν ε → Option (List (List ν × Mount ν ε))
  | [], _, _ => none
  | (c, m) :: rest, p, n =>
    match c.isPrefixOf? p with
    | some q => some ((c, graft m q n) :: rest)
    | none => (graftIn rest p n).map ((c, m) :: ·)

end

mutual

/-- Detach the mount visible at a path; only a lazy call takes along what is attached to it. -/
def unmount (detach : Bool) : Mount ν ε → List ν → Except Refusal (Mount ν ε)
  | mk tree attached, p =>
    match unmountIn detach attached p with
    | some result => result.map (mk tree)
    | none => .error (if (tree p).isSome then .inval else .noent)

def unmountIn (detach : Bool) : List (List ν × Mount ν ε) → List ν →
    Option (Except Refusal (List (List ν × Mount ν ε)))
  | [], _ => none
  | (c, m) :: rest, p =>
    match c.isPrefixOf? p with
    | some q =>
      if q = [] ∧ m.uncovered then some (if detach || m.attached.isEmpty then .ok rest else .error .busy)
      else some ((unmount detach m q).map fun n => (c, n) :: rest)
    | none => (unmountIn detach rest p).map fun result => result.map ((c, m) :: ·)

end

/-- The mount seen from a directory inside it. -/
def cut (m : Mount ν ε) (r : List ν) : Mount ν ε :=
  mk (fun q => m.tree (r ++ q)) (m.attached.filterMap fun a => (r.isPrefixOf? a.1).map (·, a.2))

/-- The copy which a recursive bind makes of what is visible at a path. -/
def clone (m : Mount ν ε) (p : List ν) : Mount ν ε := (m.locate p).1.cut (m.locate p).2

/-- What the file system visible at a path itself holds, without anything attached below. -/
def own (m : Mount ν ε) (p q : List ν) : Option ε := (m.locate p).1.tree ((m.locate p).2 ++ q)

variable {m n m₀ : Mount ν ε} {tree : List ν → Option ε} {attached newer older : List (List ν × Mount ν ε)}
  {a : List ν × Mount ν ε} {p q r c : List ν} {detach : Bool}

theorem locateIn_none (h : ∀ b ∈ attached, ¬ b.1 <+: p) : locateIn attached p = none := by
  induction attached with
  | nil => rfl
  | cons a rest ih =>
    rw [locateIn, List.isPrefixOf?_eq_none.mpr (h a (List.mem_cons_self ..))]
    exact ih fun b hb => h b (List.mem_cons_of_mem _ hb)

theorem graftIn_none (h : ∀ b ∈ attached, ¬ b.1 <+: p) : graftIn attached p n = none := by
  induction attached with
  | nil => rfl
  | cons a rest ih =>
    have hh := ih fun b hb => h b (List.mem_cons_of_mem _ hb)
    simp only [graftIn, List.isPrefixOf?_eq_none.mpr (h a (List.mem_cons_self ..)), hh, Option.map_none]

theorem unmountIn_none (h : ∀ b ∈ attached, ¬ b.1 <+: p) : unmountIn detach attached p = none := by
  induction attached with
  | nil => rfl
  | cons a rest ih =>
    have hh := ih fun b hb => h b (List.mem_cons_of_mem _ hb)
    simp only [unmountIn, List.isPrefixOf?_eq_none.mpr (h a (List.mem_cons_self ..)), hh, Option.map_none]

/-- A lookup of `p` leads past the newer attachments into `a`, where `q` is left. -/
structure Enters (attached newer : List (List ν × Mount ν ε)) (a : List ν × Mount ν ε)
    (older : List (List ν × Mount ν ε)) (p q : List ν) : Prop where
  split : attached = newer ++ a :: older
  past : ∀ b ∈ newer, ¬ b.1 <+: p
  path : p = a.1 ++ q

omit [DecidableEq ν] in
theorem enters_or (attached : List (List ν × Mount ν ε)) (p : List ν) :
    (∀ b ∈ attached, ¬ b.1 <+: p) ∨ ∃ newer a older q, Enters attached newer a older p q := by
  induction attached with
  | nil => exact .inl fun b hb => absurd hb List.not_mem_nil
  | cons a rest ih =>
    by_cases ha : a.1 <+: p
    · obtain ⟨q, hq⟩ := ha
      exact .inr ⟨[], a, rest, q, rfl, fun b hb => absurd hb List.not_mem_nil, hq.symm⟩
    · rcases ih with hnone | ⟨newer, b, older, q, hsplit, hpast, hpath⟩
      · exact .inl fun b hb => (List.mem_cons.mp hb).elim (fun he => he ▸ ha) (hnone b)
      · refine .inr ⟨a :: newer, b, older, q, by rw [hsplit]; rfl, fun x hx => ?_, hpath⟩
        exact (List.mem_cons.mp hx).elim (fun he => he ▸ ha) (hpast x)

omit [DecidableEq ν] in
theorem Enters.append (h : Enters attached newer a older p q)
    (hl : (attached.map Prod.fst).Pairwise (fun newer older => ¬ older <+: newer)) (r : List ν) :
    Enters attached newer a older (p ++ r) (q ++ r) := by
  refine ⟨h.split, fun b hb hpre => ?_, by rw [h.path, List.append_assoc]⟩
  have ha : a.1 <+: p := ⟨q, h.path.symm⟩
  rcases List.prefix_or_prefix_of_prefix hpre (ha.trans (List.prefix_append p r)) with hba | hab
  · exact h.past b hb (hba.trans ha)
  · rw [h.split, List.map_append, List.pairwise_append] at hl
    exact hl.2.2 b.1 (List.mem_map_of_mem hb) a.1 (by simp) hab

omit [DecidableEq ν] in
theorem Enters.mem (h : Enters attached newer a older p q) : a ∈ attached := by
  rw [h.split]
  exact List.mem_append_right _ (List.mem_cons_self ..)

omit [DecidableEq ν] in
theorem induct {P : Mount ν ε → Prop}
    (h : ∀ tree attached, (∀ a ∈ attached, P a.2) → P (mk tree attached)) : ∀ m, P m :=
  fun m => Mount.rec (motive_1 := P) (motive_2 := fun attached => ∀ a ∈ attached, P a.2)
    (motive_3 := fun a => P a.2) (fun tree attached => h tree attached)
    (fun _ hb => absurd hb List.not_mem_nil)
    (fun _ _ ha hrest b hb => (List.mem_cons.mp hb).elim (fun he => he ▸ ha) (hrest b))
    (fun _ _ hm => hm) m

theorem locateIn_enters (h : Enters attached newer a older p q) :
    locateIn attached p = some (a.2.locate q) := by
  obtain ⟨rfl, hpast, rfl⟩ := h
  induction newer with
  | nil => simp only [List.nil_append, locateIn, List.isPrefixOf?_append]
  | cons b newer ih =>
    simp only [List.cons_append, locateIn, List.isPrefixOf?_eq_none.mpr (hpast b (List.mem_cons_self ..))]
    exact ih fun x hx => hpast x (List.mem_cons_of_mem _ hx)

theorem graftIn_enters (h : Enters attached newer a older p q) :
    graftIn attached p n = some (newer ++ (a.1, a.2.graft q n) :: older) := by
  obtain ⟨rfl, hpast, rfl⟩ := h
  induction newer with
  | nil => simp only [List.nil_append, graftIn, List.isPrefixOf?_append]
  | cons b newer ih =>
    simp only [List.cons_append, graftIn, List.isPrefixOf?_eq_none.mpr (hpast b (List.mem_cons_self ..))]
    rw [ih fun x hx => hpast x (List.mem_cons_of_mem _ hx)]
    rfl

theorem unmountIn_enters (h : Enters attached newer a older p q) :
    unmountIn detach attached p = some (if q = [] ∧ a.2.uncovered then
        if detach || a.2.attached.isEmpty then .ok (newer ++ older) else .error .busy
      else (a.2.unmount detach q).map fun n => newer ++ (a.1, n) :: older) := by
  obtain ⟨rfl, hpast, rfl⟩ := h
  induction newer with
  | nil =>
    simp only [List.nil_append, unmountIn, List.isPrefixOf?_append]
    split <;> rfl
  | cons b newer ih =>
    simp only [List.cons_append, unmountIn, List.isPrefixOf?_eq_none.mpr (hpast b (List.mem_cons_self ..))]
    rw [ih fun x hx => hpast x (List.mem_cons_of_mem _ hx)]
    simp only [Option.map_some, Option.some.injEq]
    split
    · split <;> rfl
    · cases a.2.unmount detach q <;> rfl

theorem locate_stay (h : ∀ b ∈ attached, ¬ b.1 <+: p) :
    (mk tree attached).locate p = (mk tree attached, p) := by
  rw [locate, locateIn_none h, Option.getD_none]

theorem locate_enters (h : Enters attached newer a older p q) :
    (mk tree attached).locate p = a.2.locate q := by
  rw [locate, locateIn_enters h, Option.getD_some]

theorem graft_stay (h : ∀ b ∈ attached, ¬ b.1 <+: p) :
    (mk tree attached).graft p n = mk tree ((p, n) :: attached) := by
  rw [graft, graftIn_none h, Option.getD_none]

theorem graft_enters (h : Enters attached newer a older p q) :
    (mk tree attached).graft p n = mk tree (newer ++ (a.1, a.2.graft q n) :: older) := by
  rw [graft, graftIn_enters h, Option.getD_some]

theorem unmount_enters (h : Enters attached newer a older p q) :
    (mk tree attached).unmount detach p = (if q = [] ∧ a.2.uncovered then
        if detach || a.2.attached.isEmpty then .ok (newer ++ older) else .error .busy
      else (a.2.unmount detach q).map fun n => newer ++ (a.1, n) :: older).map (mk tree) := by
  rw [unmount, unmountIn_enters h]

omit [DecidableEq ν] in
theorem Enters.replace (h : Enters attached newer a older p q) (n : Mount ν ε) :
    Enters (newer ++ (a.1, n) :: older) newer (a.1, n) older p q :=
  ⟨rfl, h.past, h.path⟩

theorem locate_past (m : Mount ν ε) (p : List ν) :
    ∀ b ∈ (m.locate p).1.attached, ¬ b.1 <+: (m.locate p).2 := by
  induction m using induct generalizing p with
  | h tree attached ih =>
    rcases enters_or attached p with hnone | ⟨newer, a, older, q, he⟩
    · rw [locate_stay hnone]
      exact hnone
    · rw [locate_enters he]
      exact ih a he.mem q

theorem locate_append (hm : m.Layered) (p q : List ν) :
    m.locate (p ++ q) = (m.locate p).1.locate ((m.locate p).2 ++ q) := by
  induction m using induct generalizing p with
  | h tree attached ih =>
    obtain ⟨hl, hbelow⟩ := hm
    rcases enters_or attached p with hnone | ⟨newer, a, older, r, he⟩
    · rw [locate_stay hnone]
    · rw [locate_enters he, locate_enters (he.append hl q)]
      exact ih a he.mem (hbelow a he.mem) r

theorem Layered.locate (hm : m.Layered) (p : List ν) : (m.locate p).1.Layered := by
  induction m using induct generalizing p with
  | h tree attached ih =>
    rcases enters_or attached p with hnone | ⟨newer, a, older, r, he⟩
    · rwa [locate_stay hnone]
    · obtain ⟨-, hbelow⟩ := hm
      rw [locate_enters he]
      exact ih a he.mem (hbelow a he.mem) r

theorem locate_graft (hm : m.Layered) (p q : List ν) : (m.graft p n).locate (p ++ q) = n.locate q := by
  induction m using induct generalizing p with
  | h tree attached ih =>
    obtain ⟨hl, hbelow⟩ := hm
    rcases enters_or attached p with hnone | ⟨newer, a, older, r, he⟩
    · rw [graft_stay hnone]
      exact locate_enters (a := (p, n))
        ⟨(List.nil_append _).symm, fun b hb => absurd hb List.not_mem_nil, rfl⟩
    · rw [graft_enters he, locate_enters ((he.append hl q).replace _)]
      exact ih a he.mem (hbelow a he.mem) r

theorem view_graft (hm : m.Layered) (p q : List ν) : (m.graft p n).view (p ++ q) = n.view q := by
  rw [view, view, locate_graft hm]

theorem place_mk : (mk tree attached).place q =
    ((locateIn attached q).map fun found => (found.1.tree, found.2)).getD (tree, q) := by
  rw [place, locate]
  cases locateIn attached q <;> rfl

theorem place_replace (h : ∀ s, q = c ++ s → n.place s = m.place s) :
    (mk tree (newer ++ (c, n) :: older)).place q = (mk tree (newer ++ (c, m) :: older)).place q := by
  rw [place_mk, place_mk]
  congr 1
  induction newer with
  | nil =>
    simp only [List.nil_append, locateIn]
    cases hq : c.isPrefixOf? q with
    | none => rfl
    | some s => exact congrArg some (h s (List.isPrefixOf?_eq_some.mp hq))
  | cons b newer ih =>
    simp only [List.cons_append, locateIn]
    cases b.1.isPrefixOf? q with
    | none => exact ih
    | some s => rfl

theorem place_graft_elsewhere (h : ¬ p <+: q) : (m.graft p n).place q = m.place q := by
  induction m using induct generalizing p q with
  | h tree attached ih =>
    rcases enters_or attached p with hnone | ⟨newer, a, older, r, he⟩
    · rw [graft_stay hnone, place_mk, place_mk]
      simp only [locateIn, List.isPrefixOf?_eq_none.mpr h]
    · rw [graft_enters he]
      have hpath := he.path
      have hplace := fun s (hs : q = a.1 ++ s) => ih a he.mem (p := r) (q := s) fun hrs => by
        rw [hpath, hs] at h
        exact h ((List.prefix_append_right_inj a.1).mpr hrs)
      rw [place_replace hplace, ← he.split]

theorem view_graft_elsewhere (h : ¬ p <+: q) : (m.graft p n).view q = m.view q :=
  congrArg (fun place : (List ν → Option ε) × List ν => place.1 place.2) (place_graft_elsewhere h)

theorem locate_root (h : m.uncovered) : m.locate [] = (m, []) := by
  cases m with
  | mk tree attached =>
    refine locate_stay fun b hb hpre => ?_
    have hroot : ∀ b ∈ attached, !b.1.isEmpty := List.all_eq_true.mp h
    have hne := hroot b hb
    rw [List.prefix_nil.mp hpre] at hne
    cases hne

theorem Layered.graft (hm : m.Layered) (hn : n.Layered) (p : List ν) : (m.graft p n).Layered := by
  induction m using induct generalizing p with
  | h tree attached ih =>
    obtain ⟨hl, hbelow⟩ := hm
    rcases enters_or attached p with hnone | ⟨newer, a, older, r, he⟩
    · rw [graft_stay hnone]
      refine ⟨?_, List.forall_mem_cons.mpr ⟨hn, hbelow⟩⟩
      rw [List.map_cons, List.pairwise_cons]
      refine ⟨fun c hc => ?_, hl⟩
      obtain ⟨b, hb, rfl⟩ := List.mem_map.mp hc
      exact hnone b hb
    · rw [graft_enters he]
      have hgraft := ih a he.mem (hbelow a he.mem) r
      rw [he.split] at hl hbelow
      simp only [List.map_append, List.map_cons] at hl
      simp only [List.forall_mem_append, List.forall_mem_cons] at hbelow
      refine ⟨by simpa only [List.map_append, List.map_cons] using hl, ?_⟩
      simp only [List.forall_mem_append, List.forall_mem_cons]
      exact ⟨hbelow.1, hgraft, hbelow.2.2⟩

theorem uncovered_graft_root (m n : Mount ν ε) : (m.graft [] n).uncovered = false := by
  cases m with
  | mk tree attached =>
    rcases enters_or attached [] with hnone | ⟨newer, a, older, r, he⟩
    · rw [graft_stay hnone]
      rfl
    · rw [graft_enters he]
      have hroot : a.1 = [] := (List.append_eq_nil_iff.mp he.path.symm).1
      simp [uncovered, Mount.attached, hroot]

/-- An unmount below the point of a graft acts in the grafted tree, whatever it answers. -/
theorem unmount_graft (hm : m.Layered) (p : List ν) (hq : q ≠ []) :
    (m.graft p n).unmount detach (p ++ q) = (n.unmount detach q).map (m.graft p) := by
  induction m using induct generalizing p with
  | h tree attached ih =>
    obtain ⟨hl, hbelow⟩ := hm
    rcases enters_or attached p with hnone | ⟨newer, a, older, r, he⟩
    · have hhead : Enters ((p, n) :: attached) [] (p, n) attached (p ++ q) q :=
        ⟨rfl, fun _ hb => absurd hb List.not_mem_nil, rfl⟩
      rw [graft_stay hnone, unmount_enters hhead, if_neg fun hh => hq hh.1]
      cases n.unmount detach q with
      | error e => rfl
      | ok n' => exact congrArg _ (graft_stay hnone).symm
    · have hrq : r ++ q ≠ [] := fun hh => hq (List.append_eq_nil_iff.mp hh).2
      rw [graft_enters he, unmount_enters ((he.append hl q).replace _), if_neg fun hh => hrq hh.1,
        ih a he.mem (hbelow a he.mem) r]
      cases n.unmount detach q with
      | error e => rfl
      | ok n' => exact congrArg _ (graft_enters he).symm

/-- An unmount at the point of a graft takes it away again, unless mounts are attached to it. -/
theorem unmount_graft_self (hm : m.Layered) (p : List ν) (hn : n.uncovered) :
    (m.graft p n).unmount detach p = if detach || n.attached.isEmpty then .ok m else .error .busy := by
  induction m using induct generalizing p with
  | h tree attached ih =>
    obtain ⟨hl, hbelow⟩ := hm
    rcases enters_or attached p with hnone | ⟨newer, a, older, r, he⟩
    · have hhead : Enters ((p, n) :: attached) [] (p, n) attached p [] :=
        ⟨rfl, fun _ hb => absurd hb List.not_mem_nil, (List.append_nil p).symm⟩
      rw [graft_stay hnone, unmount_enters hhead, if_pos ⟨rfl, hn⟩]
      split <;> rfl
    · have hcovered : ¬ (r = [] ∧ (a.2.graft r n).uncovered = true) := by
        rintro ⟨rfl, hu⟩
        rw [uncovered_graft_root] at hu
        cases hu
      rw [graft_enters he, unmount_enters (he.replace _), if_neg hcovered, ih a he.mem (hbelow a he.mem) r]
      split
      · exact congrArg (fun l => Except.ok (mk tree l)) he.split.symm
      · rfl

omit [DecidableEq ν] in
theorem uncovered_iff : m.uncovered = true ↔ ∀ b ∈ m.attached, b.1 ≠ [] := by
  simp [uncovered, List.all_eq_true]

theorem uncovered_graft (hm : m.uncovered) (hp : p ≠ []) : (m.graft p n).uncovered := by
  cases m with
  | mk tree attached =>
    rw [uncovered_iff] at hm ⊢
    change ∀ b ∈ attached, b.1 ≠ [] at hm
    rcases enters_or attached p with hnone | ⟨newer, a, older, r, he⟩
    · rw [graft_stay hnone]
      exact List.forall_mem_cons.mpr ⟨hp, hm⟩
    · rw [graft_enters he]
      rw [he.split] at hm
      simp only [List.forall_mem_append, List.forall_mem_cons] at hm
      exact List.forall_mem_append.mpr ⟨hm.1, List.forall_mem_cons.mpr hm.2⟩

theorem uncovered_unmount (hn : m.uncovered) (h : m.unmount detach p = .ok n) : n.uncovered := by
  cases m with
  | mk tree attached =>
    rcases enters_or attached p with hnone | ⟨newer, a, older, r, he⟩
    · rw [unmount, unmountIn_none hnone] at h
      cases h
    · rw [unmount_enters he] at h
      rw [uncovered_iff] at hn ⊢
      change ∀ b ∈ attached, b.1 ≠ [] at hn
      rw [he.split] at hn
      simp only [List.forall_mem_append, List.forall_mem_cons] at hn
      split at h
      · split at h
        · cases h
          exact List.forall_mem_append.mpr ⟨hn.1, hn.2.2⟩
        · cases h
      · cases ha : a.2.unmount detach r with
        | error e =>
          rw [ha] at h
          cases h
        | ok a' =>
          rw [ha] at h
          cases h
          exact List.forall_mem_append.mpr ⟨hn.1, List.forall_mem_cons.mpr hn.2⟩

/-- A lazy call takes what a strict one refuses as busy. -/
theorem unmount_of_busy (h : m.unmount false p = .error .busy) : ∃ n, m.unmount true p = .ok n := by
  induction m using induct generalizing p with
  | h tree attached ih =>
    rcases enters_or attached p with hnone | ⟨newer, a, older, r, he⟩
    · rw [unmount, unmountIn_none hnone] at h
      simp only [Except.error.injEq] at h
      split at h <;> cases h
    · rw [unmount_enters he] at h
      rw [unmount_enters he]
      split
      · exact ⟨_, rfl⟩
      · rename_i hstay
        rw [if_neg hstay] at h
        cases ha : a.2.unmount false r with
        | error e =>
          rw [ha] at h
          cases h
          obtain ⟨n, hn⟩ := ih a he.mem ha
          exact ⟨_, by rw [hn]; rfl⟩
        | ok a' =>
          rw [ha] at h
          cases h

theorem locateIn_cut (hr : ∀ b ∈ attached, ¬ b.1 <+: r) (q : List ν) :
    locateIn (attached.filterMap fun b => (r.isPrefixOf? b.1).map (·, b.2)) q = locateIn attached
      (r ++ q) := by
  induction attached with
  | nil => rfl
  | cons b rest ih =>
    obtain ⟨hb, hrest⟩ := List.forall_mem_cons.mp hr
    obtain ⟨c, x⟩ := b
    rw [List.filterMap_cons]
    by_cases hpre : r <+: c
    · obtain ⟨s, rfl⟩ := hpre
      simp only [List.isPrefixOf?_append, Option.map_some, locateIn]
      cases hs : s.isPrefixOf? q with
      | none =>
        have hno : ¬ r ++ s <+: r ++ q := fun hh =>
          List.isPrefixOf?_eq_none.mp hs ((List.prefix_append_right_inj r).mp hh)
        rw [List.isPrefixOf?_eq_none.mpr hno]
        exact ih hrest
      | some t =>
        rw [List.isPrefixOf?_eq_some.mp hs, ← List.append_assoc, List.isPrefixOf?_append]
    · have hno : ¬ c <+: r ++ q := fun hh =>
        (List.prefix_or_prefix_of_prefix hh (List.prefix_append r q)).elim hb hpre
      simp only [List.isPrefixOf?_eq_none.mpr hpre, Option.map_none, locateIn,
        List.isPrefixOf?_eq_none.mpr hno]
      exact ih hrest

/-- In a recursive bind a lookup ends as it does in the original, or both stay where they are. -/
theorem locate_clone (hm : m.Layered) (p q : List ν) :
    (m.clone p).locate q = m.locate (p ++ q) ∨ (m.clone p).locate q = (m.clone p, q) ∧
      m.locate (p ++ q) = ((m.locate p).1, (m.locate p).2 ++ q) := by
  have hpast := locate_past m p
  rw [locate_append hm, clone]
  cases hv : m.locate p with
  | mk v r =>
    rw [hv] at hpast
    cases v with
    | mk tree attached =>
      simp only [cut, locate, locateIn_cut (show ∀ b ∈ attached, ¬ b.1 <+: r from hpast), Mount.attached]
      cases locateIn attached (r ++ q) with
      | none => exact .inr ⟨rfl, rfl⟩
      | some found => exact .inl rfl

theorem view_clone (hm : m.Layered) (p q : List ν) : (m.clone p).view q = m.view (p ++ q) := by
  rw [view, view]
  rcases locate_clone hm p q with he | ⟨he, he'⟩
  · rw [he]
  · rw [he, he']
    rfl

theorem Layered.clone (hm : m.Layered) (p : List ν) : (m.clone p).Layered := by
  have hv := hm.locate p
  rw [Mount.clone]
  cases hl : m.locate p with
  | mk v r =>
    rw [hl] at hv
    obtain ⟨hpair, hbelow⟩ := hv
    rename_i tree attached
    refine ⟨?_, fun b hb => ?_⟩
    · rw [List.map_filterMap]
      rw [List.pairwise_map] at hpair
      refine List.Pairwise.filterMap (S := fun newer older => ¬ older <+: newer) _ ?_ hpair
      intro x y hxy s hs t ht
      simp only [Option.map_map, Option.map_eq_some_iff, Function.comp] at hs ht
      obtain ⟨s', hs', rfl⟩ := hs
      obtain ⟨t', ht', rfl⟩ := ht
      rw [List.isPrefixOf?_eq_some.mp hs', List.isPrefixOf?_eq_some.mp ht'] at hxy
      exact fun hh => hxy ((List.prefix_append_right_inj r).mpr hh)
    · obtain ⟨x, hx, hb⟩ := List.mem_filterMap.mp hb
      obtain ⟨s, -, rfl⟩ := Option.map_eq_some_iff.mp hb
      exact hbelow x hx

theorem clone_root (h : m.uncovered) : m.clone [] = m := by
  rw [clone, locate_root h]
  cases m with
  | mk tree attached =>
    have hkeep : (attached.filterMap fun b => (([] : List ν).isPrefixOf? b.1).map (·, b.2)) = attached := by
      simp [List.isPrefixOf?]
    simp only [cut, Mount.attached, hkeep, List.nil_append]
    rfl

theorem uncovered_clone (m : Mount ν ε) (p : List ν) : (m.clone p).uncovered := by
  rw [uncovered_iff]
  intro b hb
  obtain ⟨x, hx, hb⟩ := List.mem_filterMap.mp hb
  obtain ⟨s, hs, rfl⟩ := Option.map_eq_some_iff.mp hb
  rintro rfl
  refine locate_past m p x hx ?_
  rw [List.isPrefixOf?_eq_some.mp hs, List.append_nil]

theorem own_eq_view (hm : m.Layered) (h : ∀ b ∈ (m.locate p).1.attached, ¬ b.1 <+: (m.locate p).2 ++ q) :
    m.own p q = m.view (p ++ q) := by
  rw [view, locate_append hm, own]
  cases hv : (m.locate p).1 with
  | mk tree attached =>
    rw [hv] at h
    rw [locate_stay (show ∀ b ∈ attached, _ from h)]

section Points

omit [DecidableEq ν] in
theorem pointsIn_append : pointsIn (newer ++ older) = pointsIn newer ++ pointsIn older := by
  induction newer with
  | nil => rfl
  | cons b newer ih => simp only [List.cons_append, pointsIn, ih, List.append_assoc]

theorem points_graft (m n : Mount ν ε) (p : List ν) :
    (m.graft p n).points.Perm (p :: n.points.map (p ++ ·) ++ m.points) := by
  induction m using induct generalizing p with
  | h tree attached ih =>
    rcases enters_or attached p with hnone | ⟨newer, a, older, r, he⟩
    · rw [graft_stay hnone]
      exact List.Perm.refl _
    · have hgraft := (ih a he.mem r).map (a.1 ++ ·)
      rw [graft_enters he, points, points, pointsIn_append, he.split, pointsIn_append, List.perm_iff_count]
      intro x
      have hx := hgraft.count_eq x
      simp only [pointsIn, List.map_append, List.map_cons, List.map_map, List.count_append, List.count_cons,
        ← he.path] at hx ⊢
      have hcomp : ((a.1 ++ ·) ∘ (r ++ ·) : List ν → List ν) = (p ++ ·) := by
        funext y
        simp only [Function.comp, ← List.append_assoc, ← he.path]
      rw [hcomp] at hx
      omega

/-- The mount on which a lookup ends is a part of the tree. -/
theorem count_locate (m : Mount ν ε) (p : List ν) : ∃ base, p = base ++ (m.locate p).2 ∧
    ∀ x, (m.locate p).1.points.count x ≤ m.points.count (base ++ x) := by
  induction m using induct generalizing p with
  | h tree attached ih =>
    rcases enters_or attached p with hnone | ⟨newer, a, older, r, he⟩
    · rw [locate_stay hnone]
      exact ⟨[], rfl, fun x => le_rfl⟩
    · obtain ⟨base, hbase, hcount⟩ := ih a he.mem r
      refine ⟨a.1 ++ base, ?_, fun x => ?_⟩
      · rw [locate_enters he, List.append_assoc, ← hbase, he.path]
      · have hx := List.count_map_of_injective a.2.points (a.1 ++ ·)
          (List.append_right_injective a.1) (base ++ x)
        rw [locate_enters he, points, he.split, pointsIn_append]
        simp only [pointsIn, List.count_append, List.count_cons, List.append_assoc] at hx ⊢
        have hc := hcount x
        omega

theorem count_cut (m : Mount ν ε) (r q : List ν) : (m.cut r).points.count q ≤ m.points.count (r ++ q) := by
  cases m with
  | mk tree attached =>
    simp only [cut, points, Mount.attached]
    induction attached with
    | nil => exact Nat.zero_le _
    | cons b rest ih =>
      obtain ⟨c, x⟩ := b
      rw [List.filterMap_cons]
      by_cases hpre : r <+: c
      · obtain ⟨s, rfl⟩ := hpre
        have hleft := List.count_map_of_injective (s :: x.points.map (s ++ ·)) (r ++ ·)
          (List.append_right_injective r) q
        simp only [List.map_cons, List.map_map, List.count_cons] at hleft
        have hcomp : ((r ++ ·) ∘ (s ++ ·) : List ν → List ν) = (r ++ s ++ ·) := by
          funext y
          simp only [Function.comp, List.append_assoc]
        rw [hcomp] at hleft
        simp only [List.isPrefixOf?_append, Option.map_some, pointsIn, List.count_append, List.count_cons]
        omega
      · simp only [List.isPrefixOf?_eq_none.mpr hpre, Option.map_none, pointsIn, List.count_append]
        omega

theorem count_clone (m : Mount ν ε) (p q : List ν) :
    (m.clone p).points.count q ≤ m.points.count (p ++ q) := by
  obtain ⟨base, hbase, hcount⟩ := count_locate m p
  have hcut := count_cut (m.locate p).1 (m.locate p).2 q
  have hc := hcount ((m.locate p).2 ++ q)
  rw [← List.append_assoc, ← hbase] at hc
  exact hcut.trans hc

/-- A path at which a lookup ends on the root of a mount, below the root of the tree, is a point. -/
theorem mem_points_of_root (h : (m.locate p).2 = []) (hp : p ≠ []) : p ∈ m.points := by
  induction m using induct generalizing p with
  | h tree attached ih =>
    rcases enters_or attached p with hnone | ⟨newer, a, older, r, he⟩
    · rw [locate_stay hnone] at h
      exact absurd h hp
    · rw [locate_enters he] at h
      rw [points, he.split, pointsIn_append, he.path]
      refine List.mem_append_right _ (List.mem_append_left _ ?_)
      by_cases hr : r = []
      · rw [hr, List.append_nil]
        exact List.mem_cons_self ..
      · exact List.mem_cons_of_mem _ (List.mem_map_of_mem (ih a he.mem h hr))

omit [DecidableEq ν] in
theorem nil_not_mem_points (h : m.uncovered) : [] ∉ m.points := by
  cases m with
  | mk tree attached =>
    rw [uncovered_iff] at h
    change ∀ b ∈ attached, b.1 ≠ [] at h
    rw [points]
    induction attached with
    | nil => exact List.not_mem_nil
    | cons b rest ih =>
      obtain ⟨hb, hrest⟩ := List.forall_mem_cons.mp h
      simp only [pointsIn, List.cons_append, List.mem_cons, List.mem_append, List.mem_map]
      rintro (he | ⟨x, -, hx⟩ | hr)
      · exact hb he.symm
      · exact hb (List.append_eq_nil_iff.mp hx).1
      · exact ih hrest hr

omit [DecidableEq ν] in
theorem mem_points_of_attached (h : a ∈ m.attached) : a.1 ∈ m.points := by
  cases m with
  | mk tree attached =>
    obtain ⟨newer, older, rfl⟩ := List.append_of_mem (show a ∈ attached from h)
    rw [points, pointsIn_append]
    exact List.mem_append_right _ (List.mem_cons_self ..)

/-- No mount below `p` lies on the way from there to `q`. -/
theorem own_eq_view_of_points (hm : m.Layered)
    (h : ∀ c ∈ m.points, p <+: c → c ≠ p → ¬ c <+: p ++ q) : m.own p q = m.view (p ++ q) := by
  obtain ⟨base, hbase, hcount⟩ := count_locate m p
  refine own_eq_view hm fun b hb hpre => ?_
  have hpast := locate_past m p b hb
  rcases List.prefix_or_prefix_of_prefix hpre (List.prefix_append _ q) with hbr | hrb
  · exact hpast hbr
  · have hpoint : base ++ b.1 ∈ m.points := List.count_pos_iff.mp
      ((List.count_pos_iff.mpr (mem_points_of_attached hb)).trans_le (hcount b.1))
    have hshort := (List.prefix_append_right_inj base).mpr hrb
    have hlong := (List.prefix_append_right_inj base).mpr hpre
    rw [← hbase] at hshort
    rw [← List.append_assoc, ← hbase] at hlong
    refine h _ hpoint hshort (fun heq => hpast ?_) hlong
    rw [List.append_cancel_left (heq.trans hbase)]

end Points

theorem Layered.unmount (hm : m.Layered) (h : m.unmount detach p = .ok n) : n.Layered := by
  induction m using induct generalizing p n with
  | h tree attached ih =>
    obtain ⟨hl, hbelow⟩ := hm
    rcases enters_or attached p with hnone | ⟨newer, a, older, r, he⟩
    · rw [Mount.unmount, unmountIn_none hnone] at h
      cases h
    · have hmem := he.mem
      rw [unmount_enters he] at h
      rw [he.split] at hl hbelow
      simp only [List.map_append, List.map_cons] at hl
      simp only [List.forall_mem_append, List.forall_mem_cons] at hbelow
      split at h
      · split at h
        · cases h
          refine ⟨?_, List.forall_mem_append.mpr ⟨hbelow.1, hbelow.2.2⟩⟩
          rw [List.map_append]
          exact hl.sublist ((List.Sublist.refl _).append (List.sublist_cons_self ..))
        · cases h
      · cases ha : a.2.unmount detach r with
        | error e =>
          rw [ha] at h
          cases h
        | ok a' =>
          rw [ha] at h
          cases h
          refine ⟨by simpa only [List.map_append, List.map_cons] using hl, ?_⟩
          simp only [List.forall_mem_append, List.forall_mem_cons]
          exact ⟨hbelow.1, ih a hmem (hbelow.2.1) ha, hbelow.2.2⟩

theorem uncovered_locate (m : Mount ν ε) (p : List ν) : (m.locate p).1.uncovered := by
  rw [uncovered_iff]
  intro b hb hroot
  refine locate_past m p b hb ?_
  rw [hroot]
  exact List.nil_prefix

end Mount

end Mounted
