import Mathlib.Data.List.MinMax
import Mathlib.Tactic

/-! Finite forests of attached mounts. A mount names its parent and the path at
which it is attached; a lookup walks down from a mount and always enters the
attachment nearest to the mount it stands in. -/

namespace Forest

/-- How a node of type `ν` presents itself to the forest. -/
structure Shape (ν ι κ : Type) where
  id : ν → ι
  parent : ν → ι
  point : ν → List κ

variable {ν ι κ : Type}

section

variable (S : Shape ν ι κ)

def depth (n : ν) : Nat := (S.point n).length

structure WellFormed (T : List ν) : Prop where
  ids : ∀ x ∈ T, ∀ y ∈ T, S.id x = S.id y → x = y
  slots : ∀ x ∈ T, ∀ y ∈ T, S.parent x = S.parent y → S.point x = S.point y → x = y
  below : ∀ x ∈ T, ∀ y ∈ T, S.parent y = S.id x → S.point x <+: S.point y
  ranked : ∃ rank : ι → Nat, ∀ x ∈ T, rank (S.parent x) < rank (S.id x)

/-- `x` is `v` or attached, directly or through other mounts, below `v`. -/
inductive Under (T : List ν) (v : ι) : ι → Prop
  | refl : Under T v v
  | step {i : ι} {y : ν} : Under T v i → y ∈ T → S.parent y = i → Under T v (S.id y)

/-- Mounts whose rank exceeds that of `cur`; a lookup from `cur` cannot enter more. -/
def higher (rank : ι → Nat) (T : List ν) (cur : ι) : List ν :=
  T.filter fun x => rank cur < rank (S.id x)

end

variable {S : Shape ν ι κ} {T T' : List ν} {v root cur i j : ι} {p : List κ} {o x w c : ν} {rank : ι → Nat}

theorem WellFormed.of_subset (h : WellFormed S T) (hsub : T' ⊆ T) : WellFormed S T' where
  ids x hx y hy := h.ids x (hsub hx) y (hsub hy)
  slots x hx y hy := h.slots x (hsub hx) y (hsub hy)
  below x hx y hy := h.below x (hsub hx) y (hsub hy)
  ranked := by
    obtain ⟨rank, hr⟩ := h.ranked
    exact ⟨rank, fun x hx => hr x (hsub hx)⟩

theorem higher_length_le (rank : ι → Nat) (cur : ι) : (higher S rank T cur).length ≤ T.length :=
  List.length_filter_le _ _

theorem higher_lt (hc : c ∈ T) (hr : rank cur < rank (S.id c)) :
    (higher S rank T (S.id c)).length < (higher S rank T cur).length := by
  have he : higher S rank T (S.id c) =
      (higher S rank T cur).filter fun x => rank (S.id c) < rank (S.id x) := by
    simp only [higher, List.filter_filter]
    apply List.filter_congr
    intro x _
    by_cases h : rank (S.id c) < rank (S.id x)
    · simp only [h, decide_true, Bool.true_and, hr.trans h]
    · simp only [h, decide_false, Bool.false_and]
  rw [he]
  apply List.length_filter_lt_length_iff_exists.mpr
  exact ⟨c, List.mem_filter.mpr ⟨hc, by simpa using hr⟩, by simp⟩

theorem mem_higher (hrank : ∀ x ∈ T, rank (S.parent x) < rank (S.id x)) (hx : x ∈ T)
    (hp : S.parent x = cur) : x ∈ higher S rank T cur :=
  List.mem_filter.mpr ⟨hx, by simpa using hp ▸ hrank x hx⟩

namespace Under

theorem trans (h : Under S T v i) (h' : Under S T i j) : Under S T v j := by
  induction h' with
  | refl => exact h
  | step _ hy hp ih => exact .step ih hy hp

theorem point (h : WellFormed S T) (hw : w ∈ T) (hu : Under S T (S.id w) i) :
    ∃ z ∈ T, S.id z = i ∧ S.point w <+: S.point z := by
  induction hu with
  | refl => exact ⟨w, hw, rfl, List.prefix_refl _⟩
  | step _ hy hp ih =>
    obtain ⟨z, hz, hid, hpre⟩ := ih
    exact ⟨_, hy, rfl, hpre.trans (h.below z hz _ hy (hp.trans hid.symm))⟩

theorem prefix_point (h : WellFormed S T) (hw : w ∈ T) (hx : x ∈ T)
    (hu : Under S T (S.id w) (S.id x)) : S.point w <+: S.point x := by
  obtain ⟨z, hz, hid, hpre⟩ := hu.point h hw
  rw [h.ids z hz x hx hid] at hpre
  exact hpre

theorem first (hu : Under S T v i) (hne : i ≠ v) :
    ∃ c ∈ T, S.parent c = v ∧ Under S T (S.id c) i := by
  induction hu with
  | refl => exact absurd rfl hne
  | @step j y hj hy hp ih =>
    by_cases hjv : j = v
    · exact ⟨y, hy, hp.trans hjv, .refl⟩
    · obtain ⟨c, hc, hcp, hcu⟩ := ih hjv
      exact ⟨c, hc, hcp, .step hcu hy hp⟩

theorem rank_lt (hrank : ∀ x ∈ T, rank (S.parent x) < rank (S.id x)) (hu : Under S T v i) :
    i = v ∨ rank v < rank i := by
  induction hu with
  | refl => exact .inl rfl
  | step _ hy hp ih =>
    have hlt := hrank _ hy
    rw [hp] at hlt
    rcases ih with rfl | hlt'
    · exact .inr hlt
    · exact .inr (hlt'.trans hlt)

theorem antisymm (h : WellFormed S T) (hu : Under S T v i) (hu' : Under S T i v) : i = v := by
  obtain ⟨rank, hrank⟩ := h.ranked
  rcases hu.rank_lt hrank with he | hlt
  · exact he
  · rcases hu'.rank_lt hrank with he | hlt'
    · exact he.symm
    · exact absurd hlt (Nat.lt_asymm hlt')

theorem of_leaf (hleaf : ∀ y ∈ T, S.parent y ≠ i) (hT' : ∀ y ∈ T, S.id y ≠ i → y ∈ T')
    (hu : Under S T v j) (hne : j ≠ i) : Under S T' v j := by
  induction hu with
  | refl => exact .refl
  | @step k y _ hy hp ih =>
    have hk : k ≠ i := fun hh => hleaf y hy (hp.trans hh)
    exact .step (ih hk) (hT' y hy hne) hp

end Under

section

variable [DecidableEq ι]

variable (S) in
/-- One round of adding every mount attached to a mount already listed. -/
def attachRound (T : List ν) (ids : List ι) : List ι :=
  ids ++ (T.filter fun n => S.parent n ∈ ids).map S.id

variable (S) in
def subtreeIds (T : List ν) (id : ι) : List ι := (attachRound S T)^[T.length] [id]

variable (S) in
/-- Detach a mount together with everything attached below it. -/
def detach (T : List ν) (id : ι) : List ν := T.filter fun n => S.id n ∉ subtreeIds S T id

theorem detach_subset : detach S T v ⊆ T := List.filter_subset_self _

theorem under_of_subtree (h : i ∈ subtreeIds S T v) : Under S T v i := by
  have hround : ∀ n : Nat, ∀ i ∈ (attachRound S T)^[n] [v], Under S T v i := by
    intro n
    induction n with
    | zero =>
      intro i hi
      rw [List.mem_singleton.mp hi]
      exact .refl
    | succ n ih =>
      intro i hi
      rw [Function.iterate_succ_apply'] at hi
      rcases List.mem_append.mp hi with hold | hnew
      · exact ih i hold
      · obtain ⟨y, hy, rfl⟩ := List.mem_map.mp hnew
        obtain ⟨hyT, hp⟩ := List.mem_filter.mp hy
        exact .step (ih _ (by simpa using hp)) hyT rfl
  exact hround _ i h

theorem self_mem_subtree (v : ι) : v ∈ subtreeIds S T v := by
  have hround : ∀ n : Nat, v ∈ (attachRound S T)^[n] [v] := by
    intro n
    induction n with
    | zero => exact List.mem_singleton.mpr rfl
    | succ n ih =>
      rw [Function.iterate_succ_apply']
      exact List.mem_append_left _ ih
  exact hround _

theorem under_of_detached (hx : x ∈ T) (hd : x ∉ detach S T v) : Under S T v (S.id x) := by
  apply under_of_subtree
  by_contra hno
  exact hd (List.mem_filter.mpr ⟨hx, by simpa using hno⟩)

theorem detach_id (hx : x ∈ detach S T v) : S.id x ≠ v := by
  intro he
  have hno := (List.mem_filter.mp hx).2
  rw [he] at hno
  simp [self_mem_subtree] at hno

theorem mem_detach_of_leaf (hleaf : ∀ y ∈ T, S.parent y ≠ v) (hx : x ∈ T) (hne : S.id x ≠ v) :
    x ∈ detach S T v := by
  by_contra hd
  obtain ⟨c, hc, hp, -⟩ := (under_of_detached hx hd).first hne
  exact hleaf c hc hp

variable [DecidableEq κ]

variable (S) in
/-- The attachment which a lookup of `p` enters from mount `cur`. -/
def entered (T : List ν) (cur : ι) (p : List κ) : Option ν :=
  (T.filter fun n => S.parent n = cur ∧ S.point n <+: p).argmin (depth S)

variable (S) in
def walk (T : List ν) : Nat → ι → List κ → List ν
  | 0, _, _ => []
  | n + 1, cur, p =>
    match entered S T cur p with
    | none => []
    | some c => c :: walk T n (S.id c) p

variable (S) in
/-- The mount on which a lookup of `p` from `root` ends. -/
def visible (T : List ν) (root : ι) (p : List κ) : ι :=
  ((walk S T T.length root p).getLast?.map S.id).getD root

variable (S) in
/-- A lookup of the path of `o` enters a mount above that path which does not carry `o`. -/
def Covered (T : List ν) (root : ι) (o : ν) : Prop :=
  ∃ c ∈ walk S T T.length root (S.point o), depth S c < depth S o ∧ ¬ Under S T (S.id c) (S.id o)

variable (S) in
/-- A lookup of `p` from the given mount enters `o` after finitely many steps. -/
inductive Leads (T : List ν) (p : List κ) (o : ν) : ι → Prop
  | here {cur : ι} : entered S T cur p = some o → Leads T p o cur
  | next {cur : ι} {c : ν} : entered S T cur p = some c → Leads T p o (S.id c) → Leads T p o cur

theorem entered_mem (h : entered S T cur p = some c) : c ∈ T ∧ S.parent c = cur ∧ S.point c <+: p := by
  have hh := List.argmin_mem h
  simpa only [List.mem_filter, decide_eq_true_eq] using hh

theorem entered_le (h : entered S T cur p = some c) (hx : x ∈ T) (hp : S.parent x = cur)
    (hpre : S.point x <+: p) : depth S c ≤ depth S x := by
  have hm : x ∈ T.filter fun n => S.parent n = cur ∧ S.point n <+: p :=
    List.mem_filter.mpr ⟨hx, by simp only [hp, hpre, and_self, decide_true]⟩
  exact List.le_of_mem_argmin hm h

theorem entered_eq_none :
    entered S T cur p = none ↔ ∀ x ∈ T, S.parent x = cur → ¬ S.point x <+: p := by
  simp only [entered, List.argmin_eq_none, List.filter_eq_nil_iff, decide_eq_true_eq, not_and]

/-- Under one parent no two mounts share a point, so the nearest one is unique. -/
theorem entered_eq_some (h : WellFormed S T) :
    entered S T cur p = some c ↔ c ∈ T ∧ S.parent c = cur ∧ S.point c <+: p ∧
      ∀ x ∈ T, S.parent x = cur → S.point x <+: p → depth S c ≤ depth S x := by
  constructor
  · intro he
    obtain ⟨hc, hp, hpre⟩ := entered_mem he
    exact ⟨hc, hp, hpre, fun x hx hxp hxpre => entered_le he hx hxp hxpre⟩
  · rintro ⟨hc, hp, hpre, hmin⟩
    cases he : entered S T cur p with
    | none => exact absurd hpre (entered_eq_none.mp he c hc hp)
    | some d =>
      obtain ⟨hd, hdp, hdpre⟩ := entered_mem he
      have hle := hmin d hd hdp hdpre
      have hge := entered_le he hc hp hpre
      have hpoint : S.point d = S.point c :=
        (List.prefix_of_prefix_length_le hdpre hpre hge).eq_of_length (le_antisymm hge hle)
      rw [h.slots d hd c hc (hdp.trans hp.symm) hpoint]

theorem walk_mem {n : Nat} (h : x ∈ walk S T n cur p) : x ∈ T ∧ S.point x <+: p := by
  induction n generalizing cur with
  | zero => cases h
  | succ n ih =>
    cases he : entered S T cur p with
    | none => simp only [walk, he, List.not_mem_nil] at h
    | some c =>
      simp only [walk, he, List.mem_cons] at h
      rcases h with rfl | h
      · exact ⟨(entered_mem he).1, (entered_mem he).2.2⟩
      · exact ih h

/-- The mounts entered by a lookup hang below one another. -/
theorem walk_under {n : Nat} (h : x ∈ walk S T n cur p) : Under S T cur (S.id x) := by
  induction n generalizing cur with
  | zero => cases h
  | succ n ih =>
    cases he : entered S T cur p with
    | none => simp only [walk, he, List.not_mem_nil] at h
    | some c =>
      obtain ⟨hc, hp, -⟩ := entered_mem he
      simp only [walk, he, List.mem_cons] at h
      have hstep : Under S T cur (S.id c) := .step .refl hc hp
      rcases h with rfl | h
      · exact hstep
      · exact hstep.trans (ih h)

/-- With enough fuel the lookup stops only where nothing more is attached. -/
theorem walk_complete {n : Nat} (hrank : ∀ x ∈ T, rank (S.parent x) < rank (S.id x))
    (hn : (higher S rank T cur).length ≤ n) :
    entered S T (((walk S T n cur p).getLast?.map S.id).getD cur) p = none := by
  induction n generalizing cur with
  | zero =>
    have hnil := List.eq_nil_of_length_eq_zero (Nat.le_zero.mp hn)
    simp only [walk, List.getLast?_nil, Option.map_none, Option.getD_none]
    rw [entered_eq_none]
    intro x hx hp _
    have hm := mem_higher hrank hx hp
    rw [hnil] at hm
    cases hm
  | succ n ih =>
    cases he : entered S T cur p with
    | none => simp only [walk, he, List.getLast?_nil, Option.map_none, Option.getD_none]
    | some c =>
      obtain ⟨hc, hp, -⟩ := entered_mem he
      have hlt := higher_lt (S := S) hc (hp ▸ hrank c hc)
      have hh := @ih (S.id c) (by omega)
      cases hw : walk S T n (S.id c) p with
      | nil => simpa [walk, he, hw] using hh
      | cons d ds => simpa [walk, he, hw, List.getLast?_cons] using hh

theorem entered_visible (h : WellFormed S T) : entered S T (visible S T root p) p = none := by
  obtain ⟨rank, hrank⟩ := h.ranked
  exact walk_complete hrank (higher_length_le rank root)

theorem eq_of_under_visible (h : WellFormed S T) (hx : x ∈ T)
    (hu : Under S T (visible S T root p) (S.id x)) (hpre : S.point x <+: p) :
    S.id x = visible S T root p := by
  by_contra hne
  obtain ⟨c, hc, hp, hcu⟩ := hu.first hne
  exact entered_eq_none.mp (entered_visible h) c hc hp ((hcu.prefix_point h hc hx).trans hpre)

/-- A mount which nothing covers is entered by the lookup of its own path. -/
theorem leads_of_uncovered (h : WellFormed S T) (ho : o ∈ T) (hu : Under S T root (S.id o))
    (hroot : S.id o ≠ root) (hc : ¬ Covered S T root o) : Leads S T (S.point o) o root := by
  obtain ⟨rank, hrank⟩ := h.ranked
  have hstep : ∀ n cur, (higher S rank T cur).length ≤ n → Under S T cur (S.id o) → S.id o ≠ cur →
      (∀ c ∈ walk S T n cur (S.point o), depth S c < depth S o → Under S T (S.id c) (S.id o)) →
      Leads S T (S.point o) o cur := by
    intro n
    induction n with
    | zero =>
      intro cur hn hcur hne _
      obtain ⟨c, hcT, hcp, -⟩ := hcur.first hne
      have hm := mem_higher hrank hcT hcp
      rw [List.eq_nil_of_length_eq_zero (Nat.le_zero.mp hn)] at hm
      cases hm
    | succ n ih =>
      intro cur hn hcur hne hwalk
      obtain ⟨d, hdT, hdp, hdu⟩ := hcur.first hne
      have hdpre := hdu.prefix_point h hdT ho
      cases he : entered S T cur (S.point o) with
      | none => exact absurd hdpre (entered_eq_none.mp he d hdT hdp)
      | some c =>
        obtain ⟨hcT, hcp, hcpre⟩ := entered_mem he
        have hle : depth S c ≤ depth S d := entered_le he hdT hdp hdpre
        have hunder : Under S T (S.id c) (S.id o) := by
          by_cases hlt : depth S c < depth S o
          · exact hwalk c (by simp [walk, he]) hlt
          · have hlen : (S.point c).length = (S.point d).length := by
              have h1 := hdpre.length_le
              simp only [depth] at hle hlt
              omega
            have hpre := List.prefix_of_prefix_length_le hcpre hdpre hlen.le
            rw [h.slots c hcT d hdT (hcp.trans hdp.symm) (hpre.eq_of_length hlen)]
            exact hdu
        by_cases hco : S.id o = S.id c
        · rw [← h.ids o ho c hcT hco] at he
          exact .here he
        · have hlt := higher_lt (S := S) hcT (hcp ▸ hrank c hcT)
          refine .next he (ih (S.id c) (by omega) hunder hco fun x hx hlt' => hwalk x ?_ hlt')
          simp only [walk, he, List.mem_cons]
          exact .inr hx
  refine hstep T.length root (higher_length_le rank root) hu hroot fun c hcw hlt => ?_
  by_contra hno
  exact hc ⟨c, hcw, hlt, hno⟩

/-- A lookup which enters `o` ends on `o` or on something stacked upon it. -/
theorem Leads.last (hrank : ∀ x ∈ T, rank (S.parent x) < rank (S.id x)) (hl : Leads S T p o cur) {n : Nat}
    (hn : (higher S rank T cur).length ≤ n) :
    ∃ w ∈ walk S T n cur p, (walk S T n cur p).getLast? = some w ∧ Under S T (S.id o) (S.id w) := by
  induction hl generalizing n with
  | @here cur he =>
    obtain ⟨ho, hp, -⟩ := entered_mem he
    cases n with
    | zero =>
      have hm := mem_higher hrank ho hp
      rw [List.eq_nil_of_length_eq_zero (Nat.le_zero.mp hn)] at hm
      cases hm
    | succ n =>
      simp only [walk, he]
      cases hw : walk S T n (S.id o) p with
      | nil => exact ⟨o, by simp, by simp, .refl⟩
      | cons d ds =>
        obtain ⟨w, hlast⟩ := Option.isSome_iff_exists.mp (List.getLast?_isSome.mpr (List.cons_ne_nil d ds))
        have hmem := List.mem_of_getLast? hlast
        refine ⟨w, List.mem_cons_of_mem _ hmem, ?_, walk_under (hw ▸ hmem)⟩
        rw [List.getLast?_cons_cons, hlast]
  | @next cur c he _ ih =>
    obtain ⟨hc, hp, -⟩ := entered_mem he
    cases n with
    | zero =>
      have hm := mem_higher hrank hc hp
      rw [List.eq_nil_of_length_eq_zero (Nat.le_zero.mp hn)] at hm
      cases hm
    | succ n =>
      have hlt := higher_lt (S := S) hc (hp ▸ hrank c hc)
      obtain ⟨w, hmem, hlast, hu⟩ := @ih n (by omega)
      refine ⟨w, by simp only [walk, he]; exact List.mem_cons_of_mem _ hmem, ?_, hu⟩
      obtain ⟨d, ds, hw⟩ := List.exists_cons_of_ne_nil (List.ne_nil_of_mem hmem)
      rw [hw] at hlast
      simp only [walk, he, hw, List.getLast?_cons_cons, hlast]

theorem Leads.visible (h : WellFormed S T) (ho : o ∈ T) (hl : Leads S T (S.point o) o root) :
    ∃ w ∈ T, S.id w = visible S T root (S.point o) ∧ S.point w = S.point o ∧ Under S T (S.id o) (S.id w) := by
  obtain ⟨rank, hrank⟩ := h.ranked
  obtain ⟨w, hmem, hlast, hu⟩ := hl.last hrank (higher_length_le rank root)
  obtain ⟨hw, hpre⟩ := walk_mem hmem
  refine ⟨w, hw, ?_, ?_, hu⟩
  · simp only [Forest.visible, hlast, Option.map_some, Option.getD_some]
  · exact hpre.eq_of_length_le (hu.prefix_point h ho hw).length_le

variable (S) in
/-- The lookup of the path of `o` starts in `o` or enters it. -/
def Reached (T : List ν) (root : ι) (o : ν) : Prop := S.id o = root ∨ Leads S T (S.point o) o root

theorem Reached.visible (h : WellFormed S T) (ho : o ∈ T) (hr : Reached S T root o) :
    ∃ w ∈ T, S.id w = visible S T root (S.point o) ∧ S.point w = S.point o ∧ Under S T (S.id o) (S.id w) := by
  rcases hr with hroot | hl
  · cases hlast : (walk S T T.length root (S.point o)).getLast? with
    | none =>
      refine ⟨o, ho, ?_, rfl, .refl⟩
      simp only [Forest.visible, hlast, Option.map_none, Option.getD_none, hroot]
    | some w =>
      have hmem := List.mem_of_getLast? hlast
      obtain ⟨hw, hpre⟩ := walk_mem hmem
      have hu : Under S T (S.id o) (S.id w) := hroot ▸ walk_under hmem
      refine ⟨w, hw, ?_, hpre.eq_of_length_le (hu.prefix_point h ho hw).length_le, hu⟩
      simp only [Forest.visible, hlast, Option.map_some, Option.getD_some]
  · exact hl.visible h ho

theorem reached_of_uncovered (h : WellFormed S T) (ho : o ∈ T) (hu : Under S T root (S.id o))
    (hc : ¬ Covered S T root o) : Reached S T root o := by
  by_cases hroot : S.id o = root
  · exact .inl hroot
  · exact .inr (leads_of_uncovered h ho hu hroot hc)

/-- Removing another mount which carries nothing does not divert the lookup. -/
theorem Leads.of_leaf (h : WellFormed S T) (hsub : T' ⊆ T) (hleaf : ∀ y ∈ T, S.parent y ≠ i)
    (hT' : ∀ y ∈ T, S.id y ≠ i → y ∈ T') (hne : S.id o ≠ i) (hl : Leads S T p o cur) :
    Leads S T' p o cur := by
  have hkeep : ∀ {cur : ι} {c : ν}, entered S T cur p = some c → S.id c ≠ i →
      entered S T' cur p = some c := by
    intro cur c he hci
    obtain ⟨hc, hp, hpre, hmin⟩ := (entered_eq_some h).mp he
    exact (entered_eq_some (h.of_subset hsub)).mpr
      ⟨hT' c hc hci, hp, hpre, fun x hx hxp hxpre => hmin x (hsub hx) hxp hxpre⟩
  induction hl with
  | here he => exact .here (hkeep he hne)
  | @next cur c he hrest ih =>
    refine .next (hkeep he fun hci => ?_) ih
    cases hrest with
    | here he' => exact hleaf _ (entered_mem he').1 ((entered_mem he').2.1.trans hci)
    | next he' _ => exact hleaf _ (entered_mem he').1 ((entered_mem he').2.1.trans hci)

theorem Reached.of_leaf (h : WellFormed S T) (hsub : T' ⊆ T) (hleaf : ∀ y ∈ T, S.parent y ≠ i)
    (hT' : ∀ y ∈ T, S.id y ≠ i → y ∈ T') (hne : S.id o ≠ i) (hr : Reached S T root o) :
    Reached S T' root o := by
  rcases hr with hroot | hl
  · exact .inl hroot
  · exact .inr (hl.of_leaf h hsub hleaf hT' hne)

end

end Forest
