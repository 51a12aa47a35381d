import Mathlib.Data.List.Infix
import Mathlib.Tactic

/-! Directory trees laid over one another. A layer may hold whiteouts, and directories which
keep what lies below them out of sight; what a stack of layers shows has neither. -/

namespace Overlaid

inductive Held (ε : Type) where
  | shown (entry : ε)
  | opaqueDir
  | whiteout
  deriving DecidableEq, Repr

variable {ν ε : Type}

/-- A visible tree taken as a layer. -/
def lower (shown : List ν → Option ε) (p : List ν) : Option (Held ε) := (shown p).map .shown

/-- Every entry of the tree lies in a directory of it. -/
def Closed (dir : ε) (layer : List ν → Option (Held ε)) : Prop :=
  ∀ p x, layer (p ++ [x]) ≠ none → layer p = some (.shown dir) ∨ layer p = some .opaqueDir

namespace Closed

variable {dir : ε} {layer : List ν → Option (Held ε)} {p : List ν}

theorem eq_none (h : Closed dir layer) (hp : layer p = none) (q : List ν) : layer (p ++ q) = none := by
  induction q using List.reverseRecOn with
  | nil => rwa [List.append_nil]
  | append_singleton q x ih =>
    by_contra hne
    rw [← List.append_assoc] at hne
    rcases h _ x hne with hd | hd
    · rw [ih] at hd
      cases hd
    · rw [ih] at hd
      cases hd

theorem append (h : Closed dir layer) (p : List ν) : Closed dir fun q => layer (p ++ q) := by
  intro q x hne
  refine h (p ++ q) x ?_
  rwa [List.append_assoc]

end Closed

variable [DecidableEq ε]

/-- Does an entry keep the lower layers from showing anything underneath? -/
def hides (dir : ε) : Option (Held ε) → Bool
  | some held => held ≠ .shown dir
  | none => false

/-- Nothing at or above the path hides what lies under the layer. -/
def Clear (dir : ε) (layer : List ν → Option (Held ε)) (p : List ν) : Prop :=
  ∀ u, u <+: p → u ≠ [] → hides dir (layer u) = false

theorem Clear.append {dir : ε} {layer : List ν → Option (Held ε)} {p q : List ν}
    (h : Clear dir layer (p ++ q)) :
    Clear dir (fun r => layer (p ++ r)) q := by
  intro u hu hne
  refine h _ ((List.prefix_append_right_inj p).mpr hu) ?_
  exact fun hh => hne (List.append_eq_nil_iff.mp hh).2

variable [DecidableEq ν]

section

variable (dir : ε)

/-- Some directory between the root of the layer and the path hides the lower layers. -/
def blocked (layer : List ν → Option (Held ε)) (p : List ν) : Bool :=
  p.inits.any fun u => u ≠ [] ∧ u ≠ p ∧ hides dir (layer u)

/-- One layer over what the layers under it show. -/
def cover (layer : List ν → Option (Held ε)) (shown : List ν → Option ε) (p : List ν) : Option ε :=
  match layer p with
  | some (.shown entry) => some entry
  | some .opaqueDir => some dir
  | some .whiteout => none
  | none => if blocked dir layer p then none else shown p

/-- The first layer lies on top. -/
def overlay (layers : List (List ν → Option (Held ε))) (shown : List ν → Option ε) : List ν → Option ε :=
  layers.foldr (cover dir) shown

/-- What a mount of the layers shows, nothing lying under the last of them. -/
def stack (layers : List (List ν → Option (Held ε))) : List ν → Option ε := overlay dir layers fun _ => none

end

variable {dir : ε} {layer : List ν → Option (Held ε)} {shown shown' : List ν → Option ε} {p q r : List ν}
  {layers upper : List (List ν → Option (Held ε))}

theorem blocked_iff : blocked dir layer p = true ↔ ∃ u, u <+: p ∧ u ≠ [] ∧ u ≠ p ∧
    hides dir (layer u) = true := by
  simp [blocked, List.any_eq_true, List.mem_inits]

theorem overlay_cons : overlay dir (layer :: layers) shown = cover dir layer (overlay dir layers shown) := rfl

theorem overlay_append : overlay dir (upper ++ layers) shown = overlay dir upper (overlay dir layers shown) :=
  List.foldr_append ..

theorem cover_congr (h : shown p = shown' p) : cover dir layer shown p = cover dir layer shown' p := by
  rw [cover, cover, h]

theorem overlay_congr (h : shown p = shown' p) :
    overlay dir layers shown p = overlay dir layers shown' p := by
  induction layers with
  | nil => exact h
  | cons layer layers ih => exact cover_congr ih

theorem stack_lower : stack dir [lower shown] = shown := by
  funext p
  change cover dir (lower shown) (fun _ => none) p = shown p
  unfold cover lower
  cases shown p with
  | none => simp
  | some entry => rfl

theorem stack_append_lower : stack dir (layers ++ [lower shown]) = overlay dir layers shown := by
  have hh : overlay dir [lower shown] (fun _ => none) = shown := stack_lower
  rw [stack, overlay_append, hh]

theorem stack_append_stack :
    stack dir (upper ++ [lower (stack dir layers)]) = stack dir (upper ++ layers) := by
  rw [stack_append_lower, stack, stack, overlay_append]

theorem blocked_append (h : Clear dir layer p) (q : List ν) :
    blocked dir layer (p ++ q) = blocked dir (fun r => layer (p ++ r)) q := by
  rw [Bool.eq_iff_iff, blocked_iff, blocked_iff]
  constructor
  · rintro ⟨u, hu, hne, hnp, hhide⟩
    rcases List.prefix_or_prefix_of_prefix hu (List.prefix_append p q) with hup | ⟨v, rfl⟩
    · rw [h u hup hne] at hhide
      cases hhide
    · refine ⟨v, (List.prefix_append_right_inj p).mp hu, ?_, fun hv => hnp (by rw [hv]), hhide⟩
      rintro rfl
      rw [List.append_nil] at hhide hne
      rw [h p (List.prefix_refl p) hne] at hhide
      cases hhide
  · rintro ⟨v, hv, hne, hnq, hhide⟩
    refine ⟨p ++ v, (List.prefix_append_right_inj p).mpr hv, ?_, ?_, hhide⟩
    · exact fun hh => hne (List.append_eq_nil_iff.mp hh).2
    · exact fun hh => hnq (List.append_cancel_left hh)

theorem overlay_at (hclear : ∀ layer ∈ layers, Clear dir layer p) (q : List ν) :
    overlay dir layers shown (p ++ q) =
      overlay dir (layers.map fun layer r => layer (p ++ r)) (fun r => shown (p ++ r)) q := by
  induction layers with
  | nil => rfl
  | cons layer layers ih =>
    obtain ⟨hlayer, hrest⟩ := List.forall_mem_cons.mp hclear
    have hh := ih hrest
    rw [List.map_cons, overlay_cons, overlay_cons, cover, cover, blocked_append hlayer, hh]

/-- A layer which holds nothing at a path holds nothing below it either. -/
theorem overlay_filter (hclosed : ∀ layer ∈ layers, Closed dir layer) (q : List ν) :
    overlay dir (layers.map fun layer r => layer (p ++ r)) shown q =
      overlay dir ((layers.filter fun layer => (layer p).isSome).map fun layer r => layer (p ++ r)) shown q := by
  induction layers with
  | nil => rfl
  | cons layer layers ih =>
    obtain ⟨hlayer, hrest⟩ := List.forall_mem_cons.mp hclosed
    have hh := ih hrest
    cases hp : layer p with
    | some held =>
      rw [List.filter_cons_of_pos (by rw [hp]; rfl), List.map_cons, List.map_cons, overlay_cons, overlay_cons]
      exact cover_congr hh
    | none =>
      rw [List.filter_cons_of_neg (by rw [hp]; exact Bool.false_ne_true), ← hh, List.map_cons, overlay_cons]
      have hnone : ∀ r, layer (p ++ r) = none := hlayer.eq_none hp
      have hopen : blocked dir (fun r => layer (p ++ r)) q = false := by
        rw [Bool.eq_false_iff]
        intro hb
        obtain ⟨u, -, -, -, hhide⟩ := blocked_iff.mp hb
        rw [hnone u] at hhide
        cases hhide
      simp only [cover, hnone q, hopen, Bool.false_eq_true, if_false]

/-- Nothing strictly above the path hides what lies under the layer. -/
def ClearAbove (dir : ε) (layer : List ν → Option (Held ε)) (p : List ν) : Prop :=
  ∀ u, u <+: p → u ≠ [] → u ≠ p → hides dir (layer u) = false

omit [DecidableEq ν] in
theorem Clear.of_above (h : ClearAbove dir layer p) (hp : hides dir (layer p) = false) :
    Clear dir layer p := by
  intro u hu hne
  by_cases hup : u = p
  · rwa [hup]
  · exact h u hu hne hup

/-- A layer without an entry at a path lets everything below the path show. -/
theorem cover_skip (hclosed : Closed dir layer) (habove : ClearAbove dir layer p) (hp : layer p = none)
    (q : List ν) : cover dir layer shown (p ++ q) = shown (p ++ q) := by
  have hopen : blocked dir layer (p ++ q) = false := by
    rw [Bool.eq_false_iff]
    intro hb
    obtain ⟨u, hu, hne, -, hhide⟩ := blocked_iff.mp hb
    rcases List.prefix_or_prefix_of_prefix hu (List.prefix_append p q) with hup | ⟨v, rfl⟩
    · have hnone : hides dir (layer p) = false := by rw [hp]; rfl
      rw [Clear.of_above habove hnone u hup hne] at hhide
      cases hhide
    · rw [hclosed.eq_none hp v] at hhide
      cases hhide
  simp only [cover, hclosed.eq_none hp q, hopen, Bool.false_eq_true, if_false]

theorem overlay_skip (hclosed : ∀ layer ∈ layers, Closed dir layer)
    (habove : ∀ layer ∈ layers, ClearAbove dir layer p) (hp : ∀ layer ∈ layers, layer p = none) (q : List ν) :
    overlay dir layers shown (p ++ q) = shown (p ++ q) := by
  induction layers with
  | nil => rfl
  | cons layer layers ih =>
    obtain ⟨hc, hcs⟩ := List.forall_mem_cons.mp hclosed
    obtain ⟨ha, has⟩ := List.forall_mem_cons.mp habove
    obtain ⟨hn, hns⟩ := List.forall_mem_cons.mp hp
    rw [overlay_cons, cover_skip hc ha hn]
    exact ih hcs has hns

/-- The first layer with an entry at a path decides there; unless it is a directory nothing is left below. -/
theorem overlay_first {layers rest : List (List ν → Option (Held ε))} {entry : ε}
    (hclosed : ∀ layer ∈ layers, Closed dir layer) (habove : ∀ layer ∈ layers, ClearAbove dir layer p)
    (hp : p ≠ []) (hfirst : (layers.filter fun layer => (layer p).isSome) = layer :: rest)
    (hentry : layer p = some (.shown entry)) (hdir : entry ≠ dir) (q : List ν) :
    overlay dir layers shown (p ++ q) = if q = [] then some entry else none := by
  induction layers with
  | nil => cases hfirst
  | cons top layers ih =>
    obtain ⟨hc, hcs⟩ := List.forall_mem_cons.mp hclosed
    obtain ⟨ha, has⟩ := List.forall_mem_cons.mp habove
    cases htop : top p with
    | none =>
      rw [List.filter_cons_of_neg (by rw [htop]; exact Bool.false_ne_true)] at hfirst
      rw [overlay_cons, cover_skip hc ha htop]
      exact ih hcs has hfirst
    | some held =>
      rw [List.filter_cons_of_pos (by rw [htop]; rfl)] at hfirst
      obtain ⟨rfl, -⟩ := List.cons.inj hfirst
      rw [overlay_cons, cover]
      by_cases hq : q = []
      · simp only [hq, List.append_nil, hentry, if_true]
      · have hbelow : top (p ++ q) = none := by
          by_contra hne
          obtain ⟨x, q, rfl⟩ := List.exists_cons_of_ne_nil hq
          have hx : top (p ++ [x]) ≠ none := by
            intro hnone
            have hh := hc.eq_none hnone q
            rw [List.append_assoc] at hh
            exact hne hh
          rcases hc p x hx with hd | hd
          · rw [hentry] at hd
            exact hdir (by injection hd with hd; injection hd)
          · rw [hentry] at hd
            injection hd with hd
            cases hd
        have hblocked : blocked dir top (p ++ q) = true := by
          refine blocked_iff.mpr ⟨p, List.prefix_append p q, hp, fun hh => hq ?_, ?_⟩
          · exact List.append_right_eq_self.mp hh.symm
          · simp [hides, hentry, hdir]
        simp only [hbelow, hblocked, if_true, hq, if_false]

end Overlaid
