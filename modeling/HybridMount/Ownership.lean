import HybridMount.Hot
import HybridMount.TransactionSafety

/-! What the ledger file has to say about the kernel: everything that the daemon
added and that is still live is named, and a clean ledger means that nothing is. -/

namespace HybridMount

open Traced

/-- The rules and uids which were live before the daemon added anything. -/
structure Baseline where
  rules : List SavedRule
  uids : List UInt32

/-- The ledger which a load in this boot returns. -/
def Machine.effective {τ : Type} (host : Host) (m : Machine τ) : Ledger :=
  match m.stored with
  | some saved => if saved.bootId = host.bootId then saved else .fresh host.bootId host.mountNamespace
  | none => .fresh host.bootId host.mountNamespace

namespace Baseline

variable (base : Baseline)

/-- Nothing that the daemon added is live. -/
structure Idle (m : Machine FlatTable) : Prop where
  rules : m.rules.rules ⊆ base.rules
  uids : m.uids ⊆ base.uids

structure Accounted (saved : Ledger) (m : Machine FlatTable) : Prop where
  rules : ∀ r ∈ m.rules.rules, r ∉ base.rules →
    ∃ x ∈ saved.rules ++ saved.pendingRules, semanticEqual x r = true
  uids : ∀ uid ∈ m.uids, uid ∉ base.uids → uid ∈ saved.isolatedUids
  clean : saved.phase = .clean → base.Idle m

/-- Outside an unfinished operation the committed rules name everything. -/
structure Backed (saved : Ledger) (m : Machine FlatTable) : Prop extends base.Accounted saved m where
  settled : saved.phase ≠ .applying → saved.phase ≠ .error → ∀ r ∈ m.rules.rules, r ∉ base.rules →
    ∃ x ∈ saved.rules, semanticEqual x r = true

/-- The ledger file accounts for the kernel. -/
def Safe (host : Host) (m : Machine FlatTable) : Prop := base.Backed (m.effective host) m

def Sound (host : Host) (e : Event FlatTable) : Prop := base.Safe host e.before ∧ base.Safe host e.after

end Baseline

variable {base : Baseline} {host : Host} {G : Event FlatTable → Prop} {saved l : Ledger}
  {m m₁ m' : Machine FlatTable}

theorem effective_bootId {τ : Type} (m : Machine τ) : (m.effective host).bootId = host.bootId := by
  unfold Machine.effective
  split
  · split
    · assumption
    · rfl
  · rfl

theorem effective_withStored {τ : Type} {m : Machine τ} (h : l.bootId = host.bootId) :
    (m.withStored l).effective host = l := by
  simp [Machine.effective, Machine.withStored, h]

theorem ledgerForBoot_effective {τ : Type} {m : Machine τ}
    (h : ledgerForBoot m.stored host.bootId host.mountNamespace = .ok saved) : saved = m.effective host := by
  unfold Machine.effective
  cases hs : m.stored with
  | none =>
    rw [hs] at h
    cases h
    rfl
  | some stored =>
    rw [hs] at h
    by_cases hb : stored.bootId = host.bootId
    · simp only [hb, if_true]
      exact ledgerForBoot_same hb h
    · simp only [ledgerForBoot, hb, if_false] at h ⊢
      cases h
      rfl

theorem ledgerForBoot_phase {stored : Option Ledger} {bootId ns text : String}
    (h : ledgerForBoot stored bootId ns = .ok saved) : saved.phase ≠ .other text := by
  intro hp
  cases stored with
  | none =>
    cases h
    cases hp
  | some stored =>
    by_cases hb : stored.bootId = bootId
    · have hsame := ledgerForBoot_same hb h
      subst hsame
      simp only [ledgerForBoot, hb, if_true, hp] at h
      split at h
      · cases h
      · split at h <;> cases h
    · simp only [ledgerForBoot, hb, if_false] at h
      cases h
      cases hp

namespace Baseline

theorem Idle.backed (h : base.Idle m) (saved : Ledger) : base.Backed saved m where
  rules _ hr hno := absurd (h.rules hr) hno
  uids _ hu hno := absurd (h.uids hu) hno
  clean _ := h
  settled _ _ _ hr hno := absurd (h.rules hr) hno

theorem Backed.congr (h : base.Backed saved m) (hr : m'.rules = m.rules) (hu : m'.uids = m.uids) :
    base.Backed saved m' where
  rules := by rw [hr]; exact h.rules
  uids := by rw [hu]; exact h.uids
  clean hp := by
    have hidle := h.clean hp
    exact ⟨hr ▸ hidle.rules, hu ▸ hidle.uids⟩
  settled := by rw [hr]; exact h.settled

/-- Recorded rules may come back, and everything else may go. -/
theorem Backed.shrink (h : base.Backed saved m) (hphase : saved.phase ≠ .clean)
    (hr : ∀ r ∈ m'.rules.rules, r ∈ m.rules.rules ∨ ∃ x ∈ saved.rules, semanticEqual x r = true)
    (hu : m'.uids ⊆ m.uids) : base.Backed saved m' where
  rules r hr' hno := by
    rcases hr r hr' with h0 | ⟨x, hx, hsem⟩
    · exact h.rules r h0 hno
    · exact ⟨x, List.mem_append_left _ hx, hsem⟩
  uids uid huid := h.uids uid (hu huid)
  clean hp := absurd hp hphase
  settled ha he r hr' hno := by
    rcases hr r hr' with h0 | hx
    · exact h.settled ha he r h0 hno
    · exact hx

theorem Backed.of_settled (h : base.Backed saved m) (ha : saved.phase ≠ .applying) (he : saved.phase ≠ .error)
    (hr : l.rules = saved.rules) (hu : l.isolatedUids = saved.isolatedUids) (hphase : l.phase ≠ .clean) :
    base.Backed l m where
  rules r hr' hno := by
    obtain ⟨x, hx, hsem⟩ := h.settled ha he r hr' hno
    exact ⟨x, List.mem_append_left _ (hr ▸ hx), hsem⟩
  uids := by rw [hu]; exact h.uids
  clean hp := absurd hp hphase
  settled _ _ := by rw [hr]; exact h.settled ha he

theorem Backed.safe_withStored (h : base.Backed l m) (hb : l.bootId = host.bootId) :
    base.Safe host (m.withStored l) := by
  have hh : base.Backed l (m.withStored l) := h.congr rfl rfl
  rw [Safe, effective_withStored hb]
  exact hh

theorem Safe.congr (h : base.Safe host m) (hs : m'.stored = m.stored) (hr : m'.rules = m.rules)
    (hu : m'.uids = m.uids) : base.Safe host m' := by
  have he : m'.effective host = m.effective host := by
    rw [Machine.effective, hs]
    rfl
  rw [Safe, he]
  exact Backed.congr h hr hu

section

variable {α : Type}

theorem read_sound (h : base.Safe host m₁) {operation : Operation} {read : Machine FlatTable → α} :
    Ensures G (base.Sound host) (· = m₁) (Op.query operation read) (fun a m => m = m₁ ∧ a = read m₁)
      (fun _ m => m = m₁) := by
  refine Ensures.query ?_ ?_ fun _ _ hm _ => hm
  · rintro action m - rfl
    exact ⟨h, h⟩
  · rintro m rfl
    exact ⟨rfl, rfl⟩

theorem check_sound {x : Except Error α} :
    Ensures G (base.Sound host) (· = m₁) (Prog.ofExcept x) (fun a m => m = m₁ ∧ x = .ok a)
      (fun _ m => m = m₁) :=
  Sat.ofExcept (fun _ _ hx hs => ⟨hs, hx⟩) fun _ _ _ hs => hs

theorem load_sound (h : base.Safe host m₁) :
    Ensures G (base.Sound host) (· = m₁) (Device.load host)
      (fun saved m => m = m₁ ∧ saved = m₁.effective host ∧ ∀ text, saved.phase ≠ .other text)
      (fun _ m => m = m₁) := by
  refine Sat.bind (read_sound h) fun stored => Sat.ofExcept ?_ fun _ _ _ hs => hs.1
  rintro saved s hl ⟨hs, rfl⟩
  exact ⟨hs, ledgerForBoot_effective hl, fun _ => ledgerForBoot_phase hl⟩

theorem persist_sound (h : base.Safe host m₁) (hb : l.bootId = host.bootId) (hl : base.Backed l m₁) :
    Ensures G (base.Sound host) (· = m₁) (Op.persist l) (fun _ m => m = m₁.withStored l)
      (fun _ m => m = m₁ ∨ m = m₁.withStored l) := by
  have hstate : ∀ x, x = m₁ ∨ x = m₁.withStored l → base.Safe host x := by
    rintro x (rfl | rfl)
    · exact h
    · exact hl.safe_withStored hb
  exact Ensures.persist l fun action x y _ hx hy => ⟨hstate x hx, hstate y hy⟩

end

end Baseline

end HybridMount
