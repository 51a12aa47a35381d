import HybridMount.Mounts

/-! Detaching the owned mounts, deepest first, one visible mount at a time. The
table is a forest in which a detach removes the visible mount and all it carries. -/

namespace HybridMount

namespace Mounts

open Traced

variable {τ : Type}

def snapshot : Op τ (List OwnedMount) := do
  let entries ← Op.mountinfo
  return identities entries

/-- The visible mount at the target is one of the active ones. -/
def shows (active : List OwnedMount) (target : String) (visible : Int) : Bool :=
  active.any fun entry => entry.target == target && entry.id == visible

def checkVisible (active : List OwnedMount) (detail target : String) : Op τ Int := do
  let visible ← Op.visibleMountId target
  if shows active target visible then return visible
  else Prog.fail (.mountOwnership target detail)

def verifyVisible (active : List OwnedMount) : Op τ Unit :=
  Prog.forEach (fun target => do
      let _ ← checkVisible active "visible mount is not an owned mount" target)
    ((active.map OwnedMount.target).dedup.insertionSort fun a b => (compare a b).isLE)

def cleanupLoop (owned : List OwnedMount) : Nat → List OwnedMount → Op τ Unit
  | 0, _ => Prog.fail .unfinished
  | fuel + 1, current => do
    let active ← Prog.ofExcept (preflight owned current)
    verifyVisible active
    match active with
    | [] => return ()
    | next :: _ =>
      let visible ← checkVisible active "visible mount changed before detach" next.target
      Op.detach next.target
      let current ← snapshot
      if current.any fun entry => entry.id == visible then
        Prog.fail (.mountOwnership next.target "detached mount is still present on readback")
      else cleanupLoop owned fuel current

/-- Every round detaches an owned mount, so the owned set bounds the rounds. -/
def cleanup (owned : List OwnedMount) : Op τ Unit := do
  let current ← snapshot
  cleanupLoop owned (owned.length + 1) current

/-- Preflights the complete mount set before callers mutate other resource types. -/
def validate (owned : List OwnedMount) : Op τ Unit := do
  let current ← snapshot
  let active ← Prog.ofExcept (preflight owned current)
  verifyVisible active

end Mounts

def Machine.withMounts {τ : Type} (m : Machine τ) (mounts : List MountEntry) : Machine τ :=
  { m with mounts := mounts }

/-- The mount table after a detach at `path`. -/
def Machine.detached {τ : Type} (m : Machine τ) (path : String) : Machine τ :=
  m.withMounts (MountTable.detach m.mounts m.root path)

namespace Mounts

open Traced

variable {τ : Type} {G T : Event τ → Prop} {E : Error → Machine τ → Prop} {m m₁ : Machine τ}
  {owned active current : List OwnedMount} {target : String}

section

variable {α : Type} {operation : Operation} {read : Machine τ → α}

theorem query_spec (hT : ∀ action, action.operation = operation → T ⟨action, false, m₁, m₁⟩) :
    Ensures G T (· = m₁) (Op.query operation read) (fun a m => m = m₁ ∧ a = read m₁)
      (fun e m => m = m₁ ∧ e ≠ .unfinished ∧ G ⟨.failed operation, false, m₁, m₁⟩) := by
  refine Ensures.query ?_ ?_ ?_
  · rintro action m ha rfl
    exact hT action ha
  · rintro m rfl
    exact ⟨rfl, rfl⟩
  · rintro m detail rfl hg
    exact ⟨rfl, Error.noConfusion, hg⟩

end

/-- Every active mount's path shows an active mount. -/
def Shown (active : List OwnedMount) (m : Machine τ) : Prop :=
  ∀ entry ∈ active, shows active entry.target (MountTable.visibleId m.mounts m.root entry.target) = true

theorem snapshot_spec (hT : ∀ action, action.operation = .mountinfo → T ⟨action, false, m₁, m₁⟩) :
    Ensures G T (· = m₁) snapshot (fun current m => m = m₁ ∧ current = identities m₁.mounts)
      (fun e m => m = m₁ ∧ e ≠ .unfinished ∧ G ⟨.failed .mountinfo, false, m₁, m₁⟩) := by
  refine Sat.bind (query_spec hT) fun entries => Sat.pure ?_
  rintro s ⟨hs, rfl⟩
  exact ⟨hs, rfl⟩

theorem checkVisible_spec {detail : String}
    (hT : ∀ action, action.operation = .visibleId target → T ⟨action, false, m₁, m₁⟩) :
    Ensures G T (· = m₁) (checkVisible active detail target)
      (fun visible m => m = m₁ ∧ visible = MountTable.visibleId m₁.mounts m₁.root target ∧
        shows active target visible = true)
      (fun e m => m = m₁ ∧ e ≠ .unfinished ∧ (G ⟨.failed (.visibleId target), false, m₁, m₁⟩ ∨
        shows active target (MountTable.visibleId m₁.mounts m₁.root target) = false)) := by
  refine Sat.bind ((query_spec hT).weaken (fun _ _ hq => hq) fun _ _ he => ⟨he.1, he.2.1, .inl he.2.2⟩)
    fun visible => ?_
  split
  · rename_i hshow
    exact Sat.pure fun s hs => ⟨hs.1, hs.2, hshow⟩
  · rename_i hshow
    refine Sat.fail fun s hs => ⟨hs.1, Error.noConfusion, .inr ?_⟩
    rw [← hs.2]
    exact Bool.eq_false_iff.mpr hshow

theorem verifyVisible_spec
    (hT : ∀ action path, action.operation = .visibleId path → T ⟨action, false, m₁, m₁⟩) :
    Ensures G T (· = m₁) (verifyVisible active) (fun _ m => m = m₁)
      (fun e m => m = m₁ ∧ e ≠ .unfinished ∧
        (Shown active m₁ → ∃ operation, G ⟨.failed operation, false, m₁, m₁⟩)) := by
  refine Sat.forEach_invariant _ fun target ht => ?_
  refine Sat.bind ((checkVisible_spec fun action ha => hT action target ha).weaken (fun _ _ hq => hq.1) ?_)
    fun _ => Sat.pure fun _ hs => hs
  rintro e s ⟨hs, hne, hbad⟩
  refine ⟨hs, hne, fun hshown => ?_⟩
  rcases hbad with hg | hno
  · exact ⟨_, hg⟩
  · rw [List.mem_insertionSort, List.mem_dedup] at ht
    obtain ⟨entry, hentry, rfl⟩ := List.mem_map.mp ht
    rw [hshown entry hentry] at hno
    cases hno

theorem detach_perform
    (hT : ∀ action x y, action.operation = .detach target → action ≠ .request (.detach target) →
      (x = m₁ ∨ x = m₁.detached target) → (y = m₁ ∨ y = m₁.detached target) → T ⟨action, false, x, y⟩) :
    Ensures G T (· = m₁) (Op.perform (.detach target) (fun path => Op.change (.detach path) fun m =>
        { m with mounts := MountTable.detach m.mounts m.root path }) [target])
      (fun _ m => m = m₁.detached target)
      (fun e m => (m = m₁ ∨ m = m₁.detached target) ∧ e ≠ .unfinished ∧
        G ⟨.failed (.detach target), false, m, m⟩) := by
  let I := fun (rest : List String) (m : Machine τ) =>
    (rest = [target] ∧ m = m₁) ∨ (rest = [] ∧ m = m₁.detached target)
  have hone : ∀ x rest, Ensures G T (I (x :: rest))
      (Op.change (.detach x) fun m => { m with mounts := MountTable.detach m.mounts m.root x })
      (fun _ => I rest)
      (fun e m => (m = m₁ ∨ m = m₁.detached target) ∧ e ≠ .unfinished ∧
        G ⟨.failed (.detach target), false, m, m⟩) := by
    intro x rest
    refine Ensures.change ?_
    rintro m' (⟨hx, rfl⟩ | ⟨hx, -⟩) _
    · obtain ⟨rfl, rfl⟩ := List.cons.inj hx
      exact ⟨hT _ _ _ rfl Action.noConfusion (.inl rfl) (.inr rfl), .inr ⟨rfl, rfl⟩⟩
    · cases hx
  have hb : Ensures G T (I [target])
    (Op.perform (.detach target) (fun path => Op.change (.detach path) fun m =>
      { m with mounts := MountTable.detach m.mounts m.root path }) [target]) (fun _ => I [])
      (fun e m => (m = m₁ ∨ m = m₁.detached target) ∧ e ≠ .unfinished ∧
        G ⟨.failed (.detach target), false, m, m⟩) := by
    refine Ensures.perform ?_ hone ?_
    · rintro action rest m' ha hr - (⟨-, rfl⟩ | ⟨-, rfl⟩)
      · exact hT _ _ _ ha hr (.inl rfl) (.inl rfl)
      · exact hT _ _ _ ha hr (.inr rfl) (.inr rfl)
    · rintro rest m' detail - (⟨-, rfl⟩ | ⟨-, rfl⟩) hg
      · exact ⟨.inl rfl, Error.noConfusion, hg⟩
      · exact ⟨.inr rfl, Error.noConfusion, hg⟩
  refine hb.consequence (fun s hs => .inl ⟨rfl, hs⟩) ?_ fun _ _ he => he
  rintro _ s (⟨hx, -⟩ | ⟨-, hs⟩)
  · cases hx
  · exact hs

theorem detach_spec
    (hT : ∀ action x y, action.operation = .detach target → (x = m₁ ∨ x = m₁.detached target) →
      (y = m₁ ∨ y = m₁.detached target) → T ⟨action, false, x, y⟩) :
    Ensures G T (· = m₁) (Op.detach target) (fun _ m => m = m₁.detached target)
      (fun e m => (m = m₁ ∨ m = m₁.detached target) ∧ e ≠ .unfinished ∧
        G ⟨.failed (.detach target), false, m, m⟩) := by
  have hn : Ensures G T (· = m₁) (Op.note (.request (.detach target))) (fun _ m => m = m₁)
      (fun e m => (m = m₁ ∨ m = m₁.detached target) ∧ e ≠ .unfinished ∧
        G ⟨.failed (.detach target), false, m, m⟩) := by
    refine Ensures.note fun m hm => ?_
    rw [hm]
    exact hT _ _ _ rfl (.inl rfl) (.inl rfl)
  exact Sat.bind hn fun _ => detach_perform fun action x y ha _ => hT action x y ha

section

variable {I : Machine τ → Prop}

theorem snapshot_invariant (hT : ∀ action m, I m → T ⟨action, false, m, m⟩) :
    Ensures G T I snapshot (fun _ => I) (fun _ => I) :=
  Sat.bind (Ensures.read hT) fun _ => Sat.pure fun _ hs => hs.1

theorem checkVisible_invariant {detail : String} (hT : ∀ action m, I m → T ⟨action, false, m, m⟩) :
    Ensures G T I (checkVisible active detail target) (fun _ => I) (fun _ => I) := by
  refine Sat.bind (Ensures.read hT) fun visible => ?_
  split
  · exact Sat.pure fun _ hs => hs.1
  · exact Sat.fail fun _ hs => hs.1

theorem verifyVisible_invariant (hT : ∀ action m, I m → T ⟨action, false, m, m⟩) :
    Ensures G T I (verifyVisible active) (fun _ => I) (fun _ => I) :=
  Sat.forEach_invariant _ fun _ _ => Sat.bind (checkVisible_invariant hT) fun _ => Sat.pure fun _ hs => hs

theorem validate_invariant (hT : ∀ action m, I m → T ⟨action, false, m, m⟩) :
    Ensures G T I (validate owned) (fun _ => I) (fun _ => I) := by
  refine Sat.bind (snapshot_invariant hT) fun current => ?_
  exact Sat.bind (Q := fun _ s => I s.machine) (Sat.ofExcept (fun _ _ _ hs => hs) fun _ _ _ hs => hs)
    fun active => verifyVisible_invariant hT

theorem detach_invariant (hI : ∀ m mounts, I m → I (m.withMounts mounts))
    (hT : ∀ action x y, I x → I y → T ⟨action, false, x, y⟩) :
    Ensures G T I (Op.detach target) (fun _ => I) (fun _ => I) := by
  have hone : ∀ (x : String) (_ : List String), Ensures G T I
      (Op.change (.detach x) fun m => { m with mounts := MountTable.detach m.mounts m.root x })
      (fun _ => I) (fun _ => I) :=
    fun x _ => Ensures.change fun m hm _ => ⟨hT _ _ _ hm (hI m _ hm), hI m _ hm⟩
  exact Ensures.batch (I := fun _ => I) (fun action _ m _ _ hm => hT action m m hm hm) hone
    fun _ _ _ _ hm _ => hm

/-- What does not depend on the mount table survives the cleanup of mounts. -/
theorem cleanup_invariant (hI : ∀ m mounts, I m → I (m.withMounts mounts))
    (hT : ∀ action x y, I x → I y → T ⟨action, false, x, y⟩) :
    Ensures G T I (cleanup owned) (fun _ => I) (fun _ => I) := by
  have hread : ∀ action m, I m → T ⟨action, false, m, m⟩ := fun action m hm => hT action m m hm hm
  have hloop : ∀ fuel current, Ensures G T I (cleanupLoop owned fuel current) (fun _ => I) (fun _ => I) := by
    intro fuel
    induction fuel with
    | zero => exact fun current => Sat.fail fun _ hs => hs
    | succ fuel ih =>
      intro current
      refine Sat.bind (Q := fun _ s => I s.machine) (Sat.ofExcept (fun _ _ _ hs => hs) fun _ _ _ hs => hs)
        fun active => Sat.bind (verifyVisible_invariant hread) fun _ => ?_
      cases active with
      | nil => exact Sat.pure fun _ hs => hs
      | cons next rest =>
        refine Sat.bind (checkVisible_invariant hread) fun visible =>
            Sat.bind (detach_invariant hI hT) fun _ =>
          Sat.bind (snapshot_invariant hread) fun current => ?_
        split
        · exact Sat.fail fun _ hs => hs
        · exact ih current
  exact Sat.bind (snapshot_invariant hread) fun current => hloop _ current

end

end Mounts

end HybridMount
