import HybridMount.LinkedDeletion

/-! The rule table of the kernel module over whole runs of requests: the list, the tree and the
child sets stay in step. -/

namespace HybridMount.Vfs.Kernel

open LittleEndian

/-- The tables which requests lead to when every addition is an orderly one. Deletions come as
they like. -/
inductive Ordered : Kernel → Prop
  | boot : Ordered boot
  | add {k k' : Kernel} {env : Nat → Answers} {request : Request} {err : Int32} (h : Ordered k)
      (hfits : request.Fits)
      (horderly : Orderly env request k) (ha : addRule env request k = some (err, k')) : Ordered k'
  | del {k : Kernel} (env : Nat → Answers) (vPath : Bytes) (beyond : UInt8) (uid : UInt32) (h : Ordered k) :
      Ordered (delRule env vPath beyond uid k).2
  | retire {k : Kernel} (h : Ordered k) : Ordered (retire k)
  | clear {k : Kernel} (h : Ordered k) : Ordered (clearAll k)

/-- A chain of directories leads from a rule to the root or into the real file system. -/
inductive Hung (k : Kernel) : Rule → Prop
  | root {rule : Rule} (hparent : k.parentDir rule.id = none) (hlen : rule.vPath.length ≤ 1) : Hung k rule
  | native {rule : Rule} {dir : Nat} (hparent : k.parentDir rule.id = some dir)
      (hhook : Hooked k dir) : Hung k rule
  | under {rule p : Rule} {dir : Nat} (hp : p ∈ k.rules) (hbelow : HangsBelow k rule p dir)
      (h : Hung k p) : Hung k rule

/-- The list, the tree and the child sets agree. -/
structure InStep (k : Kernel) : Prop where
  unique : ∀ r ∈ k.rules, ∀ r' ∈ k.rules, r.vPath = r'.vPath → r.targetUid = r'.targetUid → r = r'
  found : ∀ r ∈ k.rules, Art.searchExact r.vPath 0 r.targetUid k.root = some r
  stored : ∀ r, Art.Holds r k.root → r ∈ k.rules
  children : ∀ dir, ∀ c ∈ (k.dirs dir).children, c ∈ k.rules ∧ k.parentDir c.id = some dir
  names : ∀ dir, ∀ c ∈ (k.dirs dir).children, ∀ c' ∈ (k.dirs dir).children, c.targetUid = c'.targetUid →
    k.nameOf c = k.nameOf c' → c = c'
  hung : ∀ r ∈ k.rules, Hung k r

section

variable {k : Kernel} {rule r : Rule}

theorem parentPath_length {path parent : Bytes} (h : parentPath path = some parent) :
    parent.length < path.length := by
  unfold parentPath at h
  split at h
  · cases h
  · rename_i hlong
    obtain ⟨i, hslash, rfl⟩ := Option.map_eq_some_iff.mp h
    have hlt := parentLen_lt hslash (not_le.mp hlong)
    rw [List.length_take]
    omega

/-- The path of every parent is shorter, so that the chain ends. -/
theorem Intact.hung (h : Intact k) (hr : r ∈ k.rules) : Hung k r := by
  generalize hn : r.vPath.length = n
  induction n using Nat.strong_induction_on generalizing r with
  | _ n ih =>
    cases h.linked.attached r hr with
    | loose hl => exact absurd hl (Set.notMem_empty r)
    | top hnone hlen => exact .root hnone hlen
    | native hp hh => exact .native hp hh
    | under hp hb =>
      have hshort := parentPath_length hb.path
      exact .under hp hb (ih _ (hn ▸ hshort) hp rfl)

theorem Intact.inStep (h : Intact k) : InStep k := by
  refine ⟨h.unique, fun r hr => h.found hr, fun r hr => (h.synced.holds r).mp hr, ?_, ?_,
    fun r hr => h.hung hr⟩
  · exact fun dir c hc => ⟨h.linked.current dir c hc, (h.linked.placed dir c hc).2⟩
  · intro dir c hc c' hc' huid hname
    exact List.inj_on_of_nodup_map (h.linked.distinct dir) hc hc' (Prod.ext huid hname)

theorem Ordered.intact (h : Ordered k) : Intact k := by
  induction h with
  | boot => exact boot_intact
  | add h hfits horderly ha ih => exact addRule_intact ih hfits horderly ha
  | del env vPath beyond uid h ih => exact delRule_intact ih
  | retire h ih => exact retire_intact ih
  | clear h ih => exact clearAll_intact ih

/-- Whatever the kernel around the module answers, the list, the tree and the child sets agree
after every request of an orderly run. -/
theorem ordered_inStep (h : Ordered k) : InStep k := h.intact.inStep

end

/-- Where no rule is above it, a new rule comes to a native directory. -/
theorem sheltered_native {env : Nat → Answers} {vPath path : Bytes} {uid : UInt32} {k : Kernel} {cut : Cut}
    {rest : List Cut} {t n : Nat}
    (hnone : (cut.slash.bind fun i => nearest vPath uid (parentLen i) k) = none)
    (hpath : (env t).kernPath = some (.native n)) :
    Sheltered env vPath uid k (cut :: rest) path t := by
  unfold Sheltered
  simp only [hnone, hpath]

/-- Where nothing is at the parent's path, it gets a rule of its own. -/
theorem sheltered_generated {env : Nat → Answers} {vPath path : Bytes} {uid : UInt32} {k : Kernel} {cut : Cut}
    {rest : List Cut}
    {t i : Nat} (hslash : cut.slash = some i) (hnone : nearest vPath uid (parentLen i) k = none)
    (hpath : (env t).kernPath = none)
    (hfree : ∀ r ∈ k.rules, ¬ (r.vPath = vPath.take (parentLen i) ∧ r.targetUid = uid))
    (hrest : Sheltered env vPath uid k rest (vPath.take (parentLen i)) (t + 3)) :
    Sheltered env vPath uid k (cut :: rest) path t := by
  unfold Sheltered
  simp only [hslash, Option.bind_some, hnone, hpath]
  rintro - - j hj
  obtain rfl := Option.some.inj hj
  exact ⟨hfree, hrest⟩

/-- There is a directory at the root, and none at `/a`. -/
def rootOnly (t : Nat) : Answers := if t = 2 then { generous with kernPath := none } else generous

/-- The whiteout of `/a/b`, for which `/a` is generated. -/
def nestedOnce : Kernel := ((addRule rootOnly (hide [97, 47, 98] 0) boot).map Prod.snd).getD boot

/-- Now a lookup of `/a` comes to the directory of its rule. -/
def generatedA : Answers := { generous with kernPath := some (.virtual (some 0)) }

/-- The whiteout of `/a/c` besides it. -/
def nestedTwice : Kernel :=
  ((addRule (fun _ => generatedA) (hide [97, 47, 99] 0) nestedOnce).map Prod.snd).getD boot

theorem nestedOnce_rules : nestedOnce.rules = [⟨1, [47, 97], [], 3, 0⟩, ⟨0, [47, 97, 47, 98], [], 4, 0⟩] := by
  decide +kernel

theorem nestedOnce_ordered : Ordered nestedOnce := by
  have hrequested : requested rootOnly (hide [97, 47, 98] 0) boot = [hidden 0 [97, 47, 98] 0] := by
    decide +kernel
  have horderly : Orderly rootOnly (hide [97, 47, 98] 0) boot := by
    refine ⟨fun rule hrule => ?_, fun rule hrule existing hfound => ?_⟩
    · rw [hrequested, List.mem_singleton] at hrule
      subst hrule
      have hcuts : cuts (hidden 0 [97, 47, 98] 0).vPath (hidden 0 [97, 47, 98] 0).vPath.length =
          [⟨4, some 2⟩, ⟨2, some 0⟩] := by
        decide +kernel
      rw [hcuts]
      refine sheltered_generated rfl (by decide +kernel) rfl (fun r hr => absurd hr List.not_mem_nil)
        (sheltered_native (n := 0) ?_ rfl)
      decide +kernel
    · rw [hrequested, List.mem_singleton] at hrule
      subst hrule
      have hempty : Art.searchExact (hidden 0 [97, 47, 98] 0).vPath 0 (hidden 0 [97, 47, 98] 0).targetUid
          boot.root = none := by
        decide +kernel
      rw [hempty] at hfound
      cases hfound
  unfold nestedOnce
  cases ha : addRule rootOnly (hide [97, 47, 98] 0) boot with
  | none => exact .boot
  | some outcome => exact .add .boot (by decide) horderly ha

theorem nestedTwice_ordered : Ordered nestedTwice := by
  have hrequested : requested (fun _ => generatedA) (hide [97, 47, 99] 0) nestedOnce =
      [hidden 2 [97, 47, 99] 0] := by
    decide +kernel
  have hnew : Art.searchExact (hidden 2 [97, 47, 99] 0).vPath 0 (hidden 2 [97, 47, 99] 0).targetUid
      nestedOnce.root = none := by
    decide +kernel
  have hcleared : cleared (hidden 2 [97, 47, 99] 0) nestedOnce = nestedOnce := by
    unfold cleared
    rw [hnew]
  have horderly : Orderly (fun _ => generatedA) (hide [97, 47, 99] 0) nestedOnce := by
    refine ⟨fun rule hrule => ?_, fun rule hrule existing hfound => ?_⟩
    · rw [hrequested, List.mem_singleton] at hrule
      subst hrule
      have hcuts : cuts (hidden 2 [97, 47, 99] 0).vPath (hidden 2 [97, 47, 99] 0).vPath.length =
          [⟨4, some 2⟩, ⟨2, some 0⟩] := by
        decide +kernel
      have hnone : nearest (hidden 2 [97, 47, 99] 0).vPath (hidden 2 [97, 47, 99] 0).targetUid (parentLen 2)
          nestedOnce = none := by
        decide +kernel
      rw [hcuts, hcleared]
      unfold Sheltered
      simp only [Option.bind_some, hnone]
      refine fun _ => ⟨⟨⟨1, [47, 97], [], 3, 0⟩, ?_, by decide +kernel, by decide +kernel⟩, ?_⟩
      · rw [nestedOnce_rules]
        exact List.mem_cons_self
      · unfold Taken
        decide +kernel
    · rw [hrequested, List.mem_singleton] at hrule
      subst hrule
      rw [hnew] at hfound
      cases hfound
  unfold nestedTwice
  cases ha : addRule (fun _ => generatedA) (hide [97, 47, 99] 0) nestedOnce with
  | none => exact .boot
  | some outcome => exact .add nestedOnce_ordered (by decide) horderly ha

/-- The generated directory stays with the child which is left. -/
theorem ordered_inStep_nested : InStep (delRule (fun _ => generatedA) [47, 97, 47, 98] 0 0 nestedTwice).2 ∧
    (delRule (fun _ => generatedA) [47, 97, 47, 98] 0 0 nestedTwice).2.rules =
    [⟨1, [47, 97], [], 3, 0⟩, ⟨2, [47, 97, 47, 99], [], 4, 0⟩] :=
  ⟨ordered_inStep (.del (fun _ => generatedA) [47, 97, 47, 98] 0 0 nestedTwice_ordered), by decide +kernel⟩

end HybridMount.Vfs.Kernel
