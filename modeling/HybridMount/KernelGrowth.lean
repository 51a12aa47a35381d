import HybridMount.KernelDirectories
import HybridMount.KernelRequests

/-! Tables which are reached in a kernel where nothing fails. -/

namespace HybridMount.Vfs.Kernel

open LittleEndian

section

variable {k k' : Kernel} {rule : Rule} {uid : UInt32} {name : Bytes}

/-- Every call succeeds and every parent is the native directory of this number. -/
def directory (number : Nat) : Answers := ⟨true, some false, some (.native number), 0, 0⟩

abbrev generous : Answers := directory 0

/-- The first child of a directory needs no memory. -/
theorem injectChild_first {alloc : Bool} {dir childLen : Nat} (h : (k.dirs dir).children = []) :
    (injectChild alloc dir rule childLen k).1 = 0 := by
  rcases injectChild_cases alloc dir rule childLen k with ⟨children, capacity, heq, -⟩ | ⟨-, hne, -⟩
  · rw [heq]
  · exact absurd h hne

/-- A directory without a hook gets one, and the rule is its first child. -/
theorem attachReal_directory {number childLen : Nat} (hh : Housed k) (hfree : k.hooks number = none) :
    (attachReal (fun _ => directory number) (.native number) rule childLen k).1 = 0 ∧
      (attachReal (fun _ => directory number) (.native number) rule childLen k).2.hooks =
        Function.update k.hooks number (some k.nextDir) := by
  let k₁ : Kernel := { k.tick with nextDir := k.nextDir + 1 }.tick.tick
  have hempty : (k₁.dirs k.nextDir).children = [] := (hh.fresh k.nextDir le_rfl).1
  have hfirst : (injectChild true k.nextDir rule childLen k₁).1 = 0 := injectChild_first hempty
  have hhooks : (injectChild true k.nextDir rule childLen k₁).2.hooks = k.hooks := by
    rcases injectChild_cases true k.nextDir rule childLen k₁ with ⟨children, capacity, heq, -⟩ | ⟨-, hne, -⟩
    · rw [heq]
      rfl
    · exact absurd hempty hne
  have hdef : attachReal (fun _ => directory number) (.native number) rule childLen k =
      (0, { (injectChild true k.nextDir rule childLen k₁).2 with
        hooks := Function.update (injectChild true k.nextDir rule childLen k₁).2.hooks number
          (some k.nextDir) }) := by
    simp only [attachReal, hfree]
    show (if (injectChild true k.nextDir rule childLen k₁).1 ≠ 0 then _ else _) = _
    rw [if_neg (not_not.mpr hfirst)]
    rfl
  rw [hdef]
  exact ⟨rfl, by rw [hhooks]⟩

theorem stripSlashes_top (h : SLASH ∉ name) (hne : name ≠ []) :
    stripSlashes (SLASH :: name) = SLASH :: name := by
  rw [stripSlashes, dif_neg]
  rintro ⟨-, hlast⟩
  rw [List.getLast?_cons, Option.some.injEq] at hlast
  apply h
  rw [← hlast, List.getLast?_eq_some_getLast hne]
  exact List.getLast_mem hne

theorem cuts_whole {path : Bytes} {i : Nat} (hslash : lastSlash path = some i) (hlong : 1 < path.length) :
    cuts path path.length = ⟨path.length, some i⟩ :: cuts path i := by
  have htake : lastSlash (path.take path.length) = some i := by rw [List.take_length, hslash]
  rw [cuts, if_neg (by omega)]
  split
  · rename_i hnone
    rw [htake] at hnone
    cases hnone
  · rename_i j hsome
    have hj : some i = some j := htake.symm.trans hsome
    rw [← Option.some.inj hj]

/-- The rule of a whiteout is allocated without a look at the real path. -/
theorem allocRule_whiteout {number : Nat} (vPath : Bytes) (uid : UInt32) (k : Kernel) :
    allocRule (fun _ => directory number) ⟨vPath, [], 4, uid⟩ k =
      (.ok ⟨k.nextId, stripSlashes vPath, [], 4, uid⟩, { k.tick.tick with nextId := k.nextId + 1 }) := by
  have hbare : Request.bare ⟨vPath, [], 4, uid⟩ = true := by
    show (UInt16.ofNat 4 &&& (WHITEOUT ||| OPAQUE) != 0) = true
    decide
  have hrule : Request.rule ⟨vPath, [], 4, uid⟩ k.nextId false =
      ⟨k.nextId, stripSlashes vPath, [], 4, uid⟩ := by
    have hf : UInt16.ofNat 4 = 4 := rfl
    have hflags : (4 : UInt16) &&& OPAQUE = 0 := by decide
    simp only [Request.rule, hbare, hf, hflags, if_true, Bool.false_eq_true, if_false]
  have hdir : Rule.has ⟨k.nextId, stripSlashes vPath, [], 4, uid⟩ IS_DIR = false := by
    show ((4 : UInt16) &&& IS_DIR != 0) = false
    decide
  have halloc : ((directory number).alloc = false) = False := by simp [directory]
  rw [allocRule, if_neg (by rw [halloc]; exact not_false), hbare]
  simp only [if_true, hrule, hdir]

/-- A whiteout of an entry of the root directory. -/
def hide (name : Bytes) (uid : UInt32) : Request := ⟨SLASH :: name, [], 4, uid⟩

def hidden (id : Nat) (name : Bytes) (uid : UInt32) : Rule := ⟨id, SLASH :: name, [], 4, uid⟩

/-- A whiteout goes in as the first child of a native directory when its path and uid are not in the
table and no rule is at the directory. -/
theorem addRule_whiteout {path : Bytes} {number i : Nat} (h : Synced k) (hh : Housed k)
    (hslash : lastSlash path = some i)
    (hstrip : stripSlashes path = path) (hlong : 1 < path.length) (hzero : 0 ∉ path)
    (hshort : path.length ≤ 4000)
    (hfree : k.hooks number = none)
    (hall : ∀ r ∈ k.rules, r.vPath ≠ path.take (parentLen i) ∧ ¬ (r.vPath = path ∧ r.targetUid = uid)) :
    ∃ k', addRule (fun _ => directory number) ⟨path, [], 4, uid⟩ k = some (0, k') ∧
      k'.rules = k.rules ++ [⟨k.nextId, path, [], 4, uid⟩] ∧
        k'.hooks = Function.update k.hooks number (some k.nextDir) := by
  have hmade : allocRule (fun _ => directory number) ⟨path, [], 4, uid⟩ k =
      (.ok ⟨k.nextId, path, [], 4, uid⟩, { k.tick.tick with nextId := k.nextId + 1 }) := by
    have halloc := @allocRule_whiteout number path uid k
    rw [hstrip] at halloc
    exact halloc
  have hm : Synced { k.tick.tick with nextId := k.nextId + 1 } := h.of_same ⟨rfl, rfl, Nat.le_succ _⟩
  have hhm : Housed { k.tick.tick with nextId := k.nextId + 1 } := hh.tick.tick.newId
  generalize hmk : ({ k.tick.tick with nextId := k.nextId + 1 } : Kernel) = m at hmade hm hhm
  have hmrules : m.rules = k.rules := by rw [← hmk]; rfl
  have hmhooks : m.hooks = k.hooks := by rw [← hmk]; rfl
  have hmdir : m.nextDir = k.nextDir := by rw [← hmk]; rfl
  -- No lookup finds a rule: neither one of this path and uid nor one at the directory.
  have hnothing : ∀ target beyond u, (∀ r ∈ k.rules, ¬ (r.vPath = target ∧ r.targetUid = u)) →
      Art.searchExact target beyond u m.root = none := by
    intro target beyond u hno
    cases hs : Art.searchExact target beyond u m.root with
    | none => rfl
    | some found =>
      obtain ⟨hholds, hp, hu⟩ := Art.searchExact_sound hm.sound hs
      have hmem := (hm.holds found).mp hholds
      rw [hmrules] at hmem
      exact absurd ⟨hp, hu⟩ (hno found hmem)
  have hshadow : shadowExisting ⟨k.nextId, path, [], 4, uid⟩ m = m := by
    have hexact : Art.searchExact path 0 uid m.root = none := hnothing path 0 uid fun r hr => (hall r hr).2
    simp only [shadowExisting, hexact]
  have hnearest : nearest path uid (parentLen i) m = none := by
    have hparent : ∀ beyond u, Art.searchExact (path.take (parentLen i)) beyond u m.root = none :=
      fun beyond u => hnothing _ beyond u fun r hr hsame => (hall r hr).1 hsame.1
    simp only [nearest, hparent, ite_self]
  let rule : Rule := ⟨k.nextId, path, [], 4, uid⟩
  let result := attachReal (fun _ => directory number) (.native number) rule
    (Cut.childLen ⟨path.length, some i⟩) m.tick
  have hfreem : m.tick.hooks number = none := by
    show m.hooks number = none
    rw [hmhooks, hfree]
  obtain ⟨hreal, hhooks⟩ : result.1 = 0 ∧
      result.2.hooks = Function.update m.tick.hooks number (some m.tick.nextDir) :=
    attachReal_directory hhm.tick hfreem
  have hattached : attach (fun _ => directory number) path uid
      (⟨path.length, some i⟩ :: cuts path i) rule [] m =
      some (0, [], result.2) := by
    have hbind : ((some i).bind fun i => nearest path uid (parentLen i) m) = none := hnearest
    rw [attach, hbind]
    show some (result.1, [], result.2) = _
    rw [hreal]
  have hsame : SameTable m result.2 := (same_tick m).trans (same_attachReal ..)
  have htopology : generateVirtualTopology (fun _ => directory number) rule m = some (0, [], result.2) := by
    have hcuts := cuts_whole hslash hlong
    simp only [generateVirtualTopology, rule, hcuts]
    rw [show attach (fun _ => directory number) path uid (⟨path.length, some i⟩ :: cuts path i)
      ⟨k.nextId, path, [], 4, uid⟩ [] m = some (0, [], result.2) from hattached]
    rfl
  have hm' := hm.of_same hsame
  have hnew : rule ∉ result.2.rules := by
    intro hmem
    rw [hsame.rules, hmrules] at hmem
    exact lt_irrefl k.nextId (h.allocated rule hmem)
  have hnamed : Art.Named rule := ⟨hzero, by show path.length < _; omega⟩
  have hinsert : (treeInsert true rule result.2.tick).1 = 0 := by
    have hfresh : ¬ Art.Holds rule result.2.root := fun hholds => hnew ((hm'.holds _).mp hholds)
    rcases Art.insert_sound hm'.sound hnamed hfresh true with ⟨hok, -⟩ | ⟨hfalse, -⟩
    · exact hok
    · cases hfalse
  refine ⟨(treeInsert true rule result.2.tick).2, ?_, ?_, ?_⟩
  · simp only [addRule, hmade, hshadow]
    rw [show generateVirtualTopology (fun _ => directory number) ⟨k.nextId, path, [], 4, uid⟩ m =
      some (0, [], result.2)
      from htopology]
    show (if (treeInsert true rule result.2.tick).1 ≠ 0 then _ else _) = _
    rw [if_neg (not_not.mpr hinsert)]
    rfl
  · show (if (treeInsert true rule result.2.tick).1 = 0 then result.2.rules ++ [rule] else result.2.rules) = _
    rw [if_pos hinsert, hsame.rules, hmrules]
  · show result.2.hooks = _
    rw [hhooks]
    show Function.update m.hooks number (some m.nextDir) = _
    rw [hmhooks, hmdir]

end

end HybridMount.Vfs.Kernel
